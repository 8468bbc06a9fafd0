import N7OS.Lib.StringSearch

/-! # Strings put together

`strcat`, `strncat`, `strlcat`, `memccpy` and `memswap` of `lib/string.c`. Only `strlcat`
is told where the buffer ends.
-/
namespace N7OS

/-- The pointer behind the copy of `c`, or nothing if there was none. -/
def memccpy : List U8 → List U8 → U32 → ℕ → Option (List U8 × Option ℕ)
  | dst, _, _, 0 => some (dst, none)
  | _ :: dst, ch :: src, c, n + 1 =>
    if ch = c.setWidth 8 then some (ch :: dst, some 1)
    else (memccpy dst src c n).map fun (q, r) => (ch :: q, r.map (· + 1))
  | _, _, _, _ + 1 => none

/-- The two areas are apart. -/
def memswap : List U8 → List U8 → ℕ → Option (List U8 × List U8)
  | p, q, 0 => some (p, q)
  | a :: p, b :: q, n + 1 => (memswap p q n).map fun (p, q) => (b :: p, a :: q)
  | _, _, _ + 1 => none

/-- `strcpy(strchr(dst, '\0'), src)`. -/
def strcat (dst src : List U8) : Option (List U8) :=
  (strchr dst 0#32).bind fun q => q.bind fun i => (strcpy (dst.drop i) src).map (dst.take i ++ ·)

def strncatLoop : List U8 → List U8 → ℕ → Option (List U8)
  | _ :: q, _, 0 => some (0#8 :: q)
  | _ :: q, ch :: src, n + 1 => if ch = 0#8 then some (ch :: q) else (strncatLoop q src n).map (ch :: ·)
  | _, _, _ => none

def strncat (dst src : List U8) (n : ℕ) : Option (List U8) :=
  (strchr dst 0#32).bind fun q => q.bind fun i => (strncatLoop (dst.drop i) src n).map (dst.take i ++ ·)

/-- `while ((ch = *p++))`, and the terminator. -/
def strlcatLoop (size bytes : ℕ) : List U8 → List U8 → Option (ℕ × List U8)
  | _, [] => none
  | q, ch :: src =>
    if ch ≠ 0#8 then
      if bytes + 1 < size then
        q.head?.bind fun _ => (strlcatLoop size (bytes + 1) q.tail src).map fun (r, q) => (r, ch :: q)
      else strlcatLoop size (bytes + 1) q src
    else q.head?.map fun _ => (bytes, 0#8 :: q.tail)

/-- The loop to the end of `dst` is that of `strnlen`. -/
def strlcat (dst src : List U8) (size : ℕ) : Option (ℕ × List U8) :=
  (strnlen dst size).bind fun bytes =>
    if bytes = size then (strlen src).map fun n => (bytes + n, dst)
    else (strlcatLoop size bytes (dst.drop bytes) src).map fun (r, q) => (r, dst.take bytes ++ q)

/-- Calls one after the other, with all that they return. -/
def strlcatCalls (size : ℕ) : List (List U8) → List U8 → Option (List ℕ × List U8)
  | [], dst => some ([], dst)
  | src :: srcs, dst => (strlcat dst src size).bind fun (r, dst) =>
    (strlcatCalls size srcs dst).map fun (rs, dst) => (r :: rs, dst)

section
variable {s t rs rest : List U8} {size n : ℕ}

/-- The end of a string, where the functions begin to write. -/
theorem strchr_end (ht : 0#8 ∉ t) (rest : List U8) : strchr (t ++ 0#8 :: rest) 0#32 = some (some t.length) := by
  induction t with
  | nil => rfl
  | cons c t ih =>
    obtain ⟨hc, ht⟩ := List.ne_and_not_mem_of_not_mem_cons ht
    have hne : c ≠ (0#32).setWidth 8 := hc.symm
    rw [List.cons_append, strchr, if_pos hne, if_neg hc.symm, ih ht]
    rfl

theorem strcat_string (ht : 0#8 ∉ t) (hs : 0#8 ∉ s) (rs : List U8) (hroom : s.length ≤ rest.length) :
    strcat (t ++ 0#8 :: rest) (s ++ 0#8 :: rs) = some (t ++ s ++ 0#8 :: rest.drop s.length) := by
  rw [strcat, strchr_end ht, Option.bind_some, Option.bind_some, List.drop_left, List.take_left,
    strcpy_string hs rs (by rw [List.length_cons]; omega), Option.map_some, List.drop_succ_cons, List.append_assoc]

theorem strncatLoop_string (hs : 0#8 ∉ s) (rs : List U8) {q : List U8} (hroom : min s.length n < q.length) :
    strncatLoop q (s ++ 0#8 :: rs) n = some (s.take n ++ 0#8 :: q.drop (min s.length n + 1)) := by
  induction n generalizing s q with
  | zero =>
    obtain ⟨b, q, rfl⟩ := List.exists_cons_of_length_pos (Nat.zero_lt_of_lt hroom)
    simp [strncatLoop]
  | succ n ih =>
    obtain ⟨b, q, rfl⟩ := List.exists_cons_of_length_pos (Nat.zero_lt_of_lt hroom)
    cases s with
    | nil => simp [strncatLoop]
    | cons c s =>
      obtain ⟨hc, hs⟩ := List.ne_and_not_mem_of_not_mem_cons hs
      rw [List.length_cons, Nat.succ_min_succ, List.length_cons] at hroom
      rw [List.cons_append, strncatLoop, if_neg hc.symm, ih hs (by omega)]
      simp

/-- At most `n` characters, and always a terminator. -/
theorem strncat_string (ht : 0#8 ∉ t) (hs : 0#8 ∉ s) (rs : List U8) (hroom : min s.length n ≤ rest.length) :
    strncat (t ++ 0#8 :: rest) (s ++ 0#8 :: rs) n = some (t ++ s.take n ++ 0#8 :: rest.drop (min s.length n)) := by
  rw [strncat, strchr_end ht, Option.bind_some, Option.bind_some, List.drop_left, List.take_left,
    strncatLoop_string hs rs (by rw [List.length_cons]; omega), Option.map_some, List.drop_succ_cons, List.append_assoc]

/-- Behind the last place of the buffer the characters are only counted. -/
theorem strlcatLoop_full (hs : 0#8 ∉ s) (rs : List U8) {bytes : ℕ} (hfull : size ≤ bytes + 1) (b : U8) (q : List U8) :
    strlcatLoop size bytes (b :: q) (s ++ 0#8 :: rs) = some (bytes + s.length, 0#8 :: q) := by
  induction s generalizing bytes with
  | nil => rfl
  | cons c s ih =>
    obtain ⟨hc, hs⟩ := List.ne_and_not_mem_of_not_mem_cons hs
    rw [List.cons_append, strlcatLoop, if_pos hc.symm, if_neg (by omega), ih hs (by omega), List.length_cons,
      Nat.add_right_comm, Nat.add_assoc]

theorem strlcatLoop_string (hs : 0#8 ∉ s) (rs : List U8) {bytes : ℕ} {q : List U8} (hbytes : bytes < size)
    (hroom : size - bytes ≤ q.length) :
    strlcatLoop size bytes q (s ++ 0#8 :: rs) =
      some (bytes + s.length, s.take (size - 1 - bytes) ++ 0#8 :: q.drop (min s.length (size - 1 - bytes) + 1)) := by
  induction s generalizing bytes q with
  | nil =>
    obtain ⟨b, q, rfl⟩ := List.exists_cons_of_length_pos (show 0 < q.length by omega)
    simp [strlcatLoop]
  | cons c s ih =>
    obtain ⟨b, q, rfl⟩ := List.exists_cons_of_length_pos (show 0 < q.length by omega)
    by_cases hlast : bytes + 1 < size
    · obtain ⟨hc, hs⟩ := List.ne_and_not_mem_of_not_mem_cons hs
      have hleft : size - 1 - bytes = size - 1 - (bytes + 1) + 1 := by omega
      have hrest := ih hs hlast (q := q) (by rw [List.length_cons] at hroom; omega)
      rw [List.cons_append, strlcatLoop, if_pos hc.symm, if_pos hlast, List.head?_cons, Option.bind_some, List.tail_cons,
        hrest, Option.map_some, hleft, List.take_succ_cons, List.length_cons, Nat.succ_min_succ, List.drop_succ_cons,
        Nat.add_right_comm, Nat.add_assoc, List.cons_append]
    · have hnone : size - 1 - bytes = 0 := by omega
      rw [strlcatLoop_full hs rs (by omega), hnone]
      simp

/-- The text that a buffer of `size` bytes has room for, and what stands behind it. -/
def cutText (size : ℕ) (text dst : List U8) : List U8 :=
  text.take (size - 1) ++ 0#8 :: dst.drop ((text.take (size - 1)).length + 1)

theorem strlcat_string (ht : 0#8 ∉ t) (hs : 0#8 ∉ s) (rs : List U8) (htext : t.length < size)
    (hsize : size ≤ t.length + 1 + rest.length) :
    strlcat (t ++ 0#8 :: rest) (s ++ 0#8 :: rs) size =
      some (t.length + s.length, cutText size (t ++ s) (t ++ 0#8 :: rest)) := by
  have hmin : min t.length size = t.length := by omega
  rw [strlcat, strnlen_string ht rest size, hmin, Option.bind_some, if_neg (by omega), List.drop_left, List.take_left,
    strlcatLoop_string hs rs htext (by rw [List.length_cons]; omega), Option.map_some, cutText]
  have htake : (t ++ s).take (size - 1) = t ++ s.take (size - 1 - t.length) := by
    rw [List.take_append, List.take_of_length_le (by omega)]
  have hdrop : (t ++ 0#8 :: rest).drop ((t ++ s.take (size - 1 - t.length)).length + 1) =
      (0#8 :: rest).drop (min s.length (size - 1 - t.length) + 1) := by
    rw [List.drop_append, List.drop_of_length_le (by rw [List.length_append]; omega), List.nil_append, List.length_append,
      List.length_take, Nat.min_comm]
    exact congrArg (List.drop · (0#8 :: rest)) (by omega)
  rw [htake, hdrop, List.append_assoc]

theorem cutText_self (h : t.length < size) (rest : List U8) : cutText size t (t ++ 0#8 :: rest) = t ++ 0#8 :: rest := by
  rw [cutText, List.take_of_length_le (by omega), ← List.drop_drop, List.drop_left]
  rfl

theorem take_take_append (n : ℕ) (s t : List U8) : (s.take n ++ t).take n = (s ++ t).take n := by
  rw [List.take_append, List.take_append, List.take_take, Nat.min_self, List.length_take]
  exact congrArg (s.take n ++ t.take ·) (by omega)

/-- What is cut off once does not matter later. -/
theorem cutText_cutText (size : ℕ) (s t dst : List U8) :
    cutText size (s.take (size - 1) ++ t) (cutText size s dst) = cutText size (s ++ t) dst := by
  have hlonger : (s.take (size - 1)).length ≤ ((s ++ t).take (size - 1)).length := by
    rw [List.length_take, List.length_take, List.length_append]
    omega
  obtain ⟨k, hk⟩ := Nat.exists_eq_add_of_le hlonger
  rw [cutText, take_take_append, cutText, cutText, hk, Nat.add_assoc, ← List.drop_drop, List.drop_left,
    List.drop_succ_cons, List.drop_drop]
  exact congrArg (fun i => (s ++ t).take (size - 1) ++ 0#8 :: dst.drop i) (by omega)

theorem memswap_swaps {p q : List U8} (hp : n ≤ p.length) (hq : n ≤ q.length) :
    memswap p q n = some (q.take n ++ p.drop n, p.take n ++ q.drop n) := by
  induction n generalizing p q with
  | zero => cases p <;> cases q <;> rfl
  | succ n ih =>
    obtain ⟨a, p, rfl⟩ := List.exists_cons_of_length_pos (Nat.zero_lt_of_lt hp)
    obtain ⟨b, q, rfl⟩ := List.exists_cons_of_length_pos (Nat.zero_lt_of_lt hq)
    rw [memswap, ih (Nat.le_of_succ_le_succ hp) (Nat.le_of_succ_le_succ hq)]
    rfl

/-- The copy ends behind the first `c`. -/
theorem memccpy_copies {dst src : List U8} (c : U32) (hd : n ≤ dst.length) (hs : n ≤ src.length) :
    ∃ r, FirstIndex (src.take n) (c.setWidth 8) r ∧ let k := r.elim n (· + 1)
      memccpy dst src c n = some (src.take k ++ dst.drop k, r.map (· + 1)) := by
  induction n generalizing dst src with
  | zero => exact ⟨none, first_nil _, by cases dst <;> rfl⟩
  | succ n ih =>
    obtain ⟨d, dst, rfl⟩ := List.exists_cons_of_length_pos (Nat.zero_lt_of_lt hd)
    obtain ⟨ch, src, rfl⟩ := List.exists_cons_of_length_pos (Nat.zero_lt_of_lt hs)
    rw [memccpy, List.take_succ_cons]
    by_cases hc : ch = c.setWidth 8
    · rw [if_pos hc]
      exact ⟨some 0, hc ▸ first_cons_self _ _, rfl⟩
    · obtain ⟨r, hr, hcopy⟩ := ih (Nat.le_of_succ_le_succ hd) (Nat.le_of_succ_le_succ hs)
      rw [if_neg hc, hcopy]
      refine ⟨_, hr.cons hc, ?_⟩
      cases r <;> rfl

end

/-- For every run of `strlcat` into a buffer of `size` bytes: it holds what fits of all the strings together, with a
terminator, the bytes behind it are as before, and something has been cut off if and only if one of the results says so. -/
theorem strlcatCalls_joined {size : ℕ} {t rest : List U8} {ss : List (List U8)} (ht : 0#8 ∉ t) (hss : ∀ s ∈ ss, 0#8 ∉ s)
    (htext : t.length < size) (hsize : size ≤ t.length + 1 + rest.length) :
    ∃ rs, strlcatCalls size (ss.map (· ++ [0#8])) (t ++ 0#8 :: rest) =
        some (rs, cutText size (t ++ ss.flatten) (t ++ 0#8 :: rest)) ∧
      ((∃ r ∈ rs, size ≤ r) ↔ size ≤ (t ++ ss.flatten).length) := by
  induction ss generalizing t rest with
  | nil =>
    refine ⟨[], ?_, ?_⟩
    · rw [List.flatten_nil, List.append_nil, cutText_self htext]
      rfl
    · simp only [List.not_mem_nil, false_and, exists_false, false_iff, List.flatten_nil, List.append_nil]
      omega
  | cons s ss ih =>
    obtain ⟨hs, hss⟩ := List.forall_mem_cons.mp hss
    set dst := t ++ 0#8 :: rest with hdst
    set t' := (t ++ s).take (size - 1) with ht'
    have hnext : cutText size (t ++ s) dst = t' ++ 0#8 :: dst.drop (t'.length + 1) := rfl
    have hlength : t'.length = min (size - 1) (t.length + s.length) := by
      rw [ht', List.length_take, List.length_append]
    have hzero : 0#8 ∉ t' := fun hmem => (List.mem_append.mp (List.mem_of_mem_take hmem)).elim ht hs
    have hbehind : (dst.drop (t'.length + 1)).length = t.length + 1 + rest.length - (t'.length + 1) := by
      rw [List.length_drop, hdst, List.length_append, List.length_cons]
      omega
    obtain ⟨rs, hcalls, hcut⟩ := @ih t' (dst.drop (t'.length + 1)) hzero hss (by omega) (by omega)
    have hjoined : cutText size (t' ++ ss.flatten) (t' ++ 0#8 :: dst.drop (t'.length + 1)) =
        cutText size (t ++ (s :: ss).flatten) dst := by
      rw [← hnext, ht', cutText_cutText, List.flatten_cons, List.append_assoc]
    refine ⟨(t.length + s.length) :: rs, ?_, ?_⟩
    · rw [List.map_cons, strlcatCalls, strlcat_string ht hs [] htext hsize, Option.bind_some, hnext]
      rw [hjoined] at hcalls
      exact congrArg (Option.map fun (r : List ℕ × List U8) => ((t.length + s.length) :: r.1, r.2)) hcalls
    · have hsum : (t ++ (s :: ss).flatten).length = t.length + (s.length + ss.flatten.length) := by
        rw [List.flatten_cons, List.length_append, List.length_append]
      have hsum' : (t' ++ ss.flatten).length = min (size - 1) (t.length + s.length) + ss.flatten.length := by
        rw [List.length_append, hlength]
      rw [hsum'] at hcut
      simp only [List.mem_cons, exists_eq_or_imp, hcut, hsum]
      clear * - htext
      omega

/-- `bc` and `d` behind `a`, in four bytes. -/
theorem strlcatCalls_joined_cut :
    strlcatCalls 4 [[98#8, 99#8, 0#8], [100#8, 0#8]] [97#8, 0#8, 1#8, 2#8] =
        some ([3, 4], [97#8, 98#8, 99#8, 0#8]) ∧ 4 ≤ ([97#8] ++ [[98#8, 99#8], [100#8]].flatten).length := by
  obtain ⟨rs, hcalls, hcut⟩ := @strlcatCalls_joined 4 [97#8] [1#8, 2#8] [[98#8, 99#8], [100#8]] (by decide) (by decide)
    (by decide) (by decide)
  have hvalue : strlcatCalls 4 [[98#8, 99#8, 0#8], [100#8, 0#8]] [97#8, 0#8, 1#8, 2#8] =
      some ([3, 4], [97#8, 98#8, 99#8, 0#8]) := by rfl
  have hrs : rs = [3, 4] := congrArg Prod.fst (Option.some.inj (hcalls.symm.trans hvalue))
  exact ⟨hvalue, hcut.mp ⟨4, by simp [hrs], le_rfl⟩⟩

end N7OS
