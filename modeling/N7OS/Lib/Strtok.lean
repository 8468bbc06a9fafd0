import Mathlib.Data.List.TakeWhile
import N7OS.Syscall.Read
import N7OS.Lib.Strings

/-! # Cutting a string

`strspn`, `strpbrk`, `strsep` and `strtok` of `lib/string.c`. A pointer into the string that is
cut is an index of its object, or nothing for a null pointer. `strtok` here is `strsep` with
a pointer of its own, so that two delimiters in a row give an empty token.
-/
namespace N7OS.Strtok

/-- `while (*map) matchmap[(unsigned char)*map++] = 1`. -/
def fillMap (matchmap : U8 → Bool) : List U8 → Option (U8 → Bool)
  | [] => none
  | c :: map => if c = 0#8 then some matchmap else fillMap (Function.update matchmap c true) map

/-- `while (matchmap[(unsigned char)*s++] ^ parity) n++`. -/
def spanLoop (matchmap : U8 → Bool) (parity : Bool) (n : ℕ) : List U8 → Option ℕ
  | [] => none
  | c :: s => if (matchmap c).xor parity then spanLoop matchmap parity (n + 1) s else some n

/-- `__strxspn`. -/
def strxspn (s map : List U8) (parity : Bool) : Option ℕ :=
  (fillMap (fun _ => false) map).bind fun matchmap => spanLoop (Function.update matchmap 0#8 parity) parity 0 s

def strcspn (s reject : List U8) : Option ℕ := strxspn s reject true

def strspn (s accept : List U8) : Option ℕ := strxspn s accept false

def strpbrk (s accept : List U8) : Option (Option ℕ) :=
  (strxspn s accept true).bind fun n => s[n]?.map fun c => if c ≠ 0#8 then some n else none

/-- The object, `*stringp`, and the pointer returned. -/
def strsep (mem : List U8) (stringp : Option ℕ) (delim : List U8) : Option (List U8 × Option ℕ × Option ℕ) :=
  match stringp with
  | none => some (mem, none, none)
  | some s =>
    (strpbrk (mem.drop s) delim).bind fun e =>
      match e with
      | none => some (mem, none, some s)
      | some e => (storeByte mem (s + e) 0#8).map fun mem => (mem, some (s + e + 1), some s)

/-- `holder` is static. -/
def strtok (mem : List U8) (holder s : Option ℕ) (delim : List U8) : Option (List U8 × Option ℕ × Option ℕ) :=
  strsep mem (s <|> holder) delim

/-- Calls of `strtok` one after the other: the pointers returned, and the object after them. -/
def strtokCalls (delim : List U8) : List (Option ℕ) → List U8 → Option ℕ → Option (List (Option ℕ) × List U8 × Option ℕ)
  | [], mem, holder => some ([], mem, holder)
  | s :: calls, mem, holder =>
    (strtok mem holder s delim).bind fun (mem, holder, r) =>
      (strtokCalls delim calls mem holder).map fun (rs, mem, holder) => (r :: rs, mem, holder)

section
variable {s d rest rd pre : List U8}

theorem fillMap_string (matchmap : U8 → Bool) (hd : 0#8 ∉ d) (rd : List U8) :
    fillMap matchmap (d ++ 0#8 :: rd) = some fun c => matchmap c || decide (c ∈ d) := by
  induction d generalizing matchmap with
  | nil => simp [fillMap]
  | cons e d ih =>
    obtain ⟨he, hd⟩ := List.ne_and_not_mem_of_not_mem_cons hd
    rw [List.cons_append, fillMap, if_neg he.symm, ih _ hd]
    refine congrArg some (funext fun c => ?_)
    by_cases hc : c = e
    · simp [hc]
    · simp [hc]

theorem spanLoop_string (matchmap : U8 → Bool) {parity : Bool} (hzero : matchmap 0#8 = parity) (n : ℕ) (rest : List U8) :
    spanLoop matchmap parity n (s ++ 0#8 :: rest) =
      some (n + (s.takeWhile fun c => (matchmap c).xor parity).length) := by
  induction s generalizing n with
  | nil => simp [spanLoop, hzero]
  | cons c s ih =>
    rw [List.cons_append, spanLoop, List.takeWhile_cons]
    by_cases hc : ((matchmap c).xor parity) = true
    · rw [if_pos hc, if_pos hc, ih, List.length_cons]
      refine congrArg some ?_
      omega
    · rw [if_neg hc, if_neg hc]
      simp

theorem takeWhile_congr {p q : U8 → Bool} (h : ∀ c ∈ s, p c = q c) : s.takeWhile p = s.takeWhile q := by
  induction s with
  | nil => rfl
  | cons c s ih =>
    obtain ⟨hc, hs⟩ := List.forall_mem_cons.mp h
    rw [List.takeWhile_cons, List.takeWhile_cons, hc, ih hs]

theorem strxspn_string (hs : 0#8 ∉ s) (hd : 0#8 ∉ d) (rest rd : List U8) (parity : Bool) :
    strxspn (s ++ 0#8 :: rest) (d ++ 0#8 :: rd) parity =
      some (s.takeWhile fun c => (decide (c ∈ d)).xor parity).length := by
  rw [strxspn, fillMap_string _ hd, Option.bind_some, spanLoop_string _ (Function.update_self _ _ _), Nat.zero_add]
  have hsame : ∀ c ∈ s, ((Function.update (fun c => false || decide (c ∈ d)) 0#8 parity c).xor parity) =
      (decide (c ∈ d)).xor parity := by
    intro c hc
    rw [Function.update_of_ne (ne_of_mem_of_not_mem hc hs), Bool.false_or]
  rw [takeWhile_congr hsame]

theorem strcspn_string (hs : 0#8 ∉ s) (hd : 0#8 ∉ d) (rest rd : List U8) :
    strcspn (s ++ 0#8 :: rest) (d ++ 0#8 :: rd) = some (s.takeWhile fun c => decide (c ∉ d)).length := by
  rw [strcspn, strxspn_string hs hd]
  simp

theorem strspn_string (hs : 0#8 ∉ s) (hd : 0#8 ∉ d) (rest rd : List U8) :
    strspn (s ++ 0#8 :: rest) (d ++ 0#8 :: rd) = some (s.takeWhile fun c => decide (c ∈ d)).length := by
  rw [strspn, strxspn_string hs hd]
  simp

/-- No character of `s` is a delimiter, or the first that is one ends a piece. -/
theorem first_delimiter (s d : List U8) :
    (∀ c ∈ s, c ∉ d) ∨ ∃ a e b, s = a ++ e :: b ∧ (∀ c ∈ a, c ∉ d) ∧ e ∈ d := by
  induction s with
  | nil => exact .inl fun c hc => absurd hc List.not_mem_nil
  | cons c s ih =>
    by_cases hc : c ∈ d
    · exact .inr ⟨[], c, s, rfl, fun c hc => absurd hc List.not_mem_nil, hc⟩
    · rcases ih with hnone | ⟨a, e, b, rfl, ha, he⟩
      · exact .inl (List.forall_mem_cons.mpr ⟨hc, hnone⟩)
      · exact .inr ⟨c :: a, e, b, rfl, List.forall_mem_cons.mpr ⟨hc, ha⟩, he⟩

theorem strpbrk_none (hs : 0#8 ∉ s) (hd : 0#8 ∉ d) (hnone : ∀ c ∈ s, c ∉ d) (rest rd : List U8) :
    strpbrk (s ++ 0#8 :: rest) (d ++ 0#8 :: rd) = some none := by
  have hall : (s.takeWhile fun c => (decide (c ∈ d)).xor true) = s :=
    List.takeWhile_eq_self_iff.mpr fun c hc => by simp [hnone c hc]
  rw [strpbrk, strxspn_string hs hd, hall]
  simp

theorem strpbrk_some {a b : List U8} {e : U8} (hs : 0#8 ∉ a ++ e :: b) (hd : 0#8 ∉ d) (ha : ∀ c ∈ a, c ∉ d)
    (he : e ∈ d) (rest rd : List U8) :
    strpbrk (a ++ e :: b ++ 0#8 :: rest) (d ++ 0#8 :: rd) = some (some a.length) := by
  have hpiece : ((a ++ e :: b).takeWhile fun c => (decide (c ∈ d)).xor true) = a := by
    rw [List.takeWhile_append_of_pos fun c hc => by simp [ha c hc]]
    simp [he]
  have hread : (a ++ e :: b ++ 0#8 :: rest)[a.length]? = some e := by simp
  rw [strpbrk, strxspn_string hs hd, hpiece, Option.bind_some, hread, Option.map_some,
    if_pos (ne_of_mem_of_not_mem he hd)]

/-- The string with a terminator in the place of each delimiter. -/
def cut (d s : List U8) : List U8 := s.map fun c => if c ∈ d then 0#8 else c

/-- Where the pieces start. -/
def starts (i : ℕ) : List (List U8) → List ℕ
  | [] => []
  | p :: ps => i :: starts (i + p.length + 1) ps

theorem cut_eq_self (h : ∀ c ∈ s, c ∉ d) : cut d s = s := by
  rw [cut]
  exact (List.map_congr_left fun c hc => if_neg (h c hc)).trans (List.map_id s)

theorem strtok_none (hs : 0#8 ∉ s) (hd : 0#8 ∉ d) (hnone : ∀ c ∈ s, c ∉ d) {holder call : Option ℕ}
    (hstart : (call <|> holder) = some pre.length) (rest rd : List U8) :
    strtok (pre ++ (s ++ 0#8 :: rest)) holder call (d ++ 0#8 :: rd) =
      some (pre ++ (s ++ 0#8 :: rest), none, some pre.length) := by
  rw [strtok, hstart, strsep, List.drop_left, strpbrk_none hs hd hnone]
  rfl

theorem strtok_some {a b : List U8} {e : U8} (hs : 0#8 ∉ a ++ e :: b) (hd : 0#8 ∉ d) (ha : ∀ c ∈ a, c ∉ d)
    (he : e ∈ d) {holder call : Option ℕ} (hstart : (call <|> holder) = some pre.length) (rest rd : List U8) :
    strtok (pre ++ (a ++ e :: b ++ 0#8 :: rest)) holder call (d ++ 0#8 :: rd) =
      some (pre ++ a ++ [0#8] ++ (b ++ 0#8 :: rest), some (pre ++ a ++ [0#8]).length, some pre.length) := by
  have hstore : storeByte (pre ++ (a ++ e :: b ++ 0#8 :: rest)) (pre.length + a.length) 0#8 =
      some (pre ++ a ++ [0#8] ++ (b ++ 0#8 :: rest)) := by
    have hlength : pre.length + a.length = (pre ++ a).length := List.length_append.symm
    rw [hlength, show pre ++ (a ++ e :: b ++ 0#8 :: rest) = pre ++ a ++ e :: (b ++ 0#8 :: rest) by simp,
      storeByte_eq _ (by simp)]
    simp
  rw [strtok, hstart, strsep, List.drop_left, strpbrk_some hs hd ha he, Option.bind_some]
  dsimp only
  rw [hstore, Option.map_some]
  simp [Nat.add_assoc]

/-- A call for each piece and one more. -/
theorem strtokCalls_pieces (hs : 0#8 ∉ s) (hd : 0#8 ∉ d) {holder call : Option ℕ}
    (hstart : (call <|> holder) = some pre.length) (rest rd : List U8) :
    let pieces := s.splitOnP (· ∈ d)
    strtokCalls (d ++ 0#8 :: rd) (call :: List.replicate pieces.length none) (pre ++ (s ++ 0#8 :: rest)) holder =
        some ((starts pre.length pieces).map some ++ [none], pre ++ (cut d s ++ 0#8 :: rest), none) ∧
      ∀ i p, (i, p) ∈ (starts pre.length pieces).zip pieces → Holds p ((pre ++ (cut d s ++ 0#8 :: rest)).drop i) := by
  induction hn : s.length using Nat.strong_induction_on generalizing s pre holder call with
  | _ n ih =>
    rcases first_delimiter s d with hnone | ⟨a, e, b, rfl, ha, he⟩
    · have hpieces : s.splitOnP (· ∈ d) = [s] := List.splitOnP_eq_singleton fun c hc => by simp [hnone c hc]
      dsimp only
      rw [hpieces, cut_eq_self hnone]
      constructor
      · rw [strtokCalls, strtok_none hs hd hnone hstart]
        rfl
      · intro i p hmem
        simp only [starts, List.zip_cons_cons, List.zip_nil_right, List.mem_singleton, Prod.mk.injEq] at hmem
        obtain ⟨rfl, rfl⟩ := hmem
        rw [List.drop_left, Holds]
        exact ⟨rest, by simp⟩
    · have hb : 0#8 ∉ b := fun hmem => hs (by simp [hmem])
      have hpieces : (a ++ e :: b).splitOnP (· ∈ d) = a :: b.splitOnP (· ∈ d) :=
        List.splitOnP_append_cons_of_forall_mem (fun c hc => by simp [ha c hc]) e (by simp [he]) b
      have hcut : cut d (a ++ e :: b) = a ++ 0#8 :: cut d b := by
        have hmap : cut d (a ++ e :: b) = cut d a ++ 0#8 :: cut d b := by simp [cut, he]
        rw [hmap, cut_eq_self ha]
      have hshort : b.length < n := by
        rw [← hn, List.length_append, List.length_cons]
        omega
      have hindex : (pre ++ a ++ [0#8]).length = pre.length + a.length + 1 := by simp [Nat.add_assoc]
      have hmem : pre ++ a ++ [0#8] ++ (cut d b ++ 0#8 :: rest) = pre ++ (cut d (a ++ e :: b) ++ 0#8 :: rest) := by
        rw [hcut]
        simp
      have hnext : ((none : Option ℕ) <|> some (pre ++ a ++ [0#8]).length) = some (pre ++ a ++ [0#8]).length := rfl
      obtain ⟨hcalls, hholds⟩ := ih b.length hshort hb hnext rfl
      rw [hindex, hmem] at hcalls hholds
      dsimp only
      rw [hpieces]
      constructor
      · rw [strtokCalls, strtok_some hs hd ha he hstart, Option.bind_some]
        dsimp only
        rw [hindex, List.length_cons, List.replicate_succ]
        rw [hcalls]
        rfl
      · intro i p hmem'
        rw [starts, List.zip_cons_cons, List.mem_cons] at hmem'
        rcases hmem' with heq | hlater
        · cases heq
          rw [List.drop_left, Holds, hcut]
          exact ⟨cut d b ++ 0#8 :: rest, by simp⟩
        · exact hholds i p hlater

/-- `"a,,b"` has an empty piece in the middle. -/
theorem strtokCalls_commas :
    strtokCalls [0x2C#8, 0#8] [some 0, none, none, none] [0x61#8, 0x2C#8, 0x2C#8, 0x62#8, 0#8] none =
      some ([some 0, some 2, some 3, none], [0x61#8, 0#8, 0#8, 0x62#8, 0#8], none) := by
  have hstart : (some 0 <|> none) = some ([] : List U8).length := rfl
  have hrun := strtokCalls_pieces (s := [0x61#8, 0x2C#8, 0x2C#8, 0x62#8]) (d := [0x2C#8]) (by decide) (by decide)
    hstart [] []
  exact hrun.1.trans (by decide)

end

end N7OS.Strtok
