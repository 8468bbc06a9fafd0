import Mathlib.Order.Bounds.Basic
import N7OS.Lib.Strings

/-! # Searches for a character

`memchr`, `memrchr`, `strchr`, `strrchr` and `strnlen` of `lib/string.c`. The character is
an `int`, of which the low byte is searched for. The result is an index, or nothing for a
null pointer.
-/
namespace N7OS

def memchr : List U8 → U32 → ℕ → Option (Option ℕ)
  | _, _, 0 => some none
  | d :: s, c, n + 1 => if d = c.setWidth 8 then some (some 0) else (memchr s c n).map fun r => r.map (· + 1)
  | [], _, _ + 1 => none

/-- From the end. -/
def memrchr (s : List U8) (c : U32) : ℕ → Option (Option ℕ)
  | 0 => some none
  | n + 1 => s[n]?.bind fun d => if d = c.setWidth 8 then some (some n) else memrchr s c n

def strchr : List U8 → U32 → Option (Option ℕ)
  | [], _ => none
  | d :: s, c =>
    if d ≠ c.setWidth 8 then
      if d = 0#8 then some none else (strchr s c).map fun r => r.map (· + 1)
    else some (some 0)

/-- `i` counts the characters that are past. -/
def strrchrLoop (c : U32) (found : Option ℕ) (i : ℕ) : List U8 → Option (Option ℕ)
  | [] => none
  | d :: s => if d ≠ 0#8 then strrchrLoop c (if d = c.setWidth 8 then some i else found) (i + 1) s else some found

/-- The terminator is never found. -/
def strrchr (s : List U8) (c : U32) : Option (Option ℕ) := strrchrLoop c none 0 s

/-- The count is tested before the character is read. -/
def strnlen : List U8 → ℕ → Option ℕ
  | _, 0 => some 0
  | c :: s, n + 1 => if c ≠ 0#8 then (strnlen s n).map (· + 1) else some 0
  | [], _ + 1 => none

/-! ## What they return -/

def FirstIndex (l : List U8) (c : U8) (r : Option ℕ) : Prop := ∀ j, r = some j ↔ IsLeast {i | l[i]? = some c} j

def LastIndex (l : List U8) (c : U8) (r : Option ℕ) : Prop := ∀ j, r = some j ↔ IsGreatest {i | l[i]? = some c} j

section
variable {l s rest : List U8} {c d : U8} {r : Option ℕ} {n : ℕ}

theorem first_nil (c : U8) : FirstIndex [] c none := fun j => by simp [IsLeast]

theorem first_cons_self (l : List U8) (c : U8) : FirstIndex (c :: l) c (some 0) := by
  have hzero : IsLeast {i | (c :: l)[i]? = some c} 0 := ⟨rfl, fun i _ => Nat.zero_le i⟩
  intro j
  rw [Option.some.injEq]
  exact ⟨fun h => h ▸ hzero, fun h => hzero.unique h⟩

theorem FirstIndex.cons (h : FirstIndex l c r) (hd : d ≠ c) : FirstIndex (d :: l) c (r.map (· + 1)) := by
  intro j
  cases j with
  | zero => simp [IsLeast, hd]
  | succ j =>
    rw [Option.map_eq_some_iff]
    simp only [Nat.add_right_cancel_iff, exists_eq_right]
    rw [h j]
    constructor
    · rintro ⟨hmem, hleast⟩
      refine ⟨by simpa using hmem, fun i hi => ?_⟩
      cases i with
      | zero => simp [hd] at hi
      | succ i => exact Nat.succ_le_succ (hleast (by simpa using hi))
    · rintro ⟨hmem, hleast⟩
      exact ⟨by simpa using hmem, fun i hi => Nat.le_of_succ_le_succ (hleast (by simpa using hi))⟩

theorem last_nil (c : U8) : LastIndex [] c none := fun j => by simp [IsGreatest]

theorem last_append_self (l : List U8) (c : U8) : LastIndex (l ++ [c]) c (some l.length) := by
  have hlast : IsGreatest {i | (l ++ [c])[i]? = some c} l.length := by
    refine ⟨by simp, fun i hi => ?_⟩
    have hlt := (List.getElem?_eq_some_iff.mp hi).1
    rw [List.length_append, List.length_singleton] at hlt
    exact Nat.le_of_lt_succ hlt
  intro j
  rw [Option.some.injEq]
  exact ⟨fun h => h ▸ hlast, fun h => hlast.unique h⟩

theorem LastIndex.append (h : LastIndex l c r) (hd : d ≠ c) : LastIndex (l ++ [d]) c r := by
  have hsame : {i : ℕ | (l ++ [d])[i]? = some c} = {i : ℕ | l[i]? = some c} := by
    ext i
    rw [Set.mem_ofPred_eq, Set.mem_ofPred_eq, List.getElem?_append]
    split
    · rfl
    · rename_i hi
      have hnone : l[i]? = none := List.getElem?_eq_none (by omega)
      rw [hnone]
      cases hk : i - l.length with
      | zero => simp [hd]
      | succ k => simp
  intro j
  rw [hsame]
  exact h j

theorem memchr_first (c : U32) (hn : n ≤ s.length) :
    ∃ r, memchr s c n = some r ∧ FirstIndex (s.take n) (c.setWidth 8) r := by
  induction n generalizing s with
  | zero => exact ⟨none, by rw [memchr], first_nil _⟩
  | succ n ih =>
    obtain ⟨d, s, rfl⟩ := List.exists_cons_of_length_pos (Nat.zero_lt_of_lt hn)
    rw [memchr, List.take_succ_cons]
    by_cases hd : d = c.setWidth 8
    · rw [if_pos hd]
      exact ⟨some 0, rfl, hd ▸ first_cons_self _ _⟩
    · obtain ⟨r, hr, hfirst⟩ := ih (Nat.le_of_succ_le_succ hn)
      rw [if_neg hd, hr]
      exact ⟨_, rfl, hfirst.cons hd⟩

theorem memrchr_last (c : U32) (hn : n ≤ s.length) :
    ∃ r, memrchr s c n = some r ∧ LastIndex (s.take n) (c.setWidth 8) r := by
  induction n with
  | zero => exact ⟨none, rfl, last_nil _⟩
  | succ n ih =>
    obtain ⟨d, hd⟩ : ∃ d, s[n]? = some d := ⟨s[n], List.getElem?_eq_getElem hn⟩
    have htake : s.take (n + 1) = s.take n ++ [d] := by
      rw [List.take_add_one, hd]
      rfl
    have hlength : (s.take n).length = n := List.length_take_of_le (by omega)
    rw [memrchr, hd, Option.bind_some, htake]
    by_cases hc : d = c.setWidth 8
    · rw [if_pos hc]
      have hlast := last_append_self (s.take n) d
      rw [hlength] at hlast
      exact ⟨some n, rfl, hc ▸ hlast⟩
    · obtain ⟨r, hr, hlast⟩ := ih (by omega)
      rw [if_neg hc]
      exact ⟨r, hr, hlast.append hc⟩

/-- The terminator belongs to the string. -/
theorem strchr_first (hs : 0#8 ∉ s) (rest : List U8) (c : U32) :
    ∃ r, strchr (s ++ 0#8 :: rest) c = some r ∧ FirstIndex (s ++ [0#8]) (c.setWidth 8) r := by
  induction s with
  | nil =>
    rw [List.nil_append, List.nil_append, strchr]
    by_cases hc : 0#8 = c.setWidth 8
    · rw [if_neg (not_not.mpr hc)]
      exact ⟨some 0, rfl, hc ▸ first_cons_self _ _⟩
    · rw [if_pos hc, if_pos rfl]
      exact ⟨none, rfl, (first_nil _).cons hc⟩
  | cons d s ih =>
    obtain ⟨hd, hs⟩ := List.ne_and_not_mem_of_not_mem_cons hs
    rw [List.cons_append, List.cons_append, strchr]
    by_cases hc : d = c.setWidth 8
    · rw [if_neg (not_not.mpr hc)]
      exact ⟨some 0, rfl, hc ▸ first_cons_self _ _⟩
    · obtain ⟨r, hr, hfirst⟩ := ih hs
      rw [if_pos hc, if_neg hd.symm, hr]
      exact ⟨_, rfl, hfirst.cons hc⟩

theorem strrchrLoop_last (hs : 0#8 ∉ s) (rest : List U8) {c : U32} {p : List U8} (h : LastIndex p (c.setWidth 8) r) :
    ∃ r', strrchrLoop c r p.length (s ++ 0#8 :: rest) = some r' ∧ LastIndex (p ++ s) (c.setWidth 8) r' := by
  induction s generalizing p r with
  | nil => exact ⟨r, rfl, by rwa [List.append_nil]⟩
  | cons d s ih =>
    obtain ⟨hd, hs⟩ := List.ne_and_not_mem_of_not_mem_cons hs
    have hnext : LastIndex (p ++ [d]) (c.setWidth 8) (if d = c.setWidth 8 then some p.length else r) := by
      by_cases hc : d = c.setWidth 8
      · rw [if_pos hc, ← hc]
        exact last_append_self p d
      · rw [if_neg hc]
        exact h.append hc
    obtain ⟨r', hr', hlast⟩ := ih hs hnext
    rw [List.length_append, List.length_singleton] at hr'
    rw [List.append_assoc, List.singleton_append] at hlast
    rw [List.cons_append, strrchrLoop, if_pos hd.symm]
    exact ⟨r', hr', hlast⟩

theorem strrchr_last (hs : 0#8 ∉ s) (rest : List U8) (c : U32) :
    ∃ r, strrchr (s ++ 0#8 :: rest) c = some r ∧ LastIndex s (c.setWidth 8) r :=
  strrchrLoop_last hs rest (last_nil _)

theorem strnlen_string (hs : 0#8 ∉ s) (rest : List U8) (n : ℕ) :
    strnlen (s ++ 0#8 :: rest) n = some (min s.length n) := by
  induction s generalizing n with
  | nil => cases n <;> simp [strnlen]
  | cons c s ih =>
    obtain ⟨hc, hs⟩ := List.ne_and_not_mem_of_not_mem_cons hs
    cases n with
    | zero => simp [strnlen]
    | succ n =>
      rw [List.cons_append, strnlen, if_pos hc.symm, ih hs n, List.length_cons, Nat.succ_min_succ]
      rfl

end

/-- Whatever stands behind the string: `strchr` returns the first place of the character, the terminator included,
`strrchr` the last one, the terminator not included, and `memchr` and `memrchr` those of a block. -/
theorem searches_found {s : List U8} (hs : 0#8 ∉ s) (rest : List U8) (c : U32) :
    (∃ r, strchr (s ++ 0#8 :: rest) c = some r ∧ FirstIndex (s ++ [0#8]) (c.setWidth 8) r) ∧
      (∃ r, strrchr (s ++ 0#8 :: rest) c = some r ∧ LastIndex s (c.setWidth 8) r) ∧
      ∀ x n, n ≤ x.length → (∃ r, memchr x c n = some r ∧ FirstIndex (x.take n) (c.setWidth 8) r) ∧
        ∃ r, memrchr x c n = some r ∧ LastIndex (x.take n) (c.setWidth 8) r :=
  ⟨strchr_first hs rest c, strrchr_last hs rest c, fun _ _ hn => ⟨memchr_first c hn, memrchr_last c hn⟩⟩

/-- The terminator of `ab` is found from the front only. -/
theorem searches_found_end :
    strchr [97#8, 98#8, 0#8] 0#32 = some (some 2) ∧ strrchr [97#8, 98#8, 0#8] 0#32 = some none ∧
      FirstIndex [97#8, 98#8, 0#8] 0#8 (some 2) := by
  obtain ⟨⟨r, hr, hfirst⟩, -⟩ := searches_found (s := [97#8, 98#8]) (by decide) [] 0#32
  have hvalue : strchr [97#8, 98#8, 0#8] 0#32 = some (some 2) := by rfl
  have heq : r = some 2 := Option.some.inj (hr.symm.trans hvalue)
  exact ⟨hvalue, rfl, heq ▸ hfirst⟩

end N7OS
