import Mathlib.Data.List.TakeDrop
import N7OS.Machine.Integers

/-! # Strings

The functions of `lib/string.c` that the input functions use. A pointer is given by the
bytes of its object from there on; a load or store past them is undefined.
-/
namespace N7OS

def strlen : List U8 → Option ℕ
  | [] => none
  | c :: s => if c = 0#8 then some 0 else (strlen s).map (· + 1)

def strcpy : List U8 → List U8 → Option (List U8)
  | _ :: dst, c :: src => if c = 0#8 then some (c :: dst) else (strcpy dst src).map (c :: ·)
  | _, _ => none

/-- `memset(q, 0, n)`. -/
def clear (q : List U8) (n : ℕ) : Option (List U8) :=
  if n ≤ q.length then some (List.replicate n 0#8 ++ q.drop n) else none

/-- A string shorter than `n` is filled up; a longer one gets no terminator. -/
def strncpy : List U8 → List U8 → ℕ → Option (List U8)
  | dst, _, 0 => clear dst 0
  | _ :: dst, c :: src, n + 1 => if c = 0#8 then (clear dst n).map (c :: ·) else (strncpy dst src n).map (c :: ·)
  | _, _, _ + 1 => none

/-- The bytes hold the string, with its terminator. -/
def Holds (s bytes : List U8) : Prop := s ++ [0#8] <+: bytes

section
variable {s rest : List U8}

theorem strlen_string (h : 0#8 ∉ s) (rest : List U8) : strlen (s ++ 0#8 :: rest) = some s.length := by
  induction s with
  | nil => rfl
  | cons c s ih =>
    obtain ⟨hc, hs⟩ := List.ne_and_not_mem_of_not_mem_cons h
    rw [List.cons_append, strlen, if_neg (Ne.symm hc), ih hs]
    rfl

theorem strcpy_string (h : 0#8 ∉ s) (rest : List U8) {dst : List U8} (hroom : s.length < dst.length) :
    strcpy dst (s ++ 0#8 :: rest) = some (s ++ 0#8 :: dst.drop (s.length + 1)) := by
  induction s generalizing dst with
  | nil =>
    cases dst with
    | nil => cases hroom
    | cons d dst => rfl
  | cons c s ih =>
    obtain ⟨hc, hs⟩ := List.ne_and_not_mem_of_not_mem_cons h
    cases dst with
    | nil => cases hroom
    | cons d dst =>
      rw [List.cons_append, strcpy, if_neg (Ne.symm hc), ih hs (Nat.lt_of_succ_lt_succ hroom)]
      rfl

/-- The first bytes of a string are copied and nothing else. -/
theorem strncpy_string (h : 0#8 ∉ s) (rest dst : List U8) {n : ℕ} (hn : n ≤ s.length) :
    strncpy dst (s ++ rest) n = if n ≤ dst.length then some (s.take n ++ dst.drop n) else none := by
  induction n generalizing s dst with
  | zero => simp [strncpy, clear]
  | succ n ih =>
    cases s with
    | nil => simp at hn
    | cons c s =>
      obtain ⟨hc, hs⟩ := List.ne_and_not_mem_of_not_mem_cons h
      cases dst with
      | nil => simp [strncpy]
      | cons d dst =>
        have hrest := ih hs dst (Nat.le_of_succ_le_succ hn)
        rw [List.cons_append, strncpy, if_neg (Ne.symm hc), hrest]
        by_cases hroom : n ≤ dst.length
        · simp [hroom]
        · simp [hroom]

/-- The bytes that were written before hold the rest of the string. -/
theorem holds_append_iff {a b l : List U8} (ha : a <+: l) (hb : b <+: l) (h : 0#8 ∉ l) (rest : List U8) :
    Holds a (b ++ rest) ↔ b.length ≤ a.length ∧ a.drop b.length ++ [0#8] <+: rest := by
  have hsplit (hle : b.length ≤ a.length) : a = b ++ a.drop b.length :=
    (List.prefix_iff_eq_append.mp (List.prefix_of_prefix_length_le hb ha hle)).symm
  constructor
  · intro hholds
    have hle : b.length ≤ a.length := by
      by_contra hlong
      have hinside : a ++ [0#8] <+: b :=
        List.prefix_of_prefix_length_le hholds (List.prefix_append b rest) (by simp; omega)
      exact h (hb.subset (hinside.subset (by simp)))
    refine ⟨hle, ?_⟩
    rw [Holds, hsplit hle, List.append_assoc, List.prefix_append_right_inj] at hholds
    exact hholds
  · rintro ⟨hle, hrest⟩
    rw [Holds, hsplit hle, List.append_assoc, List.prefix_append_right_inj]
    exact hrest

end

end N7OS
