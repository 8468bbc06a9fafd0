import Mathlib.Data.BitVec
import Mathlib.Data.Set.Insert

/-! # Sets of numbers as arrays of 32-bit words

Number `p` is a member when bit `p % 32` of word `p / 32` is set. Inserting and
erasing by masks act on the member set as on any set of naturals, and a linear
search for a clear bit finds the least non-member.
-/
namespace Bitmap
variable {n : ℕ}

abbrev Words (n : ℕ) := Vector (BitVec 32) n

def word (b : Words n) (p : ℕ) : BitVec 32 := b[p / 32]?.getD 0

def mask (p : ℕ) : BitVec 32 := 1#32 <<< (p % 32)

/-- The C test `(words[p / 32] & (1u << (p % 32))) != 0`. -/
def test (b : Words n) (p : ℕ) : Bool := (word b p &&& mask p) != 0

/-- `words[p / 32] |= 1u << (p % 32)`. -/
def insert (b : Words n) (p : ℕ) : Words n := b.setIfInBounds (p / 32) (word b p ||| mask p)

/-- `words[p / 32] &= ~(1u << (p % 32))`. -/
def erase (b : Words n) (p : ℕ) : Words n := b.setIfInBounds (p / 32) (word b p &&& ~~~mask p)

def empty (n : ℕ) : Words n := Vector.replicate n 0

def members (b : Words n) : Set ℕ := {p | test b p = true}

/-- The first `p < limit` whose bit is clear, in counting order. -/
@[irreducible] def firstClear (b : Words n) (limit : ℕ) : Option ℕ := (List.range limit).find? (fun p => !test b p)

@[simp] theorem mem_members (b : Words n) (p : ℕ) : p ∈ members b ↔ test b p = true := Iff.rfl

theorem getLsbD_mask (p : ℕ) {i : ℕ} (hi : i < 32) : (mask p).getLsbD i = decide (i = p % 32) := by
  have hp : p % 32 < 32 := Nat.mod_lt _ (by omega)
  simp only [mask, BitVec.getLsbD_shiftLeft, BitVec.getLsbD_one, hi, decide_true, Bool.true_and]
  grind

theorem test_eq_getLsbD (b : Words n) (p : ℕ) : test b p = (word b p).getLsbD (p % 32) := by
  have hp : p % 32 < 32 := Nat.mod_lt _ (by omega)
  cases h : (word b p).getLsbD (p % 32) with
  | true =>
    have hne : word b p &&& mask p ≠ 0 := by
      intro h0
      have hbit := congrArg (fun v => v.getLsbD (p % 32)) h0
      simp [h, getLsbD_mask p hp] at hbit
    simpa [test] using hne
  | false =>
    have h0 : word b p &&& mask p = 0 := by
      apply BitVec.eq_of_getLsbD_eq
      intro i hi
      rw [BitVec.getLsbD_and, getLsbD_mask p hi]
      by_cases hip : i = p % 32
      · simp [hip, h]
      · simp [hip]
    simp [test, h0]

theorem word_set (b : Words n) {p : ℕ} (hp : p / 32 < n) (q : ℕ) (v : BitVec 32) :
    word (b.setIfInBounds (p / 32) v) q = if p / 32 = q / 32 then v else word b q := by
  simp only [word, Vector.getElem?_setIfInBounds]
  by_cases h : p / 32 = q / 32
  · simp [h, h ▸ hp]
  · simp [h]

/-- Two numbers share word and bit only when they are equal. -/
private theorem eq_of_word_bit {p q : ℕ} (hw : p / 32 = q / 32) (hb : q % 32 = p % 32) : q = p := by
  omega

theorem test_insert (b : Words n) {p : ℕ} (hp : p / 32 < n) (q : ℕ) :
    test (insert b p) q = (decide (q = p) || test b q) := by
  have hq : q % 32 < 32 := Nat.mod_lt _ (by omega)
  rw [test_eq_getLsbD, test_eq_getLsbD, insert, word_set b hp]
  by_cases hw : p / 32 = q / 32
  · have hword : word b p = word b q := by rw [word, word, hw]
    rw [if_pos hw, BitVec.getLsbD_or, getLsbD_mask p hq, hword]
    have he : (q % 32 = p % 32) ↔ q = p := ⟨eq_of_word_bit hw, fun h => by rw [h]⟩
    simp only [he]
    exact Bool.or_comm _ _
  · have hne : q ≠ p := by rintro rfl; exact hw rfl
    simp [if_neg hw, hne]

theorem test_erase (b : Words n) {p : ℕ} (hp : p / 32 < n) (q : ℕ) :
    test (erase b p) q = (!decide (q = p) && test b q) := by
  have hq : q % 32 < 32 := Nat.mod_lt _ (by omega)
  rw [test_eq_getLsbD, test_eq_getLsbD, erase, word_set b hp]
  by_cases hw : p / 32 = q / 32
  · have hword : word b p = word b q := by rw [word, word, hw]
    rw [if_pos hw, BitVec.getLsbD_and, BitVec.getLsbD_not, getLsbD_mask p hq, hword]
    have he : (q % 32 = p % 32) ↔ q = p := ⟨eq_of_word_bit hw, fun h => by rw [h]⟩
    simp only [he, hq, decide_true, Bool.true_and]
    exact Bool.and_comm _ _
  · have hne : q ≠ p := by rintro rfl; exact hw rfl
    simp [if_neg hw, hne]

theorem test_empty (p : ℕ) : test (empty n) p = false := by
  rw [test_eq_getLsbD, word, empty]
  by_cases h : p / 32 < n
  · simp [h]
  · simp [Vector.getElem?_eq_none (Nat.le_of_not_lt h)]

theorem members_insert (b : Words n) {p : ℕ} (hp : p / 32 < n) :
    members (insert b p) = Set.insert p (members b) := by
  ext q
  rw [mem_members, test_insert b hp, Bool.or_eq_true, decide_eq_true_eq]
  rfl

theorem members_erase (b : Words n) {p : ℕ} (hp : p / 32 < n) :
    members (erase b p) = members b \ {p} := by
  ext q
  rw [mem_members, test_erase b hp]
  simp [and_comm]

@[simp] theorem members_empty : members (empty n) = ∅ := by
  ext p
  simp [mem_members, test_empty]

theorem firstClear_eq_some {b : Words n} {limit p : ℕ} :
    firstClear b limit = some p ↔ p < limit ∧ p ∉ members b ∧ ∀ q < p, q ∈ members b := by
  rw [firstClear, List.find?_range_eq_some]
  simp only [Bool.not_eq_true', Bool.not_not, List.mem_range, mem_members, Bool.not_eq_true]
  tauto

theorem firstClear_eq_none {b : Words n} {limit : ℕ} :
    firstClear b limit = none ↔ ∀ p < limit, p ∈ members b := by
  rw [firstClear, List.find?_eq_none]
  simp

end Bitmap
