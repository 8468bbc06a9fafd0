import Mathlib.Data.BitVec

/-! # Bit fields of a machine word

Reading and writing a run of bits of a word, as a C bit-field access does. The
two operations are described bit by bit, which gives the read-after-write laws
for one field and for disjoint fields.
-/
namespace BitField
variable {w n k : ℕ}

def get (v : BitVec w) (lo n : ℕ) : BitVec n := v.extractLsb' lo n

/-- The word `v` with the bits from `lo` replaced by `x`. -/
def put (v : BitVec w) (lo : ℕ) (x : BitVec n) : BitVec w :=
  (v &&& ~~~((BitVec.allOnes n).setWidth w <<< lo)) ||| (x.setWidth w <<< lo)

theorem getLsbD_put (v : BitVec w) (lo : ℕ) (x : BitVec n) {i : ℕ} (hi : i < w) :
    (put v lo x).getLsbD i = if lo ≤ i ∧ i < lo + n then x.getLsbD (i - lo) else v.getLsbD i := by
  simp only [put, BitVec.getLsbD_or, BitVec.getLsbD_and, BitVec.getLsbD_not,
    BitVec.getLsbD_shiftLeft, BitVec.getLsbD_setWidth, BitVec.getLsbD_allOnes, hi, decide_true,
    Bool.true_and]
  by_cases hlo : i < lo
  · have hn : ¬(lo ≤ i ∧ i < lo + n) := by omega
    simp [hlo, if_neg hn]
  · have hw : i - lo < w := by omega
    by_cases hin : i - lo < n
    · have hy : lo ≤ i ∧ i < lo + n := by omega
      simp [hlo, hw, hin, if_pos hy]
    · have hn : ¬(lo ≤ i ∧ i < lo + n) := by omega
      have hx : x.getLsbD (i - lo) = false := BitVec.getLsbD_of_ge _ _ (by omega)
      simp [hlo, hw, hin, if_neg hn, hx]

theorem get_put_same (v : BitVec w) {lo : ℕ} (x : BitVec n) (h : lo + n ≤ w) :
    get (put v lo x) lo n = x := by
  apply BitVec.eq_of_getLsbD_eq
  intro i hi
  have hin : lo ≤ lo + i ∧ lo + i < lo + n := by omega
  rw [get, BitVec.getLsbD_extractLsb', getLsbD_put v lo x (by omega), if_pos hin]
  simp [hi]

theorem get_put_of_disjoint (v : BitVec w) {lo lo' : ℕ} (x : BitVec n) (hw : lo' + k ≤ w)
    (h : lo' + k ≤ lo ∨ lo + n ≤ lo') : get (put v lo x) lo' k = get v lo' k := by
  apply BitVec.eq_of_getLsbD_eq
  intro i hi
  have hout : ¬(lo ≤ lo' + i ∧ lo' + i < lo + n) := by omega
  simp only [get, BitVec.getLsbD_extractLsb']
  rw [getLsbD_put v lo x (by omega), if_neg hout]

end BitField
