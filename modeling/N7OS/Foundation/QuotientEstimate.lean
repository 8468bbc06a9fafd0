import Mathlib.Tactic.Linarith
import Mathlib.Tactic.Ring

/-! # Quotients estimated from truncated operands

Both operands of a division are divided by a scale, the divisor is rounded up,
and the quotient of the two is taken for the quotient sought. The estimate is
never too large, and it is at most two too small when the scaled dividend is
small beside the square of the scaled divisor.
-/
namespace QuotientEstimate

variable {x y m : ℕ}

def estimate (x y m : ℕ) : ℕ := x / m / (y / m + 1)

/-- Rounding the divisor up goes past it. -/
theorem lt_roundedUp (hm : 0 < m) (y : ℕ) : y < (y / m + 1) * m := by
  simpa using Nat.lt_mul_of_div_lt (Nat.lt_succ_self (y / m)) hm

theorem estimate_mul_le (hm : 0 < m) (x y : ℕ) : y * estimate x y m ≤ x := by
  have hquot : estimate x y m * (y / m + 1) ≤ x / m := Nat.div_mul_le_self _ _
  calc y * estimate x y m ≤ (y / m + 1) * m * estimate x y m :=
        Nat.mul_le_mul_right _ (lt_roundedUp hm y).le
    _ = estimate x y m * (y / m + 1) * m := by ring
    _ ≤ x / m * m := Nat.mul_le_mul_right _ hquot
    _ ≤ x := Nat.div_mul_le_self x m

/-- The estimate misses at most two. -/
theorem lt_estimate_add (hm : 0 < m) (hb : 0 < y / m) (hsmall : x / m + 1 ≤ 2 * (y / m) * (y / m + 1)) :
    x < y * (estimate x y m + 3) := by
  have hx : x < (x / m + 1) * m := lt_roundedUp hm x
  have hy : y / m * m ≤ y := Nat.div_mul_le_self y m
  have hrem : x / m < (estimate x y m + 1) * (y / m + 1) := by
    have h := Nat.lt_mul_div_succ (x / m) (Nat.succ_pos (y / m))
    simpa [estimate, Nat.mul_comm] using h
  generalize estimate x y m = q at *
  generalize y / m = b at *
  generalize x / m = a at *
  have hscaled : a + 1 ≤ b * (q + 3) := by
    by_contra hlt
    have h1 : b * (q + 3) + 1 ≤ a + 1 := by omega
    nlinarith
  calc x < (a + 1) * m := hx
    _ ≤ b * (q + 3) * m := Nat.mul_le_mul_right _ hscaled
    _ = b * m * (q + 3) := by ring
    _ ≤ y * (q + 3) := Nat.mul_le_mul_right _ hy

end QuotientEstimate
