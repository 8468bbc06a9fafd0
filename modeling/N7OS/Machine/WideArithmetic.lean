import N7OS.Machine.Integers

/-! # Arithmetic on register pairs

The instructions that `lib/div64.c` writes by hand: `bsr`, `shr` and `shrd`,
which take their count modulo 32, and `divl`, which faults instead of returning
a quotient that has no place in a register.
-/
namespace N7OS

/-- The index of the highest one bit of a number other than zero. -/
def bsr (n : U32) : U32 := BitVec.ofNat 32 n.toNat.log2

def shr (x cl : U32) : U32 := x >>> (cl.toNat % 32)

/-- `x0`, with the bits of `x1` coming in from above. -/
def shrd (x1 x0 cl : U32) : U32 := ((x1 ++ x0) >>> (cl.toNat % 32)).setWidth 32

/-- `testb $32` on the count. -/
def testb32 (cl : U32) : Bool := cl.getLsbD 5

/-- The remainder and the quotient of `x1:x0`, or a divide error. -/
def divl (x1 x0 y : U32) : Option (U32 × U32) :=
  let x := x1.toNat * 2 ^ 32 + x0.toNat
  if y.toNat = 0 ∨ 2 ^ 32 ≤ x / y.toNat then none
  else some (BitVec.ofNat 32 (x % y.toNat), BitVec.ofNat 32 (x / y.toNat))

section
variable {x1 x0 y cl : U32}

theorem toNat_shr (x : U32) (h : cl.toNat < 32) : (shr x cl).toNat = x.toNat / 2 ^ cl.toNat := by
  rw [shr, Nat.mod_eq_of_lt h, BitVec.toNat_ushiftRight, Nat.shiftRight_eq_div_pow]

theorem toNat_pair (x1 x0 : U32) : (x1 ++ x0).toNat = x1.toNat * 2 ^ 32 + x0.toNat := by
  rw [BitVec.toNat_append, Nat.shiftLeft_eq, Nat.mul_comm, Nat.two_pow_add_eq_or_of_lt x0.isLt]

theorem toNat_shrd (x1 x0 : U32) (h : cl.toNat < 32) :
    (shrd x1 x0 cl).toNat = (x1.toNat * 2 ^ 32 + x0.toNat) / 2 ^ cl.toNat % 2 ^ 32 := by
  rw [shrd, Nat.mod_eq_of_lt h, BitVec.toNat_setWidth, BitVec.toNat_ushiftRight, Nat.shiftRight_eq_div_pow,
    toNat_pair]

theorem testb32_of_lt (h : cl.toNat < 32) : testb32 cl = false :=
  Nat.testBit_lt_two_pow h

theorem divl_eq_none_iff : divl x1 x0 y = none ↔ y.toNat = 0 ∨ 2 ^ 32 ≤ (x1.toNat * 2 ^ 32 + x0.toNat) / y.toNat := by
  simp only [divl]
  split <;> simp_all

theorem divl_of_lt (h : x1.toNat < y.toNat) :
    divl x1 x0 y = some (BitVec.ofNat 32 ((x1.toNat * 2 ^ 32 + x0.toNat) % y.toNat),
      BitVec.ofNat 32 ((x1.toNat * 2 ^ 32 + x0.toNat) / y.toNat)) := by
  have hx0 := x0.isLt
  have hquot : (x1.toNat * 2 ^ 32 + x0.toNat) / y.toNat < 2 ^ 32 := by
    rw [Nat.div_lt_iff_lt_mul (by omega)]
    omega
  have hy : ¬(y.toNat = 0 ∨ 2 ^ 32 ≤ (x1.toNat * 2 ^ 32 + x0.toNat) / y.toNat) := by omega
  simp only [divl, hy, if_false]

end
end N7OS
