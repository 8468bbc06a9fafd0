import Mathlib.Data.BitVec
import Mathlib.Tactic.Ring

/-! # Fixed-width integers and page arithmetic

The unsigned types of `inttypes.h`, and the values of the shifts and masks with
which the kernel splits an address into its page and its page-table indices. A
page (`PAGE_SIZE`) is 4096 bytes; a directory entry spans 1024 pages.
-/
namespace N7OS

abbrev U8 := BitVec 8
abbrev U16 := BitVec 16
abbrev U32 := BitVec 32
abbrev U64 := BitVec 64

/-- The least multiple of the page size that is at least `n`. -/
def pageCeil (n : ℕ) : ℕ := (n + 4095) / 4096 * 4096

theorem pageCeil_mod (n : ℕ) : pageCeil n % 4096 = 0 := by
  unfold pageCeil
  omega

theorem le_pageCeil (n : ℕ) : n ≤ pageCeil n := by
  unfold pageCeil
  omega

theorem pageCeil_of_aligned {n : ℕ} (h : n % 4096 = 0) : pageCeil n = n := by
  unfold pageCeil
  omega

theorem toNat_and_low12 (v : U32) : (v &&& 0xFFF#32).toNat = v.toNat % 4096 := by
  rw [BitVec.toNat_and, show (0xFFF#32).toNat = 2 ^ 12 - 1 by rfl, Nat.and_two_pow_sub_one_eq_mod]

/-- Clearing the low 12 bits rounds down to a page. -/
theorem toNat_and_page (v : U32) : (v &&& 0xFFFFF000#32).toNat = v.toNat / 4096 * 4096 := by
  have h : v &&& 0xFFFFF000#32 = (v >>> 12) <<< 12 := by
    apply BitVec.eq_of_getLsbD_eq
    intro i hi
    rw [show 0xFFFFF000#32 = BitVec.allOnes 32 <<< 12 by rfl]
    simp only [BitVec.getLsbD_and, BitVec.getLsbD_shiftLeft, BitVec.getLsbD_allOnes,
      BitVec.getLsbD_ushiftRight]
    by_cases hlow : i < 12
    · simp [hlow]
    · simp [hlow, hi, show i - 12 < 32 by omega, show 12 + (i - 12) = i by omega]
  rw [h, BitVec.toNat_shiftLeft, BitVec.toNat_ushiftRight, Nat.shiftRight_eq_div_pow, Nat.shiftLeft_eq]
  have hv := v.isLt
  omega

/-- The page number of an address, as a 20-bit frame number. -/
theorem toNat_frame (v : U32) : ((v >>> 12).setWidth 20).toNat = v.toNat / 4096 := by
  have hv := v.isLt
  rw [BitVec.toNat_setWidth, BitVec.toNat_ushiftRight, Nat.shiftRight_eq_div_pow]
  omega

/-- The address of a frame. -/
theorem toNat_frame_shift (f : BitVec 20) : (f.setWidth 32 <<< 12).toNat = f.toNat * 4096 := by
  have hf := f.isLt
  rw [BitVec.toNat_shiftLeft, BitVec.toNat_setWidth, Nat.shiftLeft_eq]
  omega

theorem toNat_dirIdx (v : U32) : ((v >>> 22) &&& 0x3FF#32).toNat = v.toNat / 4194304 := by
  have hv := v.isLt
  rw [BitVec.toNat_and, show (0x3FF#32).toNat = 2 ^ 10 - 1 by rfl, Nat.and_two_pow_sub_one_eq_mod,
    BitVec.toNat_ushiftRight, Nat.shiftRight_eq_div_pow]
  omega

theorem toNat_tabIdx (v : U32) : ((v >>> 12) &&& 0x3FF#32).toNat = v.toNat / 4096 % 1024 := by
  rw [BitVec.toNat_and, show (0x3FF#32).toNat = 2 ^ 10 - 1 by rfl, Nat.and_two_pow_sub_one_eq_mod,
    BitVec.toNat_ushiftRight, Nat.shiftRight_eq_div_pow]

theorem toNat_add_of_lt {a b : U32} (h : a.toNat + b.toNat < 2 ^ 32) :
    (a + b).toNat = a.toNat + b.toNat := by
  rw [BitVec.toNat_add, Nat.mod_eq_of_lt h]

theorem toNat_ofNat_of_lt {n : ℕ} (h : n < 2 ^ 32) : (BitVec.ofNat 32 n).toNat = n := by
  rw [BitVec.toNat_ofNat, Nat.mod_eq_of_lt h]

/-- A small number read as an `int`. -/
theorem toInt_ofNat_of_lt {n : ℕ} (h : n < 2 ^ 31) : (BitVec.ofNat 32 n).toInt = n := by
  have hnat := toNat_ofNat_of_lt (Nat.lt_trans h (by decide))
  rw [BitVec.toInt_eq_toNat_of_lt (by omega), hnat]

end N7OS
