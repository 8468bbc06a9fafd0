import Mathlib.Data.BitVec
import N7OS.Foundation.Execution

/-! # Little-endian words in a byte-addressed memory

A memory is a total function from byte addresses to bytes. Words of 32 bits may
be loaded and stored at any address, aligned or not.
-/
namespace ByteMemory
open Execution

abbrev Memory := ℕ → BitVec 8

def byteOf (v : BitVec 32) (k : ℕ) : BitVec 8 := v.extractLsb' (8 * k) 8

def store32 (m : Memory) (a : ℕ) (v : BitVec 32) : Memory := fun x =>
  if a ≤ x ∧ x < a + 4 then byteOf v (x - a) else m x

def load32 (m : Memory) (a : ℕ) : BitVec 32 := m (a + 3) ++ m (a + 2) ++ m (a + 1) ++ m a

theorem store32_of_outside {m : Memory} {a x : ℕ} (v : BitVec 32) (h : x < a ∨ a + 4 ≤ x) :
    store32 m a v x = m x := by
  have hn : ¬(a ≤ x ∧ x < a + 4) := by omega
  simp only [store32, if_neg hn]

theorem store32_apply_congr {m m' : Memory} {a x : ℕ} (v : BitVec 32) (h : m' x = m x) :
    store32 m' a v x = store32 m a v x := by
  simp only [store32, h]

theorem store32_apply_add (m : Memory) (a : ℕ) (v : BitVec 32) {k : ℕ} (hk : k < 4) :
    store32 m a v (a + k) = byteOf v k := by
  have h : a ≤ a + k ∧ a + k < a + 4 := by omega
  simp only [store32, if_pos h, Nat.add_sub_cancel_left]

private theorem bytes_append (v : BitVec 32) :
    byteOf v 3 ++ byteOf v 2 ++ byteOf v 1 ++ byteOf v 0 = v := by
  apply BitVec.eq_of_getLsbD_eq
  intro i hi
  simp only [byteOf, BitVec.getLsbD_append, BitVec.getLsbD_extractLsb']
  grind

@[simp] theorem load32_store32_same (m : Memory) (a : ℕ) (v : BitVec 32) :
    load32 (store32 m a v) a = v := by
  have h0 : store32 m a v a = byteOf v 0 := store32_apply_add m a v (k := 0) (by omega)
  rw [load32, h0, store32_apply_add m a v (by omega), store32_apply_add m a v (by omega),
    store32_apply_add m a v (by omega)]
  exact bytes_append v

/-- Loads only look at the four bytes they name. -/
theorem load32_congr {m m' : Memory} {a : ℕ} (h : ∀ x, a ≤ x → x < a + 4 → m x = m' x) :
    load32 m a = load32 m' a := by
  simp only [load32]
  rw [h (a + 3) (by omega) (by omega), h (a + 2) (by omega) (by omega),
    h (a + 1) (by omega) (by omega), h a (by omega) (by omega)]

theorem load32_store32_of_disjoint {m : Memory} {a b : ℕ} (v : BitVec 32)
    (h : b + 4 ≤ a ∨ a + 4 ≤ b) : load32 (store32 m a v) b = load32 m b :=
  load32_congr (fun _ _ _ => store32_of_outside v (by omega))

/-- Read, change and write back one word. -/
def modify32 (m : Memory) (a : ℕ) (f : BitVec 32 → BitVec 32) : Memory :=
  store32 m a (f (load32 m a))

theorem store32_store32 (m : Memory) (a : ℕ) (v w : BitVec 32) :
    store32 (store32 m a v) a w = store32 m a w := by
  funext x
  by_cases h : a ≤ x ∧ x < a + 4
  · simp only [store32, if_pos h]
  · simp only [store32, if_neg h]

@[simp] theorem modify32_store32 (m : Memory) (a : ℕ) (v : BitVec 32) (f : BitVec 32 → BitVec 32) :
    modify32 (store32 m a v) a f = store32 m a (f v) := by
  rw [modify32, load32_store32_same, store32_store32]

/-- Store `f i` in the `i`-th of `n` consecutive words. -/
def storeWords (m : Memory) (base n : ℕ) (f : ℕ → BitVec 32) : Memory :=
  countedLoop n (fun i m => store32 m (base + 4 * i) (f i)) m

theorem storeWords_of_outside {m : Memory} {base n x : ℕ} (f : ℕ → BitVec 32)
    (h : x < base ∨ base + 4 * n ≤ x) : storeWords m base n f x = m x := by
  refine countedLoop_invariant (fun _ (m' : Memory) => m' x = m x) rfl ?_
  intro i t hi ht
  rw [store32_of_outside _ (by omega)]
  exact ht

theorem load32_storeWords_of_disjoint {m : Memory} {base n b : ℕ} (f : ℕ → BitVec 32)
    (h : b + 4 ≤ base ∨ base + 4 * n ≤ b) : load32 (storeWords m base n f) b = load32 m b :=
  load32_congr (fun _ _ _ => storeWords_of_outside f (by omega))

theorem load32_storeWords {m : Memory} {base n i : ℕ} (f : ℕ → BitVec 32) (hi : i < n) :
    load32 (storeWords m base n f) (base + 4 * i) = f i := by
  have h : ∀ j < n, load32 (storeWords m base n f) (base + 4 * j) = f j := by
    refine countedLoop_invariant (fun k m' => ∀ j < k, load32 m' (base + 4 * j) = f j)
      (fun j hj => absurd hj (by omega)) ?_
    intro k t hk ht j hj
    by_cases hjk : j = k
    · subst hjk
      exact load32_store32_same _ _ _
    · rw [load32_store32_of_disjoint _ (by omega)]
      exact ht j (by omega)
  exact h i hi

end ByteMemory
