import N7OS.Foundation.ByteMemory

/-! # Words stored piece by piece

Bytes, half-words and double words beside the words of 32 bits. A word is stored at
once or in parts, low part first; the memory is the same.
-/
namespace ByteMemory
open Execution
variable {m : Memory} {a b x : ℕ}

def store8 (m : Memory) (a : ℕ) (v : BitVec 8) : Memory := Function.update m a v

def store16 (m : Memory) (a : ℕ) (v : BitVec 16) : Memory :=
  store8 (store8 m a (v.setWidth 8)) (a + 1) (v.extractLsb' 8 8)

def store64 (m : Memory) (a : ℕ) (v : BitVec 64) : Memory :=
  store32 (store32 m a (v.setWidth 32)) (a + 4) (v.extractLsb' 32 32)

def load64 (m : Memory) (a : ℕ) : BitVec 64 := load32 m (a + 4) ++ load32 m a

/-- `n` bytes set to `v`. -/
def memset (m : Memory) (a : ℕ) (v : BitVec 8) (n : ℕ) : Memory := fun x => if a ≤ x ∧ x < a + n then v else m x

theorem store16_append (m : Memory) (a : ℕ) (lo hi : BitVec 8) :
    store8 (store8 m a lo) (a + 1) hi = store16 m a (hi ++ lo) := by
  rw [store16, BitVec.setWidth_append_eq_right, BitVec.extractLsb'_append_eq_left]

/-- The bytes of a word, one by one. -/
theorem store32_eq_store8 (m : Memory) (a : ℕ) (v : BitVec 32) :
    store32 m a v =
      store8 (store8 (store8 (store8 m a (byteOf v 0)) (a + 1) (byteOf v 1)) (a + 2) (byteOf v 2)) (a + 3) (byteOf v 3) := by
  funext x
  by_cases hx : a ≤ x ∧ x < a + 4
  · obtain ⟨k, rfl⟩ := Nat.exists_eq_add_of_le hx.1
    have hk : k = 0 ∨ k = 1 ∨ k = 2 ∨ k = 3 := by omega
    rw [store32_apply_add m a v (by omega)]
    rcases hk with rfl | rfl | rfl | rfl <;> simp [store8]
  · rw [store32_of_outside v (by omega)]
    simp only [store8, Function.update_apply]
    rw [if_neg (by omega), if_neg (by omega), if_neg (by omega), if_neg (by omega)]

theorem store32_append (m : Memory) (a : ℕ) (lo hi : BitVec 16) :
    store16 (store16 m a lo) (a + 2) hi = store32 m a (hi ++ lo) := by
  have h0 : byteOf (hi ++ lo) 0 = lo.setWidth 8 := by
    rw [BitVec.setWidth_eq_extractLsb' (by decide)]
    exact BitVec.extractLsb'_append_eq_of_add_le (by decide)
  have h1 : byteOf (hi ++ lo) 1 = lo.extractLsb' 8 8 := BitVec.extractLsb'_append_eq_of_add_le (by decide)
  have h2 : byteOf (hi ++ lo) 2 = hi.setWidth 8 := by
    rw [BitVec.setWidth_eq_extractLsb' (by decide)]
    exact BitVec.extractLsb'_append_eq_of_le (by decide)
  have h3 : byteOf (hi ++ lo) 3 = hi.extractLsb' 8 8 := BitVec.extractLsb'_append_eq_of_le (by decide)
  rw [store32_eq_store8, h0, h1, h2, h3]
  rfl

theorem store64_append (m : Memory) (a : ℕ) (lo hi : BitVec 32) :
    store32 (store32 m a lo) (a + 4) hi = store64 m a (hi ++ lo) := by
  rw [store64, BitVec.setWidth_append_eq_right, BitVec.extractLsb'_append_eq_left]

theorem append_halves (v : BitVec 64) : v.extractLsb' 32 32 ++ v.setWidth 32 = v := by
  rw [BitVec.setWidth_eq_extractLsb' (by decide)]
  exact BitVec.extractLsb'_append_extractLsb'

@[simp] theorem load64_store64_same (m : Memory) (a : ℕ) (v : BitVec 64) : load64 (store64 m a v) a = v := by
  rw [load64, store64, load32_store32_same, load32_store32_of_disjoint _ (by omega), load32_store32_same]
  exact append_halves v

theorem store64_of_outside (v : BitVec 64) (h : x < a ∨ a + 8 ≤ x) : store64 m a v x = m x := by
  rw [store64, store32_of_outside _ (by omega), store32_of_outside _ (by omega)]

theorem load64_congr {m' : Memory} (h : ∀ x, a ≤ x → x < a + 8 → m x = m' x) : load64 m a = load64 m' a := by
  rw [load64, load64, load32_congr (fun x _ _ => h x (by omega) (by omega)),
    load32_congr (fun x _ _ => h x (by omega) (by omega))]

theorem load64_store64_of_disjoint (v : BitVec 64) (h : b + 8 ≤ a ∨ a + 8 ≤ b) :
    load64 (store64 m a v) b = load64 m b := load64_congr (fun _ _ _ => store64_of_outside v (by omega))

/-- A byte of a double word. -/
theorem apply_eq_load64 {k : ℕ} (hk : k < 8) : m (a + k) = (load64 m a).extractLsb' (8 * k) 8 := by
  have hcases : k = 0 ∨ k = 1 ∨ k = 2 ∨ k = 3 ∨ k = 4 ∨ k = 5 ∨ k = 6 ∨ k = 7 := by omega
  apply BitVec.eq_of_getLsbD_eq
  intro i hi
  simp only [load64, load32, BitVec.getLsbD_extractLsb', BitVec.getLsbD_append]
  rcases hcases with rfl | rfl | rfl | rfl | rfl | rfl | rfl | rfl <;> grind

/-- Store `f i` in the `i`-th of `n` consecutive double words. -/
def storeDoubles (m : Memory) (base n : ℕ) (f : ℕ → BitVec 64) : Memory :=
  countedLoop n (fun i m => store64 m (base + 8 * i) (f i)) m

theorem storeDoubles_of_outside {base n : ℕ} (f : ℕ → BitVec 64) (h : x < base ∨ base + 8 * n ≤ x) :
    storeDoubles m base n f x = m x := by
  refine countedLoop_invariant (fun _ (m' : Memory) => m' x = m x) rfl ?_
  intro i t hi ht
  rw [store64_of_outside _ (by omega)]
  exact ht

theorem load64_storeDoubles {base n i : ℕ} (f : ℕ → BitVec 64) (hi : i < n) :
    load64 (storeDoubles m base n f) (base + 8 * i) = f i := by
  have h : ∀ j < n, load64 (storeDoubles m base n f) (base + 8 * j) = f j := by
    refine countedLoop_invariant (fun k m' => ∀ j < k, load64 m' (base + 8 * j) = f j)
      (fun j hj => absurd hj (by omega)) ?_
    intro k t hk ht j hj
    by_cases hjk : j = k
    · subst hjk
      exact load64_store64_same _ _ _
    · rw [load64_store64_of_disjoint _ (by omega)]
      exact ht j (by omega)
  exact h i hi

end ByteMemory
