import Mathlib.Data.Set.Function
import Mathlib.Order.CompletePartialOrder
import Mathlib.Order.Interval.Set.Disjoint
import N7OS.Foundation.PackedWords

/-! # What a piece of code leaves alone

A memory changed inside a set of addresses only. Changes compose, and whatever is read
outside the set is read as before.
-/
namespace ByteMemory
open Execution
variable {m m₁ m₂ : Memory} {s t : Set ℕ} {a b n k : ℕ}

/-- The bytes of an object. -/
def object (a n : ℕ) : Set ℕ := Set.Ico a (a + n)

def SameOutside (s : Set ℕ) (m m' : Memory) : Prop := Set.EqOn m' m sᶜ

theorem notMem_object {x : ℕ} : x ∉ object a n ↔ x < a ∨ a + n ≤ x := by
  rw [object, Set.mem_Ico]
  omega

theorem object_subset (hab : b ≤ a) (hn : a + n ≤ b + k) : object a n ⊆ object b k :=
  Set.Ico_subset_Ico hab hn

theorem object_disjoint (h : a + n ≤ b ∨ b + k ≤ a) : Disjoint (object a n) (object b k) := by
  rw [Set.disjoint_left]
  intro x hx hx'
  rw [object, Set.mem_Ico] at hx hx'
  omega

namespace SameOutside

theorem refl (s : Set ℕ) (m : Memory) : SameOutside s m m := Set.eqOn_refl m sᶜ

theorem trans (h₁ : SameOutside s m m₁) (h₂ : SameOutside s m₁ m₂) : SameOutside s m m₂ := Set.EqOn.trans h₂ h₁

theorem mono (h : SameOutside s m m₁) (hst : s ⊆ t) : SameOutside t m m₁ :=
  Set.EqOn.mono (Set.compl_subset_compl.mpr hst) h

theorem apply (h : SameOutside s m m₁) {x : ℕ} (hx : x ∉ s) : m₁ x = m x := h hx

theorem apply_object (h : SameOutside s m m₁) (hs : Disjoint (object a n) s) {x : ℕ} (hlo : a ≤ x) (hhi : x < a + n) :
    m₁ x = m x := h (Set.disjoint_left.mp hs ⟨hlo, hhi⟩)

theorem load32 (h : SameOutside s m m₁) (hs : Disjoint (object a 4) s) :
    ByteMemory.load32 m₁ a = ByteMemory.load32 m a := load32_congr fun _ hlo hhi => h.apply_object hs hlo hhi

theorem load64 (h : SameOutside s m m₁) (hs : Disjoint (object a 8) s) :
    ByteMemory.load64 m₁ a = ByteMemory.load64 m a := load64_congr fun _ hlo hhi => h.apply_object hs hlo hhi

theorem loop {f : ℕ → Memory → Memory} (h : ∀ i < n, ∀ m, SameOutside s m (f i m)) (m : Memory) :
    SameOutside s m (countedLoop n f m) :=
  countedLoop_invariant (fun _ m' => SameOutside s m m') (refl s m) fun i m' hi hm => hm.trans (h i hi m')

end SameOutside

theorem sameOutside_store16 (m : Memory) (a : ℕ) (v : BitVec 16) : SameOutside (object a 2) m (store16 m a v) := by
  intro x hx
  have hout := notMem_object.mp hx
  rw [store16, store8, store8, Function.update_of_ne (by omega), Function.update_of_ne (by omega)]

theorem sameOutside_store32 (m : Memory) (a : ℕ) (v : BitVec 32) : SameOutside (object a 4) m (store32 m a v) :=
  fun _ hx => store32_of_outside v (notMem_object.mp hx)

theorem sameOutside_store64 (m : Memory) (a : ℕ) (v : BitVec 64) : SameOutside (object a 8) m (store64 m a v) :=
  fun _ hx => store64_of_outside v (notMem_object.mp hx)

theorem sameOutside_memset (m : Memory) (a : ℕ) (v : BitVec 8) (n : ℕ) :
    SameOutside (object a n) m (memset m a v n) := by
  intro x hx
  have hout := notMem_object.mp hx
  exact if_neg (by omega)

theorem store32_zero (m : Memory) (a : ℕ) : store32 m a 0#32 = memset m a 0#8 4 := by
  funext x
  have hbyte : byteOf 0#32 (x - a) = 0#8 := by simp [byteOf]
  rw [store32, memset, hbyte]

theorem memset_memset (m : Memory) (a n k : ℕ) (v : BitVec 8) :
    memset (memset m a v n) (a + n) v k = memset m a v (n + k) := by
  funext x
  simp only [memset]
  split_ifs <;> first | rfl | omega

/-- A word of zeros. -/
theorem load32_eq_zero (h : ∀ x, a ≤ x → x < a + 4 → m x = 0#8) : load32 m a = 0#32 := by
  rw [load32_congr h]
  change 0#8 ++ 0#8 ++ 0#8 ++ 0#8 = 0#32
  decide

theorem load64_memset_zero (hlo : a ≤ b) (hhi : b + 8 ≤ a + n) (m : Memory) : load64 (memset m a 0#8 n) b = 0#64 := by
  have hzero : ∀ x, b ≤ x → x < b + 8 → memset m a 0#8 n x = 0#8 := fun x hx hx' => if_pos ⟨by omega, by omega⟩
  have hlow : load32 (memset m a 0#8 n) b = 0#32 := load32_eq_zero fun x hx hx' => hzero x hx (by omega)
  have hhigh : load32 (memset m a 0#8 n) (b + 4) = 0#32 := load32_eq_zero fun x hx hx' => hzero x (by omega) (by omega)
  rw [load64, hlow, hhigh]
  decide

/-- The half-word that a word begins with. -/
theorem setWidth_load32_store16 (m : Memory) (a : ℕ) (v : BitVec 16) : (load32 (store16 m a v) a).setWidth 16 = v := by
  have h0 : store16 m a v a = v.setWidth 8 := by
    rw [store16, store8, store8, Function.update_of_ne (by omega), Function.update_self]
  have h1 : store16 m a v (a + 1) = v.extractLsb' 8 8 := by rw [store16, store8, Function.update_self]
  rw [load32, h0, h1]
  apply BitVec.eq_of_getLsbD_eq
  intro i hi
  simp only [BitVec.getLsbD_setWidth, BitVec.getLsbD_append, BitVec.getLsbD_extractLsb']
  grind

/-! ## Writers beside each other -/

section
variable {ι : Type*} (write : ι → Memory → Memory) (region : ι → Set ℕ)

/-- Everything that a list of writers can change. -/
def regions (fs : List ι) : Set ℕ := {x | ∃ f ∈ fs, x ∈ region f}

theorem sameOutside_foldl {fs : List ι} (hwrite : ∀ f ∈ fs, ∀ m, SameOutside (region f) m (write f m)) (m : Memory) :
    SameOutside (regions region fs) m (fs.foldl (fun m f => write f m) m) := by
  induction fs generalizing m with
  | nil => exact .refl _ m
  | cons f fs ih =>
    obtain ⟨hf, hwrite⟩ := List.forall_mem_cons.mp hwrite
    have hfirst : region f ⊆ regions region (f :: fs) := fun x hx => ⟨f, List.mem_cons_self, hx⟩
    have hrest : regions region fs ⊆ regions region (f :: fs) := fun x ⟨g, hg, hx⟩ => ⟨g, List.mem_cons_of_mem f hg, hx⟩
    exact ((hf m).mono hfirst).trans ((ih hwrite (write f m)).mono hrest)

/-- What each of them leaves in its own region is there at the end, if the regions are disjoint and none of them
disturbs what the others rely on. -/
theorem foldl_holds {Q : ι → Memory → Prop} {P : Memory → Prop}
    (hkeep : ∀ f m m', (∀ x ∈ region f, m' x = m x) → Q f m → Q f m') {fs : List ι}
    (hwrite : ∀ f ∈ fs, ∀ m, SameOutside (region f) m (write f m))
    (hestablish : ∀ f ∈ fs, ∀ m, P m → Q f (write f m)) (hrely : ∀ f ∈ fs, ∀ m, P m → P (write f m))
    (hdisjoint : fs.Pairwise (fun f g => Disjoint (region f) (region g))) {m : Memory} (hm : P m) :
    ∀ f ∈ fs, Q f (fs.foldl (fun m f => write f m) m) := by
  induction fs generalizing m with
  | nil => exact fun f hf => absurd hf List.not_mem_nil
  | cons f fs ih =>
    obtain ⟨hbeside, hdisjoint⟩ := List.pairwise_cons.mp hdisjoint
    obtain ⟨-, hwrite⟩ := List.forall_mem_cons.mp hwrite
    obtain ⟨hf, hestablish⟩ := List.forall_mem_cons.mp hestablish
    obtain ⟨hpf, hrely⟩ := List.forall_mem_cons.mp hrely
    refine List.forall_mem_cons.mpr ⟨?_, ih hwrite hestablish hrely hdisjoint (hpf m hm)⟩
    refine hkeep f (write f m) _ (fun x hx => ?_) (hf m hm)
    refine (sameOutside_foldl write region hwrite (write f m)).apply ?_
    rintro ⟨g, hg, hxg⟩
    exact Set.disjoint_left.mp (hbeside g hg) hx hxg

end

/-- Bytes stored at addresses of their own. -/
theorem countedLoop_store8 {f : ℕ → ℕ} (hinj : Function.Injective f) (v : ℕ → BitVec 8) (n : ℕ) (m : Memory) :
    let m' : Memory := countedLoop n (fun i m => store8 m (f i) (v i)) m
    (∀ i < n, m' (f i) = v i) ∧ ∀ x, (∀ i < n, x ≠ f i) → m' x = m x := by
  refine countedLoop_invariant (fun n (m' : Memory) =>
    (∀ i < n, m' (f i) = v i) ∧ ∀ x, (∀ i < n, x ≠ f i) → m' x = m x)
    ⟨fun i hi => absurd hi (Nat.not_lt_zero i), fun x _ => rfl⟩ ?_
  rintro k m' - ⟨hwritten, hout⟩
  constructor
  · intro i hi
    by_cases hik : i = k
    · rw [hik, store8, Function.update_self]
    · rw [store8, Function.update_of_ne (hinj.ne hik)]
      exact hwritten i (by omega)
  · intro x hx
    rw [store8, Function.update_of_ne (hx k (by omega))]
    exact hout x fun i hi => hx i (by omega)

end ByteMemory
