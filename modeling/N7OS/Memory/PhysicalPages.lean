import N7OS.Foundation.Bitmap
import N7OS.Machine.Integers

/-! # Physical pages

`kernel/mem.c`: one bit for each of the 4096 pages (`NB_PAGES`) of 16 MiB of
memory, in an array of 128 words (`BITMAP_SIZE`). An access outside the array is
undefined in C and is `none` here.
-/
namespace N7OS
open Bitmap

abbrev PageBitmap := Bitmap.Words 128

def setPage (bitmap : PageBitmap) (addr : U32) : Option PageBitmap :=
  let page := addr.toNat / 4096
  if page / 32 < 128 then some (insert bitmap page) else none

def clearPage (bitmap : PageBitmap) (addr : U32) : Option PageBitmap :=
  let page := addr.toNat / 4096
  if page / 32 < 128 then some (erase bitmap page) else none

/-- The address handed out, `0` when every page is taken, and the bitmap left behind. -/
def findfreePage (bitmap : PageBitmap) : U32 × PageBitmap :=
  match firstClear bitmap 4096 with
  | some page => (BitVec.ofNat 32 (page * 4096), insert bitmap page)
  | none => (0, bitmap)

def initMem (_ : PageBitmap) : PageBitmap := empty 128

/-- Some page is free. -/
def HasFree (bitmap : PageBitmap) : Prop := ∃ p < 4096, p ∉ members bitmap

theorem setPage_of_lt {bitmap : PageBitmap} {addr : U32} (h : addr.toNat < 2 ^ 24) :
    setPage bitmap addr = some (insert bitmap (addr.toNat / 4096)) := by
  have hp : addr.toNat / 4096 / 32 < 128 := by omega
  simp only [setPage, if_pos hp]

/-- Either the least free page is returned and marked, or there is none and nothing changes. -/
theorem findfreePage_spec (bitmap : PageBitmap) :
    (∃ p < 4096, p ∉ members bitmap ∧ (∀ q < p, q ∈ members bitmap) ∧
      (findfreePage bitmap).1.toNat = p * 4096 ∧
      members (findfreePage bitmap).2 = Set.insert p (members bitmap)) ∨
    (¬HasFree bitmap ∧ findfreePage bitmap = (0, bitmap)) := by
  cases h : firstClear bitmap 4096 with
  | some p =>
    obtain ⟨hp, hfree, hleast⟩ := firstClear_eq_some.mp h
    have he : findfreePage bitmap = (BitVec.ofNat 32 (p * 4096), insert bitmap p) := by
      unfold findfreePage
      simp only [h]
    refine Or.inl ⟨p, hp, hfree, hleast, ?_, ?_⟩
    · rw [he]
      exact toNat_ofNat_of_lt (by omega)
    · rw [he]
      exact members_insert bitmap (by omega)
  | none =>
    refine Or.inr ⟨?_, by unfold findfreePage; simp only [h]⟩
    rintro ⟨p, hp, hfree⟩
    exact hfree (firstClear_eq_none.mp h p hp)

/-- Searching never frees a page. -/
theorem members_subset_findfreePage (bitmap : PageBitmap) :
    members bitmap ⊆ members (findfreePage bitmap).2 := by
  rcases findfreePage_spec bitmap with ⟨p, _, _, _, _, hm⟩ | ⟨_, he⟩
  · rw [hm]
    exact Set.subset_insert p _
  · rw [he]

end N7OS
