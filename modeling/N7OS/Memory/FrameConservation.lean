import Mathlib.Order.Interval.Finset.Nat
import N7OS.Memory.FrameCollision
import N7OS.Memory.PageMapping

/-! # Frames taken and pages mapped

Every call of `alloc_page_entry` takes one frame, and the pages mapped above 16 MiB
are the pages requested. The two counts part where a page is requested again: its
first frame is no longer mapped anywhere and stays marked.
-/
namespace N7OS
open ByteMemory Bitmap

/-- The pages marked used in the bitmap. -/
@[irreducible] def usedPages (bitmap : PageBitmap) : Finset ℕ := (Finset.range 4096).filter (fun p => test bitmap p)

/-- The virtual pages from 16 MiB on that are mapped present. -/
@[irreducible] def mappedPages (s : Paging) : Finset ℕ :=
  (Finset.Ico 4096 1048576).filter (fun q => (walk s.mem s.kernelDirectory (BitVec.ofNat 32 (q * 4096))).isSome)

/-- The virtual page of a call. -/
def AllocCall.page (c : AllocCall) : ℕ := c.address.toNat / 4096

section
variable {B : ℕ} {s : Paging} {p q : ℕ} {bitmap : PageBitmap} {calls : List AllocCall} (c : AllocCall)

theorem mem_usedPages : p ∈ usedPages bitmap ↔ p < 4096 ∧ p ∈ members bitmap := by
  rw [usedPages, Finset.mem_filter, Finset.mem_range, mem_members]

theorem mem_mappedPages : q ∈ mappedPages s ↔ (4096 ≤ q ∧ q < 1048576) ∧
    (walk s.mem s.kernelDirectory (BitVec.ofNat 32 (q * 4096))).isSome = true := by
  rw [mappedPages, Finset.mem_filter, Finset.mem_Ico]

theorem toNat_pageAddress (hq : q < 1048576) : (BitVec.ofNat 32 (q * 4096)).toNat / 4096 = q := by
  rw [toNat_ofNat_of_lt (by omega), Nat.mul_div_cancel _ (by decide)]

theorem usedPages_findfreePage (hfree : HasFree bitmap) :
    (usedPages (findfreePage bitmap).2).card = (usedPages bitmap).card + 1 := by
  rcases findfreePage_spec bitmap with ⟨p, hp, hnot, -, -, hm⟩ | ⟨hn, -⟩
  · have hinsert : usedPages (findfreePage bitmap).2 = insert p (usedPages bitmap) := by
      ext q
      rw [Finset.mem_insert, mem_usedPages, mem_usedPages, hm]
      constructor
      · rintro ⟨hq, rfl | hq'⟩
        · exact .inl rfl
        · exact .inr ⟨hq, hq'⟩
      · rintro (rfl | ⟨hq, hq'⟩)
        · exact ⟨hp, .inl rfl⟩
        · exact ⟨hq, .inr hq'⟩
    rw [hinsert, Finset.card_insert_of_notMem]
    exact fun hmem => hnot (mem_usedPages.mp hmem).2
  · exact absurd hfree hn

theorem AllocCall.mappedPages_run (hs : DirectoryInv B s) (hB : B ≤ 2 ^ 24) (haddr : 2 ^ 24 ≤ c.address.toNat) :
    mappedPages (c.run s) = insert c.page (mappedPages s) := by
  have hlt := c.address.isLt
  ext q
  rw [Finset.mem_insert, mem_mappedPages, mem_mappedPages]
  by_cases hq : q = c.page
  · have hbound : 4096 ≤ q ∧ q < 1048576 := by
      rw [hq, AllocCall.page]
      omega
    have hself := c.run_walk_self hs hB ((toNat_pageAddress hbound.2).trans hq)
    rw [hself]
    exact iff_of_true ⟨hbound, rfl⟩ (.inl hq)
  · have hsame : 4096 ≤ q ∧ q < 1048576 →
        walk (c.run s).mem (c.run s).kernelDirectory (BitVec.ofNat 32 (q * 4096)) =
          walk s.mem s.kernelDirectory (BitVec.ofNat 32 (q * 4096)) := by
      intro hbound
      apply c.run_walk_other hs hB
      rw [toNat_pageAddress hbound.2]
      exact hq
    constructor
    · rintro ⟨hbound, hwalk⟩
      exact .inr ⟨hbound, hsame hbound ▸ hwalk⟩
    · rintro (heq | ⟨hbound, hwalk⟩)
      · exact absurd heq hq
      · exact ⟨hbound, (hsame hbound).symm ▸ hwalk⟩

/-- The pages mapped by a run are the pages requested in it. -/
theorem mappedPages_runCalls (hs : DirectoryInv B s) (hB : B ≤ 2 ^ 24) (haddr : ∀ c ∈ calls, 2 ^ 24 ≤ c.address.toNat) :
    mappedPages (runCalls s calls) = (calls.map AllocCall.page).toFinset ∪ mappedPages s := by
  induction calls generalizing s with
  | nil =>
    rw [List.map_nil, List.toFinset_nil, Finset.empty_union]
    rfl
  | cons c calls ih =>
    have hnext := ih (c.run_inv hs hB) (fun d hd => haddr d (List.mem_cons_of_mem c hd))
    rw [c.mappedPages_run hs hB (haddr c List.mem_cons_self)] at hnext
    rw [List.map_cons, List.toFinset_cons, Finset.insert_union, ← Finset.union_insert]
    exact hnext

theorem usedPages_runCalls (hfree : FreeAtEachCall s calls) :
    (usedPages (runCalls s calls).pageBitmap).card = (usedPages s.pageBitmap).card + calls.length := by
  induction calls generalizing s with
  | nil => rfl
  | cons c calls ih =>
    have hrest : FreeAtEachCall (c.run s) calls := fun pre d post he => hfree (c :: pre) d post (by rw [he]; rfl)
    have hfirst := usedPages_findfreePage (hfree [] c calls rfl)
    have hnext := ih hrest
    rw [c.run_pageBitmap] at hnext
    rw [List.length_cons, Nat.add_comm calls.length, ← Nat.add_assoc]
    exact hnext.trans (congrArg (· + calls.length) hfirst)

theorem IdentityTables.mappedPages (h : IdentityTables B 4 s) : mappedPages s = ∅ := by
  apply Finset.eq_empty_of_forall_notMem
  intro q hq
  obtain ⟨hbound, hwalk⟩ := mem_mappedPages.mp hq
  have hpage := toNat_pageAddress hbound.2
  have habsent := h.absent ((BitVec.ofNat 32 (q * 4096)).toNat / 4194304) (by omega) (by omega)
  rw [Paging.walk_eq_none (.inl (by rw [habsent]; rfl))] at hwalk
  cases hwalk

end

/-- The frames taken since start-up are the frames mapped, one for each page, exactly
when no page was requested twice. -/
theorem framesTaken_iff (memHeap : U32) (s₀ s : Paging) (hfit : BootFits memHeap)
    (hboot : bootPaging memHeap s₀ = some s) (calls : List AllocCall)
    (haddr : ∀ c ∈ calls, 2 ^ 24 ≤ c.address.toNat) (hfree : FreeAtEachCall s calls) :
    execCalls s calls = some (runCalls s calls) ∧
      ((usedPages (runCalls s calls).pageBitmap).card - (usedPages s.pageBitmap).card =
          (mappedPages (runCalls s calls)).card ↔
        (calls.map AllocCall.page).Nodup) := by
  refine ⟨execCalls_of_free hfit hboot haddr hfree, ?_⟩
  obtain ⟨ht, -, -⟩ := bootPaging_some hfit hboot
  rw [mappedPages_runCalls (ht.directoryInv (pageCeil_mod _)) hfit.le haddr, ht.mappedPages, Finset.union_empty,
    usedPages_runCalls hfree, Nat.add_sub_cancel_left, eq_comm, ← List.length_map (f := AllocCall.page)]
  exact Multiset.toFinset_card_eq_card_iff_nodup

/-- Two tables, one of them shared by three calls, and a page requested twice. -/
theorem framesTaken_iff_120000 :
    let calls : List AllocCall := [⟨0x1000000, 1, 1⟩, ⟨0x1001000, 0, 1⟩, ⟨0x1400000, 1, 0⟩, ⟨0x1001000, 1, 1⟩]
    ∃ s, bootPaging 0x120000 Paging.blank = some s ∧ execCalls s calls = some (runCalls s calls) ∧
      ((usedPages (runCalls s calls).pageBitmap).card - (usedPages s.pageBitmap).card =
          (mappedPages (runCalls s calls)).card ↔
        (calls.map AllocCall.page).Nodup) := by
  intro calls
  obtain ⟨s, hs, -⟩ := bootPaging_spec 0x120000 Paging.blank bootFits_120000
  have hroom : pageCeil (0x120000 : U32).toNat / 4096 + 5 + calls.length ≤ 4096 := by
    rw [pageCeil_120000]
    decide
  exact ⟨s, hs, framesTaken_iff 0x120000 Paging.blank s bootFits_120000 hs calls (by simp [calls])
    (freeAtEachCall_of_room hroom hs)⟩

/-- The page at 16 MiB requested twice: two frames are taken and one page is mapped. -/
theorem frame_leaked : ∃ s, bootPaging 0x120000 Paging.blank = some s ∧
    FreeAtEachCall s [⟨0x1000000, 1, 1⟩, ⟨0x1000000, 1, 1⟩] ∧
    (usedPages (runCalls s [⟨0x1000000, 1, 1⟩, ⟨0x1000000, 1, 1⟩]).pageBitmap).card - (usedPages s.pageBitmap).card ≠
      (mappedPages (runCalls s [⟨0x1000000, 1, 1⟩, ⟨0x1000000, 1, 1⟩])).card := by
  obtain ⟨s, hs, ht, -, -⟩ := bootPaging_spec 0x120000 Paging.blank bootFits_120000
  have hle := bootFits_120000.le
  have hfree : FreeAtEachCall s [⟨0x1000000, 1, 1⟩, ⟨0x1000000, 1, 1⟩] := by
    refine freeAtEachCall_of_room ?_ hs
    rw [pageCeil_120000]
    decide
  refine ⟨s, hs, hfree, ?_⟩
  rw [usedPages_runCalls hfree, Nat.add_sub_cancel_left,
    mappedPages_runCalls (ht.directoryInv (pageCeil_mod _)) hle (by simp), ht.mappedPages]
  decide

end N7OS
