import N7OS.Memory.KernelReached
import N7OS.Memory.PageAllocator

/-! # The pages a call maps

What a call of `alloc_page_entry` above 16 MiB means for the processor while free pages
remain: it returns, its page leads to the least free page, and nothing else changes.
-/
namespace N7OS
open ByteMemory Bitmap

/-- The call maps the page of its address to the least free page and nothing else changes, for
the processor that walks from `cr3`. Its stores go through the identity mapping. -/
structure MapsOnePage (s : Paging) (c : AllocCall) : Prop where
  returns : 2 ^ 24 ≤ c.address.toNat → c.exec s = some (c.table s, c.run s)
  cr3 : (c.run s).cr3 = (c.run s).kernelDirectory
  mapped : ∃ p, IsLeast (pagePool \ members s.pageBitmap) p ∧
    members (c.run s).pageBitmap = Set.insert p (members s.pageBitmap) ∧
    ∀ v : U32, v.toNat / 4096 = c.address.toNat / 4096 →
      ∃ w, walk (c.run s).mem (c.run s).kernelDirectory v = some w ∧ Pte.present w.pte = 1 ∧
        (Pte.frameAddr w.pte).toNat = p ∧ (Pte.rw w.pte = 1 ↔ c.isWriteable ≠ 0) ∧
        (Pte.user w.pte = 1 ↔ c.isKernel = 0)
  others : ∀ v : U32, v.toNat / 4096 ≠ c.address.toNat / 4096 →
    walk (c.run s).mem (c.run s).kernelDirectory v = walk s.mem s.kernelDirectory v
  table : c.table s = Pte.target ((c.run s).pde c.slot)
  reached : ∀ v : U32, (c.run s).tableAt c.slot ≤ v.toNat → v.toNat < (c.run s).tableAt c.slot + 4096 →
    IdentityWalk s v

section
variable {B : ℕ} {s : Paging} (c : AllocCall)

theorem AllocCall.entry_rw : Pte.rw (c.entry s) = 1 ↔ c.isWriteable ≠ 0 := by
  by_cases h : c.isWriteable = 0 <;> simp [AllocCall.entry, h]

theorem AllocCall.entry_user : Pte.user (c.entry s) = 1 ↔ c.isKernel = 0 := by
  by_cases h : c.isKernel = 0 <;> simp [AllocCall.entry, h]

theorem AllocCall.entry_frame :
    (Pte.frameAddr (c.entry s)).toNat = (findfreePage s.pageBitmap).1.toNat / 4096 := by
  simp only [AllocCall.entry, Pte.frameAddr_make, toNat_frame]

theorem AllocCall.mapsOnePage (hreach : KernelReached B s) (hB : B ≤ 2 ^ 24) (hid : IdentityMap B s)
    (hfree : HasFree s.pageBitmap) (hroom : s.placementAddress.toNat + 4096 ≤ 2 ^ 24) : MapsOnePage s c := by
  have hs := hreach.directory
  have hplace := (c.run_placement hs hB).2
  constructor
  · intro haddr
    exact (hreach.step c hB (c.reached_of_ge hreach hB hid haddr (by omega))).1
  · rw [c.run_cr3, c.run_kernelDirectory, hreach.cr3]
  · rcases findfreePage_spec s.pageBitmap with ⟨p, hp, hnot, hleast, hr, hm⟩ | ⟨hn, _⟩
    · refine ⟨p, ⟨⟨hp, hnot⟩, ?_⟩, c.run_pageBitmap ▸ hm, ?_⟩
      · intro q hq
        by_contra hlt
        exact hq.2 (hleast q (by omega))
      · intro v hv
        refine ⟨_, c.run_walk_self hs hB hv, Pte.present_make _ _ _, ?_, c.entry_rw, c.entry_user⟩
        rw [c.entry_frame, hr, Nat.mul_div_cancel _ (by decide)]
    · exact absurd hfree hn
  · exact fun v hv => c.run_walk_other hs hB hv
  · exact c.run_table hs hB
  · intro v _ hv
    have htable := ((c.run_inv hs hB).table _ (c.slot_mem_presentDirs hs hB)).2.2
    exact hid.walk (by omega)

end

theorem allocPageEntry_mapsOnePage (memHeap : U32) (s₀ s : Paging) (hfit : BootFits memHeap)
    (hboot : bootPaging memHeap s₀ = some s) (calls : List AllocCall)
    (haddr : ∀ c ∈ calls, 2 ^ 24 ≤ c.address.toNat) (hfree : HasFree (runCalls s calls).pageBitmap)
    (hroom : (runCalls s calls).placementAddress.toNat + 4096 ≤ 2 ^ 24) (c : AllocCall) :
    execCalls s calls = some (runCalls s calls) ∧ MapsOnePage (runCalls s calls) c := by
  obtain ⟨ht, _⟩ := bootPaging_some hfit hboot
  have hinv := ht.directoryInv (pageCeil_mod _)
  have hB := hfit.le
  obtain ⟨hexec, hreach⟩ := execCalls_eq (bootPaging_kernelReached hfit hboot) hB ht.identityMap haddr (by omega)
  exact ⟨hexec, c.mapsOnePage hreach hB (runCalls_identityMap hinv hB ht.identityMap haddr) hfree hroom⟩

/-- The first call after start-up, with the heap at 0x120000. -/
theorem allocPageEntry_mapsOnePage_120000 : ∃ s, bootPaging 0x120000 Paging.blank = some s ∧
    MapsOnePage s ⟨0x1000000, 1, 0⟩ := by
  obtain ⟨s, hs, ht, hmark, _⟩ := bootPaging_spec 0x120000 Paging.blank bootFits_120000
  have hp := ht.placement
  rw [pageCeil_120000] at hp
  have hfree : HasFree s.pageBitmap := by
    refine ⟨4095, by decide, ?_⟩
    rw [hmark]
    omega
  exact ⟨s, hs, (allocPageEntry_mapsOnePage 0x120000 Paging.blank s bootFits_120000 hs [] (by simp) hfree
    (by simp only [runCalls, List.foldl_nil]; omega) ⟨0x1000000, 1, 0⟩).2⟩

end N7OS
