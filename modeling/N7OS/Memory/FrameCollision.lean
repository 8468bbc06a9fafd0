import N7OS.Memory.KernelReached

/-! # Two allocators over one memory

Page tables come from the bump pointer and data frames from the bitmap, which is
told about the bump pointer only once, at start-up. Every later table is
therefore placed on a frame that the bitmap hands out as well.
-/
namespace N7OS
open ByteMemory Bitmap

/-- The physical frame in the entry that a call was made for. -/
def AllocCall.frame (c : AllocCall) (t : Paging) : ℕ :=
  (Pte.frameAddr (load32 t.mem (t.tableAt c.slot + 4 * c.index))).toNat

/-- The data frames handed out by a run, in order. -/
def dataFrames (s : Paging) : List AllocCall → List ℕ
  | [] => []
  | c :: calls => c.frame (c.run s) :: dataFrames (c.run s) calls

/-- The frame holds a part of the kernel image, the directory or one of the tables. -/
def HoldsKernel (memHeap : U32) (t : Paging) (f : ℕ) : Prop :=
  f * 4096 < memHeap.toNat ∨ f = t.kernelDirectory.toNat / 4096 ∨ ∃ d ∈ t.presentDirs, f = t.tableAt d / 4096

/-- A call keeps the two allocators apart: its data frame is unused, and a table that it creates
is not on a frame given out before. -/
def CallDisjoint (memHeap : U32) (s : Paging) (given : List ℕ) (c : AllocCall) : Prop :=
  ¬HoldsKernel memHeap (c.run s) (c.frame (c.run s)) ∧ c.frame (c.run s) ∉ given ∧
    ∀ d ∈ (c.run s).presentDirs, d ∉ s.presentDirs → (c.run s).tableAt d / 4096 ∉ given

def RunDisjoint (memHeap : U32) (s : Paging) (calls : List AllocCall) : Prop :=
  ∀ pre c post, calls = pre ++ c :: post → CallDisjoint memHeap (runCalls s pre) (dataFrames s pre) c

/-- The bitmap has a free page whenever a call starts. -/
def FreeAtEachCall (s : Paging) (calls : List AllocCall) : Prop :=
  ∀ pre c post, calls = pre ++ c :: post → HasFree (runCalls s pre).pageBitmap

/-- After `k` calls the bitmap has handed out the `k` frames above the start-up watermark, and at
most as many tables have been placed there by the bump pointer. -/
structure FrameInv (B k : ℕ) (s : Paging) (given : List ℕ) : Prop where
  directory : DirectoryInv B s
  tables : 4 ≤ s.presentDirs.card ∧ s.presentDirs.card ≤ 4 + k
  marked : ∀ p, p ∈ members s.pageBitmap ↔ p < B / 4096 + 5 + k
  given : given = (List.range k).map (fun j => B / 4096 + 5 + j)

section
variable {B k : ℕ} {s : Paging} {given : List ℕ} (c : AllocCall)

theorem AllocCall.frame_run (hs : DirectoryInv B s) (hB : B ≤ 2 ^ 24) :
    c.frame (c.run s) = (findfreePage s.pageBitmap).1.toNat / 4096 := by
  have htable : (c.run s).tableAt c.slot = (ensureTable c.slot s).tableAt c.slot := by
    rw [Paging.tableAt, c.run_pde hs hB _ c.slot_lt]
    rfl
  rw [AllocCall.frame, htable, c.run_mem, load32_store32_same, AllocCall.entry, Pte.frameAddr_make,
    toNat_frame]

theorem FrameInv.next_free (h : FrameInv B k s given) (hfree : HasFree s.pageBitmap) :
    (findfreePage s.pageBitmap).1.toNat / 4096 = B / 4096 + 5 + k ∧
      ∀ p, p ∈ members (findfreePage s.pageBitmap).2 ↔ p < B / 4096 + 5 + (k + 1) := by
  rcases findfreePage_spec s.pageBitmap with ⟨p, _, hp, hleast, hr, hm⟩ | ⟨hn, _⟩
  · have hge : ¬p < B / 4096 + 5 + k := fun hlt => hp ((h.marked p).mpr hlt)
    have hle : ¬B / 4096 + 5 + k < p := fun hlt =>
      absurd ((h.marked _).mp (hleast _ hlt)) (by omega)
    refine ⟨by rw [hr]; omega, ?_⟩
    intro q
    rw [hm]
    change q = p ∨ q ∈ members s.pageBitmap ↔ _
    rw [h.marked q]
    omega
  · exact absurd hfree hn

/-- A new table is put on the first page after the previous ones. -/
theorem AllocCall.new_table (hs : DirectoryInv B s) (hB : B ≤ 2 ^ 24) (hnew : c.slot ∉ s.presentDirs) :
    (c.run s).tableAt c.slot = B + 4096 * (1 + s.presentDirs.card) ∧
      (c.run s).presentDirs = insert c.slot s.presentDirs := by
  have h0 : Pte.present (s.pde c.slot) = 0 := by
    by_contra hne
    exact hnew (Paging.mem_presentDirs.mpr ⟨c.slot_lt, present_ne_zero hne⟩)
  have he : ensureTable c.slot s = createTable c.slot s := if_pos h0
  obtain ⟨_, htable, _⟩ := createTable_spec hs hB c.slot_lt
  constructor
  · rw [Paging.tableAt, c.run_pde hs hB _ c.slot_lt, he]
    exact htable.trans hs.placement
  · rw [presentDirs_congr (c.run_pde hs hB), he]
    exact presentDirs_createTable hs hB c.slot_lt

theorem AllocCall.presentDirs_of_reuse (hs : DirectoryInv B s) (hB : B ≤ 2 ^ 24)
    (hold : c.slot ∈ s.presentDirs) : (c.run s).presentDirs = s.presentDirs := by
  have h1 := (Paging.mem_presentDirs.mp hold).2
  have he : ensureTable c.slot s = s := if_neg (by rw [h1]; decide)
  rw [presentDirs_congr (c.run_pde hs hB), he]

theorem FrameInv.step (h : FrameInv B k s given) (hB : B ≤ 2 ^ 24) (hfree : HasFree s.pageBitmap) :
    FrameInv B (k + 1) (c.run s) (given ++ [c.frame (c.run s)]) := by
  obtain ⟨hnext, hmarked⟩ := h.next_free hfree
  constructor
  · exact c.run_inv h.directory hB
  · have ht := h.tables
    by_cases hslot : c.slot ∈ s.presentDirs
    · rw [c.presentDirs_of_reuse h.directory hB hslot]
      omega
    · rw [(c.new_table h.directory hB hslot).2, Finset.card_insert_of_notMem hslot]
      omega
  · rw [c.run_pageBitmap]
    exact hmarked
  · rw [c.frame_run h.directory hB, hnext, h.given, List.range_succ, List.map_append]
    rfl

/-- A call meets the property exactly when it reuses a table. -/
theorem FrameInv.callDisjoint_iff (h : FrameInv B k s given) (hB : B ≤ 2 ^ 24) {memHeap : U32}
    (hheap : memHeap.toNat ≤ B) (hfree : HasFree s.pageBitmap) :
    CallDisjoint memHeap s given c ↔ c.slot ∈ s.presentDirs := by
  have hdir := h.directory.directory
  have htables := h.tables
  have hplace := h.directory.placement
  have hframe : c.frame (c.run s) = B / 4096 + 5 + k :=
    (c.frame_run h.directory hB).trans (h.next_free hfree).1
  have hgiven : ∀ f, f ∈ given ↔ B / 4096 + 5 ≤ f ∧ f < B / 4096 + 5 + k := by
    intro f
    rw [h.given, List.mem_map]
    constructor
    · rintro ⟨j, hj, rfl⟩
      have hj' := List.mem_range.mp hj
      omega
    · rintro ⟨h1, h2⟩
      exact ⟨f - (B / 4096 + 5), List.mem_range.mpr (by omega), by omega⟩
  constructor
  · rintro ⟨hkernel, _, htable⟩
    by_contra hnew
    obtain ⟨hat, hdirs⟩ := c.new_table h.directory hB hnew
    have hmem : c.slot ∈ (c.run s).presentDirs := hdirs ▸ Finset.mem_insert_self _ _
    by_cases hlt : s.presentDirs.card < 4 + k
    · exact htable c.slot hmem hnew ((hgiven _).mpr (by rw [hat]; omega))
    · exact hkernel (Or.inr (Or.inr ⟨c.slot, hmem, by rw [hframe, hat]; omega⟩))
  · intro hold
    have hdirs := c.presentDirs_of_reuse h.directory hB hold
    refine ⟨?_, ?_, ?_⟩
    · rw [hframe]
      rintro (hk | hk | ⟨d, hd, hk⟩)
      · omega
      · rw [c.run_kernelDirectory, hdir] at hk
        omega
      · rw [hdirs] at hd
        have ht := (h.directory.table d hd).2.2
        rw [c.run_tableAt h.directory hB hd] at hk
        omega
    · rw [hframe, hgiven]
      omega
    · intro d hd hnew
      rw [hdirs] at hd
      exact absurd hd hnew

theorem dataFrames_append (s : Paging) (xs ys : List AllocCall) :
    dataFrames s (xs ++ ys) = dataFrames s xs ++ dataFrames (runCalls s xs) ys := by
  induction xs generalizing s with
  | nil => rfl
  | cons c xs ih =>
    simp only [List.cons_append, dataFrames, List.cons.injEq, true_and]
    exact ih (c.run s)

theorem FrameInv.run (h : FrameInv B 0 s []) (hB : B ≤ 2 ^ 24) {calls : List AllocCall}
    (hfree : FreeAtEachCall s calls) :
    FrameInv B calls.length (runCalls s calls) (dataFrames s calls) := by
  induction calls using List.reverseRecOn with
  | nil => exact h
  | append_singleton calls c ih =>
    have hpre : FreeAtEachCall s calls := by
      intro pre c' post he
      exact hfree pre c' (post ++ [c]) (by rw [he]; simp)
    have hlast := hfree calls c [] rfl
    have hstep := (ih hpre).step c hB hlast
    rw [runCalls_append, dataFrames_append, List.length_append]
    exact hstep

/-- There is a free page for each of a few calls after start-up. -/
theorem FrameInv.freeAtEachCall (h : FrameInv B 0 s []) (hB : B ≤ 2 ^ 24) {calls : List AllocCall}
    (hfit : B / 4096 + 5 + calls.length ≤ 4096) : FreeAtEachCall s calls := by
  induction calls using List.reverseRecOn with
  | nil =>
    intro pre c post he
    simp at he
  | append_singleton calls c ih =>
    rw [List.length_append, List.length_singleton] at hfit
    have hpre := ih (by omega)
    intro pre d post he
    rcases List.eq_nil_or_concat post with rfl | ⟨post, e, rfl⟩
    · obtain ⟨rfl, -⟩ := List.append_inj' he rfl
      refine ⟨4095, by omega, ?_⟩
      rw [(h.run hB hpre).marked]
      omega
    · rw [List.concat_eq_append, ← List.cons_append, ← List.append_assoc] at he
      exact hpre pre d post (List.append_inj' he rfl).1

/-- While a free page is left for each call, the tables stay below 16 MiB. -/
theorem FrameInv.placement_le (h : FrameInv B 0 s []) (hfit : B + 5 * 4096 ≤ 2 ^ 24) {calls : List AllocCall}
    (hfree : FreeAtEachCall s calls) : (runCalls s calls).placementAddress.toNat ≤ 2 ^ 24 := by
  have hB : B ≤ 2 ^ 24 := by omega
  have hrun := h.run hB hfree
  have hplace := hrun.directory.placement
  have htables := hrun.tables
  have hal := hrun.directory.aligned
  rcases List.eq_nil_or_concat calls with rfl | ⟨pre, c, rfl⟩
  · rw [List.length_nil] at htables
    omega
  · rw [List.concat_eq_append] at *
    have hpre : FreeAtEachCall s pre := fun pre' d post he => hfree pre' d (post ++ [c]) (by rw [he]; simp)
    obtain ⟨p, hlt, hp⟩ := hfree pre c [] rfl
    have hge : ¬p < B / 4096 + 5 + pre.length := fun hlt => hp (((h.run hB hpre).marked p).mpr hlt)
    rw [List.length_append, List.length_singleton] at htables
    omega

theorem IdentityTables.frameInv (h : IdentityTables B 4 s) (hB : B % 4096 = 0)
    (hm : ∀ p, p ∈ members s.pageBitmap ↔ p * 4096 < s.placementAddress.toNat) : FrameInv B 0 s [] := by
  have hp := h.placement
  constructor
  · exact h.directoryInv hB
  · rw [h.presentDirs, Finset.card_range]
    omega
  · intro p
    rw [hm p, hp]
    omega
  · rfl

end

/-- The calls of a run after start-up return, as long as free pages remain, and do what their physical
accesses would do. -/
theorem execCalls_of_free {memHeap : U32} {s₀ s : Paging} (hfit : BootFits memHeap)
    (hboot : bootPaging memHeap s₀ = some s) {calls : List AllocCall}
    (haddr : ∀ c ∈ calls, 2 ^ 24 ≤ c.address.toNat) (hfree : FreeAtEachCall s calls) :
    execCalls s calls = some (runCalls s calls) := by
  obtain ⟨ht, hm, _⟩ := bootPaging_some hfit hboot
  have hroom := (ht.frameInv (pageCeil_mod _) hm).placement_le hfit hfree
  exact (execCalls_eq (bootPaging_kernelReached hfit hboot) hfit.le ht.identityMap haddr hroom).1

/-- In a run after start-up, exactly the calls that create a page table make the two allocators
collide; the first call always creates one, so only the empty run is free of collisions. -/
theorem runDisjoint_iff (memHeap : U32) (s₀ s : Paging) (hfit : BootFits memHeap)
    (hboot : bootPaging memHeap s₀ = some s) (calls : List AllocCall)
    (haddr : ∀ c ∈ calls, 2 ^ 24 ≤ c.address.toNat) (hfree : FreeAtEachCall s calls) :
    execCalls s calls = some (runCalls s calls) ∧ (∀ pre c post, calls = pre ++ c :: post →
      (CallDisjoint memHeap (runCalls s pre) (dataFrames s pre) c ↔
        Pte.present ((runCalls s pre).pde c.slot) = 1)) ∧
    (RunDisjoint memHeap s calls ↔ calls = []) := by
  obtain ⟨ht, hm, _⟩ := bootPaging_some hfit hboot
  have hB := hfit.le
  have hstart := ht.frameInv (pageCeil_mod _) hm
  have hcall : ∀ pre c post, calls = pre ++ c :: post →
      (CallDisjoint memHeap (runCalls s pre) (dataFrames s pre) c ↔ c.slot ∈ (runCalls s pre).presentDirs) := by
    intro pre c post he
    have hpre : FreeAtEachCall s pre := by
      intro pre' c' post' he'
      exact hfree pre' c' (post' ++ c :: post) (by rw [he, he']; simp)
    exact (hstart.run hB hpre).callDisjoint_iff c hB (le_pageCeil _) (hfree pre c post he)
  refine ⟨execCalls_of_free hfit hboot haddr hfree, ?_, ?_, ?_⟩
  · intro pre c post he
    rw [hcall pre c post he, Paging.mem_presentDirs]
    exact and_iff_right c.slot_lt
  · intro hrun
    cases calls with
    | nil => rfl
    | cons c calls =>
      have hold := (hcall [] c calls rfl).mp (hrun [] c calls rfl)
      have hmem : c.slot ∈ s.presentDirs := hold
      have ha := haddr c List.mem_cons_self
      rw [ht.presentDirs, Finset.mem_range, c.slot_eq] at hmem
      omega
  · rintro rfl pre c post he
    simp at he

/-- After start-up there is a free page for each of as many calls as there are pages left. -/
theorem freeAtEachCall_of_room {memHeap : U32} {s₀ s : Paging} {calls : List AllocCall}
    (hroom : pageCeil memHeap.toNat / 4096 + 5 + calls.length ≤ 4096) (hboot : bootPaging memHeap s₀ = some s) :
    FreeAtEachCall s calls := by
  have hB := pageCeil_mod memHeap.toNat
  have hfit : pageCeil memHeap.toNat + 5 * 4096 ≤ 2 ^ 24 := by omega
  obtain ⟨ht, hm, _⟩ := bootPaging_some hfit hboot
  exact (ht.frameInv hB hm).freeAtEachCall (by omega) hroom

/-- Three calls, of which the second reuses the table of the first. -/
theorem runDisjoint_iff_120000 :
    let calls : List AllocCall := [⟨0x1000000, 1, 1⟩, ⟨0x1001000, 0, 0⟩, ⟨0x1400000, 1, 0⟩]
    ∃ s, bootPaging 0x120000 Paging.blank = some s ∧ execCalls s calls = some (runCalls s calls) ∧
      (∀ pre c post, calls = pre ++ c :: post →
        (CallDisjoint 0x120000 (runCalls s pre) (dataFrames s pre) c ↔
          Pte.present ((runCalls s pre).pde c.slot) = 1)) ∧
      (RunDisjoint 0x120000 s calls ↔ calls = []) := by
  intro calls
  obtain ⟨s, hs, _⟩ := bootPaging_spec 0x120000 Paging.blank bootFits_120000
  have hroom : pageCeil (0x120000 : U32).toNat / 4096 + 5 + calls.length ≤ 4096 := by
    rw [pageCeil_120000]
    decide
  exact ⟨s, hs, runDisjoint_iff 0x120000 Paging.blank s bootFits_120000 hs calls (by simp [calls])
    (freeAtEachCall_of_room hroom hs)⟩

/-- The first mapping above 16 MiB collides: its table and its data frame are one frame. -/
theorem first_call_collides : ∃ s, bootPaging 0x120000 Paging.blank = some s ∧
    FreeAtEachCall s [⟨0x1000000, 1, 1⟩] ∧ ¬RunDisjoint 0x120000 s [⟨0x1000000, 1, 1⟩] := by
  obtain ⟨s, hs, ht, hm, _⟩ := bootPaging_spec 0x120000 Paging.blank bootFits_120000
  have hfree : FreeAtEachCall s [⟨0x1000000, 1, 1⟩] := by
    refine freeAtEachCall_of_room ?_ hs
    rw [pageCeil_120000]
    decide
  refine ⟨s, hs, hfree, ?_⟩
  intro hrun
  have hcall : CallDisjoint 0x120000 s [] ⟨0x1000000, 1, 1⟩ := hrun [] _ [] rfl
  have hold := ((ht.frameInv (pageCeil_mod _) hm).callDisjoint_iff ⟨0x1000000, 1, 1⟩
    bootFits_120000.le (le_pageCeil _) (hfree [] _ [] rfl)).mp hcall
  rw [ht.presentDirs, Finset.mem_range] at hold
  exact absurd hold (by decide)

end N7OS
