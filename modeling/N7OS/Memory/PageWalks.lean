import N7OS.Memory.DirectoryInvariant

/-! # Two-level walks across a call

One call of `alloc_page_entry` seen from the two-level walk: it sets the entry of
the requested page, and no walk of another page notices.
-/
namespace N7OS
open ByteMemory

namespace Paging

/-- The table entry of `v`, in the table that the directory entry of `v` points to. -/
def pte (s : Paging) (v : U32) : U32 :=
  load32 s.mem (s.tableAt (v.toNat / 4194304) + 4 * (v.toNat / 4096 % 1024))

theorem walk_eq (s : Paging) (v : U32) : walk s.mem s.kernelDirectory v =
    if Pte.present (s.pde (v.toNat / 4194304)) = 1 ∧ Pte.present (s.pte v) = 1 then
      some ⟨s.pde (v.toNat / 4194304), s.pte v⟩ else none := by
  simp only [walk, load_pdeAddr, pteAddr_eq]
  rfl

theorem walk_eq_none {s : Paging} {v : U32}
    (h : Pte.present (s.pde (v.toNat / 4194304)) = 0 ∨ Pte.present (s.pte v) = 0) :
    walk s.mem s.kernelDirectory v = none := by
  rw [walk_eq]
  apply if_neg
  rcases h with h | h <;> simp [h]

theorem walk_eq_some {s : Paging} {v : U32} {w : Walk} (h : walk s.mem s.kernelDirectory v = some w) :
    w = ⟨s.pde (v.toNat / 4194304), s.pte v⟩ ∧ Pte.present (s.pde (v.toNat / 4194304)) = 1 ∧
      Pte.present (s.pte v) = 1 := by
  rw [walk_eq] at h
  split at h
  · next hp => exact ⟨(Option.some.inj h).symm, hp⟩
  · cases h

/-- All the addresses of a page have one walk. -/
theorem walk_congr (s : Paging) {u v : U32} (h : u.toNat / 4096 = v.toNat / 4096) :
    walk s.mem s.kernelDirectory u = walk s.mem s.kernelDirectory v := by
  have hdir : u.toNat / 4194304 = v.toNat / 4194304 := by omega
  have hpte : s.pte u = s.pte v := by simp only [pte, h, hdir]
  rw [walk_eq, walk_eq, hdir, hpte]

theorem slot_lt (v : U32) : v.toNat / 4194304 < 1024 := by
  have hv := v.isLt
  omega

end Paging

section
variable {B : ℕ} {s : Paging} (c : AllocCall)

theorem absent_of_notMem {d : ℕ} (hd : d < 1024) (h : d ∉ s.presentDirs) : Pte.present (s.pde d) = 0 := by
  by_contra hne
  exact h (Paging.mem_presentDirs.mpr ⟨hd, present_ne_zero hne⟩)

theorem ensureTable_of_absent {d : ℕ} (hd : d < 1024) (h : d ∉ s.presentDirs) :
    ensureTable d s = createTable d s := if_pos (absent_of_notMem hd h)

theorem ensureTable_of_present {d : ℕ} (h : d ∈ s.presentDirs) : ensureTable d s = s := by
  apply if_neg
  simp [(Paging.mem_presentDirs.mp h).2]

theorem createTable_pde (d : ℕ) (s : Paging) : ∃ f, (createTable d s).pde d = Pte.make 1 0 f := by
  refine ⟨((kmallocA s.placementAddress (4 * 1024)).address >>> 12).setWidth 20, ?_⟩
  simp [Paging.pde, createTable, writeEntry_eq]

theorem AllocCall.run_pde_other (hs : DirectoryInv B s) (hB : B ≤ 2 ^ 24) {e : ℕ} (he : e < 1024)
    (hne : e ≠ c.slot) : (c.run s).pde e = s.pde e := by
  rw [c.run_pde hs hB e he]
  by_cases hslot : c.slot ∈ s.presentDirs
  · rw [ensureTable_of_present hslot]
  · obtain ⟨_, _, _, hother, _⟩ := createTable_spec hs hB c.slot_lt
    rw [ensureTable_of_absent c.slot_lt hslot]
    exact hother e he hne

/-- A table made by the call is empty but for the entry requested. -/
theorem AllocCall.run_load_new (hs : DirectoryInv B s) (hB : B ≤ 2 ^ 24) (hnew : c.slot ∉ s.presentDirs)
    {i : ℕ} (hi : i < 1024) (hne : i ≠ c.index) :
    load32 (c.run s).mem ((c.run s).tableAt c.slot + 4 * i) = 0 := by
  have hidx := c.index_lt
  have htable : (c.run s).tableAt c.slot = (ensureTable c.slot s).tableAt c.slot := by
    simp only [Paging.tableAt, c.run_pde hs hB _ c.slot_lt]
  obtain ⟨_, hat, _, _, _, hzero⟩ := createTable_spec hs hB c.slot_lt
  rw [htable, c.run_mem, load32_store32_of_disjoint _ (by omega), ensureTable_of_absent c.slot_lt hnew, hat]
  exact hzero i hi

theorem AllocCall.run_load_self (hs : DirectoryInv B s) (hB : B ≤ 2 ^ 24) :
    load32 (c.run s).mem ((c.run s).tableAt c.slot + 4 * c.index) = c.entry s := by
  have htable : (c.run s).tableAt c.slot = (ensureTable c.slot s).tableAt c.slot := by
    simp only [Paging.tableAt, c.run_pde hs hB _ c.slot_lt]
  rw [htable, c.run_mem, load32_store32_same]

/-- The walk of the requested page ends at the entry written by the call. -/
theorem AllocCall.run_walk_self (hs : DirectoryInv B s) (hB : B ≤ 2 ^ 24) {v : U32}
    (hv : v.toNat / 4096 = c.address.toNat / 4096) :
    walk (c.run s).mem (c.run s).kernelDirectory v = some ⟨(c.run s).pde c.slot, c.entry s⟩ := by
  have hslot : v.toNat / 4194304 = c.slot := by
    rw [c.slot_eq]
    omega
  have hpte : (c.run s).pte v = c.entry s := by
    rw [Paging.pte, hslot, hv]
    exact c.run_load_self hs hB
  have hpresent := (Paging.mem_presentDirs.mp (c.slot_mem_presentDirs hs hB)).2
  rw [Paging.walk_eq, hpte, hslot]
  apply if_pos
  simp [hpresent, AllocCall.entry]

/-- No walk of another page notices the call, mapped or not. -/
theorem AllocCall.run_walk_other (hs : DirectoryInv B s) (hB : B ≤ 2 ^ 24) {v : U32}
    (hv : v.toNat / 4096 ≠ c.address.toNat / 4096) :
    walk (c.run s).mem (c.run s).kernelDirectory v = walk s.mem s.kernelDirectory v := by
  have hd := Paging.slot_lt v
  have hi : v.toNat / 4096 % 1024 < 1024 := Nat.mod_lt _ (by decide)
  have hne : v.toNat / 4194304 ≠ c.slot ∨ v.toNat / 4096 % 1024 ≠ c.index := by
    rw [c.slot_eq, AllocCall.index]
    omega
  by_cases hold : v.toNat / 4194304 ∈ s.presentDirs
  · have hpte : (c.run s).pte v = s.pte v := by
      rw [Paging.pte, c.run_tableAt hs hB hold, c.run_load hs hB hold hi hne]
      rfl
    rw [Paging.walk_eq, Paging.walk_eq, c.run_pde_of_present hs hB hold, hpte]
  · have hbefore := absent_of_notMem hd hold
    rw [Paging.walk_eq_none (Or.inl hbefore)]
    by_cases hslot : v.toNat / 4194304 = c.slot
    · have hpte : (c.run s).pte v = 0 := by
        rw [Paging.pte, hslot]
        exact c.run_load_new hs hB (hslot ▸ hold) hi (hne.resolve_left (not_not_intro hslot))
      exact Paging.walk_eq_none (Or.inr (hpte ▸ Pte.present_zero))
    · exact Paging.walk_eq_none (Or.inl ((c.run_pde_other hs hB hd hslot).symm ▸ hbefore))

theorem AllocCall.run_cr3 : (c.run s).cr3 = s.cr3 := by
  simp only [AllocCall.run, allocPageEntryPhysical, ensureTable]
  split <;> rfl

theorem AllocCall.run_table (hs : DirectoryInv B s) (hB : B ≤ 2 ^ 24) :
    (allocPageEntryPhysical s c.address c.isWriteable c.isKernel).1 = Pte.target ((c.run s).pde c.slot) := by
  rw [c.run_pde hs hB _ c.slot_lt]
  rfl

theorem AllocCall.run_cr0 : (c.run s).cr0 = s.cr0 := by
  simp only [AllocCall.run, allocPageEntryPhysical, ensureTable]
  split <;> rfl

theorem AllocCall.run_placement_of_absent (hs : DirectoryInv B s) (hB : B ≤ 2 ^ 24)
    (h : Pte.present (s.pde c.slot) = 0) :
    (c.run s).placementAddress.toNat = s.placementAddress.toNat + 4096 := by
  change (ensureTable c.slot s).placementAddress.toNat = _
  rw [ensureTable, if_pos h, (createTable_spec hs hB c.slot_lt).1]

theorem AllocCall.run_placement_of_present (h : c.slot ∈ s.presentDirs) :
    (c.run s).placementAddress = s.placementAddress := by
  change (ensureTable c.slot s).placementAddress = _
  rw [ensureTable_of_present h]

/-- The watermark moves by one page or not at all. -/
theorem AllocCall.run_placement (hs : DirectoryInv B s) (hB : B ≤ 2 ^ 24) :
    s.placementAddress.toNat ≤ (c.run s).placementAddress.toNat ∧
      (c.run s).placementAddress.toNat ≤ s.placementAddress.toNat + 4096 := by
  by_cases hslot : c.slot ∈ s.presentDirs
  · rw [c.run_placement_of_present hslot]
    omega
  · rw [c.run_placement_of_absent hs hB (absent_of_notMem c.slot_lt hslot)]
    omega

theorem runCalls_placement_ge (hs : DirectoryInv B s) (hB : B ≤ 2 ^ 24) (calls : List AllocCall) :
    s.placementAddress.toNat ≤ (runCalls s calls).placementAddress.toNat := by
  induction calls generalizing s with
  | nil => exact le_rfl
  | cons c calls ih => exact (c.run_placement hs hB).1.trans (ih (c.run_inv hs hB))

end

end N7OS
