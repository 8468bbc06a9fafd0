import N7OS.Memory.BootPaging

/-! # The identity mapping of the first 16 MiB

The walk from the kernel directory after start-up, and the pages that the bitmap
keeps out of reach of every later search for a free page.
-/
namespace N7OS
open ByteMemory Bitmap

/-- The part of the start-up tables that maps each page below 16 MiB to itself. -/
structure IdentityMap (B : ℕ) (s : Paging) : Prop where
  directory : s.kernelDirectory.toNat = B
  linked : ∀ d < 4, ∃ f, s.pde d = Pte.make 1 0 f ∧ s.tableAt d = B + 4096 * (1 + d)
  entries : ∀ d < 4, ∀ i < 1024, load32 s.mem (B + 4096 * (1 + d) + 4 * i) = identityEntry d i

theorem IdentityTables.identityMap {B : ℕ} {s : Paging} (h : IdentityTables B 4 s) : IdentityMap B s :=
  ⟨h.directory, h.linked, h.entries⟩

theorem Paging.load_pdeAddr (s : Paging) (v : U32) :
    load32 s.mem (pdeAddr s.kernelDirectory v) = s.pde (v.toNat / 4194304) := by
  rw [pdeAddr_eq]
  rfl

/-- A kernel-only, writeable mapping of `v` to itself. -/
def IdentityWalk (s : Paging) (v : U32) : Prop :=
  ∃ w, walk s.mem s.kernelDirectory v = some w ∧ w.phys v = v ∧
    (Pte.present w.pde = 1 ∧ Pte.rw w.pde = 1 ∧ Pte.user w.pde = 0) ∧
    (Pte.present w.pte = 1 ∧ Pte.rw w.pte = 1 ∧ Pte.user w.pte = 0)

theorem IdentityMap.walk {B : ℕ} {s : Paging} (h : IdentityMap B s) {v : U32}
    (hv : v.toNat < 2 ^ 24) : IdentityWalk s v := by
  have hd : v.toNat / 4194304 < 4 := by omega
  have hi : v.toNat / 4096 % 1024 < 1024 := Nat.mod_lt _ (by omega)
  obtain ⟨f, hpde, htable⟩ := h.linked _ hd
  have hpte : load32 s.mem (pteAddr (Pte.target (s.pde (v.toNat / 4194304))) v) =
      identityEntry (v.toNat / 4194304) (v.toNat / 4096 % 1024) := by
    rw [pteAddr_eq]
    change load32 s.mem (s.tableAt _ + _) = _
    rw [htable, h.entries _ hd _ hi]
  refine ⟨⟨s.pde (v.toNat / 4194304), identityEntry (v.toNat / 4194304) (v.toNat / 4096 % 1024)⟩,
    ?_, ?_, ?_, ?_⟩
  · simp only [N7OS.walk, Paging.load_pdeAddr, hpte]
    rw [if_pos ⟨by rw [hpde, Pte.present_make], by rw [identityEntry, Pte.present_make]⟩]
  · apply BitVec.eq_of_toNat_eq
    have hpage := toNat_frame_identityEntry hd hi
    have hlow := toNat_and_low12 v
    have htarget := Pte.toNat_target (identityEntry (v.toNat / 4194304) (v.toNat / 4096 % 1024))
    have hsum : (Pte.target (identityEntry (v.toNat / 4194304) (v.toNat / 4096 % 1024))).toNat +
        (v &&& 0xFFF#32).toNat = v.toNat := by
      rw [htarget, hlow, hpage]
      omega
    exact (toNat_add_of_lt (by rw [hsum]; omega)).trans hsum
  · rw [hpde]
    exact ⟨Pte.present_make _ _ _, Pte.rw_make _ _ _, Pte.user_make _ _ _⟩
  · exact ⟨Pte.present_make _ _ _, Pte.rw_make _ _ _, Pte.user_make _ _ _⟩

theorem walk_eq_none_of_absent {s : Paging} {v : U32} (h : s.pde (v.toNat / 4194304) = 0) :
    walk s.mem s.kernelDirectory v = none := by
  simp [walk, Paging.load_pdeAddr, h]

/-- The operations that may follow start-up without giving a page back. -/
inductive PageOp
  | setPage (addr : U32)
  | findfreePage
  | allocPageEntry (address : U32) (isWriteable isKernel : ℤ)

def PageOp.run (s : Paging) : PageOp → Option Paging
  | .setPage addr => (N7OS.setPage s.pageBitmap addr).map (fun bitmap => { s with pageBitmap := bitmap })
  | .findfreePage => some { s with pageBitmap := (N7OS.findfreePage s.pageBitmap).2 }
  | .allocPageEntry address isWriteable isKernel =>
    (N7OS.allocPageEntry s address isWriteable isKernel).map Prod.snd

@[simp] theorem ensureTable_pageBitmap (d : ℕ) (s : Paging) :
    (ensureTable d s).pageBitmap = s.pageBitmap := by
  unfold ensureTable
  split <;> rfl

@[simp] theorem ensureTable_kernelDirectory (d : ℕ) (s : Paging) :
    (ensureTable d s).kernelDirectory = s.kernelDirectory := by
  unfold ensureTable
  split <;> rfl

@[simp] theorem allocPageEntryPhysical_pageBitmap (s : Paging) (address : U32) (w k : ℤ) :
    (allocPageEntryPhysical s address w k).2.pageBitmap = (findfreePage s.pageBitmap).2 := by
  simp only [allocPageEntryPhysical, ensureTable_pageBitmap]

theorem PageOp.run_members {op : PageOp} {s t : Paging} (h : op.run s = some t) :
    members s.pageBitmap ⊆ members t.pageBitmap := by
  cases op with
  | setPage addr =>
    simp only [PageOp.run, N7OS.setPage] at h
    split at h
    · rename_i hp
      cases h
      exact (members_insert s.pageBitmap hp) ▸ Set.subset_insert _ _
    · cases h
  | findfreePage =>
    cases h
    exact members_subset_findfreePage _
  | allocPageEntry address w k =>
    obtain ⟨⟨table, t'⟩, ht, rfl⟩ := Option.map_eq_some_iff.mp h
    obtain ⟨_, _, rfl⟩ := allocPageEntry_frame ht
    exact members_subset_findfreePage _

/-- Pages marked once stay marked over any sequence of operations. -/
theorem PageOp.runs_members {ops : List PageOp} {s t : Paging} (h : ops.foldlM PageOp.run s = some t) :
    members s.pageBitmap ⊆ members t.pageBitmap := by
  induction ops generalizing s with
  | nil =>
    cases h
    exact subset_rfl
  | cons op ops ih =>
    rw [List.foldlM_cons] at h
    obtain ⟨u, hu, ht⟩ := Option.bind_eq_some_iff.mp h
    exact (run_members hu).trans (ih ht)

/-- The page directory and the four identity tables. -/
def bootPages (s : Paging) : List ℕ := s.kernelDirectory.toNat :: (List.range 4).map s.tableAt

/-- The memory map that start-up is meant to establish. A search that fails
answers `0`, which is no page. -/
structure IdentityBoot (memHeap : U32) (s : Paging) : Prop where
  identity : ∀ v : U32, v.toNat < 2 ^ 24 → IdentityWalk s v
  unmapped : ∀ v : U32, 2 ^ 24 ≤ v.toNat → walk s.mem s.kernelDirectory v = none
  aligned : ∀ a ∈ bootPages s, a % 4096 = 0
  disjoint : (bootPages s).Pairwise (fun a b => a + 4096 ≤ b ∨ b + 4096 ≤ a)
  located : ∀ a ∈ bootPages s, memHeap.toNat ≤ a ∧ a + 4096 ≤ s.placementAddress.toNat
  marked : ∀ p, p ∈ members s.pageBitmap ↔ p * 4096 < s.placementAddress.toNat
  reserved : ∀ (ops : List PageOp) (t : Paging), ops.foldlM PageOp.run s = some t → HasFree t.pageBitmap →
    s.placementAddress.toNat ≤ (findfreePage t.pageBitmap).1.toNat

theorem IdentityTables.bootPages {B : ℕ} {s : Paging} (h : IdentityTables B 4 s) :
    bootPages s = (List.range 5).map (fun k => B + 4096 * k) := by
  have htable : ∀ d < 4, s.tableAt d = B + 4096 * (1 + d) := by
    intro d hd
    obtain ⟨_, _, ht⟩ := h.linked d hd
    exact ht
  simp [N7OS.bootPages, h.directory, List.range_succ, htable]

/-- No page below the start-up watermark is ever handed out again. -/
theorem findfreePage_ge_of_marked {s t : Paging} {ops : List PageOp}
    (hmark : ∀ p, p * 4096 < s.placementAddress.toNat → p ∈ members s.pageBitmap)
    (hrun : ops.foldlM PageOp.run s = some t) (hfree : HasFree t.pageBitmap) :
    s.placementAddress.toNat ≤ (findfreePage t.pageBitmap).1.toNat := by
  rcases findfreePage_spec t.pageBitmap with ⟨p, _, hp, _, hr, _⟩ | ⟨hn, _⟩
  · rw [hr]
    by_contra hlt
    exact hp (PageOp.runs_members hrun (hmark p (by omega)))
  · exact absurd hfree hn

theorem bootPaging_identityBoot (memHeap : U32) (s₀ : Paging) (hfit : BootFits memHeap) :
    ∃ s, bootPaging memHeap s₀ = some s ∧ IdentityBoot memHeap s := by
  obtain ⟨s, hs, ht, hm, _⟩ := bootPaging_spec memHeap s₀ hfit
  have hB := pageCeil_mod memHeap.toNat
  have hle := le_pageCeil memHeap.toNat
  have hp := ht.placement
  refine ⟨s, hs, ?_⟩
  constructor
  · exact fun v hv => ht.identityMap.walk hv
  · exact fun v hv => walk_eq_none_of_absent (ht.absent _ (by omega) (by omega))
  · rw [ht.bootPages]
    intro a ha
    obtain ⟨k, _, rfl⟩ := List.mem_map.mp ha
    omega
  · rw [ht.bootPages]
    refine List.Pairwise.map _ (R := fun a b => a < b) ?_ List.pairwise_lt_range
    intro a b hab
    omega
  · rw [ht.bootPages]
    intro a ha
    obtain ⟨k, hk, rfl⟩ := List.mem_map.mp ha
    have hk' := List.mem_range.mp hk
    omega
  · exact hm
  · exact fun ops t hrun hfree => findfreePage_ge_of_marked (fun p hp => (hm p).mpr hp) hrun hfree

/-- A heap that starts 128 KiB into the second megabyte. -/
theorem bootPaging_identityBoot_120000 :
    BootFits 0x120000 ∧ ∃ s, bootPaging 0x120000 Paging.blank = some s ∧ IdentityBoot 0x120000 s := by
  exact ⟨bootFits_120000, bootPaging_identityBoot 0x120000 Paging.blank bootFits_120000⟩

end N7OS
