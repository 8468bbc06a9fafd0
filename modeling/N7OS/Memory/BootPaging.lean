import N7OS.Memory.Paging

/-! # The memory map after start-up

What `init_kheap`, `init_mem` and `initialise_paging` leave behind, whatever the
previous contents of memory: five consecutive pages from the first page boundary
of the heap, an identity mapping of 16 MiB, and a bitmap of the pages in use.
-/
namespace N7OS
open ByteMemory Execution Bitmap

/-- The page directory and the four identity tables fit below 16 MiB. -/
def BootFits (memHeap : U32) : Prop := pageCeil memHeap.toNat + 5 * 4096 ≤ 2 ^ 24

/-- The entry that maps page `dir * 1024 + i` to itself. -/
def identityEntry (dir i : ℕ) : U32 :=
  Pte.make 1 0 ((BitVec.ofNat 32 ((dir * 1024 + i) * 4096) >>> 12).setWidth 20)

theorem toNat_frame_identityEntry {dir i : ℕ} (hd : dir < 4) (hi : i < 1024) :
    (Pte.frameAddr (identityEntry dir i)).toNat = dir * 1024 + i := by
  rw [identityEntry, Pte.frameAddr_make, toNat_frame, toNat_ofNat_of_lt (by omega)]
  omega

theorem fillIdentity_eq (m : Memory) (table : U32) (dir : ℕ) :
    fillIdentity m table dir = storeWords m table.toNat 1024 (identityEntry dir) := by
  simp only [fillIdentity, writeEntry_eq]
  rfl

namespace Paging

/-- The physical address of the table that directory entry `d` points to. -/
def tableAt (s : Paging) (d : ℕ) : ℕ := (Pte.target (s.pde d)).toNat

end Paging

/-- The state of paging after `k` rounds of the outer loop, with the directory at `B`. -/
structure IdentityTables (B k : ℕ) (s : Paging) : Prop where
  directory : s.kernelDirectory.toNat = B
  placement : s.placementAddress.toNat = B + 4096 * (1 + k)
  linked : ∀ d < k, ∃ f, s.pde d = Pte.make 1 0 f ∧ s.tableAt d = B + 4096 * (1 + d)
  absent : ∀ d < 1024, k ≤ d → s.pde d = 0
  entries : ∀ d < k, ∀ i < 1024, load32 s.mem (B + 4096 * (1 + d) + 4 * i) = identityEntry d i

section Rounds
variable {B k : ℕ} {s : Paging}

@[simp] theorem identityTable_kernelDirectory (dir : ℕ) (s : Paging) :
    (identityTable dir s).kernelDirectory = s.kernelDirectory := rfl

@[simp] theorem identityTable_pageBitmap (dir : ℕ) (s : Paging) :
    (identityTable dir s).pageBitmap = s.pageBitmap := rfl

/-- The next table starts where the previous one ended, on a page boundary. -/
theorem IdentityTables.kmallocA (h : IdentityTables B k s) (hB : B % 4096 = 0) (hk : k < 4)
    (hfit : B + 5 * 4096 ≤ 2 ^ 24) :
    (kmallocA s.placementAddress (4 * 1024)).address.toNat = B + 4096 * (1 + k) ∧
      (kmallocA s.placementAddress (4 * 1024)).placementAddress.toNat = B + 4096 * (1 + (k + 1)) := by
  have hp := h.placement
  have hceil : pageCeil s.placementAddress.toNat = B + 4096 * (1 + k) := by
    rw [hp]
    exact pageCeil_of_aligned (by omega)
  have hsz : (4 * 1024 : U32).toNat = 4096 := by decide
  obtain ⟨ha, hp'⟩ := kmallocA_spec (p := s.placementAddress) (s := 4 * 1024) (by omega)
  exact ⟨ha.trans hceil, by rw [hp']; omega⟩

/-- One round adds table `k`: only its own page and its directory word change. -/
theorem identityTable_step (h : IdentityTables B k s) (hB : B % 4096 = 0) (hk : k < 4)
    (hfit : B + 5 * 4096 ≤ 2 ^ 24) : IdentityTables B (k + 1) (identityTable k s) := by
  obtain ⟨ha, hp⟩ := h.kmallocA hB hk hfit
  have hdir := h.directory
  let table := (N7OS.kmallocA s.placementAddress (4 * 1024)).address
  have hmem : (identityTable k s).mem = store32 (storeWords s.mem table.toNat 1024 (identityEntry k))
      (B + 4 * k) (Pte.make 1 0 ((table >>> 12).setWidth 20)) := by
    simp only [identityTable, writeEntry_eq, fillIdentity_eq, hdir, table]
  have htable : table.toNat = B + 4096 * (1 + k) := ha
  have hpde : ∀ d < 1024, (identityTable k s).pde d =
      if d = k then Pte.make 1 0 ((table >>> 12).setWidth 20) else s.pde d := by
    intro d hd
    simp only [Paging.pde, identityTable_kernelDirectory, hmem, hdir]
    by_cases hdk : d = k
    · rw [if_pos hdk, hdk, load32_store32_same]
    · rw [if_neg hdk, load32_store32_of_disjoint _ (by omega),
        load32_storeWords_of_disjoint _ (by omega)]
  constructor
  · exact hdir
  · exact hp
  · intro d hd
    by_cases hdk : d = k
    · subst hdk
      have he := hpde d (by omega)
      rw [if_pos rfl] at he
      refine ⟨_, he, ?_⟩
      rw [Paging.tableAt, he, Pte.toNat_target_make _ _ (by omega), htable]
    · obtain ⟨f, hf, ht⟩ := h.linked d (by omega)
      have he := hpde d (by omega)
      rw [if_neg hdk] at he
      exact ⟨f, he.trans hf, by rw [Paging.tableAt, he]; exact ht⟩
  · intro d hd hkd
    rw [hpde d hd, if_neg (by omega)]
    exact h.absent d hd (by omega)
  · intro d hd i hi
    rw [hmem, load32_store32_of_disjoint _ (by omega)]
    by_cases hdk : d = k
    · subst hdk
      rw [← htable]
      exact load32_storeWords _ hi
    · rw [load32_storeWords_of_disjoint _ (by omega)]
      exact h.entries d (by omega) i hi

end Rounds

/-- The marking loop sets exactly the bits of the pages from `addr` up to `placementAddress`. -/
theorem markUsed_spec {placement : U32} (hp : placement.toNat ≤ 2 ^ 24) (bitmap : PageBitmap)
    (addr : U32) (ha : addr.toNat % 4096 = 0) :
    ∃ bitmap', markUsed bitmap placement addr = some bitmap' ∧
      ∀ p, p ∈ members bitmap' ↔
        p ∈ members bitmap ∨ (addr.toNat / 4096 ≤ p ∧ p * 4096 < placement.toNat) := by
  induction hn : 2 ^ 25 - addr.toNat using Nat.strong_induction_on generalizing bitmap addr with
  | _ n ih =>
    rw [markUsed]
    by_cases hlt : addr < placement
    · have hlt' : addr.toNat < placement.toNat := hlt
      have h24 : addr.toNat < 2 ^ 24 := by omega
      have hnext : (addr + 0x1000).toNat = addr.toNat + 4096 := toNat_add_of_lt (by
        simp only [BitVec.reduceToNat]
        omega)
      obtain ⟨bitmap', he, hm⟩ := ih _ (by omega) (insert bitmap (addr.toNat / 4096))
        (addr + 0x1000) (by omega) rfl
      refine ⟨bitmap', ?_, ?_⟩
      · rw [if_pos hlt, dif_pos h24, setPage_of_lt h24]
        exact he
      · intro p
        rw [hm, members_insert bitmap (by omega), hnext]
        change (p = addr.toNat / 4096 ∨ p ∈ members bitmap) ∨ _ ↔ _
        constructor
        · rintro ((h | h) | h)
          · exact Or.inr (by omega)
          · exact Or.inl h
          · exact Or.inr (by omega)
        · rintro (h | h)
          · exact Or.inl (Or.inr h)
          · by_cases hpa : p = addr.toNat / 4096
            · exact Or.inl (Or.inl hpa)
            · exact Or.inr (by omega)
    · have hge : placement.toNat ≤ addr.toNat := Nat.le_of_not_lt hlt
      refine ⟨bitmap, if_neg hlt, ?_⟩
      intro p
      constructor
      · exact Or.inl
      · rintro (h | h)
        · exact h
        · omega

/-- Everything the later proofs need to know about the state after start-up. -/
theorem bootPaging_spec (memHeap : U32) (s₀ : Paging) (hfit : BootFits memHeap) :
    ∃ s, bootPaging memHeap s₀ = some s ∧ IdentityTables (pageCeil memHeap.toNat) 4 s ∧
      (∀ p, p ∈ members s.pageBitmap ↔ p * 4096 < s.placementAddress.toNat) ∧
      s.cr3 = s.kernelDirectory := by
  have hfit' : pageCeil memHeap.toNat + 5 * 4096 ≤ 2 ^ 24 := hfit
  have hB := pageCeil_mod memHeap.toNat
  have hsz : (4 * 1024 : U32).toNat = 4096 := by decide
  obtain ⟨ha, hp⟩ := kmallocA_spec (p := memHeap) (s := 4 * 1024) (by omega)
  let directory := kmallocA memHeap (4 * 1024)
  let start : Paging := { s₀ with
    kernelDirectory := directory.address
    placementAddress := directory.placementAddress
    pageBitmap := initMem s₀.pageBitmap
    mem := storeWords s₀.mem directory.address.toNat 1024 (fun _ => 0) }
  have hstart : IdentityTables (pageCeil memHeap.toNat) 0 start := by
    constructor
    · exact ha
    · exact hp.trans (by omega)
    · intro d hd
      omega
    · intro d hd _
      exact load32_storeWords _ hd
    · intro d hd
      omega
  let tables := countedLoop 4 identityTable start
  have htables : IdentityTables (pageCeil memHeap.toNat) 4 tables ∧
      tables.pageBitmap = initMem s₀.pageBitmap := by
    refine countedLoop_invariant (fun k s => IdentityTables (pageCeil memHeap.toNat) k s ∧
      s.pageBitmap = initMem s₀.pageBitmap) ⟨hstart, rfl⟩ ?_
    rintro k s hk ⟨hs, hb⟩
    exact ⟨identityTable_step hs hB hk hfit', hb⟩
  have hplace : tables.placementAddress.toNat ≤ 2 ^ 24 := by
    rw [htables.1.placement]
    omega
  obtain ⟨bitmap, hmark, hmem⟩ := markUsed_spec hplace tables.pageBitmap 0 (by decide)
  refine ⟨{ tables with
    pageBitmap := bitmap
    cr3 := tables.kernelDirectory
    cr0 := tables.cr0 ||| 0x80000000 }, ?_, ⟨htables.1.directory, htables.1.placement, htables.1.linked,
      htables.1.absent, htables.1.entries⟩, ?_, rfl⟩
  · simp only [bootPaging, initKheap, initialisePaging]
    change Option.map _ (markUsed tables.pageBitmap tables.placementAddress 0) = _
    rw [hmark]
    rfl
  · intro p
    rw [hmem, htables.2, initMem, members_empty]
    simp

theorem bootPaging_some {memHeap : U32} {s₀ s : Paging} (hfit : BootFits memHeap)
    (hboot : bootPaging memHeap s₀ = some s) : IdentityTables (pageCeil memHeap.toNat) 4 s ∧
      (∀ p, p ∈ members s.pageBitmap ↔ p * 4096 < s.placementAddress.toNat) ∧ s.cr3 = s.kernelDirectory := by
  obtain ⟨s', hs', hspec⟩ := bootPaging_spec memHeap s₀ hfit
  obtain rfl : s' = s := Option.some.inj (hs'.symm.trans hboot)
  exact hspec

theorem BootFits.le {memHeap : U32} (h : BootFits memHeap) : pageCeil memHeap.toNat ≤ 2 ^ 24 :=
  Nat.le_of_add_right_le h

theorem pageCeil_120000 : pageCeil (0x120000 : U32).toNat = 0x120000 := by
  unfold pageCeil
  decide

theorem bootFits_120000 : BootFits 0x120000 := by
  rw [BootFits, pageCeil_120000]
  decide

end N7OS
