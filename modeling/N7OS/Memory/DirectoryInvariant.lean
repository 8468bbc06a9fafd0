import Mathlib.Data.Finset.Card
import N7OS.Memory.IdentityMap

/-! # The representation invariant of the page structures

The directory and all its tables form one run of consecutive pages that starts
at the directory and ends at `placement_address`; each call of
`alloc_page_entry` either reuses a table or appends one to the run.
-/
namespace N7OS
open ByteMemory

namespace Paging

@[irreducible] def presentDirs (s : Paging) : Finset ℕ := (Finset.range 1024).filter (fun d => Pte.present (s.pde d) = 1)

theorem mem_presentDirs {s : Paging} {d : ℕ} : d ∈ s.presentDirs ↔ d < 1024 ∧ Pte.present (s.pde d) = 1 := by
  rw [presentDirs, Finset.mem_filter, Finset.mem_range]

theorem card_presentDirs_le (s : Paging) : s.presentDirs.card ≤ 1024 := by
  rw [presentDirs]
  have h := Finset.card_filter_le (Finset.range 1024) (fun d => Pte.present (s.pde d) = 1)
  rw [Finset.card_range] at h
  exact h

end Paging

structure DirectoryInv (B : ℕ) (s : Paging) : Prop where
  directory : s.kernelDirectory.toNat = B
  aligned : B % 4096 = 0
  placement : s.placementAddress.toNat = B + 4096 * (1 + s.presentDirs.card)
  table : ∀ d ∈ s.presentDirs, s.tableAt d % 4096 = 0 ∧ B + 4096 ≤ s.tableAt d ∧
    s.tableAt d + 4096 ≤ s.placementAddress.toNat
  distinct : ∀ d ∈ s.presentDirs, ∀ e ∈ s.presentDirs, s.tableAt d = s.tableAt e → d = e

section
variable {B d : ℕ} {s t : Paging}

theorem present_ne_zero {v : U32} (h : Pte.present v ≠ 0) : Pte.present v = 1 := by
  have hv := (Pte.present v).isLt
  apply BitVec.eq_of_toNat_eq
  have h0 : (Pte.present v).toNat ≠ 0 := fun hz => h (BitVec.eq_of_toNat_eq hz)
  have h1 : (1 : BitVec 1).toNat = 1 := rfl
  omega

theorem presentDirs_congr (h : ∀ e < 1024, t.pde e = s.pde e) : t.presentDirs = s.presentDirs := by
  ext e
  rw [Paging.mem_presentDirs, Paging.mem_presentDirs]
  constructor
  · rintro ⟨he, hp⟩
    exact ⟨he, h e he ▸ hp⟩
  · rintro ⟨he, hp⟩
    exact ⟨he, (h e he).symm ▸ hp⟩

/-- The invariant only looks at the directory words and the two pointers. -/
theorem DirectoryInv.congr (hs : DirectoryInv B s) (hdir : t.kernelDirectory = s.kernelDirectory)
    (hplace : t.placementAddress = s.placementAddress) (hpde : ∀ e < 1024, t.pde e = s.pde e) :
    DirectoryInv B t := by
  have hpresent := presentDirs_congr hpde
  have htable : ∀ e ∈ s.presentDirs, t.tableAt e = s.tableAt e := by
    intro e he
    rw [Paging.tableAt, hpde e (Paging.mem_presentDirs.mp he).1]
    rfl
  constructor
  · rw [hdir]
    exact hs.directory
  · exact hs.aligned
  · rw [hplace, hpresent]
    exact hs.placement
  · rw [hpresent, hplace]
    intro e he
    rw [htable e he]
    exact hs.table e he
  · rw [hpresent]
    intro e he e' he'
    rw [htable e he, htable e' he']
    exact hs.distinct e he e' he'

/-- A store above the directory page leaves every directory word alone. -/
theorem pde_of_store (hdir : s.kernelDirectory.toNat = B) {a : ℕ} (v : U32) (ha : B + 4096 ≤ a)
    (hmem : t.mem = store32 s.mem a v) (ht : t.kernelDirectory = s.kernelDirectory) :
    ∀ e < 1024, t.pde e = s.pde e := by
  intro e he
  simp only [Paging.pde, hmem, ht, hdir]
  exact load32_store32_of_disjoint v (by omega)

/-- A missing table is placed at the watermark and linked; nothing else changes in the directory. -/
theorem createTable_spec (hs : DirectoryInv B s) (hB : B ≤ 2 ^ 24) (hd : d < 1024) :
    (createTable d s).placementAddress.toNat = s.placementAddress.toNat + 4096 ∧
    (createTable d s).tableAt d = s.placementAddress.toNat ∧
    Pte.present ((createTable d s).pde d) = 1 ∧
    (∀ e < 1024, e ≠ d → (createTable d s).pde e = s.pde e) ∧
    (∀ x, x < s.placementAddress.toNat → (x < B + 4 * d ∨ B + 4 * d + 4 ≤ x) →
      (createTable d s).mem x = s.mem x) ∧
    (∀ i < 1024, load32 (createTable d s).mem (s.placementAddress.toNat + 4 * i) = 0) := by
  have hp := hs.placement
  have hal := hs.aligned
  have hdir := hs.directory
  have hcard := s.card_presentDirs_le
  have hceil : pageCeil s.placementAddress.toNat = s.placementAddress.toNat :=
    pageCeil_of_aligned (by omega)
  have hsz : (4 * 1024 : U32).toNat = 4096 := by decide
  obtain ⟨ha, hp'⟩ := kmallocA_spec (p := s.placementAddress) (s := 4 * 1024) (by omega)
  rw [hceil] at ha hp'
  let table := (kmallocA s.placementAddress (4 * 1024)).address
  have htable : table.toNat = s.placementAddress.toNat := ha
  have hmem : (createTable d s).mem = store32 (storeWords s.mem table.toNat 1024 (fun _ => 0))
      (B + 4 * d) (Pte.make 1 0 ((table >>> 12).setWidth 20)) := by
    simp only [createTable, writeEntry_eq, hdir, table]
  have hpde : ∀ e < 1024, (createTable d s).pde e =
      if e = d then Pte.make 1 0 ((table >>> 12).setWidth 20) else s.pde e := by
    intro e he
    change load32 (createTable d s).mem (s.kernelDirectory.toNat + 4 * e) = _
    rw [hmem, hdir]
    by_cases hed : e = d
    · rw [if_pos hed, hed, load32_store32_same]
    · rw [if_neg hed, load32_store32_of_disjoint _ (by omega),
        load32_storeWords_of_disjoint _ (by omega), ← hdir]
      rfl
  have hself := hpde d hd
  rw [if_pos rfl] at hself
  refine ⟨hp', ?_, ?_, ?_, ?_, ?_⟩
  · rw [Paging.tableAt, hself, Pte.toNat_target_make _ _ (by omega), htable]
  · rw [hself, Pte.present_make]
  · intro e he hed
    rw [hpde e he, if_neg hed]
  · intro x hx hout
    rw [hmem, store32_of_outside _ hout, storeWords_of_outside _ (by omega)]
  · intro i hi
    rw [hmem, load32_store32_of_disjoint _ (by omega), ← htable]
    exact load32_storeWords _ hi

theorem presentDirs_createTable (hs : DirectoryInv B s) (hB : B ≤ 2 ^ 24) (hd : d < 1024) :
    (createTable d s).presentDirs = insert d s.presentDirs := by
  obtain ⟨_, _, hpres, hother, _⟩ := createTable_spec hs hB hd
  ext e
  rw [Finset.mem_insert, Paging.mem_presentDirs, Paging.mem_presentDirs]
  by_cases hed : e = d
  · subst hed
    exact ⟨fun _ => Or.inl rfl, fun _ => ⟨hd, hpres⟩⟩
  · constructor
    · rintro ⟨he, hp⟩
      exact Or.inr ⟨he, hother e he hed ▸ hp⟩
    · rintro (he | ⟨he, hp⟩)
      · exact absurd he hed
      · exact ⟨he, (hother e he hed).symm ▸ hp⟩

theorem createTable_inv (hs : DirectoryInv B s) (hB : B ≤ 2 ^ 24) (hd : d < 1024)
    (habsent : d ∉ s.presentDirs) : DirectoryInv B (createTable d s) := by
  obtain ⟨hplace, htable, _, hother, _⟩ := createTable_spec hs hB hd
  have hpresent := presentDirs_createTable hs hB hd
  have hp := hs.placement
  have hold : ∀ e ∈ s.presentDirs, e ≠ d ∧ (createTable d s).tableAt e = s.tableAt e := by
    intro e he
    have hed : e ≠ d := fun h => habsent (h ▸ he)
    refine ⟨hed, ?_⟩
    rw [Paging.tableAt, hother e (Paging.mem_presentDirs.mp he).1 hed]
    rfl
  constructor
  · exact hs.directory
  · exact hs.aligned
  · rw [hpresent, Finset.card_insert_of_notMem habsent, hplace, hp]
    omega
  · rw [hpresent, hplace]
    intro e he
    rcases Finset.mem_insert.mp he with rfl | he
    · have hal := hs.aligned
      rw [htable]
      omega
    · obtain ⟨h1, h2, h3⟩ := hs.table e he
      rw [(hold e he).2]
      omega
  · rw [hpresent]
    intro e he e' he' heq
    rcases Finset.mem_insert.mp he with hed | hes <;> rcases Finset.mem_insert.mp he' with hed' | hes'
    · exact hed.trans hed'.symm
    · have hlt := (hs.table e' hes').2.2
      rw [hed, htable, (hold e' hes').2] at heq
      omega
    · have hlt := (hs.table e hes).2.2
      rw [hed', htable, (hold e hes).2] at heq
      omega
    · rw [(hold e hes).2, (hold e' hes').2] at heq
      exact hs.distinct e hes e' hes' heq

/-- After `ensureTable` the slot is present; a slot that was present keeps its word. -/
theorem ensureTable_inv (hs : DirectoryInv B s) (hB : B ≤ 2 ^ 24) (hd : d < 1024) :
    DirectoryInv B (ensureTable d s) ∧ d ∈ (ensureTable d s).presentDirs ∧
      ∀ e ∈ s.presentDirs, (ensureTable d s).pde e = s.pde e := by
  unfold ensureTable
  by_cases h0 : Pte.present (s.pde d) = 0
  · have habsent : d ∉ s.presentDirs := by
      intro hm
      have h1 := (Paging.mem_presentDirs.mp hm).2
      rw [h0] at h1
      exact absurd h1 (by decide)
    obtain ⟨_, _, hpres, hother, _⟩ := createTable_spec hs hB hd
    rw [if_pos h0]
    refine ⟨createTable_inv hs hB hd habsent, Paging.mem_presentDirs.mpr ⟨hd, hpres⟩, ?_⟩
    intro e he
    exact hother e (Paging.mem_presentDirs.mp he).1 (fun h => habsent (h ▸ he))
  · rw [if_neg h0]
    exact ⟨hs, Paging.mem_presentDirs.mpr ⟨hd, present_ne_zero h0⟩, fun _ _ => rfl⟩

end

theorem AllocCall.slot_eq (c : AllocCall) : c.slot = c.address.toNat / 4194304 := toNat_dirIdx _

theorem AllocCall.slot_lt (c : AllocCall) : c.slot < 1024 := by
  have h := c.address.isLt
  rw [c.slot_eq]
  omega

/-- The index of the entry in its table. -/
def AllocCall.index (c : AllocCall) : ℕ := c.address.toNat / 4096 % 1024

theorem AllocCall.index_lt (c : AllocCall) : c.index < 1024 := Nat.mod_lt _ (by omega)

/-- The entry that a call writes into its table. -/
def AllocCall.entry (c : AllocCall) (s : Paging) : U32 :=
  Pte.make (if c.isWriteable ≠ 0 then 1 else 0) (if c.isKernel ≠ 0 then 0 else 1)
    (((findfreePage s.pageBitmap).1 >>> 12).setWidth 20)

section
variable {B : ℕ} {s : Paging} (c : AllocCall)

/-- A call makes sure of its table and stores one entry in it. -/
theorem AllocCall.run_mem : (c.run s).mem =
    store32 (ensureTable c.slot s).mem ((ensureTable c.slot s).tableAt c.slot + 4 * c.index) (c.entry s) := by
  simp only [AllocCall.run, allocPageEntryPhysical, writeEntry_eq, ensureTable_pageBitmap, toNat_tabIdx]
  rfl

theorem AllocCall.run_kernelDirectory : (c.run s).kernelDirectory = s.kernelDirectory :=
  ensureTable_kernelDirectory _ _

theorem AllocCall.run_pageBitmap : (c.run s).pageBitmap = (findfreePage s.pageBitmap).2 :=
  allocPageEntryPhysical_pageBitmap _ _ _ _

/-- The entry store is inside a table, so the directory is the one left by `ensureTable`. -/
theorem AllocCall.run_pde (hs : DirectoryInv B s) (hB : B ≤ 2 ^ 24) :
    ∀ e < 1024, (c.run s).pde e = (ensureTable c.slot s).pde e := by
  obtain ⟨hinv, hmem, _⟩ := ensureTable_inv hs hB c.slot_lt
  have htable := (hinv.table _ hmem).2.1
  exact pde_of_store hinv.directory (c.entry s) (by omega) c.run_mem rfl

theorem AllocCall.run_inv (hs : DirectoryInv B s) (hB : B ≤ 2 ^ 24) : DirectoryInv B (c.run s) :=
  (ensureTable_inv hs hB c.slot_lt).1.congr rfl rfl (c.run_pde hs hB)

theorem AllocCall.run_pde_of_present (hs : DirectoryInv B s) (hB : B ≤ 2 ^ 24) {e : ℕ}
    (he : e ∈ s.presentDirs) : (c.run s).pde e = s.pde e :=
  (c.run_pde hs hB e (Paging.mem_presentDirs.mp he).1).trans ((ensureTable_inv hs hB c.slot_lt).2.2 e he)

theorem AllocCall.presentDirs_subset (hs : DirectoryInv B s) (hB : B ≤ 2 ^ 24) :
    s.presentDirs ⊆ (c.run s).presentDirs := by
  intro e he
  have h := Paging.mem_presentDirs.mp he
  exact Paging.mem_presentDirs.mpr ⟨h.1, (c.run_pde_of_present hs hB he).symm ▸ h.2⟩

theorem AllocCall.slot_mem_presentDirs (hs : DirectoryInv B s) (hB : B ≤ 2 ^ 24) :
    c.slot ∈ (c.run s).presentDirs := by
  rw [presentDirs_congr (c.run_pde hs hB)]
  exact (ensureTable_inv hs hB c.slot_lt).2.1

theorem AllocCall.run_tableAt (hs : DirectoryInv B s) (hB : B ≤ 2 ^ 24) {e : ℕ}
    (he : e ∈ s.presentDirs) : (c.run s).tableAt e = s.tableAt e := by
  rw [Paging.tableAt, c.run_pde_of_present hs hB he]
  rfl

/-- Every entry of every existing table, other than the one requested, survives a call. -/
theorem AllocCall.run_load (hs : DirectoryInv B s) (hB : B ≤ 2 ^ 24) {e i : ℕ}
    (he : e ∈ s.presentDirs) (hi : i < 1024) (hne : e ≠ c.slot ∨ i ≠ c.index) :
    load32 (c.run s).mem (s.tableAt e + 4 * i) = load32 s.mem (s.tableAt e + 4 * i) := by
  obtain ⟨hinv, hslot, hkeep⟩ := ensureTable_inv hs hB c.slot_lt
  obtain ⟨hal, hlow, hhigh⟩ := hs.table e he
  have hidx := c.index_lt
  have hslotLt := c.slot_lt
  have hsame : (ensureTable c.slot s).tableAt e = s.tableAt e := by
    rw [Paging.tableAt, hkeep e he]
    rfl
  have hdisj : s.tableAt e + 4 * i + 4 ≤ (ensureTable c.slot s).tableAt c.slot + 4 * c.index ∨
      (ensureTable c.slot s).tableAt c.slot + 4 * c.index + 4 ≤ s.tableAt e + 4 * i := by
    have hal' := (hinv.table _ hslot).1
    rw [← hsame] at hal ⊢
    by_cases hec : e = c.slot
    · have hi' : i ≠ c.index := by
        rcases hne with h | h
        · exact absurd hec h
        · exact h
      rw [hec]
      omega
    · have hmem : e ∈ (ensureTable c.slot s).presentDirs := by
        have h := Paging.mem_presentDirs.mp he
        exact Paging.mem_presentDirs.mpr ⟨h.1, (hkeep e he).symm ▸ h.2⟩
      have hne' : (ensureTable c.slot s).tableAt e ≠ (ensureTable c.slot s).tableAt c.slot :=
        fun h => hec (hinv.distinct e hmem c.slot hslot h)
      omega
  rw [c.run_mem, load32_store32_of_disjoint _ hdisj]
  unfold ensureTable
  by_cases h0 : Pte.present (s.pde c.slot) = 0
  · obtain ⟨_, _, _, _, hframe, _⟩ := createTable_spec hs hB c.slot_lt
    rw [if_pos h0]
    exact load32_congr (fun x _ _ => hframe x (by omega) (by omega))
  · rw [if_neg h0]

end

section
variable {B : ℕ} {s : Paging}

theorem runCalls_append (s : Paging) (xs ys : List AllocCall) :
    runCalls s (xs ++ ys) = runCalls (runCalls s xs) ys := List.foldl_append

theorem runCalls_inv (hs : DirectoryInv B s) (hB : B ≤ 2 ^ 24) (calls : List AllocCall) :
    DirectoryInv B (runCalls s calls) := by
  induction calls generalizing s with
  | nil => exact hs
  | cons c calls ih => exact ih (c.run_inv hs hB)

theorem runCalls_pde (hs : DirectoryInv B s) (hB : B ≤ 2 ^ 24) (calls : List AllocCall) {e : ℕ}
    (he : e ∈ s.presentDirs) :
    e ∈ (runCalls s calls).presentDirs ∧ (runCalls s calls).pde e = s.pde e := by
  induction calls generalizing s with
  | nil => exact ⟨he, rfl⟩
  | cons c calls ih =>
    obtain ⟨hm, hp⟩ := ih (c.run_inv hs hB) (c.presentDirs_subset hs hB he)
    exact ⟨hm, hp.trans (c.run_pde_of_present hs hB he)⟩

/-- A call for an address above 16 MiB leaves the identity mapping in place. -/
theorem AllocCall.run_identityMap (c : AllocCall) (hs : DirectoryInv B s) (hB : B ≤ 2 ^ 24)
    (hid : IdentityMap B s) (haddr : 2 ^ 24 ≤ c.address.toNat) : IdentityMap B (c.run s) := by
  have hslot : 4 ≤ c.slot := by
    rw [c.slot_eq]
    omega
  have hmem : ∀ d < 4, d ∈ s.presentDirs ∧ s.tableAt d = B + 4096 * (1 + d) := by
    intro d hd
    obtain ⟨f, hf, ht⟩ := hid.linked d hd
    exact ⟨Paging.mem_presentDirs.mpr ⟨by omega, by rw [hf, Pte.present_make]⟩, ht⟩
  constructor
  · rw [c.run_kernelDirectory]
    exact hid.directory
  · intro d hd
    obtain ⟨f, hf, ht⟩ := hid.linked d hd
    exact ⟨f, (c.run_pde_of_present hs hB (hmem d hd).1).trans hf,
      (c.run_tableAt hs hB (hmem d hd).1).trans ht⟩
  · intro d hd i hi
    have h := c.run_load hs hB (hmem d hd).1 hi (Or.inl (by omega))
    rw [(hmem d hd).2] at h
    rw [h]
    exact hid.entries d hd i hi

theorem runCalls_identityMap (hs : DirectoryInv B s) (hB : B ≤ 2 ^ 24) (hid : IdentityMap B s)
    {calls : List AllocCall} (haddr : ∀ c ∈ calls, 2 ^ 24 ≤ c.address.toNat) :
    IdentityMap B (runCalls s calls) := by
  induction calls generalizing s with
  | nil => exact hid
  | cons c calls ih =>
    exact ih (c.run_inv hs hB) (c.run_identityMap hs hB hid (haddr c List.mem_cons_self))
      (fun c' hc' => haddr c' (List.mem_cons_of_mem _ hc'))

theorem IdentityTables.presentDirs (h : IdentityTables B 4 s) : s.presentDirs = Finset.range 4 := by
  ext d
  rw [Paging.mem_presentDirs, Finset.mem_range]
  constructor
  · rintro ⟨hd, hp⟩
    by_contra hge
    rw [h.absent d hd (by omega)] at hp
    exact absurd hp (by decide)
  · intro hd
    obtain ⟨f, hf, _⟩ := h.linked d hd
    exact ⟨by omega, by rw [hf, Pte.present_make]⟩

theorem IdentityTables.directoryInv (h : IdentityTables B 4 s) (hB : B % 4096 = 0) : DirectoryInv B s := by
  have htable : ∀ d ∈ s.presentDirs, d < 4 ∧ s.tableAt d = B + 4096 * (1 + d) := by
    intro d hd
    rw [h.presentDirs, Finset.mem_range] at hd
    obtain ⟨_, _, ht⟩ := h.linked d hd
    exact ⟨hd, ht⟩
  have hp := h.placement
  constructor
  · exact h.directory
  · exact hB
  · rw [h.presentDirs, Finset.card_range]
    exact hp
  · intro d hd
    obtain ⟨hlt, ht⟩ := htable d hd
    omega
  · intro d hd e he heq
    obtain ⟨_, ht⟩ := htable d hd
    obtain ⟨_, ht'⟩ := htable e he
    omega

end

end N7OS
