import N7OS.Memory.PageMapping

/-! # Runs of the memory subsystem

Any sequence of bitmap calls and of calls of `alloc_page_entry` after start-up,
and two properties of the walk in the states it reaches: which rights a mapping
really grants, and what a call maps when the bitmap has no free page left. Both are
about runs in which the kernel keeps its own pages; what a call does once they are
lost is shown between the two.
-/
namespace N7OS
open ByteMemory Bitmap Execution

inductive MemoryCall
  | page (c : PageCall)
  | alloc (c : AllocCall)

def MemoryCall.run (s : Paging) : MemoryCall → Option Paging
  | .page c => (c.run s.pageBitmap).map (fun r => { s with pageBitmap := r.2 })
  | .alloc c => (c.exec s).map Prod.snd

def MemoryStep (s : Paging) (op : MemoryCall) (t : Paging) : Prop := op.run s = some t

/-- Every call but `clearPage`. -/
def MemoryCall.Keeps : MemoryCall → Prop
  | .page (.clearPage _) => False
  | _ => True

def MemoryCall.Reached (s : Paging) : MemoryCall → Prop
  | .page _ => True
  | .alloc c => c.Reached s

/-- Every `alloc_page_entry` of the trace is called in a state in which it reaches the tables. -/
def ReachedThroughout (s : Paging) (tr : List MemoryCall) : Prop := EachStep MemoryStep MemoryCall.Reached s tr

/-- Every page table is linked writeable and for the kernel only. -/
def KernelTables (s : Paging) : Prop := ∀ d ∈ s.presentDirs, ∃ f, s.pde d = Pte.make 1 0 f

/-- What every such run after start-up keeps. -/
structure TablesInv (B : ℕ) (s : Paging) : Prop where
  reached : KernelReached B s
  kernel : KernelTables s

section Steps
variable {B : ℕ} {s t : Paging} {op : MemoryCall} (c : AllocCall)

/-- A bitmap call leaves memory and the pointers alone. -/
theorem MemoryStep.cases (h : MemoryStep s op t) :
    (∃ c result bitmap, op = .page c ∧ PageStep s.pageBitmap ⟨c, result⟩ bitmap ∧
      t = { s with pageBitmap := bitmap }) ∨
    (∃ (c : AllocCall) (table : U32), op = .alloc c ∧ c.exec s = some (table, t)) := by
  cases op with
  | page c =>
    obtain ⟨⟨result, bitmap⟩, hr, rfl⟩ := Option.map_eq_some_iff.mp h
    exact Or.inl ⟨c, result, bitmap, rfl, hr, rfl⟩
  | alloc c =>
    obtain ⟨⟨table, u⟩, hexec, rfl⟩ := Option.map_eq_some_iff.mp h
    exact Or.inr ⟨c, table, rfl, hexec⟩

/-- Pages marked once stay marked while none is cleared. -/
theorem MemoryStep.members (h : MemoryStep s op t) (hop : op.Keeps) :
    members s.pageBitmap ⊆ members t.pageBitmap := by
  rcases h.cases with ⟨c, result, bitmap, rfl, hstep, rfl⟩ | ⟨c, table, rfl, hexec⟩
  · rcases hstep.cases with ⟨addr, _, hp, rfl⟩ | ⟨addr, he, _⟩ | ⟨_, rfl⟩
    · exact members_insert s.pageBitmap hp ▸ Set.subset_insert _ _
    · obtain rfl : c = .clearPage addr := congrArg PageEvent.call he
      exact hop.elim
    · exact members_subset_findfreePage _
  · obtain ⟨_, _, rfl⟩ := allocPageEntry_frame hexec
    exact members_subset_findfreePage _

theorem MemoryStep.alloc (hs : KernelReached B s) (hB : B ≤ 2 ^ 24) (hc : c.Reached s) :
    MemoryStep s (.alloc c) (c.run s) := by
  rw [MemoryStep, MemoryCall.run, (hs.step c hB hc).1]
  rfl

/-- A step that reaches the tables is a bitmap call or a call with physical accesses. -/
theorem MemoryStep.reached_cases (h : MemoryStep s op t) (hs : KernelReached B s) (hB : B ≤ 2 ^ 24)
    (hop : op.Reached s) :
    (∃ c result bitmap, op = .page c ∧ PageStep s.pageBitmap ⟨c, result⟩ bitmap ∧
      t = { s with pageBitmap := bitmap }) ∨
    (∃ c : AllocCall, op = .alloc c ∧ c.Reached s ∧ t = c.run s) := by
  rcases h.cases with hpage | ⟨c, table, rfl, hexec⟩
  · exact Or.inl hpage
  · have hrun := hexec.symm.trans (hs.step c hB hop).1
    exact Or.inr ⟨c, rfl, hop, (Prod.mk.inj (Option.some.inj hrun)).2⟩

theorem AllocCall.run_kernelTables (hs : DirectoryInv B s) (hB : B ≤ 2 ^ 24) (h : KernelTables s) :
    KernelTables (c.run s) := by
  intro d hd
  by_cases hold : d ∈ s.presentDirs
  · rw [c.run_pde_of_present hs hB hold]
    exact h d hold
  · have hlt := (Paging.mem_presentDirs.mp hd).1
    by_cases hslot : d = c.slot
    · obtain ⟨f, hf⟩ := createTable_pde c.slot s
      rw [c.run_pde hs hB d hlt, hslot, ensureTable_of_absent c.slot_lt (hslot ▸ hold)]
      exact ⟨f, hf⟩
    · have hpresent := (Paging.mem_presentDirs.mp hd).2
      rw [c.run_pde_other hs hB hlt hslot] at hpresent
      exact absurd (Paging.mem_presentDirs.mpr ⟨hlt, hpresent⟩) hold

theorem MemoryStep.kernelReached (hstep : MemoryStep s op t) (hs : KernelReached B s) (hB : B ≤ 2 ^ 24)
    (hop : op.Reached s) : KernelReached B t := by
  rcases hstep.reached_cases hs hB hop with ⟨_, _, _, _, _, rfl⟩ | ⟨c, _, hc, rfl⟩
  · exact hs.congr rfl rfl rfl rfl rfl
  · exact (hs.step c hB hc).2

theorem KernelReached.runs {tr : List MemoryCall} (h : Runs MemoryStep s tr t) (hs : KernelReached B s)
    (hB : B ≤ 2 ^ 24) (hreach : ReachedThroughout s tr) : KernelReached B t :=
  h.invariant_of_eachStep (KernelReached B) (fun _ _ _ hs hop hstep => hstep.kernelReached hs hB hop) hreach hs

theorem MemoryStep.tablesInv (hstep : MemoryStep s op t) (hs : TablesInv B s) (hB : B ≤ 2 ^ 24)
    (hop : op.Reached s) : TablesInv B t := by
  refine ⟨hstep.kernelReached hs.reached hB hop, ?_⟩
  rcases hstep.reached_cases hs.reached hB hop with ⟨_, _, _, _, _, rfl⟩ | ⟨c, _, hc, rfl⟩
  · intro d hd
    rw [Paging.mem_presentDirs] at hd
    exact hs.kernel d (Paging.mem_presentDirs.mpr hd)
  · exact c.run_kernelTables hs.reached.directory hB hs.kernel

theorem TablesInv.runs {tr : List MemoryCall} (h : Runs MemoryStep s tr t) (hs : TablesInv B s)
    (hB : B ≤ 2 ^ 24) (hreach : ReachedThroughout s tr) : TablesInv B t :=
  h.invariant_of_eachStep (TablesInv B) (fun _ _ _ hs hop hstep => hstep.tablesInv hs hB hop) hreach hs

def MemoryCall.isAlloc : MemoryCall → Bool
  | .page _ => false
  | .alloc _ => true

/-- Calls above 16 MiB reach the tables as long as there is room for their tables below. -/
theorem reachedThroughout_of_ge {tr : List MemoryCall} (hs : KernelReached B s) (hB : B ≤ 2 ^ 24)
    (hid : IdentityMap B s) (haddr : ∀ c, .alloc c ∈ tr → 2 ^ 24 ≤ c.address.toNat)
    (hroom : s.placementAddress.toNat + 4096 * tr.countP MemoryCall.isAlloc ≤ 2 ^ 24) : ReachedThroughout s tr := by
  induction tr generalizing s with
  | nil => exact eachStep_nil
  | cons op tr ih =>
    have hrest : ∀ c, .alloc c ∈ tr → 2 ^ 24 ≤ c.address.toNat := fun c hc => haddr c (List.mem_cons_of_mem _ hc)
    refine eachStep_cons.mpr ?_
    cases op with
    | page c =>
      rw [List.countP_cons_of_neg (by simp [MemoryCall.isAlloc])] at hroom
      refine ⟨trivial, fun t ht => ?_⟩
      obtain ⟨_, _, rfl⟩ := Option.map_eq_some_iff.mp ht
      exact ih (hs.congr rfl rfl rfl rfl rfl) ⟨hid.directory, hid.linked, hid.entries⟩ hrest hroom
    | alloc c =>
      rw [List.countP_cons_of_pos (by rfl)] at hroom
      have hc := haddr c List.mem_cons_self
      have hplace := c.run_placement hs.directory hB
      have hreach := c.reached_of_ge hs hB hid hc (by omega)
      refine ⟨hreach, fun t ht => ?_⟩
      obtain rfl : c.run s = t := Option.some.inj ((MemoryStep.alloc c hs hB hreach).symm.trans ht)
      exact ih (hs.step c hB hreach).2 (c.run_identityMap hs.directory hB hid hc) hrest (by omega)

/-- Reached calls always return. -/
theorem exists_runs_of_reached {tr : List MemoryCall} (hs : KernelReached B s) (hB : B ≤ 2 ^ 24)
    (hreach : ReachedThroughout s tr) (hpage : ∀ c, .page c ∈ tr → c.InMemory) : ∃ t, Runs MemoryStep s tr t := by
  induction tr generalizing s with
  | nil => exact ⟨s, .nil s⟩
  | cons op tr ih =>
    obtain ⟨hfirst, hrest⟩ := eachStep_cons.mp hreach
    have hpages : ∀ c, .page c ∈ tr → c.InMemory := fun c hc => hpage c (List.mem_cons_of_mem _ hc)
    have hstep : ∃ u, MemoryStep s op u ∧ KernelReached B u := by
      cases op with
      | page c =>
        obtain ⟨result, bitmap, hrun⟩ := PageCall.run_total (hpage c List.mem_cons_self) s.pageBitmap
        refine ⟨{ s with pageBitmap := bitmap }, ?_, hs.congr rfl rfl rfl rfl rfl⟩
        exact Option.map_eq_some_iff.mpr ⟨_, hrun, rfl⟩
      | alloc c => exact ⟨c.run s, MemoryStep.alloc c hs hB hfirst, (hs.step c hB hfirst).2⟩
    obtain ⟨u, hu, hu'⟩ := hstep
    obtain ⟨t, ht⟩ := ih hu' (hrest u hu) hpages
    exact ⟨t, .cons hu ht⟩

theorem bootPaging_tablesInv {memHeap : U32} {s₀ s : Paging} (hfit : BootFits memHeap)
    (h : bootPaging memHeap s₀ = some s) : TablesInv (pageCeil memHeap.toNat) s := by
  refine ⟨bootPaging_kernelReached hfit h, ?_⟩
  obtain ⟨ht, _⟩ := bootPaging_some hfit h
  intro d hd
  rw [ht.presentDirs, Finset.mem_range] at hd
  obtain ⟨f, hf, _⟩ := ht.linked d hd
  exact ⟨f, hf⟩

end Steps

section Rights
variable {B : ℕ} {s : Paging} (c : AllocCall)

/-- The call returns, and the processor's walk grants user access and writing just as it asked. -/
def RightsAsRequested (s : Paging) (c : AllocCall) : Prop :=
  ∃ table t w, c.exec s = some (table, t) ∧ walk t.mem t.cr3 c.address = some w ∧
    (w.user = 1 ↔ c.isKernel = 0) ∧ (w.rw = 1 ↔ c.isWriteable ≠ 0)

/-- The walk of the page of a reached call: a table entry with the rights asked for, below a directory
entry that is closed to the user. -/
theorem TablesInv.walk_call (h : TablesInv B s) (hB : B ≤ 2 ^ 24) : ∃ w,
    walk (c.run s).mem (c.run s).cr3 c.address = some w ∧ w.user = 0 ∧ (w.rw = 1 ↔ c.isWriteable ≠ 0) := by
  have hs := h.reached.directory
  obtain ⟨f, hf⟩ := c.run_kernelTables hs hB h.kernel c.slot (c.slot_mem_presentDirs hs hB)
  have hwalk := c.run_walk_self hs hB rfl
  rw [hf, c.run_kernelDirectory, ← h.reached.cr3, ← c.run_cr3] at hwalk
  have hand : ∀ b : BitVec 1, 1 &&& b = b := by decide
  refine ⟨_, hwalk, by simp [Walk.user], ?_⟩
  rw [Walk.rw, Pte.rw_make, hand]
  exact c.entry_rw

/-- No page is ever accessible to the user: the directory entry has the last word. -/
theorem TablesInv.rights_iff_isKernel (h : TablesInv B s) (hB : B ≤ 2 ^ 24) (hc : c.Reached s) :
    RightsAsRequested s c ↔ c.isKernel ≠ 0 := by
  have hexec := (h.reached.step c hB hc).1
  obtain ⟨w, hwalk, huser, hrw⟩ := h.walk_call c hB
  have hclosed : w.user ≠ 1 := by simp [huser]
  constructor
  · rintro ⟨table, t, w', ht, hw', hu, _⟩ hk
    obtain ⟨_, rfl⟩ := Prod.mk.inj (Option.some.inj (hexec.symm.trans ht))
    obtain rfl := Option.some.inj (hwalk.symm.trans hw')
    exact hclosed (hu.mpr hk)
  · intro hk
    exact ⟨_, _, w, hexec, hwalk, iff_of_false hclosed hk, hrw⟩

end Rights

theorem rightsAsRequested_iff (memHeap : U32) (s₀ s t : Paging) (hfit : BootFits memHeap)
    (hboot : bootPaging memHeap s₀ = some s) (tr : List MemoryCall) (hrun : Runs MemoryStep s tr t)
    (c : AllocCall) (hreach : ReachedThroughout s (tr ++ [.alloc c])) :
    RightsAsRequested t c ↔ c.isKernel ≠ 0 := by
  obtain ⟨hpast, hlast⟩ := eachStep_append.mp hreach
  have hinv := (bootPaging_tablesInv hfit hboot).runs hrun hfit.le hpast
  exact hinv.rights_iff_isKernel c hfit.le (eachStep_cons.mp (hlast t hrun)).1

/-- A kernel page that shares its table with an earlier read-only user page. -/
theorem rightsAsRequested_iff_120000 :
    let tr : List MemoryCall := [.alloc ⟨0x1000000, 0, 0⟩, .page .findfreePage]
    ∃ s t, bootPaging 0x120000 Paging.blank = some s ∧ Runs MemoryStep s tr t ∧
      (RightsAsRequested t ⟨0x1001000, 1, 1⟩ ↔ (1 : ℤ) ≠ 0) := by
  intro tr
  obtain ⟨s, hs, ht, _⟩ := bootPaging_spec 0x120000 Paging.blank bootFits_120000
  have hreached := bootPaging_kernelReached bootFits_120000 hs
  have hB := bootFits_120000.le
  have hplace := ht.placement
  rw [pageCeil_120000] at hplace
  have hreach : ReachedThroughout s (tr ++ [.alloc ⟨0x1001000, 1, 1⟩]) := by
    refine reachedThroughout_of_ge hreached hB ht.identityMap (by simp [tr]) ?_
    rw [hplace]
    decide
  obtain ⟨t, hrun⟩ := exists_runs_of_reached hreached hB (eachStep_append.mp hreach).1 (by simp [tr, PageCall.InMemory])
  exact ⟨s, t, hs, hrun,
    rightsAsRequested_iff 0x120000 Paging.blank s t bootFits_120000 hs tr hrun ⟨0x1001000, 1, 1⟩ hreach⟩

/-- A user page requested right after start-up. -/
theorem user_page_not_granted : ∃ s, bootPaging 0x120000 Paging.blank = some s ∧
    ¬RightsAsRequested s ⟨0x1000000, 1, 0⟩ ∧
    ∃ table t w, AllocCall.exec s ⟨0x1000000, 1, 0⟩ = some (table, t) ∧ walk t.mem t.cr3 0x1000000 = some w ∧
      w.user = 0 := by
  obtain ⟨s, hs, ht, _⟩ := bootPaging_spec 0x120000 Paging.blank bootFits_120000
  have hinv := bootPaging_tablesInv bootFits_120000 hs
  have hB := bootFits_120000.le
  have hplace := ht.placement
  rw [pageCeil_120000] at hplace
  let c : AllocCall := ⟨0x1000000, 1, 0⟩
  have hroom := (c.run_placement hinv.reached.directory hB).2
  have hc : c.Reached s := c.reached_of_ge hinv.reached hB ht.identityMap (by decide) (by omega)
  obtain ⟨w, hwalk, huser, _⟩ := hinv.walk_call c hB
  refine ⟨s, hs, ?_, _, _, w, (hinv.reached.step c hB hc).1, hwalk, huser⟩
  intro h
  exact (hinv.rights_iff_isKernel c hB hc).mp h rfl

/-- The call returns and leaves the walk of every virtual page as it was. -/
def WalksUnchanged (s : Paging) (c : AllocCall) : Prop :=
  ∃ table t, c.exec s = some (table, t) ∧ ∀ v : U32, walk t.mem t.cr3 v = walk s.mem s.cr3 v

section Misdirected
variable {B : ℕ} {s : Paging} {w : Walk} (c : AllocCall)

/-- A store outside the directory and the tables leaves every walk as it was. -/
theorem DirectoryInv.walk_store (hs : DirectoryInv B s) {a : ℕ} (hout : a + 4 ≤ B ∨ s.placementAddress.toNat ≤ a)
    (x v : U32) : walk (store32 s.mem a x) s.kernelDirectory v = walk s.mem s.kernelDirectory v := by
  have hp := hs.placement
  have hkd := hs.directory
  have hlt := Paging.slot_lt v
  have hi : v.toNat / 4096 % 1024 < 1024 := Nat.mod_lt _ (by decide)
  have hpde : load32 (store32 s.mem a x) (s.kernelDirectory.toNat + 4 * (v.toNat / 4194304)) =
      s.pde (v.toNat / 4194304) := load32_store32_of_disjoint x (by omega)
  by_cases hslot : v.toNat / 4194304 ∈ s.presentDirs
  · have htable := hs.table _ hslot
    exact Paging.walk_of_loads hpde (load32_store32_of_disjoint x (by omega))
  · have habsent := absent_of_notMem hlt hslot
    rw [Paging.walk_eq_none (Or.inl habsent)]
    apply Paging.walk_eq_none (s := { s with mem := store32 s.mem a x })
    exact Or.inl ((congrArg Pte.present hpde).trans habsent)

/-- Once the page of a table is mapped to another frame, outside the directory and the tables, the
entry that a call writes goes to that frame: the call returns and maps nothing. -/
theorem AllocCall.exec_misdirected (hs : DirectoryInv B s) (hB : B ≤ 2 ^ 24) (hcr3 : s.cr3 = s.kernelDirectory)
    (hpaging : s.cr0.getLsbD 31 = true) (hdir : IdentityWalk s s.kernelDirectory) (hslot : c.slot ∈ s.presentDirs)
    (hw : walk s.mem s.kernelDirectory (c.table s) = some w) (hrw : w.rw = 1)
    (hout : (Pte.target w.pte).toNat + 4096 ≤ B ∨ s.placementAddress.toNat ≤ (Pte.target w.pte).toNat) :
    WalksUnchanged s c := by
  have hidx := c.index_lt
  have hready : c.ready s = { s with pageBitmap := (findfreePage s.pageBitmap).2 } := by
    rw [AllocCall.ready, ensureTable_of_present hslot]
  obtain ⟨hal, haddr⟩ := c.toNat_entryAddress hs hB
  have hself : walk s.mem s.kernelDirectory (c.entryAddress s) = some w := by
    rw [← hw]
    exact Paging.walk_congr s (by omega)
  have hphys : (w.phys (c.entryAddress s)).toNat = (Pte.target w.pte).toNat + 4 * c.index := by
    have hlow := toNat_and_low12 (c.entryAddress s)
    have halign := Pte.toNat_target w.pte
    have hframe := (Pte.frameAddr w.pte).isLt
    rw [Walk.phys, toNat_add_of_lt (by omega), hlow]
    omega
  have hkeep : ∀ x v, walk (store32 s.mem (w.phys (c.entryAddress s)).toNat x) s.kernelDirectory v =
      walk s.mem s.kernelDirectory v := hs.walk_store (by omega)
  have hwalk : ∀ x, walk (store32 s.mem (w.phys (c.entryAddress s)).toNat x) s.cr3 (c.entryAddress s) = some w := by
    intro x
    rw [hcr3, hkeep, hself]
  have hcr0 : (c.ready s).cr0.getLsbD 31 = true := by rw [hready, hpaging]
  have hexec : c.exec s = some (c.table s, c.written s (w.phys (c.entryAddress s)).toNat) := by
    apply c.exec_of_translate hs hB hcr3 hpaging hdir (fun h => absurd hslot h)
    · refine Paging.translate_of_walk hcr0 ?_ hrw true
      rw [hready]
      exact hcr3.symm ▸ hself
    · intro x write
      apply Paging.translate_of_walk _ _ hrw write
      · exact hcr0
      · simp only [hready]
        exact hwalk x
  refine ⟨_, _, hexec, fun v => ?_⟩
  rw [AllocCall.written, hready]
  exact hcr3.symm ▸ hkeep _ v

end Misdirected

/-- The page that holds the second table is mapped anew, to the first free frame: from then on the
entries of that table cannot be changed, and a page asked for read-only stays writeable. -/
theorem remapped_table_not_granted : ∃ s t, bootPaging 0x120000 Paging.blank = some s ∧
    Runs MemoryStep s [.alloc ⟨0x122000, 1, 1⟩] t ∧ ¬RightsAsRequested t ⟨0x400000, 0, 1⟩ := by
  obtain ⟨s, hs, ht, hmark, _⟩ := bootPaging_spec 0x120000 Paging.blank bootFits_120000
  have hB := bootFits_120000.le
  have hplace := ht.placement
  rw [pageCeil_120000] at hplace
  have hinv := bootPaging_tablesInv bootFits_120000 hs
  have hdir := hinv.reached.directory
  have hkd := hdir.directory
  rw [pageCeil_120000] at hkd
  let c : AllocCall := ⟨0x122000, 1, 1⟩
  let d : AllocCall := ⟨0x400000, 0, 1⟩
  have hslot : ∀ e < 4, e ∈ s.presentDirs ∧ s.tableAt e = 0x120000 + 4096 * (1 + e) := by
    intro e he
    obtain ⟨_, _, htable⟩ := ht.linked e he
    rw [pageCeil_120000] at htable
    exact ⟨ht.presentDirs ▸ Finset.mem_range.mpr he, htable⟩
  have hcaddr : c.address.toNat = 0x122000 := rfl
  have hdaddr : d.address.toNat = 0x400000 := rfl
  have hcslot : c.slot = 0 := by rw [c.slot_eq, hcaddr]
  have hdslot : d.slot = 1 := by rw [d.slot_eq, hdaddr]
  -- the first call edits table 0, which its page does not hold
  have hctable : (c.table s).toNat = 0x121000 := by
    rw [c.table_of_present (hcslot ▸ (hslot 0 (by decide)).1), hcslot, (hslot 0 (by decide)).2]
  have hexec : c.exec s = some (c.table s, c.run s) := by
    apply c.exec_eq hdir hB hinv.reached.cr3 hinv.reached.paging
    · exact ht.identityMap.walk (by omega)
    · exact ht.identityMap.walk (by omega)
    · rw [hctable]
      decide
  have hstep : MemoryStep s (.alloc c) (c.run s) := by
    rw [MemoryStep, MemoryCall.run, hexec]
    rfl
  have hother : ∀ v : U32, v.toNat / 4096 ≠ 0x122 →
      walk (c.run s).mem (c.run s).kernelDirectory v = walk s.mem s.kernelDirectory v :=
    fun v hv => c.run_walk_other hdir hB (by rw [hcaddr]; exact hv)
  -- the second call finds table 1 where the first call has put a free frame
  have hdpresent : d.slot ∈ (c.run s).presentDirs :=
    c.presentDirs_subset hdir hB (hdslot ▸ (hslot 1 (by decide)).1)
  have hdtable : (d.table (c.run s)).toNat = 0x122000 := by
    rw [d.table_of_present hdpresent, hdslot, c.run_tableAt hdir hB (hslot 1 (by decide)).1, (hslot 1 (by decide)).2]
  have hwalk := c.run_walk_self hdir hB (v := d.table (c.run s)) (by rw [hdtable]; decide)
  obtain ⟨f, hf⟩ := c.run_kernelTables hdir hB hinv.kernel c.slot (c.slot_mem_presentDirs hdir hB)
  have hframe : s.placementAddress.toNat ≤ (Pte.target (c.entry s)).toNat := by
    rw [Pte.toNat_target, c.entry_frame]
    rcases findfreePage_spec s.pageBitmap with ⟨p, _, hp, _, hr, _⟩ | ⟨hn, _⟩
    · rw [hmark] at hp
      omega
    · refine absurd ⟨4095, by decide, ?_⟩ hn
      rw [hmark]
      omega
  have hmis : WalksUnchanged (c.run s) d := by
    apply d.exec_misdirected (c.run_inv hdir hB) hB (by rw [c.run_cr3, c.run_kernelDirectory, hinv.reached.cr3])
      (by rw [c.run_cr0, hinv.reached.paging]) _ hdpresent hwalk
    · rw [hf, Walk.rw, Pte.rw_make, c.entry_rw.mpr (by decide)]
      decide
    · rw [c.run_placement_of_present (hcslot ▸ (hslot 0 (by decide)).1)]
      exact Or.inr hframe
    · rw [c.run_kernelDirectory]
      have hid : IdentityWalk s s.kernelDirectory := ht.identityMap.walk (by omega)
      exact hid.congr (hother _ (by omega))
  refine ⟨s, c.run s, hs, .cons hstep (.nil _), ?_⟩
  rintro ⟨table, t, w, ht', hw, _, hrw⟩
  obtain ⟨_, _, hexec', hall⟩ := hmis
  obtain ⟨_, rfl⟩ := Prod.mk.inj (Option.some.inj (hexec'.symm.trans ht'))
  obtain ⟨w', hw', _, ⟨_, hpde, _⟩, _, hpte, _⟩ := ht.identityMap.walk (v := 0x400000) (by decide)
  rw [hall, c.run_cr3, hinv.reached.cr3, ← c.run_kernelDirectory, hother _ (by decide), hw'] at hw
  obtain rfl := Option.some.inj hw
  exact hrw.mp (by rw [Walk.rw, hpde, hpte]; decide) rfl

section Exhaustion

/-- The page of the call is mapped to frame 0, with the rights that the call asks for. -/
def MapsFrameZero (s : Paging) (c : AllocCall) : Prop :=
  ∃ w, walk s.mem s.cr3 c.address = some w ∧
    w.pte = Pte.make (if c.isWriteable ≠ 0 then 1 else 0) (if c.isKernel ≠ 0 then 0 else 1) 0

/-- No virtual page above 16 MiB is mapped to frame 0. -/
def FrameZeroHidden (s : Paging) : Prop :=
  ∀ v : U32, 2 ^ 24 ≤ v.toNat → ∀ w, walk s.mem s.cr3 v = some w → Pte.frameAddr w.pte ≠ 0

/-- The calls of `alloc_page_entry` made with no page free meet `P`. -/
def WhenFull (P : Paging → AllocCall → Prop) (s : Paging) : MemoryCall → Prop
  | .page _ => True
  | .alloc c => ¬HasFree s.pageBitmap → P s c

/-- Each call made with no page free changes no walk, and frame 0 stays hidden all along. -/
def ExhaustionSafe (s : Paging) (tr : List MemoryCall) : Prop :=
  EachStep MemoryStep (WhenFull WalksUnchanged) s tr ∧
    ∀ pre post t, tr = pre ++ post → Runs MemoryStep s pre t → FrameZeroHidden t

def OnlyFrameZeroRemapped (s : Paging) (tr : List MemoryCall) : Prop :=
  EachStep MemoryStep (WhenFull MapsFrameZero) s tr

variable {B : ℕ} {s t : Paging} {op : MemoryCall} {tr : List MemoryCall} (c : AllocCall)

/-- With no page free the entry written is a present one, for frame 0. -/
theorem AllocCall.entry_of_full (h : ¬HasFree s.pageBitmap) : c.entry s =
    Pte.make (if c.isWriteable ≠ 0 then 1 else 0) (if c.isKernel ≠ 0 then 0 else 1) 0 := by
  simp [AllocCall.entry, findfreePage_eq_of_full h]

/-- The walks of the processor after a reached call are those of the kernel's directory. -/
theorem KernelReached.walk_run (hs : KernelReached B s) (v : U32) :
    walk (c.run s).mem (c.run s).cr3 v = walk (c.run s).mem (c.run s).kernelDirectory v ∧
      walk s.mem s.cr3 v = walk s.mem s.kernelDirectory v := by
  rw [c.run_cr3, c.run_kernelDirectory, hs.cr3]
  exact ⟨rfl, rfl⟩

theorem KernelReached.walksUnchanged_iff (hs : KernelReached B s) (hB : B ≤ 2 ^ 24) (hc : c.Reached s)
    (h : ¬HasFree s.pageBitmap) : WalksUnchanged s c ↔ MapsFrameZero s c := by
  have hdir := hs.directory
  have hexec := (hs.step c hB hc).1
  have hself := c.run_walk_self hdir hB (v := c.address) rfl
  rw [c.entry_of_full h] at hself
  constructor
  · rintro ⟨table, t, ht, hall⟩
    obtain ⟨_, rfl⟩ := Prod.mk.inj (Option.some.inj (hexec.symm.trans ht))
    obtain ⟨hafter, _⟩ := hs.walk_run c c.address
    exact ⟨_, (hall c.address).symm.trans (hafter.trans hself), rfl⟩
  · rintro ⟨⟨pde, pte⟩, hw, rfl⟩
    refine ⟨_, _, hexec, fun v => ?_⟩
    obtain ⟨hafter, hbefore⟩ := hs.walk_run c v
    rw [hs.cr3] at hw
    rw [hafter, hbefore]
    by_cases hv : v.toNat / 4096 = c.address.toNat / 4096
    · obtain ⟨he, hpresent, _⟩ := Paging.walk_eq_some hw
      have hslot : c.slot ∈ s.presentDirs := Paging.mem_presentDirs.mpr ⟨c.slot_lt, c.slot_eq ▸ hpresent⟩
      have hpde : pde = (c.run s).pde c.slot := by
        rw [c.run_pde_of_present hdir hB hslot, c.slot_eq]
        exact congrArg Walk.pde he
      rw [Paging.walk_congr _ hv, Paging.walk_congr s hv, hself, hw, hpde]
    · exact c.run_walk_other hdir hB hv

/-- A page found for a call is not page 0, which is taken from the start. -/
theorem AllocCall.entry_frame_ne_zero (h0 : 0 ∈ members s.pageBitmap) (h : HasFree s.pageBitmap) :
    Pte.frameAddr (c.entry s) ≠ 0 := by
  intro he
  have hframe := c.entry_frame (s := s)
  have hne : (findfreePage s.pageBitmap).1 ≠ 0 := fun hz => (findfreePage_eq_zero_iff h0).mp hz h
  have hal := findfreePage_aligned s.pageBitmap
  have hpos : (findfreePage s.pageBitmap).1.toNat ≠ 0 := fun hz => hne (BitVec.eq_of_toNat_eq hz)
  rw [he] at hframe
  simp at hframe
  omega

/-- What holds in every state of a run that only remaps frame 0 when no page is left. -/
structure SafeState (B : ℕ) (s : Paging) : Prop where
  reached : KernelReached B s
  zero : 0 ∈ members s.pageBitmap
  hidden : FrameZeroHidden s

theorem SafeState.step (h : SafeState B s) (hB : B ≤ 2 ^ 24) (hkeep : op.Keeps) (hop : op.Reached s)
    (hfull : WhenFull MapsFrameZero s op) (hstep : MemoryStep s op t) : SafeState B t := by
  have hzero := hstep.members hkeep h.zero
  rcases hstep.reached_cases h.reached hB hop with ⟨_, _, _, _, _, rfl⟩ | ⟨c, rfl, hc, rfl⟩
  · exact ⟨h.reached.congr rfl rfl rfl rfl rfl, hzero, h.hidden⟩
  · have hexec := h.reached.step c hB hc
    refine ⟨hexec.2, hzero, ?_⟩
    intro v hv w hw
    obtain ⟨hafter, hbefore⟩ := h.reached.walk_run c v
    by_cases hfree : HasFree s.pageBitmap
    · rw [hafter] at hw
      by_cases hpage : v.toNat / 4096 = c.address.toNat / 4096
      · rw [c.run_walk_self h.reached.directory hB hpage, Option.some.injEq] at hw
        subst hw
        exact c.entry_frame_ne_zero h.zero hfree
      · rw [c.run_walk_other h.reached.directory hB hpage, ← hbefore] at hw
        exact h.hidden v hv w hw
    · obtain ⟨_, u, hu, hall⟩ := (h.reached.walksUnchanged_iff c hB hc hfree).mpr (hfull hfree)
      obtain ⟨_, rfl⟩ := Prod.mk.inj (Option.some.inj (hexec.1.symm.trans hu))
      exact h.hidden v hv w (hall v ▸ hw)

theorem SafeState.runs (hs : SafeState B s) (hB : B ≤ 2 ^ 24) (hkeep : ∀ op ∈ tr, op.Keeps)
    (hreach : ReachedThroughout s tr) (h : OnlyFrameZeroRemapped s tr) (hrun : Runs MemoryStep s tr t) :
    SafeState B t := by
  have hall : EachStep MemoryStep (fun s op => (op.Keeps ∧ op.Reached s) ∧ WhenFull MapsFrameZero s op) s tr := by
    rintro pre op post t rfl hpre
    exact ⟨⟨hkeep op (by simp), hreach pre op post t rfl hpre⟩, h pre op post t rfl hpre⟩
  exact hrun.invariant_of_eachStep (SafeState B)
    (fun _ _ _ hs hop hstep => hs.step hB hop.1.1 hop.1.2 hop.2 hstep) hall hs

theorem SafeState.run_iff (hs : SafeState B s) (hB : B ≤ 2 ^ 24) (hkeep : ∀ op ∈ tr, op.Keeps)
    (hreach : ReachedThroughout s tr) : ExhaustionSafe s tr ↔ OnlyFrameZeroRemapped s tr := by
  have hiff : ∀ pre op post t, tr = pre ++ op :: post → Runs MemoryStep s pre t →
      (WhenFull WalksUnchanged t op ↔ WhenFull MapsFrameZero t op) := by
    rintro pre op post t rfl hrun
    have ht : KernelReached B t := hs.reached.runs hrun hB (eachStep_append.mp hreach).1
    cases op with
    | page c => exact Iff.rfl
    | alloc c =>
      exact forall_congr' fun hfull => ht.walksUnchanged_iff c hB (hreach pre _ post t rfl hrun) hfull
  constructor
  · rintro ⟨hcalls, _⟩ pre op post t htr hrun
    exact (hiff pre op post t htr hrun).mp (hcalls pre op post t htr hrun)
  · intro h
    refine ⟨fun pre op post t htr hrun => (hiff pre op post t htr hrun).mpr (h pre op post t htr hrun), ?_⟩
    rintro pre post t rfl hrun
    exact (hs.runs hB (fun op hop => hkeep op (List.mem_append_left _ hop)) (eachStep_append.mp hreach).1
      (eachStep_append.mp h).1 hrun).hidden

/-- `n` searches take at least the first `n` pages. -/
theorem runs_findfreePage (s : Paging) (n : ℕ) : ∃ bitmap,
    Runs MemoryStep s (List.replicate n (.page .findfreePage)) { s with pageBitmap := bitmap } ∧
      ∀ p < n, p < 4096 → p ∈ members bitmap := by
  induction n with
  | zero => exact ⟨s.pageBitmap, .nil s, by simp⟩
  | succ n ih =>
    obtain ⟨bitmap, hrun, hp⟩ := ih
    have hstep : MemoryStep { s with pageBitmap := bitmap } (.page .findfreePage)
        { s with pageBitmap := (findfreePage bitmap).2 } := rfl
    have hnext := hrun.append (.cons hstep (.nil _))
    rw [← List.replicate_succ'] at hnext
    refine ⟨_, hnext, ?_⟩
    intro p hlt hpool
    rcases findfreePage_spec bitmap with ⟨q, hq, hfree, hleast, _, hm⟩ | ⟨hfull, he⟩
    · rw [hm]
      by_cases hpq : p = q
      · exact Or.inl hpq
      · have hge : ¬q < n := fun hqn => hfree (hp q hqn hq)
        exact Or.inr (hleast p (by omega))
    · rw [he]
      by_contra hno
      exact hfull ⟨p, hpool, hno⟩

end Exhaustion

/-- From the state after start-up, a run that keeps the tables reached stays clear of frame 0 exactly
when its calls with no free page repeat an existing mapping of frame 0. -/
theorem exhaustionSafe_iff (memHeap : U32) (s₀ s : Paging) (hfit : BootFits memHeap)
    (hboot : bootPaging memHeap s₀ = some s) (tr : List MemoryCall) (hkeep : ∀ op ∈ tr, op.Keeps)
    (hreach : ReachedThroughout s tr) : ExhaustionSafe s tr ↔ OnlyFrameZeroRemapped s tr := by
  obtain ⟨ht, hmark, hcr3⟩ := bootPaging_some hfit hboot
  have hp := ht.placement
  have hsafe : SafeState (pageCeil memHeap.toNat) s := by
    refine ⟨bootPaging_kernelReached hfit hboot, (hmark 0).mpr (by omega), ?_⟩
    intro v hv w hw
    rw [hcr3, walk_eq_none_of_absent (ht.absent _ (Paging.slot_lt v) (by omega))] at hw
    cases hw
  exact hsafe.run_iff hfit.le hkeep hreach

/-- Two calls with no page left: the first repeats the mapping of page 0, the second does not. -/
theorem exhaustionSafe_iff_120000 :
    let tr : List MemoryCall := List.replicate 4096 (.page .findfreePage) ++
      [.alloc ⟨0, 1, 1⟩, .alloc ⟨0x1000000, 1, 1⟩]
    ∃ s, bootPaging 0x120000 Paging.blank = some s ∧ (ExhaustionSafe s tr ↔ OnlyFrameZeroRemapped s tr) := by
  intro tr
  obtain ⟨s, hs, ht, _⟩ := bootPaging_spec 0x120000 Paging.blank bootFits_120000
  have hB := bootFits_120000.le
  have hplace := ht.placement
  have hkd := ht.directory
  rw [pageCeil_120000] at hplace hkd
  obtain ⟨bitmap, hfound, _⟩ := runs_findfreePage s 4096
  have hpages : ReachedThroughout s (List.replicate 4096 (.page .findfreePage)) :=
    eachStep_of_forall fun op hop _ => (List.eq_of_mem_replicate hop) ▸ trivial
  have hfull := (bootPaging_kernelReached bootFits_120000 hs).runs hfound hB hpages
  let c : AllocCall := ⟨0, 1, 1⟩
  have hslot : c.slot ∈ ({ s with pageBitmap := bitmap } : Paging).presentDirs := by
    have hid : IdentityWalk { s with pageBitmap := bitmap } c.address := ht.identityMap.walk (by decide)
    rw [c.slot_eq]
    exact hid.slot_mem
  have hc : c.Reached { s with pageBitmap := bitmap } := by
    constructor
    · rintro ⟨hle, _⟩
      change min imageStart s.kernelDirectory.toNat ≤ 0 at hle
      rw [hkd] at hle
      exact absurd hle (by decide)
    · intro habsent
      rw [(Paging.mem_presentDirs.mp hslot).2] at habsent
      exact absurd habsent (by decide)
  have hreach : ReachedThroughout s tr := by
    refine eachStep_append.mpr ⟨hpages, fun t hrun => ?_⟩
    obtain rfl := hrun.unique (fun _ _ _ _ h h' => Option.some.inj (h.symm.trans h')) hfound
    refine eachStep_cons.mpr ⟨hc, fun u hu => eachStep_cons.mpr ⟨⟨?_, fun _ => ?_⟩, fun _ _ => eachStep_nil⟩⟩
    all_goals obtain rfl := Option.some.inj (hu.symm.trans (MemoryStep.alloc c hfull hB hc))
    · rintro ⟨_, hlt⟩
      have hle := (c.run_placement hfull.directory hB).2
      change (0x1000000 : ℕ) < _ at hlt
      change _ ≤ s.placementAddress.toNat + 4096 at hle
      omega
    · have hsame : (c.run { s with pageBitmap := bitmap }).placementAddress = s.placementAddress :=
        c.run_placement_of_present hslot
      rw [hsame]
      have hid : IdentityWalk { s with pageBitmap := bitmap } s.placementAddress :=
        ht.identityMap.walk (by omega)
      exact hid.congr (c.run_walk_other hfull.directory hB (by rw [hplace]; decide))
  have hkeep : ∀ op ∈ tr, op.Keeps := by
    intro op hop
    rcases List.mem_append.mp hop with hfind | halloc
    · exact (List.eq_of_mem_replicate hfind) ▸ trivial
    · rcases List.mem_pair.mp halloc with rfl | rfl <;> trivial
  exact ⟨s, hs, exhaustionSafe_iff 0x120000 Paging.blank s bootFits_120000 hs tr hkeep hreach⟩

/-- After 4096 searches the next mapping goes to frame 0. -/
theorem exhausted_call_maps_frame_zero : ∃ s t, bootPaging 0x120000 Paging.blank = some s ∧
    Runs MemoryStep s (List.replicate 4096 (.page .findfreePage)) t ∧ ¬HasFree t.pageBitmap ∧
    walk t.mem t.cr3 0x1000000 = none ∧
    ∃ table u w, AllocCall.exec t ⟨0x1000000, 1, 1⟩ = some (table, u) ∧ walk u.mem u.cr3 0x1000000 = some w ∧
      Pte.present w.pte = 1 ∧ Pte.frameAddr w.pte = 0 := by
  obtain ⟨s, hs, ht, _, hcr3⟩ := bootPaging_spec 0x120000 Paging.blank bootFits_120000
  have hB := bootFits_120000.le
  have hplace := ht.placement
  rw [pageCeil_120000] at hplace
  obtain ⟨bitmap, hrun, hp⟩ := runs_findfreePage s 4096
  have hfull : ¬HasFree bitmap := by
    rintro ⟨p, hlt, hfree⟩
    exact hfree (hp p hlt hlt)
  let t : Paging := { s with pageBitmap := bitmap }
  have hreached : KernelReached _ t := (bootPaging_kernelReached bootFits_120000 hs).congr rfl rfl rfl rfl rfl
  let c : AllocCall := ⟨0x1000000, 1, 1⟩
  have hid : IdentityMap _ t := ⟨ht.identityMap.directory, ht.identityMap.linked, ht.identityMap.entries⟩
  have hroom := (c.run_placement hreached.directory hB).2
  have hc : c.Reached t := c.reached_of_ge hreached hB hid (by decide) (hroom.trans (by
    change s.placementAddress.toNat + 4096 ≤ _
    omega))
  refine ⟨s, t, hs, hrun, hfull, ?_, _, _, ⟨(c.run t).pde c.slot, c.entry t⟩, (hreached.step c hB hc).1, ?_, ?_⟩
  · change walk s.mem s.cr3 0x1000000 = none
    rw [hcr3]
    exact walk_eq_none_of_absent (ht.absent _ (Paging.slot_lt _) (by decide))
  · exact (hreached.walk_run c c.address).1.trans (c.run_walk_self hreached.directory hB rfl)
  · rw [c.entry_of_full (s := t) hfull]
    exact ⟨Pte.present_make _ _ _, Pte.frameAddr_make _ _ _⟩

end N7OS
