import N7OS.Memory.PageWalks

/-! # Calls whose accesses reach the tables

`alloc_page_entry` edits the tables through the mapping that they describe. While the
directory and the table of a call are mapped to themselves, its accesses are the
physical ones; they stay so as long as no call is for a page of the kernel itself and
every new table lies on a page that is still mapped to itself.
-/
namespace N7OS
open ByteMemory

section Accesses
variable {s : Paging} {v : U32} {a : ℕ}

theorem toNat_word {base x : U32} (h : base.toNat + 4 * x.toNat < 2 ^ 32) :
    (base + 4#32 * x).toNat = base.toNat + 4 * x.toNat := by
  have hx : (4#32 * x).toNat = 4 * x.toNat := by
    rw [BitVec.toNat_mul]
    exact Nat.mod_eq_of_lt (by simp only [BitVec.reduceToNat]; omega)
  rw [toNat_add_of_lt (by omega), hx]

theorem Paging.translate_of_walk (hpaging : s.cr0.getLsbD 31 = true) {w : Walk} (hw : walk s.mem s.cr3 v = some w)
    (hrw : w.rw = 1) (write : Bool) : s.translate v write = some (w.phys v).toNat := by
  simp [translate, hpaging, hw, hrw]

theorem Paging.load_eq (h : s.translate v false = some a) : s.load v = some (load32 s.mem a) := by
  rw [load, h]
  rfl

theorem Paging.store_eq (h : s.translate v true = some a) (x : U32) :
    s.store v x = some { s with mem := store32 s.mem a x } := by
  rw [store, h]
  rfl

theorem Paging.modify_eq (h : ∀ write, s.translate v write = some a) (f : U32 → U32) :
    s.modify v f = some { s with mem := modify32 s.mem a f } := by
  rw [modify, load_eq (h false)]
  exact store_eq (h true) _

/-- The accesses to an entry reach one physical word, as long as its stores leave the translation alone. -/
theorem Paging.setEntry_eq (hstart : s.translate v true = some a)
    (h : ∀ x write, { s with mem := store32 s.mem a x : Paging }.translate v write = some a)
    (rw user : BitVec 1) (frameAddr : BitVec 20) :
    s.setEntry v rw user frameAddr = some { s with mem := writeEntry s.mem a rw user frameAddr } := by
  have hmodify : ∀ x f, { s with mem := store32 s.mem a x : Paging }.modify v f =
      some { s with mem := store32 s.mem a (f x) } := by
    intro x f
    rw [modify_eq (h x)]
    simp only [modify32_store32]
  simp only [setEntry, Option.bind_eq_bind, store_eq hstart, Option.bind_some, hmodify, writeEntry,
    modify32_store32]

theorem Paging.clearTable_eq {n : ℕ} (h : ∀ i < n, { s with mem := storeWords s.mem a i (fun _ => 0) : Paging }.translate
      (v + BitVec.ofNat 32 (4 * i)) true = some (a + 4 * i)) :
    s.clearTable v n = some { s with mem := storeWords s.mem a n (fun _ => 0) } := by
  induction n with
  | zero => rfl
  | succ n ih =>
    rw [clearTable_succ, ih (fun i hi => h i (by omega)), Option.bind_some, store_eq (h n (by omega))]
    rfl

/-- The walk reads two words and nothing else. -/
theorem walk_of_loads {m m' : Memory} {directory : U32}
    (hpde : load32 m' (pdeAddr directory v) = load32 m (pdeAddr directory v))
    (hpte : load32 m' (pteAddr (Pte.target (load32 m (pdeAddr directory v))) v) =
      load32 m (pteAddr (Pte.target (load32 m (pdeAddr directory v))) v)) :
    walk m' directory v = walk m directory v := by
  simp only [walk, hpde, hpte]

theorem Paging.walk_of_loads {m : Memory}
    (hpde : load32 m (s.kernelDirectory.toNat + 4 * (v.toNat / 4194304)) = s.pde (v.toNat / 4194304))
    (hpte : load32 m (s.tableAt (v.toNat / 4194304) + 4 * (v.toNat / 4096 % 1024)) = s.pte v) :
    walk m s.kernelDirectory v = walk s.mem s.kernelDirectory v := by
  apply N7OS.walk_of_loads
  · rw [pdeAddr_eq]
    exact hpde
  · rw [load_pdeAddr, pteAddr_eq]
    exact hpte

end Accesses

section IdentityWalk
variable {s t : Paging} {u v : U32}

theorem Walk.phys_eq_iff {w : Walk} : w.phys v = v ↔ (Pte.frameAddr w.pte).toNat = v.toNat / 4096 := by
  have htarget := Pte.toNat_target w.pte
  have hlow := toNat_and_low12 v
  have hframe := (Pte.frameAddr w.pte).isLt
  have hsum : (w.phys v).toNat = (Pte.frameAddr w.pte).toNat * 4096 + v.toNat % 4096 := by
    rw [Walk.phys, toNat_add_of_lt (by omega), htarget, hlow]
  constructor
  · intro h
    rw [h] at hsum
    omega
  · intro h
    apply BitVec.eq_of_toNat_eq
    omega

/-- A page is mapped to itself as a whole. -/
theorem IdentityWalk.page (h : IdentityWalk s u) (huv : u.toNat / 4096 = v.toNat / 4096) : IdentityWalk s v := by
  obtain ⟨w, hw, hphys, hrights⟩ := h
  refine ⟨w, Paging.walk_congr s huv ▸ hw, ?_, hrights⟩
  rw [Walk.phys_eq_iff] at hphys ⊢
  omega

theorem IdentityWalk.congr (h : IdentityWalk s v)
    (hwalk : walk t.mem t.kernelDirectory v = walk s.mem s.kernelDirectory v) : IdentityWalk t v := by
  obtain ⟨w, hw, hrest⟩ := h
  exact ⟨w, hwalk.trans hw, hrest⟩

theorem IdentityWalk.slot_mem (h : IdentityWalk s v) : v.toNat / 4194304 ∈ s.presentDirs := by
  obtain ⟨w, hw, _⟩ := h
  exact Paging.mem_presentDirs.mpr ⟨Paging.slot_lt v, (Paging.walk_eq_some hw).2.1⟩

theorem IdentityWalk.translate (h : IdentityWalk s v) (hcr3 : s.cr3 = s.kernelDirectory)
    (hpaging : s.cr0.getLsbD 31 = true) (write : Bool) : s.translate v write = some v.toNat := by
  obtain ⟨w, hw, hphys, ⟨_, hpde, _⟩, _, hpte, _⟩ := h
  have hrw : w.rw = 1 := by
    rw [Walk.rw, hpde, hpte]
    decide
  rw [Paging.translate_of_walk hpaging (hcr3 ▸ hw) hrw, hphys]

/-- The translation of a page mapped to itself survives any store that misses its two entries. -/
theorem IdentityWalk.translate_of_loads (h : IdentityWalk s v) (hcr3 : s.cr3 = s.kernelDirectory)
    (hpaging : s.cr0.getLsbD 31 = true) (p : U32) {m : Memory}
    (hpde : load32 m (s.kernelDirectory.toNat + 4 * (v.toNat / 4194304)) = s.pde (v.toNat / 4194304))
    (hpte : load32 m (s.tableAt (v.toNat / 4194304) + 4 * (v.toNat / 4096 % 1024)) = s.pte v) (write : Bool) :
    { s with mem := m, placementAddress := p : Paging }.translate v write = some v.toNat :=
  (h.congr (t := { s with mem := m, placementAddress := p }) (Paging.walk_of_loads hpde hpte)).translate
    hcr3 hpaging write

end IdentityWalk

section Call
variable {B d : ℕ} {s : Paging} {entry v : U32}

/-- The words of a walk lie in the directory page and in the page of a table. -/
theorem DirectoryInv.walk_words (hs : DirectoryInv B s) (h : IdentityWalk s v) :
    v.toNat / 4194304 < 1024 ∧ B + 4096 ≤ s.tableAt (v.toNat / 4194304) + 4 * (v.toNat / 4096 % 1024) ∧
      s.tableAt (v.toNat / 4194304) + 4 * (v.toNat / 4096 % 1024) + 4 ≤ s.placementAddress.toNat := by
  have htable := hs.table _ h.slot_mem
  have hi : v.toNat / 4096 % 1024 < 1024 := Nat.mod_lt _ (by decide)
  exact ⟨Paging.slot_lt v, by omega, by omega⟩

theorem newTable_eq (hs : DirectoryInv B s) (hB : B ≤ 2 ^ 24) (hcr3 : s.cr3 = s.kernelDirectory)
    (hpaging : s.cr0.getLsbD 31 = true) (hentry : entry.toNat = B + 4 * d) (hd : d < 1024)
    (habsent : d ∉ s.presentDirs) (hdir : IdentityWalk s entry) (hplace : IdentityWalk s s.placementAddress) :
    newTable entry s = some (createTable d s) := by
  have hp := hs.placement
  have hal := hs.aligned
  have hkd := hs.directory
  have hcard := s.card_presentDirs_le
  have hsz : (4 * 1024 : U32).toNat = 4096 := by decide
  obtain ⟨ha, hp'⟩ := kmallocA_spec (p := s.placementAddress) (s := 4 * 1024)
    (by rw [pageCeil_of_aligned (by omega)]; omega)
  rw [pageCeil_of_aligned (by omega)] at ha hp'
  rw [newTable, createTable]
  generalize kmallocA s.placementAddress (4 * 1024) = table at ha hp' ⊢
  -- the new page is clear of every word that a walk reads
  have hclear : Paging.clearTable { s with placementAddress := table.placementAddress } table.address 1024 =
      some { s with
        mem := storeWords s.mem s.placementAddress.toNat 1024 (fun _ => 0)
        placementAddress := table.placementAddress } := by
    apply Paging.clearTable_eq
    intro i hi
    have haddr : (table.address + BitVec.ofNat 32 (4 * i)).toNat = s.placementAddress.toNat + 4 * i := by
      rw [toNat_add_of_lt (by rw [toNat_ofNat_of_lt (by omega), ha]; omega), toNat_ofNat_of_lt (by omega), ha]
    have hwalk : IdentityWalk s (table.address + BitVec.ofNat 32 (4 * i)) := hplace.page (by omega)
    obtain ⟨hlt, hlow, hhigh⟩ := hs.walk_words hwalk
    rw [← haddr]
    apply hwalk.translate_of_loads hcr3 hpaging
    · exact load32_storeWords_of_disjoint _ (by omega)
    · exact load32_storeWords_of_disjoint _ (by omega)
  obtain ⟨hlt, hlow, hhigh⟩ := hs.walk_words hdir
  have hne : entry.toNat / 4194304 ≠ d := fun h => habsent (h ▸ hdir.slot_mem)
  generalize hm : storeWords s.mem s.placementAddress.toNat 1024 (fun _ => 0) = m at hclear
  have hpde : load32 m (s.kernelDirectory.toNat + 4 * (entry.toNat / 4194304)) = s.pde (entry.toNat / 4194304) := by
    rw [← hm]
    exact load32_storeWords_of_disjoint _ (by omega)
  have hpte : load32 m (s.tableAt (entry.toNat / 4194304) + 4 * (entry.toNat / 4096 % 1024)) = s.pte entry := by
    rw [← hm]
    exact load32_storeWords_of_disjoint _ (by omega)
  rw [Option.bind_eq_bind, hclear, Option.bind_some, Paging.setEntry_eq (a := entry.toNat), ha, hm, hkd, hentry]
  · exact hdir.translate_of_loads hcr3 hpaging _ hpde hpte true
  · intro x write
    apply hdir.translate_of_loads hcr3 hpaging
    · exact (load32_store32_of_disjoint x (by omega)).trans hpde
    · exact (load32_store32_of_disjoint x (by omega)).trans hpte

theorem linkTable_eq (hs : DirectoryInv B s) (hB : B ≤ 2 ^ 24) (hcr3 : s.cr3 = s.kernelDirectory)
    (hpaging : s.cr0.getLsbD 31 = true) (hentry : entry.toNat = B + 4 * d) (hd : d < 1024)
    (hdir : IdentityWalk s entry) (hplace : d ∉ s.presentDirs → IdentityWalk s s.placementAddress) :
    linkTable entry s = some (ensureTable d s) := by
  have hload : s.load entry = some (s.pde d) := by
    rw [Paging.load_eq (hdir.translate hcr3 hpaging false), hentry, ← hs.directory]
    rfl
  rw [linkTable, hload, Option.bind_eq_bind, Option.bind_some, ensureTable]
  by_cases hpresent : d ∈ s.presentDirs
  · have h1 := (Paging.mem_presentDirs.mp hpresent).2
    rw [if_neg (by rw [h1]; decide), if_neg (by rw [h1]; decide)]
  · have h0 := absent_of_notMem hd hpresent
    rw [if_pos h0, if_pos h0, newTable_eq hs hB hcr3 hpaging hentry hd hpresent hdir (hplace hpresent)]

/-- Making sure of a table leaves the pages mapped to themselves as they are. -/
theorem ensureTable_identityWalk (hs : DirectoryInv B s) (hB : B ≤ 2 ^ 24) (hd : d < 1024) (h : IdentityWalk s v) :
    IdentityWalk (ensureTable d s) v := by
  obtain ⟨_, _, hkeep⟩ := ensureTable_inv hs hB hd
  obtain ⟨hlt, hlow, hhigh⟩ := hs.walk_words h
  apply h.congr
  rw [ensureTable_kernelDirectory]
  apply Paging.walk_of_loads
  · have hpde := hkeep _ h.slot_mem
    rw [Paging.pde, ensureTable_kernelDirectory] at hpde
    exact hpde
  · by_cases hpresent : d ∈ s.presentDirs
    · rw [ensureTable_of_present hpresent]
      rfl
    · obtain ⟨_, _, _, _, hframe, _⟩ := createTable_spec hs hB hd
      rw [ensureTable_of_absent hd hpresent]
      exact load32_congr (fun x _ _ => hframe x (by omega) (by omega))

@[simp] theorem ensureTable_cr3 (d : ℕ) (s : Paging) : (ensureTable d s).cr3 = s.cr3 := by
  unfold ensureTable
  split <;> rfl

@[simp] theorem ensureTable_cr0 (d : ℕ) (s : Paging) : (ensureTable d s).cr0 = s.cr0 := by
  unfold ensureTable
  split <;> rfl

/-- The table in which a call writes its entry. -/
def AllocCall.table (s : Paging) (c : AllocCall) : U32 :=
  (allocPageEntryPhysical s c.address c.isWriteable c.isKernel).1

variable (c : AllocCall)

theorem AllocCall.table_of_present (h : c.slot ∈ s.presentDirs) : (c.table s).toNat = s.tableAt c.slot := by
  change (ensureTable c.slot s).tableAt c.slot = _
  rw [ensureTable_of_present h]

theorem AllocCall.table_of_absent (hs : DirectoryInv B s) (hB : B ≤ 2 ^ 24) (h : c.slot ∉ s.presentDirs) :
    c.table s = s.placementAddress := by
  obtain ⟨_, htable, _⟩ := createTable_spec hs hB c.slot_lt
  apply BitVec.eq_of_toNat_eq
  change (ensureTable c.slot s).tableAt c.slot = _
  rw [ensureTable_of_absent c.slot_lt h, htable]

/-- The address at which a call writes its entry. -/
def AllocCall.entryAddress (s : Paging) (c : AllocCall) : U32 :=
  c.table s + 4#32 * ((c.address >>> 12) &&& 0x3FF#32)

/-- The state in which a call writes its entry: its table is there and a page is taken. -/
def AllocCall.ready (s : Paging) (c : AllocCall) : Paging :=
  { ensureTable c.slot s with pageBitmap := (findfreePage (ensureTable c.slot s).pageBitmap).2 }

/-- The state with the entry of the call written at physical address `a`. -/
def AllocCall.written (s : Paging) (c : AllocCall) (a : ℕ) : Paging :=
  { c.ready s with mem := store32 (c.ready s).mem a (c.entry s) }

theorem AllocCall.run_eq_written : c.run s = c.written s ((c.table s).toNat + 4 * c.index) := by
  simp only [run, allocPageEntryPhysical, writeEntry_eq, written, ready, entry, ensureTable_pageBitmap, toNat_tabIdx]
  rfl

theorem AllocCall.toNat_entryAddress (hs : DirectoryInv B s) (hB : B ≤ 2 ^ 24) :
    (c.table s).toNat % 4096 = 0 ∧ (c.entryAddress s).toNat = (c.table s).toNat + 4 * c.index := by
  obtain ⟨hinv, hmem, _⟩ := ensureTable_inv hs hB c.slot_lt
  have hal : (c.table s).toNat % 4096 = 0 := (hinv.table _ hmem).1
  have hlt := (c.table s).isLt
  have hidx := c.index_lt
  have htabIdx : ((c.address >>> 12) &&& 0x3FF#32).toNat = c.index := toNat_tabIdx _
  exact ⟨hal, by rw [entryAddress, toNat_word (by omega), htabIdx]⟩

/-- With the directory mapped to itself, a call writes its entry wherever that address leads. -/
theorem AllocCall.exec_of_translate (hs : DirectoryInv B s) (hB : B ≤ 2 ^ 24) (hcr3 : s.cr3 = s.kernelDirectory)
    (hpaging : s.cr0.getLsbD 31 = true) (hdir : IdentityWalk s s.kernelDirectory)
    (hplace : c.slot ∉ s.presentDirs → IdentityWalk s s.placementAddress) {a : ℕ}
    (hstart : (c.ready s).translate (c.entryAddress s) true = some a)
    (hstore : ∀ x write, { c.ready s with mem := store32 (c.ready s).mem a x : Paging }.translate
      (c.entryAddress s) write = some a) :
    c.exec s = some (c.table s, c.written s a) := by
  have hkd := hs.directory
  have hal := hs.aligned
  have hslot := c.slot_lt
  have hentry : (s.kernelDirectory + 4#32 * ((c.address >>> 22) &&& 0x3FF#32)).toNat = B + 4 * c.slot := by
    rw [toNat_word (by change _ + 4 * c.slot < _; omega), hkd]
    rfl
  have hwalk : IdentityWalk s (s.kernelDirectory + 4#32 * ((c.address >>> 22) &&& 0x3FF#32)) := hdir.page (by omega)
  have hwalk' := ensureTable_identityWalk hs hB hslot hwalk
  have hload : (ensureTable c.slot s).load (s.kernelDirectory + 4#32 * ((c.address >>> 22) &&& 0x3FF#32)) =
      some ((ensureTable c.slot s).pde c.slot) := by
    rw [Paging.load_eq (hwalk'.translate (by simp [hcr3]) (by simp [hpaging]) false), hentry, ← hkd,
      ← ensureTable_kernelDirectory c.slot s]
    rfl
  have hlink := linkTable_eq hs hB hcr3 hpaging hentry hslot hwalk hplace
  rw [exec, allocPageEntry]
  simp only [Option.bind_eq_bind, hlink, Option.bind_some, hload]
  change ((c.ready s).setEntry (c.entryAddress s) _ _ _).bind _ = _
  rw [Paging.setEntry_eq hstart hstore, Option.bind_some, writeEntry_eq, written, entry, ← ensureTable_pageBitmap c.slot s]
  rfl

/-- With the directory and its table mapped to themselves, a call for another page returns and does
what its physical accesses would do. -/
theorem AllocCall.exec_eq (hs : DirectoryInv B s) (hB : B ≤ 2 ^ 24) (hcr3 : s.cr3 = s.kernelDirectory)
    (hpaging : s.cr0.getLsbD 31 = true) (hdir : IdentityWalk s s.kernelDirectory)
    (htable : IdentityWalk s (c.table s)) (hpage : c.address.toNat / 4096 ≠ (c.table s).toNat / 4096) :
    c.exec s = some (c.table s, c.run s) := by
  have hidx := c.index_lt
  obtain ⟨hinv, hmem, _⟩ := ensureTable_inv hs hB c.slot_lt
  obtain ⟨halT, hlowT, hhighT⟩ := hinv.table _ hmem
  obtain ⟨_, haddr⟩ := c.toNat_entryAddress hs hB
  have hT : (c.table s).toNat = (ensureTable c.slot s).tableAt c.slot := rfl
  have hself := ensureTable_identityWalk hs hB c.slot_lt (htable.page (v := c.entryAddress s) (by omega))
  have hother : (c.entryAddress s).toNat / 4194304 ≠ c.slot ∨ (c.entryAddress s).toNat / 4096 % 1024 ≠ c.index := by
    rw [c.slot_eq, AllocCall.index]
    omega
  have hdisjoint : (c.entryAddress s).toNat / 4194304 ≠ c.slot →
      (ensureTable c.slot s).tableAt ((c.entryAddress s).toNat / 4194304) ≠ (ensureTable c.slot s).tableAt c.slot :=
    fun hne h => hne (hinv.distinct _ hself.slot_mem _ hmem h)
  obtain ⟨hlt, hlow, hhigh⟩ := hinv.walk_words hself
  have halV := (hinv.table _ hself.slot_mem).1
  have hkdT := hinv.directory
  have hready : IdentityWalk (c.ready s) (c.entryAddress s) := hself.congr rfl
  have hcr3' : (c.ready s).cr3 = (c.ready s).kernelDirectory := by simp [ready, hcr3]
  have hpaging' : (c.ready s).cr0.getLsbD 31 = true := by simp [ready, hpaging]
  rw [c.run_eq_written, ← haddr]
  apply c.exec_of_translate hs hB hcr3 hpaging hdir (fun h => c.table_of_absent hs hB h ▸ htable)
  · exact hready.translate hcr3' hpaging' true
  · intro x write
    -- the entry written is not one of the two that lead to its own page
    apply hready.translate_of_loads hcr3' hpaging'
    · apply load32_store32_of_disjoint x
      change (ensureTable c.slot s).kernelDirectory.toNat + _ + 4 ≤ _ ∨ _ ≤ (ensureTable c.slot s).kernelDirectory.toNat + _
      omega
    · apply load32_store32_of_disjoint x
      change (ensureTable c.slot s).tableAt _ + _ + 4 ≤ _ ∨ _ ≤ (ensureTable c.slot s).tableAt _ + _
      omega

end Call

/-- The kernel is linked at 1 MiB. -/
def imageStart : ℕ := 0x100000

/-- The page of the call belongs to the kernel: its image, the directory, or one of the tables, which
follow each other in memory. -/
def AllocCall.OnKernelPage (s : Paging) (c : AllocCall) : Prop :=
  min imageStart s.kernelDirectory.toNat ≤ c.address.toNat ∧ c.address.toNat < s.placementAddress.toNat

/-- The accesses of the call and of the calls after it reach the tables: the page is none of the
kernel's, and a table that the call creates lies on a page still mapped to itself. -/
structure AllocCall.Reached (s : Paging) (c : AllocCall) : Prop where
  foreign : ¬c.OnKernelPage s
  newTable : Pte.present (s.pde c.slot) = 0 → IdentityWalk s s.placementAddress

/-- The processor walks the kernel's own tables, and these are mapped to themselves. -/
structure KernelReached (B : ℕ) (s : Paging) : Prop where
  directory : DirectoryInv B s
  cr3 : s.cr3 = s.kernelDirectory
  paging : s.cr0.getLsbD 31 = true
  own : ∀ v : U32, B ≤ v.toNat → v.toNat < s.placementAddress.toNat → IdentityWalk s v

section Runs
variable {B : ℕ} {s : Paging} (c : AllocCall)

theorem KernelReached.congr {t : Paging} (h : KernelReached B s) (hmem : t.mem = s.mem)
    (hdir : t.kernelDirectory = s.kernelDirectory) (hplace : t.placementAddress = s.placementAddress)
    (hcr3 : t.cr3 = s.cr3) (hcr0 : t.cr0 = s.cr0) : KernelReached B t := by
  constructor
  · exact h.directory.congr hdir hplace (fun e _ => by simp only [Paging.pde, hmem, hdir])
  · rw [hcr3, hdir, h.cr3]
  · rw [hcr0, h.paging]
  · intro v hlow hhigh
    rw [hplace] at hhigh
    exact (h.own v hlow hhigh).congr (by rw [hmem, hdir])

/-- The page of a reached call is not one that the kernel holds when the call is over. -/
theorem KernelReached.page_ne (h : KernelReached B s) (hB : B ≤ 2 ^ 24) (hc : c.Reached s) {v : U32}
    (hlow : B ≤ v.toNat) (hhigh : v.toNat < (c.run s).placementAddress.toNat) :
    IdentityWalk s v ∧ v.toNat / 4096 ≠ c.address.toNat / 4096 := by
  have hp := h.directory.placement
  have hal := h.directory.aligned
  have hkd := h.directory.directory
  by_cases hold : v.toNat < s.placementAddress.toNat
  · refine ⟨h.own v hlow hold, fun hpage => hc.foreign ⟨?_, ?_⟩⟩ <;> omega
  · have hle := (c.run_placement h.directory hB).2
    have habsent : c.slot ∉ s.presentDirs := by
      intro hpresent
      rw [c.run_placement_of_present hpresent] at hhigh
      exact hold hhigh
    have hwalk : IdentityWalk s v := (hc.newTable (absent_of_notMem c.slot_lt habsent)).page (by omega)
    -- a page mapped to itself has a table, so the page of the call is another one
    refine ⟨hwalk, fun hpage => habsent ?_⟩
    have hslot := hwalk.slot_mem
    rwa [show v.toNat / 4194304 = c.slot by rw [c.slot_eq]; omega] at hslot

/-- A reached call returns, does what its physical accesses would do and keeps the tables reached. -/
theorem KernelReached.step (h : KernelReached B s) (hB : B ≤ 2 ^ 24) (hc : c.Reached s) :
    c.exec s = some (c.table s, c.run s) ∧ KernelReached B (c.run s) := by
  have hp := h.directory.placement
  have hkd := h.directory.directory
  have hinv := c.run_inv h.directory hB
  have htable := hinv.table _ (c.slot_mem_presentDirs h.directory hB)
  have hat : (c.table s).toNat = (c.run s).tableAt c.slot := congrArg BitVec.toNat (c.run_table h.directory hB)
  obtain ⟨hwalk, hpage⟩ := h.page_ne c hB hc (v := c.table s) (by omega) (by omega)
  constructor
  · exact c.exec_eq h.directory hB h.cr3 h.paging (h.own _ (by omega) (by omega)) hwalk (Ne.symm hpage)
  · constructor
    · exact hinv
    · rw [c.run_cr3, c.run_kernelDirectory, h.cr3]
    · rw [c.run_cr0, h.paging]
    · intro v hlow hhigh
      obtain ⟨hv, hne⟩ := h.page_ne c hB hc hlow hhigh
      exact hv.congr (c.run_walk_other h.directory hB hne)

/-- A call above 16 MiB whose table lies below is reached, in the state that start-up leaves and after
other such calls. -/
theorem AllocCall.reached_of_ge (h : KernelReached B s) (hB : B ≤ 2 ^ 24) (hid : IdentityMap B s)
    (haddr : 2 ^ 24 ≤ c.address.toNat) (hroom : (c.run s).placementAddress.toNat ≤ 2 ^ 24) : c.Reached s := by
  have hle := (c.run_placement h.directory hB).1
  constructor
  · rintro ⟨_, hlt⟩
    omega
  · intro habsent
    have hnew := c.run_placement_of_absent h.directory hB habsent
    exact hid.walk (by omega)

theorem execCalls_eq (h : KernelReached B s) (hB : B ≤ 2 ^ 24) (hid : IdentityMap B s) {calls : List AllocCall}
    (haddr : ∀ c ∈ calls, 2 ^ 24 ≤ c.address.toNat) (hroom : (runCalls s calls).placementAddress.toNat ≤ 2 ^ 24) :
    execCalls s calls = some (runCalls s calls) ∧ KernelReached B (runCalls s calls) := by
  induction calls generalizing s with
  | nil => exact ⟨rfl, h⟩
  | cons c calls ih =>
    have hc := haddr c List.mem_cons_self
    have hrest := fun d hd => haddr d (List.mem_cons_of_mem c hd)
    have hgrow := runCalls_placement_ge (c.run_inv h.directory hB) hB calls
    have hreach := c.reached_of_ge h hB hid hc (hgrow.trans hroom)
    obtain ⟨hexec, hnext⟩ := h.step c hB hreach
    rw [execCalls, List.foldlM_cons, hexec]
    exact ih hnext (c.run_identityMap h.directory hB hid hc) hrest hroom

end Runs

theorem bootPaging_paging {memHeap : U32} {s₀ s : Paging} (h : bootPaging memHeap s₀ = some s) :
    s.cr0.getLsbD 31 = true := by
  obtain ⟨_, _, rfl⟩ := Option.map_eq_some_iff.mp h
  rw [BitVec.getLsbD_or]
  exact Bool.or_eq_true_iff.mpr (Or.inr (by decide))

theorem bootPaging_kernelReached {memHeap : U32} {s₀ s : Paging} (hfit : BootFits memHeap)
    (h : bootPaging memHeap s₀ = some s) : KernelReached (pageCeil memHeap.toNat) s := by
  obtain ⟨ht, _, hcr3⟩ := bootPaging_some hfit h
  have hp := ht.placement
  have hroom : pageCeil memHeap.toNat + 5 * 4096 ≤ 2 ^ 24 := hfit
  exact ⟨ht.directoryInv (pageCeil_mod _), hcr3, bootPaging_paging h, fun v _ hv => ht.identityMap.walk (by omega)⟩

/-- Every run after start-up keeps the representation invariant and never relinks a slot; with
room for all 1024 tables below 16 MiB each call returns, and each table it works on is
identity-mapped. -/
theorem runCalls_directory (memHeap : U32) (s₀ s : Paging) (hfit : BootFits memHeap)
    (hboot : bootPaging memHeap s₀ = some s) (calls : List AllocCall)
    (haddr : ∀ c ∈ calls, 2 ^ 24 ≤ c.address.toNat) :
    DirectoryInv (pageCeil memHeap.toNat) (runCalls s calls) ∧
    (∀ later, ∀ d ∈ (runCalls s calls).presentDirs,
      d ∈ (runCalls s (calls ++ later)).presentDirs ∧
        (runCalls s (calls ++ later)).pde d = (runCalls s calls).pde d) ∧
    (pageCeil memHeap.toNat + 1025 * 4096 ≤ 2 ^ 24 →
      execCalls s calls = some (runCalls s calls) ∧ ∀ c : AllocCall,
      let table := c.table (runCalls s calls)
      (2 ^ 24 ≤ c.address.toNat → c.exec (runCalls s calls) = some (table, c.run (runCalls s calls))) ∧
      table.toNat = (c.run (runCalls s calls)).tableAt c.slot ∧
      table.toNat + 4096 ≤ 2 ^ 24 ∧
      ∀ v : U32, table.toNat ≤ v.toNat → v.toNat < table.toNat + 4096 →
        IdentityWalk (runCalls s calls) v) := by
  obtain ⟨ht, _⟩ := bootPaging_some hfit hboot
  have hinv := ht.directoryInv (pageCeil_mod _)
  have hB := hfit.le
  have hrun := runCalls_inv hinv hB calls
  have hid := runCalls_identityMap hinv hB ht.identityMap haddr
  refine ⟨hrun, ?_, ?_⟩
  · intro later d hd
    rw [runCalls_append]
    exact runCalls_pde hrun hB later hd
  · intro hroom
    have hplace := hrun.placement
    have hcard := (runCalls s calls).card_presentDirs_le
    obtain ⟨hexec, hreach⟩ := execCalls_eq (bootPaging_kernelReached hfit hboot) hB ht.identityMap haddr (by omega)
    refine ⟨hexec, fun c => ?_⟩
    have htable : (c.table (runCalls s calls)).toNat = (c.run (runCalls s calls)).tableAt c.slot :=
      congrArg BitVec.toNat (c.run_table hrun hB)
    have hstep := c.run_inv hrun hB
    have hmem := hstep.table _ (c.slot_mem_presentDirs hrun hB)
    have hplace' := hstep.placement
    have hcard' := (c.run (runCalls s calls)).card_presentDirs_le
    refine ⟨?_, htable, by omega, ?_⟩
    · intro hc
      exact (hreach.step c hB (c.reached_of_ge hreach hB hid hc (by omega))).1
    · intro v _ hv
      exact hid.walk (by omega)

theorem runCalls_directory_120000 : ∃ s, bootPaging 0x120000 Paging.blank = some s ∧
    DirectoryInv 0x120000 (runCalls s [⟨0x1000000, 1, 1⟩, ⟨0x1001000, 0, 0⟩, ⟨0xFFFFF000, 1, 0⟩]) := by
  obtain ⟨s, hs, _⟩ := bootPaging_spec 0x120000 Paging.blank bootFits_120000
  have h := runCalls_directory 0x120000 Paging.blank s bootFits_120000 hs
    [⟨0x1000000, 1, 1⟩, ⟨0x1001000, 0, 0⟩, ⟨0xFFFFF000, 1, 0⟩] (by simp)
  exact ⟨s, hs, pageCeil_120000 ▸ h.1⟩

end N7OS
