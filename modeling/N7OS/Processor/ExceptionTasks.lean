import N7OS.Foundation.MemoryFrame
import N7OS.Processor.SegmentTable
import N7OS.Processor.InterruptTable

/-! # Exceptions enter tasks

`setup_idt` and `setup_tss` of `kernel/processor_structs.c`. A gate of the interrupt
table names an entry of the segment table, whose base is the segment of a task; the
processor follows these three tables when it raises a vector.
-/
namespace N7OS
open ByteMemory Execution LastWrite

def accTaskGate : U32 := 0x05#32

/-- The words of `struct x86_tss`, in its order. -/
inductive TssField
  | backLink
  | esp0
  | ss0
  | esp1
  | ss1
  | esp2
  | ss2
  | cr3
  | eip
  | eflags
  | eax
  | ecx
  | edx
  | ebx
  | esp
  | ebp
  | esi
  | edi
  | es
  | cs
  | ss
  | ds
  | fs
  | gs
  | ldt
deriving DecidableEq

def TssField.offset (f : TssField) : ℕ := 4 * f.ctorIdx

/-- The two half-words after them. -/
def traceTrapOffset : ℕ := 100
def ioBitMapOffset : ℕ := 102

/-- The words of the segment at an address. -/
def tssWords (m : Memory) (ts : ℕ) : TssField → U32 := fun f => load32 m (ts + f.offset)

def storeField (m : Memory) (ts : ℕ) (f : TssField) (v : U32) : Memory := store32 m (ts + f.offset) v

/-- Two objects, each with its size, that do not overlap. -/
def Apart (o p : ℕ × ℕ) : Prop := o.1 + o.2 ≤ p.1 ∨ p.1 + p.2 ≤ o.1

/-- The objects of `setup_base`, which the linker keeps apart, and what it has put at `exception_handler_tasks`. -/
structure BaseSymbols extends GdtSymbols where
  idt : ℕ
  trapStack : U32
  firstStack : U32
  exceptionHandlerTasks : ℕ → U32
  tss_le : tss.toNat + sizeofTss ≤ 2 ^ 32
  trap_le : trapTss.toNat + sizeofTss * handlerEntries ≤ 2 ^ 32
  apart : [(gdt, 8 * gdtEntries), (idt, 8 * 256), (tss.toNat, sizeofTss),
    (trapTss.toNat, sizeofTss * handlerEntries)].Pairwise Apart

/-- Objects like those that `kernel.lds` gives. -/
def BaseSymbols.sample : BaseSymbols where
  gdt := 0x120000
  tss := 0x131000#32
  trapTss := 0x132000#32
  idt := 0x130000
  trapStack := 0x140000#32
  firstStack := 0x150000#32
  exceptionHandlerTasks _ := 0x100400#32
  tss_le := by decide
  trap_le := by decide
  apart := by simp [Apart, gdtEntries, handlerEntries, sizeofTss]

/-! ## What the code writes -/

/-- The task of an exception, as the loop of `setup_idt` fills it. -/
def setupTask (l : BaseSymbols) (pgdir : U32) (m : Memory) (i : ℕ) : Memory :=
  let ts := (l.trapTask i).toNat
  let m := storeField m ts .ss0 (kernelDs.setWidth 32)
  let m := storeField m ts .esp0 (l.trapStack + 16384#32)
  let m := storeField m ts .ss (kernelDs.setWidth 32)
  let m := storeField m ts .esp (tssWords m ts .esp0)
  let m := store16 m (ts + ioBitMapOffset) (BitVec.ofNat 16 sizeofTss)
  let m := storeField m ts .cs (kernelCs.setWidth 32)
  let m := storeField m ts .eip (l.exceptionHandlerTasks i)
  let m := storeField m ts .ds (kernelDs.setWidth 32)
  let m := storeField m ts .es (kernelDs.setWidth 32)
  let m := storeField m ts .fs 0#32
  let m := storeField m ts .gs 0#32
  let m := storeField m ts .eflags 2#32
  let m := store16 m (ts + traceTrapOffset) 0#16
  storeField m ts .cr3 pgdir

def taskAccess (i : ℕ) : U32 := accTaskGate + if i = 3 then 0x60#32 else 0#32

def setupIdt (l : BaseSymbols) (pgdir : U32) (m : Memory) : Memory :=
  countedLoop handlerEntries (fun i m =>
    fillGate (setupTask l pgdir m i) (l.idt + 8 * i) 0#32 (trapSelector i) ((taskAccess i).setWidth 8) 0#8)
    (ByteMemory.memset m l.idt 0#8 (8 * 256))

def setupTss (l : BaseSymbols) (pgdir : U32) (m : Memory) : Memory :=
  let ts := l.tss.toNat
  let m := ByteMemory.memset m ts 0#8 sizeofTss
  let m := storeField m ts .ss0 (kernelDs.setWidth 32)
  let m := storeField m ts .esp0 (l.firstStack + 16384#32)
  let m := store16 m (ts + ioBitMapOffset) (BitVec.ofNat 16 sizeofTss)
  storeField m ts .cr3 pgdir

/-- A segment register is loaded: the processor marks the descriptor as accessed. -/
def loadSegment (gdt : ℕ) (sel : U16) (m : Memory) : Memory :=
  store8 m (gdtEntry gdt sel + 5) (m (gdtEntry gdt sel + 5) ||| 0x01#8)

/-- The task register is loaded: the processor marks the task as busy. -/
def loadTask (gdt : ℕ) (sel : U16) (m : Memory) : Memory :=
  store8 m (gdtEntry gdt sel + 5) (m (gdtEntry gdt sel + 5) ||| 0x02#8)

/-- `setup_base` without the ports, with the loads of `cs`, of `ds`, `es` and `ss`, and of the task
register. The selectors of `fs` and `gs` are null. -/
def setupBase (l : BaseSymbols) (pgdir : U32) (m : Memory) : Memory :=
  let m := setupGdt l.toGdtSymbols m
  let m := loadSegment l.gdt kernelDs (loadSegment l.gdt kernelCs m)
  let m := setupIdt l pgdir m
  let m := setupTss l pgdir m
  loadTask l.gdt baseTss m

/-! ## What the processor reads -/

/-- Where a vector leads: to code at an address, or to a task that starts with the words of its segment. -/
inductive Entry
  | code (address : U32)
  | task (selector : U16) (words : TssField → U32)

/-- A present segment of code, accessed or not. -/
def SegmentDescriptor.isCode (d : SegmentDescriptor) : Bool := d.access &&& 0x98#8 == 0x98#8

/-- A present task that is not busy. -/
def SegmentDescriptor.isFreeTask (d : SegmentDescriptor) : Bool := d.access &&& 0x9F#8 == 0x89#8

/-- A gate leads somewhere when it is present, and what it names in the segment table is a code segment
around the offset for an interrupt gate and an available task for a task gate. -/
def enter (m : Memory) (idt gdt : ℕ) (v : IdtVector) : Option Entry :=
  let gate := GateDescriptor.decode (idtTable m idt v)
  let segment := descriptorAt m gdt gate.selector
  if gate.present = 0#1 ∨ gate.s = 1#1 then none
  else if gate.gateType = 0x5#4 then
    if segment.isFreeTask ∧ 103#32 ≤ segment.effectiveLimit then
      some (.task gate.selector (tssWords m segment.base.toNat))
    else none
  else if gate.gateType = 0xE#4 then
    if segment.isCode ∧ gate.offset ≤ segment.effectiveLimit then some (.code (segment.base + gate.offset)) else none
  else none

/-- The privilege level from which an `int` instruction may name the vector. -/
def gateDpl (m : Memory) (idt : ℕ) (v : IdtVector) : BitVec 2 := (GateDescriptor.decode (idtTable m idt v)).dpl

/-- The words that `setup_idt` gives to the task of exception `i`. -/
structure TaskWords (l : BaseSymbols) (pgdir : U32) (i : ℕ) (words : TssField → U32) : Prop where
  eip : words .eip = l.exceptionHandlerTasks i
  esp : words .esp = l.trapStack + 16384#32
  esp0 : words .esp0 = l.trapStack + 16384#32
  eflags : words .eflags = 2#32
  cr3 : words .cr3 = pgdir
  cs : words .cs = 0x10#32
  data : words .ds = 0x18#32 ∧ words .es = 0x18#32 ∧ words .ss = 0x18#32 ∧ words .ss0 = 0x18#32
  null : words .fs = 0#32 ∧ words .gs = 0#32

section
variable {m m' : Memory} {l : BaseSymbols} {pgdir : U32} {ts i j : ℕ} {f g : TssField} {v : U32}

/-! ## The words of a segment -/

theorem offset_inj (h : f.offset = g.offset) : f = g := by
  have hidx : f.ctorIdx = g.ctorIdx := by
    unfold TssField.offset at h
    omega
  rw [← TssField.ofNat_ctorIdx f, hidx, TssField.ofNat_ctorIdx]

theorem offset_le (f : TssField) : f.offset + 4 ≤ traceTrapOffset := by
  cases f <;> decide

theorem tssWords_storeField (m : Memory) (ts : ℕ) (f : TssField) (v : U32) :
    tssWords (storeField m ts f v) ts = Function.update (tssWords m ts) f v := by
  funext g
  by_cases hg : g = f
  · subst hg
    rw [Function.update_self]
    exact load32_store32_same _ _ _
  · have hne : g.offset ≠ f.offset := mt offset_inj hg
    have hword : g.offset + 4 ≤ f.offset ∨ f.offset + 4 ≤ g.offset := by
      unfold TssField.offset at hne ⊢
      omega
    rw [Function.update_of_ne hg]
    exact load32_store32_of_disjoint _ (by omega)

theorem field_subset (ts : ℕ) (f : TssField) : object (ts + f.offset) 4 ⊆ object ts sizeofTss :=
  object_subset (Nat.le_add_right _ _) (by have := offset_le f; unfold traceTrapOffset at this; unfold sizeofTss; omega)

/-- What is written beside the segment does not change its words. -/
theorem tssWords_sameOutside {s : Set ℕ} (h : SameOutside s m m') (hs : Disjoint (object ts sizeofTss) s) :
    tssWords m' ts = tssWords m ts := by
  funext f
  exact h.load32 (hs.mono_left (field_subset ts f))

/-- The half-words lie behind the words. -/
theorem tssWords_store16 (m : Memory) (ts : ℕ) (v : U16) {k : ℕ} (hk : traceTrapOffset ≤ k) :
    tssWords (store16 m (ts + k) v) ts = tssWords m ts := by
  funext f
  have hf := offset_le f
  exact (sameOutside_store16 m (ts + k) v).load32 (object_disjoint (by omega))

theorem sameOutside_storeField (m : Memory) (ts : ℕ) (f : TssField) (v : U32) :
    SameOutside (object ts sizeofTss) m (storeField m ts f v) := (sameOutside_store32 _ _ v).mono (field_subset ts f)

theorem sameOutside_half (m : Memory) (ts : ℕ) (v : U16) {k : ℕ} (hk : k + 2 ≤ sizeofTss) :
    SameOutside (object ts sizeofTss) m (store16 m (ts + k) v) :=
  (sameOutside_store16 _ _ v).mono (object_subset (Nat.le_add_right _ _) (by omega))

/-! ## What is written -/

theorem setupTask_words (l : BaseSymbols) (pgdir : U32) (m : Memory) (i : ℕ) :
    TaskWords l pgdir i (tssWords (setupTask l pgdir m i) (l.trapTask i).toNat) := by
  have hio : traceTrapOffset ≤ ioBitMapOffset := by decide
  unfold setupTask
  simp only [tssWords_storeField, tssWords_store16 _ _ _ le_rfl, tssWords_store16 _ _ _ hio]
  constructor <;> simp [Function.update, kernelDs, kernelCs]

theorem sameOutside_setupTask (l : BaseSymbols) (pgdir : U32) (m : Memory) (i : ℕ) :
    SameOutside (object (l.trapTask i).toNat sizeofTss) m (setupTask l pgdir m i) := by
  have hword := fun m f v => sameOutside_storeField m (l.trapTask i).toNat f v
  have hio := fun m v => sameOutside_half m (l.trapTask i).toNat v (show ioBitMapOffset + 2 ≤ sizeofTss by decide)
  have htrap := fun m v => sameOutside_half m (l.trapTask i).toNat v (show traceTrapOffset + 2 ≤ sizeofTss by decide)
  exact (hword _ _ _).trans <| (hword _ _ _).trans <| (hword _ _ _).trans <| (hword _ _ _).trans <| (hio _ _).trans <|
    (hword _ _ _).trans <| (hword _ _ _).trans <| (hword _ _ _).trans <| (hword _ _ _).trans <| (hword _ _ _).trans <|
    (hword _ _ _).trans <| (hword _ _ _).trans <| (htrap _ _).trans (hword _ _ _)

theorem sameOutside_setupTss (l : BaseSymbols) (pgdir : U32) (m : Memory) :
    SameOutside (object l.tss.toNat sizeofTss) m (setupTss l pgdir m) :=
  (sameOutside_memset _ _ _ _).trans <| (sameOutside_storeField _ _ _ _).trans <|
    (sameOutside_storeField _ _ _ _).trans <| (sameOutside_half _ _ _ (by decide)).trans (sameOutside_storeField _ _ _ _)

/-- The tasks lie one behind the other. -/
theorem toNat_trapTask (l : BaseSymbols) (hi : i < handlerEntries) :
    (l.trapTask i).toNat = l.trapTss.toNat + sizeofTss * i := by
  have hle := l.trap_le
  unfold sizeofTss handlerEntries at *
  rw [GdtSymbols.trapTask, BitVec.toNat_add, BitVec.toNat_ofNat]
  unfold sizeofTss
  omega

/-- The gate of an exception. -/
def taskGate (i : ℕ) : GateDescriptor := accessGate 0#32 (trapSelector i) ((taskAccess i).setWidth 8)

/-- What the loop of `setup_idt` has done for the first `n` exceptions. -/
structure TasksReady (l : BaseSymbols) (pgdir : U32) (n : ℕ) (m : Memory) : Prop where
  words : ∀ i < n, TaskWords l pgdir i (tssWords m (l.trapTask i).toNat)
  gates : ∀ i < n, load64 m (l.idt + 8 * i) = (taskGate i).encode

/-- All objects lie apart. -/
theorem BaseSymbols.disjoint (l : BaseSymbols) :
    (Disjoint (object l.gdt (8 * gdtEntries)) (object l.idt (8 * 256)) ∧
      Disjoint (object l.gdt (8 * gdtEntries)) (object l.tss.toNat sizeofTss) ∧
        Disjoint (object l.gdt (8 * gdtEntries)) (object l.trapTss.toNat (sizeofTss * handlerEntries))) ∧
    (Disjoint (object l.idt (8 * 256)) (object l.tss.toNat sizeofTss) ∧
      Disjoint (object l.idt (8 * 256)) (object l.trapTss.toNat (sizeofTss * handlerEntries))) ∧
    Disjoint (object l.tss.toNat sizeofTss) (object l.trapTss.toNat (sizeofTss * handlerEntries)) := by
  have h := l.apart
  simp only [List.pairwise_cons, List.forall_mem_cons, Apart] at h
  obtain ⟨⟨h1, h2, h3, -⟩, ⟨h4, h5, -⟩, ⟨h6, -⟩, -⟩ := h
  exact ⟨⟨object_disjoint h1, object_disjoint h2, object_disjoint h3⟩, ⟨object_disjoint h4, object_disjoint h5⟩,
    object_disjoint h6⟩

theorem task_subset (l : BaseSymbols) (hi : i < handlerEntries) :
    object (l.trapTask i).toNat sizeofTss ⊆ object l.trapTss.toNat (sizeofTss * handlerEntries) := by
  rw [toNat_trapTask l hi]
  unfold handlerEntries at *
  exact object_subset (by omega) (by unfold sizeofTss; omega)

theorem tasks_disjoint (l : BaseSymbols) (hi : i < handlerEntries) (hj : j < handlerEntries) (hne : i ≠ j) :
    Disjoint (object (l.trapTask i).toNat sizeofTss) (object (l.trapTask j).toNat sizeofTss) := by
  rw [toNat_trapTask l hi, toNat_trapTask l hj]
  exact object_disjoint (by unfold sizeofTss; omega)

theorem gate_subset (idt : ℕ) (hi : i < 256) : object (idt + 8 * i) 8 ⊆ object idt (8 * 256) :=
  object_subset (Nat.le_add_right _ _) (by omega)

theorem TasksReady.step {n : ℕ} (hn : n < handlerEntries) (h : TasksReady l pgdir n m) :
    TasksReady l pgdir (n + 1) (store64 (setupTask l pgdir m n) (l.idt + 8 * n) (taskGate n).encode) := by
  obtain ⟨-, ⟨-, hidt⟩, -⟩ := l.disjoint
  have hlt : n < 256 := hn.trans (by decide)
  have htask := sameOutside_setupTask l pgdir m n
  have hgate := sameOutside_store64 (setupTask l pgdir m n) (l.idt + 8 * n) (taskGate n).encode
  constructor
  · intro i hi
    have hi' : i < handlerEntries := by omega
    have hbeside : Disjoint (object (l.trapTask i).toNat sizeofTss) (object (l.idt + 8 * n) 8) :=
      (hidt.mono (gate_subset _ hlt) (task_subset l hi')).symm
    rw [tssWords_sameOutside hgate hbeside]
    rcases Nat.lt_succ_iff_lt_or_eq.mp hi with hold | rfl
    · rw [tssWords_sameOutside htask (tasks_disjoint l hi' hn (by omega))]
      exact h.words i hold
    · exact setupTask_words l pgdir m i
  · intro i hi
    rcases Nat.lt_succ_iff_lt_or_eq.mp hi with hold | rfl
    · have hbeside : Disjoint (object (l.idt + 8 * i) 8) (object (l.trapTask n).toNat sizeofTss) :=
        hidt.mono (gate_subset _ (by omega)) (task_subset l hn)
      rw [hgate.load64 (object_disjoint (by omega)), htask.load64 hbeside]
      exact h.gates i hold
    · exact load64_store64_same _ _ _

theorem setupIdt_eq (l : BaseSymbols) (pgdir : U32) (m : Memory) :
    setupIdt l pgdir m = countedLoop handlerEntries (fun i m =>
      store64 (setupTask l pgdir m i) (l.idt + 8 * i) (taskGate i).encode) (ByteMemory.memset m l.idt 0#8 (8 * 256)) := by
  unfold setupIdt
  simp only [fillGate_eq]
  rfl

theorem tasksReady_setupIdt (l : BaseSymbols) (pgdir : U32) (m : Memory) :
    TasksReady l pgdir handlerEntries (setupIdt l pgdir m) := by
  rw [setupIdt_eq]
  exact countedLoop_invariant (fun n m => TasksReady l pgdir n m)
    ⟨fun i hi => absurd hi (Nat.not_lt_zero i), fun i hi => absurd hi (Nat.not_lt_zero i)⟩ fun i m hi h => h.step hi

theorem sameOutside_setupIdt (l : BaseSymbols) (pgdir : U32) (m : Memory) :
    SameOutside (object l.idt (8 * 256) ∪ object l.trapTss.toNat (sizeofTss * handlerEntries)) m (setupIdt l pgdir m) := by
  rw [setupIdt_eq]
  refine ((sameOutside_memset _ _ _ _).mono Set.subset_union_left).trans (SameOutside.loop ?_ _)
  intro i hi m
  have hlt : i < 256 := hi.trans (by decide)
  exact ((sameOutside_setupTask l pgdir m i).mono ((task_subset l hi).trans Set.subset_union_right)).trans
    ((sameOutside_store64 _ _ _).mono ((gate_subset _ hlt).trans Set.subset_union_left))

/-- Behind the exceptions the table is empty. -/
theorem idtTable_setupIdt (l : BaseSymbols) (pgdir : U32) (m : Memory) {v : IdtVector} (hv : handlerEntries ≤ v.val) :
    idtTable (setupIdt l pgdir m) l.idt v = 0#64 := by
  obtain ⟨-, ⟨-, hidt⟩, -⟩ := l.disjoint
  have hlt : v.val < 256 := v.isLt
  rw [setupIdt_eq]
  have hloop := SameOutside.loop (s := (object (l.idt + 8 * v.val) 8)ᶜ) (n := handlerEntries)
    (f := fun i m => store64 (setupTask l pgdir m i) (l.idt + 8 * i) (taskGate i).encode) (fun i hi m => ?_)
    (ByteMemory.memset m l.idt 0#8 (8 * 256))
  · rw [idtTable, hloop.load64 disjoint_compl_right]
    exact load64_memset_zero (by omega) (by omega) m
  · have hgate : object (l.idt + 8 * i) 8 ⊆ (object (l.idt + 8 * v.val) 8)ᶜ :=
      Set.subset_compl_iff_disjoint_right.mpr (object_disjoint (by omega))
    have htask : object (l.trapTask i).toNat sizeofTss ⊆ (object (l.idt + 8 * v.val) 8)ᶜ :=
      Set.subset_compl_iff_disjoint_right.mpr (hidt.mono (gate_subset _ hlt) (task_subset l hi)).symm
    exact ((sameOutside_setupTask l pgdir m i).mono htask).trans ((sameOutside_store64 _ _ _).mono hgate)

/-! ## The tables after `setup_base` -/

/-- The kernel's code segment begins at 0. -/
theorem load64_kernelCs (l : GdtSymbols) (m : Memory) :
    load64 (setupGdt l m) (l.gdt + 16) = (segmentDescriptor 0#32 0xFFFFFFFF#32 (accPlK ||| accCodeR) sz32).encode := by
  unfold setupGdt
  simp only [fillDescriptor_eq]
  have hloop := fun m => SameOutside.loop (s := (object (l.gdt + 16) 8)ᶜ) (n := handlerEntries)
    (f := fun i m => store64 m (l.gdt + 8 * (i + trapTssBase.toNat / 8)) (taskDescriptor (l.trapTask i)).encode)
    (fun i _ m => (sameOutside_store64 _ _ _).mono (Set.subset_compl_iff_disjoint_right.mpr
      (object_disjoint (by have : trapTssBase.toNat / 8 = 10 := rfl; omega)))) m
  have hcs : kernelCs.toNat / 8 = 2 := rfl
  have hds : kernelDs.toNat / 8 = 3 := rfl
  have hucs : userCs.toNat / 8 = 8 := rfl
  have huds : userDs.toNat / 8 = 9 := rfl
  refine ((hloop _).load64 disjoint_compl_right).trans ?_
  rw [load64_store64_of_disjoint _ (by omega), load64_store64_of_disjoint _ (by omega),
    load64_store64_of_disjoint _ (by omega)]
  exact load64_store64_same _ _ _

theorem gdtEntry_trapSelector (gdt : ℕ) (hi : i < handlerEntries) : gdtEntry gdt (trapSelector i) = gdt + 80 + 8 * i := by
  have hlt : i < 32 := hi
  have hsel : (trapSelector i).toNat = 80 + 8 * i := by
    rw [trapSelector, trapTssBase, BitVec.toNat_add, BitVec.toNat_ofNat, BitVec.toNat_ofNat]
    omega
  rw [gdtEntry, BitVec.toNat_ushiftRight, Nat.shiftRight_eq_div_pow, hsel]
  omega

/-- The descriptor of the task at an address, which may be busy. -/
structure IsTask (base : U32) (d : SegmentDescriptor) : Prop where
  base : d.base = base
  limit : d.effectiveLimit = 103#32
  access : d.access = 0x89#8 ∨ d.access = 0x8B#8

/-- The descriptor of the kernel's code, which may have been accessed. -/
structure IsKernelCode (d : SegmentDescriptor) : Prop where
  base : d.base = 0#32
  limit : d.effectiveLimit = 0xFFFFFFFF#32
  access : d.access = 0x9A#8 ∨ d.access = 0x9B#8

/-- The entries of the segment table that the gates lead to. -/
structure SegmentsReady (l : GdtSymbols) (m : Memory) : Prop where
  firstTask : IsTask l.tss (descriptorAt m l.gdt baseTss)
  tasks : ∀ i < handlerEntries, IsTask (l.trapTask i) (descriptorAt m l.gdt (trapSelector i))
  kernelCs : IsKernelCode (descriptorAt m l.gdt kernelCs)

/-- What the processor needs of the tables. The words of a task are its own while it is busy. -/
structure TablesReady (l : BaseSymbols) (pgdir : U32) (m : Memory) : Prop where
  segments : SegmentsReady l.toGdtSymbols m
  gates : ∀ i < handlerEntries, load64 m (l.idt + 8 * i) = (taskGate i).encode
  words : ∀ i < handlerEntries, (descriptorAt m l.gdt (trapSelector i)).access = 0x89#8 →
    TaskWords l pgdir i (tssWords m (l.trapTask i).toNat)

/-- The bytes of the tables and of the tasks of the exceptions. -/
def BaseSymbols.tables (l : BaseSymbols) : Set ℕ :=
  object l.gdt (8 * gdtEntries) ∪ object l.idt (8 * 256) ∪ object l.trapTss.toNat (sizeofTss * handlerEntries)

theorem taskDescriptor_access (base : U32) : (taskDescriptor base).access = 0x89#8 :=
  (segmentDescriptor_access _ _ _ _).trans (by decide)

theorem isTask_taskDescriptor (base : U32) : IsTask base (taskDescriptor base) where
  base := segmentDescriptor_base _ _ _ _
  limit := (segmentDescriptor_limit (by decide)).trans (by decide)
  access := .inl (taskDescriptor_access base)

theorem isKernelCode_segmentDescriptor :
    IsKernelCode (segmentDescriptor 0#32 0xFFFFFFFF#32 (accPlK ||| accCodeR) sz32) where
  base := segmentDescriptor_base _ _ _ _
  limit := (segmentDescriptor_limit (by decide)).trans (by decide)
  access := .inl ((segmentDescriptor_access _ _ _ _).trans (by decide))

theorem segmentsReady_setupGdt (l : GdtSymbols) (m : Memory) : SegmentsReady l (setupGdt l m) := by
  obtain ⟨htss, htrap⟩ := load64_setupGdt l m
  have hcs := load64_kernelCs l m
  have hfirst : gdtEntry l.gdt baseTss = l.gdt + 8 := rfl
  have hcode : gdtEntry l.gdt N7OS.kernelCs = l.gdt + 16 := rfl
  constructor
  · rw [descriptorAt, hfirst, htss, SegmentDescriptor.decode_encode]
    exact isTask_taskDescriptor l.tss
  · intro i hi
    rw [descriptorAt, gdtEntry_trapSelector l.gdt hi, htrap i hi, SegmentDescriptor.decode_encode]
    exact isTask_taskDescriptor (l.trapTask i)
  · rw [descriptorAt, hcode, hcs, SegmentDescriptor.decode_encode]
    exact isKernelCode_segmentDescriptor

theorem SegmentsReady.congr {l : GdtSymbols} (h : SegmentsReady l m)
    (hsame : ∀ sel, descriptorAt m' l.gdt sel = descriptorAt m l.gdt sel) : SegmentsReady l m' := by
  constructor
  · rw [hsame]
    exact h.firstTask
  · intro i hi
    rw [hsame]
    exact h.tasks i hi
  · rw [hsame]
    exact h.kernelCs

/-- The marks that the processor makes: accessed on a segment, busy on a task. -/
def IsMark (b : U8) : Prop := b = 0x01#8 ∨ b = 0x02#8

theorem IsTask.mark {base : U32} {d : SegmentDescriptor} (h : IsTask base d) {b : U8} (hb : IsMark b) :
    IsTask base { d with access := d.access ||| b } := by
  refine ⟨h.base, h.limit, ?_⟩
  change d.access ||| b = 0x89#8 ∨ d.access ||| b = 0x8B#8
  rcases h.access with ha | ha <;> rcases hb with rfl | rfl <;> rw [ha] <;> decide

theorem IsKernelCode.mark {d : SegmentDescriptor} (h : IsKernelCode d) {b : U8} (hb : IsMark b) :
    IsKernelCode { d with access := d.access ||| b } := by
  refine ⟨h.base, h.limit, ?_⟩
  change d.access ||| b = 0x9A#8 ∨ d.access ||| b = 0x9B#8
  rcases h.access with ha | ha <;> rcases hb with rfl | rfl <;> rw [ha] <;> decide

theorem SegmentsReady.mark {l : GdtSymbols} (h : SegmentsReady l m) (sel : U16) {b : U8} (hb : IsMark b) :
    SegmentsReady l (store8 m (gdtEntry l.gdt sel + 5) (m (gdtEntry l.gdt sel + 5) ||| b)) := by
  constructor
  · rw [descriptorAt_mark]
    split
    · exact h.firstTask.mark hb
    · exact h.firstTask
  · intro i hi
    rw [descriptorAt_mark]
    split
    · exact (h.tasks i hi).mark hb
    · exact h.tasks i hi
  · rw [descriptorAt_mark]
    split
    · exact h.kernelCs.mark hb
    · exact h.kernelCs

theorem entry_subset (gdt : ℕ) (sel : U16) : object (gdtEntry gdt sel) 8 ⊆ object gdt (8 * gdtEntries) := by
  have hsel := sel_lt sel
  unfold gdtEntry
  exact object_subset (by omega) (by omega)

theorem access_subset (gdt : ℕ) (sel : U16) : object (gdtEntry gdt sel + 5) 1 ⊆ object gdt (8 * gdtEntries) :=
  (object_subset (by omega) (by omega)).trans (entry_subset gdt sel)

theorem descriptorAt_sameOutside {s : Set ℕ} {gdt : ℕ} (h : SameOutside s m m')
    (hs : Disjoint (object gdt (8 * gdtEntries)) s) (sel : U16) : descriptorAt m' gdt sel = descriptorAt m gdt sel :=
  congrArg SegmentDescriptor.decode (h.load64 (hs.mono_left (entry_subset gdt sel)))

theorem sameOutside_store8 (m : Memory) (a : ℕ) (b : U8) : SameOutside (object a 1) m (store8 m a b) := by
  intro x hx
  have hout := notMem_object.mp hx
  exact Function.update_of_ne (by omega) _ _

/-- What is written behind the segment table does not change it. -/
theorem descriptorAt_setupBase (l : BaseSymbols) (pgdir : U32) (m : Memory) (sel : U16) :
    descriptorAt (setupBase l pgdir m) l.gdt sel =
      descriptorAt (loadTask l.gdt baseTss (loadSegment l.gdt kernelDs (loadSegment l.gdt N7OS.kernelCs
        (setupGdt l.toGdtSymbols m)))) l.gdt sel := by
  obtain ⟨⟨hgdtIdt, hgdtTss, hgdtTrap⟩, -, -⟩ := l.disjoint
  set m₁ := loadSegment l.gdt kernelDs (loadSegment l.gdt N7OS.kernelCs (setupGdt l.toGdtSymbols m)) with hm₁
  have hbehind : ∀ sel, descriptorAt (setupTss l pgdir (setupIdt l pgdir m₁)) l.gdt sel = descriptorAt m₁ l.gdt sel := by
    intro sel
    rw [descriptorAt_sameOutside (sameOutside_setupTss l pgdir _) hgdtTss,
      descriptorAt_sameOutside (sameOutside_setupIdt l pgdir m₁) (Set.disjoint_union_right.mpr ⟨hgdtIdt, hgdtTrap⟩)]
  rw [setupBase, ← hm₁, loadTask, loadTask, descriptorAt_mark, descriptorAt_mark, hbehind]

theorem tablesReady_setupBase (l : BaseSymbols) (pgdir : U32) (m : Memory) : TablesReady l pgdir (setupBase l pgdir m) := by
  obtain ⟨⟨hgdtIdt, -, hgdtTrap⟩, ⟨hidtTss, -⟩, htssTrap⟩ := l.disjoint
  set m₁ := loadSegment l.gdt kernelDs (loadSegment l.gdt N7OS.kernelCs (setupGdt l.toGdtSymbols m)) with hm₁
  have htasks := tasksReady_setupIdt l pgdir m₁
  have htss := sameOutside_setupTss l pgdir (setupIdt l pgdir m₁)
  have hbusy : SameOutside (object (gdtEntry l.gdt baseTss + 5) 1) (setupTss l pgdir (setupIdt l pgdir m₁))
      (setupBase l pgdir m) := sameOutside_store8 _ _ _
  have haccess := access_subset l.gdt baseTss
  have hloaded : SegmentsReady l.toGdtSymbols m₁ :=
    ((segmentsReady_setupGdt l.toGdtSymbols m).mark _ (.inl rfl)).mark _ (.inl rfl)
  constructor
  · exact (hloaded.mark baseTss (.inr rfl)).congr (descriptorAt_setupBase l pgdir m)
  · intro i hi
    have hgate := gate_subset l.idt (hi.trans (by decide : handlerEntries < 256))
    rw [hbusy.load64 ((hgdtIdt.symm.mono_left hgate).mono_right haccess), htss.load64 (hidtTss.mono_left hgate)]
    exact htasks.gates i hi
  · intro i hi _
    have hsub := task_subset l hi
    rw [tssWords_sameOutside hbusy ((hgdtTrap.symm.mono_left hsub).mono_right haccess),
      tssWords_sameOutside htss (htssTrap.symm.mono_left hsub)]
    exact htasks.words i hi

/-- The task of the boot is busy from the start. -/
theorem firstTask_setupBase (l : BaseSymbols) (pgdir : U32) (m : Memory) :
    (descriptorAt (setupBase l pgdir m) l.gdt baseTss).access = 0x8B#8 := by
  obtain ⟨htss, -⟩ := load64_setupGdt l.toGdtSymbols m
  have hcs : ¬N7OS.kernelCs >>> 3 = baseTss >>> 3 := by decide
  have hds : ¬kernelDs >>> 3 = baseTss >>> 3 := by decide
  have hentry : gdtEntry l.gdt baseTss = l.gdt + 8 := rfl
  rw [descriptorAt_setupBase, loadTask, descriptorAt_mark, if_pos rfl, loadSegment, descriptorAt_mark, if_neg hds,
    loadSegment, descriptorAt_mark, if_neg hcs, descriptorAt, hentry, htss, SegmentDescriptor.decode_encode]
  change (taskDescriptor l.tss).access ||| 0x02#8 = 0x8B#8
  rw [taskDescriptor_access]
  rfl

/-- Those of the exceptions are free. -/
theorem freeTask_setupBase (l : BaseSymbols) (pgdir : U32) (m : Memory) (hi : i < handlerEntries) :
    (descriptorAt (setupBase l pgdir m) l.gdt (trapSelector i)).access = 0x89#8 := by
  obtain ⟨-, htrap⟩ := load64_setupGdt l.toGdtSymbols m
  have hbehind : ∀ sel : U16, (sel >>> 3).toNat < 10 → ¬sel >>> 3 = trapSelector i >>> 3 := by
    intro sel hsel heq
    have hentry := gdtEntry_trapSelector 0 hi
    rw [gdtEntry, ← heq] at hentry
    omega
  rw [descriptorAt_setupBase, loadTask, descriptorAt_mark, if_neg (hbehind _ (by decide)), loadSegment, descriptorAt_mark,
    if_neg (hbehind _ (by decide)), loadSegment, descriptorAt_mark, if_neg (hbehind _ (by decide)), descriptorAt,
    gdtEntry_trapSelector l.gdt hi, htrap i hi, SegmentDescriptor.decode_encode]
  exact taskDescriptor_access _

theorem idtTable_setupBase (l : BaseSymbols) (pgdir : U32) (m : Memory) {v : IdtVector} (hv : handlerEntries ≤ v.val) :
    idtTable (setupBase l pgdir m) l.idt v = 0#64 := by
  obtain ⟨⟨hgdtIdt, -, -⟩, ⟨hidtTss, -⟩, -⟩ := l.disjoint
  have hgate := gate_subset l.idt v.isLt
  rw [← idtTable_setupIdt l pgdir (loadSegment l.gdt kernelDs (loadSegment l.gdt N7OS.kernelCs (setupGdt l.toGdtSymbols m))) hv]
  exact ((sameOutside_store8 _ _ _).load64 ((hgdtIdt.symm.mono_left hgate).mono_right (access_subset _ _))).trans
    ((sameOutside_setupTss l pgdir _).load64 (hidtTss.mono_left hgate))

theorem taskGate_fields (i : ℕ) : (taskGate i).present = 1#1 ∧ (taskGate i).s = 0#1 ∧ (taskGate i).gateType = 0x5#4 ∧
    (taskGate i).dpl = if i = 3 then 3#2 else 0#2 := by
  unfold taskGate taskAccess
  split <;> exact ⟨rfl, rfl, rfl, rfl⟩

/-! ## Where a vector leads -/

/-- A task gate leads to its task, through the segment table, unless the task is busy. -/
theorem enter_task {v : IdtVector} (h : TablesReady l pgdir m) (hi : i < handlerEntries)
    (hgate : idtTable m l.idt v = (taskGate i).encode) :
    enter m l.idt l.gdt v = if (descriptorAt m l.gdt (trapSelector i)).access = 0x89#8 then
      some (.task (trapSelector i) (tssWords m (l.trapTask i).toNat)) else none := by
  obtain ⟨hpresent, hs, htype, -⟩ := taskGate_fields i
  have hselector : (taskGate i).selector = trapSelector i := rfl
  obtain ⟨hbase, hlimit, haccess⟩ := h.segments.tasks i hi
  unfold enter
  simp only [hgate, GateDescriptor.decode_encode, hpresent, hs, htype, hselector, hbase, hlimit,
    SegmentDescriptor.isFreeTask]
  rcases haccess with ha | ha <;> rw [ha] <;> rfl

/-- An interrupt gate leads to the code that was installed. -/
theorem enter_code {v : IdtVector} (h : TablesReady l pgdir m) {c : Installation} (hgate : idtTable m l.idt v = c.gate.encode) :
    enter m l.idt l.gdt v = some (.code c.gate.offset) := by
  obtain ⟨hbase, hlimit, haccess⟩ := h.segments.kernelCs
  have hfields : c.gate.present = 1#1 ∧ c.gate.s = 0#1 ∧ c.gate.gateType = 0xE#4 ∧ c.gate.selector = N7OS.kernelCs := by
    cases c with
    | initIdtEntry n handler => exact ⟨rfl, rfl, rfl, rfl⟩
    | initIrqEntry n addr => exact ⟨rfl, rfl, rfl, rfl⟩
  obtain ⟨hpresent, hs, htype, hselector⟩ := hfields
  have hle : c.gate.offset ≤ 0xFFFFFFFF#32 := by
    have hlt := c.gate.offset.isLt
    rw [BitVec.le_def]
    exact Nat.le_of_lt_succ hlt
  have hcode : (descriptorAt m l.gdt N7OS.kernelCs).isCode = true := by
    rw [SegmentDescriptor.isCode]
    rcases haccess with ha | ha <;> rw [ha] <;> rfl
  unfold enter
  simp only [hgate, GateDescriptor.decode_encode, hpresent, hs, htype, hselector, hbase, hlimit, hcode]
  simp [hle]

theorem enter_none {v : IdtVector} {idt gdt : ℕ} (hgate : idtTable m idt v = 0#64) : enter m idt gdt v = none := by
  unfold enter
  rw [hgate]
  exact if_pos (.inl (by decide))

end

end N7OS
