import Mathlib.Data.List.Induction
import N7OS.Processor.ExceptionTasks

/-! # The tables while the kernel runs

What happens to the tables after `setup_base`: handlers are installed, the processor marks
the segments that it loads, paging is switched on, and an exception switches to its task,
from which `trap_handler` never returns.
-/
namespace N7OS
open ByteMemory Execution LastWrite

/-- The tasks there are: the one of the boot, and those of the exceptions. -/
inductive Task
  | first
  | trap (j : Fin handlerEntries)
deriving DecidableEq

namespace Task

def selector : Task → U16
  | first => baseTss
  | trap j => trapSelector j

def segment (l : BaseSymbols) : Task → U32
  | first => l.tss
  | trap j => l.trapTask j

end Task

/-- The words of its segment where the registers of a task are saved. -/
def savedFields : List TssField :=
  [.eip, .eflags, .eax, .ecx, .edx, .ebx, .esp, .ebp, .esi, .edi, .es, .cs, .ss, .ds, .fs, .gs]

def saveAll (ts : ℕ) (registers : TssField → U32) (fs : List TssField) (m : Memory) : Memory :=
  fs.foldl (fun m f => storeField m ts f (registers f)) m

def segmentBase (m : Memory) (gdt : ℕ) (sel : U16) : ℕ := (descriptorAt m gdt sel).base.toNat

/-- The memory behind the addresses that the kernel uses, and the registers that a task switch changes beside those
that it saves. -/
structure TaskState where
  mem : Memory
  tr : U16
  paging : Bool
  cr3 : U32

/-- The processor leaves its task for `new`, which becomes busy; with paging it goes over to the directory of the new task. -/
def switchTask (gdt : ℕ) (new : U16) (registers : TssField → U32) (s : TaskState) : TaskState :=
  let m := saveAll (segmentBase s.mem gdt s.tr) registers savedFields s.mem
  let m := store16 m (segmentBase s.mem gdt new + TssField.backLink.offset) s.tr
  { s with
    mem := loadTask gdt new m
    tr := new
    cr3 := if s.paging then tssWords s.mem (segmentBase s.mem gdt new) .cr3 else s.cr3 }

/-- What concerns the tables. -/
inductive TaskEvent
  | store
  | install (c : Installation)
  | loadSegment (sel : U16)
  | pagingOn (pgdir : U32)
  | exception (i : Fin handlerEntries) (registers : TssField → U32)

/-- The vector of an exception. -/
def exceptionVector (i : Fin handlerEntries) : IdtVector := i.castLE (by decide)

/-- A step of the kernel. The only other stores to the tables and to the tasks of the exceptions are the processor's own; an
exception is followed only as far as the kernel's addresses lead to the same memory as before. -/
inductive TaskStep (l : BaseSymbols) (s : TaskState) : TaskEvent → TaskState → Prop
  | store {m : Memory} : Set.EqOn m s.mem l.tables → TaskStep l s .store { s with mem := m }
  | install {c : Installation} :
      handlerEntries ≤ c.vector.val → TaskStep l s (.install c) { s with mem := c.run l.idt s.mem }
  | loadSegment (sel : U16) : TaskStep l s (.loadSegment sel) { s with mem := loadSegment l.gdt sel s.mem }
  | pagingOn (pgdir : U32) : TaskStep l s (.pagingOn pgdir) { s with paging := true, cr3 := pgdir }
  | exception {i : Fin handlerEntries} {sel : U16} {words : TssField → U32} (registers : TssField → U32) :
      enter s.mem l.idt l.gdt (exceptionVector i) = some (.task sel words) →
        (switchTask l.gdt sel registers s).cr3 = s.cr3 → TaskStep l s (.exception i registers) (switchTask l.gdt sel registers s)

/-- After `setup_base`. -/
def bootTask (l : BaseSymbols) (pgdir cr3 : U32) (m : Memory) : TaskState := ⟨setupBase l pgdir m, baseTss, false, cr3⟩

/-- The handlers that a run has installed. -/
def installations (tr : List TaskEvent) : List Installation :=
  tr.filterMap fun | .install c => some c | _ => none

/-- The tasks that a run has gone through. -/
def entered (tr : List TaskEvent) : List Task :=
  Task.first :: tr.filterMap fun | .exception i _ => some (.trap i) | _ => none

/-- The last of them. -/
def currentTask (tr : List TaskEvent) : Task := (entered tr).getLastD .first

section
variable {l : BaseSymbols} {pgdir : U32} {m m' : Memory} {registers : TssField → U32} {ts i j : ℕ} {o p : Task}
  {past : List TaskEvent} {s t : TaskState} {a : TaskEvent}

/-! ## What a run has done -/

theorem installations_append (past : List TaskEvent) (a : TaskEvent) :
    installations (past ++ [a]) = installations past ++ installations [a] := List.filterMap_append

theorem entered_append (past : List TaskEvent) (a : TaskEvent) :
    entered (past ++ [a]) = entered past ++ (entered [a]).tail := by
  rw [entered, List.filterMap_append]
  rfl

theorem currentTask_exception (past : List TaskEvent) (i : Fin handlerEntries) (registers : TssField → U32) :
    currentTask (past ++ [.exception i registers]) = .trap i := by
  rw [currentTask, entered_append]
  exact List.getLastD_concat

theorem currentTask_mem (past : List TaskEvent) : currentTask past ∈ entered past := by
  rw [currentTask, entered, List.getLastD_cons]
  exact List.getLastD_mem_cons

/-! ## Tasks and their selectors -/

theorem selector_inj (h : o.selector >>> 3 = p.selector >>> 3) : o = p := by
  have hindex : ∀ q : Task, (q.selector >>> 3).toNat = match q with | .first => 1 | .trap j => 10 + j.val := by
    intro q
    cases q with
    | first => rfl
    | trap j =>
      have hentry := gdtEntry_trapSelector 0 j.isLt
      unfold gdtEntry at hentry
      change (trapSelector j >>> 3).toNat = 10 + j.val
      omega
  have heq := congrArg BitVec.toNat h
  rw [hindex, hindex] at heq
  cases o <;> cases p
  · rfl
  · simp only at heq
    omega
  · simp only at heq
    omega
  · exact congrArg Task.trap (Fin.ext (Nat.add_left_cancel heq))

/-- A task has its segment apart from the tables, and from that of any other task. -/
theorem segment_apart (l : BaseSymbols) (o : Task) :
    (Disjoint (object (o.segment l).toNat sizeofTss) (object l.gdt (8 * gdtEntries)) ∧
      Disjoint (object (o.segment l).toNat sizeofTss) (object l.idt (8 * 256))) ∧
      ∀ p : Task, p ≠ o → Disjoint (object (o.segment l).toNat sizeofTss) (object (p.segment l).toNat sizeofTss) := by
  obtain ⟨⟨-, hgdtTss, hgdtTrap⟩, ⟨hidtTss, hidtTrap⟩, htssTrap⟩ := l.disjoint
  cases o with
  | first =>
    refine ⟨⟨hgdtTss.symm, hidtTss.symm⟩, ?_⟩
    intro p hp
    cases p with
    | first => exact absurd rfl hp
    | trap j => exact htssTrap.mono_right (task_subset l j.isLt)
  | trap i =>
    refine ⟨⟨(hgdtTrap.mono_right (task_subset l i.isLt)).symm, (hidtTrap.mono_right (task_subset l i.isLt)).symm⟩, ?_⟩
    intro p hp
    cases p with
    | first => exact (htssTrap.mono_right (task_subset l i.isLt)).symm
    | trap j => exact tasks_disjoint l i.isLt j.isLt fun hij => hp (congrArg Task.trap (Fin.ext hij).symm)

theorem isTask_segment (h : SegmentsReady l.toGdtSymbols m) (o : Task) :
    IsTask (o.segment l) (descriptorAt m l.gdt o.selector) := by
  cases o with
  | first => exact h.firstTask
  | trap j => exact h.tasks j j.isLt

theorem segmentBase_eq (h : SegmentsReady l.toGdtSymbols m) (o : Task) :
    segmentBase m l.gdt o.selector = (o.segment l).toNat := congrArg BitVec.toNat (isTask_segment h o).base

/-- The access bytes when a task becomes busy. -/
theorem access_loadTask (gdt : ℕ) (m : Memory) (o p : Task) :
    (descriptorAt (loadTask gdt p.selector m) gdt o.selector).access =
      if o = p then (descriptorAt m gdt o.selector).access ||| 0x02#8 else (descriptorAt m gdt o.selector).access := by
  rw [loadTask, descriptorAt_mark]
  by_cases h : o = p
  · rw [if_pos h, if_pos (congrArg (Task.selector · >>> 3) h.symm)]
  · rw [if_neg h, if_neg fun heq => h (selector_inj heq).symm]

/-! ## The registers that are saved -/

theorem tssWords_saveAll (fs : List TssField) (m : Memory) (ts : ℕ) (registers : TssField → U32) :
    tssWords (saveAll ts registers fs m) ts = fun f => if f ∈ fs then registers f else tssWords m ts f := by
  induction fs generalizing m with
  | nil => simp [saveAll]
  | cons g fs ih =>
    have hrest := ih (storeField m ts g (registers g))
    funext f
    rw [saveAll, List.foldl_cons, ← saveAll, hrest, tssWords_storeField]
    by_cases hf : f ∈ fs
    · simp [hf]
    · by_cases hfg : f = g
      · simp [hfg]
      · simp [hf, hfg]

theorem sameOutside_saveAll (fs : List TssField) (m : Memory) (ts : ℕ) (registers : TssField → U32) :
    SameOutside (object ts sizeofTss) m (saveAll ts registers fs m) := by
  induction fs generalizing m with
  | nil => exact .refl _ m
  | cons g fs ih => exact (sameOutside_storeField m ts g _).trans (ih _)

/-! ## What a switch leaves as it was -/

/-- The two segments are written, and the access byte of the new task. -/
theorem switchTask_mem (h : SegmentsReady l.toGdtSymbols s.mem) (htr : s.tr = o.selector) (p : Task)
    (registers : TssField → U32) :
    ∃ m₁ m₂, SameOutside (object (o.segment l).toNat sizeofTss) s.mem m₁ ∧
      m₁ = saveAll (o.segment l).toNat registers savedFields s.mem ∧
      SameOutside (object (p.segment l).toNat sizeofTss) m₁ m₂ ∧
      m₂ = store16 m₁ ((p.segment l).toNat + TssField.backLink.offset) o.selector ∧
      (switchTask l.gdt p.selector registers s).mem = loadTask l.gdt p.selector m₂ := by
  refine ⟨_, _, sameOutside_saveAll savedFields s.mem _ registers, rfl,
    sameOutside_half _ _ o.selector (show TssField.backLink.offset + 2 ≤ sizeofTss by decide), rfl, ?_⟩
  unfold switchTask
  rw [htr, segmentBase_eq h, segmentBase_eq h]

theorem switchTask_cr3 (gdt : ℕ) (new : U16) (registers : TssField → U32) (h : s.paging = false) :
    (switchTask gdt new registers s).cr3 = s.cr3 := if_neg (by simp [h])

theorem sameOutside_loadTask (gdt : ℕ) (sel : U16) (m : Memory) :
    SameOutside (object gdt (8 * gdtEntries)) m (loadTask gdt sel m) :=
  (sameOutside_store8 _ _ _).mono (access_subset gdt sel)

theorem sameOutside_loadSegment (gdt : ℕ) (sel : U16) (m : Memory) :
    SameOutside (object gdt (8 * gdtEntries)) m (loadSegment gdt sel m) :=
  (sameOutside_store8 _ _ _).mono (access_subset gdt sel)

/-! ## The invariant -/

/-- The tables after a run: the segments and the gates of `setup_base`, the handlers that were installed last, and as
busy tasks those that were entered. -/
structure TaskInvariant (l : BaseSymbols) (pgdir : U32) (past : List TaskEvent) (s : TaskState) : Prop where
  ready : TablesReady l pgdir s.mem
  installed : ∀ v : IdtVector, handlerEntries ≤ v.val →
    idtTable s.mem l.idt v = ((lastAt Installation.vector v (installations past)).map fun c => c.gate.encode).getD 0#64
  access : ∀ o : Task, (descriptorAt s.mem l.gdt o.selector).access = if o ∈ entered past then 0x8B#8 else 0x89#8
  current : s.tr = (currentTask past).selector

/-- The rule for an event that is no installation and no exception. -/
theorem TaskInvariant.keep (h : TaskInvariant l pgdir past s) (hinstall : installations [a] = [])
    (hentered : entered [a] = [.first]) (htr : t.tr = s.tr) (hsegments : SegmentsReady l.toGdtSymbols t.mem)
    (hgates : ∀ v : IdtVector, idtTable t.mem l.idt v = idtTable s.mem l.idt v)
    (hwords : ∀ j < handlerEntries, tssWords t.mem (l.trapTask j).toNat = tssWords s.mem (l.trapTask j).toNat)
    (haccess : ∀ o : Task, (descriptorAt t.mem l.gdt o.selector).access = (descriptorAt s.mem l.gdt o.selector).access) :
    TaskInvariant l pgdir (past ++ [a]) t := by
  have htasks : entered (past ++ [a]) = entered past := by
    rw [entered_append, hentered, List.tail_cons, List.append_nil]
  constructor
  · refine ⟨hsegments, ?_, ?_⟩
    · intro i hi
      exact (hgates ⟨i, hi.trans (by decide)⟩).trans (h.ready.gates i hi)
    · intro i hi hfree
      rw [hwords i hi]
      exact h.ready.words i hi ((haccess (.trap ⟨i, hi⟩)).symm.trans hfree)
  · intro v hv
    rw [hgates, installations_append, hinstall, List.append_nil]
    exact h.installed v hv
  · intro o
    rw [htasks, haccess]
    exact h.access o
  · rw [htr, currentTask, htasks]
    exact h.current

theorem TaskInvariant.store (h : TaskInvariant l pgdir past s) (hsame : Set.EqOn m s.mem l.tables) :
    TaskInvariant l pgdir (past ++ [.store]) { s with mem := m } := by
  have hout : SameOutside l.tablesᶜ s.mem m := by rwa [SameOutside, compl_compl]
  have hbeside : ∀ {b : Set ℕ}, b ⊆ l.tables → Disjoint b l.tablesᶜ := fun hb =>
    Set.disjoint_compl_right_iff_subset.mpr hb
  have hdescriptor := descriptorAt_sameOutside hout
    (hbeside (Set.subset_union_left.trans Set.subset_union_left : object l.gdt (8 * gdtEntries) ⊆ l.tables))
  refine h.keep rfl rfl rfl (h.ready.segments.congr hdescriptor) ?_ ?_ ?_
  · intro v
    exact hout.load64 (hbeside ((gate_subset _ v.isLt).trans (Set.subset_union_right.trans Set.subset_union_left)))
  · intro j hj
    exact tssWords_sameOutside hout (hbeside ((task_subset l hj).trans Set.subset_union_right))
  · intro o
    exact congrArg SegmentDescriptor.access (hdescriptor o.selector)

theorem TaskInvariant.loadSegment (h : TaskInvariant l pgdir past s) (sel : U16) :
    TaskInvariant l pgdir (past ++ [.loadSegment sel]) { s with mem := loadSegment l.gdt sel s.mem } := by
  obtain ⟨⟨hgdtIdt, -, hgdtTrap⟩, -, -⟩ := l.disjoint
  have hout := sameOutside_loadSegment l.gdt sel s.mem
  refine h.keep rfl rfl rfl (h.ready.segments.mark sel (.inl rfl)) ?_ ?_ ?_
  · intro v
    exact hout.load64 (hgdtIdt.symm.mono_left (gate_subset _ v.isLt))
  · intro j hj
    exact tssWords_sameOutside hout (hgdtTrap.symm.mono_left (task_subset l hj))
  · intro o
    -- the bit is set in the byte of a task already
    have htask := (isTask_segment h.ready.segments o).access
    simp only [N7OS.loadSegment]
    rw [descriptorAt_mark]
    split
    · change (descriptorAt s.mem l.gdt o.selector).access ||| 0x01#8 = _
      rcases htask with ha | ha <;> rw [ha] <;> rfl
    · rfl

theorem TaskInvariant.install (h : TaskInvariant l pgdir past s) {c : Installation} (hc : handlerEntries ≤ c.vector.val) :
    TaskInvariant l pgdir (past ++ [.install c]) { s with mem := c.run l.idt s.mem } := by
  obtain ⟨⟨hgdtIdt, -, -⟩, ⟨-, hidtTrap⟩, -⟩ := l.disjoint
  have hout : SameOutside (object l.idt (8 * 256)) s.mem (c.run l.idt s.mem) := by
    rw [installation_run]
    exact (sameOutside_store64 _ _ _).mono (gate_subset _ c.vector.isLt)
  have hdescriptor := descriptorAt_sameOutside hout hgdtIdt
  have htasks : entered (past ++ [.install c]) = entered past := by
    rw [entered_append]
    exact List.append_nil _
  have hgates : ∀ v : IdtVector, idtTable (c.run l.idt s.mem) l.idt v =
      if c.vector = v then c.gate.encode else idtTable s.mem l.idt v := by
    intro v
    rw [idtTable_run, Function.update_apply]
    exact if_congr eq_comm rfl rfl
  constructor
  · refine ⟨h.ready.segments.congr hdescriptor, ?_, ?_⟩
    · intro i hi
      have hne : c.vector ≠ ⟨i, hi.trans (by decide)⟩ := by
        rintro heq
        rw [heq] at hc
        exact absurd hi (Nat.not_lt.mpr hc)
      have hread := hgates ⟨i, hi.trans (by decide)⟩
      rw [if_neg hne] at hread
      exact hread.trans (h.ready.gates i hi)
    · intro i hi hfree
      rw [tssWords_sameOutside hout (hidtTrap.symm.mono_left (task_subset l hi))]
      exact h.ready.words i hi ((congrArg SegmentDescriptor.access (hdescriptor _)).symm.trans hfree)
  · intro v hv
    have happend : installations (past ++ [.install c]) = installations past ++ [c] := installations_append past _
    rw [hgates, happend, lastAt_append]
    split
    · rfl
    · exact h.installed v hv
  · intro o
    rw [htasks, hdescriptor]
    exact h.access o
  · rw [currentTask, htasks]
    exact h.current

/-- An exception finds its task free, which it has never entered before. -/
theorem TaskInvariant.enter (h : TaskInvariant l pgdir past s) (i : Fin handlerEntries) :
    enter s.mem l.idt l.gdt (exceptionVector i) = if Task.trap i ∈ entered past then none
      else some (.task (trapSelector i) (tssWords s.mem (l.trapTask i).toNat)) := by
  have haccess : (descriptorAt s.mem l.gdt (trapSelector i)).access = _ := h.access (.trap i)
  have hgate : idtTable s.mem l.idt (exceptionVector i) = (taskGate i).encode := h.ready.gates i i.isLt
  rw [enter_task h.ready i.isLt hgate, haccess]
  by_cases hmem : Task.trap i ∈ entered past
  · rw [if_pos hmem, if_pos hmem]
    rfl
  · rw [if_neg hmem, if_neg hmem]
    rfl

theorem TaskInvariant.exception (h : TaskInvariant l pgdir past s) {i : Fin handlerEntries}
    (hfree : Task.trap i ∉ entered past) (registers : TssField → U32) :
    TaskInvariant l pgdir (past ++ [.exception i registers]) (switchTask l.gdt (trapSelector i) registers s) := by
  have hcurrent := currentTask_mem past
  obtain ⟨m₁, m₂, hsaved, -, hlinked, -, hmem⟩ := switchTask_mem h.ready.segments h.current (.trap i) registers
  obtain ⟨⟨hgdt, hidt⟩, hothers⟩ := segment_apart l (currentTask past)
  obtain ⟨⟨hgdt', hidt'⟩, hothers'⟩ := segment_apart l (.trap i)
  have hmem : (switchTask l.gdt (trapSelector i) registers s).mem = loadTask l.gdt (trapSelector i) m₂ := hmem
  have hbusy := sameOutside_loadTask l.gdt (trapSelector i) m₂
  have hdescriptor : ∀ sel, descriptorAt m₂ l.gdt sel = descriptorAt s.mem l.gdt sel := fun sel =>
    (descriptorAt_sameOutside hlinked hgdt'.symm sel).trans (descriptorAt_sameOutside hsaved hgdt.symm sel)
  have hgates : ∀ v : IdtVector, idtTable (loadTask l.gdt (trapSelector i) m₂) l.idt v = idtTable s.mem l.idt v := by
    intro v
    have hgate := gate_subset l.idt v.isLt
    obtain ⟨⟨hgdtIdt, -, -⟩, -, -⟩ := l.disjoint
    exact (hbusy.load64 (hgdtIdt.symm.mono_left hgate)).trans
      ((hlinked.load64 (hidt'.symm.mono_left hgate)).trans (hsaved.load64 (hidt.symm.mono_left hgate)))
  have htasks : entered (past ++ [.exception i registers]) = entered past ++ [.trap i] := entered_append past _
  have haccess : ∀ o : Task, (descriptorAt (loadTask l.gdt (trapSelector i) m₂) l.gdt o.selector).access =
      if o ∈ entered past ++ [.trap i] then 0x8B#8 else 0x89#8 := by
    intro o
    have hbyte := access_loadTask l.gdt m₂ o (.trap i)
    rw [hdescriptor, h.access o] at hbyte
    refine hbyte.trans ?_
    by_cases ho : o = .trap i
    · rw [if_pos ho, ho, if_neg hfree, if_pos (by simp)]
      rfl
    · rw [if_neg ho]
      exact if_congr (by simp [ho]) rfl rfl
  constructor
  · rw [hmem]
    refine ⟨?_, ?_, ?_⟩
    · exact (h.ready.segments.congr hdescriptor).mark _ (.inr rfl)
    · intro j hj
      exact (hgates ⟨j, hj.trans (by decide)⟩).trans (h.ready.gates j hj)
    · intro j hj hfree'
      -- a task that is free is neither the old one nor the new one
      have hnot : Task.trap ⟨j, hj⟩ ∉ entered past ++ [.trap i] := by
        intro hin
        have hbyte := haccess (.trap ⟨j, hj⟩)
        rw [if_pos hin] at hbyte
        exact absurd (hbyte.symm.trans hfree') (by decide)
      rw [List.mem_append, not_or, List.mem_singleton] at hnot
      have hold : (descriptorAt s.mem l.gdt (trapSelector j)).access = 0x89#8 :=
        (h.access (.trap ⟨j, hj⟩)).trans (if_neg hnot.1)
      have hbeside := hothers (.trap ⟨j, hj⟩) fun heq => hnot.1 (heq ▸ hcurrent)
      have hwords : tssWords (loadTask l.gdt (trapSelector i) m₂) (l.trapTask j).toNat = tssWords s.mem (l.trapTask j).toNat :=
        (tssWords_sameOutside hbusy (segment_apart l (.trap ⟨j, hj⟩)).1.1).trans
          ((tssWords_sameOutside hlinked (hothers' _ hnot.2).symm).trans (tssWords_sameOutside hsaved hbeside.symm))
      rw [hwords]
      exact h.ready.words j hj hold
  · intro v hv
    have happend : installations (past ++ [.exception i registers]) = installations past :=
      (installations_append past _).trans (List.append_nil _)
    rw [hmem, hgates, happend]
    exact h.installed v hv
  · intro o
    rw [hmem, htasks]
    exact haccess o
  · rw [currentTask_exception]
    rfl

/-- What one step does to the tables. -/
theorem TaskInvariant.step (h : TaskInvariant l pgdir past s) (hstep : TaskStep l s a t) :
    TaskInvariant l pgdir (past ++ [a]) t := by
  cases hstep with
  | store hsame => exact h.store hsame
  | install hc => exact h.install hc
  | loadSegment sel => exact h.loadSegment sel
  | pagingOn pgdir => exact h.keep rfl rfl rfl h.ready.segments (fun _ => rfl) (fun _ _ => rfl) fun _ => rfl
  | @exception i sel words registers henter hcr3 =>
    rw [h.enter] at henter
    by_cases hmem : Task.trap i ∈ entered past
    · rw [if_pos hmem] at henter
      cases henter
    · rw [if_neg hmem] at henter
      cases henter
      exact h.exception hmem registers

theorem taskInvariant_bootTask (l : BaseSymbols) (pgdir cr3 : U32) (m : Memory) :
    TaskInvariant l pgdir [] (bootTask l pgdir cr3 m) := by
  constructor
  · exact tablesReady_setupBase l pgdir m
  · intro v hv
    exact idtTable_setupBase l pgdir m hv
  · intro o
    cases o with
    | first => exact firstTask_setupBase l pgdir m
    | trap j => exact freeTask_setupBase l pgdir m j.isLt
  · rfl

/-- What every run has left of the tables. -/
theorem taskInvariant_run {cr3 : U32} (hrun : Runs (TaskStep l) (bootTask l pgdir cr3 m) past s) :
    TaskInvariant l pgdir past s :=
  hrun.history_nil (TaskInvariant l pgdir) (fun _ _ _ _ h hstep => h.step hstep) (taskInvariant_bootTask l pgdir cr3 m)

theorem TaskInvariant.enter_installed (h : TaskInvariant l pgdir past s) {v : IdtVector} (hv : handlerEntries ≤ v.val)
    {c : Installation} (hlast : lastAt Installation.vector v (installations past) = some c) :
    N7OS.enter s.mem l.idt l.gdt v = some (.code c.gate.offset) := by
  have hgate := h.installed v hv
  rw [hlast] at hgate
  exact enter_code h.ready hgate

end

/-- In every state that the kernel reaches after `setup_base`, an exception enters its task with the words of `setup_idt`,
unless it was raised before; every other vector enters the code that was installed last on it. User code may name in an
`int` the breakpoint and what was opened to it. -/
theorem vectors_enter (l : BaseSymbols) (pgdir cr3 : U32) (m : Memory) {tr : List TaskEvent} {s : TaskState}
    (hrun : Runs (TaskStep l) (bootTask l pgdir cr3 m) tr s) (v : IdtVector) :
    if hv : v.val < handlerEntries then
      gateDpl s.mem l.idt v = (if v = 3 then 3#2 else 0#2) ∧
        if Task.trap ⟨v, hv⟩ ∈ entered tr then enter s.mem l.idt l.gdt v = none
        else ∃ words, enter s.mem l.idt l.gdt v = some (.task (trapSelector v) words) ∧ TaskWords l pgdir v words
    else match lastAt Installation.vector v (installations tr) with
      | some c => enter s.mem l.idt l.gdt v = some (.code c.gate.offset) ∧ gateDpl s.mem l.idt v = c.gate.dpl
      | none => enter s.mem l.idt l.gdt v = none := by
  have h := taskInvariant_run hrun
  by_cases hv : v.val < handlerEntries
  · rw [dif_pos hv]
    constructor
    · have hgate : idtTable s.mem l.idt v = (taskGate v).encode := h.ready.gates v hv
      obtain ⟨-, -, -, hdpl⟩ := taskGate_fields v
      rw [gateDpl, hgate, GateDescriptor.decode_encode, hdpl]
      exact if_congr ⟨fun h => Fin.ext h, fun h => congrArg Fin.val h⟩ rfl rfl
    · have henter := h.enter ⟨v, hv⟩
      split
      · next hmem => exact henter.trans (if_pos hmem)
      · next hmem =>
        have haccess : (descriptorAt s.mem l.gdt (trapSelector v)).access = 0x89#8 :=
          (h.access (.trap ⟨v, hv⟩)).trans (if_neg hmem)
        exact ⟨_, henter.trans (if_neg hmem), h.ready.words v hv haccess⟩
  · rw [dif_neg hv]
    have hgate := h.installed v (Nat.le_of_not_lt hv)
    cases hlast : lastAt Installation.vector v (installations tr) with
    | none =>
      rw [hlast] at hgate
      exact enter_none hgate
    | some c =>
      rw [hlast] at hgate
      refine ⟨h.enter_installed (Nat.le_of_not_lt hv) hlast, ?_⟩
      rw [gateDpl, hgate]
      exact congrArg GateDescriptor.dpl (GateDescriptor.decode_encode _)

/-- After a breakpoint: the keyboard has its handler and a division by zero its task, but a second breakpoint leads nowhere. -/
theorem vectors_enter_keyboard :
    let l := BaseSymbols.sample
    let keyboard := Installation.initIrqEntry 0x21 0x100100#32
    let s₁ : TaskState := ⟨keyboard.run l.idt (setupBase l 0#32 (fun _ => 0)), baseTss, false, 0#32⟩
    let s := switchTask l.gdt (trapSelector 3) (fun _ => 0#32) s₁
    enter s.mem l.idt l.gdt 0x21 = some (.code 0x100100#32) ∧ enter s.mem l.idt l.gdt 3 = none ∧
      ∃ words, enter s.mem l.idt l.gdt 0 = some (.task 0x50#16 words) ∧ words .eip = 0x100400#32 := by
  intro l keyboard s₁ s
  have hinstall : TaskStep l (bootTask l 0#32 0#32 (fun _ => 0)) (.install keyboard) s₁ := .install (by decide)
  have hrun₁ : Runs (TaskStep l) (bootTask l 0#32 0#32 (fun _ => 0)) [.install keyboard] s₁ := .cons hinstall (.nil s₁)
  have henter := ((taskInvariant_run hrun₁).enter ⟨3, by decide⟩).trans (if_neg (by decide))
  have hrun := hrun₁.append (.cons (.exception (fun _ => 0#32) henter (switchTask_cr3 _ _ _ rfl)) (.nil s))
  have h := vectors_enter l 0#32 0#32 (fun _ => 0) hrun
  have hkeyboard := h 0x21
  have hbreakpoint := h 3
  have hdivision := h 0
  rw [dif_neg (by decide)] at hkeyboard
  rw [dif_pos (by decide), if_pos (by decide)] at hbreakpoint
  rw [dif_pos (by decide)] at hdivision
  obtain ⟨-, hdivision⟩ := hdivision
  rw [if_neg (by decide)] at hdivision
  obtain ⟨words, hwords, htask⟩ := hdivision
  exact ⟨hkeyboard.1, hbreakpoint.2, words, hwords, htask.eip⟩

end N7OS
