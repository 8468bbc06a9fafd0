import N7OS.Processor.Debugger
import N7OS.Processor.TaskSwitch

/-! # From an exception to the screen

An exception switches tasks: the processor saves its registers in the segment of the task
that trapped and links it to that of the exception, whose stub calls `trap_handler`. The
handler goes the way back, through the segment table.
-/
namespace N7OS
open ByteMemory Execution

/-- The words of the segment afterwards. -/
def savedWords (registers words : TssField → U32) : TssField → U32 := fun f =>
  if f ∈ savedFields then registers f else words f

/-- `SERV_ERR_TASK` stands for an exception of which the processor pushes an error code; `SERV_EXC_TASK` pushes 0 itself. -/
def servErrTask (i : ℕ) : Bool := i ∈ [8, 10, 11, 12, 13, 14, 17]

/-- The call of `trap_handler` by the stub of exception `i`. -/
def trapCall (taskDumpScreen : ℕ → U8) (videoMem : U32) (gdt : ℕ) (m : Memory) (i : ℕ) (errorCode : U32) : TrapCall where
  taskDumpScreen := taskDumpScreen
  trapno := BitVec.ofNat 32 i
  errorCode := if servErrTask i then errorCode else 0#32
  t := trappedTask m gdt (trapSelector i)
  videoMem := videoMem

section
variable {l : BaseSymbols} {pgdir : U32} {m : Memory} {registers : TssField → U32} {o p : Task} {s : TaskState}

/-- The trace bit is not among the words. -/
theorem traceTrap_saveAll (fs : List TssField) (m : Memory) (ts : ℕ) (registers : TssField → U32) :
    traceTrap (saveAll ts registers fs m) ts = traceTrap m ts := by
  induction fs generalizing m with
  | nil => rfl
  | cons g fs ih =>
    have hg := offset_le g
    have hword := sameOutside_store32 m (ts + g.offset) (registers g)
    have hrest := ih (storeField m ts g (registers g))
    rw [saveAll, List.foldl_cons, ← saveAll, hrest, traceTrap, traceTrap, storeField,
      hword.apply (notMem_object.mpr (by omega)), hword.apply (notMem_object.mpr (by omega))]

/-- What is left of the switch for the handler to find. -/
structure Switched (l : BaseSymbols) (m : Memory) (registers : TssField → U32) (o p : Task) (m' : Memory) : Prop where
  words : tssWords m' (o.segment l).toNat = savedWords registers (tssWords m (o.segment l).toNat)
  trace : traceTrap m' (o.segment l).toNat = traceTrap m (o.segment l).toNat
  link : (load32 m' (p.segment l).toNat).setWidth 16 = o.selector
  segments : SegmentsReady l.toGdtSymbols m'

theorem switchTask_switched (h : SegmentsReady l.toGdtSymbols s.mem) (htr : s.tr = o.selector)
    (registers : TssField → U32) (hne : p ≠ o) :
    Switched l s.mem registers o p (switchTask l.gdt p.selector registers s).mem := by
  obtain ⟨⟨hgdt, -⟩, hothers⟩ := segment_apart l o
  obtain ⟨⟨hgdt', -⟩, -⟩ := segment_apart l p
  obtain ⟨m₁, m₂, hsaved, hm₁, hlinked, hm₂, hmem⟩ := switchTask_mem h htr p registers
  have hbusy := sameOutside_loadTask l.gdt p.selector m₂
  rw [hmem]
  constructor
  · rw [tssWords_sameOutside hbusy hgdt, tssWords_sameOutside hlinked (hothers p hne), hm₁]
    exact tssWords_saveAll _ _ _ _
  · rw [traceTrap_sameOutside hbusy hgdt, traceTrap_sameOutside hlinked (hothers p hne), hm₁]
    exact traceTrap_saveAll _ _ _ _
  · have hword : object (p.segment l).toNat 4 ⊆ object (p.segment l).toNat sizeofTss :=
      object_subset le_rfl (by unfold sizeofTss; omega)
    rw [hbusy.load32 (hgdt'.mono_left hword), hm₂]
    exact setWidth_load32_store16 _ _ _
  · refine SegmentsReady.mark (h.congr fun sel => ?_) _ (.inr rfl)
    rw [descriptorAt_sameOutside hlinked hgdt'.symm, descriptorAt_sameOutside hsaved hgdt.symm]

/-- The decoder of the debugger finds the segment of a task. -/
theorem tssSel2Tss_task (h : SegmentsReady l.toGdtSymbols m) (o : Task) : tssSel2Tss m l.gdt o.selector = o.segment l := by
  rw [tssSel2Tss_eq]
  exact (isTask_segment h o).base

/-- The handler goes back along the link. -/
theorem trappedTask_switched {i : Fin handlerEntries} (hs : Switched l s.mem registers o (.trap i) m) :
    trappedTask m l.gdt (trapSelector i) = o.segment l := by
  have htask : tssSel2Tss m l.gdt (trapSelector i) = l.trapTask i := tssSel2Tss_task hs.segments (.trap i)
  have hlink : (load32 m (l.trapTask i).toNat).setWidth 16 = o.selector := hs.link
  rw [trappedTask, htask, hlink, tssSel2Tss_task hs.segments]

end

/-- In every state that the kernel reaches after `setup_base`, an exception that was not raised before enters its stub, in
the directory that `setup_base` was given if there is paging. As long as that leaves the kernel in its memory, the
screen shows the registers of the task that ran, whatever is read from the keyboard, when the space bar has gone down
an even number of times. -/
theorem exception_shown (l : BaseSymbols) (pgdir cr3 : U32) (m : Memory) {tr : List TaskEvent} {s : TaskState}
    (hrun : Runs (TaskStep l) (bootTask l pgdir cr3 m) tr s) (registers : TssField → U32) {i : Fin handlerEntries}
    (hfree : Task.trap i ∉ entered tr) (errorCode : U32) (taskDumpScreen : ℕ → U8) {videoMem : U32}
    (hle : videoMem.toNat + 4000 ≤ 2 ^ 32) (hvideo : Apart (videoMem.toNat, 4000) (screenBase, 4000))
    (hsegment : Apart (((currentTask tr).segment l).toNat, sizeofTss) (screenBase, 4000))
    (hboth : Apart (((currentTask tr).segment l).toNat, sizeofTss) (videoMem.toNat, 4000)) {codes : List U8}
    (hcodes : presses false codes % 2 = 0) :
    let t := (currentTask tr).segment l
    let s' := switchTask l.gdt (trapSelector i) registers s
    let k := trapCall taskDumpScreen videoMem l.gdt s'.mem i errorCode
    (∃ words, enter s.mem l.idt l.gdt (exceptionVector i) = some (.task (trapSelector i) words) ∧
      words .eip = l.exceptionHandlerTasks i) ∧
      s'.cr3 = (if s.paging then pgdir else s.cr3) ∧
      (s'.cr3 = s.cr3 →
        ShowsDump taskDumpScreen (BitVec.ofNat 32 i) (if servErrTask i then errorCode else 0#32) t
          (savedWords registers (tssWords s.mem t.toNat)) (traceTrap s.mem t.toNat) (k.run s'.mem codes).mem) := by
  intro t s' k
  have h := taskInvariant_run hrun
  have hsegments := h.ready.segments
  have hne : Task.trap i ≠ currentTask tr := fun heq => hfree (heq ▸ currentTask_mem tr)
  have hswitched : Switched l s.mem registers (currentTask tr) (.trap i) s'.mem :=
    switchTask_switched hsegments h.current registers hne
  have hwords : TaskWords l pgdir i (tssWords s.mem (l.trapTask i).toNat) :=
    h.ready.words i i.isLt ((h.access (.trap i)).trans (if_neg hfree))
  have ht : k.t = t := trappedTask_switched hswitched
  have hk : k.Placed := by
    refine ⟨hle, hvideo, ?_, ?_⟩
    · rwa [ht]
    · rwa [ht]
  refine ⟨⟨_, (h.enter i).trans (if_neg hfree), hwords.eip⟩, ?_, ?_⟩
  · have hbase : segmentBase s.mem l.gdt (trapSelector i) = (l.trapTask i).toNat := segmentBase_eq hsegments (.trap i)
    have hcr3 := hwords.cr3
    rw [← hbase] at hcr3
    simp only [s', switchTask, hcr3]
  · intro _
    have hshown := (run_shown hk s'.mem codes).shown
    simp only [hcodes, decide_true, if_true] at hshown
    rw [ht, hswitched.words, hswitched.trace] at hshown
    exact hshown

/-- A breakpoint at 0x100123, and a protection fault at 0x100456 in its handler; with paging on, the fault would leave the
kernel's directory for the one at 0. -/
theorem exception_shown_fault :
    let l := BaseSymbols.sample
    let s₀ := bootTask l 0#32 0#32 (fun _ => 0#8)
    let at' : U32 → TssField → U32 := fun a f => if f = .eip then a else 0#32
    let s₁ := switchTask l.gdt (trapSelector 3) (at' 0x100123#32) s₀
    let s₂ := switchTask l.gdt (trapSelector 13) (at' 0x100456#32) s₁
    ReadsHex ((trapCall (fun _ => 0#8) 0x141000#32 l.gdt s₂.mem 13 2#32).run s₂.mem [0x1E#8]).mem
        (screenBase + (14 * 160 + 14 * 2)) 8 0x100456 ∧
      (switchTask l.gdt (trapSelector 13) (at' 0x100456#32) { s₀ with paging := true, cr3 := 0x123000#32 }).cr3 = 0#32 := by
  intro l s₀ at' s₁ s₂
  have hle : (0x141000#32).toNat + 4000 ≤ 2 ^ 32 := by decide
  have hvideo : Apart ((0x141000#32).toNat, 4000) (screenBase, 4000) := .inr (by decide)
  have hnil : Runs (TaskStep l) s₀ [] s₀ := .nil s₀
  have henter := ((taskInvariant_run hnil).enter ⟨3, by decide⟩).trans (if_neg (by decide))
  have hrun₁ : Runs (TaskStep l) s₀ [.exception ⟨3, by decide⟩ (at' 0x100123#32)] s₁ :=
    .cons (.exception (at' 0x100123#32) henter (switchTask_cr3 _ _ _ rfl)) (.nil s₁)
  have hrun₂ : Runs (TaskStep l) s₀ [.pagingOn 0x123000#32] { s₀ with paging := true, cr3 := 0x123000#32 } :=
    .cons (.pagingOn 0x123000#32) (.nil _)
  have hcodes : presses false [0x1E#8] % 2 = 0 := by decide
  have hbreakpoint : (l.trapTask 3).toNat = 0x132138 := by decide
  have hboot : l.tss.toNat = 0x131000 := by decide
  have hsegment₁ : Apart ((l.trapTask 3).toNat, sizeofTss) (screenBase, 4000) := .inr (by rw [hbreakpoint]; decide)
  have hboth₁ : Apart ((l.trapTask 3).toNat, sizeofTss) ((0x141000#32).toNat, 4000) := .inl (by rw [hbreakpoint]; decide)
  have hsegment₂ : Apart (l.tss.toNat, sizeofTss) (screenBase, 4000) := .inr (by rw [hboot]; decide)
  have hboth₂ : Apart (l.tss.toNat, sizeofTss) ((0x141000#32).toNat, 4000) := .inl (by rw [hboot]; decide)
  obtain ⟨-, -, hshown⟩ := exception_shown l 0#32 0#32 (fun _ => 0#8) hrun₁ (at' 0x100456#32) (i := ⟨13, by decide⟩)
    (by decide) 2#32 (fun _ => 0#8) hle hvideo hsegment₁ hboth₁ hcodes
  obtain ⟨-, hcr3, -⟩ := exception_shown l 0#32 0#32 (fun _ => 0#8) hrun₂ (at' 0x100456#32) (i := ⟨13, by decide⟩)
    (by decide) 2#32 (fun _ => 0#8) hle hvideo hsegment₂ hboth₂ hcodes
  have hkept : s₂.cr3 = s₁.cr3 := switchTask_cr3 _ _ _ rfl
  exact ⟨(hshown hkept).fields ⟨15, 15, 8, fun words _ => words .eip⟩ (List.getElem_mem (n := 12) (by decide)), hcr3⟩

end N7OS
