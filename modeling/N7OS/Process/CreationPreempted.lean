import N7OS.Process.ContextIntegrity
import N7OS.Process.CreationStatements

/-! # `create_process`, preempted

Any process may be in a call of `create_process`, which goes on statement by
statement while the process runs, and a timer interrupt may lead to a switch before
each of them. A run without a switch in the window is a run in which each call
fills its slot at once, where it publishes it.
-/
namespace N7OS
open Execution ByteMemory

/-- The system, and where each process is in `create_process`. -/
structure Creators where
  system : System
  call : Slot → Option CreateCall

namespace Creators

def start (L : Layout) (m : Memory) (gpr : Reg → U32) : Creators := ⟨.start L m gpr, fun _ => none⟩

def current (s : Creators) : Slot := s.system.kernel.currentPid

/-- The call that the running process is in. -/
def running (s : Creators) : Option CreateCall := s.call s.current

def goto (call : Option CreateCall) (s : Creators) : Creators :=
  { s with call := Function.update s.call s.current call }

/-- The running process executes the next statement of its call. -/
def execute (L : Layout) (c : CreateCall) (s : Creators) : Creators where
  system := { s.system with kernel := (createStatement L c s.system.kernel).2 }
  call := Function.update s.call s.current (some { c with pc := (createStatement L c s.system.kernel).1 })

end Creators

inductive CreationEvent
  | system (e : SwitchEvent) (running : Option CreateCall)
  | call (name : ℕ → U8) (function : U32)
  | statement (c : CreateCall)
  | ret (result : U32)

inductive CreationStep (L : Layout) : Creators → CreationEvent → Creators → Prop
  | system (s : Creators) (e : SwitchEvent) (t : System) : SwitchStep L s.system e t →
      (∀ name function result, e ≠ .create name function result) →
      CreationStep L s (.system e s.running) { s with system := t }
  | call (s : Creators) (name : ℕ → U8) (function : U32) : s.system.phase s.current = .body → s.running = none →
      CreationStep L s (.call name function) (s.goto (some ⟨name, function, .search 0⟩))
  | statement (s : Creators) (c : CreateCall) : s.running = some c → (∀ slot, c.pc ≠ .ret slot) →
      CreationStep L s (.statement c) (s.execute L c)
  | ret (s : Creators) (c : CreateCall) (slot : Option Slot) : s.running = some c → c.pc = .ret slot →
      CreationStep L s (.ret (createResult s.system.kernel slot)) (s.goto none)

/-- A timer interrupt that switches away from a process in the window. -/
def CreationEvent.InWindow : CreationEvent → Prop
  | .system (.switch _) (some c) => c.pc.InWindow
  | _ => False

/-- The events of the system. -/
def systemEvents (events : List CreationEvent) : List SwitchEvent :=
  events.filterMap (fun e => match e with | .system e _ => some e | _ => none)

/-- What the successful calls have returned. -/
def returned (events : List CreationEvent) : List U32 :=
  events.filterMap (fun e => match e with
    | .ret result => if result = 0xFFFFFFFF#32 then none else some result
    | _ => none)

/-- One call has executed all the stores to the slot, with this function. -/
def MadeBy (L : Layout) (m : Memory) (past : List CreationEvent) (slot : Slot) (function : U32) : Prop :=
  (BitVec.ofNat 32 slot.val, function) ∈ allCreations L m [] ∨
    ∃ name, ∀ pc ∈ stores slot, .statement ⟨name, function, pc⟩ ∈ past

/-- The slot is ready to be switched to: all its stores are done, and memory holds its context. -/
structure SetUp (L : Layout) (m : Memory) (past : List CreationEvent) (s : Creators) (slot : Slot) : Prop where
  made : MadeBy L m past slot (s.system.kernel.processEntry slot)
  context : Suspended L slot s.system.kernel.mem (lastOut slot (systemEvents past))

/-- The pids of the calls of `kernel_start` and of those that have returned. -/
def handedOut (L : Layout) (m : Memory) (events : List CreationEvent) : List U32 :=
  (createBase L (initProcess L (.boot m))).2 ++ returned events

/-- Every switch goes to a slot that is set up, and no pid is returned twice. -/
structure Atomic (L : Layout) (m : Memory) (gpr : Reg → U32) (events : List CreationEvent) : Prop where
  setUp : ∀ past w c rest s t, events = past ++ .system (.switch w) c :: rest →
    Runs (CreationStep L) (.start L m gpr) past s → CreationStep L s (.system (.switch w) c) t → SetUp L m past s w.into
  pids : (handedOut L m events).Nodup

/-! ## A run without a switch in the window -/

/-- The event of the atomic run. -/
def CreationEvent.atomic : CreationEvent → Option SwitchEvent
  | .system e _ => some e
  | .statement ⟨name, function, .setState slot⟩ => some (.create name function (BitVec.ofNat 32 slot))
  | _ => none

def atomicTrace (events : List CreationEvent) : List SwitchEvent := events.filterMap CreationEvent.atomic

/-- The system as it will be when the running process has finished with its slot. -/
def Creators.finished (L : Layout) (s : Creators) : System :=
  match s.running with
  | some c => { s.system with kernel := c.finish L s.system.kernel }
  | none => s.system

/-- The slot is the one that `find_free_slot` finds. -/
def LowestFree (slot : Slot) (k : Kernel) : Prop :=
  (k.processTable slot).state = .libre ∧ ∀ j < slot, (k.processTable j).state ≠ .libre

/-- What holds at each point of a call. -/
def CreateCall.Assertion (c : CreateCall) (k : Kernel) : Prop :=
  match c.pc with
  | .search i => ∀ j : Slot, j.val < i → (k.processTable j).state ≠ .libre
  | .testSlot none => ∀ j, (k.processTable j).state ≠ .libre
  | .testSlot (some slot) => LowestFree slot k
  | .setPid slot => LowestFree slot k
  | .setState slot => LowestFree slot k
  | .copyTest slot _ => (k.processTable slot).state = .pret
  | .copyChar slot _ => (k.processTable slot).state = .pret
  | .closeName slot _ => (k.processTable slot).state = .pret
  | .setEntry slot => (k.processTable slot).state = .pret
  | .setTop slot => (k.processTable slot).state = .pret ∧ k.processEntry slot = c.function
  | .setReg slot _ => (k.processTable slot).state = .pret ∧ k.processEntry slot = c.function
  | .ret none => ∀ j, (k.processTable j).state ≠ .libre
  | .ret (some slot) => (k.processTable slot).state ≠ .libre

/-- The run so far is atomic, and only the running process is in the window. -/
structure AtomicSoFar (L : Layout) (m : Memory) (gpr : Reg → U32) (past : List CreationEvent) (s : Creators) :
    Prop where
  runs : Runs (SwitchStep L) (.start L m gpr) (atomicTrace past) (s.finished L)
  window : ∀ p c, s.call p = some c → c.pc.InWindow → p = s.current
  assertion : ∀ p c, s.call p = some c → c.Assertion s.system.kernel
  body : ∀ p c, s.call p = some c → s.system.phase p = .body
  suspended : ∀ p c, s.call p = some c → p ≠ s.current → lastOut p (atomicTrace past) ≠ none

section
variable {L : Layout} {m : Memory} {gpr : Reg → U32} {past events : List CreationEvent} {e : CreationEvent}
  {s t : Creators} {c : CreateCall} {k k' : Kernel} {slot p : Slot} {name : ℕ → U8} {function : U32}

theorem atomicTrace_append (events : List CreationEvent) (e : CreationEvent) :
    atomicTrace (events ++ [e]) = atomicTrace events ++ atomicTrace [e] := List.filterMap_append

/-- Only switches count for the contexts saved. -/
theorem lastOut_atomicTrace (past : List CreationEvent) (h : lastOut p (atomicTrace [e]) = none) :
    lastOut p (atomicTrace (past ++ [e])) = lastOut p (atomicTrace past) := by
  rw [atomicTrace_append]
  cases he : e.atomic with
  | none =>
    have hnil : atomicTrace [e] = [] := List.filterMap_cons_none he
    rw [hnil, List.append_nil]
  | some e' =>
    have hone : atomicTrace [e] = [e'] := List.filterMap_cons_some he
    rw [hone] at h ⊢
    rw [lastOut_append, h, Option.none_or]

theorem returned_append (events events' : List CreationEvent) :
    returned (events ++ events') = returned events ++ returned events' := List.filterMap_append

theorem finish_of_not_published (h : ¬c.pc.Published) (k : Kernel) : c.finish L k = k := by
  obtain ⟨name, function, pc⟩ := c
  cases pc with
  | search i => rfl
  | testSlot slot => rfl
  | setPid slot => rfl
  | setState slot => rfl
  | ret slot => rfl
  | _ => exact absurd trivial h

theorem finished_of_not_published (h : ∀ c, s.running = some c → ¬c.pc.Published) : s.finished L = s.system := by
  unfold Creators.finished
  split
  · next c hc => rw [finish_of_not_published (h c hc)]
  · rfl

theorem finished_of_running (h : s.running = some c) :
    s.finished L = { s.system with kernel := c.finish L s.system.kernel } := by
  unfold Creators.finished
  rw [h]

@[simp] theorem finish_currentPid (L : Layout) (c : CreateCall) (k : Kernel) :
    (c.finish L k).currentPid = k.currentPid := by
  unfold CreateCall.finish
  split <;> rfl

/-- The stores left to a published call leave the states and the pids alone. -/
theorem finish_state (L : Layout) (c : CreateCall) (k : Kernel) (j : Slot) :
    ((c.finish L k).processTable j).state = (k.processTable j).state ∧
      ((c.finish L k).processTable j).pid = (k.processTable j).pid := by
  unfold CreateCall.finish
  split
  · exact ⟨setName_state _ _ _ _, setName_pid _ _ _ _⟩
  · exact ⟨setName_state _ _ _ _, setName_pid _ _ _ _⟩
  · exact ⟨setName_state _ _ _ _, setName_pid _ _ _ _⟩
  · exact ⟨rfl, rfl⟩
  · exact ⟨rfl, rfl⟩
  · exact ⟨rfl, rfl⟩
  · exact ⟨rfl, rfl⟩

theorem finish_mem (L : Layout) (c : CreateCall) (k : Kernel) (m' : Memory) :
    c.finish L { k with mem := m' } = { c.finish L k with mem := (c.finish L { k with mem := m' }).mem } := by
  unfold CreateCall.finish
  split <;> rfl

theorem finish_mem_congr {m' : Memory} {x : ℕ} (h : m' x = k.mem x) :
    (c.finish L { k with mem := m' }).mem x = (c.finish L k).mem x := by
  unfold CreateCall.finish
  split
  · exact prepareStack_congr h
  · exact prepareStack_congr h
  · exact prepareStack_congr h
  · exact prepareStack_congr h
  · exact prepareStack_congr h
  · exact storeRegs_congr h _ _
  · exact h

/-- What holds outside the window is not lost by filling more slots. -/
theorem CreateCall.Assertion.mono (h : c.Assertion k) (hout : ¬c.pc.InWindow)
    (hused : ∀ j, (k.processTable j).state ≠ .libre → (k'.processTable j).state ≠ .libre) : c.Assertion k' := by
  obtain ⟨name, function, pc⟩ := c
  cases pc with
  | search i => exact fun j hj => hused j (h j hj)
  | testSlot slot =>
    cases slot with
    | none => exact fun j => hused j (h j)
    | some slot => exact absurd (.inl rfl) hout
  | ret slot =>
    cases slot with
    | none => exact fun j => hused j (h j)
    | some slot => exact hused slot h
  | setPid slot => exact absurd (.inl trivial) hout
  | setState slot => exact absurd (.inl trivial) hout
  | _ => exact absurd (.inr trivial) hout

theorem LowestFree.congr (h : LowestFree slot k) (hstate : ∀ j, (k'.processTable j).state = (k.processTable j).state) :
    LowestFree slot k' := by
  refine ⟨(hstate slot).trans h.1, ?_⟩
  intro j hj
  rw [hstate]
  exact h.2 j hj

/-- Each statement establishes what the next one relies on. -/
theorem assertion_createStatement (h : c.Assertion k) (hret : ∀ slot, c.pc ≠ .ret slot) :
    CreateCall.Assertion { c with pc := (createStatement L c k).1 } (createStatement L c k).2 := by
  have hstate := createStatement_state L c k
  obtain ⟨name, function, pc⟩ := c
  cases pc with
  | search i =>
    simp only [createStatement]
    split
    · next hi =>
      split
      · next hlibre => exact ⟨hlibre, h⟩
      · next hused =>
        intro j hj
        by_cases hji : j = ⟨i, hi⟩
        · exact hji ▸ hused
        · exact h j (Nat.lt_of_le_of_ne (Nat.le_of_lt_succ hj) (fun hv => hji (Fin.ext hv)))
    · exact fun j => h j (by omega)
  | testSlot slot =>
    cases slot with
    | none => exact h
    | some slot => exact h
  | setPid slot => exact h.congr (fun j => (hstate j).trans (if_neg (by simp)))
  | setState slot => exact (hstate slot).trans (if_pos rfl)
  | copyTest slot i =>
    simp only [createStatement]
    split
    · exact h
    · exact h
  | copyChar slot i => exact (hstate slot).trans h
  | closeName slot i => exact (hstate slot).trans h
  | setEntry slot => exact ⟨h, Function.update_self _ _ _⟩
  | setTop slot => exact h
  | setReg slot r =>
    simp only [createStatement]
    split
    · exact h
    · intro hlibre
      cases h.1.symm.trans hlibre
  | ret slot => exact absurd rfl (hret slot)

theorem createStatement_used (L : Layout) (c : CreateCall) {j : Slot} (h : (k.processTable j).state ≠ .libre) :
    ((createStatement L c k).2.processTable j).state ≠ .libre := by
  rw [createStatement_state]
  split
  · simp
  · exact h

/-- The state of a published slot is already the final one. -/
theorem CreateCall.Assertion.pret (h : c.Assertion k) (hpub : c.pc.Published) :
    ∃ slot, c.pc.slot = some slot ∧ (k.processTable slot).state = .pret := by
  obtain ⟨name, function, pc⟩ := c
  cases pc with
  | copyTest slot i => exact ⟨slot, rfl, h⟩
  | copyChar slot i => exact ⟨slot, rfl, h⟩
  | closeName slot i => exact ⟨slot, rfl, h⟩
  | setEntry slot => exact ⟨slot, rfl, h⟩
  | setTop slot => exact ⟨slot, rfl, h.1⟩
  | setReg slot r => exact ⟨slot, rfl, h.1⟩
  | _ => exact absurd hpub id

theorem AtomicSoFar.contextInv (h : AtomicSoFar L m gpr past s) : ContextInv L m (atomicTrace past) (s.finished L) :=
  contextInv_run h.runs

theorem AtomicSoFar.tableInv (h : AtomicSoFar L m gpr past s) : TableInv s.system.kernel := by
  have htable := h.contextInv.table
  cases hrun : s.running with
  | none =>
    rw [Creators.finished, hrun] at htable
    exact htable
  | some c =>
    rw [finished_of_running hrun] at htable
    have hstate := finish_state L c s.system.kernel
    have henabled : (c.finish L s.system.kernel).schedulingEnabled = s.system.kernel.schedulingEnabled := by
      unfold CreateCall.finish
      split <;> rfl
    refine ⟨henabled ▸ htable.enabled, ?_, ?_, ?_⟩
    · intro i
      rw [← (hstate i).1, ← finish_currentPid L c]
      exact htable.elu i
    · intro i
      rw [← (hstate i).1]
      exact htable.bloque i
    · intro i
      rw [← (hstate i).2]
      exact htable.pid i

theorem AtomicSoFar.not_published (h : AtomicSoFar L m gpr past s) (hrun : ∀ c, s.running = some c → ¬c.pc.Published) :
    ∀ p c, s.call p = some c → ¬c.pc.Published := by
  intro p c hc hpub
  obtain rfl := h.window p c hc (.inr hpub)
  exact hrun c hc hpub

theorem AtomicSoFar.runs_step {e' : SwitchEvent} (h : AtomicSoFar L m gpr past s)
    (hstep : SwitchStep L (s.finished L) e' (t.finished L)) (he : atomicTrace [e] = [e']) :
    Runs (SwitchStep L) (.start L m gpr) (atomicTrace (past ++ [e])) (t.finished L) := by
  rw [atomicTrace_append, he]
  exact h.runs.append (.cons hstep (.nil _))

theorem AtomicSoFar.runs_stutter (h : AtomicSoFar L m gpr past s) (hsame : t.finished L = s.finished L)
    (he : atomicTrace [e] = []) : Runs (SwitchStep L) (.start L m gpr) (atomicTrace (past ++ [e])) (t.finished L) := by
  rw [atomicTrace_append, he, List.append_nil, hsame]
  exact h.runs

/-- The running process computes on its own stack, also between two statements of a call. -/
theorem finished_work (s : Creators) (gpr' : Reg → U32) {m' : Memory}
    (hm : ∀ x, ¬L.InStack s.current x → m' x = s.system.kernel.mem x) :
    SwitchStep L (s.finished L) .work
      (Creators.finished L
        { s with system := { s.system with gpr := gpr', kernel := { s.system.kernel with mem := m' } } }) := by
  cases hrun : s.running with
  | none =>
    have hrun' : Creators.running
        { s with system := { s.system with gpr := gpr', kernel := { s.system.kernel with mem := m' } } } = none := hrun
    rw [Creators.finished, hrun, Creators.finished, hrun']
    exact .work s.system gpr' m' hm
  | some c =>
    have hrun' : Creators.running
        { s with system := { s.system with gpr := gpr', kernel := { s.system.kernel with mem := m' } } } =
          some c := hrun
    rw [finished_of_running hrun, finished_of_running hrun']
    change SwitchStep L _ .work
      { s.system with gpr := gpr', kernel := c.finish L { s.system.kernel with mem := m' } }
    rw [finish_mem L c s.system.kernel m']
    refine .work { s.system with kernel := c.finish L s.system.kernel } gpr' _ ?_
    intro x hx
    rw [finish_currentPid] at hx
    exact finish_mem_congr (hm x hx)

theorem AtomicSoFar.work (h : AtomicSoFar L m gpr past s) (gpr' : Reg → U32) {m' : Memory}
    (hm : ∀ x, ¬L.InStack s.current x → m' x = s.system.kernel.mem x) :
    AtomicSoFar L m gpr (past ++ [.system .work s.running])
      { s with system := { s.system with gpr := gpr', kernel := { s.system.kernel with mem := m' } } } := by
  refine ⟨h.runs_step (finished_work s gpr' hm) rfl, h.window, h.assertion, h.body, ?_⟩
  intro p c hc hp
  rw [lastOut_atomicTrace past rfl]
  exact h.suspended p c hc hp

theorem AtomicSoFar.finished_eq (h : AtomicSoFar L m gpr past s)
    (hrun : ∀ c, s.running = some c → ¬c.pc.Published) (t : System) :
    s.finished L = s.system ∧ Creators.finished L { s with system := t } = t :=
  ⟨finished_of_not_published hrun, finished_of_not_published fun c hc => h.not_published hrun _ c hc⟩

/-- Elsewhere in the trampoline the running process is in no call. -/
theorem AtomicSoFar.no_call (h : AtomicSoFar L m gpr past s) (hphase : s.system.phase s.current ≠ .body) :
    s.running = none := by
  cases hrun : s.running with
  | none => rfl
  | some c => exact absurd (h.body _ c hrun) hphase

theorem AtomicSoFar.phase (h : AtomicSoFar L m gpr past s) {e' : SwitchEvent} {ph : Phase}
    (hphase : s.system.phase s.current ≠ .body) (he : ∀ p, lastOut p [e'] = none)
    (hstep : SwitchStep L s.system e' { s.system with phase := Function.update s.system.phase s.current ph }) :
    AtomicSoFar L m gpr (past ++ [.system e' s.running])
      { s with system := { s.system with phase := Function.update s.system.phase s.current ph } } := by
  have hnone := h.no_call hphase
  obtain ⟨hfin, hfin'⟩ := h.finished_eq (fun c hc => by rw [hnone] at hc; cases hc)
    { s.system with phase := Function.update s.system.phase s.current ph }
  refine ⟨h.runs_step (by rwa [hfin, hfin']) rfl, h.window, h.assertion, ?_, ?_⟩
  · intro p c hc
    have hp : p ≠ s.current := by
      rintro rfl
      cases hnone.symm.trans hc
    exact (Function.update_of_ne hp _ _).trans (h.body p c hc)
  · intro p c hc hp
    rw [lastOut_atomicTrace past (he p)]
    exact h.suspended p c hc hp

/-- A switch that finds the running process out of the window. -/
theorem AtomicSoFar.switch (h : AtomicSoFar L m gpr past s) {old next : Slot} {ra : U32}
    (hs : (schedule s.system.kernel).2 = some (old, next)) (hra : ra ≠ L.processStarter)
    (hroom : L.StackRoom old (s.system.gpr .esp)) (hout : ∀ c, s.running = some c → ¬c.pc.InWindow) :
    AtomicSoFar L m gpr (past ++ [.system (.switch (switchRecord L old next ra s.system.cpu)) s.running])
      { s with system := s.system.switched L old next ra } := by
  obtain ⟨hold, hne, -, hk⟩ := switch_cases h.tableInv hs
  obtain ⟨hfin, hfin'⟩ := h.finished_eq (fun c hc hpub => hout c hc (.inr hpub)) (s.system.switched L old next ra)
  have hinv := h.contextInv
  rw [hfin] at hinv
  have hresume := hinv.resume ra hs hroom
  have hnext : (s.system.switched L old next ra).kernel.currentPid = next := by
    change (schedule s.system.kernel).1.currentPid = next
    rw [hk]
  have hnone : ∀ p c, s.call p = some c → ¬c.pc.InWindow := by
    intro p c hc hwin
    obtain rfl := h.window p c hc hwin
    exact hout c hc hwin
  have hlibre := switched_libre (L := L) h.tableInv ra hs
  refine ⟨h.runs_step ?_ rfl, ?_, ?_, ?_, ?_⟩
  · rw [hfin, hfin']
    exact .switch s.system old next ra hs hra hroom
  · exact fun p c hc hwin => absurd hwin (hnone p c hc)
  · exact fun p c hc => (h.assertion p c hc).mono (hnone p c hc) (fun j hj hl => hj ((hlibre j).mp hl))
  · intro p c hc
    rw [switched_phase, if_neg]
    · exact h.body p c hc
    · rintro ⟨rfl, hpop⟩
      cases hlast : lastOut p (atomicTrace past) with
      | none => exact h.suspended p c hc (fun heq => hne (heq.trans hold.symm)) hlast
      | some v =>
        rw [hlast] at hresume
        exact hinv.inside p v hlast (hresume.2.symm.trans hpop)
  · intro p c hc hp
    rw [atomicTrace_append,
      show atomicTrace [.system (.switch (switchRecord L old next ra s.system.cpu)) s.running] =
        [SwitchEvent.switch (switchRecord L old next ra s.system.cpu)] from rfl, lastOut_switch]
    split
    · simp
    · next hpo =>
      rw [switchRecord_out] at hpo
      exact h.suspended p c hc (fun heq => hpo (hold.trans heq.symm))

theorem AtomicSoFar.systemStep (h : AtomicSoFar L m gpr past s) {e' : SwitchEvent} {t : System}
    (hs : SwitchStep L s.system e' t) (hcreate : ∀ name function result, e' ≠ .create name function result)
    (hout : ¬(CreationEvent.system e' s.running).InWindow) :
    AtomicSoFar L m gpr (past ++ [.system e' s.running]) { s with system := t } := by
  cases hs with
  | work gpr' m' hm => exact h.work gpr' hm
  | create name function hphase => exact absurd rfl (hcreate _ _ _)
  | stay hs =>
    rcases schedule_cases h.tableInv with ⟨hpret, hc⟩ | ⟨q, -, -, hc⟩
    · have hfin : s.finished L = s.system := by
        apply finished_of_not_published
        intro c hrun hpub
        obtain ⟨slot, -, hslot⟩ := (h.assertion _ c hrun).pret hpub
        exact hpret slot hslot
      have hstay : SwitchStep L s.system .stay { s.system with kernel := (schedule s.system.kernel).1 } := .stay _ hs
      rw [hc] at hstay ⊢
      refine ⟨h.runs_step (by rwa [hfin]) rfl, h.window, h.assertion, h.body, ?_⟩
      intro p c hcall hp
      rw [lastOut_atomicTrace past rfl]
      exact h.suspended p c hcall hp
    · rw [hc] at hs
      cases hs
  | switch old next ra hs hra hroom =>
    refine h.switch hs hra hroom ?_
    intro c hc hwin
    rw [hc] at hout
    exact hout hwin
  | getpid hphase =>
    have hne : s.system.phase s.current ≠ .body := by
      rw [Creators.current, hphase]
      simp
    exact h.phase hne (fun _ => rfl) (.getpid s.system hphase)
  | sti me hphase =>
    have hne : s.system.phase s.current ≠ .body := by
      rw [Creators.current, hphase]
      simp
    exact h.phase hne (fun _ => rfl) (.sti s.system me hphase)
  | call me hphase =>
    have hne : s.system.phase s.current ≠ .body := by
      rw [Creators.current, hphase]
      simp
    exact h.phase hne (fun _ => rfl) (.call s.system me hphase)

theorem Creators.goto_running (call : Option CreateCall) (s : Creators) : (s.goto call).running = call :=
  Function.update_self _ _ _

theorem Creators.goto_call {call : Option CreateCall} (h : (s.goto call).call p = some c) :
    p = s.current ∧ call = some c ∨ p ≠ s.current ∧ s.call p = some c := by
  by_cases hp : p = s.current
  · refine .inl ⟨hp, ?_⟩
    rw [hp] at h
    exact (s.goto_running call).symm.trans h
  · exact .inr ⟨hp, (Function.update_of_ne hp _ _).symm.trans h⟩

theorem AtomicSoFar.callStep (h : AtomicSoFar L m gpr past s) (hphase : s.system.phase s.current = .body)
    (hrun : s.running = none) (name : ℕ → U8) (function : U32) :
    AtomicSoFar L m gpr (past ++ [.call name function]) (s.goto (some ⟨name, function, .search 0⟩)) := by
  have hfin : (s.goto (some ⟨name, function, .search 0⟩)).finished L = s.finished L := by
    rw [finished_of_running (s.goto_running _), Creators.finished, hrun]
    rfl
  refine ⟨h.runs_stutter hfin rfl, ?_, ?_, ?_, ?_⟩
  · intro p c hc hwin
    rcases Creators.goto_call hc with ⟨hp, -⟩ | ⟨-, hc⟩
    · exact hp
    · exact h.window p c hc hwin
  · intro p c hc
    rcases Creators.goto_call hc with ⟨-, hnew⟩ | ⟨-, hc⟩
    · cases hnew
      exact fun j hj => absurd hj (Nat.not_lt_zero _)
    · exact h.assertion p c hc
  · intro p c hc
    rcases Creators.goto_call hc with ⟨rfl, -⟩ | ⟨-, hc⟩
    · exact hphase
    · exact h.body p c hc
  · intro p c hc hp
    rcases Creators.goto_call hc with ⟨heq, -⟩ | ⟨-, hc⟩
    · exact absurd heq hp
    · rw [lastOut_atomicTrace past rfl]
      exact h.suspended p c hc hp

theorem AtomicSoFar.retStep (h : AtomicSoFar L m gpr past s) {found : Option Slot} (hrun : s.running = some c)
    (hpc : c.pc = .ret found) :
    AtomicSoFar L m gpr (past ++ [.ret (createResult s.system.kernel found)]) (s.goto none) := by
  have hfin : (s.goto none).finished L = s.finished L := by
    rw [finished_of_running hrun, finish_of_not_published (by rw [hpc]; exact id), Creators.finished, s.goto_running]
    rfl
  have hcall : ∀ p c, (s.goto none).call p = some c → p ≠ s.current ∧ s.call p = some c := by
    intro p c hc
    rcases Creators.goto_call hc with ⟨-, hnew⟩ | hold
    · cases hnew
    · exact hold
  refine ⟨h.runs_stutter hfin rfl, ?_, ?_, ?_, ?_⟩
  · exact fun p c hc => h.window p c (hcall p c hc).2
  · exact fun p c hc => h.assertion p c (hcall p c hc).2
  · exact fun p c hc => h.body p c (hcall p c hc).2
  · intro p c hc hp
    rw [lastOut_atomicTrace past rfl]
    exact h.suspended p c (hcall p c hc).2 hp

theorem Creators.execute_current (L : Layout) (c : CreateCall) (s : Creators) : (s.execute L c).current = s.current :=
  createStatement_currentPid L c s.system.kernel

theorem Creators.execute_running (L : Layout) (c : CreateCall) (s : Creators) :
    (s.execute L c).running = some { c with pc := (createStatement L c s.system.kernel).1 } := by
  rw [running, execute_current]
  exact Function.update_self _ _ _

theorem Creators.execute_call {d : CreateCall} (h : (s.execute L c).call p = some d) :
    p = s.current ∧ d = { c with pc := (createStatement L c s.system.kernel).1 } ∨
      p ≠ s.current ∧ s.call p = some d := by
  have hself : (s.execute L c).call s.current = some { c with pc := (createStatement L c s.system.kernel).1 } :=
    Function.update_self _ _ _
  by_cases hp : p = s.current
  · rw [hp, hself] at h
    exact .inl ⟨hp, (Option.some.inj h).symm⟩
  · exact .inr ⟨hp, (Function.update_of_ne hp _ _).symm.trans h⟩

theorem Creators.execute_finished (L : Layout) (c : CreateCall) (s : Creators) :
    (s.execute L c).finished L = { s.system with
      kernel := CreateCall.finish L { c with pc := (createStatement L c s.system.kernel).1 }
        (createStatement L c s.system.kernel).2 } := by
  rw [finished_of_running (s.execute_running L c)]
  rfl

/-- The statement that publishes the slot does what the atomic call does, and the others
do nothing that has not been accounted for there. -/
theorem AtomicSoFar.runs_execute (h : AtomicSoFar L m gpr past s) (hrun : s.running = some c)
    (hret : ∀ slot, c.pc ≠ .ret slot) :
    Runs (SwitchStep L) (.start L m gpr) (atomicTrace (past ++ [.statement c])) ((s.execute L c).finished L) := by
  have hassert := h.assertion _ c hrun
  have htable := h.tableInv
  have hfin := finished_of_running (L := L) hrun
  have hexec := s.execute_finished L c
  by_cases hpub : c.pc.Published
  · refine h.runs_stutter ?_ ?_
    · rw [hexec, hfin, finish_createStatement hpub]
    · obtain ⟨name, function, pc⟩ := c
      cases pc <;> first | rfl | exact absurd hpub id
  · have hbody := h.body _ c hrun
    rw [finish_of_not_published hpub] at hfin
    obtain ⟨name, function, pc⟩ := c
    cases pc with
    | setState slot =>
      have hcreate := SwitchStep.create (L := L) s.system name function hbody
      rw [createProcess_of_lowest hassert.1 hassert.2] at hcreate
      refine h.runs_step (?_ : SwitchStep L _ (.create name function (BitVec.ofNat 32 slot)) _) rfl
      rw [hexec, hfin]
      simp only [createStatement]
      rw [finish_fillSlot L slot name function (htable.pid slot)]
      exact hcreate
    | setPid slot =>
      refine h.runs_stutter ?_ rfl
      have hpid : Function.update s.system.kernel.processTable slot
          { s.system.kernel.processTable slot with pid := BitVec.ofNat 32 slot } = s.system.kernel.processTable := by
        rw [← htable.pid slot]
        exact Function.update_eq_self _ _
      rw [hexec, hfin]
      simp only [createStatement, hpid]
      rfl
    | search i =>
      refine h.runs_stutter ?_ rfl
      rw [hexec, hfin]
      simp only [createStatement]
      repeat' split
      all_goals rfl
    | testSlot slot =>
      refine h.runs_stutter ?_ rfl
      rw [hexec, hfin]
      cases slot <;> rfl
    | ret slot => exact absurd rfl (hret slot)
    | _ => exact absurd trivial hpub

theorem lastOut_statement (p : Slot) (c : CreateCall) : lastOut p (atomicTrace [.statement c]) = none := by
  obtain ⟨name, function, pc⟩ := c
  cases pc <;> rfl

theorem AtomicSoFar.statementStep (h : AtomicSoFar L m gpr past s) (hrun : s.running = some c)
    (hret : ∀ slot, c.pc ≠ .ret slot) : AtomicSoFar L m gpr (past ++ [.statement c]) (s.execute L c) := by
  refine ⟨h.runs_execute hrun hret, ?_, ?_, ?_, ?_⟩
  · intro p d hd hwin
    rw [s.execute_current]
    rcases Creators.execute_call hd with ⟨hp, -⟩ | ⟨-, hd⟩
    · exact hp
    · exact h.window p d hd hwin
  · intro p d hd
    rcases Creators.execute_call hd with ⟨-, rfl⟩ | ⟨hp, hd⟩
    · exact assertion_createStatement (h.assertion _ c hrun) hret
    · exact (h.assertion p d hd).mono (fun hwin => hp (h.window p d hd hwin)) (fun j => createStatement_used L c)
  · intro p d hd
    rcases Creators.execute_call hd with ⟨rfl, -⟩ | ⟨-, hd⟩
    · exact h.body _ c hrun
    · exact h.body p d hd
  · intro p d hd hp
    rw [s.execute_current] at hp
    rcases Creators.execute_call hd with ⟨heq, -⟩ | ⟨-, hd⟩
    · exact absurd heq hp
    · rw [lastOut_atomicTrace past (lastOut_statement p c)]
      exact h.suspended p d hd hp

/-- A run without a switch in the window stays atomic. -/
theorem AtomicSoFar.step (h : AtomicSoFar L m gpr past s) (hs : CreationStep L s e t) (hout : ¬e.InWindow) :
    AtomicSoFar L m gpr (past ++ [e]) t := by
  cases hs with
  | system e' t hstep hcreate => exact h.systemStep hstep hcreate hout
  | call name function hphase hrun => exact h.callStep hphase hrun name function
  | statement c hrun hret => exact h.statementStep hrun hret
  | ret c found hrun hpc => exact h.retStep hrun hpc

theorem atomicSoFar_start (L : Layout) (m : Memory) (gpr : Reg → U32) : AtomicSoFar L m gpr [] (.start L m gpr) :=
  ⟨.nil _, nofun, nofun, nofun, nofun⟩

end

end N7OS
