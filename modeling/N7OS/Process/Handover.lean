import N7OS.Process.ContextIntegrity

/-! # The boot hand-over, statement by statement

From `start_scheduling` on, `idle` calls `schedule` itself with interrupts
enabled, and the timer may interrupt it before any statement. The threads of
control are told apart by the stack they run on: thread `p` is the one on the
stack of slot `p`, whatever `current_pid` says.
-/
namespace N7OS
open Execution ByteMemory CyclicScan

/-- The next statement of a thread outside interrupt handlers. -/
inductive Control
  | unborn
  | body
  | startScheduling
  | testEnabled
  | readCurrent
  | initNext (oldPid : Slot)
  | scan (oldPid : Slot) (i : ℕ)
  | testNext (oldPid next : Slot)
  | testOld (oldPid next : Slot)
  | releaseOld (oldPid next : Slot)
  | electNext (oldPid next : Slot)
  | setCurrent (oldPid next : Slot)
  | callCtxSw (oldPid next : Slot)
  | starter
  | sti (me : Slot)
  | call (me : Slot)

/-- One statement of `start_scheduling` or of the `schedule` that `idle` calls. -/
def scheduleStatement (k : Kernel) : Control → Option (Kernel × Control)
  | .startScheduling => some (startScheduling k, .testEnabled)
  | .testEnabled => some (k, if k.schedulingEnabled then .readCurrent else .body)
  | .readCurrent => some (k, .initNext k.currentPid)
  | .initNext oldPid => some (k, .scan oldPid 1)
  | .scan oldPid i =>
    if i ≤ 16 then
      if (k.processTable (candidate oldPid i)).state = .pret then
        some (k, .testNext oldPid (candidate oldPid i))
      else some (k, .scan oldPid (i + 1))
    else some (k, .testNext oldPid oldPid)
  | .testNext oldPid next => some (k, if next = oldPid then .body else .testOld oldPid next)
  | .testOld oldPid next =>
    some (k, if (k.processTable oldPid).state = .elu then .releaseOld oldPid next
      else .electNext oldPid next)
  | .releaseOld oldPid next =>
    some ({ k with processTable := setState oldPid .pret k.processTable }, .electNext oldPid next)
  | .electNext oldPid next =>
    some ({ k with processTable := setState next .elu k.processTable }, .setCurrent oldPid next)
  | .setCurrent oldPid next => some ({ k with currentPid := next }, .callCtxSw oldPid next)
  | _ => none

/-- `tick_handler_C` up to its switch, with `system_ticks` already incremented. -/
def tickHandlerC (systemTicks : U32) (k : Kernel) : Kernel × Option (Slot × Slot) :=
  if systemTicks % 50#32 = 0#32 then schedule k else (k, none)

/-- `running` is the thread on the processor, `frames p` the number of timer
handlers that thread `p` has still to return from, and `saved p` what it was last
switched out with. -/
structure Machine where
  kernel : Kernel
  gpr : Reg → U32
  interrupts : Bool
  systemTicks : U32
  running : Slot
  control : Slot → Control
  frames : Slot → ℕ
  saved : Slot → Option Switch

/-- `kernel_start` before its call of `start_scheduling`, after its `sti`. -/
def Machine.boot (L : Layout) (m : Memory) (gpr : Reg → U32) (systemTicks : U32) : Machine where
  kernel := kernelTable L m
  gpr := gpr
  interrupts := true
  systemTicks := systemTicks
  running := 0
  control := Function.update (fun _ => .unborn) 0 .startScheduling
  frames _ := 0
  saved _ := none

/-- The running thread has changed its registers and its own stack only. -/
def Machine.OwnStack (L : Layout) (s : Machine) (m : Memory) : Prop :=
  ∀ x, ¬L.InStack s.running x → m x = s.kernel.mem x

def Machine.goto (c : Control) (s : Machine) : Machine :=
  { s with control := Function.update s.control s.running c }

/-- A call of `ctx_sw` that leads to the thread `into`. -/
structure SwitchCall where
  old : Slot
  next : Slot
  into : Slot
  ra : U32
  cpu : Cpu

def SwitchCall.record (L : Layout) (w : SwitchCall) : Switch := switchRecord L w.old w.next w.ra w.cpu

/-- The return address lies in `schedule`, the stack of the running thread has
room for the call, and the stack pointer loaded belongs to `into`. -/
structure SwitchCall.Ok (L : Layout) (s : Machine) (w : SwitchCall) : Prop where
  own : s.OwnStack L w.cpu.mem
  inside : w.ra ≠ L.processStarter
  room : L.StackRoom s.running (w.cpu.gpr .esp)
  into : L.InStack w.into (w.record L).loaded.esp.toNat

def Machine.switchTo (L : Layout) (w : SwitchCall) (s : Machine) : Machine :=
  let cpu := N7OS.switchTo L w.old w.next w.ra w.cpu
  { s with
    kernel := { s.kernel with mem := cpu.mem }
    gpr := cpu.gpr
    running := w.into
    control := if (w.record L).popped = L.processStarter then
      Function.update s.control w.into .starter else s.control
    saved := Function.update s.saved s.running (some (w.record L)) }

/-- The machine when the timer handler calls `ctx_sw`. -/
def Machine.preempted (k : Kernel) (s : Machine) : Machine :=
  { s with
    kernel := k
    interrupts := false
    systemTicks := s.systemTicks + 1
    frames := Function.update s.frames s.running (s.frames s.running + 1) }

inductive HandoverEvent
  | work
  | create (name : ℕ → U8) (function : U32) (result : U32)
  | statement
  | switch
  | tick
  | preempt (frames : ℕ) (next : Control)
  | iret
  | starter
  | call (p : Slot) (function : U32)

/-- The scheduler a statement at a time. The call of `ctx_sw` is one step up to its `ret`: an interrupt comes before or
after it, not between its loads and stores. -/
inductive HandoverStep (L : Layout) : Machine → HandoverEvent → Machine → Prop
  | work (s : Machine) (gpr : Reg → U32) (m : Memory) (interrupts : Bool) :
      s.frames s.running = 0 → s.control s.running = .body → s.OwnStack L m →
      HandoverStep L s .work
        { s with gpr := gpr, interrupts := interrupts, kernel := { s.kernel with mem := m } }
  | create (s : Machine) (name : ℕ → U8) (function : U32) :
      s.frames s.running = 0 → s.control s.running = .body →
      HandoverStep L s (.create name function (createProcess L name function s.kernel).2)
        { s with kernel := (createProcess L name function s.kernel).1 }
  | statement (s : Machine) (k : Kernel) (c : Control) :
      s.frames s.running = 0 → scheduleStatement s.kernel (s.control s.running) = some (k, c) →
      HandoverStep L s .statement ({ s with kernel := k }.goto c)
  | switch (s : Machine) (w : SwitchCall) :
      s.frames s.running = 0 → s.control s.running = .callCtxSw w.old w.next → w.Ok L s →
      HandoverStep L s .switch ((s.goto .body).switchTo L w)
  | tick (s : Machine) (m : Memory) :
      s.interrupts = true → (tickHandlerC (s.systemTicks + 1) s.kernel).2 = none → s.OwnStack L m →
      HandoverStep L s .tick
        { s with
          systemTicks := s.systemTicks + 1
          kernel := { (tickHandlerC (s.systemTicks + 1) s.kernel).1 with mem := m } }
  | preempt (s : Machine) (w : SwitchCall) :
      s.interrupts = true →
      (tickHandlerC (s.systemTicks + 1) s.kernel).2 = some (w.old, w.next) → w.Ok L s →
      HandoverStep L s (.preempt (s.frames s.running) (s.control s.running))
        ((s.preempted (tickHandlerC (s.systemTicks + 1) s.kernel).1).switchTo L w)
  | iret (s : Machine) (gpr : Reg → U32) (n : ℕ) : s.frames s.running = n + 1 →
      HandoverStep L s .iret
        { s with gpr := gpr, interrupts := true, frames := Function.update s.frames s.running n }
  | getpid (s : Machine) : s.frames s.running = 0 → s.control s.running = .starter →
      HandoverStep L s .starter (s.goto (.sti (getpid s.kernel)))
  | sti (s : Machine) (me : Slot) : s.frames s.running = 0 → s.control s.running = .sti me →
      HandoverStep L s .starter ({ s with interrupts := true }.goto (.call me))
  | call (s : Machine) (me : Slot) : s.frames s.running = 0 → s.control s.running = .call me →
      HandoverStep L s (.call s.running (s.kernel.processEntry me)) (s.goto .body)

/-- A timer interrupt that switches between the last two statements of the
`schedule` that `idle` calls, `current_pid = next` and the call of `ctx_sw`. -/
def HandoverEvent.InWindow : HandoverEvent → Prop
  | .preempt 0 (.callCtxSw _ _) => True
  | _ => False

/-- Every suspended process can be resumed where it was, and none runs under
another's pid or without having gone through its trampoline. -/
structure ContextsOwn (L : Layout) (s : Machine) : Prop where
  contexts : ∀ p, p ≠ s.running → (s.kernel.processTable p).state ≠ .libre →
    Suspended L p s.kernel.mem (s.saved p)
  pid : (∀ oldPid next, s.control s.running ≠ .callCtxSw oldPid next) → s.kernel.currentPid = s.running
  born : s.control s.running ≠ .unborn
  trampoline : ∀ p me, s.control p = .sti me ∨ s.control p = .call me → me = p

/-! ## Without interrupts -/

/-- Statements run without a break. -/
inductive Statements : Kernel → Control → Kernel → Control → Prop
  | refl (k : Kernel) (c : Control) : Statements k c k c
  | step {k k' k'' : Kernel} {c c' c'' : Control} :
      scheduleStatement k c = some (k', c') → Statements k' c' k'' c'' → Statements k c k'' c''

variable {L : Layout} {k k' : Kernel} {c c' : Control} {oldPid : Slot} {i : ℕ}

theorem nextPid_of_first (h0 : 0 < i) (hi : i ≤ 16)
    (hpret : (k.processTable (candidate oldPid i)).state = .pret)
    (hskip : ∀ j, 0 < j → j < i → (k.processTable (candidate oldPid j)).state ≠ .pret) :
    nextPid k.processTable oldPid = candidate oldPid i := by
  have hscan : scan (fun i => decide ((k.processTable i).state = .pret)) oldPid =
      some (candidate oldPid i) := by
    refine scan_eq_some.mpr ⟨by simpa using hpret, ?_⟩
    intro r hr
    rw [steps_candidate h0 hi]
    by_contra hlt
    refine hskip (steps oldPid r) (steps_pos _ _) (by omega) ?_
    rw [candidate_steps]
    simpa using hr
  rw [nextPid, hscan, Option.getD_some]

theorem nextPid_of_none
    (hskip : ∀ j, 0 < j → j < 17 → (k.processTable (candidate oldPid j)).state ≠ .pret) :
    nextPid k.processTable oldPid = oldPid := by
  have hscan : scan (fun i => decide ((k.processTable i).state = .pret)) oldPid = none := by
    refine scan_eq_none.mpr ?_
    intro r
    have hle := steps_le oldPid r
    have hr := hskip (steps oldPid r) (steps_pos _ _) (by omega)
    rw [candidate_steps] at hr
    simpa using hr
  rw [nextPid, hscan, Option.getD_none]

theorem Statements.trans {k'' : Kernel} {c'' : Control} (h : Statements k c k' c')
    (h' : Statements k' c' k'' c'') : Statements k c k'' c'' := by
  induction h with
  | refl => exact h'
  | step hs _ ih => exact .step hs (ih h')

/-- The loop of `schedule` finds the slot that `nextPid` names. -/
theorem statements_scan (n : ℕ) (h0 : 0 < i) (hn : i + n = 17)
    (hskip : ∀ j, 0 < j → j < i → (k.processTable (candidate oldPid j)).state ≠ .pret) :
    Statements k (.scan oldPid i) k (.testNext oldPid (nextPid k.processTable oldPid)) := by
  induction n generalizing i with
  | zero =>
    have hi : ¬i ≤ 16 := by omega
    rw [nextPid_of_none fun j hj hlt => hskip j hj (by omega)]
    refine .step ?_ (.refl _ _)
    rw [scheduleStatement, if_neg hi]
  | succ n ih =>
    have hi : i ≤ 16 := by omega
    by_cases hpret : (k.processTable (candidate oldPid i)).state = .pret
    · rw [nextPid_of_first h0 hi hpret hskip]
      refine .step ?_ (.refl _ _)
      rw [scheduleStatement, if_pos hi, if_pos hpret]
    · refine .step ?_ (ih (Nat.succ_pos i) (by omega) ?_)
      · rw [scheduleStatement, if_pos hi, if_neg hpret]
      · intro j hj hlt
        by_cases hji : j = i
        · subst hji
          exact hpret
        · exact hskip j hj (by omega)

/-- The statements after the test `next == old_pid` has failed. -/
theorem statements_elect (k : Kernel) (oldPid next : Slot) :
    Statements k (.testOld oldPid next)
      { k with
        processTable := setState next .elu
          (if (k.processTable oldPid).state = .elu then setState oldPid .pret k.processTable
            else k.processTable)
        currentPid := next }
      (.callCtxSw oldPid next) := by
  have helect : ∀ k : Kernel, Statements k (.electNext oldPid next)
      { k with processTable := setState next .elu k.processTable, currentPid := next }
      (.callCtxSw oldPid next) := fun k => .step rfl (.step rfl (.refl _ _))
  by_cases helu : (k.processTable oldPid).state = .elu
  · have htest : scheduleStatement k (.testOld oldPid next) = some (k, .releaseOld oldPid next) := by
      rw [scheduleStatement, if_pos helu]
    rw [if_pos helu]
    exact .step htest (.step rfl (helect _))
  · have htest : scheduleStatement k (.testOld oldPid next) = some (k, .electNext oldPid next) := by
      rw [scheduleStatement, if_neg helu]
    rw [if_neg helu]
    exact .step htest (helect _)

/-- Uninterrupted, the statements do what `schedule` does in one step. -/
theorem statements_schedule (k : Kernel) :
    Statements k .testEnabled (schedule k).1
      (match (schedule k).2 with
        | some (oldPid, next) => .callCtxSw oldPid next
        | none => .body) := by
  rw [schedule]
  by_cases hen : k.schedulingEnabled = true
  · have hskip : ∀ j, 0 < j → j < 1 → (k.processTable (candidate k.currentPid j)).state ≠ .pret :=
      fun j h0 h1 => absurd h1 (by omega)
    have hloop := statements_scan 16 Nat.one_pos rfl hskip
    have henabled : scheduleStatement k .testEnabled = some (k, .readCurrent) := by
      rw [scheduleStatement, if_pos hen]
    have hread : Statements k .readCurrent k (.scan k.currentPid 1) := .step rfl (.step rfl (.refl _ _))
    have htest := Statements.step henabled (hread.trans hloop)
    rw [if_neg (not_not.mpr hen)]
    simp only
    generalize nextPid k.processTable k.currentPid = next at htest
    by_cases hnext : next = k.currentPid
    · rw [if_pos hnext]
      refine htest.trans (.step ?_ (.refl _ _))
      rw [scheduleStatement, if_pos hnext]
    · rw [if_neg hnext]
      refine htest.trans (.step ?_ (statements_elect k k.currentPid next))
      rw [scheduleStatement, if_neg hnext]
  · rw [if_pos hen]
    refine .step ?_ (.refl _ _)
    rw [scheduleStatement, if_neg hen]

end N7OS
