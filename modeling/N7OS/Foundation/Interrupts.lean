import N7OS.Foundation.Execution

/-! # Threads and interrupts on one processor

Several threads of control share a processor with an interrupt flag and an
interrupt controller. An interrupt gate saves the flag and clears it, `iret`
restores the flag saved, and a switch to another thread leaves it as it is.
-/
namespace Interrupts
open Execution

/-- Code over a shared state `σ`, with the software interrupts `V`; the places `X` name its `sti`
and `hlt`. -/
inductive Stmt (σ V X : Type) : Type 1
  | sti (x : X)
  | hlt (x : X)
  | act (f : σ → σ)
  | eoi
  | int (v : V)
  | iret
  | schedule
  | seq (p q : Stmt σ V X)
  | branch (f : σ → Stmt σ V X)
  | choose {ι : Type} (f : ι → Stmt σ V X)
  | loop (c : σ → Bool) (p : Stmt σ V X)
  | forever (p : Stmt σ V X)

/-- What an interrupt pushes: the flag, and the code it comes back to. -/
structure Frame (σ V X : Type) where
  flag : Bool
  code : List (Stmt σ V X)

/-- The code a thread runs now, and the interrupts it has still to return from, innermost first. -/
structure Context (σ V X : Type) where
  code : List (Stmt σ V X)
  frames : List (Frame σ V X)

/-- `inService` lists the lines in service, that of highest priority first. -/
structure Cpu (σ : Type) where
  data : σ
  flag : Bool
  halted : Bool
  inService : List ℕ

/-- The processor, the context it runs, and those of the other threads. -/
structure Machine (σ T V X : Type) where
  cpu : Cpu σ
  context : Context σ V X
  saved : T → Context σ V X

/-- The code behind the gates, the lines that are not masked, and what changes the data from outside. -/
structure Setup (σ T V X : Type) where
  running : σ → T
  schedule : σ → σ × Option (T × T)
  handler : V → Stmt σ V X
  line : ℕ → Option V
  outside : σ → σ → Prop

inductive Action (T V X : Type)
  | compute
  | sti (x : X)
  | hlt (x : X)
  | eoi
  | int (v : V)
  | iret
  | stay
  | switch (next : T)
  | interrupt (n : ℕ)
  | outside

/-- One step, with the thread, the number of its frames and the state of the interrupts before it. -/
structure Event (T V X : Type) where
  thread : T
  depth : ℕ
  flag : Bool
  inService : List ℕ
  action : Action T V X

section
variable {σ T V X : Type}

/-- The statements that neither enter nor leave an interrupt, nor call the scheduler. -/
inductive Local : Cpu σ → List (Stmt σ V X) → Action T V X → Cpu σ → List (Stmt σ V X) → Prop
  | sti (c : Cpu σ) (x : X) (k : List (Stmt σ V X)) :
      Local c (.sti x :: k) (.sti x) { c with flag := true } k
  | hlt (c : Cpu σ) (x : X) (k : List (Stmt σ V X)) :
      Local c (.hlt x :: k) (.hlt x) { c with halted := true } k
  | act (c : Cpu σ) (f : σ → σ) (k : List (Stmt σ V X)) :
      Local c (.act f :: k) .compute { c with data := f c.data } k
  | eoi (c : Cpu σ) (k : List (Stmt σ V X)) :
      Local c (.eoi :: k) .eoi { c with inService := c.inService.tail } k
  | seq (c : Cpu σ) (p q : Stmt σ V X) (k : List (Stmt σ V X)) :
      Local c (.seq p q :: k) .compute c (p :: q :: k)
  | branch (c : Cpu σ) (f : σ → Stmt σ V X) (k : List (Stmt σ V X)) :
      Local c (.branch f :: k) .compute c (f c.data :: k)
  | choose (c : Cpu σ) {ι : Type} (f : ι → Stmt σ V X) (i : ι) (k : List (Stmt σ V X)) :
      Local c (.choose f :: k) .compute c (f i :: k)
  | exit (c : Cpu σ) (b : σ → Bool) (p : Stmt σ V X) (k : List (Stmt σ V X)) : b c.data = false →
      Local c (.loop b p :: k) .compute c k
  | enter (c : Cpu σ) (b : σ → Bool) (p : Stmt σ V X) (k : List (Stmt σ V X)) : b c.data = true →
      Local c (.loop b p :: k) .compute c (p :: .loop b p :: k)
  | forever (c : Cpu σ) (p : Stmt σ V X) (k : List (Stmt σ V X)) :
      Local c (.forever p :: k) .compute c (p :: .forever p :: k)

def Context.push (flag : Bool) (p : Stmt σ V X) (x : Context σ V X) : Context σ V X :=
  ⟨[p], ⟨flag, x.code⟩ :: x.frames⟩

variable [DecidableEq T] (C : Setup σ T V X)

def Machine.thread (m : Machine σ T V X) : T := C.running m.cpu.data

def Machine.event (m : Machine σ T V X) (a : Action T V X) : Event T V X :=
  ⟨m.thread C, m.context.frames.length, m.cpu.flag, m.cpu.inService, a⟩

/-- A halted processor waits for an interrupt. A line is served when the flag is set and nothing
of its priority or above is in service. -/
inductive Step : Machine σ T V X → Event T V X → Machine σ T V X → Prop
  | local (m : Machine σ T V X) {a : Action T V X} {c : Cpu σ} {k : List (Stmt σ V X)} :
      m.cpu.halted = false → Local m.cpu m.context.code a c k →
      Step m (m.event C a) { m with cpu := c, context := { m.context with code := k } }
  | int (m : Machine σ T V X) (v : V) (k : List (Stmt σ V X)) :
      m.cpu.halted = false → m.context.code = .int v :: k →
      Step m (m.event C (.int v))
        { m with
          cpu := { m.cpu with flag := false }
          context := (Context.mk k m.context.frames).push m.cpu.flag (C.handler v) }
  | iret (m : Machine σ T V X) (k : List (Stmt σ V X)) (f : Frame σ V X) (fs : List (Frame σ V X)) :
      m.cpu.halted = false → m.context.code = .iret :: k → m.context.frames = f :: fs →
      Step m (m.event C .iret) { m with cpu := { m.cpu with flag := f.flag }, context := ⟨f.code, fs⟩ }
  | stay (m : Machine σ T V X) (k : List (Stmt σ V X)) :
      m.cpu.halted = false → m.context.code = .schedule :: k → (C.schedule m.cpu.data).2 = none →
      Step m (m.event C .stay)
        { m with
          cpu := { m.cpu with data := (C.schedule m.cpu.data).1 }
          context := { m.context with code := k } }
  | switch (m : Machine σ T V X) (k : List (Stmt σ V X)) (old next : T) :
      m.cpu.halted = false → m.context.code = .schedule :: k →
      (C.schedule m.cpu.data).2 = some (old, next) →
      Step m (m.event C (.switch next))
        { cpu := { m.cpu with data := (C.schedule m.cpu.data).1 }
          context := m.saved next
          saved := Function.update m.saved old ⟨k, m.context.frames⟩ }
  | interrupt (m : Machine σ T V X) (n : ℕ) (v : V) :
      m.cpu.flag = true → C.line n = some v → (∀ l ∈ m.cpu.inService, n < l) →
      Step m (m.event C (.interrupt n))
        { m with
          cpu := { m.cpu with flag := false, halted := false, inService := n :: m.cpu.inService }
          context := m.context.push m.cpu.flag (C.handler v) }
  | outside (m : Machine σ T V X) (d : σ) : C.outside m.cpu.data d →
      Step m (m.event C .outside) { m with cpu := { m.cpu with data := d } }

end

/-! ## The outermost activation -/

section
variable {σ V X : Type}

/-- The flag and the code of a thread outside all its interrupts, when it is on the processor with
the given flag. -/
def Context.base (flag : Bool) (x : Context σ V X) : Frame σ V X := x.frames.getLast?.getD ⟨flag, x.code⟩

theorem base_nil (flag : Bool) (k : List (Stmt σ V X)) : (Context.mk k []).base flag = ⟨flag, k⟩ := rfl

theorem base_of_frames (flag flag' : Bool) (k k' : List (Stmt σ V X)) {fs : List (Frame σ V X)} (h : fs ≠ []) :
    (Context.mk k fs).base flag = (Context.mk k' fs).base flag' := by
  cases hl : fs.getLast? with
  | none => exact absurd (List.getLast?_eq_none_iff.mp hl) h
  | some f => simp [Context.base, hl]

/-- Entering an interrupt and returning from it leave the outermost activation alone. -/
theorem base_cons (flag : Bool) (k : List (Stmt σ V X)) (f : Frame σ V X) (fs : List (Frame σ V X)) :
    (Context.mk k (f :: fs)).base flag = (Context.mk f.code fs).base f.flag := by
  simp [Context.base, List.getLast?_cons]

end

end Interrupts
