import N7OS.Bin.Shell
import N7OS.Foundation.Interactive

/-! # The process beside the shell

`bin/processus1.c`, which prints its lines while `p1_active` is set. The scheduler gives it some
steps before each system call `write` of the shell, each assignment and each wait for a key; the shell shares
the console and two variables with it.
-/
namespace N7OS.Demo
open User Interactive

/-- Where `processus1` is: at the test of `p1_active`, at one of the two accesses of `p1_iter++`, or in its `printf`, with
the blocks that are still to be written. -/
inductive Point
  | test
  | load
  | store (iter : U32)
  | print (blocks : List (List U8))
deriving DecidableEq

/-- `p1_active` and `p1_iter`. -/
structure Flags where
  active : Bool
  iter : U32
deriving DecidableEq

structure Processus1 extends Flags where
  point : Point
deriving DecidableEq

namespace Processus1

def start : Processus1 := ⟨⟨false, 0#32⟩, .test⟩

def goto (p : Processus1) (point : Point) : Processus1 := { p with point := point }

def assign (f : Flags → Flags) (p : Processus1) : Processus1 := ⟨f p.toFlags, p.point⟩

end Processus1

/-- What the shell and `processus1` share, and how many steps `processus1` has each time that it runs; it has none when
the list is at its end. -/
@[ext] structure Shared (κ : Type) where
  display : κ
  p1 : Processus1
  turns : List ℕ
deriving DecidableEq

/-- Where both write: a block of the shell, a block of `processus1`, and the blocks of the `printf` of `processus1`. -/
structure Medium (κ : Type) where
  put : κ → List U8 → κ
  putP1 : κ → List U8 → κ
  p1Blocks : κ → U32 → Option (List (List U8))

section
variable {κ κ' : Type} (M : Medium κ)

/-- A step of `processus1`. Neither the `hlt` nor the loop that slows the display down are steps, and the counter wraps as the
compiled code does. -/
def turn (m : Shared κ) : Option (Shared κ) :=
  match m.p1.point with
  | .test => some { m with p1 := if m.p1.active then m.p1.goto .load else m.p1 }
  | .load => some { m with p1 := m.p1.goto (.store m.p1.iter) }
  | .store n => (M.p1Blocks m.display n).map fun blocks => { m with p1 := ⟨⟨m.p1.active, n + 1#32⟩, .print blocks⟩ }
  | .print [] => some { m with p1 := m.p1.goto .test }
  | .print (block :: blocks) => some { m with display := M.putP1 m.display block, p1 := m.p1.goto (.print blocks) }

def turns : ℕ → Shared κ → Option (Shared κ)
  | 0, m => some m
  | k + 1, m => (turn M m).bind (turns k)

/-- The steps until the shell runs again. -/
def background (m : Shared κ) : Option (Shared κ) :=
  match m.turns with
  | [] => some m
  | k :: rest => turns M k { m with turns := rest }

def pause : Program (Shared κ) U8 PUnit := .act (background M)

def put (block : List U8) : Program (Shared κ) U8 PUnit := .act fun m => some { m with display := M.put m.display block }

/-- System calls one after the other. -/
def writes : List (List U8) → Program (Shared κ) U8 PUnit
  | [] => pure ⟨⟩
  | block :: blocks => do
    pause M
    put M block
    writes blocks

/-- An assignment to a variable of `processus1`. -/
def assign (f : Flags → Flags) : Program (Shared κ) U8 PUnit := do
  pause M
  .act fun m => some { m with p1 := m.p1.assign f }

/-- The wait for a key. -/
def key : Program (Shared κ) U8 U8 := do
  pause M
  .next

variable {M}

/-- Where `processus1` has no steps left. -/
theorem pause_alone (M : Medium κ) {m : Shared κ} (hturns : m.turns = []) (input : List U8) :
    pause M m input = .done ⟨⟩ m input := by
  have hquiet : background M m = some m := by rw [background, hturns]
  rw [pause, Program.act, hquiet]

theorem pause_reads : Program.Reads 0 (pause M) := Program.Reads.act _

theorem put_reads (block : List U8) : Program.Reads 0 (put M block) := Program.Reads.act _

theorem writes_reads (blocks : List (List U8)) : Program.Reads 0 (writes M blocks) := by
  induction blocks with
  | nil => exact Program.Reads.pure _
  | cons block blocks ih => exact pause_reads.bind fun _ => (put_reads block).bind fun _ => ih

theorem assign_reads (f : Flags → Flags) : Program.Reads 0 (assign M f) :=
  pause_reads.bind fun _ => Program.Reads.act _

theorem key_reads : Program.Reads 1 (key M) := pause_reads.bind fun _ => Program.Reads.next

theorem writes_append (blocks more : List (List U8)) : (do writes M blocks; writes M more) = writes M (blocks ++ more) := by
  induction blocks with
  | nil => rfl
  | cons block blocks ih =>
    rw [List.cons_append, writes, writes, Program.bind_assoc]
    refine congrArg (_ >>= ·) (funext fun _ => ?_)
    rw [Program.bind_assoc]
    exact congrArg (_ >>= ·) (funext fun _ => ih)

/-! ## Two media -/

/-- A relation that the blocks, the assignments and the steps of `processus1` keep. -/
structure Link (M : Medium κ) (M' : Medium κ') (D : Shared κ → Shared κ' → Prop) : Prop where
  put : ∀ m m' block, D m m' →
    D { m with display := M.put m.display block } { m' with display := M'.put m'.display block }
  assign : ∀ (f : Flags → Flags) m m', D m m' → D { m with p1 := m.p1.assign f } { m' with p1 := m'.p1.assign f }
  background : ∀ m m', D m m' → ∃ e e', background M m = some e ∧ background M' m' = some e' ∧ D e e'

section
variable {M' : Medium κ'} {R : κ → κ' → Prop} {D : Shared κ → Shared κ' → Prop}

theorem pause_simulates (h : Link M M' D) : Program.Simulates D Eq (pause M) (pause M') := .act h.background

theorem put_simulates (h : Link M M' D) (block : List U8) : Program.Simulates D Eq (put M block) (put M' block) :=
  .act fun m m' hD => ⟨_, _, rfl, rfl, h.put m m' block hD⟩

theorem writes_simulates (h : Link M M' D) (blocks : List (List U8)) :
    Program.Simulates D Eq (writes M blocks) (writes M' blocks) := by
  induction blocks with
  | nil => exact .pure rfl
  | cons block blocks ih => exact (pause_simulates h).bind fun _ _ _ => (put_simulates h block).bind fun _ _ _ => ih

theorem assign_simulates (h : Link M M' D) (f : Flags → Flags) :
    Program.Simulates D Eq (assign M f) (assign M' f) :=
  (pause_simulates h).bind fun _ _ _ => .act fun m m' hD => ⟨_, _, rfl, rfl, h.assign f m m' hD⟩

theorem key_simulates (h : Link M M' D) : Program.Simulates D Eq (key M) (key M') :=
  (pause_simulates h).bind fun _ _ _ => .next

/-- Side by side, with the same steps of `processus1` on both sides. -/
structure Beside (R : κ → κ' → Prop) (m : Shared κ) (m' : Shared κ') : Prop where
  display : R m.display m'.display
  p1 : m.p1 = m'.p1
  turns : m.turns = m'.turns

/-- The two media agree on what `processus1` prints. -/
structure Together (M : Medium κ) (M' : Medium κ') (R : κ → κ' → Prop) : Prop where
  put : ∀ d d' block, R d d' → R (M.put d block) (M'.put d' block)
  putP1 : ∀ d d' block, R d d' → R (M.putP1 d block) (M'.putP1 d' block)
  p1Blocks : ∀ d d' n, R d d' → ∃ blocks, M.p1Blocks d n = some blocks ∧ M'.p1Blocks d' n = some blocks

theorem turn_beside (h : Together M M' R) {m : Shared κ} {m' : Shared κ'} (hm : Beside R m m') :
    ∃ e e', turn M m = some e ∧ turn M' m' = some e' ∧ Beside R e e' := by
  obtain ⟨hdisplay, hp1, hturns⟩ := hm
  unfold turn
  rw [← hp1]
  cases m.p1.point with
  | test => exact ⟨_, _, rfl, rfl, hdisplay, rfl, hturns⟩
  | load => exact ⟨_, _, rfl, rfl, hdisplay, rfl, hturns⟩
  | store n =>
    obtain ⟨blocks, hblocks, hblocks'⟩ := h.p1Blocks _ _ n hdisplay
    dsimp only
    rw [hblocks, hblocks']
    exact ⟨_, _, rfl, rfl, hdisplay, rfl, hturns⟩
  | print blocks =>
    cases blocks with
    | nil => exact ⟨_, _, rfl, rfl, hdisplay, rfl, hturns⟩
    | cons block blocks => exact ⟨_, _, rfl, rfl, h.putP1 _ _ block hdisplay, rfl, hturns⟩

theorem turns_beside (h : Together M M' R) (k : ℕ) {m : Shared κ} {m' : Shared κ'} (hm : Beside R m m') :
    ∃ e e', turns M k m = some e ∧ turns M' k m' = some e' ∧ Beside R e e' := by
  induction k generalizing m m' with
  | zero => exact ⟨m, m', rfl, rfl, hm⟩
  | succ k ih =>
    obtain ⟨e, e', he, he', hnext⟩ := turn_beside h hm
    rw [turns, turns, he, he']
    exact ih hnext

theorem link_beside (h : Together M M' R) : Link M M' (Beside R) := by
  constructor
  · exact fun m m' block hm => ⟨h.put _ _ block hm.display, hm.p1, hm.turns⟩
  · exact fun f m m' hm => ⟨hm.display, congrArg (Processus1.assign f) hm.p1, hm.turns⟩
  · intro m m' hm
    unfold background
    rw [← hm.turns]
    cases m.turns with
    | nil => exact ⟨m, m', rfl, rfl, hm⟩
    | cons k rest => exact turns_beside h k ⟨hm.display, hm.p1, rfl⟩

/-- The shell alone on the other side. -/
structure Alone (R : κ → κ' → Prop) (m : Shared κ) (m' : Shared κ') : Prop where
  display : R m.display m'.display
  turns : m'.turns = []

/-- What `processus1` prints is not to be seen on the other medium. -/
structure Hidden (M : Medium κ) (M' : Medium κ') (R : κ → κ' → Prop) : Prop where
  put : ∀ d d' block, R d d' → R (M.put d block) (M'.put d' block)
  putP1 : ∀ d d' block, R d d' → R (M.putP1 d block) d'
  p1Blocks : ∀ d d' n, R d d' → ∃ blocks, M.p1Blocks d n = some blocks

theorem turn_hidden (h : Hidden M M' R) {m : Shared κ} {d' : κ'} (hm : R m.display d') :
    ∃ e, turn M m = some e ∧ R e.display d' := by
  unfold turn
  cases m.p1.point with
  | test => exact ⟨_, rfl, hm⟩
  | load => exact ⟨_, rfl, hm⟩
  | store n =>
    obtain ⟨blocks, hblocks⟩ := h.p1Blocks _ _ n hm
    dsimp only
    rw [hblocks]
    exact ⟨_, rfl, hm⟩
  | print blocks =>
    cases blocks with
    | nil => exact ⟨_, rfl, hm⟩
    | cons block blocks => exact ⟨_, rfl, h.putP1 _ _ block hm⟩

theorem turns_hidden (h : Hidden M M' R) (k : ℕ) {m : Shared κ} {d' : κ'} (hm : R m.display d') :
    ∃ e, turns M k m = some e ∧ R e.display d' := by
  induction k generalizing m with
  | zero => exact ⟨m, rfl, hm⟩
  | succ k ih =>
    obtain ⟨e, he, hnext⟩ := turn_hidden h hm
    rw [turns, he]
    exact ih hnext

theorem link_alone (h : Hidden M M' R) : Link M M' (Alone R) := by
  constructor
  · exact fun m m' block hm => ⟨h.put _ _ block hm.display, hm.turns⟩
  · exact fun f m m' hm => ⟨hm.display, hm.turns⟩
  · intro m m' hm
    have hquiet : background M' m' = some m' := by rw [background, hm.turns]
    rw [hquiet, background]
    cases m.turns with
    | nil => exact ⟨m, m', rfl, rfl, hm⟩
    | cons k rest =>
      obtain ⟨e, he, hnext⟩ := turns_hidden h k (m := { m with turns := rest }) hm.display
      exact ⟨e, m', he, rfl, hnext, hm.turns⟩

end

end

end N7OS.Demo
