import N7OS.Syscall.Dispatch

/-! # Interrupts that a program cannot see

`handler_timer.S`, `handler_keyboard.S` and `handler_IT.S`. A program that is interrupted
anywhere goes on as if nothing had happened, whatever the C function does to the memory
that is not the program's own.
-/
namespace N7OS.Dispatch
open ByteMemory Execution

/-! ## The stubs -/

/-- The stubs by what they serve; `test` is the `int $50` of the demonstration. -/
inductive Line
  | timer
  | keyboard
  | test
deriving DecidableEq

/-- The linker's symbols: the C functions, the stubs, and the addresses behind the calls in them. -/
structure StubSymbols where
  tickHandlerC : U32
  keyboardHandlerC : U32
  handlerEnC : U32
  handler : Line → U32
  back : Line → U32

/-- The registers that a C function may change. -/
def pushScratch (c : Core) : Core :=
  let c := c.push (c.gpr .eax)
  let c := c.push (c.gpr .edx)
  c.push (c.gpr .ecx)

/-- The state in which the function is entered; `back` is the address behind the `call`. -/
def entered (function back : U32) (c : Core) : Core := { (pushScratch c).push back with eip := function }

/-- The stubs differ in the function. -/
def stub (function : U32) (compiled : U32 → Core → Core) (back : U32) (c : Core) : Core :=
  let c := compiled function (entered function back c)
  let c := c.pop .ecx
  let c := c.pop .edx
  let c := c.pop .eax
  c.iret

def handlerTimer (l : StubSymbols) : (U32 → Core → Core) → U32 → Core → Core := stub l.tickHandlerC

def handlerKeyboard (l : StubSymbols) : (U32 → Core → Core) → U32 → Core → Core := stub l.keyboardHandlerC

def handlerIT (l : StubSymbols) : (U32 → Core → Core) → U32 → Core → Core := stub l.handlerEnC

namespace StubSymbols

def function (l : StubSymbols) : Line → U32
  | .timer => l.tickHandlerC
  | .keyboard => l.keyboardHandlerC
  | .test => l.handlerEnC

def code (l : StubSymbols) : Line → (U32 → Core → Core) → U32 → Core → Core
  | .timer => handlerTimer l
  | .keyboard => handlerKeyboard l
  | .test => handlerIT l

/-- From the gate to the `iret`. -/
def serve (l : StubSymbols) (n : Line) (compiled : U32 → Core → Core) (next : U32) (c : Core) : Core :=
  l.code n compiled (l.back n) (c.intGate (l.handler n) next)

/-- The state in which the function of a line is entered. -/
def entry (l : StubSymbols) (n : Line) (next : U32) (c : Core) : Core :=
  entered (l.function n) (l.back n) (c.intGate (l.handler n) next)

end StubSymbols

/-- A function without arguments keeps all of its caller's stack. -/
structure ReturnsPlain (c c' : Core) : Prop extends Returns c c' where
  scratch : ∀ k, 4 ≤ k → k < 16 → c'.mem (c.sp + k) = c.mem (c.sp + k)

section
variable {c : Core}

theorem entered_frame (function back : U32) (h : 16 ≤ c.sp) :
    ((entered function back c).sp = c.sp - 16 ∧ (entered function back c).word 0 = back) ∧
      ((entered function back c).word 4 = c.gpr .ecx ∧ (entered function back c).word 8 = c.gpr .edx ∧
        (entered function back c).word 12 = c.gpr .eax ∧ ∀ k, (entered function back c).word (k + 16) = c.word k) ∧
      (∀ r, r ≠ .esp → (entered function back c).gpr r = c.gpr r) ∧
      SameOutside (object (c.sp - 16) 16) c.mem (entered function back c).mem :=
  Core.call_frame h (c.gpr .eax) (c.gpr .edx) (c.gpr .ecx) back

theorem ReturnsPlain.words {entry a : Core} (h : 28 ≤ c.sp) (hentry : entry.sp = c.sp - 28) (ha : ReturnsPlain entry a) :
    ∀ k, k ≤ 20 → a.word k = entry.word (k + 4) := by
  obtain ⟨hsp, -⟩ := ha.frame_words h hentry
  intro k hk
  rw [Core.word, Core.word, show a.sp + k = entry.sp + (k + 4) by omega]
  refine load32_congr fun x hx hx' => ?_
  obtain ⟨j, rfl⟩ := Nat.exists_eq_add_of_le (show entry.sp ≤ x by omega)
  by_cases hj : j < 16
  · exact ha.scratch j (by omega) hj
  · exact ha.frame j (by omega) (by omega)

/-- The interrupted state comes back, with the memory that the function has left. -/
theorem stub_returns (function : U32) (compiled : U32 → Core → Core) (handler next back : U32) (h : 28 ≤ c.sp)
    (habi : ReturnsPlain (entered function back (c.intGate handler next))
      (compiled function (entered function back (c.intGate handler next)))) :
    stub function compiled back (c.intGate handler next) =
      { c with eip := next, mem := (compiled function (entered function back (c.intGate handler next))).mem } := by
  obtain ⟨hsp, hnext, hcs, hflags, -⟩ := intGate_frame (c := c) (by omega) handler next
  have hgate : ∀ r, r ≠ .esp → (c.intGate handler next).gpr r = c.gpr r := fun r hr => intGate_gpr hr c handler next
  rw [stub]
  generalize c.intGate handler next = g at hsp hnext hcs hflags hgate habi ⊢
  obtain ⟨⟨hentry, -⟩, ⟨hecx, hedx, heax, hrest⟩, hgpr, -⟩ := entered_frame (c := g) function back (by omega)
  generalize entered function back g = entry at hentry hecx hedx heax hrest hgpr habi ⊢
  generalize compiled function entry = a at habi ⊢
  have hkept : ∀ r, r ≠ .esp → entry.gpr r = c.gpr r := fun r hr => (hgpr r hr).trans (hgate r hr)
  have hword := habi.words h (by omega)
  obtain ⟨hasp, -⟩ := habi.frame_words h (by omega)
  have hsaved : ∀ q ∈ [Gpr.ebx, .ebp, .esi, .edi], a.gpr q = entry.gpr q := habi.saved
  rw [Core.pops_iret (by decide) (by decide) (by decide) h hasp
    ⟨(hword 12 (by omega)).trans ((hrest 0).trans hnext), (hword 16 (by omega)).trans ((hrest 4).trans hcs),
      (hword 20 le_rfl).trans ((hrest 8).trans hflags)⟩]
  ext1
  · funext q
    cases q with
    | esp => rfl
    | eax => exact (hword 8 (by omega)).trans (heax.trans (hgate .eax (by decide)))
    | ecx => exact (hword 0 (by omega)).trans (hecx.trans (hgate .ecx (by decide)))
    | edx => exact (hword 4 (by omega)).trans (hedx.trans (hgate .edx (by decide)))
    | ebx => exact (hsaved .ebx (by decide)).trans (hkept .ebx (by decide))
    | ebp => exact (hsaved .ebp (by decide)).trans (hkept .ebp (by decide))
    | esi => exact (hsaved .esi (by decide)).trans (hkept .esi (by decide))
    | edi => exact (hsaved .edi (by decide)).trans (hkept .edi (by decide))
  all_goals rfl

theorem serve_eq (l : StubSymbols) (n : Line) (compiled : U32 → Core → Core) (next : U32) (h : 28 ≤ c.sp)
    (habi : ReturnsPlain (l.entry n next c) (compiled (l.function n) (l.entry n next c))) :
    l.serve n compiled next c = { c with eip := next, mem := (compiled (l.function n) (l.entry n next c)).mem } := by
  have hcode : l.serve n compiled next c = stub (l.function n) compiled (l.back n) (c.intGate (l.handler n) next) := by
    cases n <;> rfl
  rw [hcode]
  exact stub_returns _ compiled _ next _ h habi

theorem entry_frame (l : StubSymbols) (n : Line) (next : U32) (h : 28 ≤ c.sp) :
    (l.entry n next c).sp = c.sp - 28 ∧ SameOutside (object (c.sp - 28) 28) c.mem (l.entry n next c).mem := by
  obtain ⟨hsp, -, -, -, hmem⟩ := intGate_frame (c := c) (by omega) (l.handler n) next
  obtain ⟨⟨hentry, -⟩, -, -, hpushed⟩ :=
    entered_frame (c := c.intGate (l.handler n) next) (l.function n) (l.back n) (by omega)
  refine ⟨hentry.trans (by omega), ?_⟩
  exact (hmem.mono (object_subset (by omega) (by omega))).trans (hpushed.mono (object_subset (by omega) (by omega)))

end

/-! ## A program and its interrupts -/

/-- What a program can tell: the registers, and the memory that is its own. -/
structure SameFor (own : Set ℕ) (c d : Core) : Prop where
  gpr : d.gpr = c.gpr
  eip : d.eip = c.eip
  eflags : d.eflags = c.eflags
  cs : d.cs = c.cs
  mem : Set.EqOn d.mem c.mem own

/-- The function of a line returns, and leaves the memory of the program alone; the program keeps nothing below its
stack pointer. -/
structure Spares (own : Set ℕ) (c entry r : Core) : Prop where
  room : 28 ≤ c.sp
  below : Disjoint (object (c.sp - 28) 28) own
  returns : ReturnsPlain entry r
  mem : Set.EqOn r.mem entry.mem own

inductive Event
  | instruction (f : Core → Core) (own : Set ℕ)
  | interrupt (n : Line) (compiled : U32 → Core → Core)
  | trap (next : U32) (compiled : U32 → Core → Core)

/-- One instruction of the program, after which it owns another part of the memory, or an interrupt between two of them,
if the flag IF lets it in, or `int $50`. -/
inductive Step (l : StubSymbols) : Core × Set ℕ → Event → Core × Set ℕ → Prop
  | instruction {c : Core} {own own' : Set ℕ} {f : Core → Core} :
      (∀ d, SameFor own c d → SameFor own' (f c) (f d)) → Step l (c, own) (.instruction f own') (f c, own')
  | interrupt {c : Core} {own : Set ℕ} {n : Line} {compiled : U32 → Core → Core} :
      n ≠ .test → c.eflags.getLsbD 9 = true →
        Spares own c (l.entry n c.eip c) (compiled (l.function n) (l.entry n c.eip c)) →
          Step l (c, own) (.interrupt n compiled) (l.serve n compiled c.eip c, own)
  | trap {c : Core} {own : Set ℕ} {next : U32} {compiled : U32 → Core → Core} :
      Spares own c (l.entry .test next c) (compiled (l.function .test) (l.entry .test next c)) →
        Step l (c, own) (.trap next compiled) (l.serve .test compiled next c, own)

/-- What the event is for the program alone: an interrupt is nothing, `int $50` goes to the next instruction. -/
def Event.alone : Event → Core → Core
  | .instruction f _, c => f c
  | .interrupt _ _, c => c
  | .trap next _, c => { c with eip := next }

section
variable {l : StubSymbols} {own : Set ℕ} {c d : Core}

theorem SameFor.refl (own : Set ℕ) (c : Core) : SameFor own c c := ⟨rfl, rfl, rfl, rfl, Set.eqOn_refl _ _⟩

/-- Everything between the gate and the `iret` is hidden. -/
theorem Spares.serve {n : Line} {compiled : U32 → Core → Core} {next : U32}
    (h : Spares own c (l.entry n next c) (compiled (l.function n) (l.entry n next c))) (hd : SameFor own c d) :
    SameFor own (l.serve n compiled next c) { d with eip := next } := by
  rw [serve_eq l n compiled next h.room h.returns]
  obtain ⟨-, hmem⟩ := entry_frame l n next h.room
  refine ⟨hd.gpr, rfl, hd.eflags, hd.cs, fun x hx => ?_⟩
  have houtside : x ∉ object (c.sp - 28) 28 := fun hbelow => Set.disjoint_left.mp h.below hbelow hx
  exact (hd.mem hx).trans ((hmem.apply houtside).symm.trans (h.mem hx).symm)

theorem step_sameFor {e : Event} {s s' : Core × Set ℕ} (hstep : Step l s e s') (hd : SameFor s.2 s.1 d) :
    SameFor s'.2 s'.1 (e.alone d) := by
  cases hstep with
  | instruction hf => exact hf d hd
  | @interrupt c own n compiled hn hflag hspares =>
    have heip : { d with eip := c.eip } = d := by rw [← hd.eip]
    exact heip ▸ hspares.serve hd
  | trap hspares => exact hspares.serve hd

theorem SameFor.sp (hd : SameFor own c d) : d.sp = c.sp := congrArg BitVec.toNat (congrFun hd.gpr .esp)

/-- What the program pushes is its own. -/
theorem SameFor.push (h : 4 ≤ c.sp) (hd : SameFor own c d) (r : Gpr) :
    SameFor (own ∪ object (c.sp - 4) 4) (c.push (c.gpr r)) (d.push (d.gpr r)) := by
  refine ⟨?_, hd.eip, hd.eflags, hd.cs, fun x hx => ?_⟩
  · simp only [Core.push, Core.set, hd.gpr]
  · rw [Core.push_mem (hd.sp ▸ h), Core.push_mem h, hd.sp, hd.gpr]
    by_cases hin : x ∈ object (c.sp - 4) 4
    · obtain ⟨k, rfl⟩ := Nat.exists_eq_add_of_le hin.1
      have hk : k < 4 := by
        have hlt := hin.2
        omega
      rw [store32_apply_add _ _ _ hk, store32_apply_add _ _ _ hk]
    · exact store32_apply_congr _ (hd.mem (hx.resolve_right hin))

/-- What it pops is no longer. -/
theorem SameFor.pop {r : Gpr} (hown : object c.sp 4 ⊆ own) (hd : SameFor own c d) :
    SameFor (own \ object c.sp 4) (c.pop r) (d.pop r) := by
  have hword : d.word 0 = c.word 0 := by
    rw [Core.word, Core.word, hd.sp]
    exact load32_congr fun x hlo hhi => hd.mem (hown ⟨hlo, hhi⟩)
  refine ⟨?_, hd.eip, hd.eflags, hd.cs, fun x hx => hd.mem hx.1⟩
  simp only [Core.pop, Core.set, hword, hd.gpr]

end

/-- For every program and every interleaving of its instructions with interrupts: the state reached is, for the program,
the one it reaches alone. -/
theorem interrupts_invisible (l : StubSymbols) {c c' d : Core} {own own' : Set ℕ} {events : List Event}
    (hrun : Runs (Step l) (c, own) events (c', own')) (hd : SameFor own c d) :
    SameFor own' c' (events.foldl (fun d e => e.alone d) d) := by
  generalize hs : (c, own) = s at hrun
  generalize hs' : (c', own') = s' at hrun
  replace hd : SameFor s.2 s.1 d := hs ▸ hd
  suffices hend : SameFor s'.2 s'.1 (events.foldl (fun d e => e.alone d) d) by rwa [← hs'] at hend
  clear hs hs'
  induction hrun generalizing d with
  | nil s => exact hd
  | cons hstep _ ih => exact ih (step_sameFor hstep hd)

/-- A tick between a `pushl %eax` and a `popl %ebx`. -/
theorem interrupts_invisible_tick :
    let l : StubSymbols := ⟨0x100100#32, 0x100200#32, 0x100300#32, fun _ => 0x100400#32, fun _ => 0x100408#32⟩
    let tick : U32 → Core → Core := fun _ c =>
      { c.set .esp (c.gpr .esp + 4#32) with eip := c.word 0, mem := store32 c.mem 0x120000 1#32 }
    let c : Core := ⟨fun r => if r = .esp then 0x118000#32 else 7#32, 0x100500#32, 0x202#32, 0x10#16, fun _ => 0#8⟩
    let save : Event := .instruction (fun c => c.push (c.gpr .eax)) (∅ ∪ object 0x117FFC 4)
    let restore : Event := .instruction (fun c => c.pop .ebx) ((∅ ∪ object 0x117FFC 4) \ object 0x117FFC 4)
    ∃ c' own', Runs (Step l) (c, ∅) [save, .interrupt .timer tick, restore] (c', own') ∧
      load32 c'.mem 0x120000 = 1#32 ∧ c'.gpr .ebx = 7#32 ∧ c'.sp = 0x118000 := by
  intro l tick c save restore
  set c₁ := c.push (c.gpr .eax) with hc₁
  set own₁ : Set ℕ := ∅ ∪ object 0x117FFC 4 with hown₁
  have hsp₁ : c₁.sp = 0x117FFC := Core.push_sp (c := c) (by decide) _
  obtain ⟨hentry, -⟩ := entry_frame l .timer c₁.eip (c := c₁) (by omega)
  have hspares : Spares own₁ c₁ (l.entry .timer c₁.eip c₁) (tick (l.function .timer) (l.entry .timer c₁.eip c₁)) := by
    generalize l.entry .timer c₁.eip c₁ = entry at hentry
    have hkept : ∀ x, x < 0x120000 → (tick (l.function .timer) entry).mem x = entry.mem x := fun x hx =>
      store32_of_outside _ (.inl hx)
    refine ⟨by omega, ?_, ⟨⟨?_, ?_, fun k _ hk => hkept _ (by omega)⟩, fun k _ hk => hkept _ (by omega)⟩, ?_⟩
    · rw [hown₁, Set.empty_union]
      exact object_disjoint (by omega)
    · simp [tick, Core.set]
    · intro r hr
      have hne : r ≠ .esp := by
        rintro rfl
        revert hr
        decide
      simp [tick, Core.set, hne]
    · intro x hx
      have hlt : x < 0x117FFC + 4 := (hx.resolve_left (Set.notMem_empty x)).2
      exact hkept x (by omega)
  obtain ⟨c₂, htick, hsp₂, hcount⟩ : ∃ c₂, Step l (c₁, own₁) (.interrupt .timer tick) (c₂, own₁) ∧ c₂.sp = 0x117FFC ∧
      load32 c₂.mem 0x120000 = 1#32 := by
    refine ⟨_, .interrupt (by decide) (by decide) hspares, ?_⟩
    rw [serve_eq l .timer tick c₁.eip hspares.room hspares.returns]
    exact ⟨hsp₁, load32_store32_same _ _ _⟩
  have hrun : Runs (Step l) (c, ∅) [save, .interrupt .timer tick, restore] (c₂.pop .ebx, own₁ \ object 0x117FFC 4) := by
    refine .cons (.instruction fun d hd => hd.push (by decide) .eax) (.cons htick
      (.cons (.instruction fun d hd => ?_) (.nil _)))
    have hown : object c₂.sp 4 ⊆ own₁ := hsp₂ ▸ Set.subset_union_right
    have hpop := hd.pop (r := .ebx) hown
    rwa [hsp₂] at hpop
  have hsame := interrupts_invisible l hrun (SameFor.refl ∅ c)
  refine ⟨_, _, hrun, hcount, ?_, ?_⟩
  · have halone : (c₁.pop .ebx).gpr .ebx = 7#32 := (Core.pop_gpr c₁ .ebx).trans (Core.push_word_zero c _)
    exact (congrFun hsame.gpr .ebx).symm.trans halone
  · have halone : (c₁.pop .ebx).sp = 0x118000 := (Core.pop_sp (by decide) (by omega)).trans (by omega)
    exact hsame.sp.symm.trans halone

end N7OS.Dispatch
