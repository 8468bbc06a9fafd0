import N7OS.Machine.X86
import N7OS.Process.Table

/-! # One context switch

The call of `ctx_sw` at the end of `schedule`: its two arguments and the return
address are pushed on the stack of the old process, the registers go to the old
`regs`, and the new process returns from its own call.
-/
namespace N7OS
open ByteMemory
namespace Layout
variable (L : Layout)

/-- Slot 0 runs on the boot stack. -/
def stackLow (p : Slot) : ℕ := if p = 0 then L.firstStack else L.stackWord p 0

def stackHigh (p : Slot) : ℕ := if p = 0 then L.firstStack + 16384 else L.stackWord p 256

def InStack (p : Slot) (x : ℕ) : Prop := L.stackLow p ≤ x ∧ x < L.stackHigh p

def InRegs (p : Slot) (x : ℕ) : Prop := L.regs p ≤ x ∧ x < L.regs p + 20

/-- The memory that only `p`, and `schedule` on its behalf, may touch. -/
def Private (p : Slot) (x : ℕ) : Prop := L.InStack p x ∨ L.InRegs p x

variable {L} {p q : Slot} {x : ℕ}

theorem stack_cases (L : Layout) (p : Slot) :
    (p.val = 0 ∧ L.stackLow p = L.firstStack ∧ L.stackHigh p = L.firstStack + 16384) ∨
      (0 < p.val ∧ L.stackLow p = L.stacksBase + 1024 * p ∧
        L.stackHigh p = L.stacksBase + 1024 * p + 1024) := by
  by_cases h : p = 0
  · subst h
    exact .inl ⟨rfl, rfl, rfl⟩
  · have hv : p.val ≠ 0 := fun hv => h (Fin.ext hv)
    refine .inr ⟨by omega, ?_, ?_⟩
    · rw [stackLow, if_neg h]
      rfl
    · rw [stackHigh, if_neg h]
      rfl

theorem regs_eq (L : Layout) (p : Slot) : L.regs p = L.processTable + 60 * p + 40 := rfl

theorem regs_fit (L : Layout) (p : Slot) : L.regs p + 20 < 2 ^ 32 := by
  have hp := p.isLt
  have hfit := L.table_fits
  rw [regs_eq]
  omega

theorem stackHigh_fits (L : Layout) (p : Slot) : L.stackHigh p < 2 ^ 32 := by
  have hp := p.isLt
  have h1 := L.stacks_fit
  have h2 := L.first_fits
  have hs := L.stack_cases p
  omega

theorem stack_regs_disjoint (L : Layout) (p q : Slot) :
    L.stackHigh p ≤ L.regs q ∨ L.regs q + 20 ≤ L.stackLow p := by
  have hp := p.isLt
  have hq := q.isLt
  have hs := L.stack_cases p
  have h1 := L.table_stacks
  have h2 := L.table_first
  rw [regs_eq]
  omega

theorem private_disjoint (h : p ≠ q) (hx : L.Private p x) : ¬L.Private q x := by
  have hv : p.val ≠ q.val := fun hv => h (Fin.ext hv)
  have hp := p.isLt
  have hq := q.isLt
  have hsp := L.stack_cases p
  have hsq := L.stack_cases q
  have hpq := L.stack_regs_disjoint p q
  have hqp := L.stack_regs_disjoint q p
  have h3 := L.stacks_first
  have hrp := L.regs_eq p
  have hrq := L.regs_eq q
  rintro hy
  rcases hx with ⟨h1, h2⟩ | ⟨h1, h2⟩ <;> rcases hy with ⟨h4, h5⟩ | ⟨h4, h5⟩ <;> omega

theorem inRegs_not_inStack (h : L.InRegs q x) : ¬L.InStack p x := by
  have hdisj := L.stack_regs_disjoint p q
  obtain ⟨h1, h2⟩ := h
  rintro ⟨h3, h4⟩
  omega

end Layout

/-- The processor on entry to `ctx_sw`, with `ra` on top of the stack. -/
def callCtxSw (L : Layout) (old next : Slot) (ra : U32) (c : Cpu) : Cpu :=
  ((c.push (BitVec.ofNat 32 (L.regs next))).push (BitVec.ofNat 32 (L.regs old))).push ra

/-- What a switch saved, with the return address it pushed, and what it loaded,
with the return address it popped. -/
structure Switch where
  out : Slot
  saved : Context
  ra : U32
  into : Slot
  loaded : Context
  popped : U32

def switchTo (L : Layout) (old next : Slot) (ra : U32) (c : Cpu) : Cpu :=
  (execute ctxSw (callCtxSw L old next ra c)).ret

def switchRecord (L : Layout) (old next : Slot) (ra : U32) (c : Cpu) : Switch :=
  let entry := callCtxSw L old next ra c
  let exit := execute ctxSw entry
  ⟨old, entry.context, ra, next, exit.context, exit.returnAddress⟩

/-- Room for the two arguments and the return address. -/
def Layout.StackRoom (L : Layout) (p : Slot) (esp : U32) : Prop :=
  L.stackLow p + 12 ≤ esp.toNat ∧ esp.toNat ≤ L.stackHigh p

variable {L : Layout} {old next : Slot} {c : Cpu}

/-- What happens on a stack leaves the saved contexts alone. -/
theorem loadContext_of_stack {m m' : Memory} {p : Slot} (h : ∀ x, ¬L.InStack p x → m' x = m x) (q : Slot) :
    loadContext m' (L.regs q) = loadContext m (L.regs q) :=
  loadContext_congr (fun x h1 h2 => h x (Layout.inRegs_not_inStack ⟨h1, h2⟩))

theorem switchTo_mem (L : Layout) (old next : Slot) (ra : U32) (c : Cpu) :
    (switchTo L old next ra c).mem = (execute ctxSw (callCtxSw L old next ra c)).mem := Cpu.ret_mem _

theorem switchRecord_eq (L : Layout) (old next : Slot) (ra : U32) (c : Cpu) :
    let entry := callCtxSw L old next ra c
    switchRecord L old next ra c =
      ⟨old, entry.context, ra, next, (execute ctxSw entry).context, (execute ctxSw entry).returnAddress⟩ := rfl

@[simp] theorem switchRecord_out (L : Layout) (old next : Slot) (ra : U32) (c : Cpu) :
    (switchRecord L old next ra c).out = old := rfl

@[simp] theorem switchRecord_into (L : Layout) (old next : Slot) (ra : U32) (c : Cpu) :
    (switchRecord L old next ra c).into = next := rfl

@[simp] theorem switchRecord_ra (L : Layout) (old next : Slot) (ra : U32) (c : Cpu) :
    (switchRecord L old next ra c).ra = ra := rfl

attribute [irreducible] switchTo switchRecord

theorem toNat_sub_small {v k : U32} (h : k.toNat ≤ v.toNat) : (v - k).toNat = v.toNat - k.toNat :=
  BitVec.toNat_sub_of_le h

theorem callCtxSw_spec {r : Slot} (ra : U32) (h : L.StackRoom r (c.gpr .esp)) :
    let e := callCtxSw L old next ra c
    (e.gpr .esp).toNat = (c.gpr .esp).toNat - 12 ∧
      load32 e.mem (e.gpr .esp).toNat = ra ∧
      load32 e.mem ((e.gpr .esp).toNat + 4) = BitVec.ofNat 32 (L.regs old) ∧
      load32 e.mem ((e.gpr .esp).toNat + 8) = BitVec.ofNat 32 (L.regs next) ∧
      ∀ x, ¬L.InStack r x → e.mem x = c.mem x := by
  intro e
  obtain ⟨hlow, hhigh⟩ := h
  have h4 : (c.gpr .esp - 4#32).toNat = (c.gpr .esp).toNat - 4 :=
    toNat_sub_small (by change 4 ≤ _; omega)
  have h8 : (c.gpr .esp - 4#32 - 4#32).toNat = (c.gpr .esp).toNat - 8 := by
    rw [toNat_sub_small (by change 4 ≤ _; omega), h4]
    change _ - 4 - 4 = _
    omega
  have h12 : (c.gpr .esp - 4#32 - 4#32 - 4#32).toNat = (c.gpr .esp).toNat - 12 := by
    rw [toNat_sub_small (by change 4 ≤ _; omega), h8]
    change _ - 8 - 4 = _
    omega
  have hesp : e.gpr .esp = c.gpr .esp - 4#32 - 4#32 - 4#32 := by
    simp [e, callCtxSw, Cpu.push]
  have hmem : e.mem = store32 (store32 (store32 c.mem ((c.gpr .esp).toNat - 4) (BitVec.ofNat 32 (L.regs next)))
      ((c.gpr .esp).toNat - 8) (BitVec.ofNat 32 (L.regs old))) ((c.gpr .esp).toNat - 12) ra := by
    rw [← h4, ← h8, ← h12]
    simp [e, callCtxSw, Cpu.push]
  rw [hesp, h12, hmem]
  refine ⟨rfl, load32_store32_same _ _ _, ?_, ?_, ?_⟩
  · rw [load32_store32_of_disjoint _ (by omega),
      show (c.gpr .esp).toNat - 12 + 4 = (c.gpr .esp).toNat - 8 by omega, load32_store32_same]
  · rw [load32_store32_of_disjoint _ (by omega), load32_store32_of_disjoint _ (by omega),
      show (c.gpr .esp).toNat - 12 + 8 = (c.gpr .esp).toNat - 4 by omega, load32_store32_same]
  · intro x hx
    have hout : x < L.stackLow r ∨ L.stackHigh r ≤ x := by
      unfold Layout.InStack at hx
      omega
    rw [store32_of_outside _ (by omega), store32_of_outside _ (by omega), store32_of_outside _ (by omega)]

/-- A switch on the stack of `r` saves the context in `old`'s `regs` and loads
what those of `next` hold. -/
theorem switchTo_spec {r : Slot} (ra : U32) (hne : old ≠ next) (h : L.StackRoom r (c.gpr .esp)) :
    let w := switchRecord L old next ra c
    let m := (switchTo L old next ra c).mem
    (∀ x, ¬L.InStack r x → ¬L.InRegs old x → m x = c.mem x) ∧
      loadContext m (L.regs old) = w.saved ∧ load32 m w.saved.esp.toNat = ra ∧
      w.saved.esp.toNat + 12 = (c.gpr .esp).toNat ∧
      w.loaded = loadContext c.mem (L.regs next) ∧ w.popped = load32 m w.loaded.esp.toNat := by
  intro w m
  obtain ⟨hesp, hra, hold, hnew, hout⟩ := callCtxSw_spec ra h
  obtain ⟨hlow, hhigh⟩ := h
  have hfit := L.stackHigh_fits r
  have hdisj := L.stack_regs_disjoint r old
  have ho := L.regs_fit old
  have hn := L.regs_fit next
  have hoNat : (BitVec.ofNat 32 (L.regs old)).toNat = L.regs old := toNat_ofNat_of_lt (by omega)
  have hnNat : (BitVec.ofNat 32 (L.regs next)).toNat = L.regs next := toNat_ofNat_of_lt (by omega)
  have hw : w = _ := switchRecord_eq L old next ra c
  have hm : m = _ := switchTo_mem L old next ra c
  generalize callCtxSw L old next ra c = e at hesp hra hold hnew hout hw hm
  obtain ⟨hmem, hctx⟩ := execute_ctxSw (c := e) (by omega) hold hnew (by omega) (by omega) (by omega)
  rw [hoNat] at hmem hctx
  rw [hnNat] at hctx
  have hpop : (execute ctxSw e).returnAddress = load32 m (execute ctxSw e).context.esp.toNat := by
    rw [hm]
    rfl
  rw [hmem] at hm
  have hframe : ∀ x, ¬L.InStack r x → ¬L.InRegs old x → m x = c.mem x := by
    intro x hstack hregs
    unfold Layout.InRegs at hregs
    rw [hm, storeContext_of_outside _ (by omega)]
    exact hout x hstack
  refine ⟨hframe, ?_, ?_, ?_, ?_, ?_⟩
  · rw [hm, hw, loadContext_storeContext]
  · rw [hm, hw]
    refine Eq.trans (load32_congr fun x h1 h2 => storeContext_of_outside _ ?_) hra
    change (e.gpr .esp).toNat ≤ x at h1
    change x < (e.gpr .esp).toNat + 4 at h2
    omega
  · rw [hw]
    change (e.gpr .esp).toNat + 12 = _
    omega
  · rw [hw]
    change (execute ctxSw e).context = _
    rw [hctx, ← hm]
    refine loadContext_congr (fun x h1 h2 => hframe x (Layout.inRegs_not_inStack ⟨h1, h2⟩) ?_)
    exact fun hx => Layout.private_disjoint hne.symm (.inr ⟨h1, h2⟩) (.inr hx)
  · rw [hw]
    exact hpop

end N7OS
