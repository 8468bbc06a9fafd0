import N7OS.Process.Handover

/-! # Which interrupts the hand-over survives

The invariant of the runs in which no interrupt switches between the last two
statements of `idle`'s `schedule`, and what such an interrupt destroys.
-/
namespace N7OS
open Execution ByteMemory CyclicScan

def Used (k : Kernel) (p : Slot) : Prop := (k.processTable p).state ≠ .libre

/-- What `idle`'s thread knows at each statement. -/
def IdleOk (k : Kernel) : Control → Prop
  | .initNext oldPid => oldPid = 0
  | .scan oldPid _ => oldPid = 0
  | .testNext oldPid next => oldPid = 0 ∧ Used k next
  | .testOld oldPid next => oldPid = 0 ∧ next ≠ 0 ∧ Used k next
  | .releaseOld oldPid next => oldPid = 0 ∧ next ≠ 0 ∧ Used k next
  | .electNext oldPid next => oldPid = 0 ∧ next ≠ 0 ∧ Used k next
  | .setCurrent oldPid next => oldPid = 0 ∧ next ≠ 0 ∧ Used k next
  | .callCtxSw oldPid next => oldPid = 0 ∧ next ≠ 0 ∧ Used k next
  | .unborn => False
  | .starter => False
  | .sti _ => False
  | .call _ => False
  | _ => True

/-- The other threads are never in `idle`'s `schedule`. -/
def ProcessOk (p : Slot) : Control → Prop
  | .unborn => True
  | .body => True
  | .starter => True
  | .sti me => me = p
  | .call me => me = p
  | _ => False

/-- The `regs` of slot 0 hold a context of `idle` or the one it never uses. -/
def ZeroContext (L : Layout) (m : Memory) : Prop :=
  L.InStack 0 (loadContext m (L.regs 0)).esp.toNat ∨
    (loadContext m (L.regs 0)).esp.toNat = L.stackWord 0 255

/-- The part of the invariant that does not look at `current_pid`. -/
structure HandoverBase (L : Layout) (s : Machine) : Prop where
  contexts : ∀ p, p ≠ s.running → Used s.kernel p → Suspended L p s.kernel.mem (s.saved p)
  alive : Used s.kernel s.running
  born : s.control s.running ≠ .unborn
  idle : IdleOk s.kernel (s.control 0)
  others : ∀ p, p ≠ 0 → ProcessOk p (s.control p)
  fresh : ∀ p, ¬Used s.kernel p → p ≠ 0 ∧ s.saved p = none
  ran : ∀ p w, s.saved p = some w → w.ra ≠ L.processStarter ∧ s.control p ≠ .unborn
  zero : ZeroContext L s.kernel.mem

structure HandoverInv (L : Layout) (s : Machine) : Prop extends HandoverBase L s where
  pid : (∀ oldPid next, s.control s.running ≠ .callCtxSw oldPid next) → s.kernel.currentPid = s.running
  window : ∀ oldPid next, s.control 0 = .callCtxSw oldPid next →
    s.running = 0 ∧ s.frames 0 = 0 ∧ s.kernel.currentPid = next

variable {L : Layout} {m : Memory} {s t : Machine} {e : HandoverEvent} {k k' : Kernel}
  {c c' : Control} {p q : Slot} {w : SwitchCall}

theorem IdleOk.mono (h : IdleOk k c) (hk : ∀ r, Used k r → Used k' r) : IdleOk k' c := by
  cases c with
  | testNext => exact ⟨h.1, hk _ h.2⟩
  | testOld => exact ⟨h.1, h.2.1, hk _ h.2.2⟩
  | releaseOld => exact ⟨h.1, h.2.1, hk _ h.2.2⟩
  | electNext => exact ⟨h.1, h.2.1, hk _ h.2.2⟩
  | setCurrent => exact ⟨h.1, h.2.1, hk _ h.2.2⟩
  | callCtxSw => exact ⟨h.1, h.2.1, hk _ h.2.2⟩
  | _ => exact h

theorem HandoverInv.contextsOwn (h : HandoverInv L s) : ContextsOwn L s := by
  refine ⟨h.contexts, h.pid, h.born, ?_⟩
  intro p me hme
  by_cases hp : p = 0
  · subst hp
    have hidle := h.idle
    rcases hme with hme | hme
    · rw [hme] at hidle
      cases hidle
    · rw [hme] at hidle
      cases hidle
  · have hother := h.others p hp
    rcases hme with hme | hme
    · rw [hme] at hother
      exact hother
    · rw [hme] at hother
      exact hother

/-- The stack pointer of a suspended process points into its own stack. -/
theorem Suspended.esp_inStack {last : Option Switch} (h : Suspended L p m last) :
    L.InStack p (loadContext m (L.regs p)).esp.toNat := by
  cases last with
  | some w =>
    obtain ⟨hctx, _, hlow, hhigh⟩ := h
    rw [hctx]
    exact ⟨hlow, by omega⟩
  | none =>
    obtain ⟨hp, hctx, _⟩ := h
    have htop := stackTop_inStack (L := L) hp
    have hfit := L.stackHigh_fits p
    rw [hctx]
    simp only
    rw [toNat_ofNat_of_lt (by omega)]
    exact ⟨htop.1, by omega⟩

theorem inStack_unique {x : ℕ} (hp : L.InStack p x) (hq : L.InStack q x) : p = q := by
  by_contra hne
  exact Layout.private_disjoint hne (.inl hp) (.inl hq)

theorem ZeroContext.congr {m' : Memory} (h : ZeroContext L m) (hm : ∀ x, L.InRegs 0 x → m' x = m x) :
    ZeroContext L m' := by
  rw [ZeroContext, loadContext_congr (fun x h1 h2 => hm x ⟨h1, h2⟩)]
  exact h

theorem schedule_none (h : (schedule k).2 = none) : (schedule k).1 = k := by
  rw [schedule] at h ⊢
  split at h
  · next hen => rw [if_pos hen]
  · next hen =>
    rw [if_neg hen]
    simp only at h ⊢
    split at h
    · next hnext => rw [if_pos hnext]
    · cases h

theorem nextPid_state {t : Slot → Process} (h : nextPid t p ≠ p) : (t (nextPid t p)).state = .pret := by
  rw [nextPid] at h ⊢
  cases hs : scan (fun i => decide ((t i).state = .pret)) p with
  | none => exact absurd (by rw [hs, Option.getD_none]) h
  | some q =>
    rw [Option.getD_some]
    simpa using (scan_eq_some.mp hs).1

/-- What `schedule` does when it switches, whatever the table. -/
theorem schedule_some (h : (schedule k).2 = some (p, q)) :
    p = k.currentPid ∧ q ≠ p ∧ (k.processTable q).state = .pret ∧ (schedule k).1.currentPid = q ∧
      (schedule k).1.mem = k.mem ∧ ∀ r, Used (schedule k).1 r ↔ Used k r := by
  rw [schedule] at h ⊢
  split at h
  · cases h
  next hen =>
  rw [if_neg hen]
  simp only at h ⊢
  split at h
  · cases h
  next hnext =>
  rw [if_neg hnext]
  obtain ⟨rfl, rfl⟩ := Prod.mk.inj (Option.some.inj h)
  have hpret := nextPid_state hnext
  refine ⟨rfl, hnext, hpret, rfl, rfl, ?_⟩
  intro r
  simp only [Used, setState_state]
  by_cases hr : r = nextPid k.processTable k.currentPid
  · simp [hr, hpret]
  · rw [if_neg hr]
    split
    · next helu =>
      rw [setState_state]
      by_cases hrc : r = k.currentPid
      · simp [hrc, helu]
      · rw [if_neg hrc]
    · rfl

/-- What one statement of `idle`'s `schedule` does to the kernel and to `idle`. -/
structure StatementSpec (k k' : Kernel) (c' : Control) : Prop where
  mem : k'.mem = k.mem
  used : ∀ r, Used k' r ↔ Used k r
  idle : IdleOk k' c'
  pid : (∀ oldPid next, c' ≠ .callCtxSw oldPid next) → k'.currentPid = 0
  window : ∀ oldPid next, c' = .callCtxSw oldPid next → k'.currentPid = next

/-- A statement that only reads. -/
theorem StatementSpec.read (hcur : k.currentPid = 0) (hok : IdleOk k c')
    (hc : ∀ oldPid next, c' ≠ .callCtxSw oldPid next) : StatementSpec k k c' where
  mem := rfl
  used _ := .rfl
  idle := hok
  pid _ := hcur
  window oldPid next h := absurd h (hc oldPid next)

/-- A statement that moves a slot in use to another state. -/
theorem StatementSpec.move {st : ProcessState} (hcur : k.currentPid = 0) (hp : Used k p) (hst : st ≠ .libre)
    (hok : IdleOk k c') (hc : ∀ oldPid next, c' ≠ .callCtxSw oldPid next) :
    StatementSpec k { k with processTable := setState p st k.processTable } c' := by
  have hused : ∀ r, Used { k with processTable := setState p st k.processTable } r ↔ Used k r := by
    intro r
    change (setState p st k.processTable r).state ≠ .libre ↔ _
    rw [setState_state]
    split
    · next hr => exact iff_of_true hst (hr ▸ hp)
    · rfl
  exact ⟨rfl, hused, hok.mono (fun r hr => (hused r).mpr hr), fun _ => hcur, fun _ _ h => absurd h (hc _ _)⟩

/-- A statement of `idle`'s `schedule` keeps its locals meaningful. -/
theorem scheduleStatement_spec (h : scheduleStatement k c = some (k', c')) (hc : IdleOk k c)
    (hcur : k.currentPid = 0) (h0 : Used k 0) : StatementSpec k k' c' := by
  cases c with
  | startScheduling =>
    cases h
    exact ⟨rfl, fun _ => .rfl, trivial, fun _ => hcur, by simp⟩
  | testEnabled =>
    cases h
    split
    · exact .read hcur trivial (by simp)
    · exact .read hcur trivial (by simp)
  | readCurrent =>
    cases h
    exact .read hcur hcur (by simp)
  | initNext oldPid =>
    cases h
    exact .read hcur hc (by simp)
  | scan oldPid i =>
    obtain rfl : oldPid = 0 := hc
    simp only [scheduleStatement] at h
    split at h
    · split at h
      · next hpret =>
        cases h
        have hused : Used k (candidate 0 i) := by simp [Used, hpret]
        exact .read hcur ⟨rfl, hused⟩ (by simp)
      · cases h
        exact .read hcur rfl (by simp)
    · cases h
      exact .read hcur ⟨rfl, h0⟩ (by simp)
  | testNext oldPid next =>
    obtain ⟨rfl, hused⟩ := hc
    cases h
    split
    · exact .read hcur trivial (by simp)
    · next hne => exact .read hcur ⟨rfl, hne, hused⟩ (by simp)
  | testOld oldPid next =>
    cases h
    split
    · exact .read hcur hc (by simp)
    · exact .read hcur hc (by simp)
  | releaseOld oldPid next =>
    obtain ⟨rfl, hne, hused⟩ := hc
    cases h
    exact .move hcur h0 (by decide) ⟨rfl, hne, hused⟩ (by simp)
  | electNext oldPid next =>
    cases h
    exact .move hcur hc.2.2 (by decide) hc (by simp)
  | setCurrent oldPid next =>
    cases h
    exact ⟨rfl, fun _ => .rfl, hc, by simp, by simp⟩
  | _ => cases h

theorem statement_of_idle (h : scheduleStatement k c = some (k', c')) (hc : ProcessOk p c) : False := by
  cases c <;> first | exact hc | cases h

theorem HandoverBase.base_used (h : HandoverBase L s) : Used s.kernel 0 := by
  by_contra h0
  exact (h.fresh 0 h0).1 rfl

theorem HandoverBase.running_of_callCtxSw (h : HandoverBase L s)
    (hc : s.control s.running = .callCtxSw p q) : s.running = 0 := by
  by_contra hr
  have hother := h.others _ hr
  rw [hc] at hother
  exact hother

/-- Computing on its own stack, a thread disturbs no other one. -/
theorem HandoverInv.work (h : HandoverInv L s) {m : Memory} (hm : s.OwnStack L m) (gpr : Reg → U32)
    (interrupts : Bool) (systemTicks : U32) :
    HandoverInv L { s with
      gpr := gpr, interrupts := interrupts, systemTicks := systemTicks
      kernel := { s.kernel with mem := m } } := by
  refine ⟨⟨?_, h.alive, h.born, h.idle.mono fun _ hr => hr, h.others, h.fresh, h.ran, ?_⟩, h.pid, h.window⟩
  · intro p hp hused
    refine (h.contexts p hp hused).congr (fun x hx => hm x ?_)
    exact fun hin => Layout.private_disjoint hp hx (.inl hin)
  · exact h.zero.congr (fun x hx => hm x (Layout.inRegs_not_inStack hx))

/-- The memory after a switch by the running thread under its own pid. -/
theorem SwitchCall.Ok.memory (hok : w.Ok L s) (hold : w.old = s.running) (hne : w.next ≠ s.running) :
    let m := (switchTo L w.old w.next w.ra w.cpu).mem
    (∀ x, ¬L.Private s.running x → m x = s.kernel.mem x) ∧
      Suspended L s.running m (some (w.record L)) ∧
      (w.record L).loaded = loadContext s.kernel.mem (L.regs w.next) ∧
      (w.record L).popped = load32 m (w.record L).loaded.esp.toNat := by
  intro m
  obtain ⟨hown, _, hroom, _⟩ := hok
  have hroom' : L.StackRoom w.old (w.cpu.gpr .esp) := hold ▸ hroom
  have hne' : w.old ≠ w.next := hold ▸ hne.symm
  obtain ⟨hframe, _, _, _, hloaded, hpopped⟩ := switchTo_spec w.ra hne' hroom'
  refine ⟨?_, ?_, hloaded.trans (loadContext_of_stack hown _), hpopped⟩
  · intro x hx
    have hstack : ¬L.InStack s.running x := fun hin => hx (.inl hin)
    rw [← hold] at hx
    exact (private_frame hframe x hx).trans (hown x hstack)
  · rw [← hold]
    exact suspended_switchTo w.ra hne' hroom'

/-- A switch to a suspended thread goes to that thread, at its return address or
at the trampoline. -/
theorem SwitchCall.Ok.resume (hok : w.Ok L s) (hold : w.old = s.running) (hne : w.next ≠ s.running)
    (hsus : Suspended L w.next s.kernel.mem (s.saved w.next)) :
    w.into = w.next ∧ Resumed L w.next (w.record L).loaded (w.record L).popped (s.saved w.next) := by
  obtain ⟨hframe, _, hloaded, hpopped⟩ := hok.memory hold hne
  have hesp := hsus.esp_inStack
  rw [← hloaded] at hesp
  exact ⟨inStack_unique hok.into hesp,
    hsus.resume (fun x hx => hframe x (Layout.private_disjoint hne hx)) hloaded hpopped⟩

/-- A switch sends the thread it leads to into the trampoline if that is where `ret` jumps. -/
theorem Machine.switchTo_control (s : Machine) (w : SwitchCall) (p : Slot) :
    (s.switchTo L w).control p =
      if p = w.into ∧ (w.record L).popped = L.processStarter then .starter else s.control p := by
  change (if (w.record L).popped = L.processStarter then Function.update s.control w.into .starter
    else s.control) p = _
  by_cases hpop : (w.record L).popped = L.processStarter
  · rw [if_pos hpop, Function.update_apply]
    exact if_congr (and_iff_left hpop).symm rfl rfl
  · rw [if_neg hpop, if_neg (fun h => hpop h.2)]

/-- Only a process that starts changes its statement in a switch. -/
theorem HandoverBase.switchTo_control (h : HandoverBase L s) (hinto : w.into = w.next)
    (hpop : Resumed L w.next (w.record L).loaded (w.record L).popped (s.saved w.next)) (p : Slot) :
    (s.switchTo L w).control p = s.control p ∨ (p ≠ 0 ∧ (s.switchTo L w).control p = .starter) := by
  rw [s.switchTo_control]
  split
  · next hp =>
    obtain ⟨rfl, hpopped⟩ := hp
    refine .inr ⟨?_, rfl⟩
    rw [hinto]
    cases hlast : s.saved w.next with
    | some v =>
      rw [hlast] at hpop
      exact absurd (hpop.2.symm.trans hpopped) (h.ran _ v hlast).1
    | none =>
      rw [hlast] at hpop
      exact hpop.1
  · exact .inl rfl

/-- A thread that a switch goes to has run before or starts now. -/
theorem HandoverBase.switchTo_born (h : HandoverBase L s) (hinto : w.into = w.next)
    (hpop : Resumed L w.next (w.record L).loaded (w.record L).popped (s.saved w.next)) :
    (∀ p, s.control p ≠ .unborn → (s.switchTo L w).control p ≠ .unborn) ∧
      (s.switchTo L w).control w.next ≠ .unborn := by
  have hborn : ∀ p, s.control p ≠ .unborn → (s.switchTo L w).control p ≠ .unborn := by
    intro p hp
    rcases h.switchTo_control hinto hpop p with hc | ⟨_, hc⟩
    · rwa [hc]
    · simp [hc]
  refine ⟨hborn, ?_⟩
  cases hlast : s.saved w.next with
  | some v => exact hborn _ (h.ran _ v hlast).2
  | none =>
    rw [hlast] at hpop
    simp [s.switchTo_control, hinto, hpop.2.1]

/-- A switch made by the running thread under its own pid keeps the contexts apart. -/
theorem HandoverBase.switchTo (h : HandoverBase L s) (hok : w.Ok L s) (hold : w.old = s.running)
    (hne : w.next ≠ s.running) (hused : Used s.kernel w.next) (hcur : s.kernel.currentPid = w.next)
    (hidle : ∀ oldPid next, s.control 0 ≠ .callCtxSw oldPid next) : HandoverInv L (s.switchTo L w) := by
  obtain ⟨hframe, hself, _, _⟩ := hok.memory hold hne
  obtain ⟨hinto, hpop⟩ := hok.resume hold hne (h.contexts w.next hne hused)
  obtain ⟨hborn, hnext⟩ := h.switchTo_born hinto hpop
  have hcontrol := h.switchTo_control hinto hpop
  have hzero : (s.switchTo L w).control 0 = s.control 0 := (hcontrol 0).resolve_right (fun hc => hc.1 rfl)
  have hra : (w.record L).ra = w.ra := switchRecord_ra L w.old w.next w.ra w.cpu
  have hsaved : ∀ p, (s.switchTo L w).saved p = if p = s.running then some (w.record L) else s.saved p :=
    fun p => Function.update_apply _ _ _ _
  have hrunning : (s.switchTo L w).running = w.next := hinto
  refine ⟨⟨?_, ?_, ?_, ?_, ?_, ?_, ?_, ?_⟩, ?_, ?_⟩
  · intro p _ hpu
    rw [hsaved]
    split
    · next hr => exact hr ▸ hself
    · next hr =>
      exact (h.contexts p hr hpu).congr (fun x hx => hframe x (Layout.private_disjoint hr hx))
  · rw [hrunning]
    exact hused
  · rw [hrunning]
    exact hnext
  · rw [hzero]
    exact h.idle
  · intro p hp
    rcases hcontrol p with hc | ⟨_, hc⟩
    · rw [hc]
      exact h.others p hp
    · rw [hc]
      trivial
  · intro p hpu
    obtain ⟨h0, hnone⟩ := h.fresh p hpu
    have hr : p ≠ s.running := fun hr => hpu (hr ▸ h.alive)
    exact ⟨h0, by rw [hsaved, if_neg hr, hnone]⟩
  · intro p v hv
    rw [hsaved] at hv
    split at hv
    · next hr =>
      rw [← Option.some.inj hv, hr, hra]
      exact ⟨hok.inside, hborn _ h.born⟩
    · exact ⟨(h.ran p v hv).1, hborn p (h.ran p v hv).2⟩
  · change ZeroContext L (N7OS.switchTo L w.old w.next w.ra w.cpu).mem
    by_cases hr : s.running = 0
    · rw [hr] at hself
      exact .inl hself.esp_inStack
    · exact h.zero.congr (fun x hx => hframe x (Layout.private_disjoint (Ne.symm hr) (.inr hx)))
  · intro _
    rw [hrunning]
    exact hcur
  · intro oldPid next hc
    rw [hzero] at hc
    exact absurd hc (hidle oldPid next)

theorem HandoverBase.withKernel (h : HandoverBase L s) (hm : k'.mem = s.kernel.mem)
    (hu : ∀ r, Used k' r ↔ Used s.kernel r) : HandoverBase L { s with kernel := k' } := by
  refine ⟨?_, (hu _).mpr h.alive, h.born, h.idle.mono fun r hr => (hu r).mpr hr, h.others, ?_, h.ran, ?_⟩
  · intro p hp hpu
    change Suspended L p k'.mem _
    rw [hm]
    exact h.contexts p hp ((hu p).mp hpu)
  · exact fun p hpu => h.fresh p (fun hp => hpu ((hu p).mpr hp))
  · exact h.zero.congr (fun x _ => congrFun hm x)

theorem HandoverBase.goto (h : HandoverBase L s) (hidle : s.running = 0 → IdleOk s.kernel c)
    (hother : s.running ≠ 0 → ProcessOk s.running c) (hborn : c ≠ .unborn) :
    HandoverBase L (s.goto c) := by
  have hself : (s.goto c).control s.running = c := Function.update_self _ _ _
  have hrest : ∀ p, p ≠ s.running → (s.goto c).control p = s.control p :=
    fun p hp => Function.update_of_ne hp _ _
  refine ⟨h.contexts, h.alive, ?_, ?_, ?_, h.fresh, ?_, h.zero⟩
  · change (s.goto c).control s.running ≠ .unborn
    rwa [hself]
  · change IdleOk s.kernel ((s.goto c).control 0)
    by_cases hr : s.running = 0
    · rw [← hr, hself]
      exact hidle hr
    · rw [hrest 0 (Ne.symm hr)]
      exact h.idle
  · intro p hp
    by_cases hpr : p = s.running
    · subst hpr
      rw [hself]
      exact hother hp
    · rw [hrest p hpr]
      exact h.others p hp
  · intro p v hv
    refine ⟨(h.ran p v hv).1, ?_⟩
    by_cases hpr : p = s.running
    · subst hpr
      rwa [hself]
    · rw [hrest p hpr]
      exact (h.ran p v hv).2

/-- `idle`'s thread leaves its window only by the call of `ctx_sw`. -/
theorem HandoverInv.goto (h : HandoverInv L s) (hnow : ∀ oldPid next, s.control s.running ≠ .callCtxSw oldPid next)
    (hidle : s.running = 0 → IdleOk s.kernel c) (hother : s.running ≠ 0 → ProcessOk s.running c)
    (hborn : c ≠ .unborn) (hnext : ∀ oldPid next, c ≠ .callCtxSw oldPid next) :
    HandoverInv L (s.goto c) := by
  refine ⟨h.toHandoverBase.goto hidle hother hborn, fun _ => h.pid hnow, ?_⟩
  intro oldPid next hc
  by_cases hr : s.running = 0
  · have hself : (s.goto c).control 0 = c := by
      rw [← hr]
      exact Function.update_self _ _ _
    rw [hself] at hc
    exact absurd hc (hnext oldPid next)
  · have hrest : (s.goto c).control 0 = s.control 0 := Function.update_of_ne (Ne.symm hr) _ _
    rw [hrest] at hc
    exact absurd (h.window oldPid next hc).1 hr

theorem HandoverInv.create (h : HandoverInv L s) (name : ℕ → U8) (function : U32) :
    HandoverInv L { s with kernel := (createProcess L name function s.kernel).1 } := by
  rcases createProcess_cases L name function s.kernel with ⟨_, hc⟩ | ⟨slot, hlibre, _, hc⟩
  · rw [hc]
    exact h
  · rw [hc]
    have hnot : ¬Used s.kernel slot := fun hu => hu hlibre
    obtain ⟨hslot, hnone⟩ := h.fresh slot hnot
    have hmem : ∀ x, ¬L.Private slot x → (fillSlot L slot name function s.kernel).mem x = s.kernel.mem x :=
      fun x hx => prepareStack_of_not_private hslot hx
    have hrest : ∀ r, r ≠ slot → (Used (fillSlot L slot name function s.kernel) r ↔ Used s.kernel r) := by
      intro r hr
      simp only [Used, fillSlot, Function.update_of_ne hr]
    have hused : ∀ r, Used s.kernel r → Used (fillSlot L slot name function s.kernel) r := by
      intro r hr
      exact (hrest r (fun hrs => hnot (hrs ▸ hr))).mpr hr
    refine ⟨⟨?_, hused _ h.alive, h.born, h.idle.mono hused, h.others, ?_, h.ran, ?_⟩, h.pid, h.window⟩
    · intro p hp hpu
      by_cases hps : p = slot
      · subst hps
        rw [hnone]
        exact suspended_prepareStack hslot
      · refine (h.contexts p hp ((hrest p hps).mp hpu)).congr (fun x hx => hmem x ?_)
        exact Layout.private_disjoint hps hx
    · exact fun p hpu => h.fresh p (fun hp => hpu (hused p hp))
    · exact h.zero.congr (fun x hx => hmem x (Layout.private_disjoint (Ne.symm hslot) (.inr hx)))

theorem HandoverInv.statement (h : HandoverInv L s) (hframes : s.frames s.running = 0)
    (hs : scheduleStatement s.kernel (s.control s.running) = some (k', c')) :
    HandoverInv L ({ s with kernel := k' }.goto c') := by
  have hr : s.running = 0 := by
    by_contra hr
    exact statement_of_idle hs (h.others _ hr)
  have hnow : ∀ oldPid next, s.control s.running ≠ .callCtxSw oldPid next := by
    intro oldPid next hc
    rw [hc] at hs
    cases hs
  have hcur : s.kernel.currentPid = 0 := (h.pid hnow).trans hr
  have hidle : IdleOk s.kernel (s.control s.running) := hr ▸ h.idle
  obtain ⟨hm, hu, hok, hpid, hwin⟩ := scheduleStatement_spec hs hidle hcur h.base_used
  have hborn : c' ≠ .unborn := by
    rintro rfl
    exact hok
  have hself : ({ s with kernel := k' }.goto c').control s.running = c' := Function.update_self _ _ _
  refine ⟨(h.toHandoverBase.withKernel hm hu).goto (fun _ => hok) (fun hne => absurd hr hne) hborn, ?_, ?_⟩
  · intro hno
    exact (hpid fun oldPid next hc => hno oldPid next (hself.trans hc)).trans hr.symm
  · intro oldPid next hc
    have hself0 : Function.update s.control s.running c' 0 = c' := by rw [hr, Function.update_self]
    change Function.update s.control s.running c' 0 = _ at hc
    rw [hself0] at hc
    exact ⟨hr, hr ▸ hframes, hwin oldPid next hc⟩

theorem HandoverInv.switch (h : HandoverInv L s)
    (hc : s.control s.running = .callCtxSw w.old w.next) (hok : w.Ok L s) :
    HandoverInv L ((s.goto .body).switchTo L w) := by
  have hr := h.running_of_callCtxSw hc
  have hidle := h.idle
  have hc0 := hc
  rw [hr] at hc0
  rw [hc0] at hidle
  obtain ⟨hold, hne, hused⟩ := hidle
  obtain ⟨_, _, hcur⟩ := h.window _ _ hc0
  have hbase := h.toHandoverBase.goto (c := .body) (fun _ => trivial) (fun _ => trivial) (by simp)
  have hself : (s.goto .body).control 0 = .body := by
    rw [← hr]
    exact Function.update_self _ _ _
  refine hbase.switchTo ⟨hok.own, hok.inside, hok.room, hok.into⟩ (hold.trans hr.symm) ?_ hused hcur ?_
  · change w.next ≠ s.running
    rwa [hr]
  · intro oldPid next hc
    rw [hself] at hc
    cases hc

theorem tickHandlerC_none {ticks : U32} (h : (tickHandlerC ticks k).2 = none) : (tickHandlerC ticks k).1 = k := by
  rw [tickHandlerC] at h ⊢
  split
  · next hq =>
    rw [if_pos hq] at h
    exact schedule_none h
  · rfl

theorem tickHandlerC_some {ticks : U32} (h : (tickHandlerC ticks k).2 = some (p, q)) :
    (schedule k).2 = some (p, q) ∧ (tickHandlerC ticks k).1 = (schedule k).1 := by
  rw [tickHandlerC] at h ⊢
  split at h
  · next hq =>
    rw [if_pos hq]
    exact ⟨h, rfl⟩
  · cases h

/-- Outside the window the interrupted thread runs under its own pid. -/
theorem HandoverInv.preempt (h : HandoverInv L s)
    (hs : (tickHandlerC (s.systemTicks + 1) s.kernel).2 = some (w.old, w.next)) (hok : w.Ok L s)
    (hwin : ¬(HandoverEvent.preempt (s.frames s.running) (s.control s.running)).InWindow) :
    HandoverInv L ((s.preempted (tickHandlerC (s.systemTicks + 1) s.kernel).1).switchTo L w) := by
  obtain ⟨hs, hk⟩ := tickHandlerC_some hs
  obtain ⟨hold, hne, hpret, hcur, hm, hu⟩ := schedule_some hs
  have hidle : ∀ oldPid next, s.control 0 ≠ .callCtxSw oldPid next := by
    intro oldPid next hc
    obtain ⟨hr, hf, _⟩ := h.window oldPid next hc
    rw [hr, hc, hf] at hwin
    exact hwin trivial
  have hnow : ∀ oldPid next, s.control s.running ≠ .callCtxSw oldPid next := by
    intro oldPid next hc
    exact hidle oldPid next (h.running_of_callCtxSw hc ▸ hc)
  have hrun : w.old = s.running := hold.trans (h.pid hnow)
  rw [hk]
  have hbase : HandoverBase L (s.preempted (schedule s.kernel).1) := by
    obtain ⟨h1, h2, h3, h4, h5, h6, h7, h8⟩ := h.toHandoverBase.withKernel hm hu
    exact ⟨h1, h2, h3, h4, h5, h6, h7, h8⟩
  have hused : Used (schedule s.kernel).1 w.next := (hu _).mpr (by simp [Used, hpret])
  have hown : (s.preempted (schedule s.kernel).1).OwnStack L w.cpu.mem := by
    intro x hx
    change w.cpu.mem x = (schedule s.kernel).1.mem x
    rw [hm]
    exact hok.own x hx
  exact hbase.switchTo ⟨hown, hok.inside, hok.room, hok.into⟩ hrun (hrun ▸ hne) hused hcur hidle

theorem handoverInv_step (h : HandoverInv L s) (hs : HandoverStep L s e t) (he : ¬e.InWindow) :
    HandoverInv L t := by
  cases hs with
  | work gpr m interrupts hf hc hm => exact h.work hm gpr interrupts s.systemTicks
  | create name function hf hc => exact h.create name function
  | statement k c hf hs => exact h.statement hf hs
  | switch w hf hc hok => exact h.switch hc hok
  | tick m hi hs hm =>
    rw [tickHandlerC_none hs]
    exact h.work hm s.gpr s.interrupts (s.systemTicks + 1)
  | preempt w hi hs hok => exact h.preempt hs hok he
  | iret gpr n hn =>
    refine ⟨⟨h.contexts, h.alive, h.born, h.idle, h.others, h.fresh, h.ran, h.zero⟩, h.pid, ?_⟩
    intro oldPid next hc
    obtain ⟨hr, hf, _⟩ := h.window oldPid next hc
    rw [hr, hf] at hn
    cases hn
  | getpid hf hc =>
    have hnow : ∀ oldPid next, s.control s.running ≠ .callCtxSw oldPid next := by simp [hc]
    refine h.goto hnow ?_ (fun _ => h.pid hnow) (by simp) (by simp)
    intro hr
    have hidle := h.idle
    rw [← hr, hc] at hidle
    exact hidle
  | sti me hf hc =>
    have hinv : HandoverInv L { s with interrupts := true } :=
      ⟨⟨h.contexts, h.alive, h.born, h.idle, h.others, h.fresh, h.ran, h.zero⟩, h.pid, h.window⟩
    refine hinv.goto (by simp [hc]) ?_ ?_ (by simp) (by simp)
    · intro hr
      have hidle := h.idle
      change s.running = 0 at hr
      rw [← hr, hc] at hidle
      exact hidle
    · intro hr
      have hother := h.others _ hr
      rw [hc] at hother
      exact hother
  | call me hf hc =>
    exact h.goto (by simp [hc]) (fun _ => trivial) (fun _ => trivial) (by simp) (by simp)

theorem kernelTable_mem (L : Layout) (m : Memory) : (kernelTable L m).mem = (kernelStart L m).mem := rfl

theorem kernelTable_used (L : Layout) (m : Memory) (p : Slot) :
    Used (kernelTable L m) p ↔ ((kernelStart L m).processTable p).state ≠ .libre := .rfl

/-- The context that `create_process` prepared for slot 0. -/
theorem kernelStart_zero_context (L : Layout) (m : Memory) :
    loadContext (kernelStart L m).mem (L.regs 0) = ⟨0, BitVec.ofNat 32 (L.stackWord 0 255), 0, 0, 0⟩ := by
  have hskip : ∀ (p : Slot) (m : Memory), p ≠ 0 →
      loadContext (prepareStack L p m) (L.regs 0) = loadContext m (L.regs 0) := fun p m hp =>
    loadContext_congr (fun x h1 h2 =>
      prepareStack_of_not_private hp (Layout.private_disjoint (Ne.symm hp) (.inr ⟨h1, h2⟩)))
  rw [kernelStart_mem, hskip 2 _ (by decide), hskip 1 _ (by decide), loadContext_prepareStack]

theorem handoverInv_boot (L : Layout) (m : Memory) (gpr : Reg → U32) (systemTicks : U32) :
    HandoverInv L (.boot L m gpr systemTicks) := by
  have hcur : (kernelTable L m).currentPid = 0 := (createBase_filled L m).current
  have hcontrol : ∀ p, (Machine.boot L m gpr systemTicks).control p =
      if p = 0 then .startScheduling else .unborn := by
    intro p
    simp [Machine.boot, Function.update_apply]
  have hzero := (hcontrol 0).trans (if_pos rfl)
  refine ⟨⟨?_, ?_, ?_, ?_, ?_, ?_, ?_, ?_⟩, fun _ => hcur, ?_⟩
  · intro p hp hused
    change Suspended L p (kernelTable L m).mem none
    rw [kernelTable_mem]
    exact kernelStart_suspended hp ((kernelTable_used L m p).mp hused)
  · exact (kernelTable_used L m 0).mpr (kernelStart_zero_used L m)
  · change (Machine.boot L m gpr systemTicks).control 0 ≠ .unborn
    rw [hzero]
    simp
  · rw [hzero]
    trivial
  · intro p hp
    rw [hcontrol p, if_neg hp]
    trivial
  · intro p hp
    refine ⟨?_, rfl⟩
    rintro rfl
    exact hp ((kernelTable_used L m 0).mpr (kernelStart_zero_used L m))
  · intro p v hv
    cases hv
  · have hfit := L.stacks_fit
    have hbound : L.stackWord 0 255 < 2 ^ 32 := by
      simp only [Layout.stackWord, Fin.val_zero]
      omega
    refine .inr ?_
    change (loadContext (kernelTable L m).mem (L.regs 0)).esp.toNat = _
    rw [kernelTable_mem, kernelStart_zero_context]
    exact toNat_ofNat_of_lt hbound
  · intro oldPid next hc
    rw [hzero] at hc
    cases hc

theorem inWindow_preempt {n : ℕ} : (HandoverEvent.preempt n c).InWindow ↔
    n = 0 ∧ ∃ oldPid next, c = .callCtxSw oldPid next := by
  constructor
  · intro h
    unfold HandoverEvent.InWindow at h
    split at h
    · next he =>
      cases he
      exact ⟨rfl, _, _, rfl⟩
    · cases h
  · rintro ⟨rfl, oldPid, next, rfl⟩
    trivial

/-- The threads that a switch may lead to are those of the slots it reads. -/
theorem HandoverBase.into_eq (h : HandoverBase L s) (hr : s.running = 0) (hused : Used s.kernel q)
    {v : Slot} (hv : L.InStack v (loadContext s.kernel.mem (L.regs q)).esp.toNat) : v = q := by
  by_cases hq : q = 0
  · subst hq
    rcases h.zero with hz | hz
    · exact inStack_unique hv hz
    · rw [hz] at hv
      have h1 : L.stackWord 0 0 ≤ L.stackWord 0 255 := by
        simp only [Layout.stackWord]
        omega
      have h2 : L.stackWord 0 255 < L.stackWord 0 256 := by
        simp only [Layout.stackWord]
        omega
      exact absurd (.inl hv) (unused_not_private h1 h2)
  · exact inStack_unique hv (h.contexts q (hr ▸ hq) hused).esp_inStack

/-- An interrupt in the window overwrites the context of the process elected. -/
theorem HandoverInv.window_breaks (h : HandoverInv L s) (hs : HandoverStep L s e t) (he : e.InWindow) :
    ¬ContextsOwn L t := by
  intro hown
  cases hs with
  | preempt w hi hs hok =>
    obtain ⟨hs, hk⟩ := tickHandlerC_some hs
    obtain ⟨hold, hne, hpret, _, _, hu⟩ := schedule_some hs
    obtain ⟨_, oldPid, next, hc⟩ := inWindow_preempt.mp he
    have hr := h.running_of_callCtxSw hc
    rw [hr] at hc
    obtain ⟨_, _, hcur⟩ := h.window oldPid next hc
    have hidle := h.idle
    rw [hc] at hidle
    obtain ⟨_, hn0, hnused⟩ := hidle
    have hwn : w.old = next := hold.trans hcur
    obtain ⟨hstack, _, hroom, hinto⟩ := hok
    obtain ⟨_, hsaved, _, hesp, hloaded, _⟩ := switchTo_spec w.ra hne.symm hroom
    have hregs := loadContext_of_stack hstack w.next
    have hthread : w.into = w.next := by
      refine h.into_eq hr (by simp [Used, hpret]) ?_
      rw [← hregs, ← hloaded]
      exact hinto
    have hused : Used (schedule s.kernel).1 next := (hu next).mpr hnused
    rw [← hk] at hused
    have hsus := hown.contexts next (by change next ≠ w.into; rw [hthread, ← hwn]; exact hne.symm) hused
    have hin := hsus.esp_inStack
    change L.InStack next (loadContext (switchTo L w.old w.next w.ra w.cpu).mem (L.regs next)).esp.toNat at hin
    rw [← hwn, hsaved] at hin
    obtain ⟨hlow, hhigh⟩ := hroom
    have hidleStack : L.InStack 0 (switchRecord L w.old w.next w.ra w.cpu).saved.esp.toNat := by
      rw [hr] at hlow hhigh
      exact ⟨by omega, by omega⟩
    exact hn0 (hwn ▸ inStack_unique hin hidleStack)
  | _ => exact he

theorem handoverInv_run {tr : List HandoverEvent} (hr : Runs (HandoverStep L) s tr t)
    (h : HandoverInv L s) (hwin : ∀ e ∈ tr, ¬e.InWindow) : HandoverInv L t := by
  induction hr with
  | nil => exact h
  | cons hs _ ih =>
    exact ih (handoverInv_step h hs (hwin _ List.mem_cons_self))
      (fun e he => hwin e (List.mem_cons_of_mem _ he))

/-- Statements without a break are a run of the machine. -/
theorem runs_statements (h : Statements k c k' c') (hk : s.kernel = k) (hc : s.control s.running = c)
    (hf : s.frames s.running = 0) : ∃ tr, (∀ e ∈ tr, e = HandoverEvent.statement) ∧
      Runs (HandoverStep L) s tr ({ s with kernel := k' }.goto c') := by
  induction h generalizing s with
  | refl k c =>
    subst hk hc
    refine ⟨[], fun e he => absurd he List.not_mem_nil, ?_⟩
    have hsame : { s with kernel := s.kernel }.goto (s.control s.running) = s := by
      simp [Machine.goto]
    rw [hsame]
    exact .nil s
  | step hs _ ih =>
    subst hk hc
    obtain ⟨tr, htr, hrun⟩ := ih (s := { s with kernel := _ }.goto _) rfl (Function.update_self _ _ _) hf
    refine ⟨.statement :: tr, ?_, .cons (.statement s _ _ hf hs) ?_⟩
    · intro e he
      rcases List.mem_cons.mp he with rfl | he
      · rfl
      · exact htr e he
    · simpa [Machine.goto] using hrun

/-- Exactly the runs with no interrupt in the window keep every context apart. -/
theorem handover_contexts_iff (L : Layout) (m : Memory) (gpr : Reg → U32) (systemTicks : U32)
    (tr : List HandoverEvent) (s : Machine) :
    (ContextsOwn L (.boot L m gpr systemTicks) ∧
      Runs (fun s e t => HandoverStep L s e t ∧ ContextsOwn L t) (.boot L m gpr systemTicks) tr s) ↔
      Runs (HandoverStep L) (.boot L m gpr systemTicks) tr s ∧ ∀ e ∈ tr, ¬e.InWindow := by
  have hboot := handoverInv_boot L m gpr systemTicks
  generalize Machine.boot L m gpr systemTicks = start at hboot
  rw [and_iff_right hboot.contextsOwn]
  constructor
  · intro h
    induction h with
    | nil s => exact ⟨.nil s, fun e he => absurd he List.not_mem_nil⟩
    | cons hs _ ih =>
      have hwin := fun he => hboot.window_breaks hs.1 he hs.2
      obtain ⟨hrun, hrest⟩ := ih (handoverInv_step hboot hs.1 hwin)
      refine ⟨.cons hs.1 hrun, ?_⟩
      intro e he
      rcases List.mem_cons.mp he with rfl | he
      · exact hwin
      · exact hrest e he
  · rintro ⟨h, hwin⟩
    induction h with
    | nil s => exact .nil s
    | cons hs _ ih =>
      have hnext := handoverInv_step hboot hs (hwin _ List.mem_cons_self)
      exact .cons ⟨hs, hnext.contextsOwn⟩ (ih hnext fun e he => hwin e (List.mem_cons_of_mem _ he))

/-- With `system_ticks` one before a quantum, the tick may arrive in the first call
of `schedule`, and processus1 gets the context of idle. -/
theorem handover_loses_context : ¬∀ tr s,
    Runs (HandoverStep .sample) (.boot .sample (fun _ => 0) (fun _ => 0x11B000#32) 49#32) tr s →
      ContextsOwn .sample s := by
  intro hall
  have hboot := handoverInv_boot .sample (fun _ => 0) (fun _ => 0x11B000#32) 49#32
  have hfirst : (schedule (kernelStart .sample fun _ => 0)).2 = some (0, 1) := by decide
  have hnested : (tickHandlerC 50#32 (schedule (kernelStart .sample fun _ => 0)).1).2 = some (1, 2) := by
    decide
  have hmem : (schedule (kernelStart .sample fun _ => 0)).1.mem = (kernelStart .sample fun _ => 0).mem :=
    (schedule_some hfirst).2.2.2.2.1
  have hused : ((kernelStart .sample fun _ => 0).processTable 2).state ≠ .libre := by decide
  have hsus := kernelStart_suspended (by decide) hused
  have hstatements := statements_schedule (kernelStart .sample fun _ => 0)
  rw [hfirst] at hstatements
  have hbegin : scheduleStatement (kernelTable .sample fun _ => 0) .startScheduling =
      some (kernelStart .sample fun _ => 0, .testEnabled) := rfl
  obtain ⟨tr, htr, hrun⟩ := runs_statements (L := .sample)
    (s := .boot .sample (fun _ => 0) (fun _ => 0x11B000#32) 49#32) (.step hbegin hstatements) rfl
    rfl rfl
  generalize (schedule (kernelStart .sample fun _ => 0)).1 = k at hnested hmem hrun
  have hinv := handoverInv_run hrun hboot (fun e he => by rw [htr e he]; exact id)
  have hroom : Layout.sample.StackRoom 0 0x11B000#32 := ⟨by decide, by decide⟩
  have hinside : 0x100500#32 ≠ Layout.sample.processStarter := by decide
  have hne : (1 : Slot) ≠ 2 := by decide
  let w : SwitchCall := ⟨1, 2, 2, 0x100500#32, ⟨fun _ => 0x11B000#32, k.mem⟩⟩
  have hloaded : (w.record .sample).loaded = loadContext k.mem (Layout.sample.regs 2) :=
    (switchTo_spec w.ra hne hroom).2.2.2.2.1
  have hinto : Layout.sample.InStack 2 (w.record .sample).loaded.esp.toNat := by
    rw [hloaded, hmem]
    exact hsus.esp_inStack
  let u : Machine :=
    { Machine.boot .sample (fun _ => 0) (fun _ => 0x11B000#32) 49#32 with kernel := k }.goto (.callCtxSw 0 1)
  have hstep := HandoverStep.preempt u w rfl hnested ⟨fun _ _ => rfl, hinside, hroom, hinto⟩
  have hwindow : (HandoverEvent.preempt 0 (.callCtxSw 0 1)).InWindow := trivial
  exact hinv.window_breaks hstep hwindow (hall _ _ (hrun.append (.cons hstep (.nil _))))

end N7OS
