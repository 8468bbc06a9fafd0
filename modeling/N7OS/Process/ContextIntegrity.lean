import N7OS.Process.Creation

/-! # Contexts survive switches

The system after `kernel_start`: one processor, the kernel, and for each process
how far it is in `process_starter`. `schedule` with its `ctx_sw` is one step;
between two such steps the running process computes on its registers and its own
stack, and may create processes.
-/
namespace N7OS
open Execution ByteMemory

/-- The next statement of `process_starter`, or code that it does not execute. -/
inductive Phase
  | body
  | starter
  | sti (me : Slot)
  | call (me : Slot)

structure System where
  kernel : Kernel
  gpr : Reg → U32
  phase : Slot → Phase

def System.cpu (s : System) : Cpu := ⟨s.gpr, s.kernel.mem⟩

def System.start (L : Layout) (m : Memory) (gpr : Reg → U32) : System :=
  ⟨kernelStart L m, gpr, fun _ => .body⟩

/-- After the switch, `ret` may have jumped to the trampoline. -/
def System.switched (L : Layout) (old next : Slot) (ra : U32) (s : System) : System :=
  let c := switchTo L old next ra s.cpu
  { kernel := { (schedule s.kernel).1 with mem := c.mem }
    gpr := c.gpr
    phase := if (switchRecord L old next ra s.cpu).popped = L.processStarter then
      Function.update s.phase next .starter else s.phase }

inductive SwitchEvent
  | work
  | create (name : ℕ → U8) (function : U32) (result : U32)
  | stay
  | switch (w : Switch)
  | starter
  | call (p : Slot) (function : U32)

/-- The return address that `schedule` pushes lies in `schedule`. -/
inductive SwitchStep (L : Layout) : System → SwitchEvent → System → Prop
  | work (s : System) (gpr : Reg → U32) (m : Memory) :
      (∀ x, ¬L.InStack s.kernel.currentPid x → m x = s.kernel.mem x) →
      SwitchStep L s .work { s with gpr := gpr, kernel := { s.kernel with mem := m } }
  | create (s : System) (name : ℕ → U8) (function : U32) :
      s.phase s.kernel.currentPid = .body →
      SwitchStep L s (.create name function (createProcess L name function s.kernel).2)
        { s with kernel := (createProcess L name function s.kernel).1 }
  | stay (s : System) : (schedule s.kernel).2 = none →
      SwitchStep L s .stay { s with kernel := (schedule s.kernel).1 }
  | switch (s : System) (old next : Slot) (ra : U32) : (schedule s.kernel).2 = some (old, next) →
      ra ≠ L.processStarter → L.StackRoom old (s.gpr .esp) →
      SwitchStep L s (.switch (switchRecord L old next ra s.cpu)) (s.switched L old next ra)
  | getpid (s : System) : s.phase s.kernel.currentPid = .starter →
      SwitchStep L s .starter
        { s with phase := Function.update s.phase s.kernel.currentPid (.sti (getpid s.kernel)) }
  | sti (s : System) (me : Slot) : s.phase s.kernel.currentPid = .sti me →
      SwitchStep L s .starter
        { s with phase := Function.update s.phase s.kernel.currentPid (.call me) }
  | call (s : System) (me : Slot) : s.phase s.kernel.currentPid = .call me →
      SwitchStep L s (.call s.kernel.currentPid (s.kernel.processEntry me))
        { s with phase := Function.update s.phase s.kernel.currentPid .body }

/-- The last switch away from `p`. -/
def lastOut (p : Slot) : List SwitchEvent → Option Switch
  | [] => none
  | .switch w :: tr => (lastOut p tr).or (if w.out = p then some w else none)
  | _ :: tr => lastOut p tr

/-- What the `create_process` calls of a run returned, with the functions they were given. -/
def creations : List SwitchEvent → List (U32 × U32)
  | [] => []
  | .create _ function result :: tr => (result, function) :: creations tr
  | _ :: tr => creations tr

/-- The calls of `kernel_start` come first. -/
def allCreations (L : Layout) (m : Memory) (tr : List SwitchEvent) : List (U32 × U32) :=
  (createBase L (initProcess L (.boot m))).2.zip [L.idle, L.processus1, L.shell] ++ creations tr

/-- What memory holds for a suspended process: the context it was switched out
with, or the one prepared by `create_process`. -/
def Suspended (L : Layout) (p : Slot) (m : Memory) : Option Switch → Prop
  | some w => loadContext m (L.regs p) = w.saved ∧ load32 m w.saved.esp.toNat = w.ra ∧
      L.stackLow p ≤ w.saved.esp.toNat ∧ w.saved.esp.toNat + 4 ≤ L.stackHigh p
  | none => p ≠ 0 ∧ loadContext m (L.regs p) = ⟨0, BitVec.ofNat 32 (L.stackWord p 255), 0, 0, 0⟩ ∧
      load32 m (L.stackWord p 255) = L.processStarter

/-- The context loaded and the address popped for a process, given how it was suspended. -/
def Resumed (L : Layout) (p : Slot) (loaded : Context) (popped : U32) : Option Switch → Prop
  | some v => loaded = v.saved ∧ popped = v.ra
  | none => p ≠ 0 ∧ popped = L.processStarter ∧ loaded.esp = BitVec.ofNat 32 (L.stackWord p 255)

/-- A process in the trampoline is not idle and knows its own pid. -/
def PhaseOk (p : Slot) : Phase → Prop
  | .body => True
  | .starter => p ≠ 0
  | .sti me => p ≠ 0 ∧ me = p
  | .call me => p ≠ 0 ∧ me = p

structure ContextInv (L : Layout) (m : Memory) (past : List SwitchEvent) (s : System) : Prop where
  table : TableInv s.kernel
  suspended : ∀ p, p ≠ s.kernel.currentPid → (s.kernel.processTable p).state ≠ .libre →
    Suspended L p s.kernel.mem (lastOut p past)
  fresh : ∀ p, (s.kernel.processTable p).state = .libre → p ≠ 0 ∧ lastOut p past = none
  inside : ∀ p w, lastOut p past = some w → w.ra ≠ L.processStarter
  phases : ∀ p, PhaseOk p (s.phase p)
  entries : ∀ (p : Slot) f, (BitVec.ofNat 32 p.val, f) ∈ allCreations L m past ↔
    (s.kernel.processTable p).state ≠ .libre ∧ s.kernel.processEntry p = f
  unused : ∀ x, L.stackWord 0 0 ≤ x → x < L.stackWord 0 256 → s.kernel.mem x = (kernelStart L m).mem x

variable {L : Layout} {m m' : Memory} {s t : System} {e : SwitchEvent} {past tr : List SwitchEvent}
  {p q slot : Slot} {last : Option Switch}

theorem lastOut_append (p : Slot) (tr : List SwitchEvent) (e : SwitchEvent) :
    lastOut p (tr ++ [e]) = (lastOut p [e]).or (lastOut p tr) := by
  induction tr with
  | nil => exact (Option.or_none).symm
  | cons a tr ih =>
    cases a with
    | switch w =>
      rw [List.cons_append, lastOut, lastOut, ih, Option.or_assoc]
    | _ => exact ih

theorem lastOut_switch (p : Slot) (w : Switch) (tr : List SwitchEvent) :
    lastOut p (tr ++ [.switch w]) = if w.out = p then some w else lastOut p tr := by
  rw [lastOut_append, lastOut, lastOut]
  split <;> rfl

theorem creations_append (tr : List SwitchEvent) (e : SwitchEvent) :
    creations (tr ++ [e]) = creations tr ++ creations [e] := by
  induction tr with
  | nil => rfl
  | cons a tr ih =>
    cases a with
    | create => exact congrArg (List.cons _) ih
    | _ => exact ih

theorem allCreations_append (tr : List SwitchEvent) (e : SwitchEvent) :
    allCreations L m (tr ++ [e]) = allCreations L m tr ++ creations [e] := by
  rw [allCreations, creations_append, ← List.append_assoc, allCreations]

theorem stackTop_inStack (hp : p ≠ 0) : L.stackLow p ≤ L.stackWord p 255 ∧
    L.stackWord p 255 + 4 ≤ L.stackHigh p := by
  rw [Layout.stackLow, Layout.stackHigh, if_neg hp, if_neg hp]
  simp only [Layout.stackWord]
  omega

/-- A context only depends on the private memory of its process. -/
theorem Suspended.congr (h : Suspended L p m last) (hm : ∀ x, L.Private p x → m' x = m x) :
    Suspended L p m' last := by
  have hregs : loadContext m' (L.regs p) = loadContext m (L.regs p) :=
    loadContext_congr (fun x h1 h2 => hm x (.inr ⟨h1, h2⟩))
  have hword : ∀ a, L.stackLow p ≤ a → a + 4 ≤ L.stackHigh p → load32 m' a = load32 m a :=
    fun a h1 h2 => load32_congr (fun x h3 h4 => hm x (.inl ⟨by omega, by omega⟩))
  cases last with
  | some w =>
    obtain ⟨hctx, hra, hlow, hhigh⟩ := h
    exact ⟨hregs.trans hctx, (hword _ hlow hhigh).trans hra, hlow, hhigh⟩
  | none =>
    obtain ⟨hp, hctx, htop⟩ := h
    obtain ⟨hlow, hhigh⟩ := stackTop_inStack hp
    exact ⟨hp, hregs.trans hctx, (hword _ hlow hhigh).trans htop⟩

/-- A suspended process is resumed where it was, or enters the trampoline. -/
theorem Suspended.resume (h : Suspended L p m last) (hm : ∀ x, L.Private p x → m' x = m x)
    {loaded : Context} {popped : U32} (hloaded : loaded = loadContext m (L.regs p))
    (hpopped : popped = load32 m' loaded.esp.toNat) : Resumed L p loaded popped last := by
  have h' := h.congr hm
  cases last with
  | some v =>
    have hl : loaded = v.saved := hloaded.trans h.1
    refine ⟨hl, ?_⟩
    rw [hpopped, hl]
    exact h'.2.1
  | none =>
    obtain ⟨hp, hctx, _⟩ := h
    have hl : loaded.esp = BitVec.ofNat 32 (L.stackWord p 255) := by rw [hloaded, hctx]
    have hfit := L.stackHigh_fits p
    have htop := stackTop_inStack (L := L) hp
    refine ⟨hp, ?_, hl⟩
    rw [hpopped, hl, toNat_ofNat_of_lt (by omega)]
    exact h'.2.2

/-- A switch suspends the process it leaves. -/
theorem suspended_switchTo {old next : Slot} {c : Cpu} (ra : U32) (hne : old ≠ next)
    (hroom : L.StackRoom old (c.gpr .esp)) :
    Suspended L old (switchTo L old next ra c).mem (some (switchRecord L old next ra c)) := by
  obtain ⟨_, hsaved, htop, hesp, _, _⟩ := switchTo_spec ra hne hroom
  have hra := switchRecord_ra L old next ra c
  obtain ⟨hlow, hhigh⟩ := hroom
  exact ⟨hsaved, htop.trans hra.symm, by omega, by omega⟩

theorem unused_not_private {x : ℕ} (h1 : L.stackWord 0 0 ≤ x) (h2 : x < L.stackWord 0 256) :
    ¬L.Private p x := by
  have hp := p.isLt
  have hs := L.stack_cases p
  have hr := L.regs_eq p
  have h3 := L.table_stacks
  have h4 := L.stacks_first
  simp only [Layout.stackWord, Fin.val_zero] at h1 h2
  rintro (⟨h5, h6⟩ | ⟨h5, h6⟩) <;> omega

/-- A new context waits for its first switch. -/
theorem suspended_prepareStack (hp : p ≠ 0) : Suspended L p (prepareStack L p m) none :=
  ⟨hp, loadContext_prepareStack L p m, load32_prepareStack L p m⟩

theorem prepareStack_of_not_private {x : ℕ} (hp : p ≠ 0) (hx : ¬L.Private p x) :
    prepareStack L p m x = m x := by
  obtain ⟨hlow, hhigh⟩ := stackTop_inStack (L := L) hp
  apply prepareStack_frame
  · exact fun hregs => hx (.inr hregs)
  · by_contra hin
    exact hx (.inl ⟨by omega, by omega⟩)

/-- Events other than switches and creations leave the history as it is. -/
theorem ContextInv.append (h : ContextInv L m past s) (hlast : ∀ p, lastOut p [e] = none)
    (hcreate : creations [e] = []) : ContextInv L m (past ++ [e]) s := by
  have hl : ∀ p, lastOut p (past ++ [e]) = lastOut p past := by
    intro p
    rw [lastOut_append, hlast, Option.none_or]
  refine ⟨h.table, ?_, ?_, ?_, h.phases, ?_, h.unused⟩
  · intro p hp hstate
    rw [hl]
    exact h.suspended p hp hstate
  · intro p hstate
    rw [hl]
    exact h.fresh p hstate
  · intro p w hw
    rw [hl] at hw
    exact h.inside p w hw
  · intro p f
    rw [allCreations_append, hcreate, List.append_nil]
    exact h.entries p f

theorem ContextInv.work (h : ContextInv L m past s) (gpr : Reg → U32)
    (hm : ∀ x, ¬L.InStack s.kernel.currentPid x → m' x = s.kernel.mem x) :
    ContextInv L m past { s with gpr := gpr, kernel := { s.kernel with mem := m' } } := by
  refine ⟨⟨h.table.enabled, h.table.elu, h.table.bloque, h.table.pid⟩, ?_, h.fresh, h.inside,
    h.phases, h.entries, ?_⟩
  · intro p hp hstate
    refine (h.suspended p hp hstate).congr (fun x hx => hm x ?_)
    exact fun hin => Layout.private_disjoint hp hx (.inl hin)
  · intro x h1 h2
    exact (hm x (fun hin => unused_not_private h1 h2 (.inl hin))).trans (h.unused x h1 h2)

theorem ContextInv.phase (h : ContextInv L m past s) (p : Slot) {ph : Phase} (hp : PhaseOk p ph) :
    ContextInv L m past { s with phase := Function.update s.phase p ph } := by
  refine ⟨h.table, h.suspended, h.fresh, h.inside, ?_, h.entries, h.unused⟩
  intro q
  by_cases hq : q = p
  · subst hq
    change PhaseOk q (Function.update s.phase q ph q)
    rwa [Function.update_self]
  · change PhaseOk q (Function.update s.phase p ph q)
    rw [Function.update_of_ne hq]
    exact h.phases q

theorem ContextInv.create (h : ContextInv L m past s) (name : ℕ → U8) (function : U32) :
    ContextInv L m (past ++ [.create name function (createProcess L name function s.kernel).2])
      { s with kernel := (createProcess L name function s.kernel).1 } := by
  have hlast : ∀ p r, lastOut p (past ++ [.create name function r]) = lastOut p past :=
    fun p r => lastOut_append p past _
  have htable := tableInv_create h.table L name function
  rcases createProcess_cases L name function s.kernel with ⟨hfull, hc⟩ | ⟨slot, hlibre, _, hc⟩
  · rw [hc] at htable ⊢
    refine ⟨htable, ?_, ?_, ?_, h.phases, ?_, h.unused⟩
    · intro p hp hstate
      rw [hlast]
      exact h.suspended p hp hstate
    · intro p hstate
      exact absurd hstate (hfull p)
    · intro p w hw
      rw [hlast] at hw
      exact h.inside p w hw
    · intro p f
      rw [allCreations_append, List.mem_append, h.entries p f]
      refine or_iff_left ?_
      intro hmem
      obtain ⟨hpid, _⟩ := Prod.mk.inj (List.mem_singleton.mp hmem)
      exact pid_ne_fail p hpid
  · obtain ⟨hslot, hnone⟩ := h.fresh slot hlibre
    rw [hc] at htable ⊢
    have hne : ∀ p, p ≠ slot → (fillSlot L slot name function s.kernel).processTable p =
        s.kernel.processTable p := fun p hp => Function.update_of_ne hp _ _
    refine ⟨htable, ?_, ?_, ?_, h.phases, ?_, ?_⟩
    · intro p hp hstate
      rw [hlast]
      by_cases hps : p = slot
      · subst hps
        rw [hnone]
        exact suspended_prepareStack hslot
      · rw [hne p hps] at hstate
        refine (h.suspended p hp hstate).congr (fun x hx => prepareStack_of_not_private hslot ?_)
        exact Layout.private_disjoint hps hx
    · intro p hstate
      rw [hlast]
      by_cases hps : p = slot
      · subst hps
        simp [fillSlot] at hstate
      · rw [hne p hps] at hstate
        exact h.fresh p hstate
    · intro p w hw
      rw [hlast] at hw
      exact h.inside p w hw
    · intro p f
      rw [allCreations_append, List.mem_append, h.entries p f]
      by_cases hps : p = slot
      · subst hps
        simp [fillSlot, creations, hlibre, eq_comm]
      · have hpid : BitVec.ofNat 32 p.val ≠ BitVec.ofNat 32 slot.val := fun hpid => hps (pid_inj hpid)
        rw [hne p hps]
        simp [fillSlot, creations, hpid, Function.update_of_ne hps]
    · intro x h1 h2
      refine Eq.trans (prepareStack_of_not_private hslot ?_) (h.unused x h1 h2)
      exact unused_not_private h1 h2

/-- A switch goes to another process, which was ready. -/
theorem switch_cases (h : TableInv s.kernel) {old next : Slot}
    (hs : (schedule s.kernel).2 = some (old, next)) :
    old = s.kernel.currentPid ∧ next ≠ old ∧ (s.kernel.processTable next).state = .pret ∧
      (schedule s.kernel).1 = { s.kernel with
        processTable := setState next .elu (setState old .pret s.kernel.processTable)
        currentPid := next } := by
  rcases schedule_cases h with ⟨_, hc⟩ | ⟨q, hq, _, hc⟩
  · rw [hc] at hs
    cases hs
  · rw [hc] at hs ⊢
    obtain ⟨rfl, rfl⟩ := Prod.mk.inj (Option.some.inj hs)
    refine ⟨rfl, ?_, hq, rfl⟩
    intro hcur
    rw [hcur, (h.elu _).mpr rfl] at hq
    cases hq

theorem private_frame {r : Slot} (h : ∀ x, ¬L.InStack r x → ¬L.InRegs r x → m' x = m x) :
    ∀ x, ¬L.Private r x → m' x = m x :=
  fun x hx => h x (fun hin => hx (.inl hin)) (fun hin => hx (.inr hin))

/-- What a switch loads is what the process it goes to was switched out with, or
the context prepared for it. -/
theorem ContextInv.resume (h : ContextInv L m past s) {old next : Slot} (ra : U32)
    (hs : (schedule s.kernel).2 = some (old, next)) (hroom : L.StackRoom old (s.gpr .esp)) :
    let w := switchRecord L old next ra s.cpu
    Resumed L next w.loaded w.popped (lastOut next past) := by
  intro w
  obtain ⟨hold, hne, hpret, _⟩ := switch_cases h.table hs
  obtain ⟨hout, _, _, _, hloaded, hpopped⟩ := switchTo_spec (r := old) (c := s.cpu) ra hne.symm hroom
  have hframe := private_frame hout
  have hsus := h.suspended next (hold ▸ hne) (by rw [hpret]; simp)
  exact hsus.resume (fun x hx => hframe x (Layout.private_disjoint hne hx)) hloaded hpopped

theorem switched_mem (L : Layout) (old next : Slot) (ra : U32) (s : System) :
    (s.switched L old next ra).kernel.mem = (switchTo L old next ra s.cpu).mem := rfl

theorem switched_phase (L : Layout) (old next : Slot) (ra : U32) (s : System) (p : Slot) :
    (s.switched L old next ra).phase p =
      if p = next ∧ (switchRecord L old next ra s.cpu).popped = L.processStarter then .starter
      else s.phase p := by
  change (if (switchRecord L old next ra s.cpu).popped = L.processStarter then
    Function.update s.phase next .starter else s.phase) p = _
  by_cases hpop : (switchRecord L old next ra s.cpu).popped = L.processStarter
  · simp [hpop, Function.update_apply]
  · simp [hpop]

/-- A switch frees no slot. -/
theorem switched_libre (h : TableInv s.kernel) {old next : Slot} (ra : U32)
    (hs : (schedule s.kernel).2 = some (old, next)) (p : Slot) :
    ((s.switched L old next ra).kernel.processTable p).state = .libre ↔
      (s.kernel.processTable p).state = .libre := by
  obtain ⟨hold, hne, hpret, hk⟩ := switch_cases h hs
  change ((schedule s.kernel).1.processTable p).state = _ ↔ _
  rw [hk, setState_state, setState_state]
  by_cases hpn : p = next
  · simp [hpn, hpret]
  · by_cases hpo : p = old
    · simp [hpo, hne.symm, (h.elu old).mpr hold]
    · simp [hpn, hpo]

theorem ContextInv.switch (h : ContextInv L m past s) {old next : Slot} {ra : U32}
    (hs : (schedule s.kernel).2 = some (old, next)) (hra : ra ≠ L.processStarter)
    (hroom : L.StackRoom old (s.gpr .esp)) :
    ContextInv L m (past ++ [.switch (switchRecord L old next ra s.cpu)]) (s.switched L old next ra) := by
  have hresume := h.resume ra hs hroom
  have htable := tableInv_schedule h.table
  have hlibre := switched_libre (L := L) h.table ra hs
  obtain ⟨hold, hne, _, hk⟩ := switch_cases h.table hs
  obtain ⟨hrest, _⟩ := switchTo_spec (r := old) (c := s.cpu) ra hne.symm hroom
  have hframe := private_frame hrest
  have hlast : ∀ p, lastOut p (past ++ [.switch (switchRecord L old next ra s.cpu)]) =
      if old = p then some (switchRecord L old next ra s.cpu) else lastOut p past := by
    intro p
    rw [lastOut_switch, switchRecord_out]
  have hentry : (s.switched L old next ra).kernel.processEntry = s.kernel.processEntry := by
    change (schedule s.kernel).1.processEntry = _
    rw [hk]
  refine ⟨⟨htable.enabled, htable.elu, htable.bloque, htable.pid⟩, ?_, ?_, ?_, ?_, ?_, ?_⟩
  · intro p _ hused
    rw [hlast, switched_mem]
    split
    · next hpo => exact hpo ▸ suspended_switchTo ra hne.symm hroom
    · next hpo =>
      have hsus := h.suspended p (hold ▸ Ne.symm hpo) (fun hl => hused ((hlibre p).mpr hl))
      exact hsus.congr (fun x hx => hframe x (Layout.private_disjoint (Ne.symm hpo) hx))
  · intro p hl
    have hfree := (hlibre p).mp hl
    have hpo : old ≠ p := by
      rintro rfl
      rw [(h.table.elu _).mpr hold] at hfree
      cases hfree
    rw [hlast, if_neg hpo]
    exact h.fresh p hfree
  · intro p v hw
    rw [hlast] at hw
    split at hw
    · rw [← Option.some.inj hw, switchRecord_ra]
      exact hra
    · exact h.inside p v hw
  · intro p
    rw [switched_phase]
    split
    · next hp =>
      obtain ⟨rfl, hpop⟩ := hp
      cases hlast : lastOut p past with
      | some v =>
        rw [hlast] at hresume
        exact absurd (hresume.2.symm.trans hpop) (h.inside p v hlast)
      | none =>
        rw [hlast] at hresume
        exact hresume.1
    · exact h.phases p
  · intro p f
    have hcreate : creations [.switch (switchRecord L old next ra s.cpu)] = [] := rfl
    rw [allCreations_append, hcreate, List.append_nil, h.entries p f, Ne, Ne, hlibre, hentry]
  · intro x h1 h2
    rw [switched_mem]
    exact (hframe x (unused_not_private h1 h2)).trans (h.unused x h1 h2)

theorem contextInv_step (h : ContextInv L m past s) (hs : SwitchStep L s e t) :
    ContextInv L m (past ++ [e]) t := by
  cases hs with
  | work gpr m' hm => exact (h.work gpr hm).append (fun _ => rfl) rfl
  | create name function hp => exact h.create name function
  | stay hs =>
    rcases schedule_cases h.table with ⟨_, hc⟩ | ⟨q, _, _, hc⟩
    · rw [hc]
      exact h.append (fun _ => rfl) rfl
    · rw [hc] at hs
      cases hs
  | switch old next ra hs hra hroom => exact h.switch hs hra hroom
  | getpid hp =>
    have hok := h.phases s.kernel.currentPid
    rw [hp] at hok
    have hnext : PhaseOk s.kernel.currentPid (.sti (getpid s.kernel)) := ⟨hok, rfl⟩
    exact (h.phase _ hnext).append (fun _ => rfl) rfl
  | sti me hp =>
    have hok := h.phases s.kernel.currentPid
    rw [hp] at hok
    have hnext : PhaseOk s.kernel.currentPid (.call me) := hok
    exact (h.phase _ hnext).append (fun _ => rfl) rfl
  | call me hp =>
    have hnext : PhaseOk s.kernel.currentPid .body := trivial
    exact (h.phase _ hnext).append (fun _ => rfl) rfl

theorem kernelStart_mem (L : Layout) (m : Memory) : (kernelStart L m).mem =
    prepareStack L 2 (prepareStack L 1 (prepareStack L 0 (initProcess L (.boot m)).mem)) := by
  change (createBase L (initProcess L (.boot m))).1.mem = _
  rw [createBase_eq]
  rfl

theorem kernelStart_processEntry (L : Layout) (m : Memory) : (kernelStart L m).processEntry =
    Function.update (Function.update (Function.update (initProcess L (.boot m)).processEntry 0 L.idle)
      1 L.processus1) 2 L.shell := by
  change (createBase L (initProcess L (.boot m))).1.processEntry = _
  rw [createBase_eq]
  rfl

theorem kernelStart_entries (L : Layout) (m : Memory) (p : Slot) (f : U32) :
    (BitVec.ofNat 32 p.val, f) ∈ allCreations L m [] ↔
      ((kernelStart L m).processTable p).state ≠ .libre ∧ (kernelStart L m).processEntry p = f := by
  have hpid : ∀ n : Slot, BitVec.ofNat 32 p.val = BitVec.ofNat 32 n.val ↔ p = n :=
    fun n => ⟨pid_inj, fun h => h ▸ rfl⟩
  have hall : (BitVec.ofNat 32 p.val, f) ∈ allCreations L m [] ↔
      p = 0 ∧ f = L.idle ∨ p = 1 ∧ f = L.processus1 ∨ p = 2 ∧ f = L.shell := by
    rw [allCreations, createBase_eq, creations, List.append_nil, ← hpid 0, ← hpid 1, ← hpid 2]
    simp
  rw [hall, Ne, kernelStart_libre, kernelStart_processEntry]
  by_cases h0 : p = 0
  · subst h0
    simp [eq_comm]
  by_cases h1 : p = 1
  · subst h1
    simp [eq_comm]
  by_cases h2 : p = 2
  · subst h2
    simp [eq_comm]
  have hv : 3 ≤ p.val := by
    have hv0 : p.val ≠ 0 := fun h => h0 (Fin.ext h)
    have hv1 : p.val ≠ 1 := fun h => h1 (Fin.ext h)
    have hv2 : p.val ≠ 2 := fun h => h2 (Fin.ext h)
    omega
  simp [h0, h1, h2, hv]

theorem kernelStart_suspended (hp : p ≠ 0)
    (hstate : ((kernelStart L m).processTable p).state ≠ .libre) :
    Suspended L p (kernelStart L m).mem none := by
  rw [Ne, kernelStart_libre] at hstate
  rw [kernelStart_mem]
  by_cases h2 : p = 2
  · subst h2
    exact suspended_prepareStack (by decide)
  · have h1 : p = 1 := by
      have hv0 : p.val ≠ 0 := fun h => hp (Fin.ext h)
      have hv2 : p.val ≠ 2 := fun h => h2 (Fin.ext h)
      exact Fin.ext (by change p.val = 1; omega)
    subst h1
    refine (suspended_prepareStack (p := 1)
      (m := prepareStack L 0 (initProcess L (.boot m)).mem) (by decide)).congr (fun x hx => ?_)
    exact prepareStack_of_not_private (by decide) (Layout.private_disjoint (by decide) hx)

theorem kernelStart_zero_used (L : Layout) (m : Memory) :
    ((kernelStart L m).processTable 0).state ≠ .libre := by
  rw [Ne, kernelStart_libre]
  decide

theorem contextInv_start (L : Layout) (m : Memory) (gpr : Reg → U32) :
    ContextInv L m [] (.start L m gpr) := by
  have htable := tableInv_kernelStart L m
  have hcur : (kernelStart L m).currentPid = 0 := (createBase_filled L m).current
  refine ⟨htable, ?_, ?_, ?_, fun _ => trivial, kernelStart_entries L m, fun _ _ _ => rfl⟩
  · intro p hp hstate
    change p ≠ (kernelStart L m).currentPid at hp
    rw [hcur] at hp
    exact kernelStart_suspended hp hstate
  · intro p hstate
    refine ⟨?_, rfl⟩
    rintro rfl
    exact kernelStart_zero_used L m hstate
  · intro p w hw
    cases hw

theorem contextInv_run {gpr : Reg → U32} (h : Runs (SwitchStep L) (.start L m gpr) tr s) :
    ContextInv L m tr s :=
  h.history_nil (ContextInv L m) (fun _ _ _ _ hi hs => contextInv_step hi hs) (contextInv_start L m gpr)

/-- Every switch resumes the process it goes to where that process left off, or
at the start of the trampoline, which calls the function of its creation. -/
theorem context_integrity {gpr : Reg → U32} (h : Runs (SwitchStep L) (.start L m gpr) tr s) :
    (∀ past w rest, tr = past ++ .switch w :: rest →
      match lastOut w.into past with
      | some v => w.loaded = v.saved ∧ w.popped = v.ra
      | none => w.into ≠ 0 ∧ w.popped = L.processStarter ∧
          w.loaded.esp = BitVec.ofNat 32 (L.stackWord w.into 255)) ∧
    (∀ past (p : Slot) f rest, tr = past ++ .call p f :: rest →
      p ≠ 0 ∧ ∀ g, (BitVec.ofNat 32 p.val, g) ∈ allCreations L m past ↔ g = f) ∧
    ∀ x, L.stackWord 0 0 ≤ x → x < L.stackWord 0 256 → s.kernel.mem x = (kernelStart L m).mem x := by
  refine ⟨?_, ?_, (contextInv_run h).unused⟩
  · rintro past w rest rfl
    obtain ⟨s₁, s₂, hpast, hstep, _⟩ := h.split_cons
    have hinv := contextInv_run hpast
    cases hstep with
    | switch old next ra hs hra hroom =>
      have hresume := hinv.resume ra hs hroom
      rw [switchRecord_into]
      exact hresume
  · rintro past p f rest rfl
    obtain ⟨s₁, s₂, hpast, hstep, _⟩ := h.split_cons
    have hinv := contextInv_run hpast
    cases hstep with
    | call me hp =>
      have hok := hinv.phases s₁.kernel.currentPid
      rw [hp] at hok
      obtain ⟨h0, hme⟩ := hok
      refine ⟨h0, ?_⟩
      intro g
      have hused : (s₁.kernel.processTable s₁.kernel.currentPid).state ≠ .libre := by
        rw [(hinv.table.elu _).mpr rfl]
        simp
      rw [hinv.entries, hme, and_iff_right hused]
      exact eq_comm

/-- After boot the slots 1, 2 and 0 are switched to: process 0 goes on where it was switched out. -/
theorem context_integrity_back :
    ∃ w₁ w₂ w₃ s, Runs (SwitchStep .sample) (.start .sample (fun _ => 0) (fun _ => 0x11B000#32))
        [.switch w₁, .work, .switch w₂, .work, .switch w₃] s ∧
      w₁.out = 0 ∧ w₁.ra = 0x100500#32 ∧ w₃.into = 0 ∧ w₃.loaded = w₁.saved ∧ w₃.popped = 0x100500#32 := by
  have hroom₁ : Layout.sample.StackRoom 1 0x111800#32 := ⟨by decide, by decide⟩
  have hroom₂ : Layout.sample.StackRoom 2 0x111C00#32 := ⟨by decide, by decide⟩
  have hs₁ := SwitchStep.switch (L := .sample) (.start .sample (fun _ => 0) (fun _ => 0x11B000#32)) 0 1 0x100500#32
    (by decide) (by decide) ⟨by decide, by decide⟩
  generalize ht₁ : System.switched .sample 0 1 _ _ = t₁ at hs₁
  have hwork₁ := SwitchStep.work (L := .sample) t₁ (fun _ => 0x111800#32) t₁.kernel.mem (fun _ _ => rfl)
  have hs₂ := SwitchStep.switch (L := .sample) { t₁ with gpr := fun _ => 0x111800#32 } 1 2 0x100600#32
    (by subst ht₁; decide) (by decide) hroom₁
  generalize ht₂ : System.switched .sample 1 2 _ _ = t₂ at hs₂
  have hwork₂ := SwitchStep.work (L := .sample) t₂ (fun _ => 0x111C00#32) t₂.kernel.mem (fun _ _ => rfl)
  have hs₃ := SwitchStep.switch (L := .sample) { t₂ with gpr := fun _ => 0x111C00#32 } 2 0 0x100700#32
    (by subst ht₂ ht₁; decide) (by decide) hroom₂
  have hrun := Runs.cons hs₁ (.cons hwork₁ (.cons hs₂ (.cons hwork₂ (.cons hs₃ (.nil _)))))
  have hback := (context_integrity hrun).1 [.switch _, .work, .switch _, .work] _ [] rfl
  refine ⟨_, _, _, _, hrun, switchRecord_out .., switchRecord_ra .., switchRecord_into .., ?_⟩
  simpa [lastOut] using hback

end N7OS
