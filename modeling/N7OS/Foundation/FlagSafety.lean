import N7OS.Foundation.FlagDiscipline

/-! # The discipline in every interleaving

A system whose handlers are checked from their gates on, and whose threads are
checked with nothing known of the flag after a switch: each activation keeps the
level it was left at, and the outermost one of a settled thread is never
suspended by a switch of its own.
-/
namespace Interrupts
open Execution Level

/-- An interrupted activation can go on with the flag it has saved. -/
def FrameOk {σ V X : Type} (soft : V → Prop) (settles : X → Bool) (inv : σ → Prop) (f : Frame σ V X) : Prop :=
  ∃ a : Level, a.Holds f.flag [] ∧ CodeOk soft settles inv a f.code

structure ContextOk {σ V X : Type} (soft : V → Prop) (settles : X → Bool) (inv : σ → Prop) (a : Level)
    (x : Context σ V X) : Prop where
  code : CodeOk soft settles inv a x.code
  frames : ∀ f ∈ x.frames, FrameOk soft settles inv f

/-- Every handler is checked, from its gate on, in whatever thread it interrupts, and the scheduler
names the thread it leaves and another. -/
structure Disciplined {σ T V X : Type} (C : Setup σ T V X) (soft : V → Prop) (settles : X → Bool)
    (inv : T → σ → Prop) : Prop where
  running : ∀ t d, inv t d → C.running d = t
  software : ∀ t v, soft v → CodeOk soft settles (inv t) unknown [C.handler v]
  hardware : ∀ t n v, C.line n = some v → CodeOk soft settles (inv t) pending [C.handler v]
  stay : ∀ t d, inv t d → (C.schedule d).2 = none → inv t (C.schedule d).1
  switch : ∀ t d old next, inv t d → (C.schedule d).2 = some (old, next) →
    old = t ∧ next ≠ t ∧ inv next (C.schedule d).1
  outside : ∀ t d d', inv t d → C.outside d d' → inv t d'

section
variable {σ T V X : Type}

/-- The running thread is at a level that holds; the others may find the flag either way. -/
structure Guarded (C : Setup σ T V X) (soft : V → Prop) (settles : X → Bool) (inv : T → σ → Prop)
    (m : Machine σ T V X) : Prop where
  data : inv (m.thread C) m.cpu.data
  current : ∃ a : Level, a.Holds m.cpu.flag m.cpu.inService ∧
    ContextOk soft settles (inv (m.thread C)) a m.context
  suspended : ∀ t, t ≠ m.thread C → ContextOk soft settles (inv t) unknown (m.saved t)

def FrameSettled (soft : V → Prop) (settles : X → Bool) (inv : σ → Prop) (f : Frame σ V X) : Prop :=
  f.flag = true ∧ CodeOk soft settles inv settled f.code

/-- Outside its interrupts, thread `t` has the flag set for good; if it is suspended, it is inside one. -/
def Settled [DecidableEq T] (C : Setup σ T V X) (soft : V → Prop) (settles : X → Bool) (inv : T → σ → Prop)
    (m : Machine σ T V X) (t : T) : Prop :=
  FrameSettled soft settles (inv t)
    (if t = m.thread C then m.context.base m.cpu.flag else (m.saved t).base false)

/-- Thread `t` has executed, outside its interrupts, a `sti` that settles. -/
def Marked (settles : X → Bool) (past : List (Event T V X)) (t : T) : Prop :=
  ∃ e ∈ past, e.thread = t ∧ e.depth = 0 ∧ ∃ x, settles x = true ∧ e.action = .sti x

/-- An interrupt could be taken instead. -/
def Event.Interruptible (e : Event T V X) : Prop := e.flag = true ∧ e.inService = []

variable {C : Setup σ T V X} {soft : V → Prop} {settles : X → Bool} {inv : T → σ → Prop}
  {m m' : Machine σ T V X} {e : Event T V X} {t : T}

/-- An activation is suspended at the level it has reached. -/
theorem ContextOk.push {a b : Level} {x : Context σ V X} {flag : Bool} {p : Stmt σ V X}
    (hx : ContextOk soft settles (inv t) a x) (ha : a.Holds flag [])
    (hp : CodeOk soft settles (inv t) b [p]) : ContextOk soft settles (inv t) b (x.push flag p) := by
  refine ⟨hp, ?_⟩
  intro f hf
  rcases List.mem_cons.mp hf with rfl | hf
  · exact ⟨a, ha, hx.code⟩
  · exact hx.frames f hf

theorem guarded_mk {c : Cpu σ} {x : Context σ V X} {saved : T → Context σ V X} {a : Level}
    (ht : C.running c.data = t) (hd : inv t c.data) (ha : a.Holds c.flag c.inService)
    (hx : ContextOk soft settles (inv t) a x)
    (hs : ∀ u, u ≠ t → ContextOk soft settles (inv u) unknown (saved u)) :
    Guarded C soft settles inv ⟨c, x, saved⟩ := by
  subst ht
  exact ⟨hd, ⟨a, ha, hx⟩, hs⟩

/-- A step of the running thread that leaves the other contexts alone. -/
theorem Guarded.running (hC : Disciplined C soft settles inv) (hm : Guarded C soft settles inv m) {c : Cpu σ}
    {x : Context σ V X} {a : Level} (hd : inv (m.thread C) c.data) (ha : a.Holds c.flag c.inService)
    (hx : ContextOk soft settles (inv (m.thread C)) a x) : Guarded C soft settles inv ⟨c, x, m.saved⟩ :=
  guarded_mk (hC.running _ _ hd) hd ha hx hm.suspended

theorem FrameSettled.base {inv : σ → Prop} {flag flag' : Bool} {k k' : List (Stmt σ V X)}
    {fs : List (Frame σ V X)} (h : FrameSettled soft settles inv ((Context.mk k fs).base flag))
    (hnil : FrameSettled soft settles inv ⟨flag, k⟩ → FrameSettled soft settles inv ⟨flag', k'⟩) :
    FrameSettled soft settles inv ((Context.mk k' fs).base flag') := by
  cases fs with
  | nil => exact hnil h
  | cons f fs =>
    rw [base_of_frames flag' flag k' k (List.cons_ne_nil f fs)]
    exact h

variable [DecidableEq T]

theorem settled_mk {c : Cpu σ} {x : Context σ V X} {saved : T → Context σ V X} {u : T}
    (hu : C.running c.data = u)
    (h : FrameSettled soft settles (inv t) (if t = u then x.base c.flag else (saved t).base false)) :
    Settled C soft settles inv ⟨c, x, saved⟩ t := by
  subst hu
  exact h

theorem Settled.running (hC : Disciplined C soft settles inv) (hs : Settled C soft settles inv m t) {c : Cpu σ}
    {x : Context σ V X} (hd : inv (m.thread C) c.data)
    (hx : t = m.thread C → FrameSettled soft settles (inv t) (m.context.base m.cpu.flag) →
      FrameSettled soft settles (inv t) (x.base c.flag)) :
    Settled C soft settles inv ⟨c, x, m.saved⟩ t := by
  apply settled_mk (hC.running _ _ hd)
  by_cases ht : t = m.thread C
  · rw [Settled, if_pos ht] at hs
    rw [if_pos ht]
    exact hx ht hs
  · rw [Settled, if_neg ht] at hs
    rw [if_neg ht]
    exact hs

theorem guarded_step (hC : Disciplined C soft settles inv) (hm : Guarded C soft settles inv m)
    (h : Step C m e m') : Guarded C soft settles inv m' := by
  obtain ⟨a, ha, hx⟩ := hm.current
  have hdata := hm.data
  cases h with
  | «local» _ hl =>
    obtain ⟨hdata', a', ha', hk, _⟩ := hx.code.local hl ha hdata
    exact hm.running hC hdata' ha' ⟨hk, hx.frames⟩
  | int v k _ hcode =>
    obtain ⟨hlive, hsoft, hk⟩ := (hcode ▸ hx.code).int
    have hnil := ha.inService_nil hlive
    have hx' : ContextOk soft settles (inv (m.thread C)) a ⟨k, m.context.frames⟩ := ⟨hk, hx.frames⟩
    exact hm.running hC hdata (holds_unknown hnil) (hx'.push (hnil ▸ ha) (hC.software _ v hsoft))
  | iret k f fs _ hcode hframes =>
    have hnil := ha.inService_nil (hcode ▸ hx.code).iret
    have hframe := hx.frames
    rw [hframes] at hframe
    obtain ⟨b, hb, hf⟩ := hframe f List.mem_cons_self
    exact hm.running hC hdata (hnil.symm ▸ hb) ⟨hf, fun g hg => hframe g (List.mem_cons_of_mem f hg)⟩
  | stay k _ hcode hsch =>
    obtain ⟨hle, hk⟩ := (hcode ▸ hx.code).schedule
    have hnil := ha.inService_nil (live_of_le_unknown hle)
    exact hm.running hC (hC.stay _ _ hdata hsch) (holds_unknown hnil) ⟨hk, hx.frames⟩
  | switch k old next _ hcode hsch =>
    obtain ⟨hle, hk⟩ := (hcode ▸ hx.code).schedule
    have hnil := ha.inService_nil (live_of_le_unknown hle)
    obtain ⟨rfl, hne, hnext⟩ := hC.switch _ _ _ _ hdata hsch
    refine guarded_mk (hC.running _ _ hnext) hnext (holds_unknown hnil) (hm.suspended next hne) ?_
    intro t ht
    by_cases hold : t = m.thread C
    · subst hold
      rw [Function.update_self]
      exact ⟨hk, hx.frames⟩
    · rw [Function.update_of_ne hold]
      exact hm.suspended t hold
  | interrupt n v hflag hline _ =>
    have hnil := ha.inService_of_flag hflag
    have hpush := hx.push (hnil ▸ ha) (hC.hardware _ n v hline)
    exact hm.running hC hdata (holds_pending (by rw [hnil])) hpush
  | outside d hd => exact hm.running hC (hC.outside _ _ _ hdata hd) ha hx

/-- A settled thread stays so: it is never switched out by itself, and interrupts come back to it. -/
theorem settled_step (hC : Disciplined C soft settles inv) (hm : Guarded C soft settles inv m)
    (h : Step C m e m') (hs : Settled C soft settles inv m t) : Settled C soft settles inv m' t := by
  obtain ⟨a, ha, hx⟩ := hm.current
  have hdata := hm.data
  have hsched : ∀ {flag : Bool} {k : List (Stmt σ V X)},
      ¬FrameSettled soft settles (inv t) ⟨flag, .schedule :: k⟩ :=
    fun h => not_settled_le_unknown h.2.schedule.1
  cases h with
  | «local» _ hl =>
    obtain ⟨hdata', _⟩ := hx.code.local hl ha hdata
    refine hs.running hC hdata' ?_
    rintro rfl hbase
    refine hbase.base ?_
    rintro ⟨hflag, hcode⟩
    have hset : settled.Holds m.cpu.flag m.cpu.inService := ⟨hflag, ha.inService_of_flag hflag⟩
    obtain ⟨_, b, hb, hk, hsettled⟩ := hcode.local hl hset hdata
    obtain rfl := hsettled rfl
    exact ⟨hb.1, hk⟩
  | int v k _ hcode =>
    refine hs.running hC hdata ?_
    rintro rfl hbase
    rw [Context.push, base_cons]
    refine FrameSettled.base hbase ?_
    rintro ⟨hflag, hint⟩
    exact ⟨hflag, (hcode ▸ hint).int.2.2⟩
  | iret k f fs _ hcode hframes =>
    refine hs.running hC hdata ?_
    rintro rfl hbase
    have hcons : m.context.base m.cpu.flag = (Context.mk f.code fs).base f.flag := by
      rw [← base_cons m.cpu.flag m.context.code, ← hframes]
    exact hcons ▸ hbase
  | stay k _ hcode hsch =>
    refine hs.running hC (hC.stay _ _ hdata hsch) ?_
    rintro rfl hbase
    exact FrameSettled.base hbase fun h => absurd (hcode ▸ h) hsched
  | switch k old next _ hcode hsch =>
    obtain ⟨rfl, hne, hnext⟩ := hC.switch _ _ _ _ hdata hsch
    apply settled_mk (hC.running _ _ hnext)
    by_cases ht : t = m.thread C
    · subst ht
      rw [Settled, if_pos rfl] at hs
      rw [if_neg (Ne.symm hne), Function.update_self]
      exact FrameSettled.base hs fun h => absurd (hcode ▸ h) hsched
    · rw [Settled, if_neg ht] at hs
      rw [Function.update_of_ne ht]
      by_cases hn : t = next
      · subst hn
        rw [if_pos rfl]
        exact FrameSettled.base hs fun h => Bool.noConfusion h.1
      · rw [if_neg hn]
        exact hs
  | interrupt n v _ _ _ =>
    refine hs.running hC hdata ?_
    rintro rfl hbase
    rw [Context.push, base_cons]
    exact hbase
  | outside d hd => exact hs.running hC (hC.outside _ _ _ hdata hd) fun _ h => h

theorem settled_of_sti (hC : Disciplined C soft settles inv) (hm : Guarded C soft settles inv m)
    (h : Step C m e m') {x : X} (hx : settles x = true) (he : e.action = .sti x) (hd : e.depth = 0) :
    Settled C soft settles inv m' e.thread := by
  obtain ⟨a, ha, hctx⟩ := hm.current
  cases h with
  | @«local» action c k _ hl =>
    obtain rfl : action = .sti x := he
    obtain ⟨hdata, _⟩ := hctx.code.local hl ha hm.data
    obtain ⟨hflag, hk⟩ := hctx.code.afterSti hl hx
    have hnil : m.context.frames = [] := List.eq_nil_of_length_eq_zero hd
    apply settled_mk (hC.running _ _ hdata)
    have hthread : (m.event C (.sti x)).thread = m.thread C := rfl
    simp only [if_pos hthread, hnil, base_nil]
    exact ⟨hflag, hk⟩
  | _ => cases he

/-- A settled thread outside its interrupts can be interrupted. -/
theorem Settled.interruptible (hs : Settled C soft settles inv m e.thread) (hm : Guarded C soft settles inv m)
    (h : Step C m e m') (hd : e.depth = 0) : e.Interruptible := by
  obtain ⟨action, rfl⟩ : ∃ action, e = m.event C action := by
    cases h with
    | _ => exact ⟨_, rfl⟩
  obtain ⟨a, ha, _⟩ := hm.current
  have hnil : m.context.frames = [] := List.eq_nil_of_length_eq_zero hd
  have hthread : (m.event C action).thread = m.thread C := rfl
  rw [Settled, if_pos hthread, Context.base, hnil] at hs
  exact ⟨hs.1, ha.inService_of_flag hs.1⟩

theorem step_interruptible (hm : Guarded C soft settles inv m) (h : Step C m e m') :
    (∀ x, e.action = .hlt x → e.Interruptible) ∧ ∀ t, e.action = .switch t → e.inService = [] := by
  obtain ⟨a, ha, hx⟩ := hm.current
  cases h with
  | @«local» action c k _ hl =>
    constructor
    · rintro x hhlt
      obtain rfl : action = .hlt x := hhlt
      have hflag := ha.flag_of_enabled (hx.code.hlt hl)
      exact ⟨hflag, ha.inService_of_flag hflag⟩
    · rintro t hswitch
      obtain rfl : action = .switch t := hswitch
      generalize m.context.code = code at hl
      cases hl
  | switch k old next _ hcode hsch =>
    have hle := (hcode ▸ hx.code).schedule.1
    exact ⟨fun _ h => (nomatch h), fun _ _ => ha.inService_nil (live_of_le_unknown hle)⟩
  | _ => exact ⟨fun _ h => (nomatch h), fun _ h => (nomatch h)⟩

/-- In every run of a disciplined system, whatever the interleaving: a `hlt` can be interrupted, a
thread that has settled can be interrupted whenever it is outside its interrupts, and nothing is in
service when the processor goes to another thread. -/
theorem Disciplined.runs (hC : Disciplined C soft settles inv) {tr : List (Event T V X)}
    (h : Runs (Step C) m tr m') (hm : Guarded C soft settles inv m) {past rest : List (Event T V X)}
    (htr : tr = past ++ e :: rest) :
    (∀ x, e.action = .hlt x → e.Interruptible) ∧ (∀ t, e.action = .switch t → e.inService = []) ∧
      (Marked settles past e.thread → e.depth = 0 → e.Interruptible) := by
  subst htr
  obtain ⟨n, n', hpast, hstep, _⟩ := h.split_cons
  have hinv : Guarded C soft settles inv n ∧
      ∀ t, Marked settles past t → Settled C soft settles inv n t := by
    refine hpast.history_nil (fun past m => Guarded C soft settles inv m ∧
      ∀ t, Marked settles past t → Settled C soft settles inv m t) ?_ ⟨hm, ?_⟩
    · rintro past m e m' ⟨hg, hs⟩ hst
      refine ⟨guarded_step hC hg hst, ?_⟩
      rintro t ⟨e', hmem, rfl, hdepth, x, hx, haction⟩
      rcases List.mem_append.mp hmem with hold | hnew
      · exact settled_step hC hg hst (hs _ ⟨e', hold, rfl, hdepth, x, hx, haction⟩)
      · obtain rfl := List.mem_singleton.mp hnew
        exact settled_of_sti hC hg hst hx haction hdepth
    · rintro t ⟨e', hmem, _⟩
      cases hmem
  obtain ⟨hhlt, hswitch⟩ := step_interruptible hinv.1 hstep
  exact ⟨hhlt, hswitch, fun hmark hd => (hinv.2 _ hmark).interruptible hinv.1 hstep hd⟩

end

end Interrupts
