import N7OS.Foundation.FlagSafety
import N7OS.Process.HandoverSafety
import N7OS.Process.Programs

/-! # The timer can always preempt

Every program and every handler is checked against the discipline of the
interrupt flag. Past its end of interrupt a handler may switch, so a process that
comes back from a switch, and one that starts, find the flag either way.
-/
namespace N7OS
open ByteMemory Execution Interrupts Interrupts.Level

/-- The vectors that programs raise. -/
def Software : Gate → Prop
  | .test => True
  | .syscall _ _ _ => True
  | _ => False

/-- Past these two the process no longer calls `schedule` itself. -/
def lastSti : Place → Bool
  | .processStarter => true
  | .idle => true
  | _ => false

/-- Every process but the first one, that runs `idle`, runs something else. -/
def EntriesOk (L : Layout) (k : Kernel) : Prop :=
  ∀ p, p ≠ 0 → p = k.currentPid ∨ Used k p → UserFunction L (k.processEntry p)

/-- What is known of the data while process `p` runs. -/
def RunsAs (L : Layout) (p : Slot) (s : Shared) : Prop := s.kernel.currentPid = p ∧ EntriesOk L s.kernel

namespace Code

abbrev Obeys (L : Layout) (p : Slot) : Level → Code → Level → Prop := Checked Software lastSti (RunsAs L p)

variable {L : Layout} {p : Slot} {a b c : Level}

theorem obeys_data {f : Shared → Shared} (h : ∀ s, (f s).kernel = s.kernel) : Obeys L p a (.act f) a := by
  refine .act ?_ le_rfl
  intro s hs
  rw [RunsAs, h]
  exact hs

theorem obeys_nop : Obeys L p a nop a := obeys_data fun _ => rfl

theorem obeys_returns (v : U32) : Obeys L p a (returns v) a := obeys_data fun _ => rfl

theorem obeys_sequence {ps : List Code} (h : ∀ q ∈ ps, Obeys L p a q a) : Obeys L p a (sequence ps) a := by
  induction ps with
  | nil => exact obeys_nop
  | cons q ps ih =>
    have hq := h q List.mem_cons_self
    cases ps with
    | nil => exact hq
    | cons r ps => exact .seq hq (ih fun q hq => h q (List.mem_cons_of_mem _ hq))

theorem obeys_write (ha : a.Live) (s : List U8) : Obeys L p a (write s) a := .int ha trivial le_rfl

theorem obeys_printf (ha : a.Live) : Obeys L p a printf a := by
  refine .choose ?_
  intro calls
  apply obeys_sequence
  intro q hq
  obtain ⟨s, _, rfl⟩ := List.mem_map.mp hq
  exact obeys_write ha s

theorem obeys_read (ha : a.Live) (n : ℕ) : Obeys L p a (read n) a := .choose fun _ => .int ha trivial le_rfl

/-- `sti; hlt`, as every wait of the source is written. -/
theorem obeys_wait {x : Place} (ha : a.Live) (hx : lastSti x = false) :
    Obeys L p a (.seq (.sti x) (.hlt x)) (a.afterSti false) :=
  .seq (.sti ha (by rw [hx])) (.hlt (afterSti_enabled a false) le_rfl)

theorem obeys_kgetch (ha : a.Live) : Obeys L p a kgetch a := by
  have hwait : Obeys L p a (.seq (.sti .kgetch) (.hlt .kgetch)) a :=
    (obeys_wait ha rfl).mono le_rfl (afterSti_le ha)
  apply obeys_sequence
  simp only [List.forall_mem_cons]
  refine ⟨.loop le_rfl hwait le_rfl, obeys_data fun _ => rfl, obeys_data fun _ => rfl, ?_⟩
  simp

theorem obeys_readCharacter : Obeys L p a (.act readCharacter) a := by
  refine obeys_data ?_
  intro s
  rw [readCharacter]
  split
  · rfl
  · rfl

theorem obeys_sysRead (s : List U8) (len : ℤ) : Obeys L p unknown (sysRead s len) unknown := by
  have hbody : Obeys L p unknown (.seq kgetch (.act readCharacter)) unknown :=
    .seq (obeys_kgetch live_unknown) obeys_readCharacter
  apply obeys_sequence
  simp only [List.forall_mem_cons]
  refine ⟨obeys_data fun _ => rfl, .loop le_rfl hbody le_rfl, obeys_data fun _ => rfl, obeys_data fun _ => rfl, ?_⟩
  simp

/-! ## The handlers -/

theorem obeys_tickHandlerC : Obeys L p pending tickHandlerC unknown := by
  have hlast : Obeys L p unknown (.branch fun s => if s.systemTicks % 50#32 = 0#32 then .schedule else nop) unknown := by
    refine .branch ?_
    intro s _
    split
    · exact .schedule le_rfl le_rfl
    · exact obeys_nop
  exact .seq (.eoi le_rfl) (.seq (obeys_data fun _ => rfl) (.seq (obeys_data fun _ => rfl) hlast))

theorem obeys_keyboardHandlerC : Obeys L p pending keyboardHandlerC unknown :=
  .seq (.eoi le_rfl) (obeys_data fun _ => rfl)

theorem obeys_syscallTable (eax : U32) (s : List U8) (len : ℤ) :
    Obeys L p unknown (syscallTable eax s len) unknown := by
  rw [syscallTable]
  split
  · exact obeys_returns 1#32
  · split
    · exact .seq (obeys_data fun _ => rfl) (obeys_returns _)
    · exact obeys_sysRead s len

theorem obeys_software {v : Gate} (hv : Software v) : Obeys L p unknown (handler v) unknown := by
  have hiret : Obeys L p unknown .iret unknown := .iret live_unknown
  cases v with
  | test => exact .seq (obeys_printf live_unknown) hiret
  | syscall eax s len =>
    rw [handler, handlerSyscall]
    split
    · exact .seq (obeys_returns _) hiret
    · exact .seq (obeys_syscallTable eax s len) hiret
  | _ => cases hv

theorem obeys_hardware {n : ℕ} {v : Gate} (hv : (n7os L).line n = some v) :
    Obeys L p pending (handler v) unknown := by
  have hiret : Obeys L p unknown .iret unknown := .iret live_unknown
  simp only [n7os] at hv
  split at hv
  · cases hv
    exact .seq obeys_tickHandlerC hiret
  · split at hv
    · cases hv
      exact .seq obeys_keyboardHandlerC hiret
    · cases hv

/-! ## The programs -/

theorem obeys_settledWait {x : Place} (hx : lastSti x = false) :
    Obeys L p settled (.seq (.sti x) (.hlt x)) settled := obeys_wait live_settled hx

theorem obeys_processus1 : Obeys L p settled processus1 settled := by
  apply Checked.forever_self
  apply Checked.seq (b := settled)
  · exact .loop le_rfl (.seq (obeys_printf live_settled) (obeys_data fun _ => rfl)) le_rfl
  · exact obeys_settledWait rfl

theorem obeys_demoWait : Obeys L p settled demoWait settled := by
  refine .loop le_rfl ?_ le_rfl
  refine .seq (.sti live_settled le_rfl) (.seq (.hlt (.inr rfl) le_rfl) (.branch ?_))
  intro s _
  split
  · exact .seq (obeys_kgetch live_settled) (obeys_data fun _ => rfl)
  · exact obeys_nop

theorem obeys_demoProcess : Obeys L p settled demoProcess settled := by
  have hprint := obeys_printf (L := L) (p := p) live_settled
  apply obeys_sequence
  simp only [List.forall_mem_cons]
  refine ⟨hprint, obeys_data fun _ => rfl, obeys_data fun _ => rfl, obeys_data fun _ => rfl, obeys_demoWait,
    obeys_data fun _ => rfl, hprint, ?_⟩
  simp

theorem obeys_demoChoice (choice : U8) : Obeys L p settled (demoChoice choice) settled := by
  have hprint := obeys_printf (L := L) (p := p) live_settled
  have hread := obeys_read (L := L) (p := p) live_settled
  rw [demoChoice]
  split_ifs
  · exact .seq hprint (.seq (.int live_settled trivial le_rfl) hprint)
  · exact .seq hprint (.seq (.int live_settled trivial le_rfl) hprint)
  · exact obeys_demoProcess
  · apply obeys_sequence
    simp [hprint, hread]
  · exact .seq hprint (.seq (hread 64) hprint)
  · exact .seq hprint (obeys_data fun _ => rfl)
  · exact hprint

theorem obeys_demo : Obeys L p settled demo settled := by
  refine .seq (obeys_data fun _ => rfl) (.loop le_rfl ?_ le_rfl)
  refine .seq (obeys_printf live_settled) (.seq (obeys_read live_settled 16) (.branch ?_))
  intro s _
  split
  · exact obeys_nop
  · exact obeys_demoChoice _

theorem obeys_shell : Obeys L p settled shell settled := by
  have hprint := obeys_printf (L := L) (p := p) live_settled
  refine .seq hprint (Checked.forever_self (.seq hprint (.seq (obeys_read live_settled 64) (.branch ?_))))
  intro s _
  split
  · exact obeys_nop
  · split
    · exact obeys_demo
    · exact hprint

theorem obeys_other : Obeys L p settled other settled := by
  refine .choose ?_
  intro calls
  apply obeys_sequence
  intro q hq
  obtain ⟨call, _, rfl⟩ := List.mem_map.mp hq
  cases call with
  | sti => exact .sti live_settled le_rfl
  | hlt => exact .hlt (.inr rfl) le_rfl
  | kgetch => exact obeys_kgetch live_settled
  | test => exact .int live_settled trivial le_rfl
  | syscall eax s len => exact .int live_settled trivial le_rfl

theorem obeys_entry {function : U32} (h : UserFunction L function) : Obeys L p settled (entry L function) settled := by
  rw [entry]
  split_ifs with h1 h2 h3
  · exact obeys_processus1
  · exact obeys_shell
  · rcases h with h | h | h
    · exact absurd h h1
    · exact absurd h h2
    · exact absurd h3 h
  · exact obeys_other

/-- A process starts whatever the flag is. -/
theorem obeys_processStarter (hp : p ≠ 0) : Obeys L p unknown (processStarter L) settled := by
  refine .branch ?_
  rintro s ⟨hs, _⟩
  refine .seq (b := settled) (.sti live_unknown le_rfl) (.seq (b := settled) (.branch ?_) ?_)
  · rintro t ⟨ht, hentries⟩
    rw [getpid, hs]
    exact obeys_entry (hentries p hp (.inl ht.symm))
  · exact Checked.forever_self (.hlt (.inr rfl) le_rfl)

theorem obeys_idle (ha : a ≤ unknown) : Obeys L p a idle settled := by
  have hwait : ∀ {b}, b.Live → Obeys L p b (.seq (.sti .idle) (.hlt .idle)) settled := by
    intro b hb
    refine .seq (b := settled) (.sti hb ?_) (.hlt (.inr rfl) le_rfl)
    cases b with
    | _ => exact le_refl settled
  exact .seq (.schedule ha le_rfl) (.forever (hwait live_unknown) (hwait live_settled))

end Code

/-! ## The table of processes -/

section
variable {L : Layout} {k : Kernel} {p q : Slot} {s t : Shared}

theorem entriesOk_kernelTable (L : Layout) (m : Memory) :
    (kernelTable L m).currentPid = 0 ∧ EntriesOk L (kernelTable L m) := by
  have hcurrent : (kernelTable L m).currentPid = 0 := (createBase_filled L m).current
  refine ⟨hcurrent, ?_⟩
  intro p hp hrun
  have hused : Used (kernelTable L m) p := hrun.resolve_left (by rw [hcurrent]; exact hp)
  have hlt : p.val < 3 := by
    by_contra hge
    exact hused ((kernelStart_libre L m p).mpr (by omega))
  have hcases : p = 1 ∨ p = 2 := by
    have h0 : p.val ≠ 0 := fun h => hp (Fin.ext h)
    rcases (by omega : p.val = 1 ∨ p.val = 2) with h | h
    · exact .inl (Fin.ext h)
    · exact .inr (Fin.ext h)
  rw [kernelTable, createBase_eq]
  rcases hcases with rfl | rfl
  · exact .inl (by simp [fillSlot])
  · exact .inr (.inl (by simp [fillSlot]))

theorem schedule_processEntry (k : Kernel) : (schedule k).1.processEntry = k.processEntry := by
  rw [schedule]
  split
  · rfl
  · simp only
    split
    · rfl
    · rfl

theorem runsAs_stay (h : RunsAs L p s) (hs : (schedule s.kernel).2 = none) :
    RunsAs L p { s with kernel := (schedule s.kernel).1 } := by
  simpa [RunsAs, schedule_none hs] using h

/-- The process elected is one that has been created. -/
theorem runsAs_switch (h : RunsAs L p s) {old next : Slot} (hs : (schedule s.kernel).2 = some (old, next)) :
    old = p ∧ next ≠ p ∧ RunsAs L next { s with kernel := (schedule s.kernel).1 } := by
  obtain ⟨rfl, hentries⟩ := h
  obtain ⟨rfl, hne, hpret, hcurrent, _, hused⟩ := schedule_some hs
  refine ⟨rfl, hne, hcurrent, ?_⟩
  intro q hq hrun
  rw [schedule_processEntry]
  apply hentries q hq
  rcases hrun with rfl | hrun
  · refine .inr ?_
    rw [hcurrent, Used, hpret]
    simp
  · exact .inr ((hused q).mp hrun)

theorem runsAs_outside (h : RunsAs L p s) (ho : Outside L s t) : RunsAs L p t := by
  cases ho with
  | key => exact h
  | create name function hf =>
    obtain ⟨rfl, hentries⟩ := h
    rcases createProcess_cases L name function s.kernel with ⟨_, hc⟩ | ⟨slot, _, _, hc⟩
    · rw [hc]
      exact ⟨rfl, hentries⟩
    · rw [hc]
      refine ⟨rfl, ?_⟩
      intro q hq hrun
      by_cases hslot : q = slot
      · subst hslot
        simpa [fillSlot] using hf
      · have hentry := hentries q hq
        simpa [fillSlot, Used, Function.update_of_ne hslot] using hentry (by
          simpa [fillSlot, Used, Function.update_of_ne hslot] using hrun)

theorem n7os_disciplined (L : Layout) : Disciplined (n7os L) Software lastSti (RunsAs L) where
  running _ _ h := h.1
  software _ _ hv := (Code.obeys_software hv).codeOk
  hardware _ _ _ hv := (Code.obeys_hardware hv).codeOk
  stay _ _ h hs := runsAs_stay h hs
  switch _ _ _ _ h hs := runsAs_switch h hs
  outside _ _ _ h ho := runsAs_outside h ho

theorem Code.obeys_kernelStart (L : Layout) : Obeys L 0 unknown (kernelStart L) settled := by
  have htable : ∀ s, RunsAs L 0 s → RunsAs L 0 { s with kernel := kernelTable L s.kernel.mem } :=
    fun s _ => entriesOk_kernelTable L s.kernel.mem
  refine .seq (obeys_data fun _ => rfl) (.seq (b := enabled) (.sti live_unknown le_rfl) ?_)
  refine .seq (obeys_printf live_enabled) (.seq (.act htable le_rfl) (.seq (.act ?_ le_rfl) ?_))
  · exact fun s h => h
  · exact .seq (obeys_idle (.inr ⟨rfl, rfl⟩)) (Checked.forever_self (.hlt (.inr rfl) le_rfl))

theorem guarded_boot (L : Layout) (m : Memory) (console : Console) (locals : Slot → Locals) :
    Guarded (n7os L) Software lastSti (RunsAs L) (bootMachine L (.boot m console locals)) := by
  have hentries : RunsAs L 0 (.boot m console locals) := by
    refine ⟨rfl, ?_⟩
    intro p hp hrun
    rcases hrun with hrun | hrun
    · exact absurd hrun hp
    · exact absurd rfl hrun
  refine guarded_mk (t := 0) rfl hentries (holds_unknown rfl) ⟨(Code.obeys_kernelStart L).codeOk, ?_⟩ ?_
  · intro f hf
    cases hf
  · intro p hp
    refine ⟨(Code.obeys_processStarter hp).codeOk, ?_⟩
    intro f hf
    cases hf

/-- What lets the timer preempt, along a trace: a `hlt` is executed with interrupts on; so is
everything a process does outside handlers once it has executed the `sti` of its trampoline, or that
of the loop of `idle`; and IRQ 0 is not in service when another process is switched to. -/
structure Preemptible (tr : List (Event Slot Gate Place)) : Prop where
  halts : ∀ e ∈ tr, ∀ x, e.action = .hlt x → e.flag = true
  processes : ∀ past e rest, tr = past ++ e :: rest → e.depth = 0 →
    (∃ e' ∈ past, e'.thread = e.thread ∧ e'.depth = 0 ∧
      (e'.action = .sti .processStarter ∨ e'.action = .sti .idle)) → e.flag = true
  switches : ∀ e ∈ tr, ∀ p, e.action = .switch p → 0 ∉ e.inService

theorem timer_can_preempt {m : Memory} {console : Console} {locals : Slot → Locals}
    {tr : List (Event Slot Gate Place)} {t : Interrupts.Machine Shared Slot Gate Place}
    (h : SystemRun L m console locals tr t) : Preemptible tr := by
  have hrun : ∀ {past e rest}, tr = past ++ e :: rest → _ :=
    fun htr => (n7os_disciplined L).runs h (guarded_boot L m console locals) htr
  constructor
  · intro e he x hx
    obtain ⟨past, rest, htr⟩ := List.append_of_mem he
    exact ((hrun htr).1 x hx).1
  · rintro past e rest htr hd ⟨e', he', hthread, hdepth, haction⟩
    have hmark : Marked lastSti past e.thread := by
      rcases haction with haction | haction
      · exact ⟨e', he', hthread, hdepth, .processStarter, rfl, haction⟩
      · exact ⟨e', he', hthread, hdepth, .idle, rfl, haction⟩
    exact ((hrun htr).2.2 hmark hd).1
  · intro e he p hp
    obtain ⟨past, rest, htr⟩ := List.append_of_mem he
    rw [(hrun htr).2.1 p hp]
    exact List.not_mem_nil

/-- Some run from `m` executes `a`. -/
def Executes (L : Layout) (m : Interrupts.Machine Shared Slot Gate Place) (a : Action Slot Gate Place) : Prop :=
  ∃ tr t, Runs (Step (n7os L)) m tr t ∧ ∃ e ∈ tr, e.action = a

section
variable {m t : Interrupts.Machine Shared Slot Gate Place} {a b : Action Slot Gate Place}
  {e : Event Slot Gate Place} {c : Interrupts.Cpu Shared} {k : List Code}

theorem Executes.after (hs : Step (n7os L) m e t) (h : Executes L t a) : Executes L m a := by
  obtain ⟨tr, u, hr, e', he, ha⟩ := h
  exact ⟨e :: tr, u, .cons hs hr, e', List.mem_cons_of_mem e he, ha⟩

theorem Executes.local (hh : m.cpu.halted = false) (hl : Local m.cpu m.context.code b c k)
    (h : Executes L { m with cpu := c, context := { m.context with code := k } } a) : Executes L m a :=
  h.after (.local m hh hl)

theorem executes_now (hh : m.cpu.halted = false) (hl : Local m.cpu m.context.code a c k) : Executes L m a :=
  ⟨_, _, .cons (.local m hh hl) (.nil _), _, List.mem_cons_self, rfl⟩

end

/-- From boot through the first `schedule` of `idle` to the wait of processus1. -/
theorem processus1_halts : Executes .sample (bootMachine .sample
    (.boot (fun _ => 0) ⟨fun _ => 0, 0, 0, 0, ⟨0, fun _ => 0⟩⟩ (fun _ => ⟨0, [], 0, 0, false, false⟩)))
    (.hlt .processus1) := by
  have hswitch : (schedule (kernelStart .sample fun _ => 0)).2 = some (0, 1) := by decide
  apply Executes.local rfl (.seq ..)
  apply Executes.local rfl (.act ..)
  apply Executes.local rfl (.seq ..)
  apply Executes.local rfl (.sti ..)
  apply Executes.local rfl (.seq ..)
  apply Executes.local rfl (.choose _ _ [] _)
  apply Executes.local rfl (.act ..)
  apply Executes.local rfl (.seq ..)
  apply Executes.local rfl (.act ..)
  apply Executes.local rfl (.seq ..)
  apply Executes.local rfl (.act ..)
  apply Executes.local rfl (.seq ..)
  apply Executes.local rfl (.seq ..)
  refine Executes.after (.switch _ _ 0 1 rfl rfl ?_) ?_
  · exact hswitch
  apply Executes.local rfl (.branch ..)
  apply Executes.local rfl (.seq ..)
  apply Executes.local rfl (.sti ..)
  apply Executes.local rfl (.seq ..)
  apply Executes.local rfl (.branch ..)
  apply Executes.local rfl (.forever ..)
  apply Executes.local rfl (.seq ..)
  apply Executes.local rfl (.exit _ _ _ _ rfl)
  apply Executes.local rfl (.seq ..)
  apply Executes.local rfl (.sti ..)
  exact executes_now rfl (.hlt ..)

theorem timer_can_preempt_processus1 : ∃ m console locals tr t, SystemRun .sample m console locals tr t ∧
    (∃ e ∈ tr, e.action = .hlt .processus1) ∧ Preemptible tr := by
  obtain ⟨tr, t, hr, hhlt⟩ := processus1_halts
  exact ⟨_, _, _, tr, t, hr, hhlt, timer_can_preempt hr⟩

end

end N7OS
