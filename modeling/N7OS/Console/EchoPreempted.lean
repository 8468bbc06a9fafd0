import N7OS.Console.OnScreen

/-! # The echo, preempted

`kgetch` leaves interrupts enabled, so the calls of `console_putchar` that echo for
`sys_read` can be preempted between two statements, and other processes write
meanwhile. Their `sys_write` calls run behind an interrupt gate, to their end.
-/
namespace N7OS
open Execution

/-- The console, the echo's call, and the call that a `sys_write` is in with the bytes it
has left. -/
structure SharedConsole where
  console : Console
  echo : Option PutcharCall
  other : Option (PutcharCall × List U8)

/-- The next turn of the loop of `console_putbytes`. -/
def nextCall : List U8 → Option (PutcharCall × List U8)
  | [] => none
  | c :: rest => some (⟨c, .start⟩, rest)

inductive EchoEvent
  | echo (e : CallEvent)
  | sysWrite (bytes : List U8)
  | other

inductive EchoStep : SharedConsole → EchoEvent → SharedConsole → Prop
  | echo {s s' : Console} {k k' : Option PutcharCall} {e : CallEvent} :
      CallStep ⟨s, k⟩ e ⟨s', k'⟩ → EchoStep ⟨s, k, none⟩ (.echo e) ⟨s', k', none⟩
  | sysWrite (s : Console) (k : Option PutcharCall) (bytes : List U8) :
      EchoStep ⟨s, k, none⟩ (.sysWrite bytes) ⟨s, k, nextCall bytes⟩
  | statement {s s' : Console} {k : Option PutcharCall} {call call' : PutcharCall} {rest : List U8} :
      CallStep ⟨s, some call⟩ .statement ⟨s', some call'⟩ →
      EchoStep ⟨s, k, some (call, rest)⟩ .other ⟨s', k, some (call', rest)⟩
  | ret {s s' : Console} {k : Option PutcharCall} {call : PutcharCall} {rest : List U8} :
      CallStep ⟨s, some call⟩ .ret ⟨s', none⟩ →
      EchoStep ⟨s, k, some (call, rest)⟩ .other ⟨s', k, nextCall rest⟩

def SharedConsole.quiet (s : Console) : SharedConsole := ⟨s, none, none⟩

def SharedConsole.running (t : SharedConsole) : Option PutcharCall :=
  match t.other with
  | some (k, _) => some k
  | none => t.echo

/-- The next statement writes to the screen if it writes, and a call finds the cursor on
the screen when it starts. -/
structure StaysOnScreen (t : SharedConsole) : Prop where
  writes : ∀ k i, t.running = some k → k.pc.written = some i → i < 2000
  starts : ∀ k, t.running = some k → k.pc = .start → OnScreen t.console

/-- Between a statement that takes the cursor past an edge and the one that brings it
back. -/
def PastEdge (pc : PutcharPoint) (s : Console) : Prop :=
  match pc with
  | .newlineCol => s.cursorLine.toNat = 25
  | .columnTest => 80 ≤ s.cursorCol.toNat ∨ s.cursorLine.toNat = 25
  | .columnReset => True
  | .lineTest => s.cursorLine.toNat = 25
  | .lineReset => True
  | _ => False

/-- The echo is the one that runs, and is past an edge. -/
def Exposed (t : SharedConsole) : Prop :=
  t.other = none ∧ ∃ k, t.echo = some k ∧ PastEdge k.pc t.console

structure EchoInv (t : SharedConsole) : Prop where
  idle : t.other = none → t.echo = none → OnScreen t.console
  echo : ∀ k, t.other = none → t.echo = some k → Assertion k.pc t.console
  other : ∀ k rest, t.other = some (k, rest) → Assertion k.pc t.console
  preempted : ∀ k, t.other ≠ none → t.echo = some k → ∀ s, OnScreen s → Assertion k.pc s

section
variable {pc : PutcharPoint} {s s' start : Console} {k : Option PutcharCall} {call call' : PutcharCall}
  {t u : SharedConsole} {e : EchoEvent} {events past : List EchoEvent} {bytes rest : List U8}

theorem pastEdge_iff (h : Assertion pc s) : PastEdge pc s ↔ ¬OnScreen s := by
  unfold OnScreen
  cases pc with
  | newlineCol =>
    obtain ⟨hline, hcol⟩ := h
    simp only [PastEdge]
    omega
  | columnTest =>
    simp only [PastEdge]
    simp only [Assertion] at h
    omega
  | columnReset =>
    obtain ⟨hline, hcol⟩ := h
    simp only [PastEdge, true_iff]
    omega
  | lineTest =>
    obtain ⟨hline, hcol⟩ := h
    simp only [PastEdge]
    omega
  | lineReset =>
    obtain ⟨hline, hcol⟩ := h
    simp only [PastEdge, true_iff]
    omega
  | store pos => exact iff_of_false id (not_not.mpr h.1)
  | blankLine line i => exact iff_of_false id (not_not.mpr h.1)
  | _ => exact iff_of_false id (not_not.mpr h)

/-- A call preempted with the cursor on the screen can go on from any such cursor. -/
theorem Assertion.resumes (h : Assertion pc s) (hon : OnScreen s) (hon' : OnScreen s') : Assertion pc s' := by
  cases pc with
  | store pos => exact ⟨hon', h.2⟩
  | blankLine line i => exact ⟨hon', h.2⟩
  | newlineCol => exact ⟨hon'.1.le, hon'.2⟩
  | columnTest => exact .inl hon'.1
  | columnReset => exact absurd hon.2 (Nat.not_lt.mpr h.2)
  | lineTest => exact ⟨hon'.1.le, hon'.2⟩
  | lineReset =>
    rw [OnScreen, h.1] at hon
    exact absurd hon.1 (by omega)
  | _ => exact hon'

theorem assertion_callStep (h : Assertion call.pc s) (hs : CallStep ⟨s, some call⟩ .statement ⟨s', some call'⟩) :
    Assertion call'.pc s' := by
  cases hs with
  | statement _ c pc hpc => exact assertion_statement h c

theorem onScreen_callReturn (h : Assertion call.pc s) (hs : CallStep ⟨s, some call⟩ .ret ⟨s', none⟩) : OnScreen s' := by
  cases hs with
  | ret => exact h

theorem echoInv_quiet (h : OnScreen s) : EchoInv (.quiet s) := ⟨fun _ _ => h, nofun, nofun, nofun⟩

/-- The `sys_write` starts or goes on to its next byte, or it is over. -/
theorem echoInv_nextCall (hon : OnScreen s) (hecho : ∀ call, k = some call → ∀ s', OnScreen s' → Assertion call.pc s')
    (bytes : List U8) : EchoInv ⟨s, k, nextCall bytes⟩ := by
  cases bytes with
  | nil => exact ⟨fun _ _ => hon, fun call _ hk => hecho call hk s hon, nofun, fun _ h => absurd rfl h⟩
  | cons c rest =>
    refine ⟨nofun, nofun, ?_, fun call _ hk => hecho call hk⟩
    rintro call rest' ⟨⟩
    exact hon

/-- A `sys_write` does no harm to a call that it finds with the cursor on the screen. -/
theorem EchoInv.step (h : EchoInv t) (hs : EchoStep t e u)
    (hon : ∀ bytes, e = .sysWrite bytes → bytes ≠ [] → OnScreen t.console) : EchoInv u := by
  cases hs with
  | echo hcall =>
    cases hcall with
    | call s c =>
      have hidle := h.idle rfl rfl
      exact ⟨nofun, by rintro call - ⟨⟩; exact hidle, nofun, fun _ h => absurd rfl h⟩
    | statement s c pc hpc =>
      have hassert := assertion_statement (h.echo _ rfl rfl) c
      exact ⟨nofun, by rintro call - ⟨⟩; exact hassert, nofun, fun _ h => absurd rfl h⟩
    | ret s c => exact ⟨fun _ _ => h.echo _ rfl rfl, nofun, nofun, nofun⟩
  | sysWrite s k bytes =>
    by_cases hempty : bytes = []
    · subst hempty
      exact h
    · have hscreen := hon bytes rfl hempty
      exact echoInv_nextCall hscreen (fun call hk s' hs' => (h.echo call rfl hk).resumes hscreen hs') bytes
  | @statement s s' k call call' rest hcall =>
    have hassert := assertion_callStep (h.other call rest rfl) hcall
    refine ⟨nofun, nofun, ?_, fun call _ hk => h.preempted call (by simp) hk⟩
    rintro call rest ⟨⟩
    exact hassert
  | @ret s s' k call rest hcall =>
    have hscreen := onScreen_callReturn (h.other call rest rfl) hcall
    exact echoInv_nextCall hscreen (fun call hk => h.preempted call (by simp) hk) rest

theorem EchoInv.staysOnScreen (h : EchoInv t) : StaysOnScreen t := by
  have hrunning : ∀ k, t.running = some k → Assertion k.pc t.console := by
    intro k hk
    unfold SharedConsole.running at hk
    split at hk
    · next call rest hother =>
      cases hk
      exact h.other _ _ hother
    · next hother => exact h.echo k hother hk
  constructor
  · exact fun k i hk hi => (hrunning k hk).written_lt hi
  · intro k hk hpc
    have hassert := hrunning k hk
    rw [hpc] at hassert
    exact hassert

theorem EchoInv.exposed_iff (h : EchoInv t) (hother : t.other = none) : Exposed t ↔ ¬OnScreen t.console := by
  constructor
  · rintro ⟨-, k, hk, hedge⟩
    exact (pastEdge_iff (h.echo k hother hk)).mp hedge
  · intro hoff
    cases hecho : t.echo with
    | none => exact absurd (h.idle hother hecho) hoff
    | some k => exact ⟨hother, k, hecho, (pastEdge_iff (h.echo k hother hecho)).mpr hoff⟩

theorem echoInv_run (hstart : OnScreen start) (hr : Runs EchoStep (.quiet start) events t)
    (hon : ∀ past bytes u, past ++ [.sysWrite bytes] <+: events → Runs EchoStep (.quiet start) past u →
      EchoInv u → u.other = none → bytes ≠ [] → OnScreen u.console) : EchoInv t := by
  have hall := hr.history_nil
    (fun past t => Runs EchoStep (.quiet start) past t ∧ (past <+: events → EchoInv t)) ?_
    ⟨.nil _, fun _ => echoInv_quiet hstart⟩
  · exact hall.2 List.prefix_rfl
  · rintro past s e u ⟨hrun, hinv⟩ hs
    refine ⟨hrun.append (.cons hs (.nil _)), ?_⟩
    intro hpast
    have hs' := hinv ((List.prefix_append _ _).trans hpast)
    refine hs'.step hs ?_
    rintro bytes rfl hne
    cases hs with
    | sysWrite s k bytes => exact hon past bytes _ hpast hrun hs' rfl hne

end

/-- In every run the calls stay on the screen exactly when no `sys_write` comes while
the echo is past an edge. -/
theorem echo_staysOnScreen_iff {start : Console} (hstart : OnScreen start) (events : List EchoEvent) :
    (∀ past u, past <+: events → Runs EchoStep (.quiet start) past u → StaysOnScreen u) ↔
      ∀ past bytes u, past ++ [.sysWrite bytes] <+: events → Runs EchoStep (.quiet start) past u →
        bytes ≠ [] → ¬Exposed u := by
  constructor
  · intro hstays past bytes u hpast hrun hne hexposed
    have hon : ∀ past bytes u, past ++ [.sysWrite bytes] <+: events → Runs EchoStep (.quiet start) past u →
        u.other = none → bytes ≠ [] → OnScreen u.console := by
      rintro past bytes ⟨s, k, other⟩ hpast hrun hother hne
      cases hother
      obtain ⟨c, rest, rfl⟩ := List.exists_cons_of_ne_nil hne
      have hnext := hrun.append (.cons (.sysWrite s k (c :: rest)) (.nil _))
      exact (hstays _ _ hpast hnext).starts ⟨c, .start⟩ rfl rfl
    have hinv : EchoInv u := echoInv_run hstart hrun (fun past' bytes' v hp hv _ =>
      hon past' bytes' v (hp.trans ((List.prefix_append _ _).trans hpast)) hv)
    exact (hinv.exposed_iff hexposed.1).mp hexposed (hon past bytes u hpast hrun hexposed.1 hne)
  · intro hclear past u hpast hrun
    have hinv : EchoInv u := echoInv_run hstart hrun (fun past' bytes' v hp hv hinv hother hne => by
      by_contra hoff
      exact hclear past' bytes' v (hp.trans hpast) hv hne ((hinv.exposed_iff hother).mpr hoff))
    exact hinv.staysOnScreen

/-- On the last line the echo of a newline is preempted before `cursor_line++`: the calls
stay on the screen. -/
theorem echo_staysOnScreen_iff_newline :
    let start : Console := ⟨fun _ => 0, 24, 79, 24, ⟨0, fun _ => 0⟩⟩
    ∀ past u, past <+: [.echo (.call newline), .echo .statement, .sysWrite [0x78#8], .other, .other, .other] →
      Runs EchoStep (.quiet start) past u → StaysOnScreen u := by
  intro start
  refine (echo_staysOnScreen_iff ⟨by decide, by decide⟩ _).mpr ?_
  intro past bytes u hpast hrun _ hexposed
  obtain rfl : past = [.echo (.call newline), .echo .statement] := by
    rcases past with _ | ⟨_, _ | ⟨_, _ | ⟨_, _ | ⟨_, _ | ⟨_, _ | ⟨_, past⟩⟩⟩⟩⟩⟩ <;> simp_all
  cases hrun with
  | cons hcall hrun =>
    cases hcall with
    | echo hcall =>
      cases hcall
      cases hrun with
      | cons hstatement hrun =>
        cases hstatement with
        | echo hstatement =>
          cases hstatement
          cases hrun
          obtain ⟨-, k, hk, hedge⟩ := hexposed
          cases hk
          exact hedge

/-- The echo of a newline on the last line is preempted after `cursor_line++`, and
another process prints a character: it goes to cell 2000. -/
theorem echo_leaves_screen :
    ¬∀ start events t, OnScreen start → Runs EchoStep (.quiet start) events t → StaysOnScreen t := by
  intro h
  let start : Console := ⟨fun _ => 0, 24, 0, 24, ⟨0, fun _ => 0⟩⟩
  have hrun : Runs EchoStep (.quiet start)
      [.echo (.call newline), .echo .statement, .echo .statement, .sysWrite [0x78#8], .other, .other] _ :=
    .cons (.echo (.call _ _)) (.cons (.echo (.statement _ _ _ (by decide)))
      (.cons (.echo (.statement _ _ .newlineLine (by decide))) (.cons (.sysWrite _ _ _)
        (.cons (.statement (.statement _ _ _ (by decide)))
          (.cons (.statement (.statement _ _ .place (by decide))) (.nil _))))))
  have hlt := (h start _ _ ⟨by decide, by decide⟩ hrun).writes ⟨0x78#8, .store 2000⟩ 2000 rfl rfl
  omega

end N7OS
