import N7OS.Console.Cursor
import N7OS.Console.Statements

/-! # The console stays on the screen

One call of `console_putchar` after the other, each run to its end. The assertion at
each point says how far the cursor may have gone past the edge there.
-/
namespace N7OS
open Execution

structure PutcharCall where
  c : U8
  pc : PutcharPoint

/-- The console and the call in progress. -/
structure Calling where
  console : Console
  call : Option PutcharCall

inductive CallEvent
  | call (c : U8)
  | statement
  | ret

inductive CallStep : Calling → CallEvent → Calling → Prop
  | call (s : Console) (c : U8) : CallStep ⟨s, none⟩ (.call c) ⟨s, some ⟨c, .start⟩⟩
  | statement (s : Console) (c : U8) (pc : PutcharPoint) : pc ≠ .done →
      CallStep ⟨s, some ⟨c, pc⟩⟩ .statement
        ⟨(putcharStatement c pc s).2, some ⟨c, (putcharStatement c pc s).1⟩⟩
  | ret (s : Console) (c : U8) : CallStep ⟨s, some ⟨c, .done⟩⟩ .ret ⟨s, none⟩

/-- `init_console`, which is `clear_screen` and nothing else, about to run. -/
def Calling.init (scrTab : ℕ → U16) (crtc : Crtc) : Calling :=
  ⟨.boot scrTab crtc, some ⟨formFeed, .blankScreen 0⟩⟩

/-- The bytes that `console_putchar` has been given. -/
def called (events : List CallEvent) : List U8 :=
  events.filterMap (fun e => match e with | .call c => some c | _ => none)

def OnScreen (s : Console) : Prop := s.cursorLine.toNat < 25 ∧ s.cursorCol.toNat < 80

/-- The position held in the two registers of the controller. -/
def Crtc.position (c : Crtc) : ℕ := 256 * (c.reg 0xE#8).toNat + (c.reg 0xF#8).toNat

/-- Where the cursor is at each point of a call. -/
def Assertion (pc : PutcharPoint) (s : Console) : Prop :=
  match pc with
  | .store pos => OnScreen s ∧ pos < 2000
  | .blankLine line _ => OnScreen s ∧ line.toNat < 25
  | .newlineCol => s.cursorLine.toNat ≤ 25 ∧ s.cursorCol.toNat < 80
  | .columnTest => s.cursorLine.toNat < 25 ∨ s.cursorLine.toNat = 25 ∧ s.cursorCol.toNat = 0
  | .columnReset => s.cursorLine.toNat < 25 ∧ 80 ≤ s.cursorCol.toNat
  | .lineTest => s.cursorLine.toNat ≤ 25 ∧ s.cursorCol.toNat < 80
  | .lineReset => s.cursorLine.toNat = 25 ∧ s.cursorCol.toNat < 80
  | _ => OnScreen s

/-- What the controller has been told at each point of an uninterrupted call. -/
def Programmed (pc : PutcharPoint) (s : Console) : Prop :=
  match pc with
  | .selectLow pos => pos = s.pos
  | .sendLow pos => pos = s.pos ∧ s.crtc.index = 0xF#8
  | .selectHigh pos => pos = s.pos ∧ s.crtc.reg 0xF#8 = (s.pos &&& 0xFF#16).setWidth 8
  | .sendHigh pos =>
    pos = s.pos ∧ s.crtc.index = 0xE#8 ∧ s.crtc.reg 0xF#8 = (s.pos &&& 0xFF#16).setWidth 8
  | .done => s.crtc.position = s.pos.toNat
  | _ => True

/-- An uninterrupted call also decrements only what it has tested. -/
structure Uninterrupted (pc : PutcharPoint) (s : Console) : Prop where
  assertion : Assertion pc s
  back : pc = .back → 0 < s.cursorCol.toNat
  programmed : Programmed pc s

/-- The points that the tests on `c` can lead to. -/
def branches : List PutcharPoint :=
  [.place, .backTest, .tabulate, .newlineLine, .blankScreen 0, .returnCol, .columnTest]

/-- A bound on the statements left. -/
def PutcharPoint.rank : PutcharPoint → ℕ
  | .start => 2010
  | .place => 97
  | .store _ => 96
  | .advance => 95
  | .backTest => 96
  | .back => 95
  | .tabulate => 95
  | .newlineLine => 96
  | .newlineCol => 95
  | .blankScreen i => 8 + (2000 - i)
  | .homeLine => 7
  | .homeCol => 6
  | .returnCol => 95
  | .columnTest => 94
  | .columnReset => 93
  | .columnCarry => 92
  | .lineTest => 91
  | .lineReset => 90
  | .changedTest => 89
  | .clearCall => 88
  | .blankLine _ i => 7 + (80 - i)
  | .remember => 6
  | .setCursor => 5
  | .selectLow _ => 4
  | .sendLow _ => 3
  | .selectHigh _ => 2
  | .sendHigh _ => 1
  | .done => 0

section
variable {pc : PutcharPoint} {s : Console} {c : U8} {i : ℕ}

theorem toNat_add_fit {x k : U8} (h : x.toNat + k.toNat < 256) : (x + k).toNat = x.toNat + k.toNat := by
  rw [BitVec.toNat_add]
  omega

theorem dispatch_mem (c : U8) : dispatch c ∈ branches := by
  unfold dispatch branches
  repeat' split
  all_goals simp

theorem assertion_dispatch (h : OnScreen s) (c : U8) : Assertion (dispatch c) s := by
  have hall : ∀ pc ∈ branches, Assertion pc s := by
    simp [branches, Assertion, h, h.1]
  exact hall (dispatch c) (dispatch_mem c)

theorem assertion_statement (h : Assertion pc s) (c : U8) :
    Assertion (putcharStatement c pc s).1 (putcharStatement c pc s).2 := by
  have hone : (1 : U8).toNat = 1 := rfl
  have hzero : (0 : U8).toNat = 0 := rfl
  cases pc with
  | start => exact assertion_dispatch h c
  | place =>
    obtain ⟨hline, hcol⟩ := h
    exact ⟨⟨hline, hcol⟩, by omega⟩
  | store pos => exact h.1
  | advance => exact .inl h.1
  | backTest =>
    simp only [putcharStatement]
    split
    · exact h
    · exact .inl h.1
  | back => exact .inl h.1
  | tabulate => exact .inl h.1
  | newlineLine =>
    obtain ⟨hline, hcol⟩ := h
    have hnext : (s.cursorLine + 1).toNat = s.cursorLine.toNat + 1 := toNat_add_fit (by omega)
    exact ⟨by simp only [putcharStatement]; omega, hcol⟩
  | newlineCol =>
    rcases Nat.lt_or_eq_of_le h.1 with hlt | heq
    · exact .inl hlt
    · exact .inr ⟨heq, rfl⟩
  | blankScreen i =>
    simp only [putcharStatement]
    split
    · exact h
    · exact h
  | homeLine => exact ⟨by simp only [putcharStatement]; omega, h.2⟩
  | homeCol => exact ⟨h.1, by simp only [putcharStatement]; omega⟩
  | returnCol => exact .inl h.1
  | columnTest =>
    simp only [putcharStatement]
    split
    · next hcol =>
      rcases h with hline | ⟨-, hhome⟩
      · exact ⟨hline, hcol⟩
      · omega
    · next hcol =>
      rcases h with hline | ⟨hline, -⟩
      · exact ⟨hline.le, Nat.lt_of_not_le hcol⟩
      · exact ⟨hline.le, Nat.lt_of_not_le hcol⟩
  | columnReset => exact ⟨h.1, by simp only [putcharStatement]; omega⟩
  | columnCarry =>
    obtain ⟨hline, hcol⟩ := h
    have hnext : (s.cursorLine + 1).toNat = s.cursorLine.toNat + 1 := toNat_add_fit (by omega)
    exact ⟨by simp only [putcharStatement]; omega, hcol⟩
  | lineTest =>
    obtain ⟨hline, hcol⟩ := h
    simp only [putcharStatement]
    split
    · exact ⟨by omega, hcol⟩
    · exact ⟨by omega, hcol⟩
  | lineReset => exact ⟨by simp only [putcharStatement]; omega, h.2⟩
  | changedTest =>
    simp only [putcharStatement]
    split
    · exact h
    · exact h
  | clearCall => exact ⟨h, h.1⟩
  | blankLine line i =>
    simp only [putcharStatement]
    split
    · exact h
    · exact h.1
  | _ => exact h

theorem Assertion.written_lt (h : Assertion pc s) (hi : pc.written = some i) : i < 2000 := by
  cases pc with
  | store pos =>
    cases hi
    exact h.2
  | blankScreen j =>
    simp only [PutcharPoint.written] at hi
    split at hi
    · cases hi
      omega
    · cases hi
  | blankLine line j =>
    have hline := h.2
    simp only [PutcharPoint.written] at hi
    split at hi
    · cases hi
      omega
    · cases hi
  | _ => cases hi

theorem Uninterrupted.not_wraps (h : Uninterrupted pc s) : ¬Wraps pc s := by
  obtain ⟨hassert, hback, -⟩ := h
  cases pc with
  | back =>
    have hcol := hback rfl
    simp only [Wraps]
    omega
  | advance =>
    obtain ⟨hline, hcol⟩ := hassert
    simp only [Wraps]
    omega
  | tabulate =>
    obtain ⟨hline, hcol⟩ := hassert
    simp only [Wraps]
    omega
  | newlineLine =>
    obtain ⟨hline, hcol⟩ := hassert
    simp only [Wraps]
    omega
  | columnCarry =>
    obtain ⟨hline, hcol⟩ := hassert
    simp only [Wraps]
    omega
  | _ => exact id

/-- The two halves of a position, put together again. -/
theorem halves (pos : U16) :
    256 * (((pos >>> 8) &&& 0xFF#16).setWidth 8 : U8).toNat + ((pos &&& 0xFF#16).setWidth 8 : U8).toNat =
      pos.toNat := by
  have hpos := pos.isLt
  have hmask : (0xFF#16).toNat = 2 ^ 8 - 1 := rfl
  simp only [BitVec.toNat_setWidth, BitVec.toNat_and, BitVec.toNat_ushiftRight, Nat.shiftRight_eq_div_pow, hmask,
    Nat.and_two_pow_sub_one_eq_mod]
  omega

theorem programmed_dispatch (c : U8) (s : Console) : Programmed (dispatch c) s := by
  unfold dispatch
  repeat' split
  all_goals trivial

theorem programmed_statement (h : Programmed pc s) (c : U8) :
    Programmed (putcharStatement c pc s).1 (putcharStatement c pc s).2 := by
  cases pc with
  | start => exact programmed_dispatch c s
  | backTest =>
    simp only [putcharStatement]
    split <;> trivial
  | blankScreen i =>
    simp only [putcharStatement]
    split <;> trivial
  | columnTest =>
    simp only [putcharStatement]
    split <;> trivial
  | lineTest =>
    simp only [putcharStatement]
    split <;> trivial
  | changedTest =>
    simp only [putcharStatement]
    split <;> trivial
  | blankLine line i =>
    simp only [putcharStatement]
    split <;> trivial
  | setCursor => exact rfl
  | selectLow pos => exact ⟨h, rfl⟩
  | sendLow pos =>
    obtain ⟨hpos, hindex⟩ := h
    refine ⟨hpos, ?_⟩
    simp [putcharStatement, Console.out, Crtc.outb, hindex, hpos, Console.pos]
  | selectHigh pos => exact ⟨h.1, rfl, h.2⟩
  | sendHigh pos =>
    obtain ⟨hpos, hindex, hlow⟩ := h
    have hreg : (s.out (((pos >>> 8) &&& 0xFF#16).setWidth 8) 0x3D5#16).crtc.reg =
        Function.update s.crtc.reg 0xE#8 (((s.pos >>> 8) &&& 0xFF#16).setWidth 8) := by
      simp [Console.out, Crtc.outb, hindex, hpos]
    change (s.out (((pos >>> 8) &&& 0xFF#16).setWidth 8) 0x3D5#16).crtc.position = s.pos.toNat
    rw [Crtc.position, hreg, Function.update_self, Function.update_of_ne (by decide), hlow]
    exact halves s.pos
  | done => exact h
  | _ => trivial

theorem Uninterrupted.statement (h : Uninterrupted pc s) (c : U8) :
    Uninterrupted (putcharStatement c pc s).1 (putcharStatement c pc s).2 := by
  refine ⟨assertion_statement h.assertion c, ?_, programmed_statement h.programmed c⟩
  have hdispatch : dispatch c ≠ .back := by
    intro hback
    have hmem := dispatch_mem c
    simp [hback, branches] at hmem
  cases pc with
  | backTest =>
    simp only [putcharStatement]
    split
    · next hcol => exact fun _ => hcol
    · simp
  | start => exact fun hpc => absurd hpc hdispatch
  | _ =>
    simp only [putcharStatement]
    try split
    all_goals simp

theorem rank_statement (h : pc ≠ .done) (c : U8) (s : Console) : (putcharStatement c pc s).1.rank < pc.rank := by
  have hdispatch : (dispatch c).rank < 2010 := by
    have hall : ∀ pc ∈ branches, pc.rank < 2010 := by
      decide
    exact hall (dispatch c) (dispatch_mem c)
  cases pc with
  | start => exact hdispatch
  | done => exact absurd rfl h
  | _ =>
    simp only [putcharStatement]
    try split
    all_goals
      simp only [PutcharPoint.rank]
      omega

end

/-- The state between and inside calls, with the bytes given so far. -/
structure Sequential (scrTab : ℕ → U16) (crtc : Crtc) (bytes : List U8) (t : Calling) : Prop where
  between : t.call = none → OnScreen t.console ∧ t.console.crtc.position = t.console.pos.toNat ∧
    t.console = consolePutbytes (initConsole (.boot scrTab crtc)) bytes
  inside : ∀ k, t.call = some k → Uninterrupted k.pc t.console ∧
    finish k.c k.pc t.console = consolePutbytes (initConsole (.boot scrTab crtc)) bytes

section
variable {scrTab : ℕ → U16} {crtc : Crtc} {t u : Calling} {e : CallEvent} {events past : List CallEvent}
  {bytes : List U8}

theorem sequential_init (scrTab : ℕ → U16) (crtc : Crtc) : Sequential scrTab crtc [] (.init scrTab crtc) where
  between h := nomatch h
  inside k hk := by
    cases hk
    have hon : OnScreen (.boot scrTab crtc) := by
      simp [OnScreen, Console.boot]
    exact ⟨⟨hon, nofun, trivial⟩, (clearScreen_eq _).symm⟩

theorem Sequential.step (h : Sequential scrTab crtc bytes t) (hs : CallStep t e u) :
    Sequential scrTab crtc (bytes ++ called [e]) u := by
  cases hs with
  | call s c =>
    obtain ⟨hon, hpos, hs⟩ := h.between rfl
    refine ⟨nofun, ?_⟩
    rintro k ⟨⟩
    refine ⟨⟨hon, nofun, trivial⟩, ?_⟩
    have hcalled : called [.call c] = [c] := rfl
    change consolePutchar s c = _
    rw [hcalled, consolePutbytes_append, ← hs]
    rfl
  | statement s c pc hpc =>
    obtain ⟨hun, hfinish⟩ := h.inside _ rfl
    refine ⟨nofun, ?_⟩
    rintro k ⟨⟩
    have hnone : called [.statement] = [] := rfl
    rw [hnone, List.append_nil]
    exact ⟨hun.statement c, (finish_statement c pc s).trans hfinish⟩
  | ret s c =>
    obtain ⟨hun, hfinish⟩ := h.inside _ rfl
    have hnone : called [.ret] = [] := rfl
    rw [hnone, List.append_nil]
    exact ⟨fun _ => ⟨hun.assertion, hun.programmed, hfinish⟩, nofun⟩

theorem sequential_run (h : Runs CallStep (.init scrTab crtc) events t) : Sequential scrTab crtc (called events) t := by
  refine h.history_nil (fun past t => Sequential scrTab crtc (called past) t) ?_ (sequential_init scrTab crtc)
  intro past s e t hs hstep
  have hnext := hs.step hstep
  rwa [called, called, ← List.filterMap_append] at hnext

/-- Every call returns, and no other begins before. -/
theorem call_returns (s : Console) (k : PutcharCall) :
    ∃ events u, Runs CallStep ⟨s, some k⟩ events u ∧ u.call = none ∧ called events = [] := by
  obtain ⟨c, pc⟩ := k
  generalize hn : pc.rank = n
  induction n using Nat.strong_induction_on generalizing pc s with
  | _ n ih =>
    by_cases hpc : pc = .done
    · subst hpc
      exact ⟨[.ret], _, .cons (.ret s c) (.nil _), rfl, rfl⟩
    · have hlt := rank_statement hpc c s
      rw [hn] at hlt
      obtain ⟨events, u, hrun, hu, hcalled⟩ := ih _ hlt _ _ rfl
      exact ⟨.statement :: events, u, .cons (.statement s c pc hpc) hrun, hu, hcalled⟩

/-- Every string can be written, one call after the other. -/
theorem calls_run (scrTab : ℕ → U16) (crtc : Crtc) (bytes : List U8) :
    ∃ events t, Runs CallStep (.init scrTab crtc) events t ∧ t.call = none ∧ called events = bytes := by
  induction bytes using List.reverseRecOn with
  | nil => exact call_returns _ _
  | append_singleton bytes c ih =>
    obtain ⟨events, ⟨s, call⟩, hrun, hcall, hcalled⟩ := ih
    obtain rfl : call = none := hcall
    obtain ⟨events', u, hrun', hcall', hcalled'⟩ := call_returns s ⟨c, .start⟩
    refine ⟨events ++ .call c :: events', u, hrun.append (.cons (.call s c) hrun'), hcall', ?_⟩
    have hcons : called (.call c :: events') = c :: called events' := rfl
    rw [called, List.filterMap_append, ← called, ← called, hcons, hcalled, hcalled']

theorem OnScreen.pos (h : OnScreen s) : s.pos.toNat = 80 * s.cursorLine.toNat + s.cursorCol.toNat := by
  obtain ⟨hline, hcol⟩ := h
  rw [Console.pos, BitVec.toNat_ofNat]
  omega

end

/-- After every call the cursor is on the screen, where the controller shows it, and
during it nothing is written outside the screen and no byte of the cursor wraps. -/
theorem console_onScreen {scrTab : ℕ → U16} {crtc : Crtc} {events : List CallEvent} {t : Calling}
    (h : Runs CallStep (.init scrTab crtc) events t) :
    (t.call = none →
      t.console.cursorLine.toNat < 25 ∧ t.console.cursorCol.toNat < 80 ∧
        t.console.crtc.position = 80 * t.console.cursorLine.toNat + t.console.cursorCol.toNat ∧
        t.console.crtc.position < 2000 ∧
        t.console = consolePutbytes (initConsole (.boot scrTab crtc)) (called events)) ∧
      ∀ k, t.call = some k →
        (∀ i, k.pc.written = some i → i < 2000) ∧ ¬Wraps k.pc t.console ∧
          ∃ events' u, Runs CallStep t events' u ∧ u.call = none := by
  have hseq := sequential_run h
  constructor
  · intro hcall
    obtain ⟨hon, hpos, hs⟩ := hseq.between hcall
    rw [hon.pos] at hpos
    obtain ⟨hline, hcol⟩ := hon
    exact ⟨hline, hcol, hpos, by omega, hs⟩
  · intro k hk
    obtain ⟨hun, -⟩ := hseq.inside k hk
    refine ⟨fun i => hun.assertion.written_lt, hun.not_wraps, ?_⟩
    obtain ⟨events', u, hrun, hu, -⟩ := call_returns t.console k
    rw [← hk] at hrun
    exact ⟨events', u, hrun, hu⟩

/-- On the last line a tab past column 72 leads back to the first line. -/
theorem console_onScreen_lastTab :
    ∃ events t, Runs CallStep (.init (fun _ => 0) ⟨0, fun _ => 0⟩) events t ∧
      called events = List.replicate 24 newline ++ List.replicate 10 tab ∧
        t.console.cursorLine.toNat = 0 ∧ t.console.cursorCol.toNat = 0 ∧ t.console.crtc.position = 0 := by
  obtain ⟨events, t, hrun, hcall, hcalled⟩ :=
    calls_run (fun _ => 0) ⟨0, fun _ => 0⟩ (List.replicate 24 newline ++ List.replicate 10 tab)
  obtain ⟨-, -, hpos, -, hconsole⟩ := (console_onScreen hrun).1 hcall
  have hstart : At .home (initConsole (.boot (fun _ => 0) ⟨0, fun _ => 0⟩)) := ⟨rfl, rfl⟩
  have hat := consolePutbytes_at hstart (List.replicate 24 newline ++ List.replicate 10 tab)
  have hhome : (List.replicate 24 newline ++ List.replicate 10 tab).foldl Cursor.step .home = .home := by decide
  rw [hhome, ← hcalled, ← hconsole] at hat
  rw [hat.line, hat.col] at hpos
  exact ⟨events, t, hrun, hcalled, hat.line, hat.col, hpos⟩

end N7OS
