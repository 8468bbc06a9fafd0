import N7OS.Keyboard.Channel

/-! # Shift against the keys held down

The handler folds two keys into the flag `shift_pressed`. The keys held down are
read off the scancodes themselves, make and break.
-/
namespace N7OS
open Execution

/-- The two Shift keys, held down or not. -/
structure ShiftKeys where
  left : Bool
  right : Bool
deriving DecidableEq

def ShiftKeys.after (h : ShiftKeys) (scancode : U8) : ShiftKeys :=
  if scancode = shiftPressedCode then { h with left := true }
  else if scancode = shiftReleasedCode then { h with left := false }
  else if scancode = rshiftPressedCode then { h with right := true }
  else if scancode = rshiftReleasedCode then { h with right := false }
  else h

def ShiftKeys.held (h : ShiftKeys) : Bool := h.left || h.right

def shiftKeys (codes : List U8) : ShiftKeys := codes.foldl ShiftKeys.after ⟨false, false⟩

/-- The scancodes of a run. -/
def scancodes (events : List TypingEvent) : List U8 :=
  events.filterMap (fun e => match e with | .irq scancode => some scancode | _ => none)

/-- What a keyboard with plain scancodes sends: a break follows its make, and no code
has the prefix `0xE0`. -/
def PlainCodes (codes : List U8) : Prop :=
  ∀ past c, past ++ [c] <+: codes → c ≠ 0xE0#8 ∧
    (c = shiftReleasedCode → (shiftKeys past).left = true) ∧ (c = rshiftReleasedCode → (shiftKeys past).right = true)

/-- No Shift key is released while the other one is held down. -/
def ReleasedApart (codes : List U8) : Prop :=
  ∀ past c, past ++ [c] <+: codes →
    (c = shiftReleasedCode → (shiftKeys past).right = false) ∧ (c = rshiftReleasedCode → (shiftKeys past).left = false)

/-- After every event the flag says whether a Shift key is held down, and the next
character is decoded accordingly. -/
def TracksShift (events : List TypingEvent) : Prop :=
  ∀ past s, past <+: events → Runs TypingStep ⟨.boot, .between⟩ past s →
    let held := (shiftKeys (scancodes past)).held
    s.keyboard.shiftPressed = held ∧
      ∀ c, keyboardHandlerC c s.keyboard =
        { (decodeKey held c).elim s.keyboard (fun key => kbdBufferPush key s.keyboard) with
          shiftPressed := shiftAfter held c }

section
variable {s t : Typing} {e : TypingEvent} {events past : List TypingEvent} {h : ShiftKeys} {c : U8}

theorem scancodes_append (past rest : List TypingEvent) :
    scancodes (past ++ rest) = scancodes past ++ scancodes rest := List.filterMap_append

@[simp] theorem scancodes_irq (c : U8) : scancodes [.irq c] = [c] := rfl

theorem shiftKeys_append (codes : List U8) (c : U8) : shiftKeys (codes ++ [c]) = (shiftKeys codes).after c := by
  simp [shiftKeys]

/-- One code: the flag goes wrong when a key is released under the other. -/
theorem shiftAfter_held (h : ShiftKeys) (c : U8) :
    shiftAfter h.held c = (h.after c).held ↔
      (c = shiftReleasedCode → h.right = false) ∧ (c = rshiftReleasedCode → h.left = false) := by
  rcases h with ⟨left, right⟩
  by_cases h1 : c = shiftPressedCode
  · subst h1
    cases left <;> cases right <;> decide
  by_cases h2 : c = shiftReleasedCode
  · subst h2
    cases left <;> cases right <;> decide
  by_cases h3 : c = rshiftPressedCode
  · subst h3
    cases left <;> cases right <;> decide
  by_cases h4 : c = rshiftReleasedCode
  · subst h4
    cases left <;> cases right <;> decide
  · simp [shiftAfter, ShiftKeys.after, h1, h2, h3, h4]

/-- Only an interrupt touches the flag. -/
theorem shiftPressed_step (hs : TypingStep s e t) :
    (∃ c, e = .irq c ∧ t.keyboard.shiftPressed = shiftAfter s.keyboard.shiftPressed c) ∨
      scancodes [e] = [] ∧ t.keyboard.shiftPressed = s.keyboard.shiftPressed := by
  cases hs with
  | irq k pc c =>
    refine .inl ⟨c, rfl, ?_⟩
    rw [keyboardHandlerC_eq]
  | _ => exact .inr ⟨rfl, rfl⟩

theorem shiftPressed_run (hr : Runs TypingStep ⟨.boot, .between⟩ events s) (ha : ReleasedApart (scancodes events)) :
    s.keyboard.shiftPressed = (shiftKeys (scancodes events)).held := by
  refine hr.history_nil (fun past s => ReleasedApart (scancodes past) →
    s.keyboard.shiftPressed = (shiftKeys (scancodes past)).held) ?_ (fun _ => rfl) ha
  intro past s e t ih hs hapart
  have hpast : ReleasedApart (scancodes past) := by
    intro earlier c hc
    rw [scancodes_append] at hapart
    exact hapart earlier c (hc.trans (List.prefix_append _ _))
  have hflag := ih hpast
  rcases shiftPressed_step hs with ⟨c, rfl, ht⟩ | ⟨hnone, ht⟩
  · rw [scancodes_append] at hapart ⊢
    rw [ht, hflag, scancodes_irq, shiftKeys_append, shiftAfter_held]
    exact hapart _ c List.prefix_rfl
  · rw [scancodes_append, hnone, List.append_nil, ht, hflag]

/-- The events up to a scancode. -/
theorem exists_events_of_prefix {codes : List U8} (h : codes ++ [c] <+: scancodes events) :
    ∃ past, past ++ [.irq c] <+: events ∧ scancodes past = codes := by
  induction events generalizing codes with
  | nil =>
    have hnil := List.prefix_nil.mp h
    simp at hnil
  | cons e events ih =>
    cases e with
    | irq d =>
      cases codes with
      | nil =>
        have hd : c = d := (List.cons_prefix_cons.mp h).1
        subst hd
        exact ⟨[], List.cons_prefix_cons.mpr ⟨rfl, List.nil_prefix⟩, rfl⟩
      | cons x codes =>
        obtain ⟨rfl, hrest⟩ := List.cons_prefix_cons.mp h
        obtain ⟨past, hpast, hcodes⟩ := ih hrest
        exact ⟨.irq x :: past, List.cons_prefix_cons.mpr ⟨rfl, hpast⟩, congrArg (x :: ·) hcodes⟩
    | _ =>
      obtain ⟨past, hpast, hcodes⟩ := ih h
      exact ⟨_ :: past, List.cons_prefix_cons.mpr ⟨rfl, hpast⟩, hcodes⟩

end

/-- The flag follows the keys in exactly the runs in which no Shift key is released
under the other. -/
theorem tracksShift_iff {events : List TypingEvent} {s : Typing} (h : Runs TypingStep ⟨.boot, .between⟩ events s) :
    TracksShift events ↔ ReleasedApart (scancodes events) := by
  constructor
  · intro htracks codes c hc
    obtain ⟨past, hpast, rfl⟩ := exists_events_of_prefix hc
    obtain ⟨rest, rfl⟩ := hpast
    obtain ⟨t, hbefore, -⟩ := h.split
    obtain ⟨u, hu, hstep⟩ := hbefore.split
    cases hstep with
    | cons hs hr =>
      have hflag := (htracks past u ⟨[.irq c] ++ rest, by simp⟩ hu).1
      have hnext := (htracks (past ++ [.irq c]) t ⟨rest, rfl⟩ hbefore).1
      cases hr
      rcases shiftPressed_step hs with ⟨d, hd, ht⟩ | ⟨hnone, -⟩
      · cases hd
        rw [ht, hflag, scancodes_append, scancodes_irq] at hnext
        rw [← shiftAfter_held, ← shiftKeys_append]
        exact hnext
      · cases hnone
  · rintro hapart past s ⟨rest, rfl⟩ hrun held
    have hpast : ReleasedApart (scancodes past) := by
      intro earlier c hc
      refine hapart earlier c (hc.trans ?_)
      rw [scancodes_append]
      exact List.prefix_append _ _
    have hflag : s.keyboard.shiftPressed = held := shiftPressed_run hrun hpast
    refine ⟨hflag, ?_⟩
    intro c
    rw [keyboardHandlerC_eq, hflag]

/-- A letter is typed under the left Shift key and under both; then the left one comes up first. -/
theorem tracksShift_iff_both :
    let events : List TypingEvent := [.irq shiftPressedCode, .irq 0x1E#8, .irq rshiftPressedCode, .irq 0x1E#8]
    TracksShift events ∧ ¬TracksShift (events ++ [.irq shiftReleasedCode]) := by
  intro events
  have hrun : Runs TypingStep ⟨.boot, .between⟩ events _ :=
    .cons (.irq _ _ _) (.cons (.irq _ _ _) (.cons (.irq _ _ _) (.cons (.irq _ _ _) (.nil _))))
  refine ⟨(tracksShift_iff hrun).mpr ?_, mt (tracksShift_iff (hrun.append (.cons (.irq _ _ _) (.nil _)))).mp ?_⟩
  · intro past c hc
    have hmem : c ∈ scancodes events := hc.subset (List.mem_append_right past List.mem_cons_self)
    have hmake : ∀ c ∈ scancodes events, c ≠ shiftReleasedCode ∧ c ≠ rshiftReleasedCode := by
      decide
    obtain ⟨hleft, hright⟩ := hmake c hmem
    exact ⟨fun h => absurd h hleft, fun h => absurd h hright⟩
  · intro hapart
    have hheld := (hapart (scancodes events) shiftReleasedCode List.prefix_rfl).1 rfl
    exact absurd hheld (by decide)

/-- Both Shift keys go down and the left one comes up. -/
theorem shift_lost_under_other :
    ¬∀ events s, Runs TypingStep ⟨.boot, .between⟩ events s → PlainCodes (scancodes events) → TracksShift events := by
  intro h
  let events : List TypingEvent := [.irq shiftPressedCode, .irq rshiftPressedCode, .irq shiftReleasedCode]
  have hrun : Runs TypingStep ⟨.boot, .between⟩ events _ :=
    .cons (.irq _ _ _) (.cons (.irq _ _ _) (.cons (.irq _ _ _) (.nil _)))
  have hplain : PlainCodes (scancodes events) := by
    rintro past c ⟨rest, hrest⟩
    rcases past with _ | ⟨a, _ | ⟨b, _ | ⟨d, past⟩⟩⟩
    · cases hrest
      exact ⟨by decide, by decide, by decide⟩
    · cases hrest
      exact ⟨by decide, by decide, by decide⟩
    · cases hrest
      exact ⟨by decide, by decide, by decide⟩
    · simp [events, scancodes] at hrest
  have hflag := (h events _ hrun hplain events _ List.prefix_rfl hrun).1
  exact absurd hflag (by decide)

end N7OS
