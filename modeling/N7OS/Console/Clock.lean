import N7OS.Console.FormFeed

/-! # The clock on the first line

`display_clock` of `kernel/time.c` writes eight cells of video memory behind the
console's back. A run of the console with ticks in it is compared with the run
without them.
-/
namespace N7OS

/-- Hours, minutes and seconds of a number of milliseconds. -/
def convertTicks (ticks : U32) : U8 × U8 × U8 :=
  let totalSeconds := ticks / 1000#32
  (((totalSeconds / 3600#32) % 24#32).setWidth 8, ((totalSeconds / 60#32) % 60#32).setWidth 8,
    (totalSeconds % 60#32).setWidth 8)

def clockCell (color c : U8) : U16 := (color.setWidth 16 <<< 8) ||| c.setWidth 16

def printTwoDigits (dest : ℕ) (value color : U8) (scr : ℕ → U16) : ℕ → U16 :=
  let scr := Function.update scr dest (clockCell color (0x30#8 + value / 10#8))
  Function.update scr (dest + 1) (clockCell color (0x30#8 + value % 10#8))

def displayClock (systemTicks : U32) (s : Console) : Console :=
  let time := convertTicks systemTicks
  let color := 0x0E#8
  let scr := printTwoDigits 72 time.1 color s.scrTab
  let scr := Function.update scr 74 (clockCell color 0x3A#8)
  let scr := printTwoDigits 75 time.2.1 color scr
  let scr := Function.update scr 77 (clockCell color 0x3A#8)
  { s with scrTab := printTwoDigits 78 time.2.2 color scr }

/-- What writes to the screen: the timer, and whoever calls `console_putchar`. -/
inductive ScreenEvent
  | tick (systemTicks : U32)
  | putchar (c : U8)

def ScreenEvent.run (s : Console) : ScreenEvent → Console
  | .tick systemTicks => displayClock systemTicks s
  | .putchar c => consolePutchar s c

def runScreen (s : Console) (events : List ScreenEvent) : Console := events.foldl ScreenEvent.run s

def withoutTicks (events : List ScreenEvent) : List ScreenEvent :=
  events.filter (fun e => match e with | .tick _ => false | .putchar _ => true)

/-- The same cursor, in memory and in the controller, and the same screen but for the clock. -/
structure SameButClock (a b : Console) : Prop where
  line : a.cursorLine = b.cursorLine
  col : a.cursorCol = b.cursorCol
  last : a.lastLine = b.lastLine
  crtc : a.crtc = b.crtc
  cells : ∀ x, x < 72 ∨ 80 ≤ x → a.scrTab x = b.scrTab x

/-- The characters in the cells of the clock. -/
def clockText (s : Console) : List U8 := (List.range 8).map (fun i => (s.scrTab (72 + i)).setWidth 8)

def digit (d : ℕ) : U8 := BitVec.ofNat 8 (48 + d)

/-- Two digits that make up a number. -/
def IsTwoDigits (n tens units : ℕ) : Prop := tens < 10 ∧ units < 10 ∧ 10 * tens + units = n

/-- The clock shows the time of day `seconds` after midnight. -/
def ShowsTime (s : Console) (seconds : ℕ) : Prop :=
  ∃ h₁ h₀ m₁ m₀ s₁ s₀,
    clockText s = [digit h₁, digit h₀, 0x3A, digit m₁, digit m₀, 0x3A, digit s₁, digit s₀] ∧
    IsTwoDigits (seconds / 3600) h₁ h₀ ∧ IsTwoDigits (seconds / 60 % 60) m₁ m₀ ∧ IsTwoDigits (seconds % 60) s₁ s₀

section
variable {q : Cursor} {a b s : Console} {c : U8}

theorem setCursor_crtc_congr (hline : a.cursorLine = b.cursorLine) (hcol : a.cursorCol = b.cursorCol)
    (h : a.crtc = b.crtc) : (setCursor a).crtc = (setCursor b).crtc := by
  simp only [setCursor, hline, hcol, h]

theorem clearNewLine_crtc (s : Console) : (clearNewLine s).crtc = s.crtc := by
  rw [clearNewLine]
  split <;> rfl

theorem Twins.line (h : Twins q a b) : a.cursorLine = b.cursorLine :=
  BitVec.eq_of_toNat_eq (h.left.line.trans h.right.line.symm)

theorem Twins.col (h : Twins q a b) : a.cursorCol = b.cursorCol :=
  BitVec.eq_of_toNat_eq (h.left.col.trans h.right.col.symm)

/-- What goes out to the controller depends on the cursor alone. -/
theorem twins_crtc (h : Twins q a b) (hcrtc : a.crtc = b.crtc) (c : U8) :
    (consolePutchar a c).crtc = (consolePutchar b c).crtc := by
  by_cases hc : c = formFeed
  · subst hc
    exact setCursor_crtc_congr rfl rfl hcrtc
  · have hnext := twins_putchar h c
    have hline := hnext.line
    have hcol := hnext.col
    rw [consolePutchar_eq h.left hc, consolePutchar_eq h.right hc] at hline hcol ⊢
    apply setCursor_crtc_congr
    · exact hline
    · exact hcol
    · rw [clearNewLine_crtc, clearNewLine_crtc]
      exact hcrtc

@[simp] theorem printTwoDigits_of_ne {dest x : ℕ} (value color : U8) (scr : ℕ → U16)
    (h : x < dest ∨ dest + 2 ≤ x) : printTwoDigits dest value color scr x = scr x := by
  rw [printTwoDigits, Function.update_of_ne (by omega), Function.update_of_ne (by omega)]

/-- The clock stays inside its eight cells. -/
theorem displayClock_scrTab (systemTicks : U32) (s : Console) {x : ℕ} (h : x < 72 ∨ 80 ≤ x) :
    (displayClock systemTicks s).scrTab x = s.scrTab x := by
  simp only [displayClock]
  rw [printTwoDigits_of_ne _ _ _ (by omega), Function.update_of_ne (by omega),
    printTwoDigits_of_ne _ _ _ (by omega), Function.update_of_ne (by omega), printTwoDigits_of_ne _ _ _ (by omega)]

/-- The two runs side by side, with a common cursor. -/
structure ClockTwins (q : Cursor) (a b : Console) : Prop where
  twins : Twins q a b
  crtc : a.crtc = b.crtc
  cells : ∀ x, x < 72 ∨ 80 ≤ x → a.scrTab x = b.scrTab x

theorem ClockTwins.sameButClock (h : ClockTwins q a b) : SameButClock a b :=
  ⟨h.twins.line, h.twins.col, h.twins.last, h.crtc, h.cells⟩

theorem ClockTwins.putchar (h : ClockTwins q a b) (c : U8) :
    ClockTwins (q.step c) (consolePutchar a c) (consolePutchar b c) :=
  ⟨twins_putchar h.twins c, twins_crtc h.twins h.crtc c, fun x hx => twins_cell h.twins (h.cells x hx)⟩

theorem ClockTwins.tick (h : ClockTwins q a b) (systemTicks : U32) :
    ClockTwins q (displayClock systemTicks a) b := by
  refine ⟨⟨⟨h.twins.left.line, h.twins.left.col⟩, h.twins.right, h.twins.last⟩, h.crtc, ?_⟩
  intro x hx
  rw [displayClock_scrTab systemTicks a hx]
  exact h.cells x hx

theorem ClockTwins.run (h : ClockTwins q a b) (events : List ScreenEvent) :
    ∃ q', ClockTwins q' (runScreen a events) (runScreen b (withoutTicks events)) := by
  induction events generalizing q a b with
  | nil => exact ⟨q, h⟩
  | cons e events ih =>
    cases e with
    | tick systemTicks => exact ih (h.tick systemTicks)
    | putchar c => exact ih (h.putchar c)

/-- The character of a cell that the clock has written. -/
theorem clockCell_char (color c : U8) : (clockCell color c).setWidth 8 = c := by
  apply BitVec.eq_of_getLsbD_eq
  intro i hi
  simp [clockCell, hi]

theorem digit_eq {value : U8} {d : ℕ} (h : value.toNat = d) : 0x30#8 + value = digit d := by
  apply BitVec.eq_of_toNat_eq
  simp [digit, h]

theorem printTwoDigits_tens (dest : ℕ) {n : ℕ} {value : U8} (color : U8) (scr : ℕ → U16) (hv : value.toNat = n) :
    (printTwoDigits dest value color scr dest).setWidth 8 = digit (n / 10) := by
  rw [printTwoDigits, Function.update_of_ne (by omega), Function.update_self, clockCell_char]
  apply digit_eq
  simp [hv]

theorem printTwoDigits_units (dest : ℕ) {n : ℕ} {value : U8} (color : U8) (scr : ℕ → U16) (hv : value.toNat = n) :
    (printTwoDigits dest value color scr (dest + 1)).setWidth 8 = digit (n % 10) := by
  rw [printTwoDigits, Function.update_self, clockCell_char]
  apply digit_eq
  simp [hv]

/-- Each field of the time fits in its byte. -/
theorem convertTicks_eq (ticks : U32) :
    (convertTicks ticks).1.toNat = ticks.toNat / 1000 % 86400 / 3600 ∧
      (convertTicks ticks).2.1.toNat = ticks.toNat / 1000 % 86400 / 60 % 60 ∧
      (convertTicks ticks).2.2.toNat = ticks.toNat / 1000 % 86400 % 60 := by
  have hlt := ticks.isLt
  simp only [convertTicks, BitVec.toNat_setWidth, BitVec.toNat_umod, BitVec.toNat_udiv, BitVec.reduceToNat]
  omega

theorem isTwoDigits (n : ℕ) (h : n < 100) : IsTwoDigits n (n / 10) (n % 10) := by
  unfold IsTwoDigits
  omega

theorem displayClock_showsTime (systemTicks : U32) (s : Console) :
    ShowsTime (displayClock systemTicks s) (systemTicks.toNat / 1000 % 86400) := by
  obtain ⟨hh, hm, hs⟩ := convertTicks_eq systemTicks
  refine ⟨_, _, _, _, _, _, ?_, isTwoDigits _ (by omega), isTwoDigits _ (by omega), isTwoDigits _ (by omega)⟩
  have htens := fun (scr : ℕ → U16) => printTwoDigits_tens 72 0x0E#8 scr hh
  have hunits := fun (scr : ℕ → U16) => printTwoDigits_units 72 0x0E#8 scr hh
  have mtens := fun (scr : ℕ → U16) => printTwoDigits_tens 75 0x0E#8 scr hm
  have munits := fun (scr : ℕ → U16) => printTwoDigits_units 75 0x0E#8 scr hm
  have stens := fun (scr : ℕ → U16) => printTwoDigits_tens 78 0x0E#8 scr hs
  have sunits := fun (scr : ℕ → U16) => printTwoDigits_units 78 0x0E#8 scr hs
  simp [clockText, List.range_succ, displayClock, htens, hunits, mtens, munits, stens, sunits, clockCell_char]

end

/-- Ticks change nothing but the clock, and a last tick leaves the time of day in it. -/
theorem clock_noninterference (scrTab : ℕ → U16) (crtc : Crtc) (events : List ScreenEvent) :
    let start := initConsole (.boot scrTab crtc)
    SameButClock (runScreen start events) (runScreen start (withoutTicks events)) ∧
      ∀ earlier systemTicks, events = earlier ++ [.tick systemTicks] →
        ShowsTime (runScreen start events) (systemTicks.toNat / 1000 % 86400) := by
  intro start
  constructor
  · have hstart : ClockTwins .home start start := ⟨⟨⟨rfl, rfl⟩, ⟨rfl, rfl⟩, rfl⟩, rfl, fun _ _ => rfl⟩
    obtain ⟨q, h⟩ := hstart.run events
    exact h.sameButClock
  · rintro earlier systemTicks rfl
    simp only [runScreen, List.foldl_append, List.foldl_cons, List.foldl_nil]
    exact displayClock_showsTime systemTicks _

end N7OS
