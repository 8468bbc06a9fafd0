import N7OS.Console.Putchar

/-! # The cursor of the console

Where the cursor goes depends on the bytes alone, not on what the screen shows.
`consolePutchar` draws at the old position, moves, and clears the line it enters
when that line is not the one it left last.
-/
namespace N7OS

/-- A position on the screen. -/
@[ext] structure Cursor where
  line : ℕ
  col : ℕ
  line_lt : line < 25
  col_lt : col < 80
deriving DecidableEq

namespace Cursor

def home : Cursor := ⟨0, 0, by decide, by decide⟩

def nextLine (q : Cursor) : Cursor := ⟨(q.line + 1) % 25, 0, Nat.mod_lt _ (by decide), by decide⟩

def moveTo (q : Cursor) (col : ℕ) : Cursor :=
  if h : col < 80 then { q with col := col, col_lt := h } else q.nextLine

def step (q : Cursor) (c : U8) : Cursor :=
  if Printable c then q.moveTo (q.col + 1)
  else if c = backspace then q.moveTo (q.col - 1)
  else if c = tab then q.moveTo (q.col + 8)
  else if c = newline then q.nextLine
  else if c = formFeed then home
  else if c = carriageReturn then q.moveTo 0
  else q

def after (bytes : List U8) : Cursor := bytes.foldl step home

end Cursor

/-- The console with its cursor at `q`. -/
def Console.place (q : Cursor) (s : Console) : Console :=
  { s with cursorLine := BitVec.ofNat 8 q.line, cursorCol := BitVec.ofNat 8 q.col }

structure At (q : Cursor) (s : Console) : Prop where
  line : s.cursorLine.toNat = q.line
  col : s.cursorCol.toNat = q.col

/-- What a byte draws, before any line is cleared. -/
def draw (q : Cursor) (c : U8) (scrTab : ℕ → U16) : ℕ → U16 :=
  if Printable c then Function.update scrTab (80 * q.line + q.col) (cell c) else scrTab

variable {q : Cursor} {s : Console} {c : U8}

theorem toNat_add_small {x k : U8} (hx : x.toNat < 128) (hk : k.toNat < 128) :
    (x + k).toNat = x.toNat + k.toNat := by
  rw [BitVec.toNat_add]
  omega

theorem place_eq (hline : s.cursorLine.toNat = q.line) (hcol : s.cursorCol.toNat = q.col) :
    s.place q = s := by
  rw [Console.place, ← hline, ← hcol, BitVec.ofNat_toNat, BitVec.ofNat_toNat]
  rfl

theorem at_place (q : Cursor) (s : Console) : At q (s.place q) := by
  have hl := q.line_lt
  have hc := q.col_lt
  constructor
  · rw [Console.place, BitVec.toNat_ofNat]
    omega
  · rw [Console.place, BitVec.toNat_ofNat]
    omega

theorem wrapScreen_nextLine (hline : s.cursorLine.toNat = q.line + 1) (hcol : s.cursorCol = 0#8) :
    wrapScreen s = s.place q.nextLine := by
  have hl := q.line_lt
  have hc : s.cursorCol.toNat = 0 := by rw [hcol]; rfl
  by_cases hb : 25 ≤ s.cursorLine.toNat
  · have h0 : 0 = (q.line + 1) % 25 := by omega
    rw [wrapScreen, if_pos hb]
    exact (place_eq (q := q.nextLine) (s := { s with cursorLine := 0 }) h0 hc).symm
  · have h1 : s.cursorLine.toNat = (q.line + 1) % 25 := by omega
    rw [wrapScreen, if_neg hb]
    exact (place_eq (q := q.nextLine) h1 hc).symm

theorem finishPutchar_nextLine (hline : s.cursorLine.toNat = q.line + 1) (hcol : s.cursorCol = 0#8) :
    finishPutchar s = setCursor (clearNewLine (s.place q.nextLine)) := by
  have hw : wrapColumn s = s := if_neg (by simp [hcol])
  rw [finishPutchar, hw, wrapScreen_nextLine hline hcol]

theorem finishPutchar_moveTo {col : ℕ} (hline : s.cursorLine.toNat = q.line)
    (hcol : s.cursorCol.toNat = col) :
    finishPutchar s = setCursor (clearNewLine (s.place (q.moveTo col))) := by
  have hl := q.line_lt
  by_cases hc : col < 80
  · have hw : wrapColumn s = s := if_neg (by omega)
    have hs : wrapScreen s = s := if_neg (by omega)
    rw [finishPutchar, hw, hs, Cursor.moveTo, dif_pos hc]
    rw [place_eq (q := { q with col := col, col_lt := hc }) hline hcol]
  · have hw : wrapColumn s = { s with cursorCol := 0, cursorLine := s.cursorLine + 1 } :=
      if_pos (by omega)
    have h1 : (s.cursorLine + 1#8).toNat = q.line + 1 := by
      rw [toNat_add_small (by omega) (by decide), hline]
      rfl
    rw [finishPutchar, hw, Cursor.moveTo, dif_neg hc, wrapScreen_nextLine h1 rfl]
    rfl

theorem consolePutchar_eq (h : At q s) (hc : c ≠ formFeed) :
    consolePutchar s c = setCursor (clearNewLine
      ({ s with scrTab := draw q c s.scrTab }.place (q.step c))) := by
  obtain ⟨hline, hcol⟩ := h
  have hl := q.line_lt
  have hq := q.col_lt
  have hadd : ∀ k : U8, k.toNat < 128 → (s.cursorCol + k).toNat = q.col + k.toNat := by
    intro k hk
    rw [toNat_add_small (by omega) hk, hcol]
  rw [consolePutchar, Cursor.step, draw]
  by_cases hp : Printable c
  · rw [if_pos hp, if_pos hp, if_pos hp, hline, hcol]
    exact finishPutchar_moveTo hline (hadd 1 (by decide))
  rw [if_neg hp, if_neg hp, if_neg hp]
  by_cases hb : c = backspace
  · rw [if_pos hb, if_pos hb]
    by_cases h0 : 0 < s.cursorCol.toNat
    · rw [if_pos h0]
      refine finishPutchar_moveTo hline ?_
      rw [BitVec.toNat_sub, hcol]
      change (2 ^ 8 - 1 + q.col) % 2 ^ 8 = q.col - 1
      omega
    · rw [if_neg h0]
      exact finishPutchar_moveTo hline (by omega)
  rw [if_neg hb, if_neg hb]
  by_cases ht : c = tab
  · rw [if_pos ht, if_pos ht]
    exact finishPutchar_moveTo hline (hadd 8 (by decide))
  rw [if_neg ht, if_neg ht]
  by_cases hn : c = newline
  · rw [if_pos hn, if_pos hn]
    refine finishPutchar_nextLine ?_ rfl
    rw [toNat_add_small (by omega) (by decide), hline]
    rfl
  rw [if_neg hn, if_neg hn, if_neg hc, if_neg hc]
  by_cases hr : c = carriageReturn
  · rw [if_pos hr, if_pos hr]
    exact finishPutchar_moveTo hline rfl
  · have hstay : q.moveTo q.col = q := dif_pos hq
    rw [if_neg hr, if_neg hr, ← hstay]
    exact finishPutchar_moveTo hline hcol

theorem clearNewLine_at (h : At q s) : At q (clearNewLine s) := by
  rw [clearNewLine]
  split
  · exact ⟨h.line, h.col⟩
  · exact h

theorem clearNewLine_lastLine (s : Console) : (clearNewLine s).lastLine = s.cursorLine := by
  rw [clearNewLine]
  split
  · rfl
  · next h => exact (not_not.mp h).symm

theorem clearNewLine_scrTab (s : Console) (x : ℕ) :
    (clearNewLine s).scrTab x =
      if s.cursorLine ≠ s.lastLine ∧ x / 80 = s.cursorLine.toNat then blankCell else s.scrTab x := by
  rw [clearNewLine]
  split
  · next h =>
    refine (clearLine_scrTab _ _ _).trans (if_congr ?_ rfl rfl)
    rw [and_iff_right h]
    omega
  · next h => rw [if_neg (fun hx => h hx.1)]

theorem consolePutchar_at (h : At q s) : At (q.step c) (consolePutchar s c) := by
  by_cases hc : c = formFeed
  · subst hc
    exact ⟨rfl, rfl⟩
  · rw [consolePutchar_eq h hc]
    have hat := clearNewLine_at (at_place (q.step c) { s with scrTab := draw q c s.scrTab })
    exact ⟨hat.line, hat.col⟩

/-- Every byte but a form feed leaves `last_line` on the cursor's line. -/
theorem consolePutchar_lastLine (h : At q s) (hc : c ≠ formFeed) :
    (consolePutchar s c).lastLine.toNat = (q.step c).line := by
  rw [consolePutchar_eq h hc, setCursor_lastLine, clearNewLine_lastLine]
  exact (at_place _ _).line

theorem consolePutchar_scrTab (h : At q s) (hc : c ≠ formFeed) (x : ℕ) :
    (consolePutchar s c).scrTab x =
      if (q.step c).line ≠ s.lastLine.toNat ∧ x / 80 = (q.step c).line then blankCell
      else draw q c s.scrTab x := by
  have hat := at_place (q.step c) { s with scrTab := draw q c s.scrTab }
  rw [consolePutchar_eq h hc, setCursor_scrTab, clearNewLine_scrTab, hat.line, ← hat.line]
  exact if_congr (and_congr (not_congr BitVec.toNat_inj.symm) Iff.rfl) rfl rfl

theorem consolePutbytes_at (h : At q s) (bytes : List U8) :
    At (bytes.foldl Cursor.step q) (consolePutbytes s bytes) := by
  induction bytes generalizing q s with
  | nil => exact h
  | cons c bytes ih => exact ih (consolePutchar_at h)

end N7OS
