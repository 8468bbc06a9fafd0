import N7OS.Foundation.RowWindow
import N7OS.Console.Cursor

/-! # The console shows an unbounded terminal

The reference terminal never wraps around: it has a row of 80 cells for every
natural number and leaves a row for good when it goes on to the next. The screen
is the circular window of 25 lines on these rows, and each line is cleared when
the cursor enters it.
-/
namespace N7OS
open RowWindow

def blankRow : ℕ → U16 := fun _ => blankCell

/-- A terminal with its cursor on the last row in use. -/
structure Terminal where
  rows : ℕ → ℕ → U16
  row : ℕ
  col : ℕ
  col_lt : col < 80
  fresh : ∀ i, row < i → rows i = blankRow

namespace Terminal

def start : Terminal where
  rows := fun _ => blankRow
  row := 0
  col := 0
  col_lt := Cursor.home.col_lt
  fresh _ _ := rfl

def nextRow (t : Terminal) : Terminal where
  rows := t.rows
  row := t.row + 1
  col := 0
  col_lt := Cursor.home.col_lt
  fresh i hi := t.fresh i (by omega)

/-- Past the last column the cursor goes to a fresh row. -/
def moveTo (col : ℕ) (t : Terminal) : Terminal :=
  if h : col < 80 then { t with col := col, col_lt := h } else t.nextRow

def write (c : U8) (t : Terminal) : Terminal where
  rows := Function.update t.rows t.row (Function.update (t.rows t.row) t.col (cell c))
  row := t.row
  col := t.col
  col_lt := t.col_lt
  fresh i hi := (Function.update_of_ne (by omega) _ _).trans (t.fresh i hi)

def put (t : Terminal) (c : U8) : Terminal :=
  if 32 ≤ c.toNat ∧ c.toNat ≤ 126 then (t.write c).moveTo (t.col + 1)
  else if c = backspace then t.moveTo (t.col - 1)
  else if c = tab then t.moveTo (t.col + 8)
  else if c = newline then t.nextRow
  else if c = carriageReturn then t.moveTo 0
  else t

def putAll (bytes : List U8) : Terminal := bytes.foldl put start

/-- The position on the screen where the terminal's cursor is shown. -/
def cursor (t : Terminal) : Cursor := ⟨t.row % 25, t.col, Nat.mod_lt _ (by decide), t.col_lt⟩

variable {c : U8}

theorem cursor_nextRow (t : Terminal) : t.nextRow.cursor = t.cursor.nextLine := by
  have h : (t.row + 1) % 25 = (t.row % 25 + 1) % 25 := by omega
  exact Cursor.ext h rfl

theorem cursor_moveTo (t : Terminal) (col : ℕ) : (t.moveTo col).cursor = t.cursor.moveTo col := by
  by_cases h : col < 80
  · rw [moveTo, Cursor.moveTo, dif_pos h, dif_pos h]
    rfl
  · rw [moveTo, Cursor.moveTo, dif_neg h, dif_neg h]
    exact cursor_nextRow t

theorem cursor_put (t : Terminal) (hc : c ≠ formFeed) : (t.put c).cursor = t.cursor.step c := by
  rw [put, Cursor.step]
  simp only [← printable_iff, if_neg hc]
  split
  · exact cursor_moveTo (t.write c) (t.col + 1)
  split
  · exact cursor_moveTo t (t.col - 1)
  split
  · exact cursor_moveTo t (t.col + 8)
  split
  · exact cursor_nextRow t
  split
  · exact cursor_moveTo t 0
  · rfl

theorem moveTo_rows (t : Terminal) (col : ℕ) :
    (t.moveTo col).rows = t.rows ∧ ((t.moveTo col).row = t.row ∨ (t.moveTo col).row = t.row + 1) := by
  rw [moveTo]
  split
  · exact ⟨rfl, .inl rfl⟩
  · exact ⟨rfl, .inr rfl⟩

/-- A byte writes at most the cursor's cell and leaves for at most the next row. -/
theorem put_rows (t : Terminal) (c : U8) :
    (t.put c).rows = (if Printable c then (t.write c).rows else t.rows) ∧
      ((t.put c).row = t.row ∨ (t.put c).row = t.row + 1) := by
  rw [put]
  simp only [← printable_iff]
  split
  · exact moveTo_rows (t.write c) _
  split
  · exact moveTo_rows t _
  split
  · exact moveTo_rows t _
  split
  · exact ⟨rfl, .inr rfl⟩
  split
  · exact moveTo_rows t _
  · exact ⟨rfl, .inl rfl⟩

theorem put_fresh (t : Terminal) (c : U8) : (t.put c).rows (t.row + 1) = blankRow := by
  rw [(t.put_rows c).1]
  split
  · exact (t.write c).fresh _ (Nat.lt_succ_self _)
  · exact t.fresh _ (Nat.lt_succ_self _)

end Terminal

/-- The cells that rows `0 .. r` show on the screen. -/
def CellsShow (rows : ℕ → ℕ → U16) (r : ℕ) (scrTab : ℕ → U16) : Prop :=
  ∀ l < 25, ∀ j < 80, scrTab (80 * l + j) = window rows blankRow 25 r l j

structure Shows (t : Terminal) (s : Console) : Prop where
  cursor : At t.cursor s
  last : s.lastLine.toNat = t.row % 25
  cells : CellsShow t.rows t.row s.scrTab

variable {t : Terminal} {s : Console} {c : U8}

theorem cellsShow_draw (h : CellsShow t.rows t.row s.scrTab) :
    CellsShow (t.put c).rows t.row (draw t.cursor c s.scrTab) := by
  rw [(t.put_rows c).1, draw]
  by_cases hp : Printable c
  · rw [if_pos hp, if_pos hp]
    intro l hl j hj
    have ht := t.col_lt
    have hself : window t.rows blankRow 25 t.row (t.row % 25) = t.rows t.row := by
      rw [window, lastRow_self (by omega)]
    have hwin := congrFun (window_update t.rows blankRow
      (Function.update (t.rows t.row) t.col (cell c)) (r := t.row) hl) j
    refine Eq.trans ?_ hwin.symm
    change Function.update s.scrTab (80 * (t.row % 25) + t.col) (cell c) (80 * l + j) = _
    rw [Function.update_apply, h l hl j hj]
    by_cases hll : l = t.row % 25
    · subst hll
      rw [if_pos rfl, Function.update_apply, hself]
      exact if_congr (by omega) rfl rfl
    · rw [if_neg hll, if_neg (by omega)]
  · rw [if_neg hp, if_neg hp]
    exact h

theorem shows_putchar (h : Shows t s) (hc : c ≠ formFeed) : Shows (t.put c) (consolePutchar s c) := by
  have hline : (t.cursor.step c).line = (t.put c).row % 25 := by
    rw [← t.cursor_put hc]
    rfl
  have hdraw := cellsShow_draw (c := c) h.cells
  refine ⟨?_, ?_, ?_⟩
  · rw [t.cursor_put hc]
    exact consolePutchar_at h.cursor
  · rw [consolePutchar_lastLine h.cursor hc, hline]
  · intro l hl j hj
    have hx : (80 * l + j) / 80 = l := by omega
    rw [consolePutchar_scrTab h.cursor hc, hline, h.last, hx, hdraw l hl j hj]
    rcases (t.put_rows c).2 with hr | hr
    · rw [hr, if_neg (fun hcl => hcl.1 rfl)]
    · have hfresh := t.put_fresh c
      have hwin := congrFun (window_succ (t.put c).rows blankRow (r := t.row) hl) j
      rw [hr, hwin, hfresh]
      by_cases hll : l = (t.row + 1) % 25
      · rw [if_pos ⟨by omega, hll⟩, if_pos hll]
        rfl
      · rw [if_neg (fun hcl => hll hcl.2), if_neg hll]

theorem shows_initConsole (scrTab : ℕ → U16) (crtc : Crtc) :
    Shows .start (initConsole (.boot scrTab crtc)) := by
  refine ⟨⟨rfl, rfl⟩, rfl, ?_⟩
  intro l hl j hj
  rw [initConsole, clearScreen_scrTab, if_pos (by omega), window]
  cases lastRow 25 Terminal.start.row l <;> rfl

theorem shows_putbytes (h : Shows t s) {bytes : List U8} (hb : formFeed ∉ bytes) :
    Shows (bytes.foldl Terminal.put t) (consolePutbytes s bytes) := by
  induction bytes generalizing t s with
  | nil => exact h
  | cons c bytes ih =>
    rw [List.mem_cons, not_or] at hb
    exact ih (shows_putchar h (Ne.symm hb.1)) hb.2

/-- The screen renders the last row of the terminal on each line. -/
theorem consolePutbytes_refines (scrTab : ℕ → U16) (crtc : Crtc) (bytes : List U8)
    (hb : formFeed ∉ bytes) :
    let s := consolePutbytes (initConsole (.boot scrTab crtc)) bytes
    let t := Terminal.putAll bytes
    s.cursorLine.toNat = t.row % 25 ∧ s.cursorCol.toNat = t.col ∧
      (∀ l < 25, ∀ i, IsGreatest {i | i ≤ t.row ∧ i % 25 = l} i →
        ∀ j < 80, s.scrTab (80 * l + j) = t.rows i j) ∧
      ∀ l < 25, (¬∃ i ≤ t.row, i % 25 = l) → ∀ j < 80, s.scrTab (80 * l + j) = blankCell := by
  intro s t
  have h : Shows t s := shows_putbytes (shows_initConsole scrTab crtc) hb
  refine ⟨h.cursor.line, h.cursor.col, ?_, ?_⟩
  · intro l hl i hi j hj
    rw [h.cells l hl j hj, window, (lastRow_eq_some hl).mpr hi]
  · intro l hl hnone j hj
    rw [h.cells l hl j hj, window, (lastRow_eq_none hl).mpr hnone]
    rfl

theorem consolePutbytes_refines_tabs :
    formFeed ∉ [0x61#8, newline, tab] ∧
      (consolePutbytes (initConsole (.boot (fun _ => 0) ⟨0, fun _ => 0⟩)) [0x61#8, newline, tab]).cursorLine.toNat =
        (Terminal.putAll [0x61#8, newline, tab]).row % 25 := by
  have h : formFeed ∉ [0x61#8, newline, tab] := by decide
  exact ⟨h, (consolePutbytes_refines (fun _ => 0) ⟨0, fun _ => 0⟩ [0x61#8, newline, tab] h).1⟩

end N7OS
