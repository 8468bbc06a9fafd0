import N7OS.Console.Putchar

/-! # `console_putchar`, statement by statement

Each point of the function names the statement that runs next; what the function
keeps in locals and arguments (`pos`, the line being cleared, a loop index) is
kept with the point. Run to its end, the function is `consolePutchar`.
-/
namespace N7OS
open Execution

inductive PutcharPoint
  | start
  | place
  | store (pos : ℕ)
  | advance
  | backTest
  | back
  | tabulate
  | newlineLine
  | newlineCol
  | blankScreen (i : ℕ)
  | homeLine
  | homeCol
  | returnCol
  | columnTest
  | columnReset
  | columnCarry
  | lineTest
  | lineReset
  | changedTest
  | clearCall
  | blankLine (line : U8) (i : ℕ)
  | remember
  | setCursor
  | selectLow (pos : U16)
  | sendLow (pos : U16)
  | selectHigh (pos : U16)
  | sendHigh (pos : U16)
  | done
deriving DecidableEq

/-- `80 * line + col` in `set_cursor`. -/
def Console.pos (s : Console) : U16 := BitVec.ofNat 16 (80 * s.cursorLine.toNat + s.cursorCol.toNat)

def Console.write (i : ℕ) (v : U16) (s : Console) : Console := { s with scrTab := Function.update s.scrTab i v }

def Console.out (value : U8) (port : U16) (s : Console) : Console := { s with crtc := s.crtc.outb value port }

/-- Where the tests on `c` lead. -/
def dispatch (c : U8) : PutcharPoint :=
  if Printable c then .place
  else if c = backspace then .backTest
  else if c = tab then .tabulate
  else if c = newline then .newlineLine
  else if c = formFeed then .blankScreen 0
  else if c = carriageReturn then .returnCol
  else .columnTest

def putcharStatement (c : U8) (pc : PutcharPoint) (s : Console) : PutcharPoint × Console :=
  match pc with
  | .start => (dispatch c, s)
  | .place => (.store (80 * s.cursorLine.toNat + s.cursorCol.toNat), s)
  | .store pos => (.advance, s.write pos (cell c))
  | .advance => (.columnTest, { s with cursorCol := s.cursorCol + 1 })
  | .backTest => (if 0 < s.cursorCol.toNat then .back else .columnTest, s)
  | .back => (.columnTest, { s with cursorCol := s.cursorCol - 1 })
  | .tabulate => (.columnTest, { s with cursorCol := s.cursorCol + 8 })
  | .newlineLine => (.newlineCol, { s with cursorLine := s.cursorLine + 1 })
  | .newlineCol => (.columnTest, { s with cursorCol := 0 })
  | .blankScreen i => if i < 80 * 25 then (.blankScreen (i + 1), s.write i blankCell) else (.homeLine, s)
  | .homeLine => (.homeCol, { s with cursorLine := 0 })
  | .homeCol => (.setCursor, { s with cursorCol := 0 })
  | .returnCol => (.columnTest, { s with cursorCol := 0 })
  | .columnTest => (if 80 ≤ s.cursorCol.toNat then .columnReset else .lineTest, s)
  | .columnReset => (.columnCarry, { s with cursorCol := 0 })
  | .columnCarry => (.lineTest, { s with cursorLine := s.cursorLine + 1 })
  | .lineTest => (if 25 ≤ s.cursorLine.toNat then .lineReset else .changedTest, s)
  | .lineReset => (.changedTest, { s with cursorLine := 0 })
  | .changedTest => (if s.cursorLine ≠ s.lastLine then .clearCall else .setCursor, s)
  | .clearCall => (.blankLine s.cursorLine 0, s)
  | .blankLine line i =>
    if i < 80 then (.blankLine line (i + 1), s.write (80 * line.toNat + i) blankCell) else (.remember, s)
  | .remember => (.setCursor, { s with lastLine := s.cursorLine })
  | .setCursor => (.selectLow s.pos, s)
  | .selectLow pos => (.sendLow pos, s.out 0xF#8 0x3D4#16)
  | .sendLow pos => (.selectHigh pos, s.out ((pos &&& 0xFF#16).setWidth 8) 0x3D5#16)
  | .selectHigh pos => (.sendHigh pos, s.out 0xE#8 0x3D4#16)
  | .sendHigh pos => (.done, s.out (((pos >>> 8) &&& 0xFF#16).setWidth 8) 0x3D5#16)
  | .done => (.done, s)

/-- The cell that the next statement writes. -/
def PutcharPoint.written : PutcharPoint → Option ℕ
  | .store pos => some pos
  | .blankScreen i => if i < 80 * 25 then some i else none
  | .blankLine line i => if i < 80 then some (80 * line.toNat + i) else none
  | _ => none

/-- The next statement takes `cursor_line` or `cursor_col` past the end of its byte. -/
def Wraps (pc : PutcharPoint) (s : Console) : Prop :=
  match pc with
  | .advance => 255 < s.cursorCol.toNat + 1
  | .back => s.cursorCol.toNat < 1
  | .tabulate => 255 < s.cursorCol.toNat + 8
  | .newlineLine => 255 < s.cursorLine.toNat + 1
  | .columnCarry => 255 < s.cursorLine.toNat + 1
  | _ => False

def blankFrom (first last : ℕ) (scr : ℕ → U16) : ℕ → U16 :=
  fun x => if first ≤ x ∧ x < last then blankCell else scr x

/-- What the rest of an uninterrupted call makes of the console. -/
def finish (c : U8) (pc : PutcharPoint) (s : Console) : Console :=
  match pc with
  | .start => consolePutchar s c
  | .place => finishPutchar { s.write (80 * s.cursorLine.toNat + s.cursorCol.toNat) (cell c) with
      cursorCol := s.cursorCol + 1 }
  | .store pos => finishPutchar { s.write pos (cell c) with cursorCol := s.cursorCol + 1 }
  | .advance => finishPutchar { s with cursorCol := s.cursorCol + 1 }
  | .backTest => finishPutchar (if 0 < s.cursorCol.toNat then { s with cursorCol := s.cursorCol - 1 } else s)
  | .back => finishPutchar { s with cursorCol := s.cursorCol - 1 }
  | .tabulate => finishPutchar { s with cursorCol := s.cursorCol + 8 }
  | .newlineLine => finishPutchar { s with cursorLine := s.cursorLine + 1, cursorCol := 0 }
  | .newlineCol => finishPutchar { s with cursorCol := 0 }
  | .blankScreen i =>
    N7OS.setCursor { s with scrTab := blankFrom i (80 * 25) s.scrTab, cursorLine := 0, cursorCol := 0 }
  | .homeLine => N7OS.setCursor { s with cursorLine := 0, cursorCol := 0 }
  | .homeCol => N7OS.setCursor { s with cursorCol := 0 }
  | .returnCol => finishPutchar { s with cursorCol := 0 }
  | .columnTest => finishPutchar s
  | .columnReset => N7OS.setCursor (clearNewLine (wrapScreen { s with cursorCol := 0, cursorLine := s.cursorLine + 1 }))
  | .columnCarry => N7OS.setCursor (clearNewLine (wrapScreen { s with cursorLine := s.cursorLine + 1 }))
  | .lineTest => N7OS.setCursor (clearNewLine (wrapScreen s))
  | .lineReset => N7OS.setCursor (clearNewLine { s with cursorLine := 0 })
  | .changedTest => N7OS.setCursor (clearNewLine s)
  | .clearCall => N7OS.setCursor { clearLine s.cursorLine s with lastLine := s.cursorLine }
  | .blankLine line i =>
    N7OS.setCursor { s with
      scrTab := blankFrom (80 * line.toNat + i) (80 * line.toNat + 80) s.scrTab
      lastLine := s.cursorLine }
  | .remember => N7OS.setCursor { s with lastLine := s.cursorLine }
  | .setCursor => N7OS.setCursor s
  | .selectLow pos => (((s.out 0xF#8 0x3D4#16).out ((pos &&& 0xFF#16).setWidth 8) 0x3D5#16).out 0xE#8 0x3D4#16).out
      (((pos >>> 8) &&& 0xFF#16).setWidth 8) 0x3D5#16
  | .sendLow pos => ((s.out ((pos &&& 0xFF#16).setWidth 8) 0x3D5#16).out 0xE#8 0x3D4#16).out
      (((pos >>> 8) &&& 0xFF#16).setWidth 8) 0x3D5#16
  | .selectHigh pos => (s.out 0xE#8 0x3D4#16).out (((pos >>> 8) &&& 0xFF#16).setWidth 8) 0x3D5#16
  | .sendHigh pos => s.out (((pos >>> 8) &&& 0xFF#16).setWidth 8) 0x3D5#16
  | .done => s

section
variable {c : U8} {s : Console}

theorem blankFrom_update {first last : ℕ} (h : first < last) (scr : ℕ → U16) :
    blankFrom (first + 1) last (Function.update scr first blankCell) = blankFrom first last scr := by
  funext x
  by_cases hx : x = first
  · subst hx
    simp [blankFrom, h]
  · simp only [blankFrom, Function.update_of_ne hx]
    exact if_congr (by omega) rfl rfl

theorem blankFrom_of_le {first last : ℕ} (h : last ≤ first) (scr : ℕ → U16) : blankFrom first last scr = scr := by
  funext x
  exact if_neg (by omega)

theorem clearScreen_eq (s : Console) :
    clearScreen s = setCursor { s with scrTab := blankFrom 0 (80 * 25) s.scrTab, cursorLine := 0, cursorCol := 0 } := by
  have hcells : countedLoop (80 * 25) (fun i scr => Function.update scr (0 + i) blankCell) s.scrTab =
      blankFrom 0 (80 * 25) s.scrTab := by
    funext x
    rw [countedLoop_fill]
    exact if_congr (by omega) rfl rfl
  rw [clearScreen, hcells]

theorem clearLine_eq (line : U8) (s : Console) :
    clearLine line s = { s with scrTab := blankFrom (80 * line.toNat) (80 * line.toNat + 80) s.scrTab } := by
  have hcells : (clearLine line s).scrTab = blankFrom (80 * line.toNat) (80 * line.toNat + 80) s.scrTab := by
    funext x
    exact clearLine_scrTab line s x
  rw [← hcells]
  rfl

/-- The tests on `c` lead to the branch that `consolePutchar` takes. -/
theorem finish_dispatch (c : U8) (s : Console) : finish c (dispatch c) s = consolePutchar s c := by
  unfold dispatch consolePutchar
  by_cases hp : Printable c
  · rw [if_pos hp, if_pos hp]
    rfl
  rw [if_neg hp, if_neg hp]
  by_cases hb : c = backspace
  · rw [if_pos hb, if_pos hb]
    rfl
  rw [if_neg hb, if_neg hb]
  by_cases ht : c = tab
  · rw [if_pos ht, if_pos ht]
    rfl
  rw [if_neg ht, if_neg ht]
  by_cases hn : c = newline
  · rw [if_pos hn, if_pos hn]
    rfl
  rw [if_neg hn, if_neg hn]
  by_cases hf : c = formFeed
  · rw [if_pos hf, if_pos hf, clearScreen_eq]
    rfl
  rw [if_neg hf, if_neg hf]
  by_cases hr : c = carriageReturn
  · rw [if_pos hr, if_pos hr]
    rfl
  · rw [if_neg hr, if_neg hr]
    rfl

/-- No statement of an uninterrupted call changes what the call comes to. -/
theorem finish_statement (c : U8) (pc : PutcharPoint) (s : Console) :
    finish c (putcharStatement c pc s).1 (putcharStatement c pc s).2 = finish c pc s := by
  cases pc with
  | start => exact finish_dispatch c s
  | backTest =>
    by_cases h : 0 < s.cursorCol.toNat
    · simp [putcharStatement, finish, h]
    · simp [putcharStatement, finish, h]
  | blankScreen i =>
    by_cases h : i < 80 * 25
    · simp only [putcharStatement, if_pos h, finish, Console.write, blankFrom_update h]
    · simp only [putcharStatement, if_neg h, finish, blankFrom_of_le (Nat.le_of_not_lt h)]
  | columnTest =>
    by_cases h : 80 ≤ s.cursorCol.toNat
    · simp [putcharStatement, finish, finishPutchar, wrapColumn, h]
    · simp [putcharStatement, finish, finishPutchar, wrapColumn, h]
  | lineTest =>
    by_cases h : 25 ≤ s.cursorLine.toNat
    · simp [putcharStatement, finish, wrapScreen, h]
    · simp [putcharStatement, finish, wrapScreen, h]
  | changedTest =>
    by_cases h : s.cursorLine ≠ s.lastLine
    · simp only [putcharStatement, if_pos h, finish, clearNewLine]
    · simp only [putcharStatement, if_neg h, finish, clearNewLine]
  | clearCall => simp [putcharStatement, finish, clearLine_eq]
  | blankLine line i =>
    by_cases h : i < 80
    · have hlt : 80 * line.toNat + i < 80 * line.toNat + 80 := by omega
      simp only [putcharStatement, if_pos h, finish, Console.write, ← Nat.add_assoc, blankFrom_update hlt]
    · have hle : 80 * line.toNat + 80 ≤ 80 * line.toNat + i := by omega
      simp only [putcharStatement, if_neg h, finish, blankFrom_of_le hle]
  | _ => rfl

end
end N7OS
