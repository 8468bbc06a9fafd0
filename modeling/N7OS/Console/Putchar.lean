import N7OS.Foundation.Execution
import N7OS.Machine.Integers

/-! # The console

`kernel/console.c`: text-mode video memory at `scr_tab`, a cursor kept in two
bytes, and the function-local `last_line` of `console_putchar`. Video memory is
unbounded here, so that a write past the 80 x 25 screen would be visible.
-/
namespace N7OS
open Execution

/-- The CRT controller: the selected register and the register file. -/
structure Crtc where
  index : U8
  reg : U8 → U8

/-- `outb` on the two ports of the controller, `0x3D4` and `0x3D5`. -/
def Crtc.outb (value : U8) (port : U16) (c : Crtc) : Crtc :=
  if port = 0x3D4#16 then { c with index := value }
  else if port = 0x3D5#16 then { c with reg := Function.update c.reg c.index value }
  else c

structure Console where
  scrTab : ℕ → U16
  cursorLine : U8
  cursorCol : U8
  lastLine : U8
  crtc : Crtc

/-- A character in `CHAR_COLOR`, white on black. -/
def cell (c : U8) : U16 := (0x0F#16 <<< 8) ||| c.setWidth 16

def blankCell : U16 := cell 0x20#8

abbrev backspace : U8 := 0x08#8
abbrev tab : U8 := 0x09#8
abbrev newline : U8 := 0x0A#8
abbrev formFeed : U8 := 0x0C#8
abbrev carriageReturn : U8 := 0x0D#8

def setCursor (s : Console) : Console :=
  let pos : U16 := BitVec.ofNat 16 (80 * s.cursorLine.toNat + s.cursorCol.toNat)
  let c := s.crtc.outb 0xF#8 0x3D4#16
  let c := c.outb ((pos &&& 0xFF#16).setWidth 8) 0x3D5#16
  let c := c.outb 0xE#8 0x3D4#16
  let c := c.outb (((pos >>> 8) &&& 0xFF#16).setWidth 8) 0x3D5#16
  { s with crtc := c }

def clearScreen (s : Console) : Console :=
  setCursor { s with
    scrTab := countedLoop (80 * 25) (fun i scr => Function.update scr (0 + i) blankCell) s.scrTab
    cursorLine := 0
    cursorCol := 0 }

def clearLine (line : U8) (s : Console) : Console :=
  { s with scrTab := countedLoop 80 (fun i scr => Function.update scr (80 * line.toNat + i) blankCell) s.scrTab }

def initConsole (s : Console) : Console := clearScreen s

/-- Static data zeroed by `crt0.S`, over whatever video memory and controller hold. -/
def Console.boot (scrTab : ℕ → U16) (crtc : Crtc) : Console := ⟨scrTab, 0, 0, 0, crtc⟩

def wrapColumn (s : Console) : Console :=
  if 80 ≤ s.cursorCol.toNat then { s with cursorCol := 0, cursorLine := s.cursorLine + 1 } else s

def wrapScreen (s : Console) : Console :=
  if 25 ≤ s.cursorLine.toNat then { s with cursorLine := 0 } else s

def clearNewLine (s : Console) : Console :=
  if s.cursorLine ≠ s.lastLine then { clearLine s.cursorLine s with lastLine := s.cursorLine } else s

/-- The common tail of `console_putchar`. -/
def finishPutchar (s : Console) : Console := setCursor (clearNewLine (wrapScreen (wrapColumn s)))

/-- `c > 31 && c < 127` on a signed `char`. -/
def Printable (c : U8) : Prop := 31 < c.toInt ∧ c.toInt < 127

instance (c : U8) : Decidable (Printable c) := inferInstanceAs (Decidable (_ ∧ _))

def consolePutchar (s : Console) (c : U8) : Console :=
  if Printable c then
    let pos := 80 * s.cursorLine.toNat + s.cursorCol.toNat
    finishPutchar { s with
      scrTab := Function.update s.scrTab pos (cell c)
      cursorCol := s.cursorCol + 1 }
  else if c = backspace then
    finishPutchar (if 0 < s.cursorCol.toNat then { s with cursorCol := s.cursorCol - 1 } else s)
  else if c = tab then finishPutchar { s with cursorCol := s.cursorCol + 8 }
  else if c = newline then finishPutchar { s with cursorLine := s.cursorLine + 1, cursorCol := 0 }
  else if c = formFeed then clearScreen s
  else if c = carriageReturn then finishPutchar { s with cursorCol := 0 }
  else finishPutchar s

def consolePutbytes (s : Console) (bytes : List U8) : Console := bytes.foldl consolePutchar s

@[simp] theorem setCursor_scrTab (s : Console) : (setCursor s).scrTab = s.scrTab := rfl
@[simp] theorem setCursor_cursorLine (s : Console) : (setCursor s).cursorLine = s.cursorLine := rfl
@[simp] theorem setCursor_cursorCol (s : Console) : (setCursor s).cursorCol = s.cursorCol := rfl
@[simp] theorem setCursor_lastLine (s : Console) : (setCursor s).lastLine = s.lastLine := rfl

theorem clearScreen_scrTab (s : Console) (x : ℕ) :
    (clearScreen s).scrTab x = if x < 2000 then blankCell else s.scrTab x := by
  simp only [clearScreen, setCursor_scrTab, countedLoop_fill]
  exact if_congr (by omega) rfl rfl

theorem clearLine_scrTab (line : U8) (s : Console) (x : ℕ) :
    (clearLine line s).scrTab x =
      if 80 * line.toNat ≤ x ∧ x < 80 * line.toNat + 80 then blankCell else s.scrTab x :=
  countedLoop_fill _ _ _ _ _

theorem printable_iff (c : U8) : Printable c ↔ 32 ≤ c.toNat ∧ c.toNat ≤ 126 := by
  have hc := c.isLt
  rw [Printable, BitVec.toInt_eq_toNat_cond]
  split <;> omega

theorem consolePutbytes_append (s : Console) (xs ys : List U8) :
    consolePutbytes s (xs ++ ys) = consolePutbytes (consolePutbytes s xs) ys := List.foldl_append

end N7OS
