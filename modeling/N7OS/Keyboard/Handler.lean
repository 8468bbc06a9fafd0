import N7OS.Machine.Integers
import Mathlib.Logic.Function.Basic

/-! # The keyboard interrupt

`kernel/keyboard.c`: the scancode tables, the ring of 64 characters and the
handler of IRQ 1. The ring is unbounded here, so that an index past its 64 cells
would be visible.
-/
namespace N7OS

abbrev shiftPressedCode : U8 := 0x2A#8
abbrev shiftReleasedCode : U8 := 0xAA#8
abbrev rshiftPressedCode : U8 := 0x36#8
abbrev rshiftReleasedCode : U8 := 0xB6#8

/-- A key whose code is its ASCII character. -/
def ascii (c : Char) : U16 := BitVec.ofNat 16 c.toNat

def keyReturn : U16 := 0x0D#16
def keyEscape : U16 := 0x1001#16
def keyBackspace : U16 := 0x08#16
def keyQuoteDouble : U16 := 0x22#16
def keyQuote : U16 := 0x27#16
/-- The pound sign is two bytes in the source, a character constant above `0xFF`. -/
def keyPound : U16 := 0xC2A3#16
def keyTab : U16 := 0x4000#16

def scancodeMap : Vector U16 89 := #v[
  0, keyEscape, ascii '&', ascii 'e', keyQuoteDouble, keyQuote, ascii '(', ascii '-', ascii 'e', ascii '_',
  ascii 'c', ascii 'a', ascii ')', ascii '=', keyBackspace,
  keyTab, ascii 'a', ascii 'z', ascii 'e', ascii 'r', ascii 't', ascii 'y', ascii 'u', ascii 'i', ascii 'o',
  ascii 'p', ascii '^', ascii '$', keyReturn,
  0,
  ascii 'q', ascii 's', ascii 'd', ascii 'f', ascii 'g', ascii 'h', ascii 'j', ascii 'k', ascii 'l', ascii 'm',
  ascii 'u', ascii '2',
  0,
  ascii '*', ascii 'w', ascii 'x', ascii 'c', ascii 'v', ascii 'b', ascii 'n', ascii ',', ascii ';', ascii ':',
  ascii '!', 0,
  ascii '*', 0,
  ascii ' ', 0,
  0, 0, 0, 0, 0, 0, 0, 0, 0, 0,
  0,
  0,
  0,
  0,
  0,
  ascii '-',
  0,
  0,
  0,
  ascii '+',
  0,
  0,
  0,
  0,
  0,
  0,
  0,
  ascii '<',
  0, 0]

def scancodeMapShift : Vector U16 89 := #v[
  0, keyEscape, ascii '1', ascii '2', ascii '3', ascii '4', ascii '5', ascii '6', ascii '7', ascii '8',
  ascii '9', ascii '0', 0,
  ascii '+', keyBackspace,
  keyTab, ascii 'A', ascii 'Z', ascii 'E', ascii 'R', ascii 'T', ascii 'Y', ascii 'U', ascii 'I', ascii 'O',
  ascii 'P', ascii ',', keyPound, keyReturn,
  0,
  ascii 'Q', ascii 'S', ascii 'D', ascii 'F', ascii 'G', ascii 'H', ascii 'J', ascii 'K', ascii 'L', ascii 'M',
  ascii '%', 0,
  0,
  ascii 'u', ascii 'W', ascii 'X', ascii 'C', ascii 'V', ascii 'B', ascii 'N', ascii '?', ascii '.', ascii '/',
  ascii '!', 0,
  ascii '*', 0,
  ascii ' ', 0,
  0, 0, 0, 0, 0, 0, 0, 0, 0, 0,
  0,
  0,
  0,
  0,
  0,
  ascii '-',
  0,
  0,
  0,
  ascii '+',
  0,
  0,
  0,
  0,
  0,
  0,
  0,
  ascii '<',
  0, 0]

structure Keyboard where
  kbdBuffer : ℕ → U8
  kbdHead : U32
  kbdTail : U32
  shiftPressed : Bool

/-- The zeroed statics. -/
def Keyboard.boot : Keyboard := ⟨fun _ => 0, 0, 0, false⟩

/-- `(i + 1) & KBD_BUFFER_MASK`. -/
def nextIndex (i : U32) : U32 := (i + 1#32) &&& 0x3F#32

def kbdBufferPush (c : U8) (k : Keyboard) : Keyboard :=
  let next := nextIndex k.kbdHead
  if next ≠ k.kbdTail then
    { k with
      kbdBuffer := Function.update k.kbdBuffer k.kbdHead.toNat c
      kbdHead := next }
  else k

def keyboardHandlerC (scancode : U8) (k : Keyboard) : Keyboard :=
  if scancode = shiftPressedCode ∨ scancode = rshiftPressedCode then { k with shiftPressed := true }
  else if scancode = shiftReleasedCode ∨ scancode = rshiftReleasedCode then { k with shiftPressed := false }
  else if scancode &&& 0x80#8 ≠ 0#8 then k
  else if h : scancode.toNat < 89 then
    let key := if k.shiftPressed then scancodeMapShift[scancode.toNat] else scancodeMap[scancode.toNat]
    if key ≠ 0#16 ∧ key.toNat ≤ 0xFF then kbdBufferPush (key.setWidth 8) k else k
  else k

def kbdHasInput (k : Keyboard) : Bool := k.kbdHead != k.kbdTail

theorem toNat_nextIndex {i : U32} (h : i.toNat < 64) : (nextIndex i).toNat = (i.toNat + 1) % 64 := by
  have hone : (i + 1#32).toNat = i.toNat + 1 := toNat_add_of_lt (by change i.toNat + 1 < 2 ^ 32; omega)
  rw [nextIndex, BitVec.toNat_and, hone, show (0x3F#32).toNat = 2 ^ 6 - 1 by rfl,
    Nat.and_two_pow_sub_one_eq_mod]

end N7OS
