import N7OS.Console.Putchar
import N7OS.Foundation.BlockWriter

/-! # `printf`

The buffer of `lib/printf.c` between `_doprnt` and the system call `write`. What
`_doprnt` produces is any sequence of characters, passed as `int`. The model
keeps the blocks given to `write` and the indices of `buf` that are stored to.
-/
namespace N7OS
open BlockWriter

def printfBufmax : ℕ := 128

structure PrintfState where
  buf : ℕ → U8
  index : U32

/-- A call of `vprintf`, with the console that its system calls write to. -/
structure Printing where
  state : PrintfState
  console : Console
  blocks : List (List U8)
  stored : List ℕ

def sysWrite (bytes : List U8) (p : Printing) : Printing :=
  { p with console := consolePutbytes p.console bytes, blocks := p.blocks ++ [bytes] }

/-- `write(state->buf, len)`. -/
def Printing.write (len : U32) (p : Printing) : Printing :=
  sysWrite ((List.range len.toNat).map p.state.buf) p

def Printing.store (i : U32) (c : U8) (p : Printing) : Printing :=
  { p with
    state := { p.state with buf := Function.update p.state.buf i.toNat c }
    stored := p.stored ++ [i.toNat] }

def flush (p : Printing) : Printing :=
  let p := p.write p.state.index
  { p with state := { p.state with index := 0#32 } }

def printfChar (p : Printing) (c : U32) : Printing :=
  if c = 0#32 ∨ c = newline.setWidth 32 ∨ printfBufmax ≤ p.state.index.toNat then
    ((flush p).store 0#32 (c.setWidth 8)).write 1#32
  else
    let p := p.store p.state.index (c.setWidth 8)
    { p with state := { p.state with index := p.state.index + 1#32 } }

/-- The calls of `printf_char` for the characters that `_doprnt` has produced so far. -/
def printfChars (p : Printing) (chars : List U32) : Printing := chars.foldl printfChar p

def Printing.start (buf : ℕ → U8) (console : Console) : Printing := ⟨⟨buf, 0#32⟩, console, [], []⟩

def vprintf (buf : ℕ → U8) (console : Console) (chars : List U32) : Printing :=
  let p := printfChars (.start buf console) chars
  if p.state.index ≠ 0#32 then flush p else p

/-- The characters as the console gets them. -/
def bytes (chars : List U32) : List U8 := chars.map (fun c => c.setWidth 8)

/-- A character that is not to wait. -/
def Direct (c : U32) : Prop := c = 0#32 ∨ c = newline.setWidth 32

instance : DecidablePred Direct := fun c => inferInstanceAs (Decidable (c = _ ∨ c = _))

/-- The printing stands for an abstract writer of characters, over a console that has
got the blocks sent. -/
structure Prints (start : Console) (p : Printing) (w : Writer U32) : Prop where
  blocks : p.blocks = w.blocks.map bytes
  index : p.state.index.toNat = w.waiting.length
  room : w.waiting.length ≤ printfBufmax
  waiting : (List.range p.state.index.toNat).map p.state.buf = bytes w.waiting
  stored : ∀ i ∈ p.stored, i < printfBufmax
  console : p.console = consolePutbytes start p.blocks.flatten

section
variable {start : Console} {p : Printing} {w : Writer U32}

theorem Prints.flush (h : Prints start p w) : Prints start (flush p) w.flush where
  blocks := by simp [N7OS.flush, Printing.write, sysWrite, Writer.flush, h.blocks, h.waiting]
  index := rfl
  room := Nat.zero_le _
  waiting := rfl
  stored := h.stored
  console := by
    simp [N7OS.flush, Printing.write, sysWrite, h.console, consolePutbytes_append]

/-- The character that goes through `buf[0]`. -/
theorem Prints.bypass (h : Prints start p w) (hw : w.waiting = []) (c : U32) :
    Prints start ((p.store 0#32 (c.setWidth 8)).write 1#32) { w with blocks := w.blocks ++ [[c]] } where
  blocks := by simp [Printing.write, Printing.store, sysWrite, h.blocks, bytes]
  index := h.index
  room := h.room
  waiting := by
    have hindex := h.index
    simp [Printing.write, Printing.store, sysWrite, hindex, hw, bytes]
  stored := by
    intro i hi
    rcases List.mem_append.mp hi with hi | hi
    · exact h.stored i hi
    · simp [printfBufmax] at hi ⊢
      omega
  console := by
    simp [Printing.write, Printing.store, sysWrite, h.console, consolePutbytes_append]

theorem Prints.printfChar (h : Prints start p w) (c : U32) :
    Prints start (printfChar p c) (w.put Direct printfBufmax c) := by
  have hcond : (c = 0#32 ∨ c = newline.setWidth 32 ∨ printfBufmax ≤ p.state.index.toNat) ↔
      Direct c ∨ printfBufmax ≤ w.waiting.length := by
    rw [h.index, Direct, or_assoc]
  unfold N7OS.printfChar Writer.put
  by_cases hdirect : Direct c ∨ printfBufmax ≤ w.waiting.length
  · rw [if_pos hdirect, if_pos (hcond.mpr hdirect)]
    exact h.flush.bypass rfl c
  · rw [if_neg hdirect, if_neg (fun h => hdirect (hcond.mp h))]
    have hroom : w.waiting.length < 128 := Nat.lt_of_not_le (fun hfull => hdirect (Or.inr hfull))
    have hindex := h.index
    have hnext : (p.state.index + 1#32).toNat = w.waiting.length + 1 := by
      rw [toNat_add_of_lt]
      · simp [hindex]
      · simp [hindex]
        omega
    have hkeep : ∀ i ∈ List.range w.waiting.length,
        Function.update p.state.buf w.waiting.length (c.setWidth 8) i = p.state.buf i := by
      intro i hi
      rw [List.mem_range] at hi
      exact Function.update_of_ne (by omega) _ _
    have hwaiting := h.waiting
    rw [hindex] at hwaiting
    constructor
    · exact h.blocks
    · simpa [Printing.store] using hnext
    · have hfits := waiting_put Direct printfBufmax w c
      rw [Writer.put, if_neg hdirect] at hfits
      exact hfits
    · simp only [Printing.store, hnext, hindex, List.range_succ, List.map_append, List.map_congr_left hkeep, hwaiting,
        bytes]
      simp
    · intro i hi
      rcases List.mem_append.mp hi with hi | hi
      · exact h.stored i hi
      · simp [hindex, printfBufmax] at hi ⊢
        omega
    · exact h.console

theorem Prints.printfChars (h : Prints start p w) (chars : List U32) :
    Prints start (printfChars p chars) (chars.foldl (Writer.put Direct printfBufmax) w) := by
  induction chars generalizing p w with
  | nil => exact h
  | cons c chars ih => exact ih (h.printfChar c)

theorem prints_start (buf : ℕ → U8) (console : Console) : Prints console (.start buf console) ⟨[], []⟩ where
  blocks := rfl
  index := rfl
  room := Nat.zero_le _
  waiting := rfl
  stored := nofun
  console := rfl

theorem Prints.close (h : Prints start p w) :
    Prints start (if p.state.index ≠ 0#32 then N7OS.flush p else p) w.close := by
  have hempty : p.state.index = 0#32 ↔ w.waiting = [] := by
    rw [← List.length_eq_zero_iff, ← h.index]
    constructor
    · intro hzero
      rw [hzero]
      rfl
    · exact fun hzero => BitVec.eq_of_toNat_eq hzero
  unfold Writer.close
  by_cases hw : w.waiting = []
  · rw [if_pos hw, if_neg (not_not.mpr (hempty.mpr hw))]
    exact h
  · rw [if_neg hw, if_pos (fun hzero => hw (hempty.mp hzero))]
    exact h.flush

theorem flatten_map_bytes (blocks : List (List U32)) : (blocks.map bytes).flatten = bytes blocks.flatten := by
  rw [bytes, List.map_flatten]
  rfl

/-- Which blocks `write` is given depends on the characters alone. -/
theorem vprintf_blocks (buf : ℕ → U8) (console : Console) (chars : List U32) :
    (vprintf buf console chars).blocks = (BlockWriter.blocks Direct printfBufmax chars).map bytes :=
  ((prints_start buf console).printfChars chars).close.blocks

end

/-- What `write` is given, block after block, is what `_doprnt` has produced, and the
console ends as if it had been given one character at a time. -/
theorem vprintf_transparent (buf : ℕ → U8) (console : Console) (chars : List U32) :
    let p := vprintf buf console chars
    p.blocks.flatten = bytes chars ∧ p.console = (bytes chars).foldl consolePutchar console ∧
      (∀ i ∈ p.stored, i < printfBufmax) ∧
      ∀ earlier, earlier <+: chars → (printfChars (.start buf console) earlier).state.index.toNat ≤ printfBufmax := by
  have hrun : ∀ cs, Prints console (printfChars (.start buf console) cs)
      (cs.foldl (Writer.put Direct printfBufmax) ⟨[], []⟩) :=
    (prints_start buf console).printfChars
  have hclosed := (hrun chars).close
  have hblocks : (vprintf buf console chars).blocks.flatten = bytes chars := by
    rw [vprintf, hclosed.blocks, flatten_map_bytes, blocks_close, symbols_run]
    rfl
  refine ⟨hblocks, ?_, hclosed.stored, ?_⟩
  · rw [vprintf] at hblocks ⊢
    rw [hclosed.console, hblocks]
    rfl
  · intro earlier _
    have hearlier := hrun earlier
    rw [hearlier.index]
    exact hearlier.room

end N7OS
