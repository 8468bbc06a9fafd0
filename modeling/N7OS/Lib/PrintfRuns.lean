import N7OS.Console.Terminal
import N7OS.Lib.DoprntMeaning
import N7OS.Lib.Printf

/-! # What programs print

The functions of `lib/printf.c` on top of `_doprnt` and the system call `write`. Whatever a
program prints with them, in any order, arrives on the console as one text.
-/
namespace N7OS.User
open Doprnt

/-- The texts of the source, one byte a character. -/
def ofString (s : String) : List U8 := s.toList.map fun c => BitVec.ofNat 8 c.toNat

/-- A call of `printf`; `stack` is what `state.buf` holds before. A character is passed on as an `int`. -/
def printf (stack : ℕ → U8) (console : Console) (args : List VaArg) (fmt : List U8) : Option Console :=
  (Doprnt.doprnt 0#32 args fmt).map fun out => (vprintf stack console (out.map (·.signExtend 32))).console

def putchar (console : Console) (c : U32) : Console := consolePutbytes console [c.setWidth 8]

def puts (console : Console) : List U8 → Option Console
  | [] => none
  | c :: s => if c = 0#8 then some (putchar console 0x0A#32) else puts (putchar console (c.signExtend 32)) s

variable {console : Console}

/-- However the characters are put together to blocks, the console gets them in their order. -/
theorem vprintf_console (stack : ℕ → U8) (console : Console) (chars : List U32) :
    (vprintf stack console chars).console = consolePutbytes console (bytes chars) := by
  have hclosed := ((prints_start stack console).printfChars chars).close
  have hblocks : (vprintf stack console chars).blocks.flatten = bytes chars := by
    rw [vprintf_blocks, flatten_map_bytes, BlockWriter.flatten_blocks]
  rw [vprintf] at hblocks ⊢
  rw [hclosed.console, hblocks]

theorem setWidth_signExtend (c : U8) : (c.signExtend 32).setWidth 8 = c := by
  ext i hi
  rw [BitVec.getElem_setWidth, BitVec.getLsbD_signExtend]
  simp [hi, show i < 32 by omega, BitVec.getLsbD_eq_getElem]

theorem bytes_signExtend (out : List U8) : bytes (out.map (·.signExtend 32)) = out := by
  rw [bytes, List.map_map]
  exact (List.map_congr_left fun c _ => setWidth_signExtend c).trans (List.map_id out)

theorem printf_eq {args : List VaArg} {fmt out : List U8} (h : Doprnt.doprnt 0#32 args fmt = some out)
    (stack : ℕ → U8) (console : Console) : printf stack console args fmt = some (consolePutbytes console out) := by
  rw [printf, h, Option.map_some, vprintf_console, bytes_signExtend]

/-! ## The blocks of a call -/

/-- A byte that does not wait in the buffer. -/
def Unbuffered (c : U8) : Prop := c = 0#8 ∨ c = newline

instance : DecidablePred Unbuffered := fun c => inferInstanceAs (Decidable (c = _ ∨ c = _))

/-- The blocks that a text is written in. -/
def written (out : List U8) : List (List U8) := BlockWriter.blocks Unbuffered printfBufmax out

/-- What a call of `printf` gives to `write`, block after block. -/
def printfBlocks (stack : ℕ → U8) (console : Console) (args : List VaArg) (fmt : List U8) : Option (List (List U8)) :=
  (Doprnt.doprnt 0#32 args fmt).map fun out => (vprintf stack console (out.map (·.signExtend 32))).blocks

theorem direct_signExtend (c : U8) : Direct (c.signExtend 32) ↔ Unbuffered c := by
  have hinj (d : U8) : c.signExtend 32 = d.signExtend 32 ↔ c = d := by
    refine ⟨fun h => ?_, congrArg _⟩
    rw [← setWidth_signExtend c, h, setWidth_signExtend]
  exact or_congr (hinj 0#8) (hinj newline)

theorem printfBlocks_eq {args : List VaArg} {fmt out : List U8} (h : Doprnt.doprnt 0#32 args fmt = some out)
    (stack : ℕ → U8) (console : Console) : printfBlocks stack console args fmt = some (written out) := by
  have hbytes : bytes ∘ List.map (·.signExtend 32) = id := funext bytes_signExtend
  rw [printfBlocks, h, Option.map_some, vprintf_blocks, BlockWriter.blocks_map Unbuffered printfBufmax _ direct_signExtend,
    List.map_map, hbytes, List.map_id]
  rfl

theorem flatten_written (out : List U8) : (written out).flatten = out := BlockWriter.flatten_blocks _ _ out

/-- No line is begun at its end. -/
def WholeLines (out : List U8) : Prop := ∀ c ∈ out.getLast?, c = newline

theorem wholeLines_nil : WholeLines [] := nofun

theorem wholeLines_line (s : List U8) : WholeLines (s ++ [newline]) := by
  simp [WholeLines]

theorem wholeLines_ofList {cs : List Char} (h : cs.getLast? = some '\n') : WholeLines (ofString (String.ofList cs)) := by
  intro c hc
  rw [ofString, String.toList_ofList, List.getLast?_map, h] at hc
  exact (Option.some_inj.mp hc).symm

/-- Behind whole lines a text is written as in a call of its own. -/
theorem written_append {out : List U8} (h : WholeLines out) (more : List U8) :
    written (out ++ more) = written out ++ written more := by
  rcases List.eq_nil_or_concat out with rfl | ⟨s, c, rfl⟩
  · rfl
  · have hc : c = newline := h c (by simp)
    rw [List.concat_eq_append, hc]
    exact BlockWriter.blocks_append Unbuffered printfBufmax (.inr rfl) s more

theorem written_flatten {outs : List (List U8)} (h : ∀ out ∈ outs, WholeLines out) :
    written outs.flatten = outs.flatMap written := by
  induction outs with
  | nil => rfl
  | cons out outs ih =>
    obtain ⟨hfirst, hrest⟩ := List.forall_mem_cons.mp h
    rw [List.flatten_cons, written_append hfirst, ih hrest, List.flatMap_cons]

theorem puts_string {s : List U8} (h : 0#8 ∉ s) (console : Console) (rest : List U8) :
    puts console (s ++ 0#8 :: rest) = some (consolePutbytes console (s ++ [newline])) := by
  induction s generalizing console with
  | nil => rfl
  | cons c s ih =>
    obtain ⟨hc, hs⟩ := List.ne_and_not_mem_of_not_mem_cons h
    rw [List.cons_append, puts, if_neg hc.symm, ih hs, putchar, setWidth_signExtend, ← consolePutbytes_append]
    rfl

/-! ## Formats of the programs -/

/-- Characters that a format prints as they are. -/
def Plain (s : List U8) : Prop := ∀ c ∈ s, c ≠ percent ∧ c ≠ 0#8

instance : DecidablePred Plain := fun s =>
  decidable_of_iff (s.all fun c => c != percent && c != 0#8) (by simp [Plain])

/-- A literal is the list of its characters; the kernel sees this faster than it computes the list. -/
theorem ofString_ofList (cs : List Char) : ofString (String.ofList cs) = cs.map fun c => BitVec.ofNat 8 c.toNat := by
  rw [ofString, String.toList_ofList]

theorem plain_ofList {cs : List Char} (h : (cs.all fun c => c.toNat % 256 != 0x25 && c.toNat % 256 != 0) = true) :
    Plain (ofString (String.ofList cs)) := by
  rw [ofString_ofList]
  intro b hb
  obtain ⟨c, hc, rfl⟩ := List.mem_map.mp hb
  have hgood := List.all_eq_true.mp h c hc
  simp only [Bool.and_eq_true, bne_iff_ne] at hgood
  refine ⟨fun heq => hgood.1 ?_, fun heq => hgood.2 ?_⟩
  · simpa [percent] using congrArg BitVec.toNat heq
  · simpa using congrArg BitVec.toNat heq

theorem plain_nil : ∀ s ∈ ([] : List String), Plain (ofString s) := fun _ h => absurd h List.not_mem_nil

theorem plain_cons {cs : List Char} {ss : List String}
    (h : (cs.all fun c => c.toNat % 256 != 0x25 && c.toNat % 256 != 0) = true) (hs : ∀ s ∈ ss, Plain (ofString s)) :
    ∀ s ∈ String.ofList cs :: ss, Plain (ofString s) := List.forall_mem_cons.mpr ⟨plain_ofList h, hs⟩

theorem cstring_string {s : List U8} (h : 0#8 ∉ s) (hlength : s.length < 2 ^ 31 - 1) (rest : List U8) :
    cstring (s ++ 0#8 :: rest) = some s := by
  have htake : (s ++ 0#8 :: rest).takeWhile (· ≠ 0#8) = s := by
    rw [List.takeWhile_append_of_pos (by simpa using fun c hc => ne_of_mem_of_not_mem hc h)]
    simp
  rw [cstring, htake, if_pos ⟨by simp, hlength⟩]

/-- A number without flags. -/
def decimalText (n : ℤ) : List U8 := (if n < 0 then [0x2D#8] else []) ++ numeralText 10 n.natAbs

/-- A part of a format, with its argument: text, or a conversion without flags. -/
inductive Piece
  | text (s : List U8) (h : Plain s)
  | decimal (v : U32)
  | hex (v : U32)
  | char (v : U32)
  | string (p s : List U8) (h : cstring p = some s)

namespace Piece

def fmt : Piece → List U8
  | text s _ => s
  | decimal _ => [percent, 0x64#8]
  | hex _ => [percent, 0x78#8]
  | char _ => [percent, 0x63#8]
  | string _ _ _ => [percent, 0x73#8]

def args : Piece → List VaArg
  | text _ _ => []
  | decimal v => [.word v]
  | hex v => [.word v]
  | char v => [.word v]
  | string p _ _ => [.string p]

def shown : Piece → List U8
  | text s _ => s
  | decimal v => decimalText v.toInt
  | hex v => numeralText 16 v.toNat
  | char v => [v.setWidth 8]
  | string _ s _ => s

end Piece

theorem numberText_start (sign digits : List U8) : numberText .start sign [] digits = sign ++ digits := by
  simp [numberText, Conv.start, blank]

theorem signedText_start (v : U32) : signedText .start 10 v = decimalText v.toInt := by
  have hprefix : prefixText .start 10 v = [] := by simp [prefixText, Conv.start]
  rw [signedText, hprefix, numberText_start, decimalText]
  by_cases hneg : v.toInt < 0
  · rw [if_neg (Int.not_le.mpr hneg), if_pos hneg]
    rfl
  · rw [if_pos (Int.not_lt.mp hneg), if_neg hneg]
    rfl

theorem unsignedText_start (u : U32) : unsignedText .start 16 u = numeralText 16 u.toNat := by
  have hprefix : prefixText .start 16 u = [] := by simp [prefixText, Conv.start]
  rw [unsignedText, hprefix, numberText_start, List.nil_append]

theorem doprnt_letter {args args' : List VaArg} {k : U8} {out fmt : List U8} (hk : k ≠ 0#8)
    (hread : readConv args (k :: fmt) = some (.start, args, k :: fmt)) (h : meaningOf 0#32 .start args k = some (out, args')) :
    Doprnt.doprnt 0#32 args (percent :: k :: fmt) = (Doprnt.doprnt 0#32 args' fmt).map (out ++ ·) := by
  have hfits : Conv.Fits .start := ⟨by decide, by decide, .inr rfl⟩
  rw [doprnt_conversion hread hk, convert_eq hfits hk h]
  rfl

/-- Whatever follows, a part of a format is printed as it shows. -/
theorem doprnt_piece (piece : Piece) (args : List VaArg) (fmt : List U8) :
    Doprnt.doprnt 0#32 (piece.args ++ args) (piece.fmt ++ fmt) = (Doprnt.doprnt 0#32 args fmt).map (piece.shown ++ ·) := by
  cases piece with
  | text s h => exact doprnt_plain h 0#32 args fmt
  | decimal v =>
    refine doprnt_letter (by decide) rfl ?_
    rw [Piece.shown, ← signedText_start]
    rfl
  | hex v =>
    refine doprnt_letter (by decide) rfl ?_
    rw [Piece.shown, ← unsignedText_start]
    rfl
  | char v => exact doprnt_letter (by decide) rfl rfl
  | string p s h => exact doprnt_string h 0#32 args fmt

theorem doprnt_pieces (pieces : List Piece) (rest : List U8) :
    Doprnt.doprnt 0#32 (pieces.flatMap Piece.args) (pieces.flatMap Piece.fmt ++ 0#8 :: rest) =
      some (pieces.flatMap Piece.shown) := by
  induction pieces with
  | nil => exact doprnt_nul 0#32 [] rest
  | cons piece pieces ih =>
    rw [List.flatMap_cons, List.flatMap_cons, List.flatMap_cons, List.append_assoc, doprnt_piece, ih]
    rfl

theorem printf_pieces (stack : ℕ → U8) (console : Console) (pieces : List Piece) :
    printf stack console (pieces.flatMap Piece.args) (pieces.flatMap Piece.fmt ++ [0#8]) =
      some (consolePutbytes console (pieces.flatMap Piece.shown)) :=
  printf_eq (doprnt_pieces pieces []) stack console

/-- Texts printed one after the other. -/
theorem foldlM_putbytes {α : Type*} {f : Console → α → Option Console} {out : α → List U8} {xs : List α}
    (h : ∀ x ∈ xs, ∀ console, f console x = some (consolePutbytes console (out x))) (console : Console) :
    xs.foldlM f console = some (consolePutbytes console (xs.flatMap out)) := by
  induction xs generalizing console with
  | nil => rfl
  | cons x xs ih =>
    obtain ⟨hx, hxs⟩ := List.forall_mem_cons.mp h
    rw [List.foldlM_cons, hx, Option.bind_eq_bind, Option.bind_some, ih hxs, List.flatMap_cons, consolePutbytes_append]

/-- The calls that print. -/
inductive PrintCall
  | printf (stack : ℕ → U8) (fmt : List Doprnt.Directive) (args : List VaArg)
  | putchar (c : U32)
  | puts (s : List U8) (h : 0#8 ∉ s)

def PrintCall.run (console : Console) : PrintCall → Option Console
  | .printf stack fmt args => User.printf stack console args (Doprnt.render fmt ++ [0#8])
  | .putchar c => some (User.putchar console c)
  | .puts s _ => User.puts console (s ++ [0#8])

/-- The text that a call stands for. -/
def PrintCall.text : PrintCall → Option (List U8)
  | .printf _ fmt args => meaning 0#32 args fmt
  | .putchar c => some [c.setWidth 8]
  | .puts s _ => some (s ++ [newline])

def texts : List PrintCall → Option (List U8)
  | [] => some []
  | call :: calls => call.text.bind fun out => (texts calls).map (out ++ ·)

theorem PrintCall.run_eq {call : PrintCall} {out : List U8} (h : call.text = some out) (console : Console) :
    call.run console = some (consolePutbytes console out) := by
  cases call with
  | printf stack fmt args => exact printf_eq (doprnt_render h []) stack console
  | putchar c =>
    cases h
    rfl
  | puts s hs =>
    cases h
    exact puts_string hs console []

theorem foldlM_run {calls : List PrintCall} {out : List U8} (h : texts calls = some out) (console : Console) :
    calls.foldlM PrintCall.run console = some (consolePutbytes console out) := by
  induction calls generalizing console out with
  | nil =>
    cases h
    rfl
  | cons call calls ih =>
    obtain ⟨first, hfirst, h⟩ := Option.bind_eq_some_iff.mp h
    obtain ⟨others, hothers, rfl⟩ := Option.map_eq_some_iff.mp h
    rw [List.foldlM_cons, PrintCall.run_eq hfirst, Option.bind_eq_bind, Option.bind_some, ih hothers, consolePutbytes_append]

/-- A program's calls leave on the screen what the terminal shows of their texts. -/
theorem calls_shown {calls : List PrintCall} {out : List U8} (h : texts calls = some out) (hout : formFeed ∉ out)
    {t : Terminal} (hshows : Shows t console) :
    ∃ s, calls.foldlM PrintCall.run console = some s ∧ Shows (out.foldl Terminal.put t) s :=
  ⟨_, foldlM_run h console, shows_putbytes hshows hout⟩

/-- `printf("%-*d|%#06x", 5, -42, 255); puts("a\tb")`. -/
theorem calls_shown_widths :
    ∃ s, [PrintCall.printf (fun _ => 0) widths [.word 5#32, .word (-42#32), .word 255#32],
        .puts [0x61#8, tab, 0x62#8] (by decide)].foldlM PrintCall.run
          (initConsole (.boot (fun _ => 0) ⟨0, fun _ => 0⟩)) = some s ∧
      Shows (Terminal.putAll (ofString "-42  |0x00ffa\tb\n")) s :=
  calls_shown (by decide : texts _ = some (ofString "-42  |0x00ffa\tb\n")) (by decide) (shows_initConsole _ _)

end N7OS.User
