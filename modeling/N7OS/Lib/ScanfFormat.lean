import N7OS.Lib.Scanf

/-! # The conversions of a format

A format is literal text and conversions with or without a width. The width that counts is
the number of all the digits so far, so that what a conversion stores is its own line only
when these digits do no harm.
-/
namespace N7OS

inductive Kind
  | str
  | int
deriving DecidableEq

/-- `%s` or `%d`, with the digits of its width, if it has one. -/
structure Conversion where
  width : List U8
  kind : Kind
  digits : ∀ c ∈ width, isdigit c = true
  short : width.length ≤ 4

inductive Directive
  | text (c : U8) (hpercent : c ≠ 0x25#8) (hzero : c ≠ 0#8)
  | conversion (conv : Conversion)

def Kind.char : Kind → U8
  | .str => 0x73#8
  | .int => 0x64#8

def render : List Directive → List U8
  | [] => []
  | .text c _ _ :: format => c :: render format
  | .conversion conv :: format => 0x25#8 :: (conv.width ++ conv.kind.char :: render format)

def conversions : List Directive → List Conversion
  | [] => []
  | .text _ _ _ :: format => conversions format
  | .conversion conv :: format => conv :: conversions format

/-- The argument is a pointer of the type that the conversion takes. -/
def Conversion.Takes (conv : Conversion) : Arg → Prop
  | .str _ => conv.kind = .str
  | .int _ => conv.kind = .int

/-- The call has an argument for each conversion. -/
def Supplied (convs : List Conversion) (args : List Arg) : Prop :=
  ∀ (k : ℕ) (conv : Conversion), convs[k]? = some conv → ∃ arg, args[k]? = some arg ∧ conv.Takes arg

/-- The line, cut to the width when one is given. -/
def Conversion.cut (conv : Conversion) (line : Line) : List U8 :=
  if conv.width = [] then line.chars else line.chars.take (numeral conv.width)

/-- What the conversion should store: the line with a terminator, or its value. -/
def Conversion.Stores (conv : Conversion) (line : Line) : Arg → Prop
  | .str s => conv.kind = .str ∧ Holds (conv.cut line) s
  | .int n => conv.kind = .int ∧ atoiValue (conv.cut line) = some n

/-- Nothing is undefined, the call returns when it has a line for each conversion, and each
conversion that gets its line stores it cut to its own width. -/
def ConvertsEach (convs : List Conversion) (lines : List Line) (result : Option Scanned) : Prop :=
  ∃ r, result = some r ∧ (convs.length ≤ lines.length → r.count.isSome) ∧
    ∀ (k : ℕ) (conv : Conversion) (line : Line), convs[k]? = some conv → lines[k]? = some line →
      ∃ a, r.stored[k]? = some a ∧ conv.Stores line a

/-- The conversion stores the same with all the digits. A string that is cut shorter finds the
rest of it, and the terminator, in the array; an empty line finds a zero for `atoi`. -/
def Conversion.Unharmed (conv : Conversion) (digits : List U8) (zero : Prop) (line : Line) : Arg → Prop
  | .str s => (leftover digits line).length ≤ (conv.cut line).length ∧
      (conv.cut line).drop (leftover digits line).length ++ [0#8] <+: s.drop (leftover digits line).length
  | .int _ => (line.chars = [] → zero) ∧ atoiValue (leftover digits line) = atoiValue (conv.cut line)

/-- No conversion is harmed by the digits before it, and all the digits fit `maxchars`. -/
def Independent (digits : List U8) (zero : Prop) (convs : List Conversion) (lines : List Line) (args : List Arg) :
    Prop :=
  ∀ (k : ℕ) (conv : Conversion) (line : Line) (arg : Arg), convs[k]? = some conv → lines[k]? = some line →
    args[k]? = some arg →
    let digits := digits ++ (convs.take (k + 1)).flatMap (·.width)
    digits.length ≤ 4 ∧ conv.Unharmed digits (zero ∨ ∃ l ∈ lines.take k, l.chars ≠ []) line arg

section
variable {digits rest : List U8} {line : Line} {conv : Conversion} {t : Scan} {args : List Arg}

theorem prefix_cut (conv : Conversion) (line : Line) : conv.cut line <+: line.chars :=
  prefix_ite_take _ _ _

/-! ## One conversion -/

/-- The state before a conversion: all digits so far are kept, and `zero` tells if the array of
the lines has a zero after its first byte. -/
structure Scan.Follows (t : Scan) (digits : List U8) (zero : Prop) : Prop where
  width : t.width.Keeps digits
  input : t.input.length = strSize
  zero : zero ↔ 0#8 ∈ t.input.tail

theorem mem_tail_iff {s : List U8} : 0#8 ∈ (s ++ 0#8 :: rest).tail ↔ s ≠ [] ∨ 0#8 ∈ rest := by
  cases s with
  | nil => simp
  | cons c s => simp

theorem zero_tail_iff {zero : Prop} {s rest' : List U8} (hs : s = [] ↔ line.chars = [])
    (hrest : line.chars = [] → rest' = rest) (hzero : line.chars = [] → (zero ↔ 0#8 ∈ rest)) :
    (zero ∨ line.chars ≠ []) ↔ 0#8 ∈ (s ++ 0#8 :: rest').tail := by
  rw [mem_tail_iff, show s ≠ [] ↔ line.chars ≠ [] from not_congr hs]
  by_cases hempty : line.chars = []
  · simp [hempty, hrest hempty, hzero hempty]
  · exact iff_of_true (.inr hempty) (.inl hempty)

theorem convert_follows {zero : Prop} {arg : Arg} (hwidth : t.width.Keeps digits) (hlength : t.input.length = strSize)
    (hinput : t.input = line.chars ++ 0#8 :: rest) (hzero : line.chars = [] → (zero ↔ 0#8 ∈ rest))
    (hscan : t.scan = arg :: args) (htakes : conv.Takes arg) :
    (∃ t' a, t.convert conv.kind.char = some (t', [a]) ∧ t'.Follows digits (zero ∨ line.chars ≠ []) ∧
        t'.lines = t.lines ∧ t'.scan = args ∧ (conv.Stores line a ↔ conv.Unharmed digits zero line arg)) ∨
      t.convert conv.kind.char = none ∧ ¬conv.Unharmed digits zero line arg := by
  cases arg with
  | str buf =>
    have hkind : conv.kind = .str := htakes
    rw [hkind, show t.convert Kind.str.char = t.convertString from rfl, convertString_eq hinput hwidth hscan]
    by_cases hroom : (leftover digits line).length ≤ buf.length
    · rw [if_pos hroom]
      refine .inl ⟨_, _, rfl, ⟨hwidth, hlength, ?_⟩, rfl, rfl, ?_⟩
      · rw [hinput]
        exact zero_tail_iff Iff.rfl (fun _ => rfl) hzero
      · simp only [Conversion.Stores, hkind, true_and]
        exact holds_append_iff (prefix_cut conv line) (prefix_leftover digits line) line.nonzero _
    · rw [if_neg hroom]
      refine .inr ⟨rfl, ?_⟩
      rintro ⟨-, hrest⟩
      rw [List.drop_of_length_le (Nat.le_of_not_le hroom)] at hrest
      simp at hrest
  | int n =>
    have hkind : conv.kind = .int := htakes
    obtain ⟨rest', hrest, hlength', hconvert⟩ := convertInt_eq hinput hwidth hscan
    rw [hkind, show t.convert Kind.int.char = t.convertInt from rfl, hconvert]
    by_cases hread : line.chars = [] → 0#8 ∈ rest
    · obtain ⟨v, hv⟩ := atoiValue_isSome (nonzero_of_begins (prefix_leftover digits line))
      rw [if_pos hread, hv, Option.map_some]
      refine .inl ⟨_, _, rfl, ⟨hwidth, hlength'.trans hlength, zero_tail_iff leftover_eq_nil hrest hzero⟩, rfl, rfl, ?_⟩
      simp only [Conversion.Stores, Conversion.Unharmed, hkind, hv, true_and]
      constructor
      · intro hvalue
        exact ⟨fun hempty => (hzero hempty).mpr (hread hempty), hvalue.symm⟩
      · exact fun h => h.2.symm
    · rw [if_neg hread]
      refine .inr ⟨rfl, ?_⟩
      rintro ⟨hfound, -⟩
      exact hread fun hempty => (hzero hempty).mp (hfound hempty)

theorem Kind.char_not_digit (k : Kind) : isdigit k.char = false := by
  cases k <;> decide

/-- One conversion: it stores what it should unless the digits harm it or do not fit. -/
theorem scanfLoop_conversion {zero : Prop} {arg : Arg} {lines : List Line} (h : t.Follows digits zero)
    (hlines : t.lines = line :: lines) (hscan : t.scan = arg :: args) (htakes : conv.Takes arg) (format : List U8) :
    (∃ t' a, scanfLoop t (0x25#8 :: (conv.width ++ conv.kind.char :: format)) =
          (scanfLoop t' format).map (fun r => { r with stored := a :: r.stored }) ∧
        t'.Follows (digits ++ conv.width) (zero ∨ line.chars ≠ []) ∧ t'.lines = lines ∧ t'.scan = args ∧
        (conv.Stores line a ↔
          (digits ++ conv.width).length ≤ 4 ∧ conv.Unharmed (digits ++ conv.width) zero line arg)) ∨
      scanfLoop t (0x25#8 :: (conv.width ++ conv.kind.char :: format)) = none ∧
        ¬((digits ++ conv.width).length ≤ 4 ∧ conv.Unharmed (digits ++ conv.width) zero line arg) := by
  have hline := readLine_eq line lines h.input
  have hdigit := conv.kind.char_not_digit
  by_cases hfit : (digits ++ conv.width).length ≤ 4
  · obtain ⟨width, hread, hkeeps⟩ := readWidth_keeps h.width conv.digits hdigit hfit format
    rw [scanfLoop_percent hlines hline, hread, Option.bind_some]
    dsimp only
    have hlength : (line.chars ++ 0#8 :: t.input.drop (line.chars.length + 1)).length = strSize := by
      have hshort := line.short
      have hinput := h.input
      rw [List.length_append, List.length_cons, List.length_drop]
      omega
    have hzero : line.chars = [] → (zero ↔ 0#8 ∈ t.input.drop (line.chars.length + 1)) := fun hempty => by
      rw [hempty, h.zero, ← List.drop_one]
      rfl
    have hconvert := convert_follows (t := ⟨_, wrap32 (t.count + line.chars.length), width, lines, t.scan⟩)
      hkeeps hlength rfl hzero hscan htakes
    rcases hconvert with
      ⟨t', a, hconvert, hfollows, hlines', hscan', hstores⟩ | ⟨hconvert, hharmed⟩
    · refine .inl ⟨t', a, ?_, hfollows, hlines', hscan', ?_⟩
      · rw [hconvert]
        rfl
      · rw [hstores]
        exact (and_iff_right hfit).symm
    · refine .inr ⟨?_, fun hboth => hharmed hboth.2⟩
      rw [hconvert]
      rfl
  · have hread := readWidth_overrun h.width conv.digits hdigit hfit format
    refine .inr ⟨?_, fun hboth => hfit hboth.1⟩
    rw [scanfLoop_percent hlines hline, hread]
    rfl

/-! ## All conversions -/

theorem supplied_cons {convs : List Conversion} (h : Supplied (conv :: convs) args) :
    ∃ arg args', args = arg :: args' ∧ conv.Takes arg ∧ Supplied convs args' := by
  obtain ⟨arg, harg, htakes⟩ := h 0 conv rfl
  cases args with
  | nil => cases harg
  | cons arg' args =>
    cases harg
    exact ⟨arg, args, rfl, htakes, fun k conv' hconv => h (k + 1) conv' hconv⟩

theorem convertsEach_cons {convs : List Conversion} {lines : List Line} {a : Arg} {result : Option Scanned} :
    ConvertsEach (conv :: convs) (line :: lines) (result.map fun r => { r with stored := a :: r.stored }) ↔
      conv.Stores line a ∧ ConvertsEach convs lines result := by
  constructor
  · rintro ⟨r, hr, hcount, hstores⟩
    obtain ⟨r, rfl, rfl⟩ := Option.map_eq_some_iff.mp hr
    obtain ⟨b, hb, hfirst⟩ := hstores 0 conv line rfl rfl
    cases hb
    exact ⟨hfirst, r, rfl, fun hlines => hcount (Nat.succ_le_succ hlines),
      fun k conv line hconv hline => hstores (k + 1) conv line hconv hline⟩
  · rintro ⟨hfirst, r, rfl, hcount, hstores⟩
    refine ⟨_, rfl, fun hlines => hcount (Nat.le_of_succ_le_succ hlines), ?_⟩
    intro k conv' line' hconv hline
    cases k with
    | zero =>
      cases hconv
      cases hline
      exact ⟨a, rfl, hfirst⟩
    | succ k => exact hstores k conv' line' hconv hline

theorem independent_cons {zero : Prop} {convs : List Conversion} {lines : List Line} {arg : Arg} :
    Independent digits zero (conv :: convs) (line :: lines) (arg :: args) ↔
      ((digits ++ conv.width).length ≤ 4 ∧ conv.Unharmed (digits ++ conv.width) zero line arg) ∧
        Independent (digits ++ conv.width) (zero ∨ line.chars ≠ []) convs lines args := by
  constructor
  · intro h
    refine ⟨by simpa using h 0 conv line arg rfl rfl rfl, ?_⟩
    intro k conv' line' arg' hconv hline harg
    simpa [List.append_assoc, or_assoc] using h (k + 1) conv' line' arg' hconv hline harg
  · rintro ⟨hfirst, hrest⟩ k conv' line' arg' hconv hline harg
    cases k with
    | zero =>
      cases hconv
      cases hline
      cases harg
      simpa using hfirst
    | succ k => simpa [List.append_assoc, or_assoc] using hrest k conv' line' arg' hconv hline harg

/-- The induction is on the format. Every conversion leaves its digits to the rest of it. -/
theorem scanfLoop_render {zero : Prop} {format : List Directive} (h : t.Follows digits zero)
    (hargs : Supplied (conversions format) t.scan) (rest : List U8) :
    ConvertsEach (conversions format) t.lines (scanfLoop t (render format ++ 0#8 :: rest)) ↔
      Independent digits zero (conversions format) t.lines t.scan := by
  induction format generalizing t digits zero with
  | nil =>
    refine iff_of_true ?_ (fun k conv line arg hconv => by cases hconv)
    rw [render, List.nil_append, scanfLoop, if_pos rfl]
    exact ⟨_, rfl, fun _ => rfl, fun k conv line hconv => by cases hconv⟩
  | cons directive format ih =>
    cases directive with
    | text c hpercent hzero =>
      rw [render, List.cons_append, scanfLoop_text hpercent hzero]
      exact ih h hargs
    | conversion conv =>
      rw [render, List.cons_append, List.append_assoc, List.cons_append, conversions]
      cases hlines : t.lines with
      | nil =>
        refine iff_of_true ?_ (fun k conv line arg _ hline => by cases hline)
        rw [scanfLoop_waits hlines]
        exact ⟨_, rfl, fun hle => by simp at hle, fun k conv line _ hline => by cases hline⟩
      | cons line lines =>
        obtain ⟨arg, args, hscan, htakes, hargs'⟩ := supplied_cons hargs
        rw [hscan, independent_cons]
        rcases scanfLoop_conversion h hlines hscan htakes (render format ++ 0#8 :: rest) with
          ⟨t', a, hloop, hfollows, hlines', hscan', hstores⟩ | ⟨hloop, hharmed⟩
        · have hrest := ih hfollows (hscan'.symm ▸ hargs')
          rw [hlines', hscan'] at hrest
          rw [hloop, convertsEach_cons, hstores, hrest]
        · rw [hloop]
          refine iff_of_false ?_ (fun hboth => hharmed hboth.1)
          rintro ⟨r, hr, -⟩
          cases hr

end

/-- The conversions are independent exactly when no one is harmed by the digits of those before it. -/
theorem scanf_converts_iff {format : List Directive} {input : List U8} {lines : List Line} {args : List Arg}
    (hinput : input.length = strSize) (hargs : Supplied (conversions format) args) (rest : List U8) :
    ConvertsEach (conversions format) lines (scanf (render format ++ 0#8 :: rest) input lines args) ↔
      Independent [] (0#8 ∈ input.tail) (conversions format) lines args := by
  have hkeeps : Width.Keeps ⟨List.replicate 5 0#8, 0, 0⟩ [] :=
    ⟨List.forall_mem_nil _, List.replicate 5 0#8, by decide, rfl, rfl⟩
  exact scanfLoop_render ⟨hkeeps, hinput, Iff.rfl⟩ hargs rest

/-- `"%1d %2s"` with the lines `12` and `b`, and with `12` and `bcd`: the width of the string
is 12, which does no harm to the first of them. -/
theorem scanf_converts_iff_widths :
    let format := [Directive.conversion ⟨[0x31#8], .int, by decide, by decide⟩,
      Directive.text 0x20#8 (by decide) (by decide), Directive.conversion ⟨[0x32#8], .str, by decide, by decide⟩]
    let number : Line := ⟨[0x31#8, 0x32#8], by decide, by decide⟩
    let b : Line := ⟨[0x62#8], by decide, by decide⟩
    let bcd : Line := ⟨[0x62#8, 0x63#8, 0x64#8], by decide, by decide⟩
    let result (lines : List Line) :=
      scanf (render format ++ [0#8]) (List.replicate 255 0#8) lines [.int 0, .str (List.replicate 4 0#8)]
    ConvertsEach (conversions format) [number, b] (result [number, b]) ∧
      ¬ConvertsEach (conversions format) [number, bcd] (result [number, bcd]) := by
  intro format number b bcd result
  have hargs : Supplied (conversions format) [.int 0, .str (List.replicate 4 0#8)] := by
    intro k conv hconv
    rcases k with _ | _ | k
    · cases hconv
      exact ⟨_, rfl, rfl⟩
    · cases hconv
      exact ⟨_, rfl, rfl⟩
    · cases hconv
  have hiff (lines : List Line) : ConvertsEach (conversions format) lines (result lines) ↔
      Independent [] (0#8 ∈ (List.replicate 255 0#8).tail) (conversions format) lines
        [.int 0, .str (List.replicate 4 0#8)] :=
    scanf_converts_iff List.length_replicate hargs []
  refine ⟨(hiff [number, b]).mpr ?_, mt (hiff [number, bcd]).mp ?_⟩
  · intro k conv line arg hconv hline harg
    rcases k with _ | _ | k
    · cases hconv
      cases hline
      cases harg
      exact ⟨by decide, nofun, by decide⟩
    · cases hconv
      cases hline
      cases harg
      exact ⟨by decide, by decide, by decide⟩
    · cases hconv
  · intro hindependent
    have hshort := (hindependent 1 _ _ _ rfl rfl rfl).2.1
    exact absurd hshort (by decide)

/-- `"%1d%d"` with the lines `12` and `34`: the second value is 3. -/
theorem scanf_width_leaks :
    let format := [Directive.conversion ⟨[0x31#8], .int, by decide, by decide⟩,
      Directive.conversion ⟨[], .int, by decide, by decide⟩]
    let lines : List Line := [⟨[0x31#8, 0x32#8], by decide, by decide⟩, ⟨[0x33#8, 0x34#8], by decide, by decide⟩]
    let result := scanf (render format ++ [0#8]) (List.replicate 255 0#8) lines [.int 0, .int 0]
    result = some ⟨some 4, [.int 1, .int 3]⟩ ∧ ¬ConvertsEach (conversions format) lines result := by
  intro format lines result
  have hresult : result = some ⟨some 4, [.int 1, .int 3]⟩ := by
    decide +kernel
  refine ⟨hresult, ?_⟩
  rw [hresult]
  rintro ⟨r, hr, -, hstores⟩
  cases hr
  obtain ⟨a, ha, hsecond⟩ := hstores 1 _ _ rfl rfl
  cases ha
  exact absurd hsecond.2 (by decide)

end N7OS
