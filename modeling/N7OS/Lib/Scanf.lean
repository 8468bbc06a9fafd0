import N7OS.Lib.Atoi
import N7OS.Lib.Gets

/-! # `scanf`

`lib/scanf.c` reads one line for each conversion and cuts it to the width in the format.
The index into `maxchars` and the width are locals of the whole call: the digits of one
conversion are still there for the next. Here `gets` delivers the next of the given lines.
-/
namespace N7OS

/-- A line that fits the array of `gets`, with its terminator. -/
structure Line where
  chars : List U8
  nonzero : 0#8 ∉ chars
  short : chars.length < strSize

/-- The object that a pointer argument leads to. -/
inductive Arg
  | str (s : List U8)
  | int (n : ℤ)
deriving DecidableEq

/-- The locals that the width of a conversion goes through. -/
structure Width where
  maxchars : List U8
  i : ℕ
  nmax : ℤ
deriving DecidableEq

structure Scan where
  input : List U8
  count : ℤ
  width : Width
  lines : List Line
  scan : List Arg

/-- What has been stored, and the result unless the call still waits for a line. -/
structure Scanned where
  count : Option ℤ
  stored : List Arg
deriving DecidableEq

/-- An `int` that is compared with a `size_t`, or passed as one. -/
def asSize (x : ℤ) : ℕ := (x % 2 ^ 32).toNat

/-- `gets(input); count += strlen(input)`. -/
def Scan.readLine (t : Scan) (line : Line) (lines : List Line) : Option Scan :=
  (strcpy t.input (line.chars ++ [0#8])).bind fun input =>
    (strlen input).map fun n => { t with input := input, count := wrap32 (t.count + n), lines := lines }

/-- `while (isdigit(*format)) maxchars[i++] = *format++`. -/
def widthLoop (t : Width) : List U8 → Option (Width × List U8)
  | [] => none
  | c :: format =>
    if isdigit c then
      (storeByte t.maxchars t.i c).bind fun maxchars => widthLoop { t with maxchars := maxchars, i := t.i + 1 } format
    else some (t, c :: format)

/-- `maxchars[i] = '\0'; nmax = atoi(maxchars)`. -/
def Width.finish (t : Width) : Option Width :=
  (storeByte t.maxchars t.i 0#8).bind fun maxchars =>
    (atoi maxchars).map fun r => { t with maxchars := maxchars, nmax := r.value }

/-- The digits after a percent sign, if there are any. -/
def readWidth (t : Width) : List U8 → Option (Width × List U8)
  | [] => none
  | c :: format =>
    if isdigit c then (widthLoop t (c :: format)).bind fun (t, format) => t.finish.map fun t => (t, format)
    else some (t, c :: format)

/-- The case `'s'` of the switch. -/
def Scan.convertString (t : Scan) : Option (Scan × List Arg) :=
  match t.scan with
  | .str s :: scan =>
    (strlen t.input).bind fun n =>
      let n := if t.width.nmax = 0 ∨ n ≤ asSize t.width.nmax then n else asSize t.width.nmax
      (strncpy s t.input n).map fun s => ({ t with scan := scan }, [.str s])
  | _ => none

/-- The case `'d'` of the switch. -/
def Scan.convertInt (t : Scan) : Option (Scan × List Arg) :=
  match t.scan with
  | .int _ :: scan =>
    (strlen t.input).bind fun n =>
      let input :=
        if t.width.nmax ≠ 0 ∧ asSize t.width.nmax < n then storeByte t.input (asSize t.width.nmax) 0#8
        else some t.input
      input.bind fun input =>
        (atoi input).map fun r => ({ t with input := input, scan := scan }, [.int r.value])
  | _ => none

/-- `switch (*format)`. -/
def Scan.convert (t : Scan) (c : U8) : Option (Scan × List Arg) :=
  if c = 0x73#8 then t.convertString else if c = 0x64#8 then t.convertInt else some (t, [])

theorem widthLoop_length {t t' : Width} {format rest : List U8} (h : widthLoop t format = some (t', rest)) :
    rest.length ≤ format.length := by
  induction format generalizing t with
  | nil => cases h
  | cons c format ih =>
    unfold widthLoop at h
    by_cases hc : isdigit c = true
    · rw [if_pos hc] at h
      obtain ⟨maxchars, -, hrest⟩ := Option.bind_eq_some_iff.mp h
      exact (ih hrest).trans (Nat.le_succ _)
    · rw [if_neg hc] at h
      cases h
      exact le_rfl

theorem readWidth_length {t t' : Width} {format rest : List U8} (h : readWidth t format = some (t', rest)) :
    rest.length ≤ format.length := by
  cases format with
  | nil => cases h
  | cons c format =>
    by_cases hc : isdigit c = true
    · simp only [readWidth, if_pos hc] at h
      obtain ⟨⟨t₁, rest₁⟩, hloop, hfinish⟩ := Option.bind_eq_some_iff.mp h
      obtain ⟨t₂, -, hpair⟩ := Option.map_eq_some_iff.mp hfinish
      cases hpair
      exact widthLoop_length hloop
    · simp only [readWidth, if_neg hc] at h
      cases h
      exact le_rfl

/-- The loop over the format. What a conversion stores is put before what the rest of the call stores. -/
def scanfLoop (t : Scan) : List U8 → Option Scanned
  | [] => none
  | c :: format =>
    if c = 0#8 then some ⟨some t.count, []⟩
    else if c = 0x25#8 then
      match t.lines with
      | [] => some ⟨none, []⟩
      | line :: lines =>
        (t.readLine line lines).bind fun t =>
          match _h : readWidth t.width format with
          | some (width, k :: format) =>
            (Scan.convert { t with width := width } k).bind fun (t, stored) =>
              (scanfLoop t format).map fun r => { r with stored := stored ++ r.stored }
          | _ => none
    else scanfLoop t format
termination_by format => format.length
decreasing_by
  · have hlength := readWidth_length ‹_›
    simp only [List.length_cons] at hlength ⊢
    omega
  · exact Nat.lt_succ_self _

/-- The array `input` has not been set before the call. -/
def scanf (format input : List U8) (lines : List Line) (args : List Arg) : Option Scanned :=
  scanfLoop ⟨input, 0, ⟨List.replicate 5 0#8, 0, 0⟩, lines, args⟩ format

/-! ## The width that is used -/

/-- The line as it is cut when all the digits are in `maxchars`. -/
def leftover (digits : List U8) (line : Line) : List U8 :=
  if numeral digits = 0 then line.chars else line.chars.take (numeral digits)

/-- The value that `atoi` gives to a string. It looks past the terminator of an empty one. -/
def atoiValue (s : List U8) : Option ℤ := (atoi (s ++ [0#8, 0#8])).map (·.value)

/-- The digits are in `maxchars`, with room for a terminator, and the width is their number. -/
def Width.Keeps (t : Width) (digits : List U8) : Prop :=
  (∀ c ∈ digits, isdigit c = true) ∧
    ∃ room, room ≠ [] ∧ digits.length + room.length = 5 ∧ t = ⟨digits ++ room, digits.length, numeral digits⟩

section
variable {s digits w format rest : List U8} {k : U8} {t : Width}

theorem asSize_of {n : ℕ} (h : n < 2 ^ 32) : asSize n = n := by
  unfold asSize
  omega

theorem storeByte_append (a room : List U8) (d c : U8) :
    storeByte (a ++ d :: room) a.length c = some (a ++ c :: room) := by
  rw [storeByte, if_pos (by simp)]
  simp

theorem widthLoop_digits (hw : ∀ c ∈ w, isdigit c = true) (hk : isdigit k = false) (a room : List U8) (n : ℤ) :
    widthLoop ⟨a ++ room, a.length, n⟩ (w ++ k :: format) =
      if w.length ≤ room.length then
        some (⟨a ++ w ++ room.drop w.length, (a ++ w).length, n⟩, k :: format)
      else none := by
  induction w generalizing a room with
  | nil => simp [widthLoop, hk]
  | cons c w ih =>
    obtain ⟨hc, hrest⟩ := List.forall_mem_cons.mp hw
    rw [List.cons_append, widthLoop, if_pos hc]
    cases room with
    | nil => simp [storeByte]
    | cons d room =>
      have hloop := ih hrest (a ++ [c]) room
      simp only [List.append_assoc, List.singleton_append, List.length_append, List.length_singleton] at hloop
      simp only [storeByte_append, Option.bind_some]
      rw [hloop]
      simp

/-- The terminator needs a place too. -/
theorem finish_full (hfull : digits.length = 5) (n : ℤ) : Width.finish ⟨digits, 5, n⟩ = none := by
  simp [Width.finish, storeByte, hfull]

theorem finish_digits (hdigits : ∀ c ∈ digits, isdigit c = true) (hne : digits ≠ []) (hshort : digits.length ≤ 4)
    (d : U8) (room : List U8) (n : ℤ) :
    Width.finish ⟨digits ++ d :: room, digits.length, n⟩ =
      some ⟨digits ++ 0#8 :: room, digits.length, numeral digits⟩ := by
  have hsmall : numeral digits < 2 ^ 31 :=
    calc numeral digits < 10 ^ digits.length := numeral_lt hdigits
      _ ≤ 10 ^ 4 := Nat.pow_le_pow_right (by decide) hshort
      _ < 2 ^ 31 := by norm_num
  have hvalue := (atoi_numeral ⟨hne, hdigits⟩ hsmall room).mpr (by omega)
  simp only [Width.finish, storeByte_append, Option.bind_some]
  rw [hvalue]
  rfl

theorem readWidth_plain (hk : isdigit k = false) (t : Width) (format : List U8) :
    readWidth t (k :: format) = some (t, k :: format) := by
  simp [readWidth, hk]

theorem readWidth_digits (hw : ∀ c ∈ w, isdigit c = true) (hne : w ≠ []) (t : Width) (format : List U8) :
    readWidth t (w ++ format) =
      (widthLoop t (w ++ format)).bind fun (t, format) => t.finish.map fun t => (t, format) := by
  obtain ⟨c, w, rfl⟩ := List.exists_cons_of_ne_nil hne
  exact if_pos (hw c List.mem_cons_self)

/-- The digits of the conversion are put behind those that are already there. -/
theorem readWidth_keeps (h : t.Keeps digits) (hw : ∀ c ∈ w, isdigit c = true) (hk : isdigit k = false)
    (hfit : (digits ++ w).length ≤ 4) (format : List U8) :
    ∃ t', readWidth t (w ++ k :: format) = some (t', k :: format) ∧ t'.Keeps (digits ++ w) := by
  by_cases hempty : w = []
  · subst hempty
    rw [List.append_nil]
    exact ⟨t, readWidth_plain hk t format, h⟩
  · obtain ⟨hdigits, room, -, hlength, rfl⟩ := h
    have hall : ∀ c ∈ digits ++ w, isdigit c = true := List.forall_mem_append.mpr ⟨hdigits, hw⟩
    rw [List.length_append] at hfit
    obtain ⟨d, room', hroom⟩ := List.exists_cons_of_ne_nil
      (show room.drop w.length ≠ [] by rw [ne_eq, List.drop_eq_nil_iff]; omega)
    have hleft := congrArg List.length hroom
    rw [List.length_drop, List.length_cons] at hleft
    refine ⟨⟨digits ++ w ++ 0#8 :: room', (digits ++ w).length, numeral (digits ++ w)⟩, ?_, hall,
      0#8 :: room', List.cons_ne_nil _ _, ?_, rfl⟩
    · rw [readWidth_digits hw hempty, widthLoop_digits hw hk, if_pos (by omega), hroom, Option.bind_some]
      dsimp only
      rw [finish_digits hall (by simp [hempty]) (by rwa [List.length_append])]
      rfl
    · rw [List.length_append, List.length_cons]
      omega

/-- Five digits and their terminator do not fit. -/
theorem readWidth_overrun (h : t.Keeps digits) (hw : ∀ c ∈ w, isdigit c = true) (hk : isdigit k = false)
    (hfit : ¬(digits ++ w).length ≤ 4) (format : List U8) : readWidth t (w ++ k :: format) = none := by
  obtain ⟨hdigits, room, hne, hlength, rfl⟩ := h
  have hroom : 0 < room.length := List.length_pos_of_ne_nil hne
  rw [List.length_append] at hfit
  have hempty : w ≠ [] := by
    rintro rfl
    rw [List.length_nil] at hfit
    omega
  rw [readWidth_digits hw hempty, widthLoop_digits hw hk]
  by_cases hloop : w.length ≤ room.length
  · have hfull : (digits ++ w).length = 5 := by
      rw [List.length_append]
      omega
    rw [if_pos hloop, List.drop_of_length_le (by omega), List.append_nil, Option.bind_some, hfull]
    dsimp only
    rw [finish_full hfull]
    rfl
  · rw [if_neg hloop]
    rfl

end

/-! ## One conversion -/

section
variable {digits rest buf : List U8} {line : Line} {t : Scan} {args : List Arg}

theorem Width.Keeps.nmax {t : Width} (h : t.Keeps digits) :
    t.nmax = numeral digits ∧ asSize t.nmax = numeral digits := by
  obtain ⟨hdigits, room, -, hlength, rfl⟩ := h
  refine ⟨rfl, asSize_of ?_⟩
  calc numeral digits < 10 ^ digits.length := numeral_lt hdigits
    _ ≤ 10 ^ 5 := Nat.pow_le_pow_right (by decide) (by omega)
    _ < 2 ^ 32 := by norm_num

theorem prefix_ite_take (p : Prop) [Decidable p] (l : List U8) (n : ℕ) : (if p then l else l.take n) <+: l := by
  split
  · exact List.prefix_rfl
  · exact List.take_prefix _ _

theorem prefix_leftover (digits : List U8) (line : Line) : leftover digits line <+: line.chars :=
  prefix_ite_take _ _ _

/-- The count that is compared and copied with. -/
theorem leftover_length (digits : List U8) (line : Line) :
    (leftover digits line).length =
      if numeral digits = 0 ∨ line.chars.length ≤ numeral digits then line.chars.length else numeral digits := by
  unfold leftover
  by_cases hzero : numeral digits = 0
  · rw [if_pos hzero, if_pos (.inl hzero)]
  · rw [if_neg hzero, List.length_take]
    split <;> omega

theorem leftover_eq_nil : leftover digits line = [] ↔ line.chars = [] := by
  unfold leftover
  split
  · exact Iff.rfl
  · next hzero => simp [List.take_eq_nil_iff, hzero]

/-- The first characters are copied, and no terminator. -/
theorem convertString_eq (hinput : t.input = line.chars ++ 0#8 :: rest) (hwidth : t.width.Keeps digits)
    (hscan : t.scan = .str buf :: args) :
    t.convertString =
      if (leftover digits line).length ≤ buf.length then
        some ({ t with scan := args }, [.str (leftover digits line ++ buf.drop (leftover digits line).length)])
      else none := by
  obtain ⟨hnmax, hsize⟩ := hwidth.nmax
  have hlength := strlen_string line.nonzero rest
  have hbegins := prefix_leftover digits line
  have hcount : (if t.width.nmax = 0 ∨ line.chars.length ≤ asSize t.width.nmax then line.chars.length
      else asSize t.width.nmax) = (leftover digits line).length := by
    rw [leftover_length, hsize, hnmax]
    simp only [Nat.cast_eq_zero]
  have hcopy := strncpy_string line.nonzero (0#8 :: rest) buf hbegins.length_le
  rw [← List.prefix_iff_eq_take.mp hbegins] at hcopy
  rw [Scan.convertString, hscan]
  simp only [hinput, hlength, Option.bind_some]
  rw [hcount, hcopy]
  split <;> rfl

/-- An array that holds the line, cut by the digits. -/
theorem cutInput_eq (hinput : t.input = line.chars ++ 0#8 :: rest) (hwidth : t.width.Keeps digits) :
    ∃ rest', (if t.width.nmax ≠ 0 ∧ asSize t.width.nmax < line.chars.length then
        storeByte t.input (asSize t.width.nmax) 0#8 else some t.input) = some (leftover digits line ++ 0#8 :: rest') ∧
      (line.chars = [] → rest' = rest) ∧
      (leftover digits line ++ 0#8 :: rest').length = t.input.length := by
  obtain ⟨hnmax, hsize⟩ := hwidth.nmax
  have hlength := leftover_length digits line
  have hbegins := prefix_leftover digits line
  rw [hsize, hnmax]
  by_cases hcut : (numeral digits : ℤ) ≠ 0 ∧ numeral digits < line.chars.length
  · rw [if_neg (by omega)] at hlength
    obtain ⟨tail, htail⟩ := hbegins
    obtain ⟨c, tail, rfl⟩ := List.exists_cons_of_ne_nil (show tail ≠ [] by rintro rfl; simp [← htail, hlength] at hcut)
    have hsplit : t.input = leftover digits line ++ c :: (tail ++ 0#8 :: rest) := by
      rw [hinput, ← htail]
      simp
    refine ⟨tail ++ 0#8 :: rest, ?_, ?_, ?_⟩
    · rw [if_pos hcut, hsplit, ← hlength, storeByte_append]
    · intro hempty
      simp [hempty] at hcut
    · rw [hsplit]
      simp
  · rw [if_pos (by omega)] at hlength
    rw [hbegins.eq_of_length hlength]
    exact ⟨rest, by rw [if_neg hcut, hinput], fun _ => rfl, by rw [hinput]⟩

/-! ### The value of the line -/

theorem atoiValue_eq {s : List U8} (h : 0#8 ∉ s) (hne : s ≠ []) (rest : List U8) :
    (atoi (s ++ 0#8 :: rest)).map (·.value) = atoiValue s := by
  rw [atoiValue, atoi_string h hne, atoi_string h hne]

theorem atoiValue_isSome {s : List U8} (h : 0#8 ∉ s) : ∃ n, atoiValue s = some n := by
  by_cases hempty : s = []
  · exact ⟨0, by rw [hempty]; rfl⟩
  · rw [atoiValue, atoi_string h hempty]
    split
    · exact ⟨_, rfl⟩
    · exact ⟨_, rfl⟩

theorem nonzero_of_begins {s : List U8} (h : s <+: line.chars) : 0#8 ∉ s := fun hmem =>
  line.nonzero (h.subset hmem)

/-- The value of the line that is left; after an empty line the array must hold another zero. -/
theorem convertInt_eq (hinput : t.input = line.chars ++ 0#8 :: rest) (hwidth : t.width.Keeps digits) {n : ℤ}
    (hscan : t.scan = .int n :: args) :
    ∃ rest', (line.chars = [] → rest' = rest) ∧ (leftover digits line ++ 0#8 :: rest').length = t.input.length ∧
      t.convertInt =
        if line.chars = [] → 0#8 ∈ rest then
          (atoiValue (leftover digits line)).map fun n =>
            ({ t with input := leftover digits line ++ 0#8 :: rest', scan := args }, [.int n])
        else none := by
  obtain ⟨rest', hcut, hkept, hlength⟩ := cutInput_eq hinput hwidth
  refine ⟨rest', hkept, hlength, ?_⟩
  have hstrlen := strlen_string line.nonzero rest
  rw [← hinput] at hstrlen
  have hatoi : (atoi (leftover digits line ++ 0#8 :: rest')).map (·.value) =
      if line.chars = [] → 0#8 ∈ rest then atoiValue (leftover digits line) else none := by
    by_cases hempty : line.chars = []
    · rw [leftover_eq_nil.mpr hempty, List.nil_append, atoi_empty, hkept hempty]
      simp only [hempty, forall_const]
      rfl
    · rw [if_pos (fun h => absurd h hempty)]
      exact atoiValue_eq (nonzero_of_begins (prefix_leftover digits line)) (mt leftover_eq_nil.mp hempty) rest'
  rw [Scan.convertInt, hscan]
  simp only [hstrlen, Option.bind_some]
  rw [hcut, Option.bind_some]
  split at hatoi
  · next hzero =>
    rw [if_pos hzero, ← hatoi, Option.map_map]
    rfl
  · next hzero =>
    rw [if_neg hzero, Option.map_eq_none_iff.mp hatoi]
    rfl

/-! ## The loop -/

theorem scanfLoop_waits (h : t.lines = []) (format : List U8) : scanfLoop t (0x25#8 :: format) = some ⟨none, []⟩ := by
  rw [scanfLoop, if_neg (by decide), if_pos rfl, h]

theorem scanfLoop_text {c : U8} (hpercent : c ≠ 0x25#8) (hzero : c ≠ 0#8) (t : Scan) (format : List U8) :
    scanfLoop t (c :: format) = scanfLoop t format := by
  rw [scanfLoop, if_neg hzero, if_neg hpercent]

theorem readLine_eq (line : Line) (lines : List Line) (h : t.input.length = strSize) :
    t.readLine line lines =
      some { t with
        input := line.chars ++ 0#8 :: t.input.drop (line.chars.length + 1)
        count := wrap32 (t.count + line.chars.length)
        lines := lines } := by
  rw [Scan.readLine, strcpy_string line.nonzero [] (h ▸ line.short), Option.bind_some, strlen_string line.nonzero]
  rfl

/-- What follows the digits decides what is done with the line. -/
theorem scanfLoop_percent {lines : List Line} {t₁ : Scan} (hlines : t.lines = line :: lines)
    (hline : t.readLine line lines = some t₁) (format : List U8) :
    scanfLoop t (0x25#8 :: format) =
      (readWidth t₁.width format).bind fun (width, format) =>
        match format with
        | [] => none
        | k :: format =>
          (Scan.convert { t₁ with width := width } k).bind fun (t, stored) =>
            (scanfLoop t format).map fun r => { r with stored := stored ++ r.stored } := by
  rw [scanfLoop, if_neg (by decide), if_pos rfl, hlines]
  dsimp only
  rw [hline, Option.bind_some]
  split
  · next hread =>
    rw [hread]
    rfl
  · next hread =>
    cases hwidth : readWidth t₁.width format with
    | none => rfl
    | some r =>
      obtain ⟨width, format'⟩ := r
      cases format' with
      | nil => rfl
      | cons k format' => exact absurd hwidth (hread _ _ _)

end

end N7OS
