import N7OS.Lib.DoprntFormat

/-! # The format is printed as it means

What `_doprnt` reads between the percent sign and the letter are the locals that the
conversion means, so a format that has a meaning is printed as this text.
-/
namespace N7OS.Doprnt

/-! ## Reading a conversion -/

section
variable {t : Conv} {args args' : List VaArg} {c : U8} {rest : List U8} {n : ℤ}

/-- The effect of a flag on the locals. -/
def Flag.set (t : Conv) : Flag → Conv
  | .alternate => { t with altfmt := true }
  | .minus => { t with ladjust := true }
  | .plus => { t with plusSign := 0x2B#8 }
  | .space => { t with plusSign := if t.plusSign = 0#8 then blank else t.plusSign }

theorem flagLoop_flags (hc : ∀ f : Flag, c ≠ f.char) (flags : List Flag) (t : Conv) :
    flagLoop t (flags.map Flag.char ++ c :: rest) = some (flags.foldl Flag.set t, c :: rest) := by
  induction flags generalizing t with
  | nil =>
    have h₁ := hc .alternate
    have h₂ := hc .minus
    have h₃ := hc .plus
    have h₄ : c ≠ blank := hc .space
    simp only [Flag.char] at h₁ h₂ h₃
    rw [List.map_nil, List.nil_append, flagLoop, if_neg h₁, if_neg h₂, if_neg h₃, if_neg h₄]
    rfl
  | cons f flags ih =>
    rw [List.map_cons, List.cons_append, flagLoop, List.foldl_cons, ← ih]
    cases f <;> rfl

/-- The order of the flags does not matter. -/
theorem foldl_set (flags : List Flag) :
    flags.foldl Flag.set t =
      { t with
        altfmt := t.altfmt || decide (Flag.alternate ∈ flags)
        ladjust := t.ladjust || decide (Flag.minus ∈ flags)
        plusSign :=
          if .plus ∈ flags then 0x2B#8
          else if .space ∈ flags then (if t.plusSign = 0#8 then blank else t.plusSign) else t.plusSign } := by
  induction flags generalizing t with
  | nil => simp
  | cons f flags ih =>
    rw [List.foldl_cons, ih]
    by_cases hplus : Flag.plus ∈ flags
    · cases f <;> simp [Flag.set, hplus]
    · by_cases hspace : Flag.space ∈ flags
      · by_cases hsign : t.plusSign = 0#8 <;> cases f <;> simp [Flag.set, hplus, hspace, hsign, blank]
      · cases f <;> simp [Flag.set, hplus, hspace]

theorem numberLoop_digits {ds : List U8} (hds : ∀ c ∈ ds, isdigit c = true) (hc : isdigit c = false) (rest : List U8)
    {n : ℕ} (hfit : n * 10 ^ ds.length + numeral ds < 2 ^ 31) :
    numberLoop n (ds ++ c :: rest) = some (((n * 10 ^ ds.length + numeral ds : ℕ) : ℤ), c :: rest) := by
  induction ds generalizing n with
  | nil => simp [numberLoop, hc, numeral]
  | cons d ds ih =>
    obtain ⟨hd, hrest⟩ := List.forall_mem_cons.mp hds
    obtain ⟨hvalue, hlt⟩ := toInt_of_isdigit hd
    rw [numeral_cons, List.length_cons, pow_succ] at hfit ⊢
    have hpow : 0 < 10 ^ ds.length := Nat.pow_pos (by decide)
    have hsum : n * (10 ^ ds.length * 10) + (digitValue d * 10 ^ ds.length + numeral ds) =
        (10 * n + digitValue d) * 10 ^ ds.length + numeral ds := by ring
    rw [hsum] at hfit ⊢
    have hsmall : 10 * n + digitValue d < 2 ^ 31 :=
      calc 10 * n + digitValue d ≤ (10 * n + digitValue d) * 10 ^ ds.length := Nat.le_mul_of_pos_right _ hpow
        _ ≤ _ := Nat.le_add_right _ _
        _ < 2 ^ 31 := hfit
    have hstep : wrap32 (wrap32 (10 * (n : ℤ)) + (d.toInt - 48)) = ((10 * n + digitValue d : ℕ) : ℤ) := by
      rw [wrap32_moderate (n := 10 * (n : ℤ)) (by omega) (by omega), wrap32_moderate (by omega) (by omega)]
      omega
    rw [List.cons_append, numberLoop, if_pos hd, hstep]
    exact ih hrest hfit

theorem number_chars {ds : List U8} (hne : ds ≠ []) (hds : ∀ c ∈ ds, isdigit c = true) :
    ∃ d ds', ds = d :: ds' ∧ isdigit d = true := by
  obtain ⟨d, ds', rfl⟩ := List.exists_cons_of_ne_nil hne
  exact ⟨d, ds', rfl, hds d List.mem_cons_self⟩

theorem star_value (h : Field.star.value args = some (n, args')) : ∃ v, args = .word v :: args' ∧ n = v.toInt := by
  cases args with
  | nil => cases h
  | cons a args =>
    cases a with
    | string p => cases h
    | word v =>
      cases h
      exact ⟨v, rfl, rfl⟩

/-- A field of the format, as a width: below zero it turns the adjustment round. -/
theorem readLength_field (f : Field) (hc : isdigit c = false) (hzero : t.length = 0)
    (hvalue : f.value args = some (n, args')) (hn : Moderate n) :
    readLength t args (f.chars ++ c :: rest) =
      some ({ t with length := n.natAbs, ladjust := t.ladjust.xor (decide (n < 0)) }, args', c :: rest) := by
  cases f with
  | number ds hne hds =>
    cases hvalue
    have hread := numberLoop_digits (n := 0) hds hc rest (by have := hn.2; omega)
    rw [Nat.zero_mul, Nat.zero_add] at hread
    obtain ⟨d, ds', rfl, hd⟩ := number_chars hne hds
    rw [Field.chars, List.cons_append, readLength, if_pos hd, hzero, ← List.cons_append]
    rw [Nat.cast_zero] at hread
    rw [hread]
    have hpos : ¬((numeral (d :: ds') : ℕ) : ℤ) < 0 := by omega
    simp [hpos]
  | star =>
    obtain ⟨v, rfl, rfl⟩ := star_value hvalue
    obtain ⟨hlo, hhi⟩ := hn
    have hset : t.setLength v.toInt =
        { t with length := v.toInt.natAbs, ladjust := t.ladjust.xor (decide (v.toInt < 0)) } := by
      unfold Conv.setLength
      by_cases hneg : v.toInt < 0
      · rw [if_pos hneg, wrap32_moderate (by omega) (by omega), show -v.toInt = v.toInt.natAbs by omega]
        simp [hneg]
      · rw [if_neg hneg, show (v.toInt.natAbs : ℤ) = v.toInt by omega]
        simp [hneg]
    rw [← hset]
    rfl

theorem readPoint_field (f : Field) (hc : isdigit c = false) (hvalue : f.value args = some (n, args')) (hn : Moderate n) :
    readPoint t args (f.chars ++ c :: rest) = some ({ t with prec := n }, args', c :: rest) := by
  cases f with
  | number ds hne hds =>
    cases hvalue
    have hread := numberLoop_digits (n := 0) hds hc rest (by have := hn.2; omega)
    rw [Nat.zero_mul, Nat.zero_add] at hread
    obtain ⟨d, ds', rfl, hd⟩ := number_chars hne hds
    rw [Field.chars, List.cons_append, readPoint, if_pos hd, ← List.cons_append]
    rw [Nat.cast_zero] at hread
    rw [hread]
    rfl
  | star =>
    obtain ⟨v, rfl, rfl⟩ := star_value hvalue
    rfl

/-! ### The parts one after the other -/

def Spec.longPart (s : Spec) (rest : List U8) : List U8 := (if s.long then [0x6C#8] else []) ++ s.letter :: rest

def Spec.precPart (s : Spec) (rest : List U8) : List U8 :=
  (s.prec.elim [] fun f => 0x2E#8 :: f.elim [] Field.chars) ++ s.longPart rest

def Spec.widthPart (s : Spec) (rest : List U8) : List U8 := s.width.elim [] Field.chars ++ s.precPart rest

def Spec.zeroPart (s : Spec) (rest : List U8) : List U8 := (if s.zero then [0x30#8] else []) ++ s.widthPart rest

theorem render_append (s : Spec) (rest : List U8) : s.render ++ rest = s.flags.map Flag.char ++ s.zeroPart rest := by
  simp [Spec.render, Spec.zeroPart, Spec.widthPart, Spec.precPart, Spec.longPart]

/-- No flag, no digit and no star. -/
def Ends (c : U8) : Prop := c ∉ [0x23#8, 0x2D#8, 0x2B#8, 0x20#8, 0x2A#8] ∧ isdigit c = false

theorem Ends.not_flag (h : Ends c) (f : Flag) : c ≠ f.char := by
  rintro rfl
  exact h.1 (by cases f <;> simp [Flag.char])

theorem Ends.ne_star (h : Ends c) : c ≠ 0x2A#8 := by
  rintro rfl
  exact h.1 (by decide)

theorem digit_not_flag (h : isdigit c = true) (f : Flag) : c ≠ f.char := by
  rintro rfl
  revert h
  cases f <;> decide

theorem longPart_head (s : Spec) (rest : List U8) : ∃ c r, s.longPart rest = c :: r ∧ Ends c ∧ c ≠ 0x2E#8 := by
  unfold Spec.longPart
  cases s.long with
  | true => exact ⟨0x6C#8, s.letter :: rest, rfl, by unfold Ends; decide, by decide⟩
  | false =>
    obtain ⟨hreserved, hdigit⟩ := s.hletter
    refine ⟨s.letter, rest, rfl, ⟨fun hmem => hreserved ?_, hdigit⟩, fun hpoint => hreserved (hpoint ▸ by decide)⟩
    simp only [List.mem_cons, List.not_mem_nil, or_false, reserved] at hmem ⊢
    tauto

theorem skipLong_longPart (s : Spec) (rest : List U8) : skipLong (s.longPart rest) = some (s.letter :: rest) := by
  unfold Spec.longPart
  cases s.long with
  | true => rfl
  | false => exact if_neg (fun hlong : s.letter = 0x6C#8 => s.hletter.1 (hlong ▸ by decide))

theorem precPart_head (s : Spec) (rest : List U8) : ∃ c r, s.precPart rest = c :: r ∧ Ends c := by
  unfold Spec.precPart
  cases s.prec with
  | none =>
    obtain ⟨c, r, hlong, hends, -⟩ := longPart_head s rest
    exact ⟨c, r, hlong, hends⟩
  | some f => exact ⟨0x2E#8, f.elim [] Field.chars ++ s.longPart rest, rfl, by unfold Ends; decide⟩

theorem readPrec_precPart (s : Spec) (rest : List U8) (hprec : t.prec = -1)
    (hvalue : (s.prec.elim (some (-1, args)) fun f => f.elim (some (-1, args)) (·.value args)) = some (n, args'))
    (hn : Moderate n) : readPrec t args (s.precPart rest) = some ({ t with prec := n }, args', s.longPart rest) := by
  obtain ⟨c, r, hlong, hends, hpoint⟩ := longPart_head s rest
  have hsame : { t with prec := -1 } = t := by rw [← hprec]
  unfold Spec.precPart
  cases hp : s.prec with
  | none =>
    rw [hp] at hvalue
    cases hvalue
    rw [Option.elim_none, List.nil_append, hlong, readPrec, if_neg hpoint, hsame]
  | some f =>
    rw [hp] at hvalue
    cases f with
    | none =>
      cases hvalue
      simp only [Option.elim_some, Option.elim_none, List.cons_append, List.nil_append, readPrec, if_true]
      rw [hlong, readPoint, if_neg (by simp [hends.2]), if_neg hends.ne_star, hsame]
    | some f =>
      simp only [Option.elim_some, List.cons_append, readPrec, if_true]
      rw [hlong]
      exact readPoint_field f hends.2 hvalue hn

theorem widthPart_head (s : Spec) (rest : List U8) :
    ∃ c r, s.widthPart rest = c :: r ∧ (∀ f : Flag, c ≠ f.char) ∧ (s.zero = false → c ≠ 0x30#8) := by
  unfold Spec.widthPart
  cases hw : s.width with
  | none =>
    obtain ⟨c, r, hprec, hends⟩ := precPart_head s rest
    exact ⟨c, r, hprec, hends.not_flag, fun _ hc => by simp [hc, Ends, isdigit] at hends⟩
  | some f =>
    have hhead (hzero : s.zero = false) := s.hwidth hzero f hw
    cases f with
    | number ds hne hds =>
      obtain ⟨d, ds', rfl, hd⟩ := number_chars hne hds
      exact ⟨d, ds' ++ s.precPart rest, rfl, digit_not_flag hd, fun hzero hd => hhead hzero (by simp [Field.chars, hd])⟩
    | star =>
      exact ⟨0x2A#8, s.precPart rest, rfl, fun f => by cases f <;> decide, fun _ => by decide⟩

theorem readLength_widthPart (s : Spec) (rest : List U8) (hzero : t.length = 0)
    (hvalue : s.width.elim (some (0, args)) (·.value args) = some (n, args')) (hn : Moderate n) :
    readLength t args (s.widthPart rest) =
      some ({ t with length := n.natAbs, ladjust := t.ladjust.xor (decide (n < 0)) }, args', s.precPart rest) := by
  obtain ⟨c, r, hprec, hends⟩ := precPart_head s rest
  unfold Spec.widthPart
  cases hw : s.width with
  | none =>
    rw [hw] at hvalue
    cases hvalue
    rw [Option.elim_none, List.nil_append, hprec, readLength, if_neg (by simp [hends.2]), if_neg hends.ne_star]
    have hsame : { t with length := 0 } = t := by rw [← hzero]
    simpa using hsame.symm
  | some f =>
    rw [hw] at hvalue
    rw [Option.elim_some, hprec]
    exact readLength_field f hends.2 hzero hvalue hn

/-- What is read of a conversion are the locals that it means. -/
theorem readConv_render (s : Spec) (rest : List U8) (h : s.conv args = some (t, args')) :
    readConv args (s.render ++ rest) = some (t, args', s.letter :: rest) := by
  obtain ⟨⟨length, args₁⟩, hlength, h⟩ := Option.bind_eq_some_iff.mp h
  obtain ⟨⟨prec, args₂⟩, hprec, h⟩ := Option.bind_eq_some_iff.mp h
  obtain ⟨⟨hlen, hpre⟩, hresult⟩ := Option.ite_none_right_eq_some.mp h
  cases hresult
  obtain ⟨c, r, hwidth, hflag, hnonzero⟩ := widthPart_head s rest
  have hzero : ∀ t : Conv, t.padc = blank → zeroFlag t (s.zeroPart rest) =
      some ({ t with padc := if s.zero then 0x30#8 else blank }, s.widthPart rest) := by
    intro t hpad
    unfold Spec.zeroPart
    cases hz : s.zero with
    | true => rfl
    | false =>
      have hsame : { t with padc := blank } = t := by rw [← hpad]
      simp only [Bool.false_eq_true, if_false, List.nil_append, hwidth, zeroFlag]
      rw [if_neg (hnonzero hz), hsame]
  have hflags : flagLoop .start (s.flags.map Flag.char ++ s.zeroPart rest) =
      some (s.flags.foldl Flag.set .start, s.zeroPart rest) := by
    unfold Spec.zeroPart
    cases hz : s.zero with
    | true => exact flagLoop_flags (fun f => by cases f <;> decide) s.flags .start
    | false =>
      simp only [Bool.false_eq_true, if_false, List.nil_append, hwidth]
      exact flagLoop_flags hflag s.flags .start
  rw [render_append, readConv, hflags, foldl_set, Option.bind_some]
  dsimp only
  rw [hzero _ rfl, Option.bind_some]
  dsimp only
  rw [readLength_widthPart s rest rfl hlength hlen, Option.bind_some]
  dsimp only
  rw [readPrec_precPart s rest rfl hprec hpre, Option.bind_some]
  dsimp only
  rw [skipLong_longPart, Option.map_some]
  simp [Conv.start]

theorem conv_fits {s : Spec} (h : s.conv args = some (t, args')) : t.Fits := by
  obtain ⟨⟨length, args₁⟩, -, h⟩ := Option.bind_eq_some_iff.mp h
  obtain ⟨⟨prec, args₂⟩, -, h⟩ := Option.bind_eq_some_iff.mp h
  obtain ⟨⟨⟨hlo, hhi⟩, hpre⟩, hresult⟩ := Option.ite_none_right_eq_some.mp h
  cases hresult
  refine ⟨⟨by simp, by simp only; omega⟩, hpre, ?_⟩
  cases s.zero
  · exact .inr rfl
  · exact .inl rfl

end

theorem doprnt_text {c : U8} (hpercent : c ≠ percent) (hzero : c ≠ 0#8) (radix : U32) (args : List VaArg) (fmt : List U8) :
    doprnt radix args (c :: fmt) = (doprnt radix args fmt).map (c :: ·) := by
  rw [doprnt, if_neg hzero, if_pos hpercent]

theorem doprnt_conversion {radix : U32} {t : Conv} {args args' : List VaArg} {fmt rest : List U8} {k : U8}
    (h : readConv args fmt = some (t, args', k :: rest)) (hk : k ≠ 0#8) :
    doprnt radix args (percent :: fmt) =
      (convert radix t args' k).bind fun (out, args) => (doprnt radix args rest).map (out ++ ·) := by
  rw [doprnt, if_neg (by decide), if_neg (not_not.mpr rfl)]
  split
  · next hread =>
    cases h.symm.trans hread
    simp only [if_neg hk]
  · next hread => exact absurd h (hread _ _ _ _)

theorem doprnt_nul (radix : U32) (args : List VaArg) (rest : List U8) : doprnt radix args (0#8 :: rest) = some [] := by
  rw [doprnt, if_pos rfl]

theorem doprnt_plain {s : List U8} (hs : ∀ c ∈ s, c ≠ percent ∧ c ≠ 0#8) (radix : U32) (args : List VaArg)
    (fmt : List U8) : doprnt radix args (s ++ fmt) = (doprnt radix args fmt).map (s ++ ·) := by
  induction s with
  | nil => simp
  | cons c s ih =>
    obtain ⟨⟨hpercent, hzero⟩, hrest⟩ := List.forall_mem_cons.mp hs
    rw [List.cons_append, doprnt_text hpercent hzero, ih hrest, Option.map_map]
    rfl

/-- `%s` prints a string as it is. -/
theorem doprnt_string {p s : List U8} (h : cstring p = some s) (radix : U32) (args : List VaArg) (fmt : List U8) :
    doprnt radix (.string p :: args) (percent :: 0x73#8 :: fmt) = (doprnt radix args fmt).map (s ++ ·) := by
  have hread : readConv (.string p :: args) (0x73#8 :: fmt) = some (.start, .string p :: args, 0x73#8 :: fmt) := rfl
  have hfits : Conv.Fits .start := ⟨by decide, by decide, .inr rfl⟩
  have hm : meaningOf radix .start (.string p :: args) 0x73#8 = some (s, args) := by
    have htext : stringText .start s = s := by simp [stringText, Conv.start]
    have hcase : numberCase radix 0x73#8 = none := rfl
    simp [meaningOf, hcase, h, htext]
  rw [doprnt_conversion hread (by decide), convert_eq hfits (by decide) hm]
  rfl

theorem doprnt_render {radix : U32} {args : List VaArg} {fmt : List Directive} {out : List U8}
    (h : meaning radix args fmt = some out) (rest : List U8) :
    doprnt radix args (render fmt ++ 0#8 :: rest) = some out := by
  induction fmt generalizing args out with
  | nil =>
    cases h
    rw [render, List.nil_append, doprnt, if_pos rfl]
  | cons directive fmt ih =>
    cases directive with
    | text c hpercent hzero =>
      obtain ⟨out', hout, rfl⟩ := Option.map_eq_some_iff.mp h
      rw [render, List.cons_append, doprnt_text hpercent hzero, ih hout]
      rfl
    | conversion s =>
      obtain ⟨⟨t, args₁⟩, hconv, h⟩ := Option.bind_eq_some_iff.mp h
      obtain ⟨⟨first, args₂⟩, hfirst, h⟩ := Option.bind_eq_some_iff.mp h
      obtain ⟨out', hout, rfl⟩ := Option.map_eq_some_iff.mp h
      have hletter : s.letter ≠ 0#8 := fun hnul => s.hletter.1 (hnul ▸ by decide)
      rw [render, List.cons_append, List.append_assoc, doprnt_conversion (readConv_render s _ hconv) hletter,
        convert_eq (conv_fits hconv) hletter hfirst, Option.bind_some]
      dsimp only
      rw [ih hout]
      rfl

/-- Whatever the format and the arguments are: if they mean a text, this text is put. -/
theorem doprnt_meaning {radix : U32} {args : List VaArg} {fmt : List Directive} (h : (meaning radix args fmt).isSome)
    (rest : List U8) : doprnt radix args (render fmt ++ 0#8 :: rest) = meaning radix args fmt := by
  obtain ⟨out, hout⟩ := Option.isSome_iff_exists.mp h
  rw [hout]
  exact doprnt_render hout rest

theorem letter_d : 0x64#8 ∉ reserved ∧ isdigit 0x64#8 = false := by decide

/-- The width of six characters. -/
def six : Field := .number [0x36#8] (by decide) (by decide)

/-- `"%#06x"`. -/
def hexSix : Spec := {
  flags := [.alternate], zero := true, width := some six, prec := none, long := false, letter := 0x78#8
  hwidth := by decide, hletter := by decide }

/-- `"%-*d|%#06x"`. -/
def widths : List Directive :=
  [.conversion {
      flags := [.minus], zero := false, width := some .star, prec := none, long := false, letter := 0x64#8
      hwidth := by decide, hletter := letter_d },
    .text 0x7C#8 (by decide) (by decide), .conversion hexSix]

/-- `"-42  |0x00ff"`. -/
theorem doprnt_meaning_widths :
    doprnt 10#32 [.word 5#32, .word (-42#32), .word 255#32] (render widths ++ [0#8]) =
      some [0x2D#8, 0x34#8, 0x32#8, 0x20#8, 0x20#8, 0x7C#8, 0x30#8, 0x78#8, 0x30#8, 0x30#8, 0x66#8, 0x66#8] :=
  (doprnt_meaning (by decide) []).trans (by decide)

end N7OS.Doprnt
