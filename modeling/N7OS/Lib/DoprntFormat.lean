import Mathlib.Data.List.TakeWhile
import N7OS.Foundation.Positional
import N7OS.Lib.Doprnt

/-! # The language of formats

A format is a list of characters and conversions. Its meaning for some arguments says what
is printed in terms of numerals, lines of blanks and widths, without the counters of the
code. It is left open where a width or a precision does not fit well into an `int`.
-/
namespace N7OS.Doprnt
open Positional

/-! ## The parts of a conversion -/

inductive Flag
  | alternate
  | minus
  | plus
  | space
deriving DecidableEq

def Flag.char : Flag → U8
  | .alternate => 0x23#8
  | .minus => 0x2D#8
  | .plus => 0x2B#8
  | .space => 0x20#8

/-- A width or a precision: digits, or the next argument. -/
inductive Field
  | number (ds : List U8) (hne : ds ≠ []) (hdigits : ∀ c ∈ ds, isdigit c = true)
  | star

def Field.chars : Field → List U8
  | .number ds _ _ => ds
  | .star => [0x2A#8]

/-- The characters that would belong to what stands before the letter. -/
def reserved : List U8 := [0#8, 0x23#8, 0x2D#8, 0x2B#8, 0x20#8, 0x2A#8, 0x2E#8, 0x6C#8]

/-- A conversion as it is written. A zero before the width is the zero flag. -/
structure Spec where
  flags : List Flag
  zero : Bool
  width : Option Field
  prec : Option (Option Field)
  long : Bool
  letter : U8
  hwidth : zero = false → ∀ f, width = some f → f.chars.head? ≠ some 0x30#8
  hletter : letter ∉ reserved ∧ isdigit letter = false

inductive Directive
  | text (c : U8) (hpercent : c ≠ percent) (hzero : c ≠ 0#8)
  | conversion (s : Spec)

def Spec.render (s : Spec) : List U8 :=
  s.flags.map Flag.char ++ (if s.zero then [0x30#8] else []) ++ (s.width.elim [] Field.chars) ++
    (s.prec.elim [] fun f => 0x2E#8 :: f.elim [] Field.chars) ++ (if s.long then [0x6C#8] else []) ++ [s.letter]

def render : List Directive → List U8
  | [] => []
  | .text c _ _ :: fmt => c :: render fmt
  | .conversion s :: fmt => percent :: (s.render ++ render fmt)

/-! ## The meaning of a conversion -/

def digitChar (d : ℕ) : U8 := digs.getD d 0#8

/-- The digits of a number. -/
def numeralText (base n : ℕ) : List U8 := (expansion base n).map digitChar

/-- A sign, a prefix and digits, made up to the precision and to the width. -/
def numberText (t : Conv) (sign pre digits : List U8) : List U8 :=
  let zeros := List.replicate (t.prec.toNat - digits.length) 0x30#8
  let missing := t.length.toNat - (sign.length + pre.length + zeros.length + digits.length)
  if t.padc = 0x30#8 then sign ++ pre ++ zeros ++ List.replicate missing 0x30#8 ++ digits
  else if t.ladjust then sign ++ pre ++ zeros ++ digits ++ List.replicate missing blank
  else List.replicate missing blank ++ sign ++ pre ++ zeros ++ digits

def prefixText (t : Conv) (base : ℕ) (u : U32) : List U8 :=
  if u ≠ 0#32 ∧ t.altfmt = true then
    if base = 8 then [0x30#8] else if base = 16 then [0x30#8, 0x78#8] else []
  else []

def signText (signChar : U8) : List U8 := if signChar = 0#8 then [] else [signChar]

def unsignedText (t : Conv) (base : ℕ) (u : U32) : List U8 :=
  numberText t [] (prefixText t base u) (numeralText base u.toNat)

/-- The sign and the absolute value. -/
def signedText (t : Conv) (base : ℕ) (v : U32) : List U8 :=
  numberText t (signText (if 0 ≤ v.toInt then t.plusSign else 0x2D#8)) (prefixText t base v)
    (numeralText base v.toInt.natAbs)

/-- The string, cut to the precision. A cut string that is adjusted to the left gets one blank
less than the width asks for. -/
def stringText (t : Conv) (s : List U8) : List U8 :=
  let shown := if t.prec = -1 then s else s.take t.prec.toNat
  let counted := if shown.length < s.length then shown.length + 1 else shown.length
  if t.ladjust then shown ++ List.replicate (t.length.toNat - counted) blank
  else List.replicate (t.length.toNat - shown.length) blank ++ shown

/-- The string that starts at a pointer, if an `int` can count it. -/
def cstring (p : List U8) : Option (List U8) :=
  let s := p.takeWhile (· ≠ 0#8)
  if 0#8 ∈ p ∧ s.length < 2 ^ 31 - 1 then some s else none

def Field.value : Field → List VaArg → Option (ℤ × List VaArg)
  | .number ds _ _, args => some (numeral ds, args)
  | .star, .word v :: args => some (v.toInt, args)
  | .star, _ => none

/-- A width or a precision that leaves room for the other terms of the sum. -/
def Moderate (n : ℤ) : Prop := -2 ^ 30 < n ∧ n < 2 ^ 30

instance : DecidablePred Moderate := fun n => inferInstanceAs (Decidable (-2 ^ 30 < n ∧ n < 2 ^ 30))

/-- The flags do not depend on their order. A width below zero turns the adjustment round. -/
def Spec.conv (s : Spec) (args : List VaArg) : Option (Conv × List VaArg) :=
  (s.width.elim (some (0, args)) (·.value args)).bind fun (length, args) =>
    (s.prec.elim (some (-1, args)) fun f => f.elim (some (-1, args)) (·.value args)).bind fun (prec, args) =>
      if Moderate length ∧ Moderate prec then
        some ({
          length := length.natAbs
          prec := prec
          ladjust := (decide (Flag.minus ∈ s.flags)).xor (decide (length < 0))
          padc := if s.zero then 0x30#8 else blank
          plusSign := if .plus ∈ s.flags then 0x2B#8 else if .space ∈ s.flags then blank else 0#8
          altfmt := decide (Flag.alternate ∈ s.flags) }, args)
      else none

/-- What the letter makes of the next arguments. -/
def meaningOf (radix : U32) (t : Conv) (args : List VaArg) (c : U8) : Option (List U8 × List VaArg) :=
  match numberCase radix c, args with
  | some (signed, base), .word v :: args =>
    if 2 ≤ base.toNat ∧ base.toNat ≤ 16 then
      some (if signed then signedText t base.toNat v else unsignedText t base.toNat v, args)
    else none
  | some _, _ => none
  | none, args =>
    if c = 0x62#8 ∨ c = 0x42#8 then
      match args with
      | .word u :: .string p :: args => (printBits u p).map fun out => (out, args)
      | _ => none
    else if c = 0x63#8 then
      match args with
      | .word v :: args => some ([v.setWidth 8], args)
      | _ => none
    else if c = 0x73#8 then
      match args with
      | .string p :: args => (cstring p).map fun s => (stringText t s, args)
      | .word v :: args => if v = 0#32 then some (stringText t [], args) else none
      | [] => none
    else if c = 0x70#8 then
      match args with
      | .word v :: args =>
        some ([0x30#8, 0x78#8] ++ unsignedText { t with padc := 0x30#8, length := 8 } 16 v, args)
      | _ => none
    else some ([c], args)

/-- The text of a format for some arguments. -/
def meaning (radix : U32) : List VaArg → List Directive → Option (List U8)
  | _, [] => some []
  | args, .text c _ _ :: fmt => (meaning radix args fmt).map (c :: ·)
  | args, .conversion s :: fmt =>
    (s.conv args).bind fun (t, args) =>
      (meaningOf radix t args s.letter).bind fun (out, args) => (meaning radix args fmt).map (out ++ ·)

section
variable {t : Conv} {base u v : U32} {args : List VaArg} {s p rest : List U8}

/-! ## Numbers -/

theorem numeralText_div {b n : ℕ} (hb : 1 < b) (hn : b ≤ n) :
    numeralText b n = numeralText b (n / b) ++ [digitChar (n % b)] := by
  rw [numeralText, expansion_div hb hn, List.map_append]
  rfl

theorem digs_getElem? {d : ℕ} (h : d < 16) : digs[d]? = some (digitChar d) := by
  have hlength : d < digs.length := h.trans (by decide)
  rw [digitChar, List.getD_eq_getElem?_getD, List.getElem?_eq_getElem hlength]
  rfl

/-- The buffer is filled from its end with the digits. -/
theorem digitLoop_eq (hb : 2 ≤ base.toNat) (hb' : base.toNat ≤ 16) {room : ℕ} (hroom : 0 < room)
    (hu : u.toNat < base.toNat ^ room) (p : List U8) :
    digitLoop base room u p = some (numeralText base.toNat u.toNat ++ p) := by
  induction room generalizing u p with
  | zero => cases hroom
  | succ room ih =>
    have hzero : base ≠ 0#32 := by
      rintro rfl
      exact absurd hb (by decide)
    have hdigit : (u % base).toNat < 16 := by
      rw [BitVec.toNat_umod]
      exact (Nat.mod_lt _ (by omega)).trans_le hb'
    rw [digitLoop, if_neg hzero, digs_getElem? hdigit, Option.bind_some, BitVec.toNat_umod]
    by_cases hsmall : u.toNat < base.toNat
    · have hquot : u / base = 0#32 := BitVec.eq_of_toNat_eq (by
        rw [BitVec.toNat_udiv, Nat.div_eq_of_lt hsmall]
        rfl)
      rw [if_neg (not_not.mpr hquot), numeralText, expansion_small hsmall, Nat.mod_eq_of_lt hsmall]
      rfl
    · have hle : base.toNat ≤ u.toNat := Nat.le_of_not_lt hsmall
      have hquot : (u / base).toNat = u.toNat / base.toNat := BitVec.toNat_udiv
      have hpos : 0 < u.toNat / base.toNat := Nat.div_pos hle (by omega)
      have hne : u / base ≠ 0#32 := fun h => by
        rw [h] at hquot
        exact absurd hquot hpos.ne
      have hroom' : 0 < room := by
        by_contra hempty
        rw [Nat.eq_zero_of_not_pos hempty, zero_add, pow_one] at hu
        exact hsmall hu
      have hlt : (u / base).toNat < base.toNat ^ room := by
        rw [hquot]
        exact Nat.div_lt_of_lt_mul (by rwa [pow_succ, Nat.mul_comm] at hu)
      rw [if_pos hne, ih hroom' hlt, hquot, numeralText_div (by omega) hle]
      simp

theorem lt_pow_maxBuf (hb : 2 ≤ base.toNat) (u : U32) : u.toNat < base.toNat ^ maxBuf :=
  calc u.toNat < 2 ^ 32 := u.isLt
    _ ≤ base.toNat ^ 32 := Nat.pow_le_pow_left hb 32

theorem printnum_eq (hb : 2 ≤ base.toNat) (hb' : base.toNat ≤ 16) (u : U32) :
    printnum u base = some (numeralText base.toNat u.toNat) := by
  rw [printnum, digitLoop_eq hb hb' (by decide) (lt_pow_maxBuf hb u), List.append_nil]

theorem numeralText_length (hb : 2 ≤ base.toNat) (u : U32) : (numeralText base.toNat u.toNat).length ≤ 32 := by
  rw [numeralText, List.length_map]
  exact expansion_length_le (by omega) (by decide) (lt_pow_maxBuf hb u)

theorem wrap32_moderate {n : ℤ} (h : -2 ^ 31 ≤ n) (h' : n < 2 ^ 31) : wrap32 n = n := by
  apply Int.bmod_eq_of_le_mul_two
  · omega
  · omega

theorem countdown_eq {n : ℤ} (h : -2 ^ 31 < n) (h' : n < 2 ^ 31) (c : U8) :
    (countdown n c).1 = List.replicate n.toNat c ∧ (countdown n c).2 < 0 ∧ min (-1) (n - 1) ≤ (countdown n c).2 := by
  rw [countdown, wrap32_moderate (by omega) (by omega)]
  by_cases hn : 0 ≤ n - 1
  · rw [if_pos hn]
    refine ⟨?_, by norm_num, min_le_left _ _⟩
    rw [show (n - 1).toNat + 1 = n.toNat by omega]
  · rw [if_neg hn, show n.toNat = 0 by omega]
    exact ⟨rfl, by omega, min_le_right _ _⟩

/-- A number conversion leaves the locals in these bounds. -/
structure Conv.Fits (t : Conv) : Prop where
  length : 0 ≤ t.length ∧ t.length < 2 ^ 30
  prec : Moderate t.prec
  padc : t.padc = 0x30#8 ∨ t.padc = blank

theorem prefixText_length (t : Conv) (b : ℕ) (u : U32) : (prefixText t b u).length ≤ 2 := by
  unfold prefixText
  split_ifs <;> decide

theorem prefixText_eq (t : Conv) (u base : U32) :
    (if u ≠ 0#32 ∧ t.altfmt then
      if base = 8#32 then [0x30#8] else if base = 16#32 then [0x30#8, 0x78#8] else []
    else []) = prefixText t base.toNat u := by
  have h8 : base = 8#32 ↔ base.toNat = 8 := by
    rw [← BitVec.toNat_inj]
    rfl
  have h16 : base = 16#32 ↔ base.toNat = 16 := by
    rw [← BitVec.toNat_inj]
    rfl
  simp only [prefixText, h8, h16]

/-- What is left of the width when everything else is counted. -/
theorem length_left (t : Conv) (h : t.Fits) (signChar : U8) {pre digits : List U8} (hpre : pre.length ≤ 2)
    (hdigits : digits.length ≤ 32) :
    let prec := wrap32 (t.prec - digits.length)
    let length := wrap32 (t.length - digits.length)
    let length := if signChar ≠ 0#8 then wrap32 (length - 1) else length
    let length := wrap32 (length - pre.length)
    let length := if 0 < prec then wrap32 (length - prec) else length
    prec = t.prec - digits.length ∧
      length = t.length - (signText signChar).length - pre.length - (t.prec.toNat - digits.length : ℕ) - digits.length := by
  obtain ⟨hlo, hhi⟩ := h.length
  obtain ⟨hplo, hphi⟩ := h.prec
  have hsign : ((signText signChar).length : ℤ) = if signChar ≠ 0#8 then 1 else 0 := by
    unfold signText
    by_cases hzero : signChar = 0#8 <;> simp [hzero]
  have hprec : wrap32 (t.prec - digits.length) = t.prec - digits.length := wrap32_moderate (by omega) (by omega)
  have hlength : wrap32 (t.length - digits.length) = t.length - digits.length := wrap32_moderate (by omega) (by omega)
  simp only [hprec, hlength, hsign, true_and]
  split_ifs
  all_goals
    simp (disch := omega) only [wrap32_moderate]
    omega

theorem printNum_eq (h : t.Fits) (hb : 2 ≤ base.toNat) (hb' : base.toNat ≤ 16) (signChar : U8) (u : U32) :
    printNum t signChar u base =
      some (numberText t (signText signChar) (prefixText t base.toNat u) (numeralText base.toNat u.toNat)) := by
  have hdigits := numeralText_length hb u
  have hpre := prefixText_length t base.toNat u
  obtain ⟨hprec, hleft⟩ := length_left t h signChar hpre hdigits
  rw [printNum, digitLoop_eq hb hb' (by decide) (lt_pow_maxBuf hb u), List.append_nil, Option.map_some, prefixText_eq]
  dsimp only at hprec hleft ⊢
  rw [hprec] at hleft ⊢
  rw [hleft]
  generalize prefixText t base.toNat u = pre at hpre ⊢
  generalize numeralText base.toNat u.toNat = digits at hdigits ⊢
  obtain ⟨hlo, hhi⟩ := h.length
  obtain ⟨hplo, hphi⟩ := h.prec
  have hsign : (signText signChar).length ≤ 1 := by
    unfold signText
    split <;> simp
  have hzeros : (countdown (t.prec - digits.length) 0x30#8).1 = List.replicate (t.prec.toNat - digits.length) 0x30#8 := by
    rw [(countdown_eq (by omega) (by omega) _).1, show (t.prec - digits.length).toNat = t.prec.toNat - digits.length by omega]
  generalize hL : t.length - (signText signChar).length - pre.length - (t.prec.toNat - digits.length : ℕ) - digits.length = L
  have hcount (c : U8) : (countdown L c).1 = List.replicate L.toNat c := (countdown_eq (by omega) (by omega) c).1
  have hdone (c c' : U8) : (countdown (countdown L c).2 c').1 = [] := by
    obtain ⟨-, hneg, hlow⟩ := countdown_eq (n := L) (by omega) (by omega) c
    rw [(countdown_eq (by omega) (by omega) c').1, Int.toNat_of_nonpos hneg.le]
    rfl
  have hmissing : L.toNat = t.length.toNat -
      ((signText signChar).length + pre.length + (t.prec.toNat - digits.length) + digits.length) := by omega
  have hsignText : (if signChar ≠ 0#8 then [signChar] else []) = signText signChar := ite_not _ _ _
  have hne : (0x30#8 : U8) ≠ blank := by decide
  rw [hsignText, hzeros, numberText, List.length_replicate, ← hmissing]
  rcases h.padc with hpad | hpad
  · cases hadj : t.ladjust <;> simp [hpad, hne, hcount, hdone]
  · cases hadj : t.ladjust <;> simp [hpad, hne.symm, hcount]

theorem printSigned_eq (h : t.Fits) (hb : 2 ≤ base.toNat) (hb' : base.toNat ≤ 16) (v : U32) :
    printSigned t base v = some (signedText t base.toNat v) := by
  unfold printSigned signedText
  by_cases hv : 0 ≤ v.toInt
  · have habs : v.toInt.natAbs = v.toNat := by
      rw [BitVec.toInt_eq_toNat_cond] at hv ⊢
      split at hv
      · next hsmall => rw [if_pos hsmall, Int.natAbs_natCast]
      · have hlt := v.isLt
        omega
    rw [if_pos hv, if_pos hv, printNum_eq h hb hb', habs]
  · have hne : v ≠ 0#32 := by
      rintro rfl
      exact hv (by decide)
    have habs : v.toInt.natAbs = (-v).toNat := by
      rw [BitVec.toNat_neg]
      rw [BitVec.toInt_eq_toNat_cond] at hv ⊢
      split at hv
      · omega
      · next hlarge =>
        rw [if_neg hlarge]
        have hlt := v.isLt
        omega
    have hpre : prefixText t base.toNat (-v) = prefixText t base.toNat v := by
      simp [prefixText, hne]
    rw [if_neg hv, if_neg hv, printNum_eq h hb hb', habs, hpre]

/-! ## Strings -/

theorem cstring_eq (h : cstring p = some s) : ∃ rest, p = s ++ 0#8 :: rest ∧ 0#8 ∉ s ∧ s.length < 2 ^ 31 - 1 := by
  obtain ⟨hcond, hs⟩ := Option.ite_none_right_eq_some.mp h
  obtain ⟨hmem, hlength⟩ := hcond
  cases hs
  have hall : ∀ c ∈ p.takeWhile (· ≠ 0#8), c ≠ 0#8 := fun c hc => by simpa using List.mem_takeWhile_imp hc
  cases hdrop : p.dropWhile (· ≠ 0#8) with
  | nil =>
    have hwhole := List.takeWhile_append_dropWhile (p := (· ≠ 0#8)) (l := p)
    rw [hdrop, List.append_nil] at hwhole
    rw [← hwhole] at hmem
    exact absurd rfl (hall _ hmem)
  | cons c rest =>
    have hhead := List.head?_dropWhile_not (fun c : U8 => decide (c ≠ 0#8)) p
    rw [hdrop] at hhead
    have hc : c = 0#8 := by simpa using hhead
    rw [hc] at hdrop
    refine ⟨rest, ?_, fun hzero => hall _ hzero rfl, hlength⟩
    rw [← hdrop, List.takeWhile_append_dropWhile]

theorem measure_eq (h : 0#8 ∉ s) (rest : List U8) {prec n : ℤ} :
    measure prec n (s ++ 0#8 :: rest) = some (n + min s.length (prec - n).toNat) := by
  induction s generalizing n with
  | nil => simp [measure]
  | cons c s ih =>
    obtain ⟨hc, hs⟩ := List.ne_and_not_mem_of_not_mem_cons h
    rw [List.cons_append, measure]
    by_cases hlt : n < prec
    · rw [if_pos ⟨hc.symm, hlt⟩, ih hs]
      refine congrArg some ?_
      rw [List.length_cons]
      omega
    · rw [if_neg (fun hboth => hlt hboth.2)]
      refine congrArg some ?_
      omega

theorem copyLoop_eq (h : 0#8 ∉ s) (rest : List U8) {prec n : ℤ} :
    copyLoop prec n (s ++ 0#8 :: rest) =
      some (s.take (prec - n).toNat, n + if s.length ≤ (prec - n).toNat then s.length else (prec - n).toNat + 1) := by
  induction s generalizing n with
  | nil => simp [copyLoop]
  | cons c s ih =>
    obtain ⟨hc, hs⟩ := List.ne_and_not_mem_of_not_mem_cons h
    rw [List.cons_append, copyLoop, if_neg hc.symm]
    by_cases hlt : prec < n + 1
    · rw [if_pos hlt, show (prec - n).toNat = 0 by omega]
      rfl
    · have hcount : (prec - n).toNat = (prec - (n + 1)).toNat + 1 := by omega
      rw [if_neg hlt, ih hs, hcount, List.length_cons]
      simp only [Nat.add_le_add_iff_right, Option.map_some, List.take_succ_cons]
      split_ifs
      all_goals
        refine congrArg some (congrArg (Prod.mk _) ?_)
        push_cast
        ring

theorem printString_eq (h : t.Fits) (hs : cstring p = some s) : printString t p = some (stringText t s) := by
  obtain ⟨rest, rfl, hnonzero, hshort⟩ := cstring_eq hs
  obtain ⟨hlo, hhi⟩ := h.length
  generalize hP : (if t.prec = -1 then 2 ^ 31 - 1 else t.prec) = P
  have hshown : (if t.prec = -1 then s else s.take t.prec.toNat) = s.take P.toNat := by
    rw [← hP]
    by_cases hnone : t.prec = -1
    · rw [if_pos hnone, if_pos hnone, List.take_of_length_le (by omega)]
    · rw [if_neg hnone, if_neg hnone]
  have hcounted : (if (s.take P.toNat).length < s.length then (s.take P.toNat).length + 1 else (s.take P.toNat).length) =
      if s.length ≤ P.toNat then s.length else P.toNat + 1 := by
    rw [List.length_take]
    split_ifs <;> omega
  have hleading : (if 0 < t.length ∧ t.ladjust = false then
      (measure P 0 (s ++ 0#8 :: rest)).map (fill · t.length) else some []) =
      some (if t.ladjust then [] else List.replicate (t.length.toNat - (s.take P.toNat).length) blank) := by
    rw [measure_eq hnonzero, List.length_take]
    by_cases hadj : t.ladjust = true
    · rw [if_neg (by simp [hadj]), if_pos hadj]
    · rw [if_neg hadj]
      by_cases hwidth : 0 < t.length
      · rw [if_pos ⟨hwidth, by simpa using hadj⟩, Option.map_some, fill]
        refine congrArg some (congrArg (List.replicate · blank) ?_)
        omega
      · rw [if_neg (fun hboth => hwidth hboth.1), show t.length.toNat - min P.toNat s.length = 0 by omega]
        rfl
  rw [printString, hP, hleading, Option.bind_some, copyLoop_eq hnonzero, Option.map_some, stringText, hshown, hcounted]
  dsimp only
  by_cases hadj : t.ladjust = true
  · rw [if_pos hadj, if_pos hadj, if_pos hadj, fill, List.nil_append, sub_zero, zero_add]
    refine congrArg some (congrArg (s.take P.toNat ++ List.replicate · blank) ?_)
    split_ifs <;> omega
  · rw [if_neg hadj, if_neg hadj, if_neg hadj, sub_zero, List.append_nil]

/-- Each letter prints what it means. -/
theorem convert_eq (h : t.Fits) {radix : U32} {c : U8} {result : List U8 × List VaArg} (hc : c ≠ 0#8)
    (hm : meaningOf radix t args c = some result) : convert radix t args c = some result := by
  unfold convert
  unfold meaningOf at hm
  cases hcase : numberCase radix c with
  | some number =>
    obtain ⟨signed, base⟩ := number
    rw [hcase] at hm
    match args with
    | [] => cases hm
    | .string p :: args => cases hm
    | .word v :: args =>
      obtain ⟨⟨hb, hb'⟩, hresult⟩ := Option.ite_none_right_eq_some.mp hm
      rw [← hresult]
      cases signed with
      | true => simp [vaWord, printSigned_eq h hb hb']
      | false => simp [vaWord, printNum_eq h hb hb', unsignedText, signText]
  | none =>
    rw [hcase] at hm
    dsimp only at hm ⊢
    by_cases hbits : c = 0x62#8 ∨ c = 0x42#8
    · rw [if_pos hbits] at hm ⊢
      exact hm
    by_cases hchar : c = 0x63#8
    · rw [if_neg hbits, if_pos hchar] at hm ⊢
      match args with
      | [] => cases hm
      | .string p :: args => cases hm
      | .word v :: args => exact hm
    by_cases hstring : c = 0x73#8
    · rw [if_neg hbits, if_neg hchar, if_pos hstring] at hm ⊢
      match args with
      | [] => cases hm
      | .string p :: args =>
        obtain ⟨s, hs, hresult⟩ := Option.map_eq_some_iff.mp hm
        dsimp only
        rw [printString_eq h hs, Option.map_some, hresult]
      | .word v :: args =>
        obtain ⟨hzero, hresult⟩ := Option.ite_none_right_eq_some.mp hm
        have hnull : cstring [0#8] = some [] := rfl
        dsimp only
        rw [if_pos hzero, printString_eq h hnull, Option.map_some, hresult]
    by_cases hpointer : c = 0x70#8
    · rw [if_neg hbits, if_neg hchar, if_neg hstring, if_pos hpointer] at hm ⊢
      match args with
      | [] => cases hm
      | .string p :: args => cases hm
      | .word v :: args =>
        have hfits : Conv.Fits { t with padc := 0x30#8, length := 8 } := ⟨by norm_num, h.prec, .inl rfl⟩
        rw [vaWord, Option.bind_some, printNum_eq hfits (by decide) (by decide), Option.map_some]
        exact hm
    · rw [if_neg hbits, if_neg hchar, if_neg hstring, if_neg hpointer] at hm ⊢
      rw [if_neg hc]
      exact hm

end

end N7OS.Doprnt
