import Mathlib.Data.Nat.Digits.Defs
import Mathlib.Tactic.IntervalCases
import Mathlib.Tactic.Positivity
import N7OS.Lib.Strings

/-! # `atoi`

`lib/atoi.c` looks for a character that is no digit, computes the power of ten of the
first digit, and divides it down again digit by digit. The arithmetic of `int` is kept
modulo `2 ^ 32`, with a flag for the overflows on the way.
-/
namespace N7OS

def fits32 (x : ℤ) : Bool := decide (-2 ^ 31 ≤ x ∧ x < 2 ^ 31)

/-- What an `int` keeps of a result. -/
def wrap32 (x : ℤ) : ℤ := Int.bmod x (2 ^ 32)

/-- `char` is signed. -/
def isdigit (c : U8) : Bool := decide (48 ≤ c.toInt ∧ c.toInt ≤ 57)

/-- The locals, and whether an operation on them has overflowed. -/
structure Atoi where
  base : ℤ
  res : ℤ
  overflow : Bool
deriving DecidableEq

namespace Atoi

/-- `base *= 10`. -/
def scale (t : Atoi) : Atoi :=
  { t with base := wrap32 (t.base * 10), overflow := t.overflow || !fits32 (t.base * 10) }

/-- `res += ((int)nptr[i] - 48) * base; base /= 10`. -/
def accumulate (t : Atoi) (c : U8) : Atoi :=
  let product := (c.toInt - 48) * t.base
  let res := t.res + wrap32 product
  { base := t.base.tdiv 10
    res := wrap32 res
    overflow := t.overflow || !fits32 product || !fits32 res }

end Atoi

structure AtoiResult where
  value : ℤ
  overflow : Bool
deriving DecidableEq

/-- The first loop: are all characters digits? -/
def checkDigits : List U8 → Option Bool
  | [] => none
  | c :: nptr => if c = 0#8 then some true else if isdigit c then checkDigits nptr else some false

/-- `while (nptr[++i]) base *= 10`. -/
def baseLoop (t : Atoi) : List U8 → Option Atoi
  | [] => none
  | c :: nptr => if c = 0#8 then some t else baseLoop t.scale nptr

def sumLoop (t : Atoi) : List U8 → Option Atoi
  | [] => none
  | c :: nptr => if c = 0#8 then some t else sumLoop (t.accumulate c) nptr

def atoi (nptr : List U8) : Option AtoiResult :=
  match checkDigits nptr with
  | none => none
  | some false => some ⟨-1, false⟩
  | some true =>
    (baseLoop ⟨1, 0, false⟩ nptr.tail).bind fun t => (sumLoop t nptr).map fun t => ⟨t.res, t.overflow⟩

def digitValue (c : U8) : ℕ := c.toNat - 48

/-- The number that the digits denote. -/
def numeral (s : List U8) : ℕ := Nat.ofDigits 10 (s.map digitValue).reverse

def IsNumeral (s : List U8) : Prop := s ≠ [] ∧ ∀ c ∈ s, isdigit c = true

/-- The number denoted is returned without an overflow, and `-1` if there is no number. -/
def Evaluates (s : List U8) : Prop :=
  ∀ rest, (IsNumeral s → numeral s < 2 ^ 31 → atoi (s ++ 0#8 :: rest) = some ⟨numeral s, false⟩) ∧
    ((∃ c ∈ s, isdigit c = false) → atoi (s ++ 0#8 :: rest) = some ⟨-1, false⟩)

section
variable {s rest : List U8} {t : Atoi} {c : U8}

theorem numeral_cons (c : U8) (s : List U8) : numeral (c :: s) = digitValue c * 10 ^ s.length + numeral s := by
  simp only [numeral, List.map_cons, List.reverse_cons, Nat.ofDigits_append, Nat.ofDigits_singleton,
    List.length_reverse, List.length_map]
  ring

theorem toInt_of_isdigit (h : isdigit c = true) : c.toInt = 48 + digitValue c ∧ digitValue c < 10 := by
  obtain ⟨hlo, hhi⟩ := of_decide_eq_true h
  have hnat : c.toInt = c.toNat := by
    rw [BitVec.toInt_eq_toNat_cond] at hlo hhi ⊢
    split at hlo
    · next hsmall => rw [if_pos hsmall]
    · have hlt := c.isLt
      omega
  unfold digitValue
  omega

theorem fits32_of {x : ℤ} (h : 0 ≤ x) (hx : x < 2 ^ 31) : fits32 x = true := by
  simp only [fits32, decide_eq_true_eq]
  omega

theorem wrap32_of {x : ℤ} (h : 0 ≤ x) (hx : x < 2 ^ 31) : wrap32 x = x := by
  apply Int.bmod_eq_of_le_mul_two
  · omega
  · omega

theorem numeral_lt (h : ∀ c ∈ s, isdigit c = true) : numeral s < 10 ^ s.length := by
  induction s with
  | nil => exact Nat.one_pos
  | cons c s ih =>
    obtain ⟨hc, hs⟩ := List.forall_mem_cons.mp h
    have hrest := ih hs
    have hdigit : digitValue c * 10 ^ s.length ≤ 9 * 10 ^ s.length :=
      Nat.mul_le_mul_right _ (Nat.le_of_lt_succ (toInt_of_isdigit hc).2)
    rw [numeral_cons, List.length_cons, pow_succ]
    omega

/-! ## The loops on a string -/

theorem checkDigits_string (h : 0#8 ∉ s) (rest : List U8) :
    checkDigits (s ++ 0#8 :: rest) = some (s.all isdigit) := by
  induction s with
  | nil => rfl
  | cons c s ih =>
    obtain ⟨hc, hs⟩ := List.ne_and_not_mem_of_not_mem_cons h
    rw [List.cons_append, checkDigits, if_neg (Ne.symm hc), ih hs, List.all_cons]
    cases isdigit c <;> rfl

theorem baseLoop_string (h : 0#8 ∉ s) (rest : List U8) (t : Atoi) :
    baseLoop t (s ++ 0#8 :: rest) = some (Atoi.scale^[s.length] t) := by
  induction s generalizing t with
  | nil => rfl
  | cons c s ih =>
    obtain ⟨hc, hs⟩ := List.ne_and_not_mem_of_not_mem_cons h
    rw [List.cons_append, baseLoop, if_neg (Ne.symm hc)]
    exact ih hs t.scale

theorem sumLoop_string (h : 0#8 ∉ s) (rest : List U8) (t : Atoi) :
    sumLoop t (s ++ 0#8 :: rest) = some (s.foldl Atoi.accumulate t) := by
  induction s generalizing t with
  | nil => rfl
  | cons c s ih =>
    obtain ⟨hc, hs⟩ := List.ne_and_not_mem_of_not_mem_cons h
    rw [List.cons_append, sumLoop, if_neg (Ne.symm hc)]
    exact ih hs (t.accumulate c)

theorem baseLoop_res (t : Atoi) (s : List U8) : (baseLoop t s).map (·.res) = if 0#8 ∈ s then some t.res else none := by
  induction s generalizing t with
  | nil => rfl
  | cons c s ih =>
    rw [baseLoop]
    by_cases hc : c = 0#8
    · simp [hc]
    · rw [if_neg hc, ih t.scale]
      simp [Ne.symm hc, Atoi.scale]

/-- The empty string has the value zero when there is another zero after its terminator. -/
theorem atoi_empty (rest : List U8) :
    (atoi (0#8 :: rest)).map (·.value) = if 0#8 ∈ rest then some 0 else none := by
  have hbase := baseLoop_res ⟨1, 0, false⟩ rest
  simp only [atoi, checkDigits, if_pos, List.tail_cons, sumLoop]
  rw [← hbase]
  cases baseLoop ⟨1, 0, false⟩ rest <;> rfl

/-- A string that is not empty is read up to its terminator only. -/
theorem atoi_string (h : 0#8 ∉ s) (hne : s ≠ []) (rest : List U8) :
    atoi (s ++ 0#8 :: rest) =
      if s.all isdigit then
        let t := s.foldl Atoi.accumulate (Atoi.scale^[s.length - 1] ⟨1, 0, false⟩)
        some ⟨t.res, t.overflow⟩
      else some ⟨-1, false⟩ := by
  obtain ⟨c, s', rfl⟩ := List.exists_cons_of_ne_nil hne
  have hs' : 0#8 ∉ s' := fun hmem => h (List.mem_cons_of_mem c hmem)
  rw [atoi, checkDigits_string h]
  cases hall : (c :: s').all isdigit with
  | false => rfl
  | true =>
    have hbase := baseLoop_string hs' rest ⟨1, 0, false⟩
    have hsum := sumLoop_string h rest (Atoi.scale^[s'.length] ⟨1, 0, false⟩)
    simp only [List.cons_append, List.tail_cons] at hsum ⊢
    rw [hbase, Option.bind_some, hsum]
    rfl

/-! ## The arithmetic -/

theorem scale_iterate_overflow {n : ℕ} (h : t.overflow = true) : (Atoi.scale^[n] t).overflow = true := by
  induction n generalizing t with
  | zero => exact h
  | succ n ih =>
    apply ih
    simp [Atoi.scale, h]

/-- Nine multiplications by ten are exact, and the tenth overflows. -/
theorem scale_iterate (n : ℕ) :
    (n ≤ 9 → Atoi.scale^[n] ⟨1, 0, false⟩ = ⟨10 ^ n, 0, false⟩) ∧
      (10 ≤ n → (Atoi.scale^[n] ⟨1, 0, false⟩).overflow = true) := by
  constructor
  · intro hn
    interval_cases n <;> rfl
  · intro hn
    obtain ⟨k, rfl⟩ := Nat.exists_eq_add_of_le' hn
    rw [Function.iterate_add_apply]
    exact scale_iterate_overflow rfl

theorem accumulate_overflow (h : t.overflow = true) (s : List U8) : (s.foldl Atoi.accumulate t).overflow = true := by
  induction s generalizing t with
  | nil => exact h
  | cons c s ih =>
    apply ih
    simp [Atoi.accumulate, h]

/-- One digit, when its place and the result fit. -/
theorem accumulate_exact {n r : ℕ} {o : Bool} (hc : isdigit c = true) (hfit : r + digitValue c * 10 ^ n < 2 ^ 31) :
    Atoi.accumulate ⟨10 ^ n, r, o⟩ c = ⟨((10 ^ n / 10 : ℕ) : ℤ), ((r + digitValue c * 10 ^ n : ℕ) : ℤ), o⟩ := by
  obtain ⟨hvalue, -⟩ := toInt_of_isdigit hc
  have hproduct : (c.toInt - 48) * (10 ^ n : ℤ) = ((digitValue c * 10 ^ n : ℕ) : ℤ) := by
    rw [hvalue]
    push_cast
    ring
  have hwrap : wrap32 ((digitValue c * 10 ^ n : ℕ) : ℤ) = ((digitValue c * 10 ^ n : ℕ) : ℤ) :=
    wrap32_of (by omega) (by omega)
  have hsum : (r : ℤ) + ((digitValue c * 10 ^ n : ℕ) : ℤ) = ((r + digitValue c * 10 ^ n : ℕ) : ℤ) := by
    push_cast
    rfl
  have hdiv : (10 ^ n : ℤ).tdiv 10 = ((10 ^ n / 10 : ℕ) : ℤ) := by
    rw [Int.tdiv_eq_ediv_of_nonneg (by positivity)]
    push_cast
    rfl
  simp only [Atoi.accumulate, hproduct, hwrap, hsum, hdiv]
  rw [wrap32_of (by omega) (by omega), fits32_of (by omega) (by omega), fits32_of (by omega) (by omega)]
  simp

/-- The loop invariant: `base` is the power of ten of the next digit. -/
theorem accumulate_numeral (hdigits : ∀ c ∈ s, isdigit c = true) {r : ℕ} (hfit : r + numeral s < 2 ^ 31) :
    let t := s.foldl Atoi.accumulate ⟨((10 ^ s.length / 10 : ℕ) : ℤ), r, false⟩
    t.res = ((r + numeral s : ℕ) : ℤ) ∧ t.overflow = false := by
  induction s generalizing r with
  | nil => simp [numeral]
  | cons c s ih =>
    obtain ⟨hc, hs⟩ := List.forall_mem_cons.mp hdigits
    rw [numeral_cons, ← Nat.add_assoc] at hfit ⊢
    have hbase : 10 ^ (c :: s).length / 10 = 10 ^ s.length := by
      rw [List.length_cons, pow_succ, Nat.mul_div_cancel _ (by decide)]
    have hstep := accumulate_exact (o := false) hc (Nat.lt_of_le_of_lt (Nat.le_add_right _ _) hfit)
    rw [List.foldl_cons, hbase]
    push_cast at hstep ⊢
    rw [hstep]
    exact_mod_cast ih hs hfit

theorem digit_ne_zero (h : ∀ c ∈ s, isdigit c = true) : 0#8 ∉ s := fun hmem => by
  have hzero := h _ hmem
  revert hzero
  decide

/-- A numeral is evaluated without an overflow when it has at most ten characters. -/
theorem atoi_numeral (h : IsNumeral s) (hfit : numeral s < 2 ^ 31) (rest : List U8) :
    atoi (s ++ 0#8 :: rest) = some ⟨numeral s, false⟩ ↔ s.length ≤ 10 := by
  obtain ⟨hne, hdigits⟩ := h
  have hall : s.all isdigit = true := List.all_eq_true.mpr hdigits
  have hpos : 0 < s.length := List.length_pos_of_ne_nil hne
  rw [atoi_string (digit_ne_zero hdigits) hne, if_pos hall]
  by_cases hlength : s.length ≤ 10
  · have hbase : (10 : ℤ) ^ (s.length - 1) = ((10 ^ s.length / 10 : ℕ) : ℤ) := by
      rw [← pow_one 10, ← pow_mul, one_mul, Nat.pow_div hpos (by decide)]
      push_cast
      rfl
    obtain ⟨hres, hover⟩ := accumulate_numeral (r := 0) hdigits (by simpa using hfit)
    rw [Nat.zero_add] at hres
    rw [(scale_iterate _).1 (by omega), hbase]
    refine iff_of_true ?_ hlength
    exact congrArg some (congrArg₂ AtoiResult.mk hres hover)
  · have hover := accumulate_overflow ((scale_iterate _).2 (show 10 ≤ s.length - 1 by omega)) s
    refine iff_of_false ?_ hlength
    simp [hover]

end

/-- Every numeral of at most ten characters is evaluated, and from eleven characters on `base` overflows. -/
theorem atoi_evaluates_iff {s : List U8} (h : 0#8 ∉ s) :
    Evaluates s ↔ (IsNumeral s → numeral s < 2 ^ 31 → s.length ≤ 10) := by
  constructor
  · intro heval hnumeral hfit
    exact (atoi_numeral hnumeral hfit []).mp ((heval []).1 hnumeral hfit)
  · intro hshort rest
    constructor
    · intro hnumeral hfit
      exact (atoi_numeral hnumeral hfit rest).mpr (hshort hnumeral hfit)
    · rintro ⟨c, hc, hdigit⟩
      have hall : ¬s.all isdigit = true := by
        intro hall
        have htrue := List.all_eq_true.mp hall c hc
        simp [hdigit] at htrue
      rw [atoi_string h (List.ne_nil_of_mem hc), if_neg hall]

/-- Forty-two, with eight and with nine leading zeros. -/
theorem atoi_evaluates_iff_zeros :
    Evaluates (List.replicate 8 0x30#8 ++ [0x34#8, 0x32#8]) ∧
      ¬Evaluates (List.replicate 9 0x30#8 ++ [0x34#8, 0x32#8]) := by
  constructor
  · exact (atoi_evaluates_iff (by decide)).mpr (fun _ _ => by decide)
  · refine mt (atoi_evaluates_iff (by decide)).mp ?_
    intro hshort
    have hlength := hshort ⟨by decide, by decide⟩ (by decide)
    exact absurd hlength (by decide)

/-- One, with ten leading zeros: `base` overflows, and the result is zero. -/
theorem atoi_leading_zeros :
    let s := List.replicate 10 0x30#8 ++ [0x31#8]
    IsNumeral s ∧ numeral s = 1 ∧ atoi (s ++ [0#8]) = some ⟨0, true⟩ ∧ ¬Evaluates s := by
  intro s
  have hnumeral : IsNumeral s := ⟨by decide, by decide⟩
  have hvalue : numeral s = 1 := by decide
  have hresult : atoi (s ++ [0#8]) = some ⟨0, true⟩ := by decide +kernel
  refine ⟨hnumeral, hvalue, hresult, ?_⟩
  intro heval
  have hone := (heval []).1 hnumeral (hvalue.trans_lt (by norm_num))
  cases hresult.symm.trans hone

end N7OS
