import N7OS.Foundation.QuotientEstimate
import N7OS.Machine.WideArithmetic

/-! # `do_div64`

The division of `lib/div64.c`, for a processor that divides 64 bits by 32. A
divisor of more than 32 bits is cut to its 32 leading bits and rounded up, and
the quotient found with it is corrected in a loop.
-/
namespace N7OS
open QuotientEstimate

def rshift64 (x1 x0 n : U32) : U32 × U32 :=
  let x0 := shrd x1 x0 n
  let x1 := shr x1 n
  if testb32 n then (0#32, x1) else (x1, x0)

def rshift64_32 (x1 x0 n : U32) : U32 :=
  let x0 := shrd x1 x0 n
  if testb32 n then x1 else x0

/-- The loop that raises the estimate, while there is fuel. -/
def correct : ℕ → U64 → U32 → U64 → Option (U32 × U64)
  | 0, _, _, _ => none
  | fuel + 1, y, x0, r => if y ≤ r then correct fuel y (x0 + 1#32) (r - y) else some (x0, r)

/-- How a call ends: with the quotient and what `rem` points to, in a divide
error, or not yet. -/
inductive Division
  | returned (quotient : U64) (rem : Option U64)
  | divideError
  | running
deriving DecidableEq

/-- `rem` is what the third argument points to, if it is not null. -/
def doDiv64 (fuel : ℕ) (x y : U64) (rem : Option U64) : Division :=
  let y1 := (y >>> 32).setWidth 32
  let y0 := (y &&& 0xFFFFFFFF#64).setWidth 32
  let x1 := (x >>> 32).setWidth 32
  let x0 := (x &&& 0xFFFFFFFF#64).setWidth 32
  if y1 ≠ 0#32 then
    let l := bsr y1 + 1#32
    let y0 := rshift64_32 y1 y0 l
    let x' := rshift64 x1 x0 l
    match divl x'.1 x'.2 (y0 + 1#32) with
    | none => .divideError
    | some (_, x0) =>
      match correct fuel y x0 (x - y * x0.setWidth 64) with
      | none => .running
      | some (x0, r) => .returned (x0.setWidth 64) (rem.map (fun _ => r))
  else if x1 < y0 then
    match divl x1 x0 y0 with
    | none => .divideError
    | some (x1, x0) => .returned (x0.setWidth 64) (rem.map (fun _ => x1.setWidth 64))
  else if y0 ≠ 0#32 then
    match divl 0#32 x1 y0 with
    | none => .divideError
    | some (x2, x1) =>
      match divl x2 x0 y0 with
      | none => .divideError
      | some (x2, x0) =>
        .returned ((x1.setWidth 64 <<< 32) + x0.setWidth 64) (rem.map (fun _ => x2.setWidth 64))
  else .returned 0#64 (rem.map (fun _ => x))

/-- One of the `2 ^ k` numbers just below `2 ^ (32 + k)`, the 32 leading bits of which
are ones. -/
def AllOnesAbove (y : U64) : Prop :=
  ∃ k, 1 ≤ k ∧ k ≤ 32 ∧ 2 ^ (32 + k) - 2 ^ k ≤ y.toNat ∧ y.toNat < 2 ^ (32 + k)

section
variable {x y r : U64} {x1 x0 n : U32} {fuel k : ℕ}

theorem toNat_high (x : U64) : ((x >>> 32).setWidth 32 : U32).toNat = x.toNat / 2 ^ 32 := by
  have hx := x.isLt
  rw [BitVec.toNat_setWidth, BitVec.toNat_ushiftRight, Nat.shiftRight_eq_div_pow]
  omega

theorem toNat_low (x : U64) : ((x &&& 0xFFFFFFFF#64).setWidth 32 : U32).toNat = x.toNat % 2 ^ 32 := by
  have hmask : (0xFFFFFFFF#64).toNat = 2 ^ 32 - 1 := rfl
  rw [BitVec.toNat_setWidth, BitVec.toNat_and, hmask, Nat.and_two_pow_sub_one_eq_mod]
  omega

/-- The shift of a pair by up to 32 places, as a whole. -/
theorem rshift64_pair (x1 x0 : U32) (h : n.toNat ≤ 32) :
    (rshift64 x1 x0 n).1.toNat * 2 ^ 32 + (rshift64 x1 x0 n).2.toNat =
      (x1.toNat * 2 ^ 32 + x0.toNat) / 2 ^ n.toNat := by
  rcases Nat.lt_or_eq_of_le h with hlt | heq
  · have hfst : x1.toNat / 2 ^ n.toNat = (x1.toNat * 2 ^ 32 + x0.toNat) / 2 ^ n.toNat / 2 ^ 32 := by
      have hx0 := x0.isLt
      rw [Nat.div_div_eq_div_mul, Nat.mul_comm (2 ^ n.toNat), ← Nat.div_div_eq_div_mul]
      congr 1
      omega
    simp only [rshift64, testb32_of_lt hlt, Bool.false_eq_true, if_false, toNat_shr x1 hlt, toNat_shrd x1 x0 hlt]
    omega
  · have hn : n = 32#32 := BitVec.eq_of_toNat_eq heq
    subst hn
    have hx0 := x0.isLt
    simp [rshift64, testb32, shr]
    omega

theorem rshift64_32_eq (x1 x0 : U32) (h : n.toNat ≤ 32) (hfit : x1.toNat < 2 ^ n.toNat) :
    (rshift64_32 x1 x0 n).toNat = (x1.toNat * 2 ^ 32 + x0.toNat) / 2 ^ n.toNat := by
  rcases Nat.lt_or_eq_of_le h with hlt | heq
  · have hx0 := x0.isLt
    have hquot : (x1.toNat * 2 ^ 32 + x0.toNat) / 2 ^ n.toNat < 2 ^ 32 := by
      rw [Nat.div_lt_iff_lt_mul (Nat.two_pow_pos _)]
      nlinarith
    simp only [rshift64_32, testb32_of_lt hlt, Bool.false_eq_true, if_false, toNat_shrd x1 x0 hlt]
    exact Nat.mod_eq_of_lt hquot
  · have hn : n = 32#32 := BitVec.eq_of_toNat_eq heq
    subst hn
    have hx0 := x0.isLt
    simp [rshift64_32, testb32]
    omega

/-- The loop ends as soon as it may run once more often than the divisor fits in
what is left. -/
theorem correct_eq (hy : 0 < y.toNat) (x0 : U32) (hr : r.toNat < k * y.toNat) (hfuel : k ≤ fuel) :
    correct fuel y x0 r = some (x0 + BitVec.ofNat 32 (r.toNat / y.toNat), r % y) := by
  induction fuel generalizing r x0 k with
  | zero =>
    have hk : k = 0 := by omega
    simp [hk] at hr
  | succ fuel ih =>
    rw [correct]
    split
    · next hle =>
      have hle : y.toNat ≤ r.toNat := hle
      have hsub : (r - y).toNat = r.toNat - y.toNat := BitVec.toNat_sub_of_le hle
      obtain ⟨k, rfl⟩ : ∃ j, k = j + 1 := ⟨k - 1, by cases k <;> simp_all⟩
      have hleft : (r - y).toNat < k * y.toNat := by
        rw [Nat.add_mul] at hr
        omega
      have hquot : r.toNat / y.toNat = (r.toNat - y.toNat) / y.toNat + 1 := Nat.div_eq_sub_div hy hle
      have hrem : (r - y) % y = r % y := by
        apply BitVec.eq_of_toNat_eq
        rw [BitVec.toNat_umod, BitVec.toNat_umod, hsub, ← Nat.mod_eq_sub_mod hle]
      rw [ih (x0 + 1#32) hleft (by omega), hsub, hrem, hquot]
      congr 2
      apply BitVec.eq_of_toNat_eq
      simp only [BitVec.toNat_add, BitVec.toNat_ofNat]
      omega
    · next hlt =>
      have hlt : r.toNat < y.toNat := Nat.lt_of_not_le hlt
      have hmod : r % y = r := by
        apply BitVec.eq_of_toNat_eq
        rw [BitVec.toNat_umod, Nat.mod_eq_of_lt hlt]
      simp [Nat.div_eq_of_lt hlt, hmod]

/-- The place of the highest one bit of a divisor of more than 32 bits. -/
def places (y : U64) : ℕ := (y.toNat / 2 ^ 32).log2 + 1

theorem places_bounds (h : y.toNat / 2 ^ 32 ≠ 0) :
    1 ≤ places y ∧ places y ≤ 32 ∧ y.toNat / 2 ^ 32 < 2 ^ places y ∧ 2 ^ 31 ≤ y.toNat / 2 ^ places y ∧
      y.toNat / 2 ^ places y < 2 ^ 32 := by
  have hy := y.isLt
  have hlow : 2 ^ (y.toNat / 2 ^ 32).log2 ≤ y.toNat / 2 ^ 32 := Nat.log2_self_le h
  have hhigh : y.toNat / 2 ^ 32 < 2 ^ places y := Nat.lt_log2_self
  have hplaces : places y < 33 := by
    have h32 : (y.toNat / 2 ^ 32).log2 < 32 := (Nat.log2_lt h).mpr (by omega)
    unfold places
    omega
  refine ⟨by unfold places; omega, by omega, hhigh, ?_, ?_⟩
  · rw [Nat.le_div_iff_mul_le (Nat.two_pow_pos _), places, Nat.pow_succ]
    omega
  · rw [Nat.div_lt_iff_lt_mul (Nat.two_pow_pos _)]
    omega

theorem allOnesAbove_iff (y : U64) :
    AllOnesAbove y ↔ y.toNat / 2 ^ 32 ≠ 0 ∧ y.toNat / 2 ^ places y = 2 ^ 32 - 1 := by
  have hsplit : ∀ k, 2 ^ (32 + k) - 2 ^ k = (2 ^ 32 - 1) * 2 ^ k := fun k => by
    rw [Nat.pow_add, Nat.sub_mul, Nat.one_mul]
  have hiff : ∀ k, 2 ^ (32 + k) - 2 ^ k ≤ y.toNat ∧ y.toNat < 2 ^ (32 + k) ↔ y.toNat / 2 ^ k = 2 ^ 32 - 1 := by
    intro k
    rw [hsplit, ← Nat.le_div_iff_mul_le (Nat.two_pow_pos k), Nat.pow_add, ← Nat.div_lt_iff_lt_mul (Nat.two_pow_pos k)]
    omega
  constructor
  · rintro ⟨k, h1, h32, hlow, hhigh⟩
    have hones := (hiff k).mp ⟨hlow, hhigh⟩
    obtain ⟨j, rfl⟩ : ∃ j, k = j + 1 := ⟨k - 1, by omega⟩
    have hge : 2 ^ j ≤ y.toNat / 2 ^ 32 := by
      rw [Nat.le_div_iff_mul_le (by omega)]
      rw [hsplit, Nat.pow_succ] at hlow
      omega
    have hne : y.toNat / 2 ^ 32 ≠ 0 := by
      have hpos := Nat.two_pow_pos j
      omega
    have hlog : (y.toNat / 2 ^ 32).log2 = j := by
      rw [Nat.log2_eq_iff hne]
      rw [Nat.pow_add] at hhigh
      exact ⟨hge, by omega⟩
    exact ⟨hne, by rw [places, hlog, hones]⟩
  · rintro ⟨hy, hones⟩
    have hb := places_bounds hy
    exact ⟨places y, hb.1, hb.2.1, (hiff _).mpr hones⟩

theorem low_high (x : U64) : x.toNat / 2 ^ 32 * 2 ^ 32 + x.toNat % 2 ^ 32 = x.toNat := by
  omega

/-- The correction of an estimate ends with the quotient and the remainder. -/
theorem correct_estimate {q : U32} (hy : 0 < y.toNat) (hle : y.toNat * q.toNat ≤ x.toNat)
    (hlt : x.toNat < y.toNat * (q.toNat + 3)) (hwide : 2 ^ 32 ≤ y.toNat) (hfuel : 3 ≤ fuel) :
    ∃ x0, correct fuel y q (x - y * q.setWidth 64) = some (x0, x % y) ∧ x0.setWidth 64 = x / y := by
  have hx := x.isLt
  have hq : (q.setWidth 64).toNat = q.toNat := by
    rw [BitVec.toNat_setWidth]
    omega
  have hprod : (y * q.setWidth 64).toNat = y.toNat * q.toNat := by
    rw [BitVec.toNat_mul, hq, Nat.mod_eq_of_lt (by omega)]
  have hr : (x - y * q.setWidth 64).toNat = x.toNat - y.toNat * q.toNat := by
    rw [BitVec.toNat_sub_of_le (by rw [BitVec.le_def, hprod]; exact hle), hprod]
  have hleft : (x - y * q.setWidth 64).toNat < 3 * y.toNat := by
    rw [hr]
    have := Nat.mul_add y.toNat q.toNat 3
    omega
  have hquot : (x.toNat - y.toNat * q.toNat) / y.toNat = x.toNat / y.toNat - q.toNat := Nat.sub_mul_div _ _ _
  have hqle : q.toNat ≤ x.toNat / y.toNat := by
    rw [Nat.le_div_iff_mul_le hy, Nat.mul_comm]
    exact hle
  have hfits : x.toNat / y.toNat < 2 ^ 32 := by
    rw [Nat.div_lt_iff_lt_mul hy]
    omega
  have hrem : (x - y * q.setWidth 64) % y = x % y := by
    apply BitVec.eq_of_toNat_eq
    rw [BitVec.toNat_umod, BitVec.toNat_umod, hr, Nat.sub_mul_mod hle]
  refine ⟨q + BitVec.ofNat 32 (x.toNat / y.toNat - q.toNat), ?_, ?_⟩
  · rw [correct_eq hy q hleft hfuel, hrem, hr, hquot]
  · apply BitVec.eq_of_toNat_eq
    simp only [BitVec.toNat_setWidth, BitVec.toNat_add, BitVec.toNat_ofNat, BitVec.toNat_udiv]
    omega

/-- The operands of the estimating division. -/
theorem truncated_operands (x : U64) (hy : y.toNat / 2 ^ 32 ≠ 0) :
    let l := bsr ((y >>> 32).setWidth 32) + 1#32
    let x' := rshift64 ((x >>> 32).setWidth 32) ((x &&& 0xFFFFFFFF#64).setWidth 32) l
    (rshift64_32 ((y >>> 32).setWidth 32) ((y &&& 0xFFFFFFFF#64).setWidth 32) l).toNat = y.toNat / 2 ^ places y ∧
      x'.1.toNat * 2 ^ 32 + x'.2.toNat = x.toNat / 2 ^ places y := by
  intro l x'
  obtain ⟨h1, h32, hfit, -, -⟩ := places_bounds hy
  have hl : l.toNat = places y := by
    simp only [l, bsr, BitVec.toNat_add, BitVec.toNat_ofNat, toNat_high, places] at h32 ⊢
    omega
  constructor
  · rw [rshift64_32_eq _ _ (by omega) (by rw [hl, toNat_high]; exact hfit), toNat_high, toNat_low, hl, low_high]
  · rw [rshift64_pair _ _ (by omega), toNat_high, toNat_low, hl, low_high]

/-- With a divisor of more than 32 bits. -/
theorem doDiv64_wide (x : U64) (rem : Option U64) (hy : y.toNat / 2 ^ 32 ≠ 0) (hfuel : 3 ≤ fuel) :
    doDiv64 fuel x y rem =
      if y.toNat / 2 ^ places y = 2 ^ 32 - 1 then .divideError
      else .returned (x / y) (rem.map (fun _ => x % y)) := by
  obtain ⟨h1, h32, -, hlow, hhigh⟩ := places_bounds hy
  obtain ⟨hdivisor, hdividend⟩ := truncated_operands x hy
  have hy1 : (y >>> 32).setWidth 32 ≠ 0#32 := by
    intro h
    apply hy
    rw [← toNat_high, h]
    rfl
  have hx := x.isLt
  have hscaled : x.toNat / 2 ^ places y < 2 ^ 63 := by
    rw [Nat.div_lt_iff_lt_mul (Nat.two_pow_pos _)]
    have : 2 ^ 1 ≤ 2 ^ places y := Nat.pow_le_pow_right (by omega) h1
    omega
  rw [doDiv64, if_pos hy1]
  dsimp only
  generalize rshift64_32 _ _ _ = y0 at hdivisor
  generalize rshift64 _ _ _ = x' at hdividend
  by_cases hones : y.toNat / 2 ^ places y = 2 ^ 32 - 1
  · have hzero : (y0 + 1#32).toNat = 0 := by
      rw [BitVec.toNat_add, hdivisor, hones]
      rfl
    have hfault : divl x'.1 x'.2 (y0 + 1#32) = none := divl_eq_none_iff.mpr (Or.inl hzero)
    simp only [hfault, hones, if_true]
  · have hup : (y0 + 1#32).toNat = y.toNat / 2 ^ places y + 1 := by
      rw [toNat_add_of_lt, hdivisor]
      · rfl
      · simp only [BitVec.reduceToNat]
        omega
    have hx1 : x'.1.toNat < (y0 + 1#32).toNat := by
      omega
    have hestimate : (x'.1.toNat * 2 ^ 32 + x'.2.toNat) / (y0 + 1#32).toNat =
        estimate x.toNat y.toNat (2 ^ places y) := by
      rw [hdividend, hup, estimate]
    have hsmall : x.toNat / 2 ^ places y + 1 ≤ 2 * (y.toNat / 2 ^ places y) * (y.toNat / 2 ^ places y + 1) := by
      nlinarith
    have hle := estimate_mul_le (Nat.two_pow_pos (places y)) x.toNat y.toNat
    have hlt := lt_estimate_add (Nat.two_pow_pos (places y)) (by omega) hsmall
    have hfits : estimate x.toNat y.toNat (2 ^ places y) < 2 ^ 32 := by
      rw [← hestimate, Nat.div_lt_iff_lt_mul (by omega)]
      have := x'.2.isLt
      nlinarith
    have hq : (BitVec.ofNat 32 (estimate x.toNat y.toNat (2 ^ places y))).toNat =
        estimate x.toNat y.toNat (2 ^ places y) :=
      toNat_ofNat_of_lt hfits
    rw [← hq] at hle hlt
    obtain ⟨x0, hcorrect, hquot⟩ := correct_estimate (by omega) hle hlt (by omega) hfuel
    rw [divl_of_lt hx1, hestimate, if_neg hones]
    simp only [hcorrect, hquot]

/-- Division of two digits, the upper one first. -/
theorem two_digits (h l b : ℕ) {d : ℕ} (hd : 0 < d) :
    (h * b + l) / d = h / d * b + (h % d * b + l) / d ∧ (h * b + l) % d = (h % d * b + l) % d := by
  have hsplit : h * b + l = d * (h / d * b) + (h % d * b + l) := by
    calc h * b + l = (d * (h / d) + h % d) * b + l := by rw [Nat.div_add_mod]
      _ = d * (h / d * b) + (h % d * b + l) := by ring
  constructor
  · rw [hsplit, Nat.mul_add_div hd]
  · rw [hsplit, Nat.mul_add_mod]

theorem ofNat_setWidth {n : ℕ} (h : n < 2 ^ 32) : ((BitVec.ofNat 32 n).setWidth 64).toNat = n := by
  rw [BitVec.toNat_setWidth, toNat_ofNat_of_lt h]
  omega

/-- The quotient and the remainder of one `divl`, read as 64 bits. -/
theorem divl_whole {x1 x0 y0 : U32} (hx : x1.toNat * 2 ^ 32 + x0.toNat = x.toNat) (hy : y0.toNat = y.toNat)
    (hlt : x1.toNat < y0.toNat) :
    ∃ rem quot, divl x1 x0 y0 = some (rem, quot) ∧ quot.setWidth 64 = x / y ∧ rem.setWidth 64 = x % y := by
  have hx0 := x0.isLt
  have hpos : 0 < y.toNat := by omega
  have hquot : x.toNat / y.toNat < 2 ^ 32 := by
    rw [Nat.div_lt_iff_lt_mul hpos]
    omega
  have hrem : x.toNat % y.toNat < 2 ^ 32 := by
    have hmod := Nat.mod_lt x.toNat hpos
    have hy0 := y0.isLt
    omega
  refine ⟨_, _, divl_of_lt hlt, ?_, ?_⟩
  · apply BitVec.eq_of_toNat_eq
    rw [hx, hy, ofNat_setWidth hquot, BitVec.toNat_udiv]
  · apply BitVec.eq_of_toNat_eq
    rw [hx, hy, ofNat_setWidth hrem, BitVec.toNat_umod]

theorem shifted_add {a b : ℕ} (h : a * 2 ^ 32 + b < 2 ^ 64) :
    (a * 2 ^ 32 % 2 ^ 64 + b) % 2 ^ 64 = a * 2 ^ 32 + b := by
  omega

/-- The upper digit divided first, its remainder before the lower digit next. -/
theorem divl_twice {x1 x0 y0 : U32} (hx : x1.toNat * 2 ^ 32 + x0.toNat = x.toNat) (hy : y0.toNat = y.toNat)
    (hpos : 0 < y.toNat) :
    ∃ x2 quot1 rem quot0, divl 0#32 x1 y0 = some (x2, quot1) ∧ divl x2 x0 y0 = some (rem, quot0) ∧
      (quot1.setWidth 64 <<< 32) + quot0.setWidth 64 = x / y ∧ rem.setWidth 64 = x % y := by
  have hx0 := x0.isLt
  have hx1 := x1.isLt
  have hy0 := y0.isLt
  have hx2 : x1.toNat % y.toNat < y.toNat := Nat.mod_lt _ hpos
  have hquot1 : x1.toNat / y.toNat < 2 ^ 32 := lt_of_le_of_lt (Nat.div_le_self _ _) hx1
  have hquot0 : (x1.toNat % y.toNat * 2 ^ 32 + x0.toNat) / y.toNat < 2 ^ 32 := by
    rw [Nat.div_lt_iff_lt_mul hpos]
    omega
  have hrem : x.toNat % y.toNat < 2 ^ 32 := by
    have hmod := Nat.mod_lt x.toNat hpos
    omega
  obtain ⟨hquot, hmod⟩ := two_digits x1.toNat x0.toNat (2 ^ 32) hpos
  rw [hx] at hquot hmod
  have hupper : (0#32).toNat * 2 ^ 32 + x1.toNat = x1.toNat := by
    simp
  have hfirst : divl 0#32 x1 y0 =
      some (BitVec.ofNat 32 (x1.toNat % y.toNat), BitVec.ofNat 32 (x1.toNat / y.toNat)) := by
    rw [divl_of_lt (by rw [hy]; exact hpos), hupper, hy]
  have hmiddle : (BitVec.ofNat 32 (x1.toNat % y.toNat)).toNat = x1.toNat % y.toNat :=
    toNat_ofNat_of_lt (by omega)
  refine ⟨_, _, _, _, hfirst, divl_of_lt (by rw [hmiddle, hy]; exact hx2), ?_, ?_⟩
  · apply BitVec.eq_of_toNat_eq
    rw [BitVec.toNat_add, BitVec.toNat_shiftLeft, Nat.shiftLeft_eq, hmiddle, hy, ofNat_setWidth hquot1,
      ofNat_setWidth hquot0, BitVec.toNat_udiv, hquot]
    have hlt := (x / y).isLt
    rw [BitVec.toNat_udiv, hquot] at hlt
    exact shifted_add hlt
  · apply BitVec.eq_of_toNat_eq
    rw [hmiddle, hy, ← hmod, ofNat_setWidth hrem, BitVec.toNat_umod]

/-- With a divisor of up to 32 bits. -/
theorem doDiv64_narrow (fuel : ℕ) (x : U64) (rem : Option U64) (hpos : 0 < y.toNat) (hy : y.toNat / 2 ^ 32 = 0) :
    doDiv64 fuel x y rem = .returned (x / y) (rem.map (fun _ => x % y)) := by
  have hy1 : (y >>> 32).setWidth 32 = 0#32 := BitVec.eq_of_toNat_eq (by rw [toNat_high, hy]; rfl)
  have hy0 : ((y &&& 0xFFFFFFFF#64).setWidth 32 : U32).toNat = y.toNat := by
    rw [toNat_low]
    omega
  have hx : ((x >>> 32).setWidth 32 : U32).toNat * 2 ^ 32 + ((x &&& 0xFFFFFFFF#64).setWidth 32 : U32).toNat =
      x.toNat := by
    rw [toNat_high, toNat_low, low_high]
  rw [doDiv64, if_neg (not_not.mpr hy1)]
  generalize (x >>> 32).setWidth 32 = x1 at hx
  generalize (x &&& 0xFFFFFFFF#64).setWidth 32 = x0 at hx
  generalize (y &&& 0xFFFFFFFF#64).setWidth 32 = y0 at hy0
  by_cases hlt : x1 < y0
  · obtain ⟨r, q, hdivl, hquot, hrem⟩ := divl_whole hx hy0 hlt
    simp only [if_pos hlt, hdivl, hquot, hrem]
  · have hne : y0 ≠ 0#32 := by
      rintro rfl
      exact hpos.ne hy0
    obtain ⟨x2, q1, r, q0, hfirst, hsecond, hquot, hrem⟩ := divl_twice hx hy0 hpos
    simp only [if_neg hlt, if_pos hne, hfirst, hsecond, hquot, hrem]

end

/-- The division is right on exactly the divisors the 32 leading bits of which are not
all ones, and on these it corrects its estimate at most twice. -/
theorem doDiv64_eq_iff (x y : U64) (rem : Option U64) (fuel : ℕ) (hy : y ≠ 0#64) (hfuel : 3 ≤ fuel) :
    doDiv64 fuel x y rem = .returned (x / y) (rem.map (fun _ => x % y)) ↔ ¬AllOnesAbove y := by
  have hpos : 0 < y.toNat := Nat.pos_of_ne_zero (fun h => hy (BitVec.eq_of_toNat_eq h))
  rw [allOnesAbove_iff]
  by_cases hwide : y.toNat / 2 ^ 32 = 0
  · constructor
    · exact fun _ h => h.1 hwide
    · exact fun _ => doDiv64_narrow fuel x rem hpos hwide
  · rw [doDiv64_wide x rem hwide hfuel]
    by_cases hones : y.toNat / 2 ^ places y = 2 ^ 32 - 1
    · rw [if_pos hones]
      constructor
      · exact fun h => nomatch h
      · exact fun h => absurd ⟨hwide, hones⟩ h
    · rw [if_neg hones]
      constructor
      · exact fun _ h => hones h.2
      · exact fun _ => rfl

/-- A divisor of 33 bits, whose estimate is one too small. -/
theorem doDiv64_eq_iff_wide :
    doDiv64 3 0xFFFFFFFFFFFFFFFF#64 0x100000000#64 (some 0#64) = .returned 0xFFFFFFFF#64 (some 0xFFFFFFFF#64) := by
  have hones : ¬AllOnesAbove 0x100000000#64 := by
    rintro ⟨k, h1, -, hlow, -⟩
    have hpow : 2 ^ 1 ≤ 2 ^ k := Nat.pow_le_pow_right (by omega) h1
    have hvalue : (0x100000000#64).toNat = 2 ^ 32 := rfl
    rw [Nat.pow_add] at hlow
    omega
  exact (doDiv64_eq_iff 0xFFFFFFFFFFFFFFFF#64 0x100000000#64 (some 0#64) 3 (by decide) (by omega)).mpr hones

/-- The divisor `2 ^ 64 - 1`, rounded up, is zero. -/
theorem doDiv64_allOnes :
    ¬∀ (x y rem : U64), y ≠ 0#64 →
      ∃ fuel, doDiv64 fuel x y (some rem) = .returned (x / y) (some (x % y)) := by
  intro h
  obtain ⟨fuel, hfuel⟩ := h 0#64 0xFFFFFFFFFFFFFFFF#64 0#64 (by decide)
  have hfault : doDiv64 fuel 0#64 0xFFFFFFFFFFFFFFFF#64 (some 0#64) = .divideError := rfl
  rw [hfault] at hfuel
  exact nomatch hfuel
end N7OS
