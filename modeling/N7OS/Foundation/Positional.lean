import Mathlib.Data.Nat.Digits.Lemmas

/-! # Positional notation

The expansion of a number in a base, the most significant digit first, and the value of
any string of digits. Zero has the one digit zero; no other expansion starts with it.
-/
namespace Positional

def expansion (b n : ℕ) : List ℕ := if n = 0 then [0] else (Nat.digits b n).reverse

def value (b : ℕ) (ds : List ℕ) : ℕ := ds.foldl (fun v d => v * b + d) 0

variable {b n : ℕ} {ds es : List ℕ}

theorem foldl_value (v : ℕ) (ds : List ℕ) :
    ds.foldl (fun v d => v * b + d) v = v * b ^ ds.length + value b ds := by
  induction ds generalizing v with
  | nil => simp [value]
  | cons d ds ih =>
    have hvalue : value b (d :: ds) = d * b ^ ds.length + value b ds := by
      rw [value, List.foldl_cons, ih, Nat.zero_mul, Nat.zero_add]
    rw [List.foldl_cons, ih, hvalue, List.length_cons, pow_succ]
    ring

@[simp] theorem value_nil : value b [] = 0 := rfl

theorem value_append (ds es : List ℕ) : value b (ds ++ es) = value b ds * b ^ es.length + value b es := by
  rw [value, List.foldl_append, foldl_value]
  rfl

theorem value_concat (ds : List ℕ) (d : ℕ) : value b (ds ++ [d]) = value b ds * b + d := by
  simp [value]

theorem value_reverse (ds : List ℕ) : value b ds.reverse = Nat.ofDigits b ds := by
  induction ds with
  | nil => rfl
  | cons d ds ih =>
    rw [List.reverse_cons, value_concat, ih, Nat.ofDigits_cons]
    ring

/-- The value of the expansion is the number. -/
@[simp] theorem value_expansion (b n : ℕ) : value b (expansion b n) = n := by
  unfold expansion
  split
  · next hzero => simp [value, hzero]
  · rw [value_reverse, Nat.ofDigits_digits]

theorem expansion_ne_nil (b n : ℕ) : expansion b n ≠ [] := by
  unfold expansion
  split
  · exact List.cons_ne_nil _ _
  · next hzero =>
    have hlength := List.length_pos_iff.mpr (Nat.digits_ne_nil_iff_ne_zero.mpr hzero : Nat.digits b n ≠ [])
    exact List.length_pos_iff.mp (by simpa using hlength)

theorem expansion_lt (hb : 1 < b) {d : ℕ} (hd : d ∈ expansion b n) : d < b := by
  unfold expansion at hd
  split at hd
  · rw [List.mem_singleton.mp hd]
    exact Nat.zero_lt_of_lt hb
  · exact Nat.digits_lt_base hb (List.mem_reverse.mp hd)

theorem expansion_small (hn : n < b) : expansion b n = [n] := by
  unfold expansion
  split
  · next hzero => rw [hzero]
  · next hzero => rw [Nat.digits_of_lt b n hzero hn, List.reverse_singleton]

/-- The last digit is the remainder, and the others are those of the quotient. -/
theorem expansion_div (hb : 1 < b) (hn : b ≤ n) : expansion b n = expansion b (n / b) ++ [n % b] := by
  have hpos : n ≠ 0 := by omega
  have hquot : n / b ≠ 0 := (Nat.div_pos hn (Nat.zero_lt_of_lt hb)).ne'
  rw [expansion, if_neg hpos, Nat.digits_def' hb (Nat.pos_of_ne_zero hpos), List.reverse_cons, expansion, if_neg hquot]

theorem expansion_length_le (hb : 1 < b) {k : ℕ} (hk : 0 < k) (hn : n < b ^ k) : (expansion b n).length ≤ k := by
  unfold expansion
  split
  · exact hk
  · rw [List.length_reverse]
    exact (Nat.digits_length_le_iff hb n).mpr hn

theorem head_expansion (b : ℕ) (hn : n ≠ 0) : (expansion b n).head? ≠ some 0 := by
  rw [expansion, if_neg hn, List.head?_reverse]
  intro hzero
  have hne : Nat.digits b n ≠ [] := Nat.digits_ne_nil_iff_ne_zero.mpr hn
  rw [List.getLast?_eq_some_getLast hne] at hzero
  exact Nat.getLast_digit_ne_zero b hn (Option.some.inj hzero)

end Positional
