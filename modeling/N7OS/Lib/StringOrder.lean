import Mathlib.Order.RelClasses
import N7OS.Lib.Strings

/-! # The order of strings

`memcmp`, `strcmp` and `strncmp` of `lib/string.c`. The sign of what they return is the
lexicographic order of the bytes, which are compared unsigned.
-/
namespace N7OS

/-- The difference of the first bytes that differ. -/
def memcmp : List U8 → List U8 → ℕ → Option ℤ
  | _, _, 0 => some 0
  | c₁ :: s₁, c₂ :: s₂, n + 1 =>
    let d := (c₁.toNat : ℤ) - c₂.toNat
    if d ≠ 0 then some d else memcmp s₁ s₂ n
  | _, _, _ + 1 => none

/-- The first string is searched for the end of both. -/
def strcmp : List U8 → List U8 → Option ℤ
  | c₁ :: s₁, c₂ :: s₂ =>
    let d := (c₁.toNat : ℤ) - c₂.toNat
    if d ≠ 0 ∨ c₁ = 0#8 then some d else strcmp s₁ s₂
  | _, _ => none

def strncmp : List U8 → List U8 → ℕ → Option ℤ
  | _, _, 0 => some 0
  | c₁ :: s₁, c₂ :: s₂, n + 1 =>
    let d := (c₁.toNat : ℤ) - c₂.toNat
    if d ≠ 0 ∨ c₁ = 0#8 then some d else strncmp s₁ s₂ n
  | _, _, _ + 1 => none

/-- The sign of a comparison. -/
structure Orders (d : ℤ) (s t : List U8) : Prop where
  neg_iff : d < 0 ↔ s < t
  zero_iff : d = 0 ↔ s = t
  pos_iff : 0 < d ↔ t < s

section
variable {s t : List U8} {c₁ c₂ : U8}

theorem orders_zero (s : List U8) : Orders 0 s s :=
  ⟨by simp [List.lt_irrefl], by simp, by simp [List.lt_irrefl]⟩

/-- The first bytes decide, if they differ. -/
theorem orders_first (h : c₁ ≠ c₂) (s t : List U8) : Orders ((c₁.toNat : ℤ) - c₂.toNat) (c₁ :: s) (c₂ :: t) := by
  have hne : c₁.toNat ≠ c₂.toNat := fun heq => h (BitVec.eq_of_toNat_eq heq)
  refine ⟨?_, ?_, ?_⟩
  · rw [List.cons_lt_cons_iff, BitVec.lt_def]
    simp only [h, false_and, or_false]
    omega
  · simp only [List.cons.injEq, h, false_and, iff_false]
    omega
  · rw [List.cons_lt_cons_iff, BitVec.lt_def]
    simp only [h.symm, false_and, or_false]
    omega

theorem Orders.cons {d : ℤ} (h : Orders d s t) (c : U8) : Orders d (c :: s) (c :: t) := by
  refine ⟨?_, ?_, ?_⟩
  · rw [h.neg_iff, List.cons_lt_cons_iff]
    simp
  · rw [h.zero_iff, List.cons.injEq]
    simp
  · rw [h.pos_iff, List.cons_lt_cons_iff]
    simp

/-- A string is before all that begin with it. -/
theorem orders_nil_cons (h : c₂ ≠ 0#8) (t : List U8) : Orders ((0#8).toNat - c₂.toNat) [] (c₂ :: t) := by
  have hne : c₂.toNat ≠ 0 := fun heq => h (BitVec.eq_of_toNat_eq heq)
  refine ⟨?_, ?_, ?_⟩
  · simp only [List.nil_lt_cons, iff_true, BitVec.toNat_ofNat]
    omega
  · simp only [reduceCtorEq, iff_false, BitVec.toNat_ofNat]
    omega
  · simp only [List.not_lt_nil, iff_false, BitVec.toNat_ofNat]
    omega

theorem Orders.swap {d : ℤ} (h : Orders d s t) : Orders (-d) t s :=
  ⟨by rw [← h.pos_iff]; omega, by rw [eq_comm (a := t), ← h.zero_iff]; omega, by rw [← h.neg_iff]; omega⟩

theorem difference_eq_zero : (c₁.toNat : ℤ) - c₂.toNat = 0 ↔ c₁ = c₂ := by
  rw [BitVec.toNat_eq]
  omega

theorem memcmp_orders {n : ℕ} (hs : n ≤ s.length) (ht : n ≤ t.length) :
    ∃ d, memcmp s t n = some d ∧ Orders d (s.take n) (t.take n) := by
  induction n generalizing s t with
  | zero => exact ⟨0, by rw [memcmp], orders_zero []⟩
  | succ n ih =>
    obtain ⟨c₁, s, rfl⟩ := List.exists_cons_of_length_pos (Nat.zero_lt_of_lt hs)
    obtain ⟨c₂, t, rfl⟩ := List.exists_cons_of_length_pos (Nat.zero_lt_of_lt ht)
    rw [memcmp]
    by_cases hc : c₁ = c₂
    · obtain ⟨d, hd, horders⟩ := ih (Nat.le_of_succ_le_succ hs) (Nat.le_of_succ_le_succ ht)
      subst hc
      rw [if_neg (by simp)]
      exact ⟨d, hd, horders.cons c₁⟩
    · rw [if_pos (difference_eq_zero.not.mpr hc)]
      exact ⟨_, rfl, orders_first hc _ _⟩

theorem strncmp_orders (hs : 0#8 ∉ s) (ht : 0#8 ∉ t) (rs rt : List U8) (n : ℕ) :
    ∃ d, strncmp (s ++ 0#8 :: rs) (t ++ 0#8 :: rt) n = some d ∧ Orders d (s.take n) (t.take n) := by
  induction n generalizing s t with
  | zero => exact ⟨0, by rw [strncmp], orders_zero []⟩
  | succ n ih =>
    cases s with
    | nil =>
      cases t with
      | nil => exact ⟨0, by rw [List.nil_append, List.nil_append, strncmp, if_pos (.inr rfl)]; rfl, orders_zero []⟩
      | cons c₂ t =>
        obtain ⟨hc₂, -⟩ := List.ne_and_not_mem_of_not_mem_cons ht
        exact ⟨_, by rw [List.nil_append, List.cons_append, strncmp, if_pos (.inr rfl)], orders_nil_cons hc₂.symm _⟩
    | cons c₁ s =>
      obtain ⟨hc₁, hs⟩ := List.ne_and_not_mem_of_not_mem_cons hs
      cases t with
      | nil =>
        have hne : (c₁.toNat : ℤ) - (0#8).toNat ≠ 0 := difference_eq_zero.not.mpr hc₁.symm
        refine ⟨_, by rw [List.nil_append, List.cons_append, strncmp, if_pos (.inl hne)], ?_⟩
        rw [← neg_sub]
        exact (orders_nil_cons hc₁.symm _).swap
      | cons c₂ t =>
        obtain ⟨-, ht⟩ := List.ne_and_not_mem_of_not_mem_cons ht
        rw [List.cons_append, List.cons_append, strncmp]
        by_cases hc : c₁ = c₂
        · obtain ⟨d, hd, horders⟩ := ih hs ht
          subst hc
          rw [if_neg (by simp [hc₁.symm])]
          exact ⟨d, hd, horders.cons c₁⟩
        · rw [if_pos (.inl (difference_eq_zero.not.mpr hc))]
          exact ⟨_, rfl, orders_first hc _ _⟩

/-- A count that is not reached. -/
theorem strcmp_eq_strncmp {x : List U8} (y : List U8) {n : ℕ} (h : x.length < n) : strcmp x y = strncmp x y n := by
  induction x generalizing y n with
  | nil =>
    obtain ⟨n, rfl⟩ := Nat.exists_eq_add_one_of_ne_zero (Nat.ne_zero_of_lt h)
    rw [strcmp, strncmp] <;> simp
  | cons c x ih =>
    obtain ⟨n, rfl⟩ := Nat.exists_eq_add_one_of_ne_zero (Nat.ne_zero_of_lt h)
    cases y with
    | nil => rw [strcmp, strncmp] <;> simp
    | cons c' y => rw [strcmp, strncmp, ih y (Nat.lt_of_succ_lt_succ h)]

theorem strcmp_orders (hs : 0#8 ∉ s) (ht : 0#8 ∉ t) (rs rt : List U8) :
    ∃ d, strcmp (s ++ 0#8 :: rs) (t ++ 0#8 :: rt) = some d ∧ Orders d s t := by
  set n := (s ++ 0#8 :: rs).length + t.length + 1 with hn
  obtain ⟨d, hd, horders⟩ := strncmp_orders hs ht rs rt n
  have hlength : s.length ≤ n := by
    rw [hn, List.length_append]
    omega
  rw [List.take_of_length_le hlength, List.take_of_length_le (by omega)] at horders
  exact ⟨d, (strcmp_eq_strncmp _ (by omega)).trans hd, horders⟩

end

/-- For every two strings and every count, whatever stands behind their ends, and for every two blocks of bytes. -/
theorem strings_ordered {s t : List U8} (hs : 0#8 ∉ s) (ht : 0#8 ∉ t) (rs rt : List U8) :
    (∃ d, strcmp (s ++ 0#8 :: rs) (t ++ 0#8 :: rt) = some d ∧ Orders d s t) ∧
      (∀ n, ∃ d, strncmp (s ++ 0#8 :: rs) (t ++ 0#8 :: rt) n = some d ∧ Orders d (s.take n) (t.take n)) ∧
      ∀ x y n, n ≤ x.length → n ≤ y.length → ∃ d, memcmp x y n = some d ∧ Orders d (x.take n) (y.take n) :=
  ⟨strcmp_orders hs ht rs rt, strncmp_orders hs ht rs rt, fun _ _ _ hx hy => memcmp_orders hx hy⟩

/-- `é` of Latin-1 is behind `z`: the bytes are compared unsigned. -/
theorem strings_ordered_unsigned : strcmp [0xE9#8, 0#8] [0x7A#8, 0#8] = some 111 ∧ [0x7A#8] < [0xE9#8] := by
  obtain ⟨⟨d, hd, horders⟩, -⟩ := strings_ordered (s := [0xE9#8]) (t := [0x7A#8]) (by decide) (by decide) [] []
  have hvalue : strcmp [0xE9#8, 0#8] [0x7A#8, 0#8] = some 111 := by rfl
  have heq : d = 111 := Option.some.inj (hd.symm.trans hvalue)
  exact ⟨hvalue, horders.pos_iff.mp (by omega)⟩

end N7OS
