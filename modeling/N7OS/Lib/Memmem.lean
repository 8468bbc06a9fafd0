import N7OS.Foundation.Occurrence
import N7OS.Lib.StringOrder

/-! # The search of `memmem` and `strstr`

`lib/string.c` looks at the second character of the needle first. Whether it is the same
as the first one decides how far the search moves on. The result is an index of the
haystack, or nothing for a null pointer.
-/
namespace N7OS
open Occurrence

/-- `while (j <= n - m)`; `same` tells if `x[0] == x[1]`. -/
def memmemLoop (x y : List U8) (same : Bool) (n m j : ℕ) : Option (Option ℕ) :=
  if j ≤ n - m then
    x[1]?.bind fun x₁ => y[j + 1]?.bind fun y₁ =>
      if x₁ ≠ y₁ then memmemLoop x y same n m (j + if same then 2 else 1)
      else (memcmp (x.drop 2) (y.drop (j + 2)) (m - 2)).bind fun d => x[0]?.bind fun x₀ => y[j]?.bind fun y₀ =>
        if d = 0 ∧ x₀ = y₀ then some (some j) else memmemLoop x y same n m (j + if same then 1 else 2)
  else some none
termination_by n - m + 1 - j
decreasing_by all_goals cases same <;> simp <;> omega

/-- The search for one character; `i` counts those that are past. -/
def memmemByte (c : U8) (i : ℕ) : List U8 → ℕ → Option (Option ℕ)
  | [], _ => none
  | d :: y, n => if d = c then some (some i) else if n - 1 ≠ 0 then memmemByte c (i + 1) y (n - 1) else some none

def memmem (haystack : List U8) (n : ℕ) (needle : List U8) (m : ℕ) : Option (Option ℕ) :=
  if n < m ∨ m = 0 ∨ n = 0 then some none
  else if m ≠ 1 then
    needle[0]?.bind fun x₀ => needle[1]?.bind fun x₁ => memmemLoop needle haystack (x₀ = x₁) n m 0
  else needle[0]?.bind fun c => memmemByte c 0 haystack n

def strstr (haystack needle : List U8) : Option (Option ℕ) :=
  (strlen haystack).bind fun n => (strlen needle).bind fun m => memmem haystack n needle m

/-- What a search returns: the place of the first occurrence, if there is one. -/
def FirstOccurrence (x y : List U8) (r : Option ℕ) : Prop :=
  ∀ j, r = some j ↔ x ≠ [] ∧ IsLeast {i | OccursAt x y i} j

section
variable {x y rx ry : List U8} {n j : ℕ}

theorem FirstOccurrence.found (h : NoneBefore x y j) (hx : x ≠ []) (hj : OccursAt x y j) :
    FirstOccurrence x y (some j) := by
  intro i
  constructor
  · intro he
    cases he
    exact ⟨hx, h.isLeast hj⟩
  · exact fun hi => congrArg some ((h.isLeast hj).unique hi.2)

theorem FirstOccurrence.missing (h : NoneBefore x y j) (hx : x ≠ []) (hend : y.length < j + x.length) :
    FirstOccurrence x y none := fun i => by simp [h.not_isLeast hx hend i]

theorem FirstOccurrence.unique {r₁ r₂ : Option ℕ} (h₁ : FirstOccurrence x y r₁) (h₂ : FirstOccurrence x y r₂) : r₁ = r₂ :=
  Option.ext fun j => (h₁ j).trans (h₂ j).symm

/-- One position of the search: the second character first, then the others. -/
theorem memmemLoop_here {a b c d : U8} {xs ys : List U8} (hx : x = a :: b :: xs) (hle : x.length ≤ y.length)
    (hj : j ≤ y.length - x.length) (hc : y.drop j = c :: d :: ys) :
    let search (j : ℕ) := memmemLoop (x ++ rx) (y ++ ry) (a = b) y.length x.length j
    (b ≠ d → search j = search (j + if a = b then 2 else 1)) ∧
      (b = d → OccursAt x y j → search j = some (some j)) ∧
        (b = d → ¬OccursAt x y j → search j = search (j + if a = b then 1 else 2)) := by
  intro search
  have hlength : x.length = xs.length + 2 := by rw [hx]; rfl
  have hys : y.drop (j + 2) = ys := by rw [← List.drop_drop, hc]; rfl
  have hreads : (x ++ rx)[0]? = some a ∧ (x ++ rx)[1]? = some b := by simp [hx]
  have hread₀ : (y ++ ry)[j]? = some c := by
    rw [List.getElem?_append_left (by omega), ← List.head?_drop, hc]
    rfl
  have hread₁ : (y ++ ry)[j + 1]? = some d := by
    rw [List.getElem?_append_left (by omega), ← List.head?_drop, drop_succ_of hc]
    rfl
  have hhere : search j = _ := memmemLoop.eq_def _ _ _ _ _ _
  rw [if_pos hj, hreads.2, hreads.1, hread₁, hread₀, Option.bind_some, Option.bind_some] at hhere
  simp only [decide_eq_true_eq] at hhere
  refine ⟨fun hbd => hhere.trans (if_pos hbd), ?_⟩
  have htakes : (x ++ rx).drop 2 = xs ++ rx ∧ (y ++ ry).drop (j + 2) = ys ++ ry := by
    refine ⟨by simp [hx], ?_⟩
    rw [List.drop_append_of_le_length (by omega), hys]
  have hcount : x.length - 2 = xs.length := by omega
  have hroom : xs.length ≤ ys.length := by
    have hlong := congrArg List.length hys
    rw [List.length_drop] at hlong
    omega
  obtain ⟨e, he, horders⟩ := memcmp_orders (s := xs ++ rx) (t := ys ++ ry) (n := xs.length) (by simp) (by simp; omega)
  rw [List.take_left, List.take_append_of_le_length hroom] at horders
  have hocc (hbd : b = d) : e = 0 ∧ a = c ↔ OccursAt x y j := by
    rw [hx, occursAt_cons_cons hc, horders.zero_iff, List.prefix_iff_eq_take]
    tauto
  rw [htakes.1, htakes.2, hcount, he, Option.bind_some, Option.bind_some, Option.bind_some] at hhere
  constructor
  · intro hbd hfound
    rw [hhere, if_neg (not_not.mpr hbd), if_pos ((hocc hbd).mpr hfound)]
  · intro hbd hmissed
    rw [hhere, if_neg (not_not.mpr hbd), if_neg (mt (hocc hbd).mp hmissed)]

/-- Behind the places left behind, the loop finds the first occurrence. -/
theorem memmemLoop_eq {a b : U8} {xs : List U8} (hx : x = a :: b :: xs) (hle : x.length ≤ y.length)
    (h : NoneBefore x y j) :
    ∃ r, memmemLoop (x ++ rx) (y ++ ry) (a = b) y.length x.length j = some r ∧ FirstOccurrence x y r := by
  induction hn : y.length - x.length + 1 - j using Nat.strong_induction_on generalizing j with
  | _ n ih =>
    have hlength : x.length = xs.length + 2 := by rw [hx]; rfl
    have hne : x ≠ [] := by rw [hx]; exact List.cons_ne_nil _ _
    by_cases hj : j ≤ y.length - x.length
    · obtain ⟨c, d, ys, hc⟩ : ∃ c d ys, y.drop j = c :: d :: ys := by
        have hlong : 2 ≤ (y.drop j).length := by
          rw [List.length_drop]
          omega
        match y.drop j, hlong with
        | c :: d :: ys, _ => exact ⟨c, d, ys, rfl⟩
      obtain ⟨hskip, hfound, hmissed⟩ := @memmemLoop_here x y rx ry j a b c d xs ys hx hle hj hc
      beta_reduce at hskip hfound hmissed
      by_cases hbd : b = d
      · by_cases hhere : OccursAt x y j
        · exact ⟨some j, hfound hbd hhere, .found h hne hhere⟩
        · obtain ⟨hone, htwo⟩ : NoneBefore x y (j + 1) ∧ (a ≠ b → NoneBefore x y (j + 2)) := by
            subst hx
            exact h.pass hc hbd hhere
          rw [hmissed hbd hhere]
          by_cases hsame : a = b
          · rw [if_pos hsame]
            exact ih _ (by omega) hone rfl
          · rw [if_neg hsame]
            exact ih _ (by omega) (htwo hsame) rfl
      · obtain ⟨hone, htwo⟩ : NoneBefore x y (j + 1) ∧ (a = b → NoneBefore x y (j + 2)) := by
          subst hx
          exact h.miss hc hbd
        rw [hskip hbd]
        by_cases hsame : a = b
        · rw [if_pos hsame]
          exact ih _ (by omega) (htwo hsame) rfl
        · rw [if_neg hsame]
          exact ih _ (by omega) hone rfl
    · rw [memmemLoop.eq_def, if_neg hj]
      exact ⟨none, rfl, .missing h hne (by omega)⟩

theorem occursAt_byte {c : U8} {pre : List U8} : OccursAt [c] (pre ++ y) pre.length ↔ y.head? = some c := by
  rw [OccursAt, List.drop_left]
  cases y with
  | nil => simp
  | cons d y => simp [eq_comm]

theorem memmemByte_eq {c : U8} {pre : List U8} (hy : y ≠ []) (h : NoneBefore [c] (pre ++ y) pre.length) :
    ∃ r, memmemByte c pre.length (y ++ ry) y.length = some r ∧ FirstOccurrence [c] (pre ++ y) r := by
  have hc : [c] ≠ [] := List.cons_ne_nil c []
  induction y generalizing pre with
  | nil => exact absurd rfl hy
  | cons d y ih =>
    rw [List.cons_append, memmemByte]
    by_cases hd : d = c
    · rw [if_pos hd]
      exact ⟨some pre.length, rfl, .found h hc (occursAt_byte.mpr (congrArg some hd))⟩
    · have hnext : NoneBefore [c] (pre ++ [d] ++ y) (pre ++ [d]).length := by
        rw [List.length_append, List.append_assoc]
        exact h.succ fun hocc => hd (Option.some.inj (occursAt_byte.mp hocc))
      rw [if_neg hd, List.length_cons, Nat.add_sub_cancel]
      by_cases hempty : y = []
      · refine ⟨none, by simp [hempty], ?_⟩
        refine .missing (j := pre.length + 1) ?_ hc (by simp [hempty])
        rw [List.append_assoc, List.length_append] at hnext
        exact hnext
      · obtain ⟨r, hr, hfirst⟩ := ih hempty hnext
        rw [List.length_append, List.length_singleton] at hr
        rw [List.append_assoc] at hfirst
        rw [if_pos (mt List.length_eq_zero_iff.mp hempty)]
        exact ⟨r, hr, hfirst⟩

end

theorem memmem_found (x y rx ry : List U8) :
    ∃ r, memmem (y ++ ry) y.length (x ++ rx) x.length = some r ∧ FirstOccurrence x y r := by
  unfold memmem
  by_cases hnone : y.length < x.length ∨ x.length = 0 ∨ y.length = 0
  · rw [if_pos hnone]
    refine ⟨none, rfl, ?_⟩
    by_cases hx : x = []
    · intro j
      simp [hx]
    · have hlength := List.length_pos_iff.mpr hx
      exact .missing noneBefore_zero hx (by omega)
  rw [if_neg hnone]
  push Not at hnone
  obtain ⟨hle, hx, hy⟩ := hnone
  by_cases hbyte : x.length = 1
  · obtain ⟨c, rfl⟩ := List.length_eq_one_iff.mp hbyte
    rw [if_neg (not_not.mpr hbyte)]
    have hstart : NoneBefore [c] ([] ++ y) ([] : List U8).length := noneBefore_zero
    exact memmemByte_eq (mt List.length_eq_zero_iff.mpr hy) hstart
  · rw [if_pos hbyte]
    match x with
    | [] => simp at hx
    | [c] => simp at hbyte
    | a :: b :: xs => exact memmemLoop_eq rfl hle noneBefore_zero

/-- For every text and every pattern, also with zeros in them, the search returns the first
occurrence; only the empty pattern is never found. -/
theorem memmem_first (x y rx ry : List U8) (r : Option ℕ) :
    memmem (y ++ ry) y.length (x ++ rx) x.length = some r ↔ FirstOccurrence x y r := by
  obtain ⟨found, hfound, hfirst⟩ := memmem_found x y rx ry
  rw [hfound]
  constructor
  · intro h
    cases h
    exact hfirst
  · exact fun h => congrArg some (hfirst.unique h)

/-- On strings. -/
theorem strstr_first {s t : List U8} (hs : 0#8 ∉ s) (ht : 0#8 ∉ t) (rs rt : List U8) :
    ∃ r, strstr (s ++ 0#8 :: rs) (t ++ 0#8 :: rt) = some r ∧ FirstOccurrence t s r := by
  rw [strstr, strlen_string hs, strlen_string ht]
  exact memmem_found t s (0#8 :: rt) (0#8 :: rs)

end N7OS
