import Mathlib.Data.List.Infix
import Mathlib.Order.Bounds.Basic

/-! # Occurrences of a pattern

The places where a pattern occurs in a text. A scan may jump over places whose occurrence
the characters that it has compared rule out; what the first two characters of the
pattern say is enough to jump over a place or two.
-/
namespace Occurrence

variable {α : Type*} {x y : List α} {i j : ℕ}

def OccursAt (x y : List α) (j : ℕ) : Prop := x <+: y.drop j

theorem OccursAt.le (h : OccursAt x y j) (hx : x ≠ []) : j + x.length ≤ y.length := by
  have hlength := h.length_le
  have hpos := List.length_pos_iff.mpr hx
  rw [List.length_drop] at hlength
  omega

/-- No occurrence before `j`. -/
def NoneBefore (x y : List α) (j : ℕ) : Prop := ∀ i < j, ¬OccursAt x y i

theorem noneBefore_zero : NoneBefore x y 0 := fun _ hi => absurd hi (Nat.not_lt_zero _)

theorem NoneBefore.succ (h : NoneBefore x y j) (hj : ¬OccursAt x y j) : NoneBefore x y (j + 1) := by
  intro i hi
  rcases Nat.lt_succ_iff_lt_or_eq.mp hi with hlt | rfl
  · exact h i hlt
  · exact hj

theorem NoneBefore.isLeast (h : NoneBefore x y j) (hj : OccursAt x y j) : IsLeast {i | OccursAt x y i} j :=
  ⟨hj, fun i hi => Nat.le_of_not_lt fun hlt => h i hlt hi⟩

theorem NoneBefore.not_isLeast (h : NoneBefore x y j) (hx : x ≠ []) (hend : y.length < j + x.length) (i : ℕ) :
    ¬IsLeast {i | OccursAt x y i} i := by
  intro hleast
  have hle := OccursAt.le hleast.1 hx
  exact h i (by omega) hleast.1

variable {a b c d : α} {xs ys : List α}

theorem drop_succ_of (h : y.drop j = c :: d :: ys) : y.drop (j + 1) = d :: ys := by
  rw [← List.drop_drop, h]
  rfl

theorem occursAt_cons_cons (h : y.drop j = c :: d :: ys) :
    OccursAt (a :: b :: xs) y j ↔ a = c ∧ b = d ∧ xs <+: ys := by
  rw [OccursAt, h, List.cons_prefix_cons, List.cons_prefix_cons]

/-- After a mismatch of the second character, two places are left behind if the pattern begins with
one character twice. -/
theorem NoneBefore.miss (h : NoneBefore (a :: b :: xs) y j) (hdrop : y.drop j = c :: d :: ys) (hne : b ≠ d) :
    NoneBefore (a :: b :: xs) y (j + 1) ∧ (a = b → NoneBefore (a :: b :: xs) y (j + 2)) := by
  have hhere : ¬OccursAt (a :: b :: xs) y j := fun hocc => hne ((occursAt_cons_cons hdrop).mp hocc).2.1
  refine ⟨h.succ hhere, fun hsame => (h.succ hhere).succ fun hocc => ?_⟩
  rw [OccursAt, drop_succ_of hdrop, List.cons_prefix_cons] at hocc
  exact hne (hsame.symm.trans hocc.1)

/-- After a match of the second character, two places are left behind if the first character is another. -/
theorem NoneBefore.pass (h : NoneBefore (a :: b :: xs) y j) (hdrop : y.drop j = c :: d :: ys) (heq : b = d)
    (hhere : ¬OccursAt (a :: b :: xs) y j) :
    NoneBefore (a :: b :: xs) y (j + 1) ∧ (a ≠ b → NoneBefore (a :: b :: xs) y (j + 2)) := by
  refine ⟨h.succ hhere, fun hother => (h.succ hhere).succ fun hocc => ?_⟩
  rw [OccursAt, drop_succ_of hdrop, List.cons_prefix_cons] at hocc
  exact hother (hocc.1.trans heq.symm)

end Occurrence
