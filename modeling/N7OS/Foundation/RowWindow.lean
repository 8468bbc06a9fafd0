import Mathlib.Logic.Function.Basic
import Mathlib.Order.Bounds.Basic

/-! # A circular window on an unbounded sequence of rows

With `n` lines for rows `0, 1, 2, ...`, row `i` is drawn on line `i % n`, over
the row drawn there before. When row `r` is the newest, a line shows the last
row at or before `r` that falls on it.
-/
namespace RowWindow
variable {β : Type*} {n r l i : ℕ}

/-- The row that line `l` shows, if any row has reached it yet. -/
def lastRow (n r l : ℕ) : Option ℕ := if l ≤ r then some (r - (r - l) % n) else none

def window (rows : ℕ → β) (blank : β) (n r l : ℕ) : β :=
  match lastRow n r l with
  | some i => rows i
  | none => blank

theorem lastRow_eq_some (hl : l < n) :
    lastRow n r l = some i ↔ IsGreatest {j | j ≤ r ∧ j % n = l} i := by
  have hmod : ∀ j, j ≤ r → j % n = l → l ≤ r := fun j hj hjl => hjl ▸ (Nat.mod_le j n).trans hj
  by_cases hlr : l ≤ r
  · have hq := Nat.div_add_mod (r - l) n
    have hrow : r - (r - l) % n = l + n * ((r - l) / n) := by omega
    have hgreat : IsGreatest {j | j ≤ r ∧ j % n = l} (r - (r - l) % n) := by
      refine ⟨⟨Nat.sub_le _ _, by rw [hrow, Nat.add_mul_mod_self_left, Nat.mod_eq_of_lt hl]⟩, ?_⟩
      rintro j ⟨hj, hjl⟩
      have hjq := Nat.div_add_mod j n
      have hle : j / n ≤ (r - l) / n := by
        rw [Nat.le_div_iff_mul_le (by omega), Nat.mul_comm]
        omega
      have hmul := Nat.mul_le_mul_left n hle
      omega
    rw [lastRow, if_pos hlr, Option.some.injEq]
    exact ⟨fun h => h ▸ hgreat, fun h => hgreat.unique h⟩
  · rw [lastRow, if_neg hlr]
    constructor
    · intro h
      cases h
    · rintro ⟨⟨hj, hjl⟩, _⟩
      exact absurd (hmod i hj hjl) hlr

theorem lastRow_eq_none (hl : l < n) : lastRow n r l = none ↔ ¬∃ j ≤ r, j % n = l := by
  by_cases hlr : l ≤ r
  · rw [lastRow, if_pos hlr]
    constructor
    · intro h
      cases h
    · intro h
      exact absurd ⟨l, hlr, Nat.mod_eq_of_lt hl⟩ h
  · rw [lastRow, if_neg hlr]
    refine ⟨fun _ => ?_, fun _ => rfl⟩
    rintro ⟨j, hj, hjl⟩
    have hle := Nat.mod_le j n
    omega

theorem lastRow_self (hn : 0 < n) : lastRow n r (r % n) = some r :=
  (lastRow_eq_some (Nat.mod_lt r hn)).mpr ⟨⟨le_rfl, rfl⟩, fun _ hj => hj.1⟩

/-- A new row changes only the line it falls on. -/
theorem lastRow_succ_of_ne (hl : l < n) (hne : l ≠ (r + 1) % n) : lastRow n (r + 1) l = lastRow n r l := by
  have hset : {j | j ≤ r + 1 ∧ j % n = l} = {j | j ≤ r ∧ j % n = l} := by
    ext j
    constructor
    · rintro ⟨hj, hjl⟩
      have hjr : j ≠ r + 1 := fun h => hne (h ▸ hjl.symm)
      exact ⟨by omega, hjl⟩
    · rintro ⟨hj, hjl⟩
      exact ⟨by omega, hjl⟩
  apply Option.ext
  intro i
  rw [lastRow_eq_some hl, lastRow_eq_some hl, hset]

/-- Writing to the newest row changes only its line. -/
theorem window_update (rows : ℕ → β) (blank row : β) (hl : l < n) :
    window (Function.update rows r row) blank n r l =
      if l = r % n then row else window rows blank n r l := by
  have hn : 0 < n := by omega
  by_cases h : l = r % n
  · rw [if_pos h, h, window, lastRow_self hn]
    exact Function.update_self _ _ _
  · rw [if_neg h, window, window]
    cases hi : lastRow n r l with
    | none => rfl
    | some i =>
      have hir : i ≠ r := by
        rintro rfl
        exact h ((lastRow_eq_some hl).mp hi).1.2.symm
      exact Function.update_of_ne hir _ _

/-- Moving to the next row replaces only the line it falls on. -/
theorem window_succ (rows : ℕ → β) (blank : β) (hl : l < n) :
    window rows blank n (r + 1) l =
      if l = (r + 1) % n then rows (r + 1) else window rows blank n r l := by
  have hn : 0 < n := by omega
  by_cases h : l = (r + 1) % n
  · rw [if_pos h, h, window, lastRow_self hn]
  · rw [if_neg h, window, window, lastRow_succ_of_ne hl h]

end RowWindow
