import Mathlib.Data.Nat.ModEq
import Mathlib.Logic.Function.Basic

/-! # Ring buffers

A queue of fewer than `n` elements kept in `n` cells: the oldest one is at
`tail` and the next one goes to `head`. One cell stays free, so that a full ring
can be told from an empty one.
-/
namespace RingQueue
variable {α : Type*}

/-- The ring `buf` with these two indices holds the queue `q`. -/
structure Holds (n : ℕ) (buf : ℕ → α) (head tail : ℕ) (q : List α) : Prop where
  tail_lt : tail < n
  length_lt : q.length < n
  head_eq : head = (tail + q.length) % n
  cells : ∀ i (h : i < q.length), buf ((tail + i) % n) = q[i]

variable {n head tail : ℕ} {buf : ℕ → α} {q : List α} {c : α}

theorem holds_nil (hn : 0 < n) : Holds n buf 0 0 [] where
  tail_lt := hn
  length_lt := hn
  head_eq := rfl
  cells _ h := absurd h (Nat.not_lt_zero _)

/-- Two distances below `n` from one index lead to different cells. -/
theorem index_ne {t i j : ℕ} (hij : i < j) (hj : j < n) : (t + i) % n ≠ (t + j) % n := by
  intro h
  have hmod : i ≡ j [MOD n] := Nat.ModEq.add_left_cancel' t h
  rw [Nat.ModEq, Nat.mod_eq_of_lt (hij.trans hj), Nat.mod_eq_of_lt hj] at hmod
  omega

theorem Holds.head_lt (h : Holds n buf head tail q) : head < n := by
  rw [h.head_eq]
  exact Nat.mod_lt _ (Nat.zero_lt_of_lt h.tail_lt)

theorem Holds.index_head (h : Holds n buf head tail q) (k : ℕ) :
    (head + k) % n = (tail + (q.length + k)) % n := by
  rw [h.head_eq, Nat.mod_add_mod, Nat.add_assoc]

theorem Holds.empty_iff (h : Holds n buf head tail q) : head = tail ↔ q = [] := by
  constructor
  · intro he
    by_contra hq
    have hlen := List.length_pos_iff.mpr hq
    refine index_ne (t := tail) hlen h.length_lt ?_
    rw [← h.head_eq, he, Nat.add_zero, Nat.mod_eq_of_lt h.tail_lt]
  · rintro rfl
    rw [h.head_eq, List.length_nil, Nat.add_zero, Nat.mod_eq_of_lt h.tail_lt]

theorem Holds.full_iff (h : Holds n buf head tail q) : (head + 1) % n = tail ↔ q.length = n - 1 := by
  have hn := h.length_lt
  rw [h.index_head 1]
  constructor
  · intro he
    by_contra hq
    refine index_ne (n := n) (t := tail) (i := 0) (j := q.length + 1) (by omega) (by omega) ?_
    rw [he, Nat.add_zero, Nat.mod_eq_of_lt h.tail_lt]
  · intro hq
    have hlen : q.length + 1 = n := by omega
    rw [hlen, Nat.add_mod_right, Nat.mod_eq_of_lt h.tail_lt]

theorem Holds.push (h : Holds n buf head tail q) (c : α) (hq : q.length + 1 < n) :
    Holds n (Function.update buf head c) ((head + 1) % n) tail (q ++ [c]) := by
  refine ⟨h.tail_lt, ?_, ?_, ?_⟩
  · rw [List.length_append]
    exact hq
  · rw [h.index_head 1, List.length_append]
    rfl
  · intro i hi
    rw [List.length_append, List.length_singleton] at hi
    by_cases hlast : i = q.length
    · subst hlast
      rw [← h.head_eq, Function.update_self, List.getElem_concat_length rfl]
    · have hlt : i < q.length := by omega
      have hne : (tail + i) % n ≠ head := by
        rw [h.head_eq]
        exact index_ne hlt h.length_lt
      rw [Function.update_of_ne hne, List.getElem_append_left hlt]
      exact h.cells i hlt

theorem Holds.front (h : Holds n buf head tail (c :: q)) : buf tail = c := by
  have hcell := h.cells 0 (by simp)
  rwa [Nat.add_zero, Nat.mod_eq_of_lt h.tail_lt] at hcell

theorem Holds.pop (h : Holds n buf head tail (c :: q)) :
    Holds n buf head ((tail + 1) % n) q := by
  have hlen : q.length + 1 < n := h.length_lt
  refine ⟨Nat.mod_lt _ (by omega), by omega, ?_, ?_⟩
  · rw [h.head_eq, List.length_cons, Nat.mod_add_mod]
    congr 1
    omega
  · intro i hi
    have hcell := h.cells (i + 1) (Nat.succ_lt_succ hi)
    rw [Nat.mod_add_mod, Nat.add_assoc, Nat.add_comm 1 i]
    exact hcell

end RingQueue
