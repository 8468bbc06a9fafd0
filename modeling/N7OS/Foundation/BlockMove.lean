import N7OS.Foundation.ByteMemory

/-! # Moving a block of memory

A block is moved at once: all of it is read before it is written. A block may be moved in
two parts if what the first writes is not what the second reads, so that the direction of
a loop decides which overlaps it can deal with.
-/
namespace ByteMemory

/-- The memory after `n` bytes at `src` have been moved to `dst`. -/
def move (m : Memory) (dst src n : ℕ) : Memory := fun x => if dst ≤ x ∧ x < dst + n then m (src + (x - dst)) else m x

variable {m : Memory} {dst src a b x : ℕ}

@[simp] theorem move_zero (m : Memory) (dst src : ℕ) : move m dst src 0 = m := by
  funext x
  exact if_neg (by omega)

theorem move_inside {i : ℕ} (hi : i < a) : move m dst src a (dst + i) = m (src + i) := by
  rw [move, if_pos (by omega), Nat.add_sub_cancel_left]

theorem move_outside (hx : x < dst ∨ dst + a ≤ x) : move m dst src a x = m x := if_neg (by omega)

/-- The lower part first. -/
theorem move_up (h : dst ≤ src ∨ src + (a + b) ≤ dst) :
    move (move m dst src a) (dst + a) (src + a) b = move m dst src (a + b) := by
  funext x
  by_cases hlow : x < dst
  · rw [move_outside (.inl (by omega)), move_outside (.inl hlow), move_outside (.inl hlow)]
  obtain ⟨i, rfl⟩ := Nat.exists_eq_add_of_le (Nat.le_of_not_lt hlow)
  by_cases hfirst : i < a
  · rw [move_outside (.inl (by omega)), move_inside hfirst, move_inside (by omega)]
  obtain ⟨j, rfl⟩ := Nat.exists_eq_add_of_le (Nat.le_of_not_lt hfirst)
  by_cases hsecond : j < b
  · rw [← Nat.add_assoc, move_inside hsecond, Nat.add_assoc dst, move_inside (by omega), move_outside (by omega),
      Nat.add_assoc]
  · rw [move_outside (.inr (by omega)), move_outside (.inr (by omega)), move_outside (.inr (by omega))]

/-- The upper part first. -/
theorem move_down (h : src ≤ dst) : move (move m (dst + b) (src + b) a) dst src b = move m dst src (a + b) := by
  funext x
  by_cases hlow : x < dst
  · rw [move_outside (.inl hlow), move_outside (.inl (by omega)), move_outside (.inl hlow)]
  obtain ⟨i, rfl⟩ := Nat.exists_eq_add_of_le (Nat.le_of_not_lt hlow)
  by_cases hfirst : i < b
  · rw [move_inside hfirst, move_outside (.inl (by omega)), move_inside (by omega)]
  obtain ⟨j, rfl⟩ := Nat.exists_eq_add_of_le (Nat.le_of_not_lt hfirst)
  rw [move_outside (.inr (by omega))]
  by_cases hsecond : j < a
  · rw [← Nat.add_assoc, move_inside hsecond, Nat.add_assoc dst, move_inside (by omega), Nat.add_assoc]
  · rw [move_outside (.inr (by omega)), move_outside (.inr (by omega))]

theorem byteOf_load32 (m : Memory) (a : ℕ) {k : ℕ} (hk : k < 4) : byteOf (load32 m a) k = m (a + k) := by
  have hcases : k = 0 ∨ k = 1 ∨ k = 2 ∨ k = 3 := by omega
  apply BitVec.eq_of_getLsbD_eq
  intro i hi
  simp only [byteOf, load32, BitVec.getLsbD_extractLsb', BitVec.getLsbD_append]
  rcases hcases with rfl | rfl | rfl | rfl
  all_goals grind

/-- A word is moved at once. -/
theorem store32_load32 (m : Memory) (dst src : ℕ) : store32 m dst (load32 m src) = move m dst src 4 := by
  funext x
  by_cases hx : dst ≤ x ∧ x < dst + 4
  · obtain ⟨k, rfl⟩ := Nat.exists_eq_add_of_le hx.1
    have hk : k < 4 := by omega
    rw [store32_apply_add _ _ _ hk, byteOf_load32 _ _ hk, move_inside hk]
  · rw [store32_of_outside _ (by omega), move_outside (by omega)]

theorem update_apply_move (m : Memory) (dst src : ℕ) : Function.update m dst (m src) = move m dst src 1 := by
  funext x
  by_cases hx : x = dst
  · subst hx
    rw [Function.update_self, move, if_pos (by omega), Nat.sub_self, Nat.add_zero]
  · rw [Function.update_of_ne hx, move_outside (by omega)]

end ByteMemory
