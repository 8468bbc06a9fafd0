import Mathlib.Logic.Function.Basic
import Mathlib.Data.List.Induction

/-! # The last write

A table written entry by entry: what an entry holds is what the last write to it has put
there.
-/
namespace LastWrite
variable {κ ν α : Type*} [DecidableEq κ] (key : α → κ) (value : α → ν)

def writeAll (f : κ → ν) (writes : List α) : κ → ν :=
  writes.foldl (fun f w => Function.update f (key w) (value w)) f

/-- The last write to the entry. -/
def lastAt (k : κ) (writes : List α) : Option α := (writes.filter (fun w => key w = k)).getLast?

theorem lastAt_append (k : κ) (writes : List α) (w : α) :
    lastAt key k (writes ++ [w]) = if key w = k then some w else lastAt key k writes := by
  unfold lastAt
  by_cases h : key w = k
  · simp [List.filter_append, h]
  · simp [List.filter_append, h]

theorem writeAll_apply (f : κ → ν) (writes : List α) (k : κ) :
    writeAll key value f writes k = ((lastAt key k writes).map value).getD (f k) := by
  induction writes using List.reverseRecOn with
  | nil => rfl
  | append_singleton writes w ih =>
    rw [writeAll, List.foldl_append, lastAt_append]
    change Function.update (writeAll key value f writes) (key w) (value w) k = _
    by_cases h : key w = k
    · rw [if_pos h, ← h, Function.update_self]
      rfl
    · rw [if_neg h, Function.update_of_ne (Ne.symm h)]
      exact ih

end LastWrite
