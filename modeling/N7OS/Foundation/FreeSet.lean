import Mathlib.Order.Bounds.Basic
import N7OS.Foundation.Execution

/-! # Allocating the least free element

The abstract allocator over a pool: a set of taken elements, to which elements
are added or given back by name, and a request that takes the least element of
the pool that is free, or reports that there is none.
-/
namespace FreeSet
open Execution
variable {α : Type*} [Preorder α] {pool S T : Set α} {p : α}

inductive Event (α : Type*)
  | insert (p : α)
  | erase (p : α)
  | take (p : Option α)

inductive Step (pool : Set α) : Set α → Event α → Set α → Prop
  | insert (S : Set α) (p : α) : Step pool S (.insert p) (insert p S)
  | erase (S : Set α) (p : α) : Step pool S (.erase p) (S \ {p})
  | take {S : Set α} {p : α} : IsLeast (pool \ S) p → Step pool S (.take (some p)) (insert p S)
  | full {S : Set α} : pool ⊆ S → Step pool S (.take none) S

/-- Only giving an element back makes it free. -/
theorem Step.mem {e : Event α} (h : Step pool S e T) (hp : p ∈ S) (he : e ≠ .erase p) : p ∈ T := by
  cases h with
  | insert q => exact Set.mem_insert_of_mem q hp
  | erase q =>
    refine ⟨hp, ?_⟩
    rintro rfl
    exact he rfl
  | take => exact Set.mem_insert_of_mem _ hp
  | full => exact hp

theorem mem_of_runs {tr : List (Event α)} (h : Runs (Step pool) S tr T) (hp : p ∈ S)
    (htr : .erase p ∉ tr) : p ∈ T := by
  induction h with
  | nil => exact hp
  | cons hs _ ih =>
    simp only [List.mem_cons, not_or] at htr
    exact ih (hs.mem hp (Ne.symm htr.1)) htr.2

/-- An element taken twice has been given back in between. -/
theorem erase_mem_of_taken_twice {mid : List (Event α)} {U V : Set α}
    (h₁ : Step pool S (.take (some p)) T) (hmid : Runs (Step pool) T mid U)
    (h₂ : Step pool U (.take (some p)) V) : .erase p ∈ mid := by
  by_contra hno
  cases h₁ with
  | take _ =>
    cases h₂ with
    | take hleast => exact hleast.1.2 (mem_of_runs hmid (Set.mem_insert p S) hno)

end FreeSet
