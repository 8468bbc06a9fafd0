import Mathlib.Order.CompletePartialOrder
import Mathlib.Order.Interval.Set.Disjoint

/-! # Regions one above the other

A region is a start and a size. A list of regions is stacked when each of them starts
where the one before has ended, or above.
-/
namespace StackedRegions

structure Region where
  start : ℕ
  size : ℕ
deriving DecidableEq

def Region.stop (r : Region) : ℕ := r.start + r.size

def Region.points (r : Region) : Set ℕ := Set.Ico r.start r.stop

/-- The regions lie between the two bounds, from the lower to the higher. -/
def Stacked : ℕ → List Region → ℕ → Prop
  | lo, [], hi => lo ≤ hi
  | lo, r :: rest, hi => lo ≤ r.start ∧ Stacked r.stop rest hi

variable {lo hi : ℕ} {regions : List Region} {r : Region}

theorem Region.start_le_stop (r : Region) : r.start ≤ r.stop := Nat.le_add_right _ _

theorem Stacked.le (h : Stacked lo regions hi) : lo ≤ hi := by
  induction regions generalizing lo with
  | nil => exact h
  | cons r rest ih => exact h.1.trans (r.start_le_stop.trans (ih h.2))

theorem Stacked.bounds (h : Stacked lo regions hi) (hr : r ∈ regions) : lo ≤ r.start ∧ r.stop ≤ hi := by
  induction regions generalizing lo with
  | nil => simp at hr
  | cons s rest ih =>
    obtain ⟨hlo, hrest⟩ := h
    rcases List.mem_cons.mp hr with rfl | hr
    · exact ⟨hlo, hrest.le⟩
    · exact ⟨hlo.trans (s.start_le_stop.trans (ih hrest hr).1), (ih hrest hr).2⟩

/-- No point is in two of them. -/
theorem Stacked.pairwise_disjoint (h : Stacked lo regions hi) :
    regions.Pairwise (fun r s => Disjoint r.points s.points) := by
  induction regions generalizing lo with
  | nil => exact List.Pairwise.nil
  | cons r rest ih =>
    refine List.pairwise_cons.mpr ⟨?_, ih h.2⟩
    intro s hs
    rw [Region.points, Region.points, Set.Ico_disjoint_Ico]
    exact (min_le_left _ _).trans ((h.2.bounds hs).1.trans (le_max_right _ _))

end StackedRegions
