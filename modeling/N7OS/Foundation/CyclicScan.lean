import Mathlib.Data.Set.Basic
import Mathlib.Order.Fin.Basic
import N7OS.Foundation.Execution

/-! # Cyclic scans and sweeps

A pointer into `n` slots looks for the first ready slot after its own, in cyclic
order, and moves there. Between two visits to a slot the pointer sweeps over the
others in order, whatever slots become ready meanwhile.
-/
namespace CyclicScan
open Execution
variable {n : ℕ}

/-- How many steps forward lead from `p` to `q`; a full turn from `p` to itself. -/
def steps (p q : Fin n) : ℕ := if p.val < q.val then q - p else q + n - p

/-- The same, but none from `p` to itself. -/
def ahead (p q : Fin n) : ℕ := if p.val ≤ q.val then q - p else q + n - p

/-- The slot `i` steps after `p`. -/
def candidate (p : Fin n) (i : ℕ) : Fin n := ⟨(p + i) % n, Nat.mod_lt _ (Nat.zero_lt_of_lt p.isLt)⟩

/-- The loop `for (i = 1; i <= n; i++)` that stops at the first ready slot. -/
def scan (ready : Fin n → Bool) (p : Fin n) : Option (Fin n) :=
  ((List.range' 1 n).find? (fun i => ready (candidate p i))).map (candidate p)

variable {p q r c : Fin n} {ready : Fin n → Bool}

theorem steps_cases (p q : Fin n) : (p.val < q.val ∧ steps p q = q - p) ∨
    (q.val ≤ p.val ∧ steps p q = q + n - p) := by
  unfold steps
  split
  · next h => exact .inl ⟨h, rfl⟩
  · next h => exact .inr ⟨Nat.le_of_not_lt h, rfl⟩

theorem ahead_cases (p q : Fin n) : (p.val ≤ q.val ∧ ahead p q = q - p) ∨
    (q.val < p.val ∧ ahead p q = q + n - p) := by
  unfold ahead
  split
  · next h => exact .inl ⟨h, rfl⟩
  · next h => exact .inr ⟨Nat.lt_of_not_le h, rfl⟩

theorem steps_pos (p q : Fin n) : 0 < steps p q := by
  have hp := p.isLt
  have hs := steps_cases p q
  omega

theorem steps_le (p q : Fin n) : steps p q ≤ n := by
  have hq := q.isLt
  have hs := steps_cases p q
  omega

theorem steps_lt (h : q ≠ p) : steps p q < n := by
  have hv : q.val ≠ p.val := fun hv => h (Fin.ext hv)
  have hq := q.isLt
  have hs := steps_cases p q
  omega

theorem candidate_steps (p q : Fin n) : candidate p (steps p q) = q := by
  have hp := p.isLt
  have hq := q.isLt
  apply Fin.ext
  change (p.val + steps p q) % n = q.val
  rcases steps_cases p q with ⟨h, hs⟩ | ⟨h, hs⟩
  · rw [hs, show p.val + (q.val - p.val) = q.val by omega, Nat.mod_eq_of_lt hq]
  · rw [hs, show p.val + (q.val + n - p.val) = q.val + n by omega, Nat.add_mod_right,
      Nat.mod_eq_of_lt hq]

theorem candidate_cases (p : Fin n) {i : ℕ} (hn : i ≤ n) :
    (p.val + i < n ∧ (candidate p i).val = p + i) ∨ (n ≤ p.val + i ∧ (candidate p i).val = p + i - n) := by
  have hp := p.isLt
  change (_ ∧ (p.val + i) % n = _) ∨ (_ ∧ (p.val + i) % n = _)
  by_cases h : p.val + i < n
  · exact .inl ⟨h, Nat.mod_eq_of_lt h⟩
  · refine .inr ⟨by omega, ?_⟩
    rw [Nat.mod_eq_sub_mod (by omega), Nat.mod_eq_of_lt (by omega)]

theorem steps_candidate {i : ℕ} (h0 : 0 < i) (hn : i ≤ n) : steps p (candidate p i) = i := by
  have hp := p.isLt
  have hc := candidate_cases p hn
  have hs := steps_cases p (candidate p i)
  omega

theorem steps_inj (h : steps p q = steps p r) : q = r := by
  rw [← candidate_steps p q, h, candidate_steps]

@[simp] theorem steps_self (p : Fin n) : steps p p = n := by
  unfold steps
  rw [if_neg (lt_irrefl _)]
  omega

/-- Steps add up on the way to a slot. -/
theorem steps_add (h : steps p r ≤ steps p q) (hne : r ≠ q) : steps p r + steps r q = steps p q := by
  have hv : r.val ≠ q.val := fun hv => hne (Fin.ext hv)
  have h1 := steps_cases p r
  have h2 := steps_cases p q
  have h3 := steps_cases r q
  have hq := q.isLt
  omega

theorem steps_split (h : steps p r ≤ steps p q) (hne : r ≠ q) (hsum : steps c p + steps p q = steps c q) :
    steps c r + steps r q = steps c q ∧ steps r q < steps p q := by
  have hv : r.val ≠ q.val := fun hv => hne (Fin.ext hv)
  have h1 := steps_cases p r
  have h2 := steps_cases p q
  have h3 := steps_cases c p
  have h4 := steps_cases c q
  have h5 := steps_cases c r
  have h6 := steps_cases r q
  have hq := q.isLt
  omega

theorem scan_eq_some : scan ready p = some q ↔
    ready q = true ∧ ∀ r, ready r = true → steps p q ≤ steps p r := by
  rw [scan, Option.map_eq_some_iff]
  constructor
  · rintro ⟨i, hi, rfl⟩
    obtain ⟨hready, hmem, hmin⟩ := List.find?_range'_eq_some.mp hi
    obtain ⟨h1, hn⟩ := List.mem_range'_1.mp hmem
    refine ⟨hready, ?_⟩
    intro r hr
    rw [steps_candidate (by omega) (by omega)]
    by_contra hlt
    have hnot := hmin (steps p r) (steps_pos p r) (by omega)
    rw [candidate_steps, hr] at hnot
    cases hnot
  · rintro ⟨hready, hmin⟩
    refine ⟨steps p q, ?_, candidate_steps p q⟩
    refine List.find?_range'_eq_some.mpr ⟨by rwa [candidate_steps], ?_, ?_⟩
    · have h0 := steps_pos p q
      have hn := steps_le p q
      exact List.mem_range'_1.mpr ⟨h0, by omega⟩
    · intro j h1 hj
      have hn := steps_le p q
      by_contra hr
      have hle := hmin (candidate p j) (by simpa using hr)
      rw [steps_candidate h1 (by omega)] at hle
      omega

theorem scan_eq_none : scan ready p = none ↔ ∀ r, ready r = false := by
  rw [scan, Option.map_eq_none_iff, List.find?_eq_none]
  constructor
  · intro h r
    have h0 := steps_pos p r
    have hn := steps_le p r
    have hr := h (steps p r) (List.mem_range'_1.mpr ⟨h0, by omega⟩)
    rw [candidate_steps] at hr
    simpa using hr
  · intro h i _
    simp [h]

/-- What can happen around the pointer. -/
inductive Move (n : ℕ)
  | elect (q : Fin n)
  | pass
  | grow

/-- The pointer at `c` with the ready slots `R`. -/
inductive Turn : Fin n × Set (Fin n) → Move n → Fin n × Set (Fin n) → Prop
  | elect {c q : Fin n} {R R' : Set (Fin n)} : q ∈ R → (∀ r ∈ R, steps c q ≤ steps c r) →
      (∀ r ∈ R, r ≠ q → r ∈ R') → c ∈ R' → Turn (c, R) (.elect q) (q, R')
  | pass {c : Fin n} {R : Set (Fin n)} : (∀ r, r ∉ R) → Turn (c, R) .pass (c, R)
  | grow {c : Fin n} {R R' : Set (Fin n)} : R ⊆ R' → Turn (c, R) .grow (c, R')

def elected : List (Move n) → List (Fin n)
  | [] => []
  | .elect q :: tr => q :: elected tr
  | .pass :: tr => elected tr
  | .grow :: tr => elected tr

theorem mem_elected {tr : List (Move n)} : q ∈ elected tr ↔ .elect q ∈ tr := by
  induction tr with
  | nil => simp [elected]
  | cons m tr ih => cases m <;> simp [elected, ih]

theorem ahead_self (p : Fin n) : ahead p p = 0 := by simp [ahead]

theorem ahead_pos (h : q ≠ p) : 0 < ahead p q := by
  have hv : q.val ≠ p.val := fun hv => h (Fin.ext hv)
  have hp := p.isLt
  have ha := ahead_cases p q
  omega

/-- Up to a full turn, distances from `p` are distances from `c` shifted. -/
theorem steps_eq_of_ahead (h : ahead p c < ahead p r) : steps c r = ahead p r - ahead p c := by
  have hp := p.isLt
  have hc := c.isLt
  have hr := r.isLt
  have hac := ahead_cases p c
  have har := ahead_cases p r
  have hs := steps_cases c r
  omega

theorem steps_back (p c : Fin n) : steps c p = n - ahead p c := by
  have hp := p.isLt
  have hc := c.isLt
  have ha := ahead_cases p c
  have hs := steps_cases c p
  omega

theorem ahead_lt_of_steps_le (h : steps c q ≤ steps c p) (hqp : q ≠ p) : ahead p c < ahead p q := by
  have hv : q.val ≠ p.val := fun hv => hqp (Fin.ext hv)
  have hp := p.isLt
  have hc := c.isLt
  have hq := q.isLt
  have hsq := steps_cases c q
  have hsp := steps_cases c p
  have hac := ahead_cases p c
  have haq := ahead_cases p q
  omega

theorem ahead_lt (p q : Fin n) : ahead p q < n := by
  have hp := p.isLt
  have hq := q.isLt
  have ha := ahead_cases p q
  omega

/-- The pointer left `p` with `R` ready, elected `E` and is now at `c` with `S` ready. -/
structure Sweep (p : Fin n) (R : Set (Fin n)) (E : List (Fin n)) (c : Fin n) (S : Set (Fin n)) : Prop where
  ordered : E.Pairwise (fun q r => ahead p q < ahead p r)
  behind : ∀ q ∈ E, ahead p q ≤ ahead p c
  done : ∀ r ∈ R, r ≠ p → ahead p r ≤ ahead p c → r ∈ E
  waiting : ∀ r ∈ R, ahead p c < ahead p r → r ∈ S
  left : c ≠ p → p ∈ S

variable {R S S' : Set (Fin n)} {E : List (Fin n)} {tr : List (Move n)}

theorem sweep_start (p : Fin n) (R : Set (Fin n)) : Sweep p R [] p R where
  ordered := .nil
  behind _ hq := absurd hq List.not_mem_nil
  done r _ hrp hr := by
    have hpos := ahead_pos hrp
    rw [ahead_self] at hr
    omega
  waiting _ hr _ := hr
  left h := absurd rfl h

/-- An elected slot other than `p` lies beyond the pointer. -/
theorem sweep_forward (h : Sweep p R E c S) (hmin : ∀ r ∈ S, steps c q ≤ steps c r) (hqp : q ≠ p) :
    ahead p c < ahead p q := by
  by_cases hc : c = p
  · subst hc
    rw [ahead_self]
    exact ahead_pos hqp
  · exact ahead_lt_of_steps_le (hmin p (h.left hc)) hqp

theorem sweep_elect (h : Sweep p R E c S) (hmin : ∀ r ∈ S, steps c q ≤ steps c r)
    (hkeep : ∀ r ∈ S, r ≠ q → r ∈ S') (hold : c ∈ S') (hqp : q ≠ p) : Sweep p R (E ++ [q]) q S' := by
  have hfwd := sweep_forward h hmin hqp
  refine ⟨?_, ?_, ?_, ?_, ?_⟩
  · refine List.pairwise_append.mpr ⟨h.ordered, List.pairwise_singleton _ _, ?_⟩
    intro e he r hr
    rw [List.mem_singleton.mp hr]
    exact (h.behind e he).trans_lt hfwd
  · intro e he
    rcases List.mem_append.mp he with he | he
    · exact (h.behind e he).trans hfwd.le
    · rw [List.mem_singleton.mp he]
  · intro r hr hrp hle
    by_cases hrc : ahead p r ≤ ahead p c
    · exact List.mem_append_left _ (h.done r hr hrp hrc)
    · have hlt : ahead p c < ahead p r := Nat.lt_of_not_le hrc
      have hsteps := hmin r (h.waiting r hr hlt)
      rw [steps_eq_of_ahead hlt, steps_eq_of_ahead hfwd] at hsteps
      have hsame : steps c r = steps c q := by
        rw [steps_eq_of_ahead hlt, steps_eq_of_ahead hfwd]
        omega
      rw [steps_inj hsame]
      exact List.mem_append_right _ (List.mem_singleton_self q)
  · intro r hr hlt
    refine hkeep r (h.waiting r hr (hfwd.trans hlt)) ?_
    rintro rfl
    exact lt_irrefl _ hlt
  · intro _
    by_cases hc : c = p
    · exact hc ▸ hold
    · exact hkeep p (h.left hc) (Ne.symm hqp)

theorem sweep_run {c d : Fin n} (h : Sweep p R E c S) (hr : Runs Turn (c, S) tr (d, S'))
    (hp : .elect p ∉ tr) : Sweep p R (E ++ elected tr) d S' := by
  generalize hs : (c, S) = s at hr
  generalize ht : (d, S') = t at hr
  induction hr generalizing c S E with
  | nil s =>
    subst hs
    cases ht
    rw [elected, List.append_nil]
    exact h
  | @cons s u t m tr hstep _ ih =>
    subst hs
    rw [List.mem_cons, not_or] at hp
    cases hstep with
    | @elect _ q _ U hq hmin hkeep hold =>
      have hqp : q ≠ p := fun hqp => hp.1 (hqp ▸ rfl)
      have hnext := ih (sweep_elect h hmin hkeep hold hqp) hp.2 rfl ht
      rwa [List.append_assoc] at hnext
    | pass hnone => exact ih h hp.2 rfl ht
    | grow hsub =>
      refine ih ⟨h.ordered, h.behind, h.done, ?_, ?_⟩ hp.2 rfl ht
      · exact fun r hr hlt => hsub (h.waiting r hr hlt)
      · exact fun hc => hsub (h.left hc)

/-- Between two visits to `p` the others are visited in cyclic order, none twice,
and no slot that was ready at the first visit is left out. -/
theorem sweep_complete (hr : Runs Turn (p, R) tr (c, S)) (hp : .elect p ∉ tr)
    (hmin : ∀ r ∈ S, steps c p ≤ steps c r) :
    (elected tr).Pairwise (fun q r => ahead p q < ahead p r) ∧ ∀ r ∈ R, r ≠ p → r ∈ elected tr := by
  have h := sweep_run (sweep_start p R) hr hp
  refine ⟨h.ordered, ?_⟩
  intro r hrR hrp
  refine h.done r hrR hrp ?_
  by_contra hlt
  have hlt' : ahead p c < ahead p r := Nat.lt_of_not_le hlt
  have hle := hmin r (h.waiting r hrR hlt')
  have hr := ahead_lt p r
  rw [steps_back, steps_eq_of_ahead hlt'] at hle
  omega

/-- How often the pointer was asked to move. -/
def turns : List (Move n) → ℕ
  | [] => 0
  | .elect _ :: tr => turns tr + 1
  | .pass :: tr => turns tr + 1
  | .grow :: tr => turns tr

theorem steps_sub (h : steps c r < steps c q) : steps r q = steps c q - steps c r := by
  have hc := c.isLt
  have hq := q.isLt
  have hr := r.isLt
  have h1 := steps_cases c r
  have h2 := steps_cases c q
  have h3 := steps_cases r q
  omega

/-- A ready slot is passed over at most once for every slot in front of it. -/
theorem turns_lt_steps {c d : Fin n} (hr : Runs Turn (c, S) tr (d, S')) (hq : q ∈ S)
    (hnot : .elect q ∉ tr) : q ∈ S' ∧ turns tr + steps d q ≤ steps c q := by
  generalize hs : (c, S) = s at hr
  generalize ht : (d, S') = t at hr
  induction hr generalizing c S with
  | nil s =>
    subst hs
    cases ht
    exact ⟨hq, by rw [turns, Nat.zero_add]⟩
  | @cons s u t m tr hstep _ ih =>
    subst hs
    rw [List.mem_cons, not_or] at hnot
    cases hstep with
    | @elect _ e _ U he hmin hkeep hold =>
      have hne : q ≠ e := fun hqe => hnot.1 (hqe ▸ rfl)
      obtain ⟨hqS, hle⟩ := ih (hkeep q hq hne) hnot.2 rfl ht
      have hlt : steps c e < steps c q := lt_of_le_of_ne (hmin q hq) (fun h => hne (steps_inj h).symm)
      have hpos := steps_pos c e
      rw [steps_sub hlt] at hle
      exact ⟨hqS, by rw [turns]; omega⟩
    | pass hnone => exact absurd hq (hnone q)
    | grow hsub => exact ih (hsub hq) hnot.2 rfl ht

end CyclicScan
