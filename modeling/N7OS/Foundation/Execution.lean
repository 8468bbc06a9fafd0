import Mathlib.Data.List.Basic
import Mathlib.Data.List.Forall2
import Mathlib.Logic.Function.Basic

/-! # Counted loops and labelled runs

Two ways a program takes step after step: a counted loop, whose body sees its
index, and a run of a labelled transition relation, whose labels form a trace.
Each comes with the one rule that turns a step lemma into a run lemma.
-/
namespace Execution
variable {σ α : Type*}

/-- The loop `for (i = 0; i < n; i++) body i`. -/
def countedLoop : ℕ → (ℕ → σ → σ) → σ → σ
  | 0, _, s => s
  | n + 1, body, s => body n (countedLoop n body s)

theorem countedLoop_succ (n : ℕ) (body : ℕ → σ → σ) (s : σ) :
    countedLoop (n + 1) body s = body n (countedLoop n body s) := rfl

/-- An indexed invariant kept by every iteration holds after the loop. -/
theorem countedLoop_invariant (I : ℕ → σ → Prop) {n : ℕ} {body : ℕ → σ → σ} {s : σ}
    (h0 : I 0 s) (hstep : ∀ i t, i < n → I i t → I (i + 1) (body i t)) :
    I n (countedLoop n body s) := by
  induction n with
  | zero => exact h0
  | succ n ih =>
    have hn : I n (countedLoop n body s) := ih (fun i t hi ht => hstep i t (by omega) ht)
    exact hstep n _ (by omega) hn

/-- Filling `n` consecutive cells of an array given as a function. -/
theorem countedLoop_fill {β : Type*} (f : ℕ → β) (start n : ℕ) (v : β) (x : ℕ) :
    countedLoop n (fun i f => Function.update f (start + i) v) f x =
      if start ≤ x ∧ x < start + n then v else f x := by
  induction n with
  | zero =>
    rw [if_neg (by omega)]
    rfl
  | succ n ih =>
    rw [countedLoop_succ, Function.update_apply, ih]
    by_cases hx : x = start + n
    · rw [if_pos hx, if_pos (by omega)]
    · rw [if_neg hx]
      exact if_congr (by omega) rfl rfl

/-- A run from one state to another, with the labels of its steps in order. -/
inductive Runs (step : σ → α → σ → Prop) : σ → List α → σ → Prop
  | nil (s : σ) : Runs step s [] s
  | cons {s t u : σ} {a : α} {tr : List α} :
      step s a t → Runs step t tr u → Runs step s (a :: tr) u

variable {step : σ → α → σ → Prop} {s t u : σ} {a : α} {tr tr' : List α}

theorem Runs.append (h : Runs step s tr t) (h' : Runs step t tr' u) : Runs step s (tr ++ tr') u := by
  induction h with
  | nil => exact h'
  | cons hs _ ih => exact .cons hs (ih h')

theorem Runs.unique (hdet : ∀ s a t u, step s a t → step s a u → t = u) (h : Runs step s tr t)
    (h' : Runs step s tr u) : t = u := by
  induction h with
  | nil =>
    cases h'
    rfl
  | cons hst _ ih =>
    cases h' with
    | cons hst' hrun' =>
      obtain rfl := hdet _ _ _ _ hst hst'
      exact ih hrun'

/-- A run over a concatenated trace passes through a state between the parts. -/
theorem Runs.split (h : Runs step s (tr ++ tr') u) : ∃ t, Runs step s tr t ∧ Runs step t tr' u := by
  induction tr generalizing s with
  | nil => exact ⟨s, .nil s, h⟩
  | cons a tr ih =>
    cases h with
    | cons hs hr =>
      obtain ⟨t, ht, hu⟩ := ih hr
      exact ⟨t, .cons hs ht, hu⟩

/-- The states around one step of a run. -/
theorem Runs.split_cons (h : Runs step s (tr ++ a :: tr') u) :
    ∃ t t', Runs step s tr t ∧ step t a t' ∧ Runs step t' tr' u := by
  obtain ⟨t, ht, hr⟩ := h.split
  cases hr with
  | cons hs hr => exact ⟨t, _, ht, hs, hr⟩

/-- A step simulation extends to runs: the labels of the two runs correspond one by one. -/
theorem Runs.simulation {τ β : Type*} (step' : τ → β → τ → Prop) (R : σ → τ → Prop) (L : α → β → Prop)
    (hstep : ∀ s a t s', R s s' → step s a t → ∃ b t', L a b ∧ step' s' b t' ∧ R t t')
    (h : Runs step s tr t) {s' : τ} (hs : R s s') :
    ∃ tr' t', List.Forall₂ L tr tr' ∧ Runs step' s' tr' t' ∧ R t t' := by
  induction h generalizing s' with
  | nil => exact ⟨[], s', .nil, .nil s', hs⟩
  | cons hst _ ih =>
    obtain ⟨b, u', hb, hstep', hu⟩ := hstep _ _ _ _ hs hst
    obtain ⟨tr', t', htr, hruns, ht⟩ := ih hu
    exact ⟨b :: tr', t', .cons hb htr, .cons hstep' hruns, ht⟩

/-- Every label of the simulating run answers a label of the simulated one. -/
theorem mem_of_labels {β : Type*} {L : α → β → Prop} {tr' : List β} (h : List.Forall₂ L tr tr')
    {b : β} (hb : b ∈ tr') : ∃ a ∈ tr, L a b := by
  induction h with
  | nil => cases hb
  | cons hl _ ih =>
    rcases List.mem_cons.mp hb with rfl | hb
    · exact ⟨_, List.mem_cons_self, hl⟩
    · obtain ⟨a, ha, hab⟩ := ih hb
      exact ⟨a, List.mem_cons_of_mem _ ha, hab⟩

/-- An invariant of every step is an invariant of every run. -/
theorem Runs.invariant (I : σ → Prop) (hstep : ∀ s a t, I s → step s a t → I t)
    (h : Runs step s tr t) (hs : I s) : I t := by
  induction h with
  | nil => exact hs
  | cons hst _ ih => exact ih (hstep _ _ _ hs hst)

/-- An invariant that also mentions the trace so far. -/
theorem Runs.history (I : List α → σ → Prop)
    (hstep : ∀ past s a t, I past s → step s a t → I (past ++ [a]) t)
    {past : List α} (h : Runs step s tr t) (hs : I past s) : I (past ++ tr) t := by
  induction h generalizing past with
  | nil => simpa using hs
  | cons hst _ ih => simpa using ih (hstep _ _ _ _ hs hst)

/-- The same from the empty trace. -/
theorem Runs.history_nil (I : List α → σ → Prop)
    (hstep : ∀ past s a t, I past s → step s a t → I (past ++ [a]) t)
    (h : Runs step s tr t) (hs : I [] s) : I tr t := h.history I hstep hs

/-- Every step of the trace starts in a state that meets its condition. -/
def EachStep (step : σ → α → σ → Prop) (P : σ → α → Prop) (s : σ) (tr : List α) : Prop :=
  ∀ pre a post t, tr = pre ++ a :: post → Runs step s pre t → P t a

section EachStep
variable {P : σ → α → Prop}

theorem eachStep_nil : EachStep step P s [] := by
  intro pre a post t h
  simp at h

theorem eachStep_cons : EachStep step P s (a :: tr) ↔ P s a ∧ ∀ t, step s a t → EachStep step P t tr := by
  constructor
  · intro h
    refine ⟨h [] a tr s rfl (.nil s), ?_⟩
    rintro t hst pre b post u rfl hrun
    exact h (a :: pre) b post u rfl (.cons hst hrun)
  · rintro ⟨hs, hrest⟩ pre b post u heq hrun
    cases hrun with
    | nil => exact (List.cons.inj heq).1 ▸ hs
    | cons hst hrun =>
      obtain ⟨rfl, rfl⟩ := List.cons.inj heq
      exact hrest _ hst _ b post u rfl hrun

theorem eachStep_append : EachStep step P s (tr ++ tr') ↔
    EachStep step P s tr ∧ ∀ t, Runs step s tr t → EachStep step P t tr' := by
  induction tr generalizing s with
  | nil =>
    refine ⟨fun h => ⟨eachStep_nil, ?_⟩, fun h => h.2 s (.nil s)⟩
    rintro t ⟨⟩
    exact h
  | cons a tr ih =>
    rw [List.cons_append, eachStep_cons, eachStep_cons]
    simp only [ih]
    constructor
    · rintro ⟨hs, hrest⟩
      refine ⟨⟨hs, fun t hst => (hrest t hst).1⟩, ?_⟩
      rintro u (_ | ⟨hst, hrun⟩)
      exact (hrest _ hst).2 u hrun
    · rintro ⟨⟨hs, hfirst⟩, hrest⟩
      exact ⟨hs, fun t hst => ⟨hfirst t hst, fun u hrun => hrest u (.cons hst hrun)⟩⟩

theorem eachStep_of_forall (h : ∀ a ∈ tr, ∀ s, P s a) : EachStep step P s tr := by
  rintro pre a post t rfl _
  exact h a (by simp) t

/-- What is kept by every step that meets its condition is kept by a run of such steps. -/
theorem Runs.invariant_of_eachStep (I : σ → Prop) (hstep : ∀ s a t, I s → P s a → step s a t → I t)
    (h : Runs step s tr t) (hP : EachStep step P s tr) (hs : I s) : I t := by
  induction h with
  | nil => exact hs
  | cons hst _ ih =>
    obtain ⟨hfirst, hrest⟩ := eachStep_cons.mp hP
    exact ih (hrest _ hst) (hstep _ _ _ hs hfirst hst)

end EachStep

end Execution
