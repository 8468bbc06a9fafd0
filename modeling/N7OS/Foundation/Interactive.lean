import Mathlib.Data.Nat.Basic
import Mathlib.Data.Sum.Basic
import Mathlib.Tactic.SplitIfs

/-! # Programs that read what is typed

A program changes a device and reads from the input that is ahead of it; it ends with a
value, waits for more input, or does what is undefined. Programs over two devices are
related when they read the same and keep the devices related; the rules go along sequences and
loops.
-/
namespace Interactive

universe u
variable {σ τ ι : Type u} {α β γ δ : Type u}

inductive Outcome (σ ι α : Type u)
  | done (a : α) (s : σ) (rest : List ι)
  | waits (s : σ)
  | undefined
deriving DecidableEq

/-- From a device and the input to come. -/
def Program (σ ι α : Type u) := σ → List ι → Outcome σ ι α

namespace Program

def bind (p : Program σ ι α) (f : α → Program σ ι β) : Program σ ι β := fun s input =>
  match p s input with
  | .done a s rest => f a s rest
  | .waits s => .waits s
  | .undefined => .undefined

instance : Monad (Program σ ι) where
  pure a := fun s input => .done a s input
  bind := bind

/-- A step that reads nothing. -/
def act (f : σ → Option σ) : Program σ ι PUnit := fun s input =>
  match f s with
  | some s => .done ⟨⟩ s input
  | none => .undefined

/-- One element of the input. -/
def next : Program σ ι ι := fun s input =>
  match input with
  | [] => .waits s
  | c :: rest => .done c s rest

/-- A loop that goes on with a value of `α` until it leaves with one of `β`. A round that reads nothing is
left undefined. -/
def loop (body : α → Program σ ι (β ⊕ α)) (a : α) : Program σ ι β := fun s input =>
  match body a s input with
  | .done (.inl b) s rest => .done b s rest
  | .done (.inr a) s rest => if rest.length < input.length then loop body a s rest else .undefined
  | .waits s => .waits s
  | .undefined => .undefined
termination_by _ input => input.length

theorem bind_eq (p : Program σ ι α) (f : α → Program σ ι β) : p >>= f = bind p f := rfl

theorem bind_assoc (p : Program σ ι α) (f : α → Program σ ι β) (g : β → Program σ ι γ) :
    p >>= f >>= g = p >>= fun a => f a >>= g := by
  funext s input
  simp only [bind_eq, bind]
  cases p s input <;> rfl

theorem bind_pure_map (p : Program σ ι PUnit) (a : α) (f : α → β) :
    ((p >>= fun _ => Pure.pure a) >>= fun x => Pure.pure (f x)) = p >>= fun _ => Pure.pure (f a) := bind_assoc _ _ _

theorem map_apply (f : α → β) (p : Program σ ι α) (s : σ) (input : List ι) :
    (f <$> p) s input = match p s input with
      | .done a s rest => .done (f a) s rest
      | .waits s => .waits s
      | .undefined => .undefined := rfl

/-- A round that leaves the loop. -/
theorem loop_map_inl {body : α → Program σ ι (β ⊕ α)} {a : α} {p : Program σ ι β} {s s' : σ} {input rest : List ι}
    (h : body a s input = (Sum.inl <$> p) s' rest) : loop body a s input = p s' rest := by
  rw [loop, h, map_apply]
  cases p s' rest <;> rfl

/-- A round that goes on. -/
theorem loop_again {body : α → Program σ ι (β ⊕ α)} {a a' : α} {s s' : σ} {input rest : List ι}
    (h : body a s input = .done (.inr a') s' rest) (hlt : rest.length < input.length) :
    loop body a s input = loop body a' s' rest := by
  rw [loop, h]
  exact if_pos hlt

/-- The program reads at least `n` elements before it ends. -/
def Reads (n : ℕ) (p : Program σ ι α) : Prop :=
  ∀ s input a s' rest, p s input = .done a s' rest → rest.length + n ≤ input.length

/-- A loop reads something in every round after which it goes on. -/
def Rounds (body : α → Program σ ι (β ⊕ α)) : Prop :=
  ∀ a s input a' s' rest, body a s input = .done (.inr a') s' rest → rest.length < input.length

section
variable {n m : ℕ} {p : Program σ ι α} {f : α → Program σ ι β}

theorem Reads.mono (h : Reads n p) (hle : m ≤ n) : Reads m p := by
  intro s input a s' rest hp
  have hread := h s input a s' rest hp
  omega

theorem Reads.pure (a : α) : Reads 0 (Pure.pure a : Program σ ι α) := by
  intro s input a s' rest h
  cases h
  exact le_rfl

theorem Reads.act (f : σ → Option σ) : Reads 0 (act f : Program σ ι PUnit) := by
  intro s input a s' rest h
  unfold Program.act at h
  split at h
  · cases h
    exact le_rfl
  · cases h

theorem Reads.next : Reads 1 (next : Program σ ι ι) := by
  intro s input a s' rest h
  cases input with
  | nil => cases h
  | cons c input =>
    cases h
    exact le_rfl

theorem Reads.bind (hp : Reads n p) (hf : ∀ a, Reads m (f a)) : Reads (n + m) (p >>= f) := by
  intro s input b s' rest h
  rw [bind_eq, Program.bind] at h
  split at h
  · next a s₁ rest₁ hdone =>
    have hfirst := hp s input a s₁ rest₁ hdone
    have hsecond := hf a s₁ rest₁ b s' rest h
    omega
  · cases h
  · cases h

theorem Reads.ite {c : Prop} [Decidable c] {q : Program σ ι α} (hp : c → Reads n p) (hq : ¬c → Reads n q) :
    Reads n (if c then p else q) := by
  split_ifs with h
  · exact hp h
  · exact hq h

/-- A loop reads what its first round reads. -/
theorem Reads.loop {body : α → Program σ ι (β ⊕ α)} (hbody : ∀ a, Reads 0 (body a)) {a : α} (hfirst : Reads n (body a)) :
    Reads n (loop body a) := by
  intro s input
  induction hk : input.length using Nat.strong_induction_on generalizing a s input n with
  | _ k ih =>
    intro b s' rest h
    rw [Program.loop] at h
    split at h
    · next hdone =>
      cases h
      exact hk ▸ hfirst s input _ _ _ hdone
    · next a' s₁ rest₁ hdone =>
      split_ifs at h with hlt
      have hread := hfirst s input _ _ _ hdone
      have hrest := ih rest₁.length (hk ▸ hlt) (hbody a') s₁ rest₁ rfl b s' rest h
      omega
    · cases h
    · cases h

theorem Rounds.of_reads {body : α → Program σ ι (β ⊕ α)} (h : ∀ a, Reads 1 (body a)) : Rounds body := by
  intro a s input a' s' rest hdone
  have hread := h a s input _ s' rest hdone
  omega

end

/-! ## Simulation -/

/-- The outcomes agree, up to the devices and the values. -/
inductive Agree (D : σ → τ → Prop) (R : α → β → Prop) : Outcome σ ι α → Outcome τ ι β → Prop
  | done {a : α} {b : β} {s : σ} {t : τ} (hR : R a b) (hD : D s t) (rest : List ι) : Agree D R (.done a s rest) (.done b t rest)
  | waits {s : σ} {t : τ} (hD : D s t) : Agree D R (.waits s) (.waits t)

/-- Neither program does what is undefined, and they go the same way. -/
def Simulates (D : σ → τ → Prop) (R : α → β → Prop) (p : Program σ ι α) (q : Program τ ι β) : Prop :=
  ∀ s t input, D s t → Agree D R (p s input) (q t input)

section
variable {D : σ → τ → Prop} {R : α → β → Prop} {S : γ → δ → Prop} {p : Program σ ι α} {q : Program τ ι β}

theorem Simulates.pure {a : α} {b : β} (h : R a b) :
    Simulates D R (Pure.pure a : Program σ ι α) (Pure.pure b : Program τ ι β) := fun _ _ input hD => .done h hD input

theorem Simulates.mono {R' : α → β → Prop} (h : Simulates D R p q) (hR : ∀ a b, R a b → R' a b) :
    Simulates D R' p q := by
  intro s t input hD
  have hagree := h s t input hD
  generalize p s input = o, q t input = o' at hagree ⊢
  cases hagree with
  | done hab hD' rest => exact .done (hR _ _ hab) hD' rest
  | waits hD' => exact .waits hD'

theorem Simulates.act {f : σ → Option σ} {g : τ → Option τ}
    (h : ∀ s t, D s t → ∃ s' t', f s = some s' ∧ g t = some t' ∧ D s' t') :
    Simulates D Eq (act f : Program σ ι PUnit) (act g : Program τ ι PUnit) := by
  intro s t input hD
  obtain ⟨s', t', hf, hg, hD'⟩ := h s t hD
  rw [Program.act, Program.act, hf, hg]
  exact .done rfl hD' input

theorem Simulates.next : Simulates D Eq (next : Program σ ι ι) (next : Program τ ι ι) := by
  intro s t input hD
  cases input with
  | nil => exact .waits hD
  | cons c rest => exact .done rfl hD rest

/-- Along a sequence. -/
theorem Simulates.bind {f : α → Program σ ι γ} {g : β → Program τ ι δ} (h : Simulates D R p q)
    (hf : ∀ a b, R a b → Simulates D S (f a) (g b)) : Simulates D S (p >>= f) (q >>= g) := by
  intro s t input hD
  have hagree := h s t input hD
  rw [bind_eq, bind_eq, Program.bind, Program.bind]
  generalize p s input = o, q t input = o' at hagree ⊢
  cases hagree with
  | done hab hD' rest => exact hf _ _ hab _ _ rest hD'
  | waits hD' => exact .waits hD'

theorem Simulates.ite {c c' : Prop} [Decidable c] [Decidable c'] {p' : Program σ ι α} {q' : Program τ ι β} (hc : c ↔ c')
    (h : c → Simulates D R p q) (h' : ¬c → Simulates D R p' q') :
    Simulates D R (if c then p else p') (if c' then q else q') := by
  by_cases hp : c
  · rw [if_pos hp, if_pos (hc.mp hp)]
    exact h hp
  · rw [if_neg hp, if_neg (mt hc.mpr hp)]
    exact h' hp

/-- Around a loop whose rounds read something. -/
theorem Simulates.loop {body : α → Program σ ι (γ ⊕ α)} {body' : β → Program τ ι (δ ⊕ β)}
    (h : ∀ a b, R a b → Simulates D (Sum.LiftRel S R) (body a) (body' b)) (hrounds : Rounds body')
    {a : α} {b : β} (hR : R a b) : Simulates D S (loop body a) (loop body' b) := by
  intro s t input hD
  induction hk : input.length using Nat.strong_induction_on generalizing a b s t input with
  | _ k ih =>
    have hagree := h a b hR s t input hD
    have hround := hrounds b t input
    rw [Program.loop, Program.loop]
    generalize body a s input = o, body' b t input = o' at hagree hround ⊢
    cases hagree with
    | waits hD' => exact .waits hD'
    | done hab hD' rest =>
      cases hab with
      | inl hS => exact .done hS hD' rest
      | inr hR' =>
        have hlt : rest.length < input.length := hround _ _ rest rfl
        dsimp only
        rw [if_pos hlt, if_pos hlt]
        exact ih rest.length (hk ▸ hlt) hR' _ _ rest hD' rfl

end

end Program

end Interactive
