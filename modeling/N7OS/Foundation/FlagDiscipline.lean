import Mathlib.Order.Basic
import N7OS.Foundation.Interrupts

/-! # A discipline for the interrupt flag

What is known of the interrupts at each point of a thread's own code is a level.
The code is checked level by level as if it ran alone: an interrupt restores the
flag it has saved, and nothing is supposed of the flag after a switch.
-/
namespace Interrupts

/-- In a handler before its end of interrupt; past it, with nothing known of the flag; with the
flag set; with the flag set, and no call of the scheduler to come. -/
inductive Level
  | pending
  | unknown
  | enabled
  | settled
deriving DecidableEq

namespace Level

instance : PartialOrder Level where
  le a b := a = b ∨ a = enabled ∧ b = unknown
  le_refl a := .inl rfl
  le_trans := by
    rintro a b c (rfl | ⟨rfl, rfl⟩) (rfl | ⟨h, rfl⟩)
    · exact .inl rfl
    · exact .inr ⟨h, rfl⟩
    · exact .inr ⟨rfl, rfl⟩
    · cases h
  le_antisymm := by
    rintro a b (rfl | ⟨rfl, rfl⟩) (h | ⟨h, h'⟩)
    · rfl
    · rfl
    · exact h.symm
    · cases h

/-- The end of interrupt has been sent. -/
def Live (a : Level) : Prop := a ≠ pending

def Enabled (a : Level) : Prop := a = enabled ∨ a = settled

/-- The level after `sti`, at a place from which on the scheduler is not called, or at another. -/
def afterSti : Level → Bool → Level
  | settled, _ => settled
  | _, true => settled
  | _, false => enabled

/-- What a level says of the flag and of the lines in service. -/
def Holds (a : Level) (flag : Bool) (inService : List ℕ) : Prop :=
  match a with
  | pending => flag = false ∧ ∃ n, inService = [n]
  | unknown => inService = []
  | enabled | settled => flag = true ∧ inService = []

variable {a b : Level} {flag : Bool} {inService : List ℕ}

theorem live_unknown : unknown.Live := by simp [Live]

theorem live_enabled : enabled.Live := by simp [Live]

theorem live_settled : settled.Live := by simp [Live]

theorem Live.mono (h : b.Live) (hab : a ≤ b) : a.Live := by
  rcases hab with rfl | ⟨rfl, rfl⟩
  · exact h
  · exact live_enabled

theorem Enabled.mono (h : b.Enabled) (hab : a ≤ b) : a.Enabled := by
  rcases hab with rfl | ⟨rfl, rfl⟩
  · exact h
  · exact .inl rfl

theorem afterSti_mono (hab : a ≤ b) (s : Bool) : a.afterSti s ≤ b.afterSti s := by
  rcases hab with rfl | ⟨rfl, rfl⟩
  · exact le_rfl
  · cases s with
    | true => exact le_refl settled
    | false => exact le_refl enabled

theorem eq_settled_of_le (h : settled ≤ b) : b = settled := by
  rcases h with rfl | ⟨h, _⟩
  · rfl
  · cases h

theorem afterSti_enabled (a : Level) (s : Bool) : (a.afterSti s).Enabled := by
  cases a with
  | settled => exact .inr rfl
  | _ =>
    cases s with
    | true => exact .inr rfl
    | false => exact .inl rfl

theorem afterSti_le (h : a.Live) : a.afterSti false ≤ a := by
  cases a with
  | pending => exact absurd rfl h
  | unknown => exact .inr ⟨rfl, rfl⟩
  | enabled => exact le_refl enabled
  | settled => exact le_refl settled

theorem Holds.inService_nil (h : a.Holds flag inService) (ha : a.Live) : inService = [] := by
  cases a with
  | pending => exact absurd rfl ha
  | unknown => exact h
  | enabled => exact h.2
  | settled => exact h.2

/-- Nothing is in service while the flag is set. -/
theorem Holds.inService_of_flag (h : a.Holds flag inService) (hf : flag = true) : inService = [] := by
  subst hf
  apply h.inService_nil
  rintro rfl
  exact Bool.noConfusion h.1

theorem holds_unknown (h : inService = []) : unknown.Holds flag inService := h

theorem holds_pending {n : ℕ} (h : inService = [n]) : pending.Holds false inService := ⟨rfl, n, h⟩

theorem Holds.flag_of_enabled (h : a.Holds flag inService) (ha : a.Enabled) : flag = true := by
  rcases ha with rfl | rfl
  · exact h.1
  · exact h.1

theorem holds_enabled (ha : a.Enabled) : a.Holds true [] := by
  rcases ha with rfl | rfl
  · exact ⟨rfl, rfl⟩
  · exact ⟨rfl, rfl⟩

end Level

open Level

section
variable {σ V X : Type}

/-- `Checked soft settles inv a p b`: code at level `a` that runs `p` comes out at level `b`, halts
with the flag set only, calls the scheduler with nothing in service only, and raises the
interrupts `soft` only. It keeps `inv`, which it may rely on, of the data. -/
inductive Checked (soft : V → Prop) (settles : X → Bool) (inv : σ → Prop) : Level → Stmt σ V X → Level → Prop
  | sti {a b : Level} {x : X} : a.Live → a.afterSti (settles x) ≤ b → Checked soft settles inv a (.sti x) b
  | hlt {a b : Level} {x : X} : a.Enabled → a ≤ b → Checked soft settles inv a (.hlt x) b
  | act {a b : Level} {f : σ → σ} : (∀ s, inv s → inv (f s)) → a ≤ b → Checked soft settles inv a (.act f) b
  | eoi {b : Level} : unknown ≤ b → Checked soft settles inv pending .eoi b
  | int {a b : Level} {v : V} : a.Live → soft v → a ≤ b → Checked soft settles inv a (.int v) b
  | iret {a b : Level} : a.Live → Checked soft settles inv a .iret b
  | schedule {a b : Level} : a ≤ unknown → unknown ≤ b → Checked soft settles inv a .schedule b
  | seq {a b c : Level} {p q : Stmt σ V X} : Checked soft settles inv a p b → Checked soft settles inv b q c →
      Checked soft settles inv a (.seq p q) c
  | branch {a b : Level} {f : σ → Stmt σ V X} : (∀ s, inv s → Checked soft settles inv a (f s) b) →
      Checked soft settles inv a (.branch f) b
  | choose {a b : Level} {ι : Type} {f : ι → Stmt σ V X} : (∀ i, Checked soft settles inv a (f i) b) →
      Checked soft settles inv a (.choose f) b
  | loop {a i b : Level} {c : σ → Bool} {p : Stmt σ V X} : a ≤ i → Checked soft settles inv i p i → i ≤ b →
      Checked soft settles inv a (.loop c p) b
  | forever {a i b : Level} {p : Stmt σ V X} : Checked soft settles inv a p i → Checked soft settles inv i p i →
      Checked soft settles inv a (.forever p) b

variable {soft : V → Prop} {settles : X → Bool} {inv : σ → Prop} {a a' b b' : Level} {p : Stmt σ V X}
  {k : List (Stmt σ V X)}

theorem Checked.mono (h : Checked soft settles inv a p b) (ha : a' ≤ a) (hb : b ≤ b') :
    Checked soft settles inv a' p b' := by
  induction h generalizing a' b' with
  | sti hl hle => exact .sti (hl.mono ha) (((afterSti_mono ha _).trans hle).trans hb)
  | hlt he hle => exact .hlt (he.mono ha) ((ha.trans hle).trans hb)
  | act hf hle => exact .act hf ((ha.trans hle).trans hb)
  | eoi hle =>
    rcases ha with rfl | ⟨_, h⟩
    · exact .eoi (hle.trans hb)
    · cases h
  | int hl hs hle => exact .int (hl.mono ha) hs ((ha.trans hle).trans hb)
  | iret hl => exact .iret (hl.mono ha)
  | schedule hle hle' => exact .schedule (ha.trans hle) (hle'.trans hb)
  | seq _ _ ihp ihq => exact .seq (ihp ha le_rfl) (ihq le_rfl hb)
  | branch _ ih => exact .branch fun s hs => ih s hs ha hb
  | choose _ ih => exact .choose fun i => ih i ha hb
  | loop hle hp hle' _ => exact .loop (ha.trans hle) hp (hle'.trans hb)
  | forever _ hi ihp _ => exact .forever (ihp ha le_rfl) hi

theorem Checked.forever_self (h : Checked soft settles inv a p a) : Checked soft settles inv a (.forever p) b :=
  .forever h h

/-- A list of statements to run one after the other, from level `a` on. -/
def CodeOk (soft : V → Prop) (settles : X → Bool) (inv : σ → Prop) : Level → List (Stmt σ V X) → Prop
  | _, [] => True
  | a, p :: k => ∃ b, Checked soft settles inv a p b ∧ CodeOk soft settles inv b k

theorem CodeOk.mono (h : CodeOk soft settles inv a k) (ha : a' ≤ a) : CodeOk soft settles inv a' k := by
  cases k with
  | nil => trivial
  | cons p k =>
    obtain ⟨b, hp, hk⟩ := h
    exact ⟨b, hp.mono ha le_rfl, hk⟩

/-- Code on its own. -/
theorem Checked.codeOk (h : Checked soft settles inv a p b) : CodeOk soft settles inv a [p] := ⟨b, h, trivial⟩

/-- Where the scheduler may be called, the calls to come have not been ruled out, and nothing is in
service. -/
theorem CodeOk.schedule (h : CodeOk soft settles inv a (.schedule :: k)) :
    a ≤ unknown ∧ CodeOk soft settles inv unknown k := by
  obtain ⟨b, hp, hk⟩ := h
  cases hp with
  | schedule hle hle' => exact ⟨hle, hk.mono hle'⟩

theorem not_settled_le_unknown : ¬settled ≤ unknown := fun h => by cases eq_settled_of_le h

theorem live_of_le_unknown (h : a ≤ unknown) : a.Live := live_unknown.mono h

theorem CodeOk.int {v : V} (h : CodeOk soft settles inv a (.int v :: k)) :
    a.Live ∧ soft v ∧ CodeOk soft settles inv a k := by
  obtain ⟨b, hp, hk⟩ := h
  cases hp with
  | int hl hs hle => exact ⟨hl, hs, hk.mono hle⟩

theorem CodeOk.iret (h : CodeOk soft settles inv a (.iret :: k)) : a.Live := by
  obtain ⟨b, hp, hk⟩ := h
  cases hp with
  | iret hl => exact hl

variable {T : Type} {c c' : Cpu σ} {k' : List (Stmt σ V X)} {e : Action T V X}

/-- A statement leads from a level that holds to a level that holds, and stays settled. -/
theorem CodeOk.local (h : CodeOk soft settles inv a k) (hl : Local c k e c' k')
    (ha : a.Holds c.flag c.inService) (hi : inv c.data) :
    inv c'.data ∧ ∃ a', a'.Holds c'.flag c'.inService ∧ CodeOk soft settles inv a' k' ∧
      (a = settled → a' = settled) := by
  cases hl with
  | sti x k =>
    obtain ⟨b, hp, hk⟩ := h
    cases hp with
    | sti hlive hle =>
      have hnil := ha.inService_nil hlive
      refine ⟨hi, a.afterSti (settles x), ?_, hk.mono hle, ?_⟩
      · simpa [hnil] using holds_enabled (afterSti_enabled a (settles x))
      · rintro rfl
        rfl
  | hlt x k =>
    obtain ⟨b, hp, hk⟩ := h
    cases hp with
    | hlt _ hle => exact ⟨hi, a, ha, hk.mono hle, id⟩
  | act f k =>
    obtain ⟨b, hp, hk⟩ := h
    cases hp with
    | act hf hle => exact ⟨hf _ hi, a, ha, hk.mono hle, id⟩
  | eoi k =>
    obtain ⟨b, hp, hk⟩ := h
    cases hp with
    | eoi hle =>
      obtain ⟨_, n, hn⟩ := ha
      refine ⟨hi, unknown, ?_, hk.mono hle, fun h => by cases h⟩
      simp [Holds, hn]
  | seq p q k =>
    obtain ⟨b, hp, hk⟩ := h
    cases hp with
    | seq hp hq => exact ⟨hi, a, ha, ⟨_, hp, _, hq, hk⟩, id⟩
  | branch f k =>
    obtain ⟨b, hp, hk⟩ := h
    cases hp with
    | branch hf => exact ⟨hi, a, ha, ⟨b, hf _ hi, hk⟩, id⟩
  | choose f i k =>
    obtain ⟨b, hp, hk⟩ := h
    cases hp with
    | choose hf => exact ⟨hi, a, ha, ⟨b, hf i, hk⟩, id⟩
  | exit cond p k _ =>
    obtain ⟨b, hp, hk⟩ := h
    cases hp with
    | loop hle _ hle' => exact ⟨hi, a, ha, hk.mono (hle.trans hle'), id⟩
  | enter cond p k _ =>
    obtain ⟨b, hp, hk⟩ := h
    cases hp with
    | loop hle hp hle' => exact ⟨hi, a, ha, ⟨_, hp.mono hle le_rfl, b, .loop le_rfl hp hle', hk⟩, id⟩
  | forever p k =>
    obtain ⟨b, hp, hk⟩ := h
    cases hp with
    | forever hp hi' => exact ⟨hi, a, ha, ⟨_, hp, b, .forever hi' hi', hk⟩, id⟩

theorem CodeOk.hlt {x : X} (h : CodeOk soft settles inv a k) (hl : Local c k (.hlt x : Action T V X) c' k') :
    a.Enabled := by
  cases hl with
  | hlt =>
    obtain ⟨b, hp, _⟩ := h
    cases hp with
    | hlt he => exact he

/-- A `sti` at a place that settles does settle. -/
theorem CodeOk.afterSti {x : X} (h : CodeOk soft settles inv a k) (hl : Local c k (.sti x : Action T V X) c' k')
    (hx : settles x = true) : c'.flag = true ∧ CodeOk soft settles inv settled k' := by
  cases hl with
  | sti =>
    obtain ⟨b, hp, hk⟩ := h
    cases hp with
    | sti _ hle =>
      have hset : a.afterSti (settles x) = settled := by
        rw [hx]
        cases a with
        | _ => rfl
      exact ⟨rfl, hk.mono (hset ▸ hle)⟩

end

end Interrupts
