import Mathlib.Data.List.Infix
import Mathlib.Order.Bounds.Basic

/-! # Editing a line of bounded length

Characters are typed, erased and entered. The text typed so far is a fold over
the keys, and reading a line consumes keys up to an enter or up to the key that
fills the line, whichever comes first.
-/
namespace LineEditor
variable {α : Type*}

/-- Which keys end the line and which erase its last character. -/
structure Keys (α : Type*) where
  isEnter : α → Bool
  isErase : α → Bool

variable (k : Keys α) {n : ℕ} {line : List α}

def edit (line : List α) (c : α) : List α :=
  if k.isEnter c then line else if k.isErase c then line.dropLast else line ++ [c]

/-- The line after some keys. -/
def typed (line keys : List α) : List α := keys.foldl (edit k) line

/-- The last key is an enter, or the line has `n` characters. -/
def Stops (n : ℕ) (line keys : List α) : Prop :=
  (∃ init c, keys = init ++ [c] ∧ k.isEnter c = true) ∨ (typed k line keys).length = n

/-- The shortest beginning of the input at which reading stops. -/
def StopsFirst (n : ℕ) (line keys : List α) : Prop :=
  Stops k n line keys ∧ ∀ init c rest, keys = init ++ c :: rest → ¬Stops k n line init

/-- What is consumed from the input, the line read and the input left, if reading stops. -/
def consume (n : ℕ) (line input : List α) : Option (List α × List α × List α) :=
  if line.length < n then
    match input with
    | [] => none
    | c :: rest =>
      if k.isEnter c then some ([c], line, rest)
      else (consume n (edit k line c) rest).map (fun r => (c :: r.1, r.2))
  else some ([], line, input)
termination_by structural input

@[simp] theorem typed_nil : typed k line [] = line := rfl

@[simp] theorem typed_cons (c : α) (keys : List α) : typed k line (c :: keys) = typed k (edit k line c) keys := rfl

theorem edit_length_le (line : List α) (c : α) : (edit k line c).length ≤ line.length + 1 := by
  unfold edit
  split
  · omega
  · split
    · simp
      omega
    · simp

theorem edit_erase {c : α} (hc : k.isEnter c = false) (he : k.isErase c = true) (line : List α) :
    edit k line c = line.dropLast := by
  simp [edit, hc, he]

theorem edit_type {c : α} (hc : k.isEnter c = false) (he : k.isErase c = false) (line : List α) :
    edit k line c = line ++ [c] := by
  simp [edit, hc, he]

/-- The largest length that the line reaches over the keys. -/
def peak (line : List α) : List α → ℕ
  | [] => line.length
  | c :: keys => max line.length (peak (edit k line c) keys)

/-- The peak is the largest of the lengths after each beginning of the keys. -/
theorem isGreatest_peak (line keys : List α) :
    IsGreatest {m | ∃ init rest, keys = init ++ rest ∧ m = (typed k line init).length} (peak k line keys) := by
  induction keys generalizing line with
  | nil =>
    constructor
    · exact ⟨[], [], rfl, rfl⟩
    · rintro m ⟨init, rest, he, rfl⟩
      obtain ⟨rfl, _⟩ := List.nil_eq_append_iff.mp he
      exact le_rfl
  | cons c keys ih =>
    obtain ⟨⟨init, rest, rfl, hm⟩, hbound⟩ := ih (edit k line c)
    constructor
    · rcases le_total (peak k (edit k line c) (init ++ rest)) line.length with h | h
      · exact ⟨[], _, rfl, max_eq_left h⟩
      · exact ⟨c :: init, rest, rfl, (max_eq_right h).trans hm⟩
    · rintro m ⟨front, back, he, rfl⟩
      cases front with
      | nil => exact le_max_left _ _
      | cons d front =>
        obtain ⟨rfl, hrest⟩ := List.cons.inj he
        exact (hbound ⟨front, back, hrest, rfl⟩).trans (le_max_right _ _)

theorem length_le_peak (line keys : List α) : line.length ≤ peak k line keys :=
  (isGreatest_peak k line keys).2 ⟨[], keys, rfl, rfl⟩

theorem consume_wait (h : line.length < n) : consume k n line [] = none := by
  rw [consume, if_pos h]

theorem consume_enter {c : α} (h : line.length < n) (hc : k.isEnter c = true) (rest : List α) :
    consume k n line (c :: rest) = some ([c], line, rest) := by
  rw [consume, if_pos h]
  exact if_pos hc

theorem consume_edit {c : α} (h : line.length < n) (hc : k.isEnter c = false) (rest : List α) :
    consume k n line (c :: rest) = (consume k n (edit k line c) rest).map (fun r => (c :: r.1, r.2)) := by
  rw [consume, if_pos h]
  simp [hc]

theorem consume_full (h : ¬line.length < n) (input : List α) : consume k n line input = some ([], line, input) := by
  rw [consume.eq_def, if_neg h]

/-- A line of plain characters is read whole when it is short enough; otherwise it is cut and its rest
stays in the input. -/
theorem consume_line {l : List α} {e : α} (he : k.isEnter e = true) (rest : List α) {chars : List α}
    (hplain : ∀ c ∈ chars, k.isEnter c = false ∧ k.isErase c = false) (hle : l.length ≤ n) :
    consume k n l (chars ++ e :: rest) =
      if l.length + chars.length < n then some (chars ++ [e], l ++ chars, rest)
      else some (chars.take (n - l.length), l ++ chars.take (n - l.length),
        chars.drop (n - l.length) ++ e :: rest) := by
  induction chars generalizing l with
  | nil =>
    by_cases hlt : l.length < n
    · simp [consume_enter k hlt he, hlt]
    · simp [consume_full k hlt, hlt]
  | cons c chars ih =>
    obtain ⟨hc, hrest⟩ := List.forall_mem_cons.mp hplain
    by_cases hlt : l.length < n
    · have hedit := edit_type k hc.1 hc.2 l
      have hlen : (l ++ [c]).length = l.length + 1 := by simp
      have hsub : n - l.length = n - (l.length + 1) + 1 := by omega
      have hcond : l.length + 1 + chars.length < n ↔ l.length + (chars.length + 1) < n := by omega
      rw [List.cons_append, consume_edit k hlt hc.1, hedit, ih hrest (by omega), hlen, hsub,
        List.length_cons, List.take_succ_cons, List.drop_succ_cons]
      by_cases hfit : l.length + 1 + chars.length < n
      · simp [hfit, hcond.mp hfit]
      · simp [hfit, mt hcond.mpr hfit]
    · have hzero : n - l.length = 0 := by omega
      rw [consume_full k hlt, hzero, if_neg (by simp only [List.length_cons]; omega)]
      simp

theorem stops_nil : Stops k n line [] ↔ line.length = n := by
  simp [Stops]

theorem stops_cons {c : α} {keys : List α} :
    Stops k n line (c :: keys) ↔ (keys = [] ∧ k.isEnter c = true) ∨ Stops k n (edit k line c) keys := by
  simp only [Stops, typed_cons]
  constructor
  · rintro (⟨init, d, he, hd⟩ | h)
    · cases init with
      | nil =>
        obtain ⟨rfl, rfl⟩ := List.cons.inj he
        exact Or.inl ⟨rfl, hd⟩
      | cons e init =>
        obtain ⟨rfl, rfl⟩ := List.cons.inj he
        exact Or.inr (Or.inl ⟨init, d, rfl, hd⟩)
    · exact Or.inr (Or.inr h)
  · rintro (⟨rfl, hc⟩ | ⟨init, d, rfl, hd⟩ | h)
    · exact Or.inl ⟨[], c, rfl, hc⟩
    · exact Or.inl ⟨c :: init, d, rfl, hd⟩
    · exact Or.inr h

theorem stopsFirst_nil (h : line.length = n) : StopsFirst k n line [] := by
  refine ⟨(stops_nil k).mpr h, ?_⟩
  intro init c rest he
  simp at he

theorem stopsFirst_enter {c : α} (hlt : line.length < n) (hc : k.isEnter c = true) :
    StopsFirst k n line [c] := by
  refine ⟨(stops_cons k).mpr (Or.inl ⟨rfl, hc⟩), ?_⟩
  intro init d rest he
  cases init with
  | nil =>
    rw [stops_nil]
    omega
  | cons e init => simp at he

theorem stopsFirst_cons {c : α} {keys : List α} (hlt : line.length < n) (hc : k.isEnter c = false)
    (h : StopsFirst k n (edit k line c) keys) : StopsFirst k n line (c :: keys) := by
  refine ⟨(stops_cons k).mpr (Or.inr h.1), ?_⟩
  intro init d rest he
  cases init with
  | nil =>
    rw [stops_nil]
    omega
  | cons e init =>
    obtain ⟨rfl, rfl⟩ := List.cons.inj he
    rw [stops_cons]
    rintro (⟨_, hd⟩ | hs)
    · simp [hc] at hd
    · exact h.2 init d rest rfl hs

/-- Reading takes the shortest beginning at which it stops. -/
theorem consume_eq_some {input pre final rest : List α} (hle : line.length ≤ n)
    (h : consume k n line input = some (pre, final, rest)) :
    input = pre ++ rest ∧ final = typed k line pre ∧ StopsFirst k n line pre := by
  induction input generalizing line pre with
  | nil =>
    by_cases hlt : line.length < n
    · simp [consume_wait k hlt] at h
    · cases (consume_full k hlt []).symm.trans h
      exact ⟨rfl, rfl, stopsFirst_nil k (by omega)⟩
  | cons c input ih =>
    by_cases hlt : line.length < n
    · cases hc : k.isEnter c with
      | true =>
        cases (consume_enter k hlt hc input).symm.trans h
        exact ⟨rfl, by simp [edit, hc], stopsFirst_enter k hlt hc⟩
      | false =>
        rw [consume_edit k hlt hc] at h
        obtain ⟨⟨pre', r⟩, hr, he⟩ := Option.map_eq_some_iff.mp h
        cases he
        obtain ⟨rfl, rfl, hfirst⟩ := ih ((edit_length_le k line c).trans hlt) hr
        exact ⟨rfl, rfl, stopsFirst_cons k hlt hc hfirst⟩
    · cases (consume_full k hlt (c :: input)).symm.trans h
      exact ⟨rfl, rfl, stopsFirst_nil k (by omega)⟩

theorem lt_of_consume_eq_none {input : List α} (h : consume k n line input = none) : line.length < n := by
  by_contra hfull
  simp [consume_full k hfull] at h

/-- Reading waits for more input only when no beginning of the input stops it. -/
theorem not_stops_of_consume_eq_none {input pre rest : List α} (h : consume k n line input = none)
    (he : input = pre ++ rest) : ¬Stops k n line pre := by
  induction input generalizing line pre with
  | nil =>
    obtain ⟨rfl, _⟩ := List.nil_eq_append_iff.mp he
    rw [stops_nil]
    exact (lt_of_consume_eq_none k h).ne
  | cons c input ih =>
    have hlt := lt_of_consume_eq_none k h
    cases pre with
    | nil =>
      rw [stops_nil]
      exact hlt.ne
    | cons d pre =>
      obtain ⟨rfl, rfl⟩ := List.cons.inj he
      cases hc : k.isEnter c with
      | true => simp [consume_enter k hlt hc] at h
      | false =>
        rw [consume_edit k hlt hc] at h
        rw [stops_cons]
        rintro (⟨_, hd⟩ | hs)
        · simp [hc] at hd
        · exact ih (Option.map_eq_none_iff.mp h) rfl hs

end LineEditor
