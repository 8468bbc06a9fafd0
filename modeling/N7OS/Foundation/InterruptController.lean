import Mathlib.Data.BitVec
import Mathlib.Data.List.Pairwise
import Mathlib.Tactic.IntervalCases
import N7OS.Foundation.Execution

/-! # A priority interrupt controller

The 8259: its registers, the initialization words that follow each other on the data
port, and the fully nested mode, in which the lines in service form a stack. Line 0 has
the highest priority.
-/
namespace Pic8259
open Execution

/-- The word that the data port waits for; the mask when the controller is initialized. -/
inductive Phase
  | icw2
  | icw3
  | icw4
  | mask
deriving DecidableEq

structure Chip where
  irr : BitVec 8
  imr : BitVec 8
  isr : BitVec 8
  base : BitVec 8
  phase : Phase
  single : Bool
  needsIcw4 : Bool
  slaves : BitVec 8
  autoEoi : Bool

/-- The bit of the highest priority. -/
def highest (v : BitVec 8) : Option ℕ := (List.range 8).find? (fun n => v.getLsbD n)

namespace Chip

/-- The line that would be served: it waits, is not masked, and nothing of its priority or above is in service. -/
def candidate (c : Chip) : Option ℕ :=
  (highest (c.irr &&& ~~~c.imr)).filter (fun n => (List.range (n + 1)).all (fun k => !c.isr.getLsbD k))

def request (c : Chip) (n : ℕ) : Chip := { c with irr := c.irr ||| BitVec.twoPow 8 n }

/-- The line goes into service. -/
def serve (c : Chip) (n : ℕ) : Chip :=
  { c with
    irr := c.irr &&& ~~~BitVec.twoPow 8 n
    isr := if c.autoEoi then c.isr else c.isr ||| BitVec.twoPow 8 n }

def vector (c : Chip) (n : ℕ) : BitVec 8 := (c.base &&& 0xF8#8) ||| BitVec.ofNat 8 n

/-- The end of the interrupt in service that has the highest priority. -/
def eoi (c : Chip) : Chip :=
  match highest c.isr with
  | some n => { c with isr := c.isr &&& ~~~BitVec.twoPow 8 n }
  | none => c

/-- A byte written to the command port; of the commands only the non-specific end of interrupt. -/
def command (c : Chip) (v : BitVec 8) : Option Chip :=
  if v.getLsbD 4 then
    some { c with
      irr := 0#8, imr := 0#8, isr := 0#8, phase := .icw2
      single := v.getLsbD 1, needsIcw4 := v.getLsbD 0, autoEoi := false }
  else if v.extractLsb' 3 5 = 0b00100#5 then some c.eoi
  else none

/-- The phase after ICW2 or ICW3. -/
def afterIcw3 (c : Chip) : Phase := if c.needsIcw4 then .icw4 else .mask

def afterIcw2 (c : Chip) : Phase := if c.single then c.afterIcw3 else .icw3

def data (c : Chip) (v : BitVec 8) : Chip :=
  match c.phase with
  | .icw2 => { c with base := v, phase := c.afterIcw2 }
  | .icw3 => { c with slaves := v, phase := c.afterIcw3 }
  | .icw4 => { c with autoEoi := v.getLsbD 1, phase := .mask }
  | .mask => { c with imr := v }

end Chip

/-- Two controllers, the second behind line 2 of the first. -/
structure Pair where
  master : Chip
  slave : Chip

namespace Pair

/-- The line 2 of the first follows the second. -/
def wired (p : Pair) : Chip := if p.slave.candidate.isSome then p.master.request 2 else p.master

/-- Lines from 8 on are those of the second; nothing else is connected to line 2. -/
def request (p : Pair) (n : ℕ) : Pair :=
  if 8 ≤ n then { p with slave := p.slave.request (n - 8) }
  else if n = 2 then p
  else { p with master := p.master.request n }

/-- What the processor reads when it acknowledges an interrupt. -/
def acknowledge (p : Pair) : Option (Pair × BitVec 8) :=
  p.wired.candidate.bind fun n =>
    if p.master.slaves.getLsbD n then
      p.slave.candidate.map fun k => (⟨p.wired.serve n, p.slave.serve k⟩, p.slave.vector k)
    else some (⟨p.wired.serve n, p.slave⟩, p.master.vector n)

def out (p : Pair) (v : BitVec 8) (port : ℕ) : Option Pair :=
  if port = 0x20 then (p.master.command v).map fun c => { p with master := c }
  else if port = 0x21 then some { p with master := p.master.data v }
  else if port = 0xA0 then (p.slave.command v).map fun c => { p with slave := c }
  else if port = 0xA1 then some { p with slave := p.slave.data v }
  else none

end Pair

/-- The controllers and what is around them: a device raises a line, the processor acknowledges and
gets a vector, a handler ends its interrupt at the first controller. -/
inductive Event
  | request (n : ℕ)
  | acknowledge (vector : BitVec 8)
  | eoi

inductive Step : Pair → Event → Pair → Prop
  | request (p : Pair) (n : ℕ) : Step p (.request n) (p.request n)
  | acknowledge {p q : Pair} {v : BitVec 8} : p.acknowledge = some (q, v) → Step p (.acknowledge v) q
  | eoi (p : Pair) : Step p .eoi { p with master := p.master.eoi }

/-! ## The lines in service as a stack -/

/-- The lines in service, that of the highest priority first. -/
structure InService (lines : List ℕ) (isr : BitVec 8) : Prop where
  sorted : lines.Pairwise (· < ·)
  bits : ∀ k, isr.getLsbD k = true ↔ k ∈ lines

section
variable {v : BitVec 8} {n k : ℕ} {lines : List ℕ} {isr : BitVec 8} {c : Chip}

theorem getLsbD_raise (v : BitVec 8) (hn : n < 8) (k : ℕ) :
    (v ||| BitVec.twoPow 8 n).getLsbD k = (v.getLsbD k || decide (k = n)) := by
  rw [BitVec.getLsbD_or, BitVec.getLsbD_twoPow]
  simp [hn, eq_comm]

theorem getLsbD_drop (v : BitVec 8) (n k : ℕ) :
    (v &&& ~~~BitVec.twoPow 8 n).getLsbD k = (v.getLsbD k && decide (k ≠ n)) := by
  by_cases hk : k < 8
  · by_cases hkn : k = n
    · subst hkn
      simp [hk]
    · simp [hk, hkn]
  · simp [BitVec.getLsbD_of_ge v k (by omega)]

theorem highest_eq_some : highest v = some n ↔ v.getLsbD n = true ∧ ∀ k < n, v.getLsbD k = false := by
  unfold highest
  rw [List.find?_range_eq_some]
  constructor
  · rintro ⟨hn, -, hmin⟩
    exact ⟨hn, fun k hk => by simpa using hmin k hk⟩
  · rintro ⟨hn, hmin⟩
    exact ⟨hn, List.mem_range.mpr (BitVec.lt_of_getLsbD hn), fun k hk => by simpa using hmin k hk⟩

theorem highest_eq_none : highest v = none ↔ ∀ k, v.getLsbD k = false := by
  unfold highest
  rw [List.find?_eq_none]
  constructor
  · intro h k
    by_cases hk : k < 8
    · simpa using h k (List.mem_range.mpr hk)
    · exact BitVec.getLsbD_of_ge v k (by omega)
  · intro h k _
    simp [h k]

theorem candidate_eq_some : c.candidate = some n ↔
    (c.irr.getLsbD n = true ∧ c.imr.getLsbD n = false ∧
      ∀ k < n, c.irr.getLsbD k = true → c.imr.getLsbD k = true) ∧ ∀ k ≤ n, c.isr.getLsbD k = false := by
  unfold Chip.candidate
  rw [Option.filter_eq_some_iff, highest_eq_some]
  have hbit : ∀ k, (c.irr &&& ~~~c.imr).getLsbD k = (c.irr.getLsbD k && !c.imr.getLsbD k) := by
    intro k
    by_cases hk : k < 8
    · simp [hk]
    · simp [BitVec.getLsbD_of_ge c.irr k (by omega)]
  simp only [hbit, List.all_eq_true, List.mem_range, Bool.and_eq_true, Bool.and_eq_false_iff, Bool.not_eq_true',
    Bool.not_eq_false']
  constructor
  · rintro ⟨⟨⟨hirr, himr⟩, hmin⟩, hisr⟩
    refine ⟨⟨hirr, himr, fun k hk hwaits => ?_⟩, fun k hk => hisr k (by omega)⟩
    rcases hmin k hk with hnot | hmasked
    · rw [hnot] at hwaits
      cases hwaits
    · exact hmasked
  · rintro ⟨⟨hirr, himr, hmin⟩, hisr⟩
    refine ⟨⟨⟨hirr, himr⟩, fun k hk => ?_⟩, fun k hk => hisr k (by omega)⟩
    cases hwaits : c.irr.getLsbD k with
    | false => exact .inl rfl
    | true => exact .inr (hmin k hk hwaits)

theorem InService.nil : InService [] 0#8 := ⟨List.Pairwise.nil, fun k => by simp⟩

/-- A line that may be served goes on top. -/
theorem InService.push (h : InService lines isr) (hn : n < 8) (hfree : ∀ k ≤ n, isr.getLsbD k = false) :
    (∀ l ∈ lines, n < l) ∧ InService (n :: lines) (isr ||| BitVec.twoPow 8 n) := by
  have habove : ∀ l ∈ lines, n < l := by
    intro l hl
    by_contra hle
    have hbit := (h.bits l).mpr hl
    rw [hfree l (by omega)] at hbit
    cases hbit
  refine ⟨habove, List.pairwise_cons.mpr ⟨habove, h.sorted⟩, ?_⟩
  intro k
  rw [getLsbD_raise isr hn, List.mem_cons, Bool.or_eq_true, h.bits, decide_eq_true_eq, or_comm]

theorem highest_inService (h : InService lines isr) : highest isr = lines.head? := by
  cases lines with
  | nil =>
    rw [List.head?_nil, highest_eq_none]
    intro k
    cases hk : isr.getLsbD k with
    | false => rfl
    | true => cases (h.bits k).mp hk
  | cons n lines =>
    rw [List.head?_cons, highest_eq_some]
    refine ⟨(h.bits n).mpr List.mem_cons_self, ?_⟩
    intro k hk
    cases hbit : isr.getLsbD k with
    | false => rfl
    | true =>
      rcases List.mem_cons.mp ((h.bits k).mp hbit) with rfl | hmem
      · omega
      · have hlt := (List.pairwise_cons.mp h.sorted).1 k hmem
        omega

/-- The end of an interrupt takes the top off. -/
theorem InService.eoi (h : InService lines c.isr) : InService lines.tail c.eoi.isr := by
  have htop := highest_inService h
  unfold Chip.eoi
  rw [htop]
  cases lines with
  | nil => exact h
  | cons n lines =>
    obtain ⟨habove, hsorted⟩ := List.pairwise_cons.mp h.sorted
    refine ⟨hsorted, ?_⟩
    intro k
    change (c.isr &&& ~~~BitVec.twoPow 8 n).getLsbD k = true ↔ k ∈ lines
    rw [getLsbD_drop, Bool.and_eq_true, h.bits, List.mem_cons, decide_eq_true_eq]
    constructor
    · rintro ⟨rfl | hmem, hne⟩
      · exact absurd rfl hne
      · exact hmem
    · intro hmem
      have hlt := habove k hmem
      exact ⟨.inr hmem, by omega⟩

end

/-! ## One controller behind a mask -/

/-- The second controller is masked, and so is the line that it is behind. -/
structure Quiet (p : Pair) : Prop where
  slave : p.slave.imr = 0xFF#8
  cascade : p.master.imr.getLsbD 2 = true
  slaves : p.master.slaves = 4#8
  normalEoi : p.master.autoEoi = false

/-- What is asked of the controllers: the lines that wait, and those in service. -/
structure Nest where
  waiting : ℕ → Bool
  lines : List ℕ

namespace Nest

/-- Nothing waits, and nothing is in service. -/
def idle : Nest := ⟨fun _ => false, []⟩

def line (v : BitVec 8) : ℕ := (v &&& 7#8).toNat

def next (s : Nest) : Event → Nest
  | .request n => { s with waiting := Function.update s.waiting n true }
  | .acknowledge v => ⟨Function.update s.waiting (line v) false, line v :: s.lines⟩
  | .eoi => { s with lines := s.lines.tail }

/-- The line of highest priority among those that wait and are not masked, above all that are in service. -/
structure Serves (s : Nest) (masked : ℕ → Bool) (n : ℕ) : Prop where
  waits : s.waiting n = true
  unmasked : masked n = false
  first : ∀ k < n, s.waiting k = true → masked k = true
  above : ∀ l ∈ s.lines, n < l

def after (s : Nest) (tr : List Event) : Nest := tr.foldl next s

end Nest

/-- The registers of the controllers say what the history says. -/
structure Refines (p₀ : Pair) (s : Nest) (p : Pair) : Prop where
  quiet : Quiet p
  imr : p.master.imr = p₀.master.imr
  base : p.master.base = p₀.master.base
  waiting : ∀ n < 8, n ≠ 2 → p.master.irr.getLsbD n = s.waiting n
  inService : InService s.lines p.master.isr

section
variable {p₀ p q : Pair} {s : Nest} {n : ℕ} {v : BitVec 8} {tr : List Event}

theorem candidate_masked {c : Chip} (h : c.imr = 0xFF#8) : c.candidate = none := by
  cases hc : c.candidate with
  | none => rfl
  | some n =>
    obtain ⟨⟨hirr, himr, -⟩, -⟩ := candidate_eq_some.mp hc
    have hn : n < 8 := BitVec.lt_of_getLsbD hirr
    rw [h] at himr
    interval_cases n <;> cases himr

theorem Quiet.wired (h : Quiet p) : p.wired = p.master := by
  rw [Pair.wired, candidate_masked h.slave]
  rfl

theorem Quiet.unslaved (h : Quiet p) (hn : p.master.imr.getLsbD n = false) : p.master.slaves.getLsbD n = false := by
  have hne : n ≠ 2 := by
    rintro rfl
    rw [h.cascade] at hn
    cases hn
  rw [h.slaves, show 4#8 = BitVec.twoPow 8 2 by rfl, BitVec.getLsbD_twoPow]
  simp [Ne.symm hne]

theorem Nest.Serves.congr {masked masked' : ℕ → Bool} (h : ∀ k ≤ n, masked k = masked' k) (hs : s.Serves masked n) :
    s.Serves masked' n :=
  ⟨hs.waits, h n le_rfl ▸ hs.unmasked, fun k hk hwaits => h k hk.le ▸ hs.first k hk hwaits, hs.above⟩

/-- The processor gets the vector of the line that the history lets through, and no other. -/
theorem Refines.acknowledge (h : Refines p₀ s p) : p.acknowledge = some (q, v) ↔
    ∃ n < 8, s.Serves p₀.master.imr.getLsbD n ∧ v = p₀.master.vector n ∧ q = ⟨p.master.serve n, p.slave⟩ := by
  have hvector : ∀ n, p.master.vector n = p₀.master.vector n := fun n => by rw [Chip.vector, Chip.vector, h.base]
  rw [Pair.acknowledge, h.quiet.wired]
  constructor
  · intro hack
    obtain ⟨n, hn, hack⟩ := Option.bind_eq_some_iff.mp hack
    obtain ⟨⟨hirr, himr, hfirst⟩, hfree⟩ := candidate_eq_some.mp hn
    have hlt : n < 8 := BitVec.lt_of_getLsbD hirr
    rw [if_neg (by rw [h.quiet.unslaved himr]; decide)] at hack
    cases hack
    have hne : ∀ k, p.master.imr.getLsbD k = false → k ≠ 2 := by
      rintro k hk rfl
      rw [h.quiet.cascade] at hk
      cases hk
    refine ⟨n, hlt, ⟨?_, ?_, ?_, (h.inService.push hlt hfree).1⟩, hvector n, rfl⟩
    · rw [← h.waiting n hlt (hne n himr), hirr]
    · rw [← h.imr, himr]
    · intro k hk hwaits
      rw [← h.imr]
      by_cases hk2 : k = 2
      · rw [hk2, h.quiet.cascade]
      · exact hfirst k hk (by rw [h.waiting k (by omega) hk2, hwaits])
  · rintro ⟨n, hlt, hserves, rfl, rfl⟩
    have himr : p.master.imr.getLsbD n = false := by rw [h.imr, hserves.unmasked]
    have hne : n ≠ 2 := by
      rintro rfl
      rw [h.quiet.cascade] at himr
      cases himr
    have hcandidate : p.master.candidate = some n := by
      rw [candidate_eq_some]
      refine ⟨⟨by rw [h.waiting n hlt hne, hserves.waits], himr, ?_⟩, ?_⟩
      · intro k hk hirr
        by_cases hk2 : k = 2
        · rw [hk2, h.quiet.cascade]
        · rw [h.waiting k (by omega) hk2] at hirr
          rw [h.imr, hserves.first k hk hirr]
      · intro k hk
        cases hbit : p.master.isr.getLsbD k with
        | false => rfl
        | true =>
          have habove := hserves.above k ((h.inService.bits k).mp hbit)
          omega
    rw [hcandidate, Option.bind_some, if_neg (by rw [h.quiet.unslaved himr]; decide), hvector]

theorem line_vector {c : Chip} (hn : n < 8) : Nest.line (c.vector n) = n := by
  have hlow : c.vector n &&& 7#8 = BitVec.ofNat 8 n := by
    rw [Chip.vector]
    apply BitVec.eq_of_getLsbD_eq
    intro i hi
    interval_cases n <;> interval_cases i <;> simp
  rw [Nest.line, hlow, BitVec.toNat_ofNat, Nat.mod_eq_of_lt (by omega)]

/-- Only the register of the lines in service changes. -/
theorem eoi_eq (c : Chip) : c.eoi = { c with isr := c.eoi.isr } := by
  unfold Chip.eoi
  split <;> rfl

theorem Refines.request (h : Refines p₀ s p) (n : ℕ) : Refines p₀ (s.next (.request n)) (p.request n) := by
  unfold Pair.request
  by_cases hslave : 8 ≤ n
  · rw [if_pos hslave]
    refine ⟨⟨h.quiet.slave, h.quiet.cascade, h.quiet.slaves, h.quiet.normalEoi⟩, h.imr, h.base, ?_, h.inService⟩
    intro k hk hk2
    exact (h.waiting k hk hk2).trans (Function.update_of_ne (by omega) _ _).symm
  rw [if_neg hslave]
  by_cases hcascade : n = 2
  · rw [if_pos hcascade]
    refine ⟨h.quiet, h.imr, h.base, ?_, h.inService⟩
    intro k hk hk2
    exact (h.waiting k hk hk2).trans (Function.update_of_ne (by omega) _ _).symm
  rw [if_neg hcascade]
  refine ⟨⟨h.quiet.slave, h.quiet.cascade, h.quiet.slaves, h.quiet.normalEoi⟩, h.imr, h.base, ?_, h.inService⟩
  intro k hk hk2
  have hbit : (p.master.request n).irr.getLsbD k = (p.master.irr.getLsbD k || decide (k = n)) :=
    getLsbD_raise _ (by omega) k
  rw [hbit, h.waiting k hk hk2]
  by_cases hkn : k = n
  · simp [Nest.next, hkn]
  · simp [Nest.next, hkn]

theorem Refines.serve (h : Refines p₀ s p) (hn : n < 8) (hserves : s.Serves p₀.master.imr.getLsbD n) :
    Refines p₀ (s.next (.acknowledge (p₀.master.vector n))) ⟨p.master.serve n, p.slave⟩ := by
  have hfree : ∀ k ≤ n, p.master.isr.getLsbD k = false := by
    intro k hk
    cases hbit : p.master.isr.getLsbD k with
    | false => rfl
    | true =>
      have habove := hserves.above k ((h.inService.bits k).mp hbit)
      omega
  refine ⟨⟨h.quiet.slave, h.quiet.cascade, h.quiet.slaves, h.quiet.normalEoi⟩, h.imr, h.base, ?_, ?_⟩
  · intro k hk hk2
    have hbit : (p.master.serve n).irr.getLsbD k = (p.master.irr.getLsbD k && decide (k ≠ n)) := getLsbD_drop _ n k
    rw [hbit, h.waiting k hk hk2, Nest.next, line_vector hn]
    by_cases hkn : k = n
    · simp [hkn]
    · simp [hkn]
  · have hisr : (p.master.serve n).isr = p.master.isr ||| BitVec.twoPow 8 n := by
      rw [Chip.serve, h.quiet.normalEoi]
      rfl
    rw [hisr, Nest.next, line_vector hn]
    exact (h.inService.push hn hfree).2

/-- One step of the controllers is one step of the history. -/
theorem Refines.step {e : Event} (h : Refines p₀ s p) (hstep : Step p e q) : Refines p₀ (s.next e) q := by
  cases hstep with
  | request n => exact h.request n
  | acknowledge hack =>
    obtain ⟨n, hn, hserves, rfl, rfl⟩ := h.acknowledge.mp hack
    exact h.serve hn hserves
  | eoi =>
    have hisr := h.inService.eoi
    rw [eoi_eq]
    exact ⟨⟨h.quiet.slave, h.quiet.cascade, h.quiet.slaves, h.quiet.normalEoi⟩, h.imr, h.base, h.waiting, hisr⟩

/-- Over every run. -/
theorem Refines.run (h : Refines p₀ s p) (hrun : Runs Step p tr q) : Refines p₀ (s.after tr) q := by
  induction hrun generalizing s with
  | nil => exact h
  | cons hstep _ ih => exact ih (h.step hstep)

end

end Pic8259
