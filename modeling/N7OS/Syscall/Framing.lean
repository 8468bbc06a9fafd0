import N7OS.Foundation.Execution
import N7OS.Syscall.Read

/-! # Successive calls on typed lines

Lines of printable characters, each followed by an enter, read by one call of
`sys_read` after another. What a call leaves of its line is what the next call
starts with.
-/
namespace N7OS
open LineEditor Execution

/-- What one call leaves to the next. -/
structure ReadState where
  buffer : List U8
  console : Console
  input : List U8

/-- The input a call starts on, and the text it returns. -/
structure ReadEvent where
  start : List U8
  text : List U8

def ReadCall (len : ℤ) (w : ReadState) (e : ReadEvent) (w' : ReadState) : Prop :=
  ∃ count t, sysRead w.buffer len w.console w.input = .returned count t w'.input ∧
    w'.buffer = t.s ∧ w'.console = t.console ∧ e = ⟨w.input, t.s.take count⟩

/-- What arrives when the lines are typed. -/
def typedLines (lines : List (List U8)) : List U8 := lines.flatMap (fun line => line ++ [carriageReturn])

/-- Call by call, the next line: the call starts at its first character and returns it, cut to size. -/
def framed (len : ℤ) : ℕ → List (List U8) → List ReadEvent
  | n + 1, line :: lines => ⟨typedLines (line :: lines), line.take (len - 1).toNat⟩ :: framed len n lines
  | _, _ => []

/-- The first `n` calls read the first `n` lines. -/
def FramedReads (len : ℤ) (n : ℕ) (lines : List (List U8)) (buffer : List U8) (console : Console) : Prop :=
  ∃ w, Runs (ReadCall len) ⟨buffer, console, typedLines lines⟩ (framed len n lines) w

section
variable {len : ℤ} {w w' : ReadState} {e : ReadEvent}

/-- A call on input that the line editor can finish. -/
theorem readCall_of_consume {pre final rest : List U8} (hlen : 1 ≤ len) (hbuf : len ≤ w.buffer.length)
    (hcons : consume lineKeys (len - 1).toNat [] w.input = some (pre, final, rest)) :
    ∃ w', ReadCall len w ⟨w.input, final⟩ w' ∧ w'.input = rest ∧ w'.buffer.length = w.buffer.length := by
  obtain ⟨n, rfl⟩ : ∃ n : ℕ, len = n + 1 := ⟨(len - 1).toNat, by omega⟩
  have hpred : ((n : ℤ) + 1 - 1).toNat = n := by simp
  rw [hpred] at hcons
  rcases sysReadLoop_spec rfl (edits_start n w.buffer w.console) (by omega) w.input with
    ⟨pre', final', rest', t, hcons', hr, _, hsize, htext, _⟩ | ⟨hnone, _⟩
  · cases hcons'.symm.trans hcons
    exact ⟨⟨t.s, t.console, rest⟩, ⟨_, t, hr, rfl, rfl, by rw [htext]⟩, rfl, hsize⟩
  · simp [hcons] at hnone

theorem ReadCall.deterministic {e' : ReadEvent} {w'' : ReadState} (h : ReadCall len w e w')
    (h' : ReadCall len w e' w'') : e = e' ∧ w' = w'' := by
  obtain ⟨count, t, hr, hb, hc, he⟩ := h
  obtain ⟨count', t', hr', hb', hc', he'⟩ := h'
  cases w'
  cases w''
  simp only [hr, ReadResult.returned.injEq] at hr'
  obtain ⟨rfl, rfl, rfl⟩ := hr'
  simp_all

theorem printable_plain {c : U8} (h : Printable c) : lineKeys.isEnter c = false ∧ lineKeys.isErase c = false := by
  rw [printable_iff] at h
  constructor
  · simp only [lineKeys, decide_eq_false_iff_not]
    rintro (rfl | rfl) <;> revert h <;> decide
  · simp only [lineKeys, decide_eq_false_iff_not]
    rintro rfl
    revert h
    decide

theorem typedLines_cons (line : List U8) (lines : List (List U8)) :
    typedLines (line :: lines) = line ++ carriageReturn :: typedLines lines := by
  simp [typedLines]

/-- One call on a typed line: it returns the line cut to size, and consumes all of it only when the
line is short. -/
theorem readCall_line {line : List U8} {lines : List (List U8)} (hlen : 1 ≤ len) (hbuf : len ≤ w.buffer.length)
    (hline : ∀ c ∈ line, Printable c) (hinput : w.input = typedLines (line :: lines)) :
    ∃ w', ReadCall len w ⟨w.input, line.take (len - 1).toNat⟩ w' ∧ w'.buffer.length = w.buffer.length ∧
      (w'.input = typedLines lines ↔ (line.length : ℤ) < len - 1) := by
  have hcons := consume_line lineKeys (n := (len - 1).toNat) (l := []) (e := carriageReturn) (by decide)
    (typedLines lines) (fun c hc => printable_plain (hline c hc)) (by simp)
  rw [← typedLines_cons, ← hinput] at hcons
  simp only [List.length_nil, Nat.zero_add, List.nil_append, Nat.sub_zero] at hcons
  by_cases hshort : line.length < (len - 1).toNat
  · rw [if_pos hshort] at hcons
    obtain ⟨w', hcall, hrest, hsize⟩ := readCall_of_consume hlen hbuf hcons
    refine ⟨w', ?_, hsize, iff_of_true hrest (by omega)⟩
    rwa [List.take_of_length_le (by omega)]
  · rw [if_neg hshort] at hcons
    obtain ⟨w', hcall, hrest, hsize⟩ := readCall_of_consume hlen hbuf hcons
    refine ⟨w', hcall, hsize, iff_of_false ?_ (by omega)⟩
    intro heq
    have hlength := congrArg List.length (hrest.symm.trans heq)
    simp at hlength
    omega

/-- A run of framed calls that goes on has left nothing of the line before. -/
theorem framed_next {n : ℕ} {lines : List (List U8)} (hrun : Runs (ReadCall len) w (framed len (n + 1) lines) w')
    (hn : n < lines.length) : w.input = typedLines lines := by
  cases lines with
  | nil => simp at hn
  | cons line lines =>
    cases hrun with
    | cons hcall _ =>
      obtain ⟨_, _, _, _, _, he⟩ := hcall
      exact (congrArg ReadEvent.start he).symm

theorem framed_iff {lines : List (List U8)} (hlen : 1 ≤ len) (hbuf : len ≤ w.buffer.length)
    (hprint : ∀ line ∈ lines, ∀ c ∈ line, Printable c) (hinput : w.input = typedLines lines) {n : ℕ}
    (hn : n ≤ lines.length) :
    (∃ w', Runs (ReadCall len) w (framed len n lines) w') ↔
      ∀ line ∈ lines.take (n - 1), (line.length : ℤ) < len - 1 := by
  induction n generalizing lines w with
  | zero => simpa [framed] using ⟨w, Runs.nil w⟩
  | succ n ih =>
    cases lines with
    | nil => simp at hn
    | cons line lines =>
      have hn' : n ≤ lines.length := by simpa using hn
      have hprint' := fun l hl => hprint l (List.mem_cons_of_mem line hl)
      obtain ⟨u, hcall, hsize, hrest⟩ := readCall_line hlen hbuf (hprint line List.mem_cons_self) hinput
      rw [hinput] at hcall
      cases n with
      | zero => exact iff_of_true ⟨u, .cons hcall (.nil u)⟩ (by simp)
      | succ n =>
        simp only [Nat.add_sub_cancel, List.take_succ_cons, List.forall_mem_cons]
        constructor
        · rintro ⟨w', hrun⟩
          cases hrun with
          | cons hstep hrun =>
            obtain ⟨_, rfl⟩ := hcall.deterministic hstep
            have hinput' := framed_next hrun hn'
            exact ⟨hrest.mp hinput', (ih (hsize ▸ hbuf) hprint' hinput' hn').mp ⟨w', hrun⟩⟩
        · rintro ⟨hshort, hall⟩
          obtain ⟨w', hrun⟩ := (ih (hsize ▸ hbuf) hprint' (hrest.mpr hshort) hn').mpr hall
          exact ⟨w', .cons hcall hrun⟩

end

theorem framedReads_iff (len : ℤ) (n : ℕ) (lines : List (List U8)) (buffer : List U8) (console : Console)
    (hlen : 2 ≤ len) (hbuf : len ≤ buffer.length) (hprint : ∀ line ∈ lines, ∀ c ∈ line, Printable c)
    (hn : n ≤ lines.length) :
    FramedReads len n lines buffer console ↔ ∀ line ∈ lines.take (n - 1), (line.length : ℤ) < len - 1 :=
  framed_iff (by omega) hbuf hprint rfl hn

/-- The lines `a` and `b` read with room for one character. -/
theorem framedReads_iff_ab :
    FramedReads 2 2 [[0x61], [0x62]] [0, 0] (.boot (fun _ => 0) ⟨0, fun _ => 0⟩) ↔
      ∀ line ∈ [[(0x61 : U8)]], (line.length : ℤ) < 2 - 1 :=
  framedReads_iff 2 2 [[0x61], [0x62]] [0, 0] _ (by decide) (by decide) (by decide) (by decide)

/-- The second call returns an empty line: it reads the enter that the first call left. -/
theorem second_read_is_empty :
    let start : ReadState := ⟨[0, 0], .boot (fun _ => 0) ⟨0, fun _ => 0⟩, typedLines [[0x61], [0x62]]⟩
    (∃ w, Runs (ReadCall 2) start [⟨[0x61, 0x0D, 0x62, 0x0D], [0x61]⟩, ⟨[0x0D, 0x62, 0x0D], []⟩] w) ∧
      ¬FramedReads 2 2 [[0x61], [0x62]] start.buffer start.console := by
  intro start
  have hfirst : consume lineKeys (2 - 1 : ℤ).toNat [] start.input = some ([0x61], [0x61], [0x0D, 0x62, 0x0D]) := rfl
  obtain ⟨u, hu, hinput, hsize⟩ := readCall_of_consume (by decide) (by decide) hfirst
  have hsecond : consume lineKeys (2 - 1 : ℤ).toNat [] u.input = some ([0x0D], [], [0x62, 0x0D]) := by
    rw [hinput]
    rfl
  obtain ⟨w, hw, _, _⟩ := readCall_of_consume (by decide) (by rw [hsize]; decide) hsecond
  rw [hinput] at hw
  refine ⟨⟨w, .cons hu (.cons hw (.nil w))⟩, ?_⟩
  intro h
  have hshort := (framed_iff (w := start) (by decide) (by decide) (by decide) rfl (by decide)).mp h
  exact absurd (hshort [0x61] (by decide)) (by decide)

end N7OS
