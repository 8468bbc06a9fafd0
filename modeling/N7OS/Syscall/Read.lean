import Mathlib.Data.List.TakeDrop
import N7OS.Console.Putchar
import N7OS.Foundation.LineEditor

/-! # Reading a line

`sys_read` of `kernel/sys.c`, on the characters that `kgetch` will deliver. It
edits the caller's buffer, echoes on the console, and waits in `kgetch` when
there is no character left. A store past the end of the buffer is a fault.
-/
namespace N7OS
open LineEditor

/-- The caller's buffer, the local `count` and the console. -/
structure Reading where
  s : List U8
  count : ℕ
  console : Console

inductive ReadResult
  | blocked (t : Reading)
  | fault
  | returned (count : ℕ) (t : Reading) (rest : List U8)

def storeByte (s : List U8) (i : ℕ) (c : U8) : Option (List U8) := if i < s.length then some (s.set i c) else none

/-- The body of the loop on the character read; the flag tells a `break`. -/
def readBody (t : Reading) (c : U8) : Option (Reading × Bool) :=
  if c = carriageReturn ∨ c = newline then
    some ({ t with console := consolePutbytes t.console [newline] }, true)
  else if c = backspace then
    if 0 < t.count then
      some ({ t with
        count := t.count - 1
        console := consolePutbytes t.console [backspace, 0x20#8, backspace] }, false)
    else some (t, false)
  else (storeByte t.s t.count c).map (fun s =>
    ({ s := s, count := t.count + 1, console := consolePutbytes t.console [c] }, false))

/-- `s[count] = '\0'; return count`. -/
def finishRead (t : Reading) (rest : List U8) : ReadResult :=
  match storeByte t.s t.count 0#8 with
  | some s => .returned t.count { t with s := s } rest
  | none => .fault

def sysReadLoop (len : ℤ) (t : Reading) (input : List U8) : ReadResult :=
  if (t.count : ℤ) < len - 1 then
    match input with
    | [] => .blocked t
    | c :: rest =>
      match readBody t c with
      | none => .fault
      | some (t, true) => finishRead t rest
      | some (t, false) => sysReadLoop len t rest
  else finishRead t input
termination_by structural input

def sysRead (s : List U8) (len : ℤ) (console : Console) (input : List U8) : ReadResult :=
  sysReadLoop len ⟨s, 0, console⟩ input

def lineKeys : Keys U8 := ⟨fun c => c = carriageReturn ∨ c = newline, fun c => c = backspace⟩

/-- While it reads, the first `count` bytes of the buffer are the line; nothing past `n` is touched. -/
structure Edits (n : ℕ) (s₀ : List U8) (line : List U8) (t : Reading) : Prop where
  count : t.count = line.length
  room : line.length ≤ n
  size : t.s.length = s₀.length
  text : t.s.take line.length = line
  beyond : t.s.drop (n + 1) = s₀.drop (n + 1)

section
variable {n : ℕ} {s₀ line : List U8} {t : Reading} {c : U8}

theorem take_set_succ {s : List U8} {i : ℕ} (c : U8) (h : i < s.length) :
    (s.set i c).take (i + 1) = s.take i ++ [c] := by
  simp [List.take_add_one, List.take_set_of_le, h]

theorem storeByte_eq {s : List U8} {i : ℕ} (c : U8) (h : i < s.length) : storeByte s i c = some (s.set i c) :=
  if_pos h

/-- A character other than an enter edits the line and does not end the loop. -/
theorem readBody_edit (h : Edits n s₀ line t) (hn : n < s₀.length) (hlt : line.length < n)
    (hc : lineKeys.isEnter c = false) :
    ∃ t', readBody t c = some (t', false) ∧ Edits n s₀ (edit lineKeys line c) t' := by
  have hne : ¬(c = carriageReturn ∨ c = newline) := by simpa [lineKeys] using hc
  have hcount := h.count
  simp only [readBody, if_neg hne, edit, hc, Bool.false_eq_true, ↓reduceIte]
  by_cases hb : c = backspace
  · have herase : lineKeys.isErase c = true := by simp [lineKeys, hb]
    rw [if_pos hb, if_pos herase]
    by_cases hpos : 0 < t.count
    · rw [if_pos hpos]
      refine ⟨_, rfl, ?_⟩
      constructor
      · simp [hcount]
      · simp
        omega
      · exact h.size
      · have hshort : (t.s.take line.length).take (line.length - 1) = t.s.take (line.length - 1) := by
          simp [List.take_take]
        rw [List.length_dropLast, List.dropLast_eq_take, ← hshort, h.text]
      · exact h.beyond
    · have hnil : line = [] := List.eq_nil_of_length_eq_zero (by omega)
      rw [if_neg hpos]
      exact ⟨t, rfl, by simpa [hnil] using h⟩
  · have herase : lineKeys.isErase c ≠ true := by simp [lineKeys, hb]
    have hfits : t.count < t.s.length := by
      rw [h.size]
      omega
    rw [if_neg hb, if_neg herase, storeByte_eq c hfits]
    refine ⟨_, rfl, ?_⟩
    constructor
    · simp [hcount]
    · simp
      omega
    · simp [h.size]
    · rw [List.length_append, List.length_singleton, ← hcount, take_set_succ c hfits, hcount, h.text]
    · rw [List.drop_set_of_lt (by omega)]
      exact h.beyond

/-- Past the loop the text is terminated and returned. -/
theorem finishRead_edits (h : Edits n s₀ line t) (hn : n < s₀.length) (rest : List U8) :
    ∃ t', finishRead t rest = .returned line.length t' rest ∧ t'.console = t.console ∧
      t'.s.length = s₀.length ∧ t'.s.take line.length = line ∧ t'.s[line.length]? = some 0 ∧
      t'.s.drop (n + 1) = s₀.drop (n + 1) := by
  have hcount := h.count
  have hroom := h.room
  have hfits : t.count < t.s.length := by
    rw [h.size]
    omega
  simp only [finishRead, storeByte_eq 0#8 hfits]
  refine ⟨{ t with s := t.s.set t.count 0#8 }, by rw [hcount], rfl, ?_, ?_, ?_, ?_⟩
  · simp [h.size]
  · rw [List.take_set_of_le (by omega)]
    exact h.text
  · rw [← hcount]
    simp [hfits]
  · rw [List.drop_set_of_lt (by omega)]
    exact h.beyond

theorem readBody_enter (t : Reading) (hc : lineKeys.isEnter c = true) :
    readBody t c = some ({ t with console := consolePutbytes t.console [newline] }, true) := by
  apply if_pos
  simpa [lineKeys] using hc

theorem sysReadLoop_wait {len : ℤ} (h : (t.count : ℤ) < len - 1) : sysReadLoop len t [] = .blocked t := by
  rw [sysReadLoop, if_pos h]

theorem sysReadLoop_break {len : ℤ} {u : Reading} (h : (t.count : ℤ) < len - 1)
    (hu : readBody t c = some (u, true)) (rest : List U8) : sysReadLoop len t (c :: rest) = finishRead u rest := by
  rw [sysReadLoop, if_pos h, hu]

theorem sysReadLoop_again {len : ℤ} {u : Reading} (h : (t.count : ℤ) < len - 1)
    (hu : readBody t c = some (u, false)) (rest : List U8) :
    sysReadLoop len t (c :: rest) = sysReadLoop len u rest := by
  rw [sysReadLoop, if_pos h, hu]

theorem sysReadLoop_full {len : ℤ} (h : ¬(t.count : ℤ) < len - 1) (input : List U8) :
    sysReadLoop len t input = finishRead t input := by
  rw [sysReadLoop.eq_def, if_neg h]

/-- The loop consumes what the line editor consumes and leaves its line in the buffer. -/
theorem sysReadLoop_spec {len : ℤ} (hlen : len = n + 1) (h : Edits n s₀ line t) (hn : n < s₀.length)
    (input : List U8) :
    (∃ pre final rest t', consume lineKeys n line input = some (pre, final, rest) ∧
      sysReadLoop len t input = .returned final.length t' rest ∧ final.length ≤ n ∧
      t'.s.length = s₀.length ∧ t'.s.take final.length = final ∧ t'.s[final.length]? = some 0 ∧
      t'.s.drop (n + 1) = s₀.drop (n + 1)) ∨
    (consume lineKeys n line input = none ∧ ∃ t', sysReadLoop len t input = .blocked t' ∧
      Edits n s₀ (typed lineKeys line input) t') := by
  have hfull : ∀ {line t}, Edits n s₀ line t → ¬line.length < n → ∀ input,
      ∃ t', sysReadLoop len t input = .returned line.length t' input ∧ line.length ≤ n ∧
        t'.s.length = s₀.length ∧ t'.s.take line.length = line ∧ t'.s[line.length]? = some 0 ∧
        t'.s.drop (n + 1) = s₀.drop (n + 1) := by
    intro line t h hlt input
    have hcount := h.count
    obtain ⟨t', hr, _, hspec⟩ := finishRead_edits h hn input
    exact ⟨t', (sysReadLoop_full (by omega) input).trans hr, h.room, hspec⟩
  induction input generalizing line t with
  | nil =>
    by_cases hlt : line.length < n
    · have hcount := h.count
      exact Or.inr ⟨consume_wait _ hlt, t, sysReadLoop_wait (by omega), h⟩
    · obtain ⟨t', hspec⟩ := hfull h hlt []
      exact Or.inl ⟨_, _, _, t', consume_full _ hlt [], hspec⟩
  | cons c input ih =>
    by_cases hlt : line.length < n
    · have hcount := h.count
      have hloop : (t.count : ℤ) < len - 1 := by omega
      cases hc : lineKeys.isEnter c with
      | true =>
        have hecho : Edits n s₀ line { t with console := consolePutbytes t.console [newline] } :=
          ⟨h.count, h.room, h.size, h.text, h.beyond⟩
        obtain ⟨t', hr, _, hspec⟩ := finishRead_edits hecho hn input
        have hbreak := sysReadLoop_break hloop (readBody_enter t hc) input
        exact Or.inl ⟨_, _, _, t', consume_enter _ hlt hc input, hbreak.trans hr, h.room, hspec⟩
      | false =>
        obtain ⟨u, hu, hnext⟩ := readBody_edit h hn hlt hc
        have hagain := sysReadLoop_again hloop hu input
        have hcons := consume_edit lineKeys hlt hc input
        rcases ih hnext with ⟨pre, final, rest, t', he, hr, hspec⟩ | ⟨he, t', hr, ht⟩
        · exact Or.inl ⟨c :: pre, final, rest, t', by simp [hcons, he], hagain.trans hr, hspec⟩
        · exact Or.inr ⟨by simp [hcons, he], t', hagain.trans hr, ht⟩
    · obtain ⟨t', hspec⟩ := hfull h hlt (c :: input)
      exact Or.inl ⟨_, _, _, t', consume_full _ hlt (c :: input), hspec⟩

end
theorem edits_start (n : ℕ) (s : List U8) (console : Console) : Edits n s [] ⟨s, 0, console⟩ :=
  ⟨rfl, Nat.zero_le n, rfl, rfl, rfl⟩

/-- What a returned call has consumed, and what it has left in the buffer. -/
structure ReadsLine (len : ℤ) (s input : List U8) (count : ℕ) (t : Reading) (rest : List U8) : Prop where
  consumed : ∃ pre, input = pre ++ rest ∧ StopsFirst lineKeys (len - 1).toNat [] pre ∧
    t.s.take count = typed lineKeys [] pre ∧ count = (typed lineKeys [] pre).length
  terminated : t.s[count]? = some 0
  count_le : (count : ℤ) ≤ len - 1
  size : t.s.length = s.length
  beyond : t.s.drop len.toNat = s.drop len.toNat

/-- The call never stores past `len` bytes, whatever the size of the buffer; it returns as soon as
some beginning of the input ends the line, and then it has read that line. -/
theorem sysRead_readsLine (s : List U8) (len : ℤ) (console : Console) (input : List U8) (hlen : 1 ≤ len)
    (hs : len ≤ s.length) :
    sysRead s len console input ≠ .fault ∧
    (∀ count t rest, sysRead s len console input = .returned count t rest →
      ReadsLine len s input count t rest) ∧
    ((∃ pre rest, input = pre ++ rest ∧ Stops lineKeys (len - 1).toNat [] pre) →
      ∃ count t rest, sysRead s len console input = .returned count t rest) := by
  obtain ⟨n, rfl⟩ : ∃ n : ℕ, len = n + 1 := ⟨(len - 1).toNat, by omega⟩
  have hn : n < s.length := by omega
  have hpred : ((n : ℤ) + 1 - 1).toNat = n := by simp
  have hsucc : ((n : ℤ) + 1).toNat = n + 1 := rfl
  rw [hpred]
  rcases sysReadLoop_spec rfl (edits_start n s console) hn input with
    ⟨pre, final, rest, t, hcons, hr, hroom, hsize, htext, hend, hbeyond⟩ | ⟨hcons, t, hr, _⟩
  · obtain ⟨he, rfl, hfirst⟩ := consume_eq_some lineKeys (Nat.zero_le n) hcons
    rw [sysRead, hr]
    refine ⟨by simp, ?_, fun _ => ⟨_, _, _, rfl⟩⟩
    intro count t' rest' heq
    cases heq
    exact ⟨⟨pre, he, hpred.symm ▸ hfirst, htext, rfl⟩, hend, by omega, hsize, hsucc ▸ hbeyond⟩
  · rw [sysRead, hr]
    refine ⟨by simp, by simp, ?_⟩
    rintro ⟨pre, rest, he, hstops⟩
    exact absurd hstops (not_stops_of_consume_eq_none lineKeys hcons he)

/-- `a`, backspace, `b`, enter into a buffer of three bytes. -/
theorem sysRead_readsLine_b :
    sysRead [0, 0, 0] 3 (.boot (fun _ => 0) ⟨0, fun _ => 0⟩) [0x61, 0x08, 0x62, 0x0D] ≠ .fault :=
  (sysRead_readsLine [0, 0, 0] 3 _ [0x61, 0x08, 0x62, 0x0D] (by decide) (by decide)).1

end N7OS
