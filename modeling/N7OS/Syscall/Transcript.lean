import N7OS.Syscall.Read

/-! # What a call of `sys_read` puts on the console

The echo depends on the keys alone, and on the line that they have typed so far: a backspace
shows nothing on an empty line.
-/
namespace N7OS
open LineEditor

def echo (line : List U8) (c : U8) : List U8 :=
  if lineKeys.isEnter c then [newline]
  else if lineKeys.isErase c then (if line = [] then [] else [backspace, 0x20#8, backspace])
  else [c]

def echoes (line : List U8) : List U8 → List U8
  | [] => []
  | c :: keys => echo line c ++ echoes (edit lineKeys line c) keys

variable {len : ℤ} {n : ℕ} {line input : List U8} {t : Reading}

theorem length_edit_key (line : List U8) (c : U8) :
    (edit lineKeys line c).length =
      if lineKeys.isEnter c then line.length else if lineKeys.isErase c then line.length - 1 else line.length + 1 := by
  unfold edit
  split_ifs <;> simp

/-- One key: the count stays the length of the line, and the key is echoed. -/
theorem readBody_echo (hcount : t.count = line.length) {c : U8} {t' : Reading} {last : Bool}
    (h : readBody t c = some (t', last)) :
    t'.console = consolePutbytes t.console (echo line c) ∧ last = lineKeys.isEnter c ∧
      t'.count = (edit lineKeys line c).length := by
  unfold readBody at h
  rw [length_edit_key]
  unfold echo
  by_cases henter : c = carriageReturn ∨ c = newline
  · have hkey : lineKeys.isEnter c = true := by simpa [lineKeys] using henter
    rw [if_pos henter] at h
    cases h
    simp [hkey, hcount]
  have hkey : lineKeys.isEnter c = false := by simpa [lineKeys] using henter
  rw [if_neg henter] at h
  by_cases hback : c = backspace
  · have herase : lineKeys.isErase c = true := by simpa [lineKeys] using hback
    rw [if_pos hback] at h
    by_cases hpos : 0 < t.count
    · have hline : line ≠ [] := List.length_pos_iff.mp (hcount ▸ hpos)
      rw [if_pos hpos] at h
      cases h
      simp [hkey, herase, hline, hcount]
    · have hline : line = [] := List.length_eq_zero_iff.mp (hcount ▸ Nat.eq_zero_of_not_pos hpos)
      rw [if_neg hpos] at h
      cases h
      simp [hkey, herase, hline, hcount, consolePutbytes]
  · have herase : lineKeys.isErase c = false := by simpa [lineKeys] using hback
    rw [if_neg hback] at h
    obtain ⟨s, -, hpair⟩ := Option.map_eq_some_iff.mp h
    cases hpair
    simp [hkey, herase, hcount]

theorem finishRead_returned {rest rest' : List U8} {count : ℕ} {t' : Reading}
    (h : finishRead t rest = .returned count t' rest') :
    t'.console = t.console ∧ rest' = rest := by
  unfold finishRead at h
  split at h
  · cases h
    exact ⟨rfl, rfl⟩
  · cases h

theorem finishRead_not_blocked (t t' : Reading) (rest : List U8) : finishRead t rest ≠ .blocked t' := by
  unfold finishRead
  split <;> simp

/-- A full line ends the call at once. -/
theorem sysReadLoop_echo_full (hlen : len = n + 1) (hcount : t.count = line.length) (hfull : ¬line.length < n)
    (input : List U8) :
    (∀ count t' rest, sysReadLoop len t input = .returned count t' rest →
      ∃ pre final, consume lineKeys n line input = some (pre, final, rest) ∧
        t'.console = consolePutbytes t.console (echoes line pre)) ∧
    ∀ t', sysReadLoop len t input ≠ .blocked t' := by
  rw [sysReadLoop_full (by omega)]
  refine ⟨fun count t' rest h => ?_, fun t' => finishRead_not_blocked t t' _⟩
  obtain ⟨hconsole, rfl⟩ := finishRead_returned h
  exact ⟨[], line, consume_full lineKeys hfull _, hconsole⟩

/-- The keys consumed are echoed; those of a call that waits are all of them. -/
theorem sysReadLoop_echo (hlen : len = n + 1) (hcount : t.count = line.length) :
    (∀ count t' rest, sysReadLoop len t input = .returned count t' rest →
      ∃ pre final, consume lineKeys n line input = some (pre, final, rest) ∧
        t'.console = consolePutbytes t.console (echoes line pre)) ∧
    ∀ t', sysReadLoop len t input = .blocked t' → t'.console = consolePutbytes t.console (echoes line input) := by
  induction input generalizing line t with
  | nil =>
    by_cases hlt : line.length < n
    · rw [sysReadLoop_wait (by omega)]
      constructor
      · intro count t' rest h
        cases h
      · intro t' h
        cases h
        rfl
    · obtain ⟨hreturned, hwaits⟩ := sysReadLoop_echo_full hlen hcount hlt []
      exact ⟨hreturned, fun t' h => absurd h (hwaits t')⟩
  | cons c input ih =>
    by_cases hlt : line.length < n
    · have hloop : (t.count : ℤ) < len - 1 := by omega
      cases hbody : readBody t c with
      | none =>
        have hfault : sysReadLoop len t (c :: input) = .fault := by rw [sysReadLoop, if_pos hloop, hbody]
        rw [hfault]
        constructor
        · intro count t' rest h
          cases h
        · intro t' h
          cases h
      | some result =>
        obtain ⟨u, last⟩ := result
        obtain ⟨hecho, hlast, hnext⟩ := readBody_echo hcount hbody
        cases hkey : lineKeys.isEnter c with
        | true =>
          rw [hkey] at hlast
          rw [hlast] at hbody
          rw [sysReadLoop_break hloop hbody]
          refine ⟨fun count t' rest h => ?_, fun t' h => absurd h (finishRead_not_blocked u t' _)⟩
          obtain ⟨hconsole, rfl⟩ := finishRead_returned h
          refine ⟨[c], line, consume_enter lineKeys hlt hkey _, ?_⟩
          rw [hconsole, hecho, echoes, echoes, List.append_nil]
        | false =>
          rw [hkey] at hlast
          rw [hlast] at hbody
          obtain ⟨hreturned, hblocked⟩ := ih hnext
          rw [sysReadLoop_again hloop hbody]
          constructor
          · intro count t' rest h
            obtain ⟨pre, final, hcons, hconsole⟩ := hreturned count t' rest h
            refine ⟨c :: pre, final, ?_, ?_⟩
            · rw [consume_edit lineKeys hlt hkey, hcons, Option.map_some]
            · rw [hconsole, hecho, ← consolePutbytes_append]
              rfl
          · intro t' h
            rw [hblocked t' h, hecho, ← consolePutbytes_append]
            rfl
    · obtain ⟨hreturned, hwaits⟩ := sysReadLoop_echo_full hlen hcount hlt (c :: input)
      exact ⟨hreturned, fun t' h => absurd h (hwaits t')⟩

theorem sysReadLoop_rest {count : ℕ} {t' : Reading} {rest : List U8}
    (h : sysReadLoop len t input = .returned count t' rest) : rest.length ≤ input.length := by
  induction input generalizing t with
  | nil =>
    rw [sysReadLoop.eq_def] at h
    split_ifs at h
    rw [(finishRead_returned h).2]
  | cons c input ih =>
    rw [sysReadLoop] at h
    split_ifs at h
    · cases hbody : readBody t c with
      | none => simp [hbody] at h
      | some result =>
        obtain ⟨u, last⟩ := result
        cases last with
        | true =>
          rw [hbody] at h
          rw [(finishRead_returned h).2]
          exact Nat.le_succ _
        | false =>
          rw [hbody] at h
          exact (ih h).trans (Nat.le_succ _)
    · rw [(finishRead_returned h).2]

/-- A line that may have a character takes a key. -/
theorem consume_rest {pre rest : List U8} (hn : 0 < n) (h : consume lineKeys n [] input = some (pre, line, rest)) :
    rest.length < input.length := by
  obtain ⟨hinput, -, hfirst⟩ := consume_eq_some lineKeys (Nat.zero_le n) h
  have hpre : pre ≠ [] := by
    rintro rfl
    have hstops := (stops_nil lineKeys).mp hfirst.1
    exact hn.ne hstops
  have hpos := List.length_pos_iff.mpr hpre
  rw [hinput, List.length_append]
  omega

/-- A call that may store a character consumes a key. -/
theorem sysRead_rest (hlen : 1 < len) {s : List U8} {console : Console} {count : ℕ} {t' : Reading} {rest : List U8}
    (h : sysRead s len console input = .returned count t' rest) : rest.length < input.length := by
  have hloop : ((0 : ℕ) : ℤ) < len - 1 := by omega
  unfold sysRead at h
  cases input with
  | nil =>
    rw [sysReadLoop_wait hloop] at h
    cases h
  | cons c input =>
    rw [sysReadLoop, if_pos hloop] at h
    cases hbody : readBody ⟨s, 0, console⟩ c with
    | none => simp [hbody] at h
    | some result =>
      obtain ⟨u, last⟩ := result
      rw [hbody] at h
      cases last with
      | true =>
        rw [(finishRead_returned h).2]
        exact Nat.lt_succ_self _
      | false => exact Nat.lt_succ_of_le (sysReadLoop_rest h)

end N7OS
