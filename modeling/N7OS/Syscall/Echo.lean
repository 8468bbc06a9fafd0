import N7OS.Console.Cursor
import N7OS.Foundation.Execution
import N7OS.Keyboard.Channel
import N7OS.Syscall.Read

/-! # The echo of the line being edited

While `sys_read` goes round its loop the screen shows the buffer: every key
stores and draws a character, or takes the last one back with `"\b \b"`. The line
stays on one row because the caller leaves enough columns.
-/
namespace N7OS
open LineEditor Execution

/-- The keys that the tables of `keyboard.h` produce. -/
def Typeable (c : U8) : Prop := Printable c ∨ c = backspace ∨ c = carriageReturn

/-- The cursor is in the row it was in last. -/
structure OnRow (L col : ℕ) (s : Console) : Prop where
  line : s.cursorLine.toNat = L
  col : s.cursorCol.toNat = col
  lastLine : s.lastLine.toNat = L

section
variable {L col : ℕ} {s : Console} {c : U8}

/-- A byte that keeps the cursor in its row clears nothing. -/
theorem OnRow.putchar (h : OnRow L col s) (hL : L < 25) (hcol : col < 80) (hc : c ≠ formFeed) {q : Cursor}
    (hq : Cursor.step ⟨L, col, hL, hcol⟩ c = q) (hrow : q.line = L) :
    OnRow L q.col (consolePutchar s c) ∧ (consolePutchar s c).scrTab = draw ⟨L, col, hL, hcol⟩ c s.scrTab := by
  have hat : At ⟨L, col, hL, hcol⟩ s := ⟨h.line, h.col⟩
  have hnext := consolePutchar_at (c := c) hat
  have hlast := consolePutchar_lastLine hat hc
  have hscr := consolePutchar_scrTab hat hc
  rw [hq] at hnext hlast hscr
  refine ⟨⟨hnext.line.trans hrow, hnext.col, hlast.trans hrow⟩, ?_⟩
  funext x
  rw [hscr x, if_neg]
  simp [hrow, h.lastLine]

theorem OnRow.print (h : OnRow L col s) (hL : L < 25) (hcol : col + 1 < 80) (hc : Printable c) :
    OnRow L (col + 1) (consolePutchar s c) ∧
      (consolePutchar s c).scrTab = Function.update s.scrTab (80 * L + col) (cell c) := by
  have hne : c ≠ formFeed := by
    rintro rfl
    exact absurd hc (by decide)
  have hstep : Cursor.step ⟨L, col, hL, by omega⟩ c = ⟨L, col + 1, hL, hcol⟩ := by
    simp [Cursor.step, hc, Cursor.moveTo, hcol]
  obtain ⟨hrow, hscr⟩ := h.putchar hL (by omega) hne hstep rfl
  exact ⟨hrow, by simpa [draw, hc] using hscr⟩

theorem OnRow.back (h : OnRow L (col + 1) s) (hL : L < 25) (hcol : col + 1 < 80) :
    OnRow L col (consolePutchar s backspace) ∧ (consolePutchar s backspace).scrTab = s.scrTab := by
  have hnp : ¬Printable backspace := by decide
  have hstep : Cursor.step ⟨L, col + 1, hL, hcol⟩ backspace = ⟨L, col, hL, by omega⟩ := by
    simp [Cursor.step, hnp, Cursor.moveTo, show col < 80 by omega]
  obtain ⟨hrow, hscr⟩ := h.putchar hL hcol (by decide) hstep rfl
  exact ⟨hrow, by simpa [draw, hnp] using hscr⟩

/-- `"\b \b"` blanks the cell before the cursor and leaves the cursor on it. -/
theorem OnRow.erase (h : OnRow L (col + 1) s) (hL : L < 25) (hcol : col + 1 < 80) :
    OnRow L col (consolePutbytes s [backspace, 0x20#8, backspace]) ∧
      (consolePutbytes s [backspace, 0x20#8, backspace]).scrTab =
        Function.update s.scrTab (80 * L + col) blankCell := by
  obtain ⟨h₁, hscr₁⟩ := h.back hL hcol
  obtain ⟨h₂, hscr₂⟩ := h₁.print hL hcol (c := 0x20#8) (by decide)
  obtain ⟨h₃, hscr₃⟩ := h₂.back hL hcol
  refine ⟨h₃, ?_⟩
  change (consolePutchar _ backspace).scrTab = _
  rw [hscr₃, hscr₂, hscr₁]
  rfl

end

/-- The loop goes round once more on `c`. -/
def ReadStep (len : ℤ) (t : Reading) (c : U8) (u : Reading) : Prop :=
  (t.count : ℤ) < len - 1 ∧ readBody t c = some (u, false)

/-- The text on row `L` from column `c₀` on, blanks where it was longer, and the rest of the screen as it was. -/
structure ShowsLine (start : Console) (L c₀ : ℕ) (text : List U8) (m : ℕ) (s : Console) : Prop where
  cursor : OnRow L (c₀ + text.length) s
  text_le : text.length ≤ m
  shown : ∀ i c, text[i]? = some c → s.scrTab (80 * L + c₀ + i) = cell c
  blank : ∀ i, text.length ≤ i → i < m → s.scrTab (80 * L + c₀ + i) = blankCell
  others : ∀ x, x < 80 * L + c₀ ∨ 80 * L + c₀ + m ≤ x → s.scrTab x = start.scrTab x

section
variable {L c₀ m n : ℕ} {start s : Console} {text line s₀ : List U8} {c : U8} {t u : Reading} {len : ℤ}

theorem ShowsLine.type (h : ShowsLine start L c₀ text m s) (hL : L < 25)
    (hcol : c₀ + text.length + 1 < 80) (hc : Printable c) :
    ShowsLine start L c₀ (text ++ [c]) (max m (text.length + 1)) (consolePutchar s c) := by
  obtain ⟨hrow, hscr⟩ := h.cursor.print hL hcol hc
  have hm := h.text_le
  constructor
  · simpa [Nat.add_assoc] using hrow
  · simp
  · intro i d hd
    rw [hscr]
    by_cases hi : i = text.length
    · subst hi
      simp only [List.getElem?_concat_length, Option.some.injEq] at hd
      rw [hd, Nat.add_assoc, Function.update_self]
    · have hlt : i < text.length := by
        have := (List.getElem?_eq_some_iff.mp hd).1
        simp at this
        omega
      rw [Function.update_of_ne (by omega)]
      exact h.shown i d (by rwa [List.getElem?_append_left hlt] at hd)
  · intro i hle hlt
    simp only [List.length_append, List.length_singleton] at hle
    rw [hscr, Function.update_of_ne (by omega)]
    exact h.blank i (by omega) (by omega)
  · intro x hx
    rw [hscr, Function.update_of_ne (by omega)]
    exact h.others x (by omega)

theorem ShowsLine.erase (h : ShowsLine start L c₀ text m s) (hL : L < 25) (hcol : c₀ + text.length < 80)
    (hne : 0 < text.length) :
    ShowsLine start L c₀ text.dropLast m (consolePutbytes s [backspace, 0x20#8, backspace]) := by
  have hm := h.text_le
  have hpred : c₀ + text.length = c₀ + (text.length - 1) + 1 := by omega
  have hcursor := h.cursor
  rw [hpred] at hcursor
  obtain ⟨hrow, hscr⟩ := hcursor.erase hL (by omega)
  constructor
  · simpa using hrow
  · simp
    omega
  · intro i d hd
    have hlt : i < text.length - 1 := by
      have := (List.getElem?_eq_some_iff.mp hd).1
      simpa using this
    rw [hscr, Function.update_of_ne (by omega)]
    exact h.shown i d (by rwa [List.getElem?_dropLast, if_pos hlt] at hd)
  · intro i hle hlt
    simp only [List.length_dropLast] at hle
    rw [hscr]
    by_cases hi : i = text.length - 1
    · rw [hi, Nat.add_assoc, Function.update_self]
    · rw [Function.update_of_ne (by omega)]
      exact h.blank i (by omega) hlt
  · intro x hx
    rw [hscr, Function.update_of_ne (by omega)]
    exact h.others x hx

/-- What a round of the loop that does not break does to the console. -/
theorem readBody_cases (h : readBody t c = some (u, false)) :
    lineKeys.isEnter c = false ∧
      ((c = backspace ∧ 0 < t.count ∧ u.console = consolePutbytes t.console [backspace, 0x20#8, backspace]) ∨
        (c = backspace ∧ t.count = 0 ∧ u = t) ∨
        (c ≠ backspace ∧ u.console = consolePutchar t.console c)) := by
  by_cases he : c = carriageReturn ∨ c = newline
  · rw [readBody, if_pos he] at h
    simp at h
  refine ⟨by simpa [lineKeys] using he, ?_⟩
  by_cases hb : c = backspace
  · rw [readBody, if_neg he, if_pos hb] at h
    by_cases hpos : 0 < t.count
    · rw [if_pos hpos] at h
      cases h
      exact Or.inl ⟨hb, hpos, rfl⟩
    · rw [if_neg hpos] at h
      cases h
      exact Or.inr (Or.inl ⟨hb, by omega, rfl⟩)
  · rw [readBody, if_neg he, if_neg hb] at h
    obtain ⟨s, _, he⟩ := Option.map_eq_some_iff.mp h
    cases he
    exact Or.inr (Or.inr ⟨hb, rfl⟩)

/-- One round keeps buffer and screen together. -/
theorem ReadStep.shows (hstep : ReadStep len t c u) (hlen : len = n + 1) (hn : n < s₀.length) (hL : L < 25)
    (hwidth : c₀ + n < 80) (hc : Typeable c) (he : Edits n s₀ line t)
    (h : ShowsLine start L c₀ line m t.console) :
    Edits n s₀ (edit lineKeys line c) u ∧
      ShowsLine start L c₀ (edit lineKeys line c) (max m (edit lineKeys line c).length) u.console := by
  obtain ⟨hlt, hbody⟩ := hstep
  obtain ⟨hplain, hcases⟩ := readBody_cases hbody
  have hcount := he.count
  have hroom : line.length < n := by omega
  obtain ⟨u', hu', hedit⟩ := readBody_edit he hn hroom hplain
  rw [hbody] at hu'
  obtain rfl : u = u' := by simpa using hu'
  refine ⟨hedit, ?_⟩
  have hm := h.text_le
  rcases hcases with ⟨hb, hpos, hcon⟩ | ⟨hb, hzero, rfl⟩ | ⟨hb, hcon⟩
  · have hline := edit_erase lineKeys hplain (by simp [lineKeys, hb]) line
    have hmax : max m line.dropLast.length = m := by simp; omega
    rw [hline, hmax, hcon]
    exact h.erase hL (by omega) (by omega)
  · have hnil : line = [] := List.eq_nil_of_length_eq_zero (by omega)
    have hline : edit lineKeys line c = line := by
      rw [edit_erase lineKeys hplain (by simp [lineKeys, hb]), hnil, List.dropLast_nil]
    rw [hline, max_eq_left hm]
    exact h
  · have hprint : Printable c := by
      rcases hc with hc | hc | hc
      · exact hc
      · exact absurd hc hb
      · simp [lineKeys, hc] at hplain
    have hline := edit_type lineKeys hplain (by simp [lineKeys, hb]) line
    rw [hline, hcon, List.length_append, List.length_singleton]
    exact h.type hL (by omega) hprint

theorem ReadStep.runs_show {pre : List U8} (hrun : Runs (ReadStep len) t pre u) (hlen : len = n + 1)
    (hn : n < s₀.length) (hL : L < 25) (hwidth : c₀ + n < 80) (hc : ∀ c ∈ pre, Typeable c)
    (he : Edits n s₀ line t) (h : ShowsLine start L c₀ line m t.console) :
    Edits n s₀ (typed lineKeys line pre) u ∧
      ShowsLine start L c₀ (typed lineKeys line pre) (max m (peak lineKeys line pre)) u.console := by
  induction hrun generalizing line m with
  | nil =>
    refine ⟨he, ?_⟩
    rw [peak, max_eq_left h.text_le]
    exact h
  | @cons _ _ _ c pre hstep _ ih =>
    obtain ⟨hkey, hpre⟩ := List.forall_mem_cons.mp hc
    obtain ⟨he', h'⟩ := hstep.shows hlen hn hL hwidth hkey he h
    have hgoal := ih hpre he' h'
    have hle := h.text_le
    have hmax : max (max m (edit lineKeys line c).length) (peak lineKeys (edit lineKeys line c) pre) =
        max m (max line.length (peak lineKeys (edit lineKeys line c) pre)) := by
      have hpeak := length_le_peak lineKeys (edit lineKeys line c) pre
      omega
    rw [hmax] at hgoal
    exact hgoal

/-- The states of `ReadStep` runs are those that the call goes through. -/
theorem sysReadLoop_of_runs {pre : List U8} (hrun : Runs (ReadStep len) t pre u) (post : List U8) :
    sysReadLoop len t (pre ++ post) = sysReadLoop len u post := by
  induction hrun with
  | nil => rfl
  | cons hstep _ ih => exact (sysReadLoop_again hstep.1 hstep.2 _).trans ih

theorem shows_start (q : Cursor) (hat : At q s) (hlast : s.lastLine = s.cursorLine) :
    ShowsLine s q.line q.col [] 0 s := by
  refine ⟨⟨hat.line, hat.col, hlast ▸ hat.line⟩, le_rfl, ?_, ?_, fun _ _ => rfl⟩
  · intro i c h
    simp at h
  · intro i _ h
    omega

end

instance (c : U8) : Decidable (Typeable c) := inferInstanceAs (Decidable (_ ∨ _))

theorem scancodeMap_typeable : ∀ i : Fin 89, scancodeMap[i.val] ≠ 0#16 ∧ scancodeMap[i.val].toNat ≤ 0xFF →
    Typeable (scancodeMap[i.val].setWidth 8) := by
  decide

theorem scancodeMapShift_typeable : ∀ i : Fin 89,
    scancodeMapShift[i.val] ≠ 0#16 ∧ scancodeMapShift[i.val].toNat ≤ 0xFF →
    Typeable (scancodeMapShift[i.val].setWidth 8) := by
  decide

theorem typeable_of_key {key : U16} {c : U8}
    (hkey : key ≠ 0#16 ∧ key.toNat ≤ 0xFF → Typeable (key.setWidth 8))
    (h : (if key ≠ 0#16 ∧ key.toNat ≤ 0xFF then some (key.setWidth 8) else none) = some c) : Typeable c := by
  split at h
  · next hascii =>
    cases h
    exact hkey hascii
  · cases h

/-- The codes in the tables of `keyboard.h` are printable, backspace or return. -/
theorem decodeKey_typeable {shift : Bool} {scancode c : U8} (h : decodeKey shift scancode = some c) :
    Typeable c := by
  unfold decodeKey at h
  split at h
  · cases h
  split at h
  · cases h
  split at h
  · cases h
  split at h
  · next hlt =>
    apply typeable_of_key _ h
    cases shift with
    | true => exact scancodeMapShift_typeable ⟨_, hlt⟩
    | false => exact scancodeMap_typeable ⟨_, hlt⟩
  · cases h

/-- After the keys consumed so far, and before an enter, the screen shows the line in the buffer. -/
theorem sysRead_showsLine (q : Cursor) (start : Console) (hat : At q start)
    (hlast : start.lastLine = start.cursorLine) (len : ℤ) (hwidth : q.col + len ≤ 80) (s : List U8)
    (hs : len ≤ s.length) (pre : List U8) (hkeys : ∀ c ∈ pre, Typeable c) (t : Reading)
    (hrun : Runs (ReadStep len) ⟨s, 0, start⟩ pre t) (m : ℕ)
    (hm : IsGreatest {count | ∃ init rest, pre = init ++ rest ∧ count = (typed lineKeys [] init).length} m) :
    ShowsLine start q.line q.col (t.s.take t.count) m t.console ∧ t.s.take t.count = typed lineKeys [] pre ∧
      ∀ post, sysRead s len start (pre ++ post) = sysReadLoop len t post := by
  obtain rfl : m = peak lineKeys [] pre := hm.unique (isGreatest_peak lineKeys [] pre)
  have hempty := shows_start q hat hlast
  suffices hgoal : (∃ n : ℕ, Edits n s (typed lineKeys [] pre) t) ∧
      ShowsLine start q.line q.col (typed lineKeys [] pre) (peak lineKeys [] pre) t.console by
    obtain ⟨⟨n, hedits⟩, hshows⟩ := hgoal
    have htext : t.s.take t.count = typed lineKeys [] pre := by rw [hedits.count, hedits.text]
    exact ⟨htext ▸ hshows, htext, sysReadLoop_of_runs hrun⟩
  by_cases hlen : 1 ≤ len
  · obtain ⟨n, rfl⟩ : ∃ n : ℕ, len = n + 1 := ⟨(len - 1).toNat, by omega⟩
    obtain ⟨hedits, hshows⟩ := ReadStep.runs_show hrun rfl (by omega) q.line_lt (by omega) hkeys
      (edits_start n s start) hempty
    rw [Nat.zero_max] at hshows
    exact ⟨⟨n, hedits⟩, hshows⟩
  · cases hrun with
    | nil => exact ⟨⟨0, edits_start 0 s start⟩, hempty⟩
    | cons hstep _ => exact absurd hstep.1 (by simp; omega)

/-- The letters `a` and `b` typed on the second row after start-up, and `b` taken back. -/
theorem sysRead_showsLine_back :
    let start := consolePutbytes (initConsole (.boot (fun _ => 0) ⟨0, fun _ => 0⟩)) [newline]
    ShowsLine start 1 0 [0x61] 2 (consolePutbytes start [0x61, 0x62, backspace, 0x20, backspace]) := by
  intro start
  have hrun : ∀ s, Runs (ReadStep 4) ⟨[0, 0, 0, 0], 0, s⟩ [0x61, 0x62, backspace]
      ⟨[0x61, 0x62, 0, 0], 1,
        consolePutbytes (consolePutbytes (consolePutbytes s [0x61]) [0x62]) [backspace, 0x20, backspace]⟩ :=
    fun s => .cons ⟨by simp, rfl⟩ (.cons ⟨by simp, rfl⟩ (.cons ⟨by simp, rfl⟩ (.nil _)))
  have happend : consolePutbytes start [0x61, 0x62, backspace, 0x20, backspace] =
      consolePutbytes (consolePutbytes (consolePutbytes start [0x61]) [0x62]) [backspace, 0x20, backspace] :=
    (consolePutbytes_append start [0x61] [0x62, backspace, 0x20, backspace]).trans
      (consolePutbytes_append _ [0x62] [backspace, 0x20, backspace])
  rw [happend]
  exact (sysRead_showsLine ⟨1, 0, by decide, by decide⟩ start ⟨rfl, rfl⟩ rfl 4 (by decide) [0, 0, 0, 0] (by decide)
    [0x61, 0x62, backspace] (by decide) _ (hrun start) 2 (isGreatest_peak lineKeys [] [0x61, 0x62, backspace])).1

end N7OS
