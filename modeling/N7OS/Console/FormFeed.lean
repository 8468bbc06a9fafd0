import Mathlib.Data.List.DropRight
import N7OS.Console.Cursor

/-! # The form feed

`'\f'` clears the screen and returns early, so `last_line` keeps the line of the
byte before. The next byte then enters line 0 once more and clears it after
having drawn on it. This module compares a console that starts with a history
and a form feed with one that starts fresh, byte by byte.
-/
namespace N7OS

/-- The screen and the cursor, without the hidden `last_line`. -/
structure SameDisplay (a b : Console) : Prop where
  line : a.cursorLine = b.cursorLine
  col : a.cursorCol = b.cursorCol
  cells : ∀ x < 80 * 25, a.scrTab x = b.scrTab x

/-- The byte overwrites or clears the first cell. -/
def Cursor.TouchesHome (q : Cursor) (c : U8) : Prop :=
  c = formFeed ∨ (Printable c ∧ q = home) ∨ (q.line ≠ 0 ∧ (q.step c).line = 0)

def TouchesHomeIn : Cursor → List U8 → Prop
  | _, [] => False
  | q, c :: bytes => q.TouchesHome c ∨ TouchesHomeIn (q.step c) bytes

/-- The line of the last byte that is not a form feed. -/
def lineLeft (bytes : List U8) : ℕ := (Cursor.after (bytes.rdropWhile (· == formFeed))).line

/-- Losing what the first byte after a clear draws leaves no trace. -/
def FirstByteHarmless : List U8 → Prop
  | [] => True
  | c :: bytes =>
    if c = formFeed then FirstByteHarmless bytes
    else ¬Printable c ∨ c = 0x20#8 ∨ TouchesHomeIn (Cursor.home.step c) bytes

/-- A cleared console that remembers line `l`. -/
structure Cleared (l : ℕ) (s : Console) : Prop where
  home : At .home s
  last : s.lastLine.toNat = l
  cells : ∀ x < 80 * 25, s.scrTab x = blankCell

/-- Two consoles that can differ only in what they show. -/
structure Twins (q : Cursor) (a b : Console) : Prop where
  left : At q a
  right : At q b
  last : a.lastLine = b.lastLine

variable {q : Cursor} {a b s : Console} {c : U8} {l x : ℕ}

theorem cleared_initConsole (scrTab : ℕ → U16) (crtc : Crtc) :
    Cleared 0 (initConsole (.boot scrTab crtc)) :=
  ⟨⟨rfl, rfl⟩, rfl, fun x hx => by rw [initConsole, clearScreen_scrTab, if_pos hx]⟩

theorem cleared_formFeed (s : Console) : Cleared s.lastLine.toNat (consolePutchar s formFeed) :=
  ⟨⟨rfl, rfl⟩, rfl, fun x hx => (clearScreen_scrTab s x).trans (if_pos hx)⟩

theorem lastLine_putbytes (scrTab : ℕ → U16) (crtc : Crtc) (bytes : List U8) :
    (consolePutbytes (initConsole (.boot scrTab crtc)) bytes).lastLine.toNat = lineLeft bytes := by
  induction bytes using List.reverseRecOn with
  | nil => rfl
  | append_singleton bytes c ih =>
    rw [consolePutbytes_append]
    by_cases hc : c = formFeed
    · subst hc
      rw [lineLeft, List.rdropWhile_concat_pos _ _ _ (by rfl)]
      exact (cleared_formFeed _).last.trans ih
    · have hat := consolePutbytes_at (cleared_initConsole scrTab crtc).home bytes
      rw [lineLeft, List.rdropWhile_concat_neg _ _ _ (by simpa using hc), Cursor.after,
        List.foldl_append]
      exact consolePutchar_lastLine hat hc

theorem twins_putchar (h : Twins q a b) (c : U8) :
    Twins (q.step c) (consolePutchar a c) (consolePutchar b c) := by
  refine ⟨consolePutchar_at h.left, consolePutchar_at h.right, ?_⟩
  by_cases hc : c = formFeed
  · subst hc
    exact h.last
  · apply BitVec.eq_of_toNat_eq
    rw [consolePutchar_lastLine h.left hc, consolePutchar_lastLine h.right hc]

/-- A cell depends on its own past only. -/
theorem twins_cell (h : Twins q a b) (hx : a.scrTab x = b.scrTab x) :
    (consolePutchar a c).scrTab x = (consolePutchar b c).scrTab x := by
  by_cases hc : c = formFeed
  · subst hc
    change (clearScreen a).scrTab x = (clearScreen b).scrTab x
    rw [clearScreen_scrTab, clearScreen_scrTab, hx]
  · have hdraw : draw q c a.scrTab x = draw q c b.scrTab x := by
      rw [draw, draw]
      split
      · rw [Function.update_apply, Function.update_apply, hx]
      · exact hx
    rw [consolePutchar_scrTab h.left hc, consolePutchar_scrTab h.right hc, h.last, hdraw]

theorem twins_putbytes (h : Twins q a b) (bytes : List U8) :
    Twins (bytes.foldl Cursor.step q) (consolePutbytes a bytes) (consolePutbytes b bytes) := by
  induction bytes generalizing q a b with
  | nil => exact h
  | cons c bytes ih => exact ih (twins_putchar h c)

theorem twins_cell_putbytes (h : Twins q a b) (hx : a.scrTab x = b.scrTab x) (bytes : List U8) :
    (consolePutbytes a bytes).scrTab x = (consolePutbytes b bytes).scrTab x := by
  induction bytes generalizing q a b with
  | nil => exact hx
  | cons c bytes ih => exact ih (twins_putchar h c) (twins_cell h hx)

theorem touched_cell (h : Twins q a b) (hlast : a.lastLine.toNat = q.line) (ht : q.TouchesHome c) :
    (consolePutchar a c).scrTab 0 = (consolePutchar b c).scrTab 0 := by
  by_cases hc : c = formFeed
  · subst hc
    rw [(cleared_formFeed a).cells 0 (by decide), (cleared_formFeed b).cells 0 (by decide)]
  rw [consolePutchar_scrTab h.left hc, consolePutchar_scrTab h.right hc, ← h.last, hlast]
  rcases ht with hff | ⟨hp, rfl⟩ | ⟨hline, hstep⟩
  · exact absurd hff hc
  · simp only [draw, if_pos hp]
    rfl
  · rw [hstep, if_pos ⟨hline.symm, rfl⟩, if_pos ⟨hline.symm, rfl⟩]

theorem untouched_cell (h : At q s) (hlast : s.lastLine.toNat = q.line) (ht : ¬q.TouchesHome c) :
    (consolePutchar s c).scrTab 0 = s.scrTab 0 := by
  simp only [Cursor.TouchesHome, not_or, not_and] at ht
  obtain ⟨hc, hhome, hline⟩ := ht
  have hclear : ¬((q.step c).line ≠ s.lastLine.toNat ∧ 0 / 80 = (q.step c).line) := by
    rintro ⟨hne, h0⟩
    exact hline (by omega) h0.symm
  rw [consolePutchar_scrTab h hc, if_neg hclear, draw]
  by_cases hp : Printable c
  · rw [if_pos hp]
    refine Function.update_of_ne ?_ _ _
    intro h0
    exact hhome hp (Cursor.ext (by change q.line = 0; omega) (by change q.col = 0; omega))
  · rw [if_neg hp]

/-- The first cell differs until a byte touches it. -/
theorem first_cell_iff (h : Twins q a b) (hlast : a.lastLine.toNat = q.line) (bytes : List U8) :
    (consolePutbytes a bytes).scrTab 0 = (consolePutbytes b bytes).scrTab 0 ↔
      a.scrTab 0 = b.scrTab 0 ∨ TouchesHomeIn q bytes := by
  induction bytes generalizing q a b with
  | nil => exact (or_iff_left id).symm
  | cons c bytes ih =>
    by_cases ht : q.TouchesHome c
    · have hx := touched_cell h hlast ht
      exact iff_of_true (twins_cell_putbytes (twins_putchar h c) hx bytes) (.inr (.inl ht))
    · have hc : c ≠ formFeed := fun hc => ht (.inl hc)
      have ha := untouched_cell h.left hlast ht
      have hb := untouched_cell h.right (h.last ▸ hlast) ht
      have hstep := ih (twins_putchar h c) (consolePutchar_lastLine h.left hc)
      rw [ha, hb] at hstep
      exact hstep.trans (or_congr_right (or_iff_right ht).symm)

theorem cell_eq_blankCell : cell c = blankCell ↔ c = 0x20#8 := by
  constructor
  · intro h
    have hlow : ∀ c : U8, (cell c).setWidth 8 = c := by
      intro c
      simp [cell, BitVec.setWidth_or]
    rw [← hlow c, h, blankCell, hlow]
  · rintro rfl
    rfl

theorem first_byte_cell (h : Cleared l s) (hc : c ≠ formFeed) (hx : x < 80 * 25) :
    (consolePutchar s c).scrTab x =
      if Printable c ∧ x = 0 ∧ l = 0 then cell c else blankCell := by
  rw [consolePutchar_scrTab h.home hc, h.last, draw]
  by_cases hp : Printable c
  · have hstep : (Cursor.home.step c).line = 0 := by
      rw [Cursor.step, if_pos hp]
      rfl
    rw [if_pos hp, hstep, Function.update_apply, h.cells x hx]
    have hpos : 80 * Cursor.home.line + Cursor.home.col = 0 := rfl
    rw [hpos]
    grind
  · rw [if_neg hp, h.cells x hx, ite_self, if_neg (fun hcl => hp hcl.1)]

theorem sameDisplay_cleared {b : Console} (ha : Cleared l a) (hb : Cleared 0 b) (bytes : List U8) :
    SameDisplay (consolePutbytes a bytes) (consolePutbytes b bytes) ↔
      l = 0 ∨ FirstByteHarmless bytes := by
  induction bytes generalizing a b with
  | nil =>
    refine iff_of_true ⟨?_, ?_, ?_⟩ (.inr trivial)
    · exact BitVec.eq_of_toNat_eq (ha.home.line.trans hb.home.line.symm)
    · exact BitVec.eq_of_toNat_eq (ha.home.col.trans hb.home.col.symm)
    · exact fun x hx => (ha.cells x hx).trans (hb.cells x hx).symm
  | cons c bytes ih =>
    by_cases hc : c = formFeed
    · subst hc
      have ha' := ha.last ▸ cleared_formFeed a
      have hb' := hb.last ▸ cleared_formFeed b
      exact ih ha' hb'
    · have hlast := consolePutchar_lastLine ha.home hc
      have htw : Twins (Cursor.home.step c) (consolePutchar a c) (consolePutchar b c) := by
        refine ⟨consolePutchar_at ha.home, consolePutchar_at hb.home, BitVec.eq_of_toNat_eq ?_⟩
        rw [hlast, consolePutchar_lastLine hb.home hc]
      have hend := twins_putbytes htw bytes
      have hrest : ∀ x < 80 * 25, x ≠ 0 →
          (consolePutbytes (consolePutchar a c) bytes).scrTab x =
            (consolePutbytes (consolePutchar b c) bytes).scrTab x := by
        intro x hx h0
        refine twins_cell_putbytes htw ?_ bytes
        rw [first_byte_cell ha hc hx, first_byte_cell hb hc hx, if_neg (fun h => h0 h.2.1),
          if_neg (fun h => h0 h.2.1)]
      have hfirst := first_cell_iff htw hlast bytes
      rw [first_byte_cell ha hc (by decide), first_byte_cell hb hc (by decide)] at hfirst
      have hdisplay : SameDisplay (consolePutbytes a (c :: bytes)) (consolePutbytes b (c :: bytes)) ↔
          (consolePutbytes (consolePutchar a c) bytes).scrTab 0 =
            (consolePutbytes (consolePutchar b c) bytes).scrTab 0 := by
        constructor
        · intro h
          exact h.cells 0 (by decide)
        · intro h0
          refine ⟨BitVec.eq_of_toNat_eq (hend.left.line.trans hend.right.line.symm),
            BitVec.eq_of_toNat_eq (hend.left.col.trans hend.right.col.symm), ?_⟩
          intro x hx
          by_cases hx0 : x = 0
          · exact hx0 ▸ h0
          · exact hrest x hx hx0
      rw [hdisplay, hfirst, FirstByteHarmless, if_neg hc, ← cell_eq_blankCell]
      grind

/-- Exactly when a form feed after `p` is as good as a fresh start. -/
theorem formFeed_resets_iff (scrTab : ℕ → U16) (crtc : Crtc) (p s : List U8) :
    SameDisplay (consolePutbytes (initConsole (.boot scrTab crtc)) (p ++ formFeed :: s))
        (consolePutbytes (initConsole (.boot scrTab crtc)) s) ↔
      lineLeft p = 0 ∨ FirstByteHarmless s := by
  have ha := cleared_formFeed (consolePutbytes (initConsole (.boot scrTab crtc)) p)
  rw [lastLine_putbytes] at ha
  rw [consolePutbytes_append]
  exact sameDisplay_cleared ha (cleared_initConsole scrTab crtc) s

/-- A line feed, a form feed and `a`: the `a` is lost. -/
theorem formFeed_loses_byte :
    ¬∀ (scrTab : ℕ → U16) (crtc : Crtc) (p s : List U8),
      SameDisplay (consolePutbytes (initConsole (.boot scrTab crtc)) (p ++ formFeed :: s))
        (consolePutbytes (initConsole (.boot scrTab crtc)) s) := by
  intro h
  have hcell := (h (fun _ => 0#16) ⟨0#8, fun _ => 0#8⟩ [newline] [0x61#8]).cells 0 (by decide)
  have hfresh := cleared_initConsole (fun _ => 0#16) ⟨0#8, fun _ => 0#8⟩
  have hfed := cleared_formFeed
    (consolePutbytes (initConsole (.boot (fun _ => 0#16) ⟨0#8, fun _ => 0#8⟩)) [newline])
  rw [lastLine_putbytes, show lineLeft [newline] = 1 by decide] at hfed
  rw [consolePutbytes_append] at hcell
  have hlost := first_byte_cell hfed (c := 0x61#8) (x := 0) (by decide) (by decide)
  have hkept := first_byte_cell hfresh (c := 0x61#8) (x := 0) (by decide) (by decide)
  rw [if_neg (by decide)] at hlost
  rw [if_pos (by decide)] at hkept
  exact absurd (hlost.symm.trans (hcell.trans hkept)) (by decide)

end N7OS
