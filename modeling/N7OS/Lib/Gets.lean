import N7OS.Lib.Strings
import N7OS.Syscall.Read

/-! # `gets`

`lib/scanf.c` reads a line character by character, through system calls of two bytes.
The enter key ends such a call without being stored, so that `gets` sees a NUL for it,
and never one of the characters at which its loop can stop.
-/
namespace N7OS
open LineEditor

def strSize : ℕ := 255

inductive CharResult
  | blocked
  | fault
  | returned (c : U8) (console : Console) (rest : List U8)

/-- The array `buf` has not been set before the call. -/
def getchar (buf : List U8) (console : Console) (input : List U8) : CharResult :=
  match sysRead buf 2 console input with
  | .blocked _ => .blocked
  | .fault => .fault
  | .returned _ t rest =>
    match t.s with
    | c :: _ => .returned c t.console rest
    | [] => .fault

/-- The locals of `gets`. -/
structure Gets where
  str : List U8
  count : ℕ

inductive GetsResult
  | blocked
  | fault
  | returned (s : List U8) (console : Console) (rest : List U8)

/-- The body of the loop on the character read. -/
def getsBody (t : Gets) (c : U8) : Option Gets :=
  if c = backspace ∧ 0 < t.count then some { t with count := t.count - 1 }
  else (storeByte t.str t.count c).map (fun str => ⟨str, t.count + 1⟩)

/-- `str[count--] = '\0'; strcpy(s, str); return s`. -/
def finishGets (s : List U8) (t : Gets) (console : Console) (rest : List U8) : GetsResult :=
  match (storeByte t.str t.count 0#8).bind (strcpy s) with
  | some s => .returned s console rest
  | none => .fault

theorem sysReadLoop_two (b₀ b₁ : U8) (console : Console) (input : List U8) :
    sysReadLoop 2 ⟨[b₀, b₁], 0, console⟩ input =
      match input.dropWhile (· = backspace) with
      | [] => .blocked ⟨[b₀, b₁], 0, console⟩
      | c :: rest =>
        if c = carriageReturn ∨ c = newline then
          .returned 0 ⟨[0#8, b₁], 0, consolePutbytes console [newline]⟩ rest
        else .returned 1 ⟨[c, 0#8], 1, consolePutbytes console [c]⟩ rest := by
  have hempty : ((0 : ℕ) : ℤ) < 2 - 1 := by decide
  have hfull : ¬((1 : ℕ) : ℤ) < 2 - 1 := by decide
  induction input with
  | nil => rfl
  | cons c input ih =>
    by_cases henter : c = carriageReturn ∨ c = newline
    · have hplain : c ≠ backspace := by
        rintro rfl
        revert henter
        decide
      rw [List.dropWhile_cons_of_neg (by simpa using hplain)]
      simp only [if_pos henter]
      rw [sysReadLoop_break hempty (readBody_enter _ (by simpa [lineKeys] using henter))]
      rfl
    · by_cases hback : c = backspace
      · have hagain : readBody ⟨[b₀, b₁], 0, console⟩ c = some (⟨[b₀, b₁], 0, console⟩, false) := by
          rw [readBody, if_neg henter, if_pos hback, if_neg (lt_irrefl 0)]
        rw [List.dropWhile_cons_of_pos (by simpa using hback), sysReadLoop_again hempty hagain]
        exact ih
      · have hstore : readBody ⟨[b₀, b₁], 0, console⟩ c =
            some (⟨[c, b₁], 1, consolePutbytes console [c]⟩, false) := by
          simp [readBody, henter, hback, storeByte]
        rw [List.dropWhile_cons_of_neg (by simpa using hback), sysReadLoop_again hempty hstore,
          sysReadLoop_full hfull]
        simp only [if_neg henter]
        rfl

/-- Backspaces are swallowed, and the enter key comes back as a NUL. -/
theorem getchar_eq (b₀ b₁ : U8) (console : Console) (input : List U8) :
    getchar [b₀, b₁] console input =
      match input.dropWhile (· = backspace) with
      | [] => .blocked
      | c :: rest =>
        if c = carriageReturn ∨ c = newline then .returned 0#8 (consolePutbytes console [newline]) rest
        else .returned c (consolePutbytes console [c]) rest := by
  rw [getchar, sysRead, sysReadLoop_two]
  cases input.dropWhile (· = backspace) with
  | nil => rfl
  | cons c rest =>
    by_cases henter : c = carriageReturn ∨ c = newline
    · simp only [if_pos henter]
    · simp only [if_neg henter]

theorem getchar_consumes {console console' : Console} {input rest : List U8} {b₀ b₁ c : U8}
    (h : getchar [b₀, b₁] console input = .returned c console' rest) : rest.length < input.length := by
  have hsuffix := (List.dropWhile_suffix (fun c : U8 => decide (c = backspace)) (l := input)).length_le
  rw [getchar_eq] at h
  cases hdrop : input.dropWhile (fun c : U8 => decide (c = backspace)) with
  | nil => simp [hdrop] at h
  | cons d rest' =>
    have hrest : rest' = rest := by
      by_cases henter : d = carriageReturn ∨ d = newline
      · simp only [hdrop, if_pos henter, CharResult.returned.injEq] at h
        exact h.2.2
      · simp only [hdrop, if_neg henter, CharResult.returned.injEq] at h
        exact h.2.2
    rw [hdrop, hrest] at hsuffix
    exact hsuffix

/-- What the uninitialised array of `getchar` holds makes no difference, so it is given as zeros. -/
theorem getchar_buf (b₀ b₁ : U8) (console : Console) (input : List U8) :
    getchar [b₀, b₁] console input = getchar [0#8, 0#8] console input := by
  rw [getchar_eq, getchar_eq]

def getsLoop (s : List U8) (t : Gets) (console : Console) (input : List U8) : GetsResult :=
  match _h : getchar [0#8, 0#8] console input with
  | .blocked => .blocked
  | .fault => .fault
  | .returned c console rest =>
    match getsBody t c with
    | none => .fault
    | some t =>
      if t.count < 255 ∨ (c ≠ newline ∧ c ≠ carriageReturn) then getsLoop s t console rest
      else finishGets s t console rest
termination_by input.length
decreasing_by exact getchar_consumes ‹_›

def gets (s : List U8) (console : Console) (input : List U8) : GetsResult :=
  getsLoop s ⟨List.replicate strSize 0#8, 0⟩ console input

/-- The keys that come through to `gets`. -/
def reported (input : List U8) : List U8 := input.filter (fun c => decide (c ≠ backspace))

/-- Reading one line: the call returns once the enter key is consumed, with the edited line. -/
def ReadsOneLine (s : List U8) (console : Console) (keys : List U8) (enter : U8) (rest : List U8) : Prop :=
  ∃ s' console', gets s console (keys ++ enter :: rest) = .returned s' console' rest ∧
    Holds (typed lineKeys [] keys) s'

section
variable {s rest : List U8} {t : Gets} {console : Console} {c : U8}

theorem reported_dropWhile (input : List U8) :
    reported (input.dropWhile (fun c : U8 => decide (c = backspace))) = reported input := by
  induction input with
  | nil => rfl
  | cons c input ih =>
    by_cases hback : c = backspace
    · rw [List.dropWhile_cons_of_pos (by simpa using hback), ih]
      simp [reported, hback]
    · rw [List.dropWhile_cons_of_neg (by simpa using hback)]

theorem getsBody_eq (t : Gets) (hc : c ≠ backspace) :
    getsBody t c = (storeByte t.str t.count c).map (fun str => ⟨str, t.count + 1⟩) :=
  if_neg (fun h => hc h.1)

theorem getsLoop_blocked (s : List U8) (t : Gets) {input : List U8} (h : getchar [0#8, 0#8] console input = .blocked) :
    getsLoop s t console input = .blocked := by
  rw [getsLoop]
  split
  · rfl
  · next hfault => cases h.symm.trans hfault
  · next hret => cases h.symm.trans hret

theorem getsLoop_next (s : List U8) {t t' : Gets} {input : List U8} {console' : Console}
    (h : getchar [0#8, 0#8] console input = .returned c console' rest) (hbody : getsBody t c = some t')
    (hc : c ≠ newline ∧ c ≠ carriageReturn) : getsLoop s t console input = getsLoop s t' console' rest := by
  rw [getsLoop]
  split
  · next hblocked => cases h.symm.trans hblocked
  · next hfault => cases h.symm.trans hfault
  · next hret =>
    cases h.symm.trans hret
    rw [hbody]
    exact if_pos (.inr hc)

theorem getsLoop_overrun (s : List U8) {t : Gets} {input : List U8} {console' : Console}
    (h : getchar [0#8, 0#8] console input = .returned c console' rest) (hbody : getsBody t c = none) :
    getsLoop s t console input = .fault := by
  rw [getsLoop]
  split
  · next hblocked => cases h.symm.trans hblocked
  · rfl
  · next hret =>
    cases h.symm.trans hret
    rw [hbody]

theorem ne_backspace_of_dropWhile {input rest : List U8} {d : U8}
    (h : input.dropWhile (fun c : U8 => decide (c = backspace)) = d :: rest) : d ≠ backspace := by
  have hhead := List.head?_dropWhile_not (fun c : U8 => decide (c = backspace)) input
  rw [h] at hhead
  simpa using hhead

/-- The character that `getchar` returns for a key that comes through: no backspace, and nothing at
which the loop could stop. -/
theorem getchar_reported (console : Console) {input rest : List U8} {d : U8}
    (h : input.dropWhile (fun c : U8 => decide (c = backspace)) = d :: rest) :
    ∃ c console', getchar [0#8, 0#8] console input = .returned c console' rest ∧ c ≠ backspace ∧ c ≠ newline ∧
      c ≠ carriageReturn := by
  rw [getchar_eq, h]
  by_cases henter : d = carriageReturn ∨ d = newline
  · exact ⟨0#8, _, if_pos henter, by decide, by decide, by decide⟩
  · obtain ⟨hreturn, hnewline⟩ := not_or.mp henter
    exact ⟨d, _, if_neg henter, ne_backspace_of_dropWhile h, hnewline, hreturn⟩

/-- The loop stores one byte for each key that comes through, until it runs past the array. -/
theorem getsLoop_eq (s : List U8) (input : List U8) (hsize : t.str.length = strSize) (hcount : t.count ≤ strSize)
    (console : Console) :
    getsLoop s t console input = if t.count + (reported input).length ≤ strSize then .blocked else .fault := by
  induction hn : input.length using Nat.strong_induction_on generalizing input t console with
  | _ n ih =>
    rw [← reported_dropWhile]
    cases hdrop : input.dropWhile (fun c : U8 => decide (c = backspace)) with
    | nil =>
      have hblocked : getchar [0#8, 0#8] console input = .blocked := by
        rw [getchar_eq, hdrop]
      rw [getsLoop_blocked s t hblocked]
      exact (if_pos hcount).symm
    | cons d rest =>
      obtain ⟨c, console', hchar, hback, hstop⟩ := getchar_reported console hdrop
      have hshorter := getchar_consumes hchar
      have hlength : (reported (d :: rest)).length = (reported rest).length + 1 := by
        simp [reported, ne_backspace_of_dropWhile hdrop]
      rw [hlength]
      by_cases hroom : t.count < strSize
      · have hbody : getsBody t c = some ⟨t.str.set t.count c, t.count + 1⟩ := by
          rw [getsBody_eq t hback, storeByte_eq c (hsize ▸ hroom)]
          rfl
        have hrest := ih _ (hn ▸ hshorter) (t := ⟨t.str.set t.count c, t.count + 1⟩) rest (by simpa using hsize) hroom
          console' rfl
        rw [getsLoop_next s hchar hbody hstop, hrest]
        exact if_congr (by rw [Nat.add_right_comm, Nat.add_assoc]) rfl rfl
      · have hbody : getsBody t c = none := by
          rw [getsBody_eq t hback, storeByte, if_neg (hsize ▸ hroom)]
          rfl
        rw [getsLoop_overrun s hchar hbody, if_neg (by omega)]

theorem gets_eq (s : List U8) (console : Console) (input : List U8) :
    gets s console input = if (reported input).length ≤ strSize then .blocked else .fault := by
  have h := getsLoop_eq (t := ⟨List.replicate strSize 0#8, 0⟩) s input List.length_replicate (Nat.zero_le _) console
  simpa [gets] using h

end

/-- No line is ever read: `gets` waits for more keys after the enter, and with the 256th key that is not
a backspace it writes past its array. -/
theorem gets_never (s : List U8) (console : Console) (keys : List U8) (enter : U8) (rest : List U8) :
    ¬ReadsOneLine s console keys enter rest ∧
      (gets s console (keys ++ enter :: rest) = .fault ↔ 256 ≤ (reported (keys ++ enter :: rest)).length) := by
  rw [ReadsOneLine, gets_eq]
  by_cases hfits : (reported (keys ++ enter :: rest)).length ≤ strSize
  · have hsize : strSize = 255 := rfl
    rw [if_pos hfits]
    exact ⟨by simp, by simp; omega⟩
  · have hsize : strSize = 255 := rfl
    rw [if_neg hfits]
    exact ⟨by simp, by simp; omega⟩

/-- `a` and the enter key, into an array of 255 bytes. -/
theorem gets_waits_after_enter :
    ¬∀ s console keys enter rest, (∀ c ∈ keys, Printable c ∨ c = backspace) → lineKeys.isEnter enter = true →
      (typed lineKeys [] keys).length < 254 → s.length = strSize → ReadsOneLine s console keys enter rest := by
  intro h
  obtain ⟨s', console', hreturned, -⟩ := h (List.replicate strSize 0#8) (.boot (fun _ => 0) ⟨0, fun _ => 0⟩) [0x61#8]
    carriageReturn [] (by decide) (by decide) (by decide) List.length_replicate
  rw [gets_eq, if_pos (by decide)] at hreturned
  cases hreturned

end N7OS
