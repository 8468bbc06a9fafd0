import N7OS.Lib.DoprntMeaning
import N7OS.Syscall.Read

/-! # `sprintf`

`lib/sprintf.c` lets `_doprnt` write into an array. The terminator is always stored, also
after the `size` characters that `snprintf` allows.
-/
namespace N7OS.Doprnt

/-- `SPRINTF_UNLIMITED`. -/
def sprintfUnlimited : U32 := 0xFFFFFFFF#32

/-- `struct sprintf_state`, with the bytes of the array; `buf` is an index of it. -/
structure SprintfState where
  s : List U8
  buf : ℕ
  len : U32
  max : U32

def savechar (state : SprintfState) (c : U8) : Option SprintfState :=
  if state.max ≠ sprintfUnlimited ∧ state.len = state.max then some state
  else
    (storeByte state.s state.buf c).map fun s => { state with s := s, len := state.len + 1#32, buf := state.buf + 1 }

/-- The array after the call, and the value returned. -/
def vsnprintf (s : List U8) (size : U32) (args : List VaArg) (fmt : List U8) : Option (List U8 × U32) :=
  (doprnt 0#32 args fmt).bind fun out =>
    (out.foldlM savechar ⟨s, 0, 0#32, size⟩).bind fun state =>
      (storeByte state.s state.buf 0#8).map fun s => (s, state.len)

def vsprintf (s : List U8) (args : List VaArg) (fmt : List U8) : Option (List U8 × U32) :=
  vsnprintf s sprintfUnlimited args fmt

/-- How much of a text is stored. -/
def stored (size : U32) (n : ℕ) : ℕ := if size = sprintfUnlimited then n else min n size.toNat

section
variable {size : U32} {k : ℕ}

theorem storeByte_next {t : List U8} (h : k = t.length) (rest : List U8) (c : U8) :
    storeByte (t ++ rest) k c = if rest = [] then none else some (t ++ c :: rest.tail) := by
  rw [storeByte, h]
  cases rest with
  | nil => simp
  | cons d rest => simp

theorem stored_full {t : List U8} (hlimited : size ≠ sprintfUnlimited) (hlength : t.length = size.toNat) (l : List U8) :
    stored size (t ++ l).length - t.length = 0 := by
  rw [stored, if_neg hlimited]
  omega

theorem stored_cons {t : List U8} (hroom : size ≠ sprintfUnlimited → t.length < size.toNat) (c : U8) (l : List U8) :
    stored size (t ++ c :: l).length - t.length = stored size (t ++ [c] ++ l).length - (t ++ [c]).length + 1 := by
  unfold stored
  simp only [List.length_append, List.length_cons, List.length_nil]
  split_ifs with hunlimited
  · omega
  · have hlt := hroom hunlimited
    omega

/-- The characters behind those stored, from any state that the loop can be in. -/
theorem foldlM_savechar (out t rest : List U8) (hfit : size ≠ sprintfUnlimited → t.length ≤ size.toNat) :
    out.foldlM savechar ⟨t ++ rest, t.length, BitVec.ofNat 32 t.length, size⟩ =
      let k := stored size (t ++ out).length - t.length
      if k ≤ rest.length then
        some ⟨t ++ out.take k ++ rest.drop k, t.length + k, BitVec.ofNat 32 (t.length + k), size⟩
      else none := by
  induction out generalizing t rest with
  | nil =>
    have hnone : stored size t.length - t.length = 0 := by
      unfold stored
      split_ifs <;> omega
    simp [hnone]
  | cons c out ih =>
    have hsize := size.isLt
    by_cases hfull : size ≠ sprintfUnlimited ∧ BitVec.ofNat 32 t.length = size
    · have hlength : t.length = size.toNat := by
        have hsmall := hfit hfull.1
        rw [← hfull.2, BitVec.toNat_ofNat, Nat.mod_eq_of_lt (by omega)]
      have hsame := ih t rest hfit
      rw [stored_full hfull.1 hlength] at hsame ⊢
      rw [List.foldlM_cons, savechar, if_pos hfull, Option.bind_eq_bind, Option.bind_some, hsame]
      simp
    · have hroom : size ≠ sprintfUnlimited → t.length < size.toNat := by
        intro hlimited
        refine lt_of_le_of_ne (hfit hlimited) fun hlength => hfull ⟨hlimited, ?_⟩
        rw [hlength, BitVec.ofNat_toNat, BitVec.setWidth_eq]
      rw [List.foldlM_cons, savechar, if_neg hfull, stored_cons hroom, storeByte_next rfl]
      cases rest with
      | nil => simp
      | cons d rest =>
        have hnext := ih (t ++ [c]) rest fun hlimited => by
          rw [List.length_append, List.length_singleton]
          exact hroom hlimited
        generalize stored size (t ++ [c] ++ out).length - (t ++ [c]).length = k at hnext ⊢
        have hlen : BitVec.ofNat 32 t.length + 1#32 = BitVec.ofNat 32 (t ++ [c]).length := by
          rw [List.length_append, List.length_singleton, BitVec.ofNat_add]
        have hindex : t.length + 1 = (t ++ [c]).length := by simp
        rw [if_neg (List.cons_ne_nil d rest)]
        simp only [Option.map_some, Option.bind_eq_bind, Option.bind_some, List.tail_cons]
        rw [hlen, hindex, show t ++ c :: rest = t ++ [c] ++ rest by simp, hnext]
        simp only [List.length_append, List.length_cons, List.length_nil, List.take_succ_cons, List.drop_succ_cons,
          Nat.add_le_add_iff_right]
        simp [Nat.add_assoc, Nat.add_comm 1]

end

theorem vsnprintf_stored {args : List VaArg} {fmt out : List U8} (h : doprnt 0#32 args fmt = some out) (s : List U8)
    (size : U32) :
    vsnprintf s size args fmt =
      let k := stored size out.length
      if k < s.length then some (out.take k ++ 0#8 :: s.drop (k + 1), BitVec.ofNat 32 k) else none := by
  have hrun := foldlM_savechar out [] s fun _ : size ≠ sprintfUnlimited => Nat.zero_le size.toNat
  simp only [List.nil_append, List.length_nil, Nat.sub_zero, Nat.zero_add] at hrun
  have hle : stored size out.length ≤ out.length := by
    unfold stored
    split_ifs
    · exact le_rfl
    · exact min_le_left _ _
  generalize hk : stored size out.length = k at hrun hle ⊢
  have hlength : k = (out.take k).length := (List.length_take_of_le hle).symm
  rw [vsnprintf, h, Option.bind_some, hrun]
  by_cases hroom : k ≤ s.length
  · rw [if_pos hroom, Option.bind_some, storeByte_next hlength]
    by_cases hlast : k < s.length
    · rw [if_neg (by simpa using hlast), if_pos hlast, List.tail_drop]
      rfl
    · rw [if_pos (by simpa using Nat.le_of_not_lt hlast), if_neg hlast]
      rfl
  · rw [if_neg hroom, if_neg (by omega)]
    rfl

/-- The text is cut to `size` characters, and one more byte is needed for the terminator. -/
theorem vsnprintf_meaning {args : List VaArg} {fmt : List Directive} {out : List U8} (h : meaning 0#32 args fmt = some out)
    (rest s : List U8) (size : U32) :
    vsnprintf s size args (render fmt ++ 0#8 :: rest) =
      let k := stored size out.length
      if k < s.length then some (out.take k ++ 0#8 :: s.drop (k + 1), BitVec.ofNat 32 k) else none :=
  vsnprintf_stored (doprnt_render h rest) s size

/-- `"%d"`. -/
def decimal : List Directive :=
  [.conversion {
      flags := [], zero := false, width := none, prec := none, long := false, letter := 0x64#8
      hwidth := (fun _ _ h => by cases h), hletter := letter_d }]

/-- `snprintf(s, 3, "%d", 1234)` fits into four bytes and not into three. -/
theorem vsnprintf_meaning_three :
    vsnprintf (List.replicate 4 0xFF#8) 3#32 [.word 1234#32] (render decimal ++ [0#8]) =
        some ([0x31#8, 0x32#8, 0x33#8, 0#8], 3#32) ∧
      vsnprintf (List.replicate 3 0xFF#8) 3#32 [.word 1234#32] (render decimal ++ [0#8]) = none := by
  have htext : meaning 0#32 [.word 1234#32] decimal = some [0x31#8, 0x32#8, 0x33#8, 0x34#8] := by decide
  exact ⟨(vsnprintf_meaning htext [] _ _).trans (by decide), (vsnprintf_meaning htext [] _ _).trans (by decide)⟩

end N7OS.Doprnt
