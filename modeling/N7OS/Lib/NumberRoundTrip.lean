import N7OS.Lib.Sprintf
import N7OS.Lib.Strtol

/-! # Numbers printed and read back

What `sprintf` writes for a number is what `strtol` and `strtoul` read: the blanks in front
are skipped, the zeros add nothing, and a prefix is that of the base. The exception is
the plus sign.
-/
namespace N7OS.Doprnt
open Strtol Positional

variable {b n z : ℕ} {arg : ℤ} {t : Conv} {c : U8} {rest : List U8}

/-! ## Digits -/

theorem digitIn_digitChar {d : ℕ} (hd : d < b) (hb : b ≤ 16) : digitIn b (digitChar d) = some (d : ℤ) := by
  have hvalue (x : ℤ) (h : x = d) : x < b := by omega
  have h16 : d < 16 := hd.trans_le hb
  unfold digitIn
  interval_cases d
  all_goals simp [digitChar, digs, hvalue]
  exact hd.ne'

theorem digitsLoop_digits (hb : b ≤ 16) {ds : List ℕ} (hds : ∀ d ∈ ds, d < b) (hc : digitIn b c = none) (n : ℕ)
    (rest : List U8) :
    digitsLoop b (BitVec.ofNat 32 n) (ds.map digitChar ++ c :: rest) =
      some (BitVec.ofNat 32 (n * b ^ ds.length + value b ds), c :: rest) := by
  induction ds generalizing n with
  | nil => simp [digitsLoop, hc]
  | cons d ds ih =>
    obtain ⟨hd, hrest⟩ := List.forall_mem_cons.mp hds
    have hstep : BitVec.ofNat 32 n * BitVec.ofInt 32 b + BitVec.ofInt 32 d = BitVec.ofNat 32 (n * b + d) := by
      rw [BitVec.ofInt_natCast, BitVec.ofInt_natCast, BitVec.ofNat_add, BitVec.ofNat_mul]
    have hvalue : value b (d :: ds) = d * b ^ ds.length + value b ds := by
      have happend := value_append (b := b) [d] ds
      simpa [value] using happend
    rw [List.map_cons, List.cons_append, digitsLoop, digitIn_digitChar hd hb]
    dsimp only
    rw [hstep, ih hrest, hvalue, List.length_cons, pow_succ]
    refine congrArg some (congrArg (·, c :: rest) (congrArg (BitVec.ofNat 32) ?_))
    ring

theorem digitIn_stop (hc : isalnum c = false) (base : ℤ) : digitIn base c = none := by
  simp only [isalnum, isdigit, isalpha, Bool.or_eq_false_iff, decide_eq_false_iff_not] at hc
  obtain ⟨hdigit, hlower, hupper⟩ := hc
  rw [digitIn, if_neg (fun h => hdigit ⟨h.1, h.2.1⟩), if_neg (fun h => hlower ⟨h.1, h.2.1⟩),
    if_neg (fun h => hupper ⟨h.1, h.2.1⟩)]

theorem digitChar_plain : ∀ d < 16, isspace (digitChar d) = false ∧ digitChar d ≠ 0x2D#8 ∧ digitChar d ≠ 0x2B#8 ∧
    ¬(digitChar d = 0x78#8 ∨ digitChar d = 0x58#8) ∧ (digitChar d = 0x30#8 → d = 0) := by decide

theorem stop_not_x (hc : isalnum c = false) : ¬(c = 0x78#8 ∨ c = 0x58#8) := by
  rintro (rfl | rfl) <;> revert hc <;> decide

/-- Zeros, the digits of a number, and what follows. -/
def zeroPadded (b z n : ℕ) (rest : List U8) : List U8 := List.replicate z 0x30#8 ++ (numeralText b n ++ rest)

def paddedDigits (b z n : ℕ) : List ℕ := List.replicate z 0 ++ expansion b n

theorem zeroPadded_eq (b z n : ℕ) (rest : List U8) : zeroPadded b z n rest = (paddedDigits b z n).map digitChar ++ rest := by
  simp [zeroPadded, paddedDigits, numeralText, show digitChar 0 = 0x30#8 from rfl]

theorem paddedDigits_lt (hb : 2 ≤ b) : ∀ d ∈ paddedDigits b z n, d < b := by
  intro d hd
  rcases List.mem_append.mp hd with hzero | hdigit
  · rw [List.eq_of_mem_replicate hzero]
    omega
  · exact expansion_lt hb hdigit

theorem value_paddedDigits (b z n : ℕ) : value b (paddedDigits b z n) = n := by
  have hzeros : value b (List.replicate z 0) = 0 := by
    induction z with
    | zero => rfl
    | succ z ih => rw [List.replicate_succ', value_concat, ih, Nat.zero_mul]
  rw [paddedDigits, value_append, hzeros, value_expansion, Nat.zero_mul, Nat.zero_add]

theorem paddedDigits_cons (b z n : ℕ) : ∃ d ds, paddedDigits b z n = d :: ds :=
  List.exists_cons_of_ne_nil (List.append_ne_nil_of_right_ne_nil _ (expansion_ne_nil b n))

theorem digitsLoop_zeroPadded (hb : 2 ≤ b) (hb' : b ≤ 16) (hc : isalnum c = false) (z n : ℕ) (rest : List U8) :
    digitsLoop b 0#32 (zeroPadded b z n (c :: rest)) = some (BitVec.ofNat 32 n, c :: rest) := by
  have hread := digitsLoop_digits hb' (paddedDigits_lt (z := z) (n := n) hb) (digitIn_stop hc b) 0 rest
  rwa [Nat.zero_mul, Nat.zero_add, value_paddedDigits, ← zeroPadded_eq] at hread

/-! ## The base -/

/-- No digit is followed by an `x`. -/
theorem skipHex_zeroPadded (hb : 2 ≤ b) (hb' : b ≤ 16) (hc : isalnum c = false) (arg : ℤ) (z n : ℕ) (rest : List U8) :
    skipHex arg (zeroPadded b z n (c :: rest)) = some (arg, zeroPadded b z n (c :: rest)) := by
  have hlt := paddedDigits_lt (z := z) (n := n) hb
  obtain ⟨d, ds, hds⟩ := paddedDigits_cons b z n
  rw [zeroPadded_eq, hds, List.map_cons, List.cons_append]
  by_cases hallowed : (arg = 16 ∨ arg = 0) ∧ digitChar d = 0x30#8
  · cases ds with
    | nil => exact (if_pos hallowed).trans (if_neg (stop_not_x hc))
    | cons e ds =>
      have he : e < 16 := (hlt e (by simp [hds])).trans_le hb'
      exact (if_pos hallowed).trans (if_neg (digitChar_plain e he).2.2.2.1)
  · exact if_neg hallowed

theorem readNumber_explicit (hb : 2 ≤ b) (hb' : b ≤ 16) (hc : isalnum c = false) (z n : ℕ) (rest : List U8) :
    readNumber b (zeroPadded b z n (c :: rest)) = some (BitVec.ofNat 32 n, c :: rest) := by
  have hnonzero : ¬(b : ℤ) = 0 := by omega
  rw [readNumber, skipHex_zeroPadded hb hb' hc, Option.bind_some]
  dsimp only
  rw [chooseBase, if_neg hnonzero, Option.bind_some, digitsLoop_zeroPadded hb hb' hc]

theorem readNumber_hex (harg : arg = 16 ∨ arg = 0) (hc : isalnum c = false) (z n : ℕ) (rest : List U8) :
    readNumber arg (0x30#8 :: 0x78#8 :: zeroPadded 16 z n (c :: rest)) = some (BitVec.ofNat 32 n, c :: rest) := by
  have hskip : skipHex arg (0x30#8 :: 0x78#8 :: zeroPadded 16 z n (c :: rest)) =
      some (16, zeroPadded 16 z n (c :: rest)) := (if_pos ⟨harg, rfl⟩).trans (if_pos (.inl rfl))
  rw [readNumber, hskip, Option.bind_some]
  dsimp only
  rw [chooseBase, if_neg (by decide), Option.bind_some]
  exact digitsLoop_zeroPadded (b := 16) (by decide) (by decide) hc z n rest

theorem chooseBase_zeroPadded (hb : 2 ≤ b) (hb' : b ≤ 16) (z n : ℕ) (rest : List U8) :
    chooseBase 0 (zeroPadded b z n rest) = some (if 0 < z ∨ n = 0 then 8 else 10) := by
  have hhead : (zeroPadded b z n rest).head? = ((paddedDigits b z n).map digitChar).head? := by
    obtain ⟨d, ds, hds⟩ := paddedDigits_cons b z n
    rw [zeroPadded_eq, hds]
    rfl
  have hzero : ((paddedDigits b z n).head? = some 0) ↔ 0 < z ∨ n = 0 := by
    cases z with
    | succ z => simp [paddedDigits, List.replicate_succ]
    | zero =>
      rw [paddedDigits, List.replicate_zero, List.nil_append]
      by_cases hn : n = 0
      · simp [hn, expansion]
      · simp [hn, head_expansion b hn]
  obtain ⟨d, ds, hds⟩ := paddedDigits_cons b z n
  have hd : d < 16 := (paddedDigits_lt (z := z) (n := n) hb d (by simp [hds])).trans_le hb'
  have hchar : digitChar d = 0x30#8 ↔ d = 0 := ⟨(digitChar_plain d hd).2.2.2.2, fun h => by rw [h]; rfl⟩
  rw [hds, List.head?_cons, Option.some_inj] at hzero
  rw [chooseBase, if_pos rfl, hhead, hds, List.map_cons, List.head?_cons, Option.map_some]
  simp only [hchar, hzero]

/-- Without a base, a zero in front means octal. -/
theorem readNumber_auto (hb : 2 ≤ b) (hb' : b ≤ 16) (hc : isalnum c = false)
    (hbase : (if 0 < z ∨ n = 0 then 8 else 10) = b ∨ n = 0) (rest : List U8) :
    readNumber 0 (zeroPadded b z n (c :: rest)) = some (BitVec.ofNat 32 n, c :: rest) := by
  rw [readNumber, skipHex_zeroPadded hb hb' hc, Option.bind_some]
  dsimp only
  rw [chooseBase_zeroPadded hb hb', Option.bind_some]
  rcases hbase with hbase | hzero
  · have hcast : (if 0 < z ∨ n = 0 then 8 else 10 : ℤ) = b := by rw [← hbase]; split_ifs <;> rfl
    rw [hcast, digitsLoop_zeroPadded hb hb' hc]
  · have hsame : zeroPadded b z 0 (c :: rest) = zeroPadded 8 z 0 (c :: rest) := rfl
    rw [hzero, if_pos (.inr rfl), hsame]
    exact digitsLoop_zeroPadded (b := 8) (by decide) (by decide) hc z 0 rest

/-- The base asked for is that of the text, or the text shows its base. -/
def Agrees (t : Conv) (b : ℕ) (arg : ℤ) : Prop :=
  arg = b ∨ arg = 0 ∧ (t.altfmt = true ∧ (b = 8 ∨ b = 16) ∨ b = 10 ∧ t.padc = blank ∧ t.prec ≤ 1)

theorem readNumber_number (hb : 2 ≤ b) (hb' : b ≤ 16) (hc : isalnum c = false) (hagrees : Agrees t b arg)
    (hz : t.padc = blank → t.prec ≤ 1 → z = 0) {u : U32} (hn : n = 0 ↔ u = 0#32) (rest : List U8) :
    readNumber arg (prefixText t b u ++ zeroPadded b z n (c :: rest)) = some (BitVec.ofNat 32 n, c :: rest) := by
  unfold prefixText
  by_cases hshows : u ≠ 0#32 ∧ t.altfmt = true
  · rw [if_pos hshows]
    by_cases h8 : b = 8
    · subst h8
      have hzeros : [0x30#8] ++ zeroPadded 8 z n (c :: rest) = zeroPadded 8 (z + 1) n (c :: rest) := rfl
      rw [if_pos rfl, hzeros]
      rcases hagrees with rfl | ⟨rfl, -⟩
      · exact readNumber_explicit (by decide) (by decide) hc (z + 1) n rest
      · exact readNumber_auto (by decide) (by decide) hc (.inl (if_pos (.inl (Nat.succ_pos z)))) rest
    · by_cases h16 : b = 16
      · subst h16
        rw [if_neg h8, if_pos rfl]
        exact readNumber_hex (hagrees.imp id And.left) hc z n rest
      · rw [if_neg h8, if_neg h16, List.nil_append]
        rcases hagrees with rfl | ⟨rfl, ⟨-, hbase⟩ | ⟨rfl, hpad, hprec⟩⟩
        · exact readNumber_explicit hb hb' hc z n rest
        · omega
        · refine readNumber_auto hb hb' hc (.inl (if_neg ?_)) rest
          rw [hz hpad hprec, hn]
          simp [hshows.1]
  · rw [if_neg hshows, List.nil_append]
    rcases hagrees with rfl | ⟨rfl, ⟨hshown, -⟩ | ⟨rfl, hpad, hprec⟩⟩
    · exact readNumber_explicit hb hb' hc z n rest
    · have hzero : u = 0#32 := by
        by_contra hne
        exact hshows ⟨hne, hshown⟩
      exact readNumber_auto hb hb' hc (.inr (hn.mpr hzero)) rest
    · by_cases hzero : n = 0
      · exact readNumber_auto hb hb' hc (.inr hzero) rest
      · refine readNumber_auto hb hb' hc (.inl (if_neg ?_)) rest
        rw [hz hpad hprec]
        omega

/-! ## The whole text -/

theorem skipSpace_blanks {bs : List U8} (hbs : ∀ b ∈ bs, isspace b = true) (hc : isspace c = false) (rest : List U8) :
    skipSpace (bs ++ c :: rest) = some (c :: rest) := by
  induction bs with
  | nil => exact if_neg (by simp [hc])
  | cons b bs ih =>
    obtain ⟨hb, hrest⟩ := List.forall_mem_cons.mp hbs
    rw [List.cons_append, skipSpace, if_pos hb, ih hrest]

theorem isspace_replicate (k : ℕ) : ∀ b ∈ List.replicate k blank, isspace b = true := by
  intro b hb
  rw [List.eq_of_mem_replicate hb]
  rfl

theorem numberText_shape (t : Conv) (sign pre : List U8) (b n : ℕ) (rest : List U8) :
    ∃ k z m, numberText t sign pre (numeralText b n) ++ rest =
        List.replicate k blank ++ (sign ++ (pre ++ zeroPadded b z n (List.replicate m blank ++ rest))) ∧
      (t.padc = blank → t.prec ≤ 1 → z = 0) := by
  have hlength : 0 < (numeralText b n).length := by
    rw [numeralText, List.length_map]
    exact List.length_pos_iff.mpr (expansion_ne_nil b n)
  unfold numberText
  dsimp only
  generalize hz : t.prec.toNat - (numeralText b n).length = z
  generalize t.length.toNat - (sign.length + pre.length + (List.replicate z 0x30#8).length + (numeralText b n).length) = k
  by_cases hpad : t.padc = 0x30#8
  · refine ⟨0, z + k, 0, ?_, fun hblank => absurd (hblank.symm.trans hpad) (by decide)⟩
    rw [if_pos hpad]
    rw [zeroPadded, ← List.replicate_append_replicate]
    simp
  · rw [if_neg hpad]
    by_cases hadj : t.ladjust = true
    · refine ⟨0, z, k, ?_, fun _ hprec => by omega⟩
      rw [if_pos hadj]
      simp [zeroPadded]
    · refine ⟨k, z, 0, ?_, fun _ hprec => by omega⟩
      rw [if_neg hadj]
      simp [zeroPadded]

/-- What stands behind the digits. -/
theorem blanks_stop (hc : isalnum c = false) (m : ℕ) (rest : List U8) :
    ∃ d r, List.replicate m blank ++ c :: rest = d :: r ∧ isalnum d = false := by
  cases m with
  | zero => exact ⟨c, rest, rfl, hc⟩
  | succ m => exact ⟨blank, List.replicate m blank ++ c :: rest, rfl, by decide⟩

theorem number_head (t : Conv) (u : U32) (hb : 2 ≤ b) (hb' : b ≤ 16) (z n : ℕ) (rest : List U8) :
    ∃ d r, prefixText t b u ++ zeroPadded b z n rest = d :: r ∧ isspace d = false ∧ d ≠ 0x2D#8 ∧ d ≠ 0x2B#8 := by
  obtain ⟨d, ds, hds⟩ := paddedDigits_cons b z n
  have hd : d < 16 := (paddedDigits_lt (z := z) (n := n) hb d (by simp [hds])).trans_le hb'
  obtain ⟨hspace, hminus, hplus, -⟩ := digitChar_plain d hd
  have hbare : ∃ d r, zeroPadded b z n rest = d :: r ∧ isspace d = false ∧ d ≠ 0x2D#8 ∧ d ≠ 0x2B#8 :=
    ⟨digitChar d, ds.map digitChar ++ rest, by rw [zeroPadded_eq, hds]; rfl, hspace, hminus, hplus⟩
  unfold prefixText
  split_ifs
  · exact ⟨0x30#8, _, rfl, by decide⟩
  · exact ⟨0x30#8, _, rfl, by decide⟩
  · exact hbare
  · exact hbare

theorem ofNat_toNat (u : U32) : BitVec.ofNat 32 u.toNat = u := by
  rw [BitVec.ofNat_toNat, BitVec.setWidth_eq]

/-- `strtoul` gives back the number printed, and only blanks are left of the text. -/
theorem strtoul_unsignedText (hb : 2 ≤ b) (hb' : b ≤ 16) (hc : isalnum c = false) (hagrees : Agrees t b arg) (u : U32)
    (rest : List U8) :
    ∃ m, strtoul (unsignedText t b u ++ c :: rest) arg = some (u, List.replicate m blank ++ c :: rest) := by
  obtain ⟨k, z, m, hshape, hz⟩ := numberText_shape t [] (prefixText t b u) b u.toNat (c :: rest)
  obtain ⟨d, r, hstop, hd⟩ := blanks_stop hc m rest
  obtain ⟨e, p, hhead, hspace, -⟩ := number_head t u hb hb' z u.toNat (d :: r)
  have hzero : u.toNat = 0 ↔ u = 0#32 := by
    rw [← BitVec.toNat_inj]
    rfl
  refine ⟨m, ?_⟩
  rw [unsignedText, hshape, List.nil_append, hstop, strtoul, hhead, skipSpace_blanks (isspace_replicate k) hspace,
    Option.bind_some, ← hhead, readNumber_number hb hb' hd hagrees hz hzero, ofNat_toNat]

theorem neg_natAbs {v : U32} (hv : v.toInt < 0) : -BitVec.ofNat 32 v.toInt.natAbs = v := by
  have hcast : ((v.toInt.natAbs : ℕ) : ℤ) = -v.toInt := by omega
  rw [← BitVec.ofInt_natCast, hcast, BitVec.ofInt_neg, neg_neg, BitVec.ofInt_toInt]

theorem ofNat_natAbs {v : U32} (hv : 0 ≤ v.toInt) : BitVec.ofNat 32 v.toInt.natAbs = v := by
  have hcast : ((v.toInt.natAbs : ℕ) : ℤ) = v.toInt := by omega
  rw [← BitVec.ofInt_natCast, hcast, BitVec.ofInt_toInt]

theorem natAbs_eq_zero_iff (v : U32) : v.toInt.natAbs = 0 ↔ v = 0#32 := by
  rw [Int.natAbs_eq_zero, ← BitVec.toInt_inj]
  rfl

/-- `strtol` gives back the number printed if there is no plus sign. -/
theorem strtol_signedText (hb : 2 ≤ b) (hb' : b ≤ 16) (hc : isalnum c = false) (hagrees : Agrees t b arg) {v : U32}
    (hsign : 0 ≤ v.toInt → t.plusSign = 0#8 ∨ t.plusSign = blank) (rest : List U8) :
    ∃ m, strtol (signedText t b v ++ c :: rest) arg = some (v, List.replicate m blank ++ c :: rest) := by
  generalize hsignText : signText (if 0 ≤ v.toInt then t.plusSign else 0x2D#8) = sign
  obtain ⟨k, z, m, hshape, hz⟩ := numberText_shape t sign (prefixText t b v) b v.toInt.natAbs (c :: rest)
  obtain ⟨d, r, hstop, hd⟩ := blanks_stop hc m rest
  obtain ⟨e, p, hhead, hspace, hminus, hplus⟩ := number_head t v hb hb' z v.toInt.natAbs (d :: r)
  have hread := readNumber_number hb hb' hd hagrees hz (natAbs_eq_zero_iff v) r
  refine ⟨m, ?_⟩
  rw [signedText, hsignText, hshape, hstop, strtol]
  rw [hhead] at hread ⊢
  by_cases hneg : v.toInt < 0
  · rw [if_neg (not_le.mpr hneg)] at hsignText
    have htext : sign ++ e :: p = 0x2D#8 :: e :: p := by rw [← hsignText]; rfl
    have hsigned : readSign (0x2D#8 :: e :: p) = some (true, e :: p) := rfl
    rw [htext, skipSpace_blanks (isspace_replicate k) (by decide), Option.bind_some, hsigned, Option.bind_some]
    dsimp only
    rw [hread, Option.map_some, if_pos rfl, neg_natAbs hneg]
  · have hpos : 0 ≤ v.toInt := not_lt.mp hneg
    rw [if_pos hpos] at hsignText
    have hblanks : ∀ x ∈ List.replicate k blank ++ sign, isspace x = true := by
      intro x hx
      rcases List.mem_append.mp hx with hx | hx
      · exact isspace_replicate k x hx
      · rw [← hsignText] at hx
        rcases hsign hpos with hnone | hblank
        · simp [signText, hnone] at hx
        · rw [hblank] at hx
          rw [List.mem_singleton.mp hx]
          rfl
    have hsigned : readSign (e :: p) = some (false, e :: p) := (if_neg hminus).trans (if_neg hplus)
    rw [← List.append_assoc, skipSpace_blanks hblanks hspace, Option.bind_some, hsigned, Option.bind_some]
    dsimp only
    rw [hread, Option.map_some, ofNat_natAbs hpos]
    rfl

/-- A plus sign stops the reader. -/
theorem strtol_plus (hplus : t.plusSign = 0x2B#8) {v : U32} (hv : 0 ≤ v.toInt) (arg : ℤ)
    (rest : List U8) : ∃ p, strtol (signedText t b v ++ c :: rest) arg = some (0#32, 0x2B#8 :: p) := by
  obtain ⟨k, z, m, hshape, -⟩ := numberText_shape t [0x2B#8] (prefixText t b v) b v.toInt.natAbs (c :: rest)
  have hsign : signText (if 0 ≤ v.toInt then t.plusSign else 0x2D#8) = [0x2B#8] := by
    rw [if_pos hv, hplus]
    rfl
  rw [signedText, hsign, hshape, List.singleton_append]
  generalize prefixText t b v ++ zeroPadded b z v.toInt.natAbs (List.replicate m blank ++ c :: rest) = p
  have hskip : skipHex arg (0x2B#8 :: p) = some (arg, 0x2B#8 :: p) := if_neg fun h => absurd h.2 (by decide)
  have hstop (base : ℤ) : digitsLoop base 0#32 (0x2B#8 :: p) = some (0#32, 0x2B#8 :: p) := by
    rw [digitsLoop, digitIn_stop (by decide)]
  have hread : readNumber arg (0x2B#8 :: p) = some (0#32, 0x2B#8 :: p) := by
    rw [readNumber, hskip, Option.bind_some]
    dsimp only
    by_cases hauto : arg = 0
    · rw [chooseBase, if_pos hauto]
      exact hstop 10
    · rw [chooseBase, if_neg hauto]
      exact hstop arg
  have hsigned : readSign (0x2B#8 :: p) = some (false, 0x2B#8 :: p) := rfl
  refine ⟨p, ?_⟩
  rw [strtol, skipSpace_blanks (isspace_replicate k) (by decide), Option.bind_some, hsigned, Option.bind_some]
  dsimp only
  rw [hread]
  rfl

/-! ## Through the array of `sprintf` -/

theorem plusSign_conv {s : Spec} {args args' : List VaArg} (h : s.conv args = some (t, args')) :
    t.plusSign = if .plus ∈ s.flags then 0x2B#8 else if .space ∈ s.flags then blank else 0#8 := by
  obtain ⟨⟨length, args₁⟩, -, h⟩ := Option.bind_eq_some_iff.mp h
  obtain ⟨⟨prec, args₂⟩, -, h⟩ := Option.bind_eq_some_iff.mp h
  obtain ⟨-, hresult⟩ := Option.ite_none_right_eq_some.mp h
  cases hresult
  rfl

theorem array_of_vsprintf {s array : List U8} {len : U32} {args : List VaArg} {fmt out : List U8}
    (hout : doprnt 0#32 args fmt = some out) (h : vsprintf s args fmt = some (array, len)) :
    ∃ old, array = out ++ 0#8 :: old := by
  rw [vsprintf, vsnprintf_stored hout, stored, if_pos rfl] at h
  obtain ⟨-, hresult⟩ := Option.ite_none_right_eq_some.mp h
  cases hresult
  exact ⟨_, by rw [List.take_length]⟩

theorem base_le {c : U8} {signed : Bool} {base : U32} (h : numberCase 0#32 c = some (signed, base)) : base.toNat ≤ 16 := by
  unfold numberCase at h
  split_ifs at h
  all_goals
    cases h
    decide

variable {s : Spec} {args args' : List VaArg} {v base len : U32} {old array fmt : List U8}

theorem meaning_number (hconv : s.conv args = some (t, .word v :: args')) {signed : Bool}
    (hcase : numberCase 0#32 s.letter = some (signed, base)) (hb : 2 ≤ base.toNat) :
    meaning 0#32 args [.conversion s] =
      some (if signed then signedText t base.toNat v else unsignedText t base.toNat v) := by
  simp only [meaning, hconv, Option.bind_some, meaningOf, hcase, if_pos (And.intro hb (base_le hcase))]
  simp

/-- What `sprintf` writes for a signed conversion `strtol` reads, whatever the flags, the width and
the precision are, as long as there is no plus sign. -/
theorem strtol_vsprintf (hconv : s.conv args = some (t, .word v :: args'))
    (hcase : numberCase 0#32 s.letter = some (true, base)) (hb : 2 ≤ base.toNat) (hagrees : Agrees t base.toNat arg)
    (h : vsprintf old args (render [.conversion s] ++ 0#8 :: fmt) = some (array, len)) :
    if Flag.plus ∈ s.flags ∧ 0 ≤ v.toInt then ∃ p, strtol array arg = some (0#32, 0x2B#8 :: p)
    else ∃ m p, strtol array arg = some (v, List.replicate m blank ++ 0#8 :: p) := by
  obtain ⟨p, rfl⟩ := array_of_vsprintf (doprnt_render (meaning_number hconv hcase hb) fmt) h
  rw [if_pos rfl]
  have hsign := plusSign_conv hconv
  split_ifs with hplus
  · rw [if_pos hplus.1] at hsign
    exact strtol_plus hsign hplus.2 arg p
  · have hplain : 0 ≤ v.toInt → t.plusSign = 0#8 ∨ t.plusSign = blank := by
      intro hv
      rw [hsign, if_neg fun hmem => hplus ⟨hmem, hv⟩]
      split_ifs
      · exact .inr rfl
      · exact .inl rfl
    obtain ⟨m, hread⟩ := strtol_signedText hb (base_le hcase) (c := 0#8) (by decide) hagrees hplain p
    exact ⟨m, p, hread⟩

/-- `"%-6d"`. -/
def leftSix : Spec := {
  flags := [.minus], zero := false, width := some six, prec := none, long := false, letter := 0x64#8
  hwidth := by decide, hletter := letter_d }

/-- `-42` and three blanks, read without a base. -/
theorem strtol_vsprintf_left :
    ∃ m p, strtol [0x2D#8, 0x34#8, 0x32#8, 0x20#8, 0x20#8, 0x20#8, 0#8, 0xFF#8] 0 =
      some (-42#32, List.replicate m blank ++ 0#8 :: p) := by
  have htext : doprnt 0#32 [.word (-42#32)] (render [.conversion leftSix] ++ [0#8]) =
      some [0x2D#8, 0x34#8, 0x32#8, 0x20#8, 0x20#8, 0x20#8] := doprnt_render (by decide) []
  have harray : vsprintf (List.replicate 8 0xFF#8) [.word (-42#32)] (render [.conversion leftSix] ++ [0#8]) =
      some ([0x2D#8, 0x34#8, 0x32#8, 0x20#8, 0x20#8, 0x20#8, 0#8, 0xFF#8], 6#32) :=
    (vsnprintf_stored htext _ _).trans (by decide)
  have hconv : leftSix.conv [.word (-42#32)] = some (⟨6, -1, true, blank, 0#8, false⟩, [.word (-42#32)]) := by decide
  have hcase : numberCase 0#32 leftSix.letter = some (true, 10#32) := by decide
  have hread := strtol_vsprintf hconv hcase (by decide) (.inr ⟨rfl, .inr ⟨rfl, rfl, by decide⟩⟩) harray
  rwa [if_neg (by decide)] at hread

/-- What `sprintf` writes for an unsigned conversion `strtoul` reads. -/
theorem strtoul_vsprintf (hconv : s.conv args = some (t, .word v :: args'))
    (hcase : numberCase 0#32 s.letter = some (false, base)) (hb : 2 ≤ base.toNat) (hagrees : Agrees t base.toNat arg)
    (h : vsprintf old args (render [.conversion s] ++ 0#8 :: fmt) = some (array, len)) :
    ∃ m p, strtoul array arg = some (v, List.replicate m blank ++ 0#8 :: p) := by
  obtain ⟨p, rfl⟩ := array_of_vsprintf (doprnt_render (meaning_number hconv hcase hb) fmt) h
  obtain ⟨m, hread⟩ := strtoul_unsignedText hb (base_le hcase) (c := 0#8) (by decide) hagrees v p
  exact ⟨m, p, hread⟩

/-- `0x00ff`, read without a base. -/
theorem strtoul_vsprintf_hex :
    ∃ m p, strtoul [0x30#8, 0x78#8, 0x30#8, 0x30#8, 0x66#8, 0x66#8, 0#8, 0xFF#8] 0 =
      some (255#32, List.replicate m blank ++ 0#8 :: p) := by
  have htext : doprnt 0#32 [.word 255#32] (render [.conversion hexSix] ++ [0#8]) =
      some [0x30#8, 0x78#8, 0x30#8, 0x30#8, 0x66#8, 0x66#8] := doprnt_render (by decide) []
  have harray : vsprintf (List.replicate 8 0xFF#8) [.word 255#32] (render [.conversion hexSix] ++ [0#8]) =
      some ([0x30#8, 0x78#8, 0x30#8, 0x30#8, 0x66#8, 0x66#8, 0#8, 0xFF#8], 6#32) :=
    (vsnprintf_stored htext _ _).trans (by decide)
  have hconv : hexSix.conv [.word 255#32] = some (⟨6, -1, false, 0x30#8, 0#8, true⟩, [.word 255#32]) := by decide
  have hcase : numberCase 0#32 hexSix.letter = some (false, 16#32) := by decide
  exact strtoul_vsprintf hconv hcase (by decide) (.inr ⟨rfl, .inl ⟨rfl, .inr rfl⟩⟩) harray

end N7OS.Doprnt
