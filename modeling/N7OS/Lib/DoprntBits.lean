import N7OS.Lib.DoprntFormat

/-! # The names of bits

`%b` prints a number and, in angle brackets, what its bits are: the second argument names
the base, and then the single bits and the fields of bits in any order.
-/
namespace N7OS.Doprnt

/-- What is said of one bit, or of the bits from `j` to `i`. The lowest bit has the number 1. -/
inductive BitEntry
  | bit (i : U8) (name : List U8) (hbit : 1 ≤ i.toNat ∧ i.toNat ≤ 32)
      (hname : name ≠ [] ∧ ∀ c ∈ name, 32 < c.toInt)
  | field (i j : U8) (name : List U8) (hbits : 1 ≤ j.toNat ∧ j.toNat ≤ i.toNat ∧ i.toNat ≤ 32)
      (hname : ∀ c ∈ name, 32 < c.toInt)

def BitEntry.render : BitEntry → List U8
  | .bit i name _ _ => i :: name
  | .field i j name _ _ => i :: j :: name

/-- The name of a bit that is set, and the name and the value of a field. -/
def BitEntry.shown (base : ℕ) (u : U32) : BitEntry → Option (List U8)
  | .bit i name _ _ => if u.toNat.testBit (i.toNat - 1) then some name else none
  | .field i j name _ _ =>
    some (name ++ numeralText base (u.toNat / 2 ^ (j.toNat - 1) % 2 ^ (i.toNat - j.toNat + 1)))

def bracket : List (List U8) → List U8
  | [] => []
  | names => 0x3C#8 :: (List.intercalate [0x2C#8] names ++ [0x3E#8])

def bitsText (base : ℕ) (entries : List BitEntry) (u : U32) : List U8 :=
  numeralText base u.toNat ++ if u = 0#32 then [] else bracket (entries.filterMap (·.shown base u))

variable {base u : U32} {c i j : U8} {name rest : List U8} {n : ℕ}

theorem nameLoop_name (hname : ∀ c ∈ name, 32 < c.toInt) (hc : c.toInt ≤ 32) :
    nameLoop (name ++ c :: rest) = some (name, c :: rest) := by
  induction name with
  | nil => exact if_neg (not_lt.mpr hc)
  | cons d name ih =>
    obtain ⟨hd, hrest⟩ := List.forall_mem_cons.mp hname
    rw [List.cons_append, nameLoop, if_pos hd, ih hrest]
    rfl

theorem toInt_small (h : i.toNat ≤ 32) : i.toInt = i.toNat := by
  rw [BitVec.toInt_eq_toNat_of_lt]
  omega

theorem signExtend_small (h : i.toNat ≤ 32) : i.signExtend 32 = BitVec.ofNat 32 i.toNat := by
  have hfit : (i.toNat : ℤ).bmod (2 ^ 32) = i.toNat := Int.bmod_eq_of_le_mul_two (by omega) (by omega)
  apply BitVec.eq_of_toInt_eq
  rw [BitVec.toInt_signExtend_of_le (by decide), toInt_small h, BitVec.toInt_ofNat', hfit]

theorem shiftCount_ofNat (h : n < 32) : shiftCount (BitVec.ofNat 32 n) = BitVec.ofNat 32 n := by
  apply BitVec.eq_of_toNat_eq
  rw [shiftCount, BitVec.toNat_and, BitVec.toNat_ofNat, Nat.mod_eq_of_lt (h.trans (by decide)),
    show (31#32).toNat = 2 ^ 5 - 1 from rfl, Nat.and_two_pow_sub_one_eq_mod, Nat.mod_eq_of_lt h]

theorem sub_one_ofNat (h : 1 ≤ n) : BitVec.ofNat 32 n - 1#32 = BitVec.ofNat 32 (n - 1) := by
  rw [BitVec.ofNat_sub_ofNat_of_le n 1 (by decide) h]

/-- The test of one bit. -/
theorem bit_test (hbit : 1 ≤ i.toNat ∧ i.toNat ≤ 32) (u : U32) :
    u &&& 1#32 <<< shiftCount (i.signExtend 32 - 1#32) ≠ 0#32 ↔ u.toNat.testBit (i.toNat - 1) = true := by
  obtain ⟨hpos, hle⟩ := hbit
  have hlt : i.toNat - 1 < 32 := by omega
  rw [signExtend_small hle, sub_one_ofNat hpos, shiftCount_ofNat hlt, BitVec.shiftLeft_eq', BitVec.toNat_ofNat,
    Nat.mod_eq_of_lt (hlt.trans (by decide)), ← BitVec.twoPow_eq, BitVec.and_twoPow, BitVec.getLsbD]
  split_ifs with hset
  · simp only [hset, iff_true]
    intro hzero
    have hnat := congrArg BitVec.toNat hzero
    rw [BitVec.toNat_twoPow_of_lt hlt] at hnat
    exact absurd hnat (by simp)
  · simp [hset]

/-- The shift and the mask take out a field. -/
theorem field_value (hbits : 1 ≤ j.toNat ∧ j.toNat ≤ i.toNat ∧ i.toNat ≤ 32) (u : U32) :
    (u >>> shiftCount (j.signExtend 32 - 1#32) &&& (2#32 <<< shiftCount (i.signExtend 32 - j.signExtend 32) - 1#32)).toNat =
      u.toNat / 2 ^ (j.toNat - 1) % 2 ^ (i.toNat - j.toNat + 1) := by
  obtain ⟨hpos, hle, hmax⟩ := hbits
  have hshift : j.toNat - 1 < 32 := by omega
  have hwidth : i.toNat - j.toNat < 32 := by omega
  have hdiff : BitVec.ofNat 32 i.toNat - BitVec.ofNat 32 j.toNat = BitVec.ofNat 32 (i.toNat - j.toNat) := by
    rw [BitVec.ofNat_sub_ofNat_of_le i.toNat j.toNat (by omega) hle]
  have hmask : (2#32 <<< (i.toNat - j.toNat) - 1#32).toNat = 2 ^ (i.toNat - j.toNat + 1) - 1 := by
    generalize i.toNat - j.toNat = k at hwidth ⊢
    interval_cases k <;> rfl
  rw [signExtend_small hmax, signExtend_small (hle.trans hmax), hdiff, sub_one_ofNat hpos, shiftCount_ofNat hshift,
    shiftCount_ofNat hwidth, BitVec.toNat_and, BitVec.shiftLeft_eq', BitVec.ushiftRight_eq', BitVec.toNat_ushiftRight,
    BitVec.toNat_ofNat, BitVec.toNat_ofNat, Nat.mod_eq_of_lt (hshift.trans (by decide)),
    Nat.mod_eq_of_lt (hwidth.trans (by decide)), hmask, Nat.and_two_pow_sub_one_eq_mod, Nat.shiftRight_eq_div_pow]

/-- What follows a first name. -/
theorem intercalate_cons (name : List U8) (names : List (List U8)) :
    List.intercalate [0x2C#8] (name :: names) = name ++ names.flatMap (0x2C#8 :: ·) := by
  induction names generalizing name with
  | nil => simp
  | cons next names ih =>
    rw [List.intercalate_cons_cons, ih]
    simp

theorem bracket_cons (name : List U8) (names : List (List U8)) :
    bracket (name :: names) = 0x3C#8 :: (name ++ names.flatMap (0x2C#8 :: ·) ++ [0x3E#8]) := by
  rw [bracket, intercalate_cons]
  exact List.cons_ne_nil _ _

/-- What the loop prints for names that are still to be shown. -/
def continued (any : Bool) (names : List (List U8)) : List U8 :=
  if any then names.flatMap (0x2C#8 :: ·) ++ [0x3E#8] else bracket names

theorem continued_cons (any : Bool) (name : List U8) (names : List (List U8)) :
    continued any (name :: names) = (if any then 0x2C#8 else 0x3C#8) :: (name ++ continued true names) := by
  cases any with
  | true => simp [continued]
  | false => simp [continued, bracket_cons]

def renderBits (entries : List BitEntry) : List U8 := entries.flatMap BitEntry.render

theorem renderBits_head (entries : List BitEntry) (rest : List U8) :
    ∃ c r, renderBits entries ++ 0#8 :: rest = c :: r ∧ c.toInt ≤ 32 := by
  cases entries with
  | nil => exact ⟨0#8, rest, rfl, by decide⟩
  | cons entry entries =>
    cases entry with
    | bit i name hbit hname =>
      exact ⟨i, name ++ renderBits entries ++ 0#8 :: rest, rfl, by rw [toInt_small hbit.2]; omega⟩
    | field i j name hbits hname =>
      exact ⟨i, j :: name ++ renderBits entries ++ 0#8 :: rest, rfl, by rw [toInt_small hbits.2.2]; omega⟩

theorem nonzero_of_pos (h : 1 ≤ i.toNat) : i ≠ 0#8 := by
  rintro rfl
  exact absurd h (by decide)

theorem bitsLoop_entries (hb : 2 ≤ base.toNat) (hb' : base.toNat ≤ 16) (u : U32) (entries : List BitEntry) (any : Bool)
    (rest : List U8) :
    bitsLoop u base any (renderBits entries ++ 0#8 :: rest) =
      some (continued any (entries.filterMap (·.shown base.toNat u))) := by
  induction entries generalizing any with
  | nil =>
    rw [show renderBits [] ++ 0#8 :: rest = 0#8 :: rest from rfl, bitsLoop.eq_def]
    cases any <;> rfl
  | cons entry entries ih =>
    obtain ⟨c, r, hnext, hc⟩ := renderBits_head entries rest
    cases entry with
    | bit i name hbit hname =>
      obtain ⟨d, name', rfl⟩ := List.exists_cons_of_ne_nil hname.1
      have hd : ¬d.toInt ≤ 32 := not_le.mpr (hname.2 d List.mem_cons_self)
      have hread : nameLoop (d :: (name' ++ c :: r)) = some (d :: name', c :: r) := nameLoop_name hname.2 hc
      have htext : renderBits (.bit i (d :: name') hbit hname :: entries) ++ 0#8 :: rest = i :: d :: (name' ++ c :: r) := by
        rw [← hnext]
        simp [renderBits, BitEntry.render]
      rw [htext, bitsLoop.eq_def]
      simp only [if_neg (nonzero_of_pos hbit.1), if_neg hd]
      split
      · next hnone => cases hread.symm.trans hnone
      · next hsome =>
        cases hread.symm.trans hsome
        rw [← hnext, List.filterMap_cons]
        by_cases hset : u.toNat.testBit (i.toNat - 1) = true
        · rw [if_pos ((bit_test hbit u).mpr hset), ih, BitEntry.shown, if_pos hset]
          dsimp only
          rw [continued_cons]
          rfl
        · rw [if_neg (mt (bit_test hbit u).mp hset), ih, BitEntry.shown, if_neg hset]
    | field i j name hbits hname =>
      have hj : j.toInt ≤ 32 := by
        rw [toInt_small (hbits.2.1.trans hbits.2.2)]
        omega
      have hread : nameLoop (name ++ c :: r) = some (name, c :: r) := nameLoop_name hname hc
      have htext : renderBits (.field i j name hbits hname :: entries) ++ 0#8 :: rest = i :: j :: (name ++ c :: r) := by
        rw [← hnext]
        simp [renderBits, BitEntry.render]
      rw [htext, bitsLoop.eq_def]
      simp only [if_neg (nonzero_of_pos (hbits.1.trans hbits.2.1)), if_pos hj]
      split
      · next hnone => cases hread.symm.trans hnone
      · next hsome =>
        cases hread.symm.trans hsome
        rw [printnum_eq hb hb', Option.bind_some, field_value hbits, ← hnext, ih, List.filterMap_cons, BitEntry.shown]
        dsimp only
        rw [continued_cons]
        simp

/-- `%b` prints the number, and between brackets the names of the bits that are set with the
values of the fields. -/
theorem printBits_entries {b : U8} (hb : 2 ≤ b.toNat) (hb' : b.toNat ≤ 16) (u : U32) (entries : List BitEntry)
    (rest : List U8) :
    printBits u (b :: (renderBits entries ++ 0#8 :: rest)) = some (bitsText b.toNat entries u) := by
  have hbase : (b.signExtend 32).toNat = b.toNat := by
    rw [signExtend_small (hb'.trans (by decide)), BitVec.toNat_ofNat, Nat.mod_eq_of_lt (by omega)]
  rw [printBits, printnum_eq (by rwa [hbase]) (by rwa [hbase]), Option.bind_some, hbase, bitsText]
  by_cases hzero : u = 0#32
  · rw [if_pos hzero, if_pos hzero, List.append_nil]
  · rw [if_neg hzero, if_neg hzero, bitsLoop_entries (by rwa [hbase]) (by rwa [hbase]), hbase]
    rfl

/-- `"\10\2UP\1ON\6\3K"` for 0o27 shows `27<UP,ON,K5>`. -/
theorem printBits_entries_octal :
    printBits 23#32 (8#8 :: (renderBits
      [.bit 2#8 [0x55#8, 0x50#8] (by decide) (by decide), .bit 1#8 [0x4F#8, 0x4E#8] (by decide) (by decide),
        .field 6#8 3#8 [0x4B#8] (by decide) (by decide)] ++ [0#8])) =
      some [0x32#8, 0x37#8, 0x3C#8, 0x55#8, 0x50#8, 0x2C#8, 0x4F#8, 0x4E#8, 0x2C#8, 0x4B#8, 0x35#8, 0x3E#8] :=
  (printBits_entries (by decide) (by decide) 23#32 _ []).trans (by decide)

end N7OS.Doprnt
