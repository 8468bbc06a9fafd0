import N7OS.Lib.Atoi

/-! # `_doprnt`

The formatter of `lib/doprnt.c`: it reads the format and the arguments and hands characters
to `putc`. The model gives these characters, or nothing where the C code is undefined (a
read past an object, a missing argument, a division by zero, a store below `buf`). `int` is
kept modulo `2 ^ 32`. `_doprnt_truncates` is always false, and floats are compiled out.
-/
namespace N7OS.Doprnt

/-- An argument: a word, or a pointer to the bytes of an object. -/
inductive VaArg
  | word (v : U32)
  | string (bytes : List U8)
deriving DecidableEq

def percent : U8 := 0x25#8

def blank : U8 := 0x20#8

/-- `"0123456789abcdef"`, with its terminator. -/
def digs : List U8 :=
  [0x30#8, 0x31#8, 0x32#8, 0x33#8, 0x34#8, 0x35#8, 0x36#8, 0x37#8, 0x38#8, 0x39#8,
    0x61#8, 0x62#8, 0x63#8, 0x64#8, 0x65#8, 0x66#8, 0#8]

def maxBuf : ℕ := 32

/-- `do { *p-- = digs[u % base]; u /= base; } while (u != 0)`, with room for so many digits in `buf`. -/
def digitLoop (base : U32) : ℕ → U32 → List U8 → Option (List U8)
  | 0, _, _ => none
  | room + 1, u, p =>
    if base = 0#32 then none
    else
      digs[(u % base).toNat]?.bind fun d =>
        if u / base ≠ 0#32 then digitLoop base room (u / base) (d :: p) else some (d :: p)

def printnum (u base : U32) : Option (List U8) := digitLoop base maxBuf u []

/-- `while (--n >= 0) (*putc)(putc_arg, c)`: the characters, and `n` after the loop. -/
def countdown (n : ℤ) (c : U8) : List U8 × ℤ :=
  let n := wrap32 (n - 1)
  if 0 ≤ n then (List.replicate (n.toNat + 1) c, -1) else ([], n)

/-- The locals that a conversion sets. A sign that is not to be printed is zero. -/
structure Conv where
  length : ℤ
  prec : ℤ
  ladjust : Bool
  padc : U8
  plusSign : U8
  altfmt : Bool
deriving DecidableEq

def Conv.start : Conv := ⟨0, -1, false, blank, 0#8, false⟩

/-! ## The specification of a conversion -/

def flagLoop (t : Conv) : List U8 → Option (Conv × List U8)
  | [] => none
  | c :: fmt =>
    if c = 0x23#8 then flagLoop { t with altfmt := true } fmt
    else if c = 0x2D#8 then flagLoop { t with ladjust := true } fmt
    else if c = 0x2B#8 then flagLoop { t with plusSign := 0x2B#8 } fmt
    else if c = blank then
      flagLoop { t with plusSign := if t.plusSign = 0#8 then blank else t.plusSign } fmt
    else some (t, c :: fmt)

/-- `if (*fmt == '0') padc = '0'`. -/
def zeroFlag (t : Conv) : List U8 → Option (Conv × List U8)
  | [] => none
  | c :: fmt => if c = 0x30#8 then some ({ t with padc := 0x30#8 }, fmt) else some (t, c :: fmt)

/-- `while (isdigit(*fmt)) n = 10 * n + Ctod(*fmt++)`. -/
def numberLoop (n : ℤ) : List U8 → Option (ℤ × List U8)
  | [] => none
  | c :: fmt =>
    if isdigit c then numberLoop (wrap32 (wrap32 (10 * n) + (c.toInt - 48))) fmt else some (n, c :: fmt)

/-- `va_arg(args, int)`. -/
def vaWord : List VaArg → Option (U32 × List VaArg)
  | .word v :: args => some (v, args)
  | _ => none

/-- `length = va_arg(args, int)`, with a negative width for the other adjustment. -/
def Conv.setLength (t : Conv) (length : ℤ) : Conv :=
  if length < 0 then { t with length := wrap32 (-length), ladjust := !t.ladjust } else { t with length := length }

def readLength (t : Conv) (args : List VaArg) : List U8 → Option (Conv × List VaArg × List U8)
  | [] => none
  | c :: fmt =>
    if isdigit c then
      (numberLoop t.length (c :: fmt)).map fun (length, fmt) => ({ t with length := length }, args, fmt)
    else if c = 0x2A#8 then
      (vaWord args).map fun (v, args) => (t.setLength v.toInt, args, fmt)
    else some (t, args, c :: fmt)

/-- What follows the point. -/
def readPoint (t : Conv) (args : List VaArg) : List U8 → Option (Conv × List VaArg × List U8)
  | [] => none
  | c :: fmt =>
    if isdigit c then
      (numberLoop 0 (c :: fmt)).map fun (prec, fmt) => ({ t with prec := prec }, args, fmt)
    else if c = 0x2A#8 then
      (vaWord args).map fun (v, args) => ({ t with prec := v.toInt }, args, fmt)
    else some (t, args, c :: fmt)

def readPrec (t : Conv) (args : List VaArg) : List U8 → Option (Conv × List VaArg × List U8)
  | [] => none
  | c :: fmt => if c = 0x2E#8 then readPoint t args fmt else some (t, args, c :: fmt)

/-- `if (*fmt == 'l') fmt++`. -/
def skipLong : List U8 → Option (List U8)
  | [] => none
  | c :: fmt => if c = 0x6C#8 then some fmt else some (c :: fmt)

/-- All that stands between the percent sign and the letter of the conversion. -/
def readConv (args : List VaArg) (fmt : List U8) : Option (Conv × List VaArg × List U8) :=
  (flagLoop .start fmt).bind fun (t, fmt) =>
    (zeroFlag t fmt).bind fun (t, fmt) =>
      (readLength t args fmt).bind fun (t, args, fmt) =>
        (readPrec t args fmt).bind fun (t, args, fmt) => (skipLong fmt).map fun fmt => (t, args, fmt)

/-! ## The conversions -/

/-- `print_num`. -/
def printNum (t : Conv) (signChar : U8) (u base : U32) : Option (List U8) :=
  let pre : List U8 :=
    if u ≠ 0#32 ∧ t.altfmt then
      if base = 8#32 then [0x30#8] else if base = 16#32 then [0x30#8, 0x78#8] else []
    else []
  (digitLoop base maxBuf u []).map fun digits =>
    let prec := wrap32 (t.prec - digits.length)
    let length := wrap32 (t.length - digits.length)
    let length := if signChar ≠ 0#8 then wrap32 (length - 1) else length
    let length := wrap32 (length - pre.length)
    let length := if 0 < prec then wrap32 (length - prec) else length
    let (blanks, length) := if t.padc = blank ∧ t.ladjust = false then countdown length blank else ([], length)
    let sign := if signChar ≠ 0#8 then [signChar] else []
    let (zeros, _) := countdown prec 0x30#8
    let (padding, length) := if t.padc = 0x30#8 then countdown length 0x30#8 else ([], length)
    let (trailing, _) := if t.ladjust then countdown length blank else ([], length)
    blanks ++ sign ++ pre ++ zeros ++ padding ++ digits ++ trailing

/-- `print_signed`. -/
def printSigned (t : Conv) (base n : U32) : Option (List U8) :=
  if 0 ≤ n.toInt then printNum t t.plusSign n base else printNum t 0x2D#8 (-n) base

/-- `for (; *p != '\0' && n < prec; p++) n++`. -/
def measure (prec n : ℤ) : List U8 → Option ℤ
  | [] => none
  | c :: p => if c ≠ 0#8 ∧ n < prec then measure prec (n + 1) p else some n

/-- `while (*p != '\0') { if (++n > prec) break; (*putc)(putc_arg, *p++); }`: the characters, and `n`. -/
def copyLoop (prec n : ℤ) : List U8 → Option (List U8 × ℤ)
  | [] => none
  | c :: p =>
    if c = 0#8 then some ([], n)
    else if prec < n + 1 then some ([], n + 1)
    else (copyLoop prec (n + 1) p).map fun (out, n) => (c :: out, n)

/-- `while (n < length) { (*putc)(putc_arg, ' '); n++; }`. -/
def fill (n length : ℤ) : List U8 := List.replicate (length - n).toNat blank

def printString (t : Conv) (p : List U8) : Option (List U8) :=
  let prec := if t.prec = -1 then 2 ^ 31 - 1 else t.prec
  let leading := if 0 < t.length ∧ t.ladjust = false then (measure prec 0 p).map (fill · t.length) else some []
  leading.bind fun leading =>
    (copyLoop prec 0 p).map fun (out, n) => leading ++ out ++ if t.ladjust then fill n t.length else []

/-- `for (; (c = *p) > 32; p++)`: the characters of a name, and what follows. -/
def nameLoop : List U8 → Option (List U8 × List U8)
  | [] => none
  | c :: p => if 32 < c.toInt then (nameLoop p).map fun (name, p) => (c :: name, p) else some ([], c :: p)

/-- The count of a shift is taken modulo 32. -/
def shiftCount (n : U32) : U32 := n &&& 31#32

theorem nameLoop_length {p name rest : List U8} (h : nameLoop p = some (name, rest)) : rest.length ≤ p.length := by
  induction p generalizing name with
  | nil => cases h
  | cons c p ih =>
    unfold nameLoop at h
    by_cases hc : 32 < c.toInt
    · rw [if_pos hc] at h
      obtain ⟨⟨name', rest'⟩, hname, hpair⟩ := Option.map_eq_some_iff.mp h
      cases hpair
      exact (ih hname).trans (Nat.le_succ _)
    · rw [if_neg hc] at h
      cases h
      exact le_rfl

/-- The loop over the names of the bits of `u`; `any` tells if a name has been printed. -/
def bitsLoop (u base : U32) (any : Bool) : List U8 → Option (List U8)
  | [] => none
  | c :: p =>
    let i := c.signExtend 32
    let opening := if any then 0x2C#8 else 0x3C#8
    if c = 0#8 then some (if any then [0x3E#8] else [])
    else
      match p with
      | [] => none
      | d :: p' =>
        if d.toInt ≤ 32 then
          let j := d.signExtend 32
          match _h : nameLoop p' with
          | none => none
          | some (name, rest) =>
            let mask := 2#32 <<< shiftCount (i - j) - 1#32
            (printnum (u >>> shiftCount (j - 1#32) &&& mask) base).bind fun number =>
              (bitsLoop u base true rest).map fun out => opening :: name ++ number ++ out
        else
          match _h : nameLoop (d :: p') with
          | none => none
          | some (name, rest) =>
            if u &&& 1#32 <<< shiftCount (i - 1#32) ≠ 0#32 then
              (bitsLoop u base true rest).map fun out => opening :: name ++ out
            else bitsLoop u base any rest
termination_by p => p.length
decreasing_by
  all_goals
    have hlength := nameLoop_length ‹_›
    simp only [List.length_cons] at hlength ⊢
    omega

/-- `%b`: the first byte of the names is the base. -/
def printBits (u : U32) : List U8 → Option (List U8)
  | [] => none
  | c :: p =>
    let base := c.signExtend 32
    (printnum u base).bind fun number =>
      if u = 0#32 then some number else (bitsLoop u base false p).map fun out => number ++ out

/-- The labels of the switch that lead to a number: signed or not, and the base. -/
def numberCase (radix : U32) (c : U8) : Option (Bool × U32) :=
  if c = 0x6F#8 ∨ c = 0x4F#8 then some (false, 8#32)
  else if c = 0x64#8 ∨ c = 0x69#8 ∨ c = 0x44#8 then some (true, 10#32)
  else if c = 0x75#8 ∨ c = 0x55#8 then some (false, 10#32)
  else if c = 0x78#8 ∨ c = 0x58#8 then some (false, 16#32)
  else if c = 0x7A#8 ∨ c = 0x5A#8 then some (true, 16#32)
  else if c = 0x72#8 ∨ c = 0x52#8 then some (true, radix)
  else if c = 0x6E#8 ∨ c = 0x4E#8 then some (false, radix)
  else none

/-- `switch (*fmt)`: the characters put, and the arguments left. -/
def convert (radix : U32) (t : Conv) (args : List VaArg) (c : U8) : Option (List U8 × List VaArg) :=
  match numberCase radix c with
  | some (signed, base) =>
    (vaWord args).bind fun (v, args) =>
      (if signed then printSigned t base v else printNum t 0#8 v base).map fun out => (out, args)
  | none =>
    if c = 0x62#8 ∨ c = 0x42#8 then
      match args with
      | .word u :: .string p :: args => (printBits u p).map fun out => (out, args)
      | _ => none
    else if c = 0x63#8 then (vaWord args).map fun (v, args) => ([v.setWidth 8], args)
    else if c = 0x73#8 then
      match args with
      | .string p :: args => (printString t p).map fun out => (out, args)
      | .word v :: args => if v = 0#32 then (printString t [0#8]).map fun out => (out, args) else none
      | [] => none
    else if c = 0x70#8 then
      (vaWord args).bind fun (v, args) =>
        (printNum { t with padc := 0x30#8, length := 8 } 0#8 v 16#32).map fun out => (0x30#8 :: 0x78#8 :: out, args)
    else if c = 0#8 then some ([], args)
    else some ([c], args)

theorem flagLoop_length {t t' : Conv} {fmt rest : List U8} (h : flagLoop t fmt = some (t', rest)) :
    rest.length ≤ fmt.length := by
  induction fmt generalizing t with
  | nil => cases h
  | cons c fmt ih =>
    unfold flagLoop at h
    split_ifs at h
    all_goals first
      | exact (ih h).trans (Nat.le_succ _)
      | cases h; exact le_rfl

theorem zeroFlag_length {t t' : Conv} {fmt rest : List U8} (h : zeroFlag t fmt = some (t', rest)) :
    rest.length ≤ fmt.length := by
  cases fmt with
  | nil => cases h
  | cons c fmt =>
    simp only [zeroFlag] at h
    split_ifs at h
    · cases h
      exact Nat.le_succ _
    · cases h
      exact le_rfl

theorem numberLoop_length {n n' : ℤ} {fmt rest : List U8} (h : numberLoop n fmt = some (n', rest)) :
    rest.length ≤ fmt.length := by
  induction fmt generalizing n with
  | nil => cases h
  | cons c fmt ih =>
    unfold numberLoop at h
    split_ifs at h
    · exact (ih h).trans (Nat.le_succ _)
    · cases h
      exact le_rfl

theorem readLength_length {t t' : Conv} {args args' : List VaArg} {fmt rest : List U8}
    (h : readLength t args fmt = some (t', args', rest)) : rest.length ≤ fmt.length := by
  cases fmt with
  | nil => cases h
  | cons c fmt =>
    simp only [readLength] at h
    split_ifs at h
    · obtain ⟨⟨n, rest'⟩, hnumber, hpair⟩ := Option.map_eq_some_iff.mp h
      cases hpair
      exact numberLoop_length hnumber
    · obtain ⟨⟨v, args₁⟩, -, hpair⟩ := Option.map_eq_some_iff.mp h
      cases hpair
      exact Nat.le_succ _
    · cases h
      exact le_rfl

theorem readPoint_length {t t' : Conv} {args args' : List VaArg} {fmt rest : List U8}
    (h : readPoint t args fmt = some (t', args', rest)) : rest.length ≤ fmt.length := by
  cases fmt with
  | nil => cases h
  | cons c fmt =>
    simp only [readPoint] at h
    split_ifs at h
    · obtain ⟨⟨n, rest'⟩, hnumber, hpair⟩ := Option.map_eq_some_iff.mp h
      cases hpair
      exact numberLoop_length hnumber
    · obtain ⟨⟨v, args₁⟩, -, hpair⟩ := Option.map_eq_some_iff.mp h
      cases hpair
      exact Nat.le_succ _
    · cases h
      exact le_rfl

theorem readPrec_length {t t' : Conv} {args args' : List VaArg} {fmt rest : List U8}
    (h : readPrec t args fmt = some (t', args', rest)) : rest.length ≤ fmt.length := by
  cases fmt with
  | nil => cases h
  | cons c fmt =>
    simp only [readPrec] at h
    split_ifs at h
    · exact (readPoint_length h).trans (Nat.le_succ _)
    · cases h
      exact le_rfl

theorem skipLong_length {fmt rest : List U8} (h : skipLong fmt = some rest) : rest.length ≤ fmt.length := by
  cases fmt with
  | nil => cases h
  | cons c fmt =>
    simp only [skipLong] at h
    split_ifs at h
    · cases h
      exact Nat.le_succ _
    · cases h
      exact le_rfl

theorem readConv_length {t : Conv} {args args' : List VaArg} {fmt rest : List U8}
    (h : readConv args fmt = some (t, args', rest)) : rest.length ≤ fmt.length := by
  obtain ⟨⟨t₁, fmt₁⟩, hflags, h⟩ := Option.bind_eq_some_iff.mp h
  obtain ⟨⟨t₂, fmt₂⟩, hzero, h⟩ := Option.bind_eq_some_iff.mp h
  obtain ⟨⟨t₃, args₃, fmt₃⟩, hlength, h⟩ := Option.bind_eq_some_iff.mp h
  obtain ⟨⟨t₄, args₄, fmt₄⟩, hprec, h⟩ := Option.bind_eq_some_iff.mp h
  obtain ⟨fmt₅, hlong, hpair⟩ := Option.map_eq_some_iff.mp h
  cases hpair
  calc rest.length ≤ fmt₄.length := skipLong_length hlong
    _ ≤ fmt₃.length := readPrec_length hprec
    _ ≤ fmt₂.length := readLength_length hlength
    _ ≤ fmt₁.length := zeroFlag_length hzero
    _ ≤ fmt.length := flagLoop_length hflags

/-- All the characters that are put. -/
def doprnt (radix : U32) (args : List VaArg) : List U8 → Option (List U8)
  | [] => none
  | c :: fmt =>
    if c = 0#8 then some []
    else if c ≠ percent then (doprnt radix args fmt).map (c :: ·)
    else
      match _h : readConv args fmt with
      | some (t, args, k :: fmt) =>
        (convert radix t args k).bind fun (out, args) =>
          if k = 0#8 then some out else (doprnt radix args fmt).map (out ++ ·)
      | _ => none
termination_by fmt => fmt.length
decreasing_by
  · exact Nat.lt_succ_self _
  · have hlength := readConv_length ‹_›
    simp only [List.length_cons] at hlength ⊢
    omega

end N7OS.Doprnt
