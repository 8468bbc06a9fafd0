import N7OS.Lib.Atoi

/-! # `strtol` and `strtoul`

The readers of numbers of `lib/strtol.c` and `lib/strtoul.c`, with the classes of
`lib/ctype.c`. They return the value and what `*out_p` points to. A `long` is kept
modulo `2 ^ 32`.
-/
namespace N7OS.Strtol

def isspace (c : U8) : Bool :=
  c = 0x20#8 || c = 0x0C#8 || c = 0x0A#8 || c = 0x0D#8 || c = 0x09#8 || c = 0x0B#8

def isalpha (c : U8) : Bool := decide (97 ≤ c.toInt ∧ c.toInt ≤ 122) || decide (65 ≤ c.toInt ∧ c.toInt ≤ 90)

def isalnum (c : U8) : Bool := isdigit c || isalpha c

/-- `while (isspace(*p)) p++`. -/
def skipSpace : List U8 → Option (List U8)
  | [] => none
  | c :: p => if isspace c then skipSpace p else some (c :: p)

/-- `is_neg`, and `p` after the sign. A plus sign is not stepped over. -/
def readSign : List U8 → Option (Bool × List U8)
  | [] => none
  | c :: p =>
    if c = 0x2D#8 then some (true, p)
    else if c = 0x2B#8 then some (false, c :: p)
    else some (false, c :: p)

/-- `p += 2; base = 16` where `0x` is allowed. -/
def skipHex (base : ℤ) : List U8 → Option (ℤ × List U8)
  | [] => if base = 16 ∨ base = 0 then none else some (base, [])
  | c :: p =>
    if (base = 16 ∨ base = 0) ∧ c = 0x30#8 then
      match p with
      | [] => none
      | d :: rest => if d = 0x78#8 ∨ d = 0x58#8 then some (16, rest) else some (base, c :: p)
    else some (base, c :: p)

def chooseBase (base : ℤ) (p : List U8) : Option ℤ :=
  if base = 0 then p.head?.map fun c => if c = 0x30#8 then 8 else 10 else some base

def digitIn (base : ℤ) (c : U8) : Option ℤ :=
  if 48 ≤ c.toInt ∧ c.toInt ≤ 57 ∧ c.toInt - 48 < base then some (c.toInt - 48)
  else if 97 ≤ c.toInt ∧ c.toInt ≤ 122 ∧ c.toInt - 97 + 10 < base then some (c.toInt - 97 + 10)
  else if 65 ≤ c.toInt ∧ c.toInt ≤ 90 ∧ c.toInt - 65 + 10 < base then some (c.toInt - 65 + 10)
  else none

/-- The loop that ends with a `break`. -/
def digitsLoop (base : ℤ) (v : U32) : List U8 → Option (U32 × List U8)
  | [] => none
  | c :: p =>
    match digitIn base c with
    | some d => digitsLoop base (v * BitVec.ofInt 32 base + BitVec.ofInt 32 d) p
    | none => some (v, c :: p)

/-- What the two functions have in common after the sign. -/
def readNumber (base : ℤ) (p : List U8) : Option (U32 × List U8) :=
  (skipHex base p).bind fun (base, p) => (chooseBase base p).bind fun base => digitsLoop base 0#32 p

def strtol (p : List U8) (base : ℤ) : Option (U32 × List U8) :=
  (skipSpace p).bind fun p =>
    (readSign p).bind fun (isNeg, p) =>
      (readNumber base p).map fun (v, p) => (if isNeg then -v else v, p)

def strtoul (p : List U8) (base : ℤ) : Option (U32 × List U8) := (skipSpace p).bind (readNumber base)

end N7OS.Strtol
