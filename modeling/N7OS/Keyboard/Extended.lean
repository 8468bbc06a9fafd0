import N7OS.Keyboard.Channel

/-! # Extended scancodes

A key of the extended set sends `0xE0` before its code. The handler keeps no
prefix state: it drops the `0xE0` and takes the code for that of a plain key.
-/
namespace N7OS

abbrev extendedPrefix : U8 := 0xE0#8

/-- `keyboard_handler_C` on one byte after the other. -/
def keyboardStream (stream : List U8) (k : Keyboard) : Keyboard :=
  stream.foldl (fun k scancode => keyboardHandlerC scancode k) k

/-- The stream with every pair `0xE0, b` removed. -/
def withoutExtended : List U8 → List U8
  | [] => []
  | [c] => [c]
  | c :: b :: rest => if c = extendedPrefix then withoutExtended rest else c :: withoutExtended (b :: rest)

/-- The same ring contents, head and Shift state. -/
structure SameTyped (a b : Keyboard) : Prop where
  buffer : a.kbdBuffer = b.kbdBuffer
  head : a.kbdHead = b.kbdHead
  shift : a.shiftPressed = b.shiftPressed

/-- The byte would do nothing as the code of a plain key: it does not change the Shift
state, and it stands for no character or the ring is full. -/
def NoEffect (k : Keyboard) (b : U8) : Prop :=
  shiftAfter k.shiftPressed b = k.shiftPressed ∧
    (decodeKey k.shiftPressed b = none ∨ nextIndex k.kbdHead = k.kbdTail)

/-- Every byte after a prefix finds a keyboard on which it has no effect. -/
def ExtendedHarmless : Keyboard → List U8 → Prop
  | _, [] => True
  | _, [_] => True
  | k, c :: b :: rest =>
    if c = extendedPrefix then NoEffect k b ∧ ExtendedHarmless k rest
    else ExtendedHarmless (keyboardHandlerC c k) (b :: rest)

section
variable {k : Keyboard} {b c : U8} {stream rest : List U8}

@[simp] theorem keyboardStream_cons (c : U8) (rest : List U8) (k : Keyboard) :
    keyboardStream (c :: rest) k = keyboardStream rest (keyboardHandlerC c k) := rfl

@[simp] theorem keyboardHandlerC_extended (k : Keyboard) : keyboardHandlerC extendedPrefix k = k := rfl

@[simp] theorem withoutExtended_pair (b : U8) (rest : List U8) :
    withoutExtended (extendedPrefix :: b :: rest) = withoutExtended rest := by
  simp [withoutExtended]

theorem withoutExtended_plain (h : c ≠ extendedPrefix) (rest : List U8) :
    withoutExtended (c :: rest) = c :: withoutExtended rest := by
  cases rest with
  | nil => rfl
  | cons b rest => simp [withoutExtended, h]

theorem nextIndex_ne (i : U32) : nextIndex i ≠ i := by
  intro h
  have hmask : (nextIndex i).toNat = (i.toNat + 1) % 64 := by
    rw [nextIndex, BitVec.toNat_and, show (0x3F#32).toNat = 2 ^ 6 - 1 by rfl, Nat.and_two_pow_sub_one_eq_mod,
      BitVec.toNat_add]
    simp only [BitVec.reduceToNat]
    omega
  rw [h] at hmask
  omega

/-- A push that finds room moves the head. -/
theorem kbdBufferPush_head (c : U8) (k : Keyboard) :
    (kbdBufferPush c k).kbdHead = k.kbdHead ↔ nextIndex k.kbdHead = k.kbdTail := by
  unfold kbdBufferPush
  by_cases hfull : nextIndex k.kbdHead = k.kbdTail
  · simp [hfull]
  · simp [hfull, nextIndex_ne]

theorem kbdBufferPush_full (h : nextIndex k.kbdHead = k.kbdTail) (c : U8) : kbdBufferPush c k = k := by
  simp [kbdBufferPush, h]

theorem keyboardHandlerC_of_noEffect (h : NoEffect k b) : keyboardHandlerC b k = k := by
  obtain ⟨hshift, hkey⟩ := h
  rw [keyboardHandlerC_eq, hshift]
  rcases hkey with hnone | hfull
  · simp [hnone]
  · cases decodeKey k.shiftPressed b with
    | none => rfl
    | some key => simp [kbdBufferPush_full hfull]

/-- What the handler leaves visibly alone it leaves alone. -/
theorem noEffect_of_same (h : SameTyped (keyboardHandlerC b k) k) : NoEffect k b := by
  obtain ⟨-, hhead, hshift⟩ := h
  rw [keyboardHandlerC_eq] at hhead hshift
  refine ⟨hshift, ?_⟩
  cases hkey : decodeKey k.shiftPressed b with
  | none => exact .inl rfl
  | some key =>
    simp only [hkey, Option.elim_some] at hhead
    exact .inr ((kbdBufferPush_head key k).mp hhead)

theorem keyboardStream_of_harmless (h : ExtendedHarmless k stream) :
    keyboardStream stream k = keyboardStream (withoutExtended stream) k := by
  fun_induction ExtendedHarmless k stream with
  | case1 => rfl
  | case2 => rfl
  | case3 k b rest ih =>
    rw [withoutExtended_pair, keyboardStream_cons, keyboardStream_cons, keyboardHandlerC_extended,
      keyboardHandlerC_of_noEffect h.1]
    exact ih h.2
  | case4 k c b rest hc ih =>
    rw [withoutExtended_plain hc, keyboardStream_cons, keyboardStream_cons]
    exact ih h

@[simp] theorem harmless_nil (k : Keyboard) : ExtendedHarmless k [] := by
  simp [ExtendedHarmless]

@[simp] theorem harmless_single (k : Keyboard) (c : U8) : ExtendedHarmless k [c] := by
  simp [ExtendedHarmless]

theorem harmless_of_start {p : List U8} (hp : p <+: stream) (h : ExtendedHarmless k stream) : ExtendedHarmless k p := by
  fun_induction ExtendedHarmless k stream generalizing p with
  | case1 k =>
    have hnil := List.prefix_nil.mp hp
    simp [hnil]
  | case2 k c =>
    rcases p with _ | ⟨x, p⟩
    · simp
    · have hnil := List.prefix_nil.mp (List.cons_prefix_cons.mp hp).2
      simp [hnil]
  | case3 k b rest ih =>
    rcases p with _ | ⟨x, _ | ⟨y, p⟩⟩
    · simp
    · simp
    · obtain ⟨hx, hp⟩ := List.cons_prefix_cons.mp hp
      obtain ⟨hy, hp⟩ := List.cons_prefix_cons.mp hp
      rw [ExtendedHarmless, if_pos hx, hy]
      exact ⟨h.1, ih hp h.2⟩
  | case4 k c b rest hc ih =>
    rcases p with _ | ⟨x, _ | ⟨y, p⟩⟩
    · simp
    · simp
    · obtain ⟨hx, hp⟩ := List.cons_prefix_cons.mp hp
      rw [ExtendedHarmless, if_neg (hx ▸ hc), hx]
      exact ih hp h

theorem harmless_of_prefixes
    (h : ∀ p, p <+: stream → SameTyped (keyboardStream p k) (keyboardStream (withoutExtended p) k)) :
    ExtendedHarmless k stream := by
  fun_induction ExtendedHarmless k stream with
  | case1 => trivial
  | case2 => trivial
  | case3 k b rest ih =>
    have hpair : ∀ p, p <+: rest →
        SameTyped (keyboardStream p (keyboardHandlerC b k)) (keyboardStream (withoutExtended p) k) := by
      intro p hp
      have hsame := h (extendedPrefix :: b :: p)
        (List.cons_prefix_cons.mpr ⟨rfl, List.cons_prefix_cons.mpr ⟨rfl, hp⟩⟩)
      rwa [withoutExtended_pair] at hsame
    have hnone : NoEffect k b := noEffect_of_same (hpair [] List.nil_prefix)
    rw [keyboardHandlerC_of_noEffect hnone] at hpair
    exact ⟨hnone, ih hpair⟩
  | case4 k c b rest hc ih =>
    apply ih
    intro p hp
    have hsame := h (c :: p) (List.cons_prefix_cons.mpr ⟨rfl, hp⟩)
    rwa [withoutExtended_plain hc] at hsame

end

/-- As bytes arrive, the extended ones among them leave no trace exactly when each of
them happens to have no effect as a plain code. -/
theorem extendedIgnored_iff (k : Keyboard) (stream : List U8) :
    (∀ p, p <+: stream → SameTyped (keyboardStream p k) (keyboardStream (withoutExtended p) k)) ↔
      ExtendedHarmless k stream := by
  constructor
  · exact harmless_of_prefixes
  · intro h p hp
    rw [keyboardStream_of_harmless (harmless_of_start hp h)]
    exact ⟨rfl, rfl, rfl⟩

/-- Print Screen, `0xE0 0x37`, types a star. -/
theorem extended_key_types :
    ¬∀ stream, SameTyped (keyboardStream stream .boot) (keyboardStream (withoutExtended stream) .boot) := by
  intro h
  have hhead := (h [extendedPrefix, 0x37#8]).head
  exact absurd hhead (by decide)

end N7OS
