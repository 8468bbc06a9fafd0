import N7OS.Foundation.Execution
import N7OS.Foundation.RingQueue
import N7OS.Keyboard.Handler

/-! # The keyboard as a channel

Interrupts run whole between the statements of one consumer that calls `kgetch`
again and again. The channel records what its two ends see: the characters
accepted, how many of them `kbd_tail` has moved past, and those `kgetch` has
returned.
-/
namespace N7OS
open Execution RingQueue

/-- The next statement of `kgetch`, or none between two calls. -/
inductive KgetchPc
  | between
  | test
  | sti
  | hlt
  | read
  | store (c : U8)
  | ret (c : U8)

structure Typing where
  keyboard : Keyboard
  pc : KgetchPc

inductive TypingEvent
  | irq (scancode : U8)
  | statement
  | release
  | ret (c : U8)

inductive TypingStep : Typing → TypingEvent → Typing → Prop
  | irq (k : Keyboard) (pc : KgetchPc) (scancode : U8) :
      TypingStep ⟨k, pc⟩ (.irq scancode) ⟨keyboardHandlerC scancode k, pc⟩
  | call (k : Keyboard) : TypingStep ⟨k, .between⟩ .statement ⟨k, .test⟩
  | empty (k : Keyboard) : k.kbdHead = k.kbdTail → TypingStep ⟨k, .test⟩ .statement ⟨k, .sti⟩
  | sti (k : Keyboard) : TypingStep ⟨k, .sti⟩ .statement ⟨k, .hlt⟩
  | hlt (k : Keyboard) : TypingStep ⟨k, .hlt⟩ .statement ⟨k, .test⟩
  | ready (k : Keyboard) : k.kbdHead ≠ k.kbdTail → TypingStep ⟨k, .test⟩ .statement ⟨k, .read⟩
  | read (k : Keyboard) :
      TypingStep ⟨k, .read⟩ .statement ⟨k, .store (k.kbdBuffer k.kbdTail.toNat)⟩
  | store (k : Keyboard) (c : U8) :
      TypingStep ⟨k, .store c⟩ .release ⟨{ k with kbdTail := nextIndex k.kbdTail }, .ret c⟩
  | ret (k : Keyboard) (c : U8) : TypingStep ⟨k, .ret c⟩ (.ret c) ⟨k, .between⟩

/-- The character a scancode stands for, if it is the press of an ASCII key. -/
def decodeKey (shift : Bool) (scancode : U8) : Option U8 :=
  if scancode = shiftPressedCode ∨ scancode = rshiftPressedCode then none
  else if scancode = shiftReleasedCode ∨ scancode = rshiftReleasedCode then none
  else if scancode &&& 0x80#8 ≠ 0#8 then none
  else if h : scancode.toNat < 89 then
    let key := if shift then scancodeMapShift[scancode.toNat] else scancodeMap[scancode.toNat]
    if key ≠ 0#16 ∧ key.toNat ≤ 0xFF then some (key.setWidth 8) else none
  else none

def shiftAfter (shift : Bool) (scancode : U8) : Bool :=
  if scancode = shiftPressedCode ∨ scancode = rshiftPressedCode then true
  else if scancode = shiftReleasedCode ∨ scancode = rshiftReleasedCode then false
  else shift

/-- A first-in first-out channel of capacity 63. -/
structure Channel where
  shift : Bool
  accepted : List U8
  released : ℕ
  returned : List U8

namespace Channel

def empty : Channel := ⟨false, [], 0, []⟩

def offer (c : Option U8) (ch : Channel) : List U8 :=
  match c with
  | none => ch.accepted
  | some c => if ch.accepted.length - ch.released = 63 then ch.accepted else ch.accepted ++ [c]

def step (ch : Channel) : TypingEvent → Channel
  | .irq scancode =>
    { ch with
      shift := shiftAfter ch.shift scancode
      accepted := ch.offer (decodeKey ch.shift scancode) }
  | .statement => ch
  | .release => { ch with released := ch.released + 1 }
  | .ret c => { ch with returned := ch.returned ++ [c] }

def observed (events : List TypingEvent) : Channel := events.foldl step empty

def pending (ch : Channel) : List U8 := ch.accepted.drop ch.released

end Channel

/-- What the consumer holds at each statement. -/
def InHand (ch : Channel) : KgetchPc → Prop
  | .ret c => ch.accepted.take ch.released = ch.returned ++ [c]
  | .store c => ch.pending.head? = some c ∧ ch.accepted.take ch.released = ch.returned
  | .read => ch.pending ≠ [] ∧ ch.accepted.take ch.released = ch.returned
  | _ => ch.accepted.take ch.released = ch.returned

structure ChannelInv (ch : Channel) (s : Typing) : Prop where
  shift : s.keyboard.shiftPressed = ch.shift
  ring : Holds 64 s.keyboard.kbdBuffer s.keyboard.kbdHead.toNat s.keyboard.kbdTail.toNat ch.pending
  released : ch.released ≤ ch.accepted.length
  hand : InHand ch s.pc

variable {ch : Channel} {s t : Typing} {k : Keyboard} {e : TypingEvent}

theorem kbdBufferPush_shift (c : U8) (k : Keyboard) : (kbdBufferPush c k).shiftPressed = k.shiftPressed := by
  rw [kbdBufferPush]
  split <;> rfl

/-- The handler tracks Shift and offers what it decodes to the ring. -/
theorem keyboardHandlerC_eq (scancode : U8) (k : Keyboard) :
    keyboardHandlerC scancode k =
      { ((decodeKey k.shiftPressed scancode).elim k (fun c => kbdBufferPush c k)) with
        shiftPressed := shiftAfter k.shiftPressed scancode } := by
  rw [keyboardHandlerC, decodeKey, shiftAfter]
  by_cases hp : scancode = shiftPressedCode ∨ scancode = rshiftPressedCode
  · rw [if_pos hp, if_pos hp, if_pos hp]
    rfl
  by_cases hr : scancode = shiftReleasedCode ∨ scancode = rshiftReleasedCode
  · rw [if_neg hp, if_pos hr, if_neg hp, if_pos hr, if_neg hp, if_pos hr]
    rfl
  rw [if_neg hp, if_neg hr, if_neg hp, if_neg hr, if_neg hp, if_neg hr]
  by_cases hrel : scancode &&& 0x80#8 ≠ 0#8
  · rw [if_pos hrel, if_pos hrel]
    rfl
  rw [if_neg hrel, if_neg hrel]
  by_cases hmap : scancode.toNat < 89
  · rw [dif_pos hmap, dif_pos hmap]
    generalize (if k.shiftPressed then scancodeMapShift[scancode.toNat] else scancodeMap[scancode.toNat]) = key
    by_cases hkey : key ≠ 0#16 ∧ key.toNat ≤ 0xFF
    · simp only [if_pos hkey, Option.elim_some]
      rw [← kbdBufferPush_shift (key.setWidth 8) k]
    · simp only [if_neg hkey, Option.elim_none]
  · rw [dif_neg hmap, dif_neg hmap]
    rfl

theorem holds_push {q : List U8} (h : Holds 64 k.kbdBuffer k.kbdHead.toNat k.kbdTail.toNat q) (c : U8) :
    Holds 64 (kbdBufferPush c k).kbdBuffer (kbdBufferPush c k).kbdHead.toNat
      (kbdBufferPush c k).kbdTail.toNat (if q.length = 63 then q else q ++ [c]) := by
  have hnext : nextIndex k.kbdHead ≠ k.kbdTail ↔ q.length ≠ 63 := by
    rw [Ne, ← BitVec.toNat_inj, toNat_nextIndex h.head_lt, h.full_iff]
  rw [kbdBufferPush]
  by_cases hq : q.length = 63
  · rw [if_pos hq, if_neg (fun hn => hnext.mp hn hq)]
    exact h
  · rw [if_neg hq, if_pos (hnext.mpr hq)]
    have hlt := h.length_lt
    have hpush := h.push c (by omega)
    rwa [← toNat_nextIndex h.head_lt] at hpush

theorem Channel.pending_length (ch : Channel) : ch.pending.length = ch.accepted.length - ch.released :=
  List.length_drop

theorem Channel.offer_some (ch : Channel) (c : U8) :
    ch.offer (some c) = if ch.pending.length = 63 then ch.accepted else ch.accepted ++ [c] := by
  rw [Channel.pending_length]
  rfl

theorem Channel.drop_offer_some (hr : ch.released ≤ ch.accepted.length) (c : U8) :
    (ch.offer (some c)).drop ch.released =
      if ch.pending.length = 63 then ch.pending else ch.pending ++ [c] := by
  rw [Channel.offer_some]
  split
  · rfl
  · exact List.drop_append_of_le_length hr

/-- Accepting a character changes neither what was accepted before nor its order. -/
theorem Channel.offer_prefix (ch : Channel) (c : Option U8) : ch.accepted <+: ch.offer c := by
  cases c with
  | none => exact List.prefix_rfl
  | some c =>
    rw [Channel.offer_some]
    split
    · exact List.prefix_rfl
    · exact List.prefix_append _ _

theorem handler_holds (h : ChannelInv ch s) (scancode : U8) :
    let k := keyboardHandlerC scancode s.keyboard
    k.shiftPressed = shiftAfter ch.shift scancode ∧
      Holds 64 k.kbdBuffer k.kbdHead.toNat k.kbdTail.toNat
        ((ch.offer (decodeKey ch.shift scancode)).drop ch.released) := by
  intro k
  have hk : k = _ := keyboardHandlerC_eq scancode s.keyboard
  rw [h.shift] at hk
  refine ⟨by rw [hk], ?_⟩
  rw [hk]
  cases decodeKey ch.shift scancode with
  | none => exact h.ring
  | some c =>
    rw [Channel.drop_offer_some h.released]
    exact holds_push h.ring c

/-- An interrupt leaves alone what the consumer has read so far. -/
theorem inHand_offer (hr : ch.released ≤ ch.accepted.length) {c : Option U8} {shift : Bool}
    {pc : KgetchPc} (h : InHand ch pc) :
    InHand { ch with shift := shift, accepted := ch.offer c } pc := by
  obtain ⟨tail, hoffer⟩ := ch.offer_prefix c
  have htake : (ch.offer c).take ch.released = ch.accepted.take ch.released := by
    rw [← hoffer, List.take_append_of_le_length hr]
  have hdrop : (ch.offer c).drop ch.released = ch.pending ++ tail := by
    rw [← hoffer, List.drop_append_of_le_length hr]
    rfl
  cases pc with
  | read =>
    refine ⟨?_, htake.trans h.2⟩
    rw [Channel.pending, hdrop]
    exact List.append_ne_nil_of_left_ne_nil h.1 _
  | store d =>
    refine ⟨?_, htake.trans h.2⟩
    rw [Channel.pending, hdrop]
    obtain ⟨rest, hrest⟩ := List.head?_eq_some_iff.mp h.1
    rw [hrest]
    rfl
  | ret d => exact htake.trans h
  | _ => exact htake.trans h

theorem channelInv_step (h : ChannelInv ch s) (hs : TypingStep s e t) : ChannelInv (ch.step e) t := by
  cases hs with
  | irq k pc scancode =>
    obtain ⟨hshift, hring⟩ := handler_holds h scancode
    exact ⟨hshift, hring, h.released.trans (ch.offer_prefix _).length_le, inHand_offer h.released h.hand⟩
  | call k => exact ⟨h.shift, h.ring, h.released, h.hand⟩
  | empty k he => exact ⟨h.shift, h.ring, h.released, h.hand⟩
  | sti k => exact ⟨h.shift, h.ring, h.released, h.hand⟩
  | hlt k => exact ⟨h.shift, h.ring, h.released, h.hand⟩
  | ready k hne =>
    have hq : ch.pending ≠ [] := fun hq => hne (BitVec.eq_of_toNat_eq (h.ring.empty_iff.mpr hq))
    exact ⟨h.shift, h.ring, h.released, hq, h.hand⟩
  | read k =>
    obtain ⟨hq, htake⟩ := h.hand
    obtain ⟨c, rest, hrest⟩ := List.exists_cons_of_ne_nil hq
    have hring := h.ring
    rw [hrest] at hring
    refine ⟨h.shift, h.ring, h.released, ?_, htake⟩
    rw [hring.front]
    exact List.head?_eq_some_iff.mpr ⟨rest, hrest⟩
  | store k c =>
    obtain ⟨hhead, htake⟩ := h.hand
    obtain ⟨rest, hrest⟩ := List.head?_eq_some_iff.mp hhead
    have hring := h.ring
    rw [hrest] at hring
    have hpop := hring.pop
    rw [← toNat_nextIndex hring.tail_lt] at hpop
    have hlt : ch.released < ch.accepted.length := by
      have hlen := congrArg List.length hrest
      rw [Channel.pending_length, List.length_cons] at hlen
      omega
    have hdrop : ch.accepted.drop ch.released = ch.accepted[ch.released] :: ch.accepted.drop (ch.released + 1) :=
      List.drop_eq_getElem_cons hlt
    obtain ⟨hc, hr⟩ := List.cons.inj (hdrop.symm.trans hrest)
    refine ⟨h.shift, ?_, hlt, ?_⟩
    · change Holds 64 k.kbdBuffer _ _ (ch.accepted.drop (ch.released + 1))
      rw [hr]
      exact hpop
    · change ch.accepted.take (ch.released + 1) = ch.returned ++ [c]
      rw [← List.take_append_getElem hlt, hc, htake]
  | ret k c => exact ⟨h.shift, h.ring, h.released, h.hand⟩

theorem channelInv_boot : ChannelInv .empty ⟨.boot, .between⟩ :=
  ⟨rfl, holds_nil (by decide), Nat.le_refl _, rfl⟩

theorem channelInv_run {events : List TypingEvent} (h : Runs TypingStep ⟨.boot, .between⟩ events s) :
    ChannelInv (.observed events) s := by
  refine h.history_nil (fun past s => ChannelInv (.observed past) s) ?_ channelInv_boot
  intro past s e t hinv hstep
  rw [Channel.observed, List.foldl_append]
  exact channelInv_step hinv hstep

theorem ChannelInv.returned_prefix (h : ChannelInv ch s) :
    ch.returned <+: ch.accepted.take ch.released := by
  obtain ⟨_, _, _, hand⟩ := h
  cases hpc : s.pc with
  | ret c =>
    rw [hpc] at hand
    exact ⟨[c], hand.symm⟩
  | store c =>
    rw [hpc] at hand
    rw [hand.2]
  | read =>
    rw [hpc] at hand
    rw [hand.2]
  | _ =>
    rw [hpc] at hand
    exact hand ▸ List.prefix_rfl

theorem ChannelInv.released_le (h : ChannelInv ch s) : ch.released ≤ ch.returned.length + 1 := by
  obtain ⟨_, _, hle, hand⟩ := h
  rw [← List.length_take_of_le hle]
  cases hpc : s.pc with
  | ret c =>
    rw [hpc] at hand
    rw [hand, List.length_append, List.length_singleton]
  | store c =>
    rw [hpc] at hand
    rw [hand.2]
    exact Nat.le_succ _
  | read =>
    rw [hpc] at hand
    rw [hand.2]
    exact Nat.le_succ _
  | _ =>
    rw [hpc] at hand
    exact hand ▸ Nat.le_succ _

/-- Nothing is lost, doubled, reordered or overwritten between the two ends. -/
theorem typing_fifo {events : List TypingEvent} (h : Runs TypingStep ⟨.boot, .between⟩ events s) :
    let ch := Channel.observed events
    ch.returned <+: ch.accepted.take ch.released ∧ ch.released ≤ ch.accepted.length ∧
      ch.released ≤ ch.returned.length + 1 ∧ ch.pending.length ≤ 63 ∧
      s.keyboard.shiftPressed = ch.shift ∧
      (∀ i (hi : i < ch.pending.length),
        s.keyboard.kbdBuffer ((s.keyboard.kbdTail.toNat + i) % 64) = ch.pending[i]) ∧
      (kbdHasInput s.keyboard = true ↔ ch.released < ch.accepted.length) := by
  intro ch
  have hinv : ChannelInv ch s := channelInv_run h
  have hlen := ch.pending_length
  have hpending : kbdHasInput s.keyboard = true ↔ ch.released < ch.accepted.length := by
    rw [kbdHasInput, bne_iff_ne, Ne, ← BitVec.toNat_inj, hinv.ring.empty_iff, ← List.length_eq_zero_iff]
    omega
  have hlt := hinv.ring.length_lt
  exact ⟨hinv.returned_prefix, hinv.released, hinv.released_le, by omega, hinv.shift, hinv.ring.cells, hpending⟩

theorem typing_fifo_q :
    Runs TypingStep ⟨.boot, .between⟩ [.irq 0x1E#8, .statement, .statement]
        ⟨keyboardHandlerC 0x1E#8 .boot, .read⟩ ∧
      (kbdHasInput (keyboardHandlerC 0x1E#8 .boot) = true ↔
        (Channel.observed [.irq 0x1E#8, .statement, .statement]).released <
          (Channel.observed [.irq 0x1E#8, .statement, .statement]).accepted.length) := by
  have hrun : Runs TypingStep ⟨.boot, .between⟩ [.irq 0x1E#8, .statement, .statement]
      ⟨keyboardHandlerC 0x1E#8 .boot, .read⟩ :=
    .cons (.irq _ _ _) (.cons (.call _) (.cons (.ready _ (by decide)) (.nil _)))
  exact ⟨hrun, (typing_fifo hrun).2.2.2.2.2.2⟩

end N7OS
