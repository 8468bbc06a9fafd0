import N7OS.Foundation.MemoryFrame
import N7OS.Machine.Integers

/-! # The gate of the system calls

`handler_syscall.S`, the table of `kernel/syscall_defs.c` and the wrappers of `unistd.h`.
The arguments go through the registers of the caller to the stack of a C function, which
owns them there; the registers are taken back from the same words.
-/
namespace N7OS.Dispatch
open ByteMemory

/-! ## The processor -/

inductive Gpr
  | eax
  | ebx
  | ecx
  | edx
  | esp
  | ebp
  | esi
  | edi
deriving DecidableEq

@[ext] structure Core where
  gpr : Gpr → U32
  eip : U32
  eflags : U32
  cs : U16
  mem : Memory

namespace Core

def set (c : Core) (r : Gpr) (v : U32) : Core := { c with gpr := Function.update c.gpr r v }

def sp (c : Core) : ℕ := (c.gpr .esp).toNat

/-- The word at the stack pointer and an offset. -/
def word (c : Core) (k : ℕ) : U32 := load32 c.mem (c.sp + k)

def push (c : Core) (v : U32) : Core :=
  { c.set .esp (c.gpr .esp - 4#32) with mem := store32 c.mem (c.gpr .esp - 4#32).toNat v }

def pop (c : Core) (r : Gpr) : Core := (c.set .esp (c.gpr .esp + 4#32)).set r (c.word 0)

/-- Through an interrupt gate of the same privilege; the processor clears IF, TF, NT, RF and VM. -/
def intGate (c : Core) (handler next : U32) : Core :=
  { ((c.push c.eflags).push (c.cs.setWidth 32)).push next with
    eip := handler
    eflags := c.eflags &&& ~~~0x34300#32 }

def iret (c : Core) : Core :=
  { c.set .esp (c.gpr .esp + 12#32) with eip := c.word 0, cs := (c.word 4).setWidth 16, eflags := c.word 8 }

end Core

/-! ## The table -/

/-- The linker's symbols. -/
structure Symbols where
  syscallTable : ℕ
  sysExample : U32
  sysWrite : U32
  sysRead : U32

/-- `num < NB_SYSCALL` is a comparison of `int`. -/
def addSyscall (l : Symbols) (num : ℤ) (function : U32) (m : Memory) : Memory :=
  if num < 3 then store32 m ((l.syscallTable : ℤ) + 4 * num).toNat function else m

def initSyscall (l : Symbols) (m : Memory) : Memory :=
  addSyscall l 2 l.sysRead (addSyscall l 1 l.sysWrite (addSyscall l 0 l.sysExample m))

/-- The function of a number. -/
def Symbols.function (l : Symbols) (eax : U32) : U32 :=
  if eax = 0#32 then l.sysExample else if eax = 1#32 then l.sysWrite else l.sysRead

/-! ## The handler -/

/-- `nr_syscall`. -/
def nrSyscall : U32 := 3#32

/-- The arguments of the function. -/
def pushArguments (c : Core) : Core :=
  let c := c.push (c.gpr .edx)
  let c := c.push (c.gpr .ecx)
  c.push (c.gpr .ebx)

/-- The state in which the function of the table is entered; `back` is the address behind the `call`. -/
def called (l : Symbols) (back : U32) (c : Core) : Core :=
  let c := pushArguments c
  { c.push back with eip := load32 c.mem (l.syscallTable + 4 * (c.gpr .eax).toNat) }

/-- The flags that `cmpl` sets are lost in `iret`. The compiled functions are given by what they do until they return. -/
def handlerSyscall (l : Symbols) (compiled : U32 → Core → Core) (back : U32) (c : Core) : Core :=
  if nrSyscall - 1#32 < c.gpr .eax then (c.set .eax 0xFFFFFFFF#32).iret
  else
    let entry := called l back c
    let c := compiled entry.eip entry
    let c := c.pop .ebx
    let c := c.pop .ecx
    let c := c.pop .edx
    c.iret

/-- What a compiled function keeps: the registers of its caller, and the stack above its arguments. -/
structure Returns (c c' : Core) : Prop where
  esp : c'.gpr .esp = c.gpr .esp + 4#32
  saved : ∀ r ∈ [Gpr.ebx, .ebp, .esi, .edi], c'.gpr r = c.gpr r
  frame : ∀ k, 16 ≤ k → k < 28 → c'.mem (c.sp + k) = c.mem (c.sp + k)

section
variable {l : Symbols} {m m' : Memory} {c c' : Core} {v handler next back : U32} {r : Gpr} {k : ℕ}

theorem initSyscall_eq (l : Symbols) (m : Memory) : initSyscall l m =
    store32 (store32 (store32 m l.syscallTable l.sysExample) (l.syscallTable + 4) l.sysWrite) (l.syscallTable + 8)
      l.sysRead := by
  have h0 : ((l.syscallTable : ℤ) + 4 * 0).toNat = l.syscallTable := by omega
  have h1 : ((l.syscallTable : ℤ) + 4 * 1).toNat = l.syscallTable + 4 := by omega
  have h2 : ((l.syscallTable : ℤ) + 4 * 2).toNat = l.syscallTable + 8 := by omega
  simp only [initSyscall, addSyscall, h0, h1, h2]
  rfl

/-- The table of `init_syscall`. -/
theorem load32_initSyscall (l : Symbols) (m : Memory) {eax : U32} (h : ¬nrSyscall - 1#32 < eax) :
    load32 (initSyscall l m) (l.syscallTable + 4 * eax.toNat) = l.function eax := by
  have hle : eax.toNat ≤ 2 := BitVec.not_lt.mp h
  rw [initSyscall_eq]
  obtain h0 | h1 | h2 : eax = 0#32 ∨ eax = 1#32 ∨ eax = 2#32 := by
    have hcases : eax.toNat = 0 ∨ eax.toNat = 1 ∨ eax.toNat = 2 := by omega
    exact hcases.imp (fun h => BitVec.eq_of_toNat_eq h)
      (Or.imp (fun h => BitVec.eq_of_toNat_eq h) fun h => BitVec.eq_of_toNat_eq h)
  · subst h0
    rw [load32_store32_of_disjoint _ (by simp), load32_store32_of_disjoint _ (by simp)]
    exact load32_store32_same _ _ _
  · subst h1
    rw [load32_store32_of_disjoint _ (by simp)]
    exact load32_store32_same _ _ _
  · subst h2
    exact load32_store32_same _ _ _

/-! ## The stack -/

namespace Core

theorem push_gpr (h : r ≠ .esp) (c : Core) (v : U32) : (c.push v).gpr r = c.gpr r := Function.update_of_ne h _ _

theorem push_esp (c : Core) (v : U32) : (c.push v).gpr .esp = c.gpr .esp - 4#32 := by
  simp [push, set]

theorem push_sp (h : 4 ≤ c.sp) (v : U32) : (c.push v).sp = c.sp - 4 := by
  rw [sp, push_esp]
  exact BitVec.toNat_sub_of_le h

theorem push_word_zero (c : Core) (v : U32) : (c.push v).word 0 = v := by
  rw [word, sp, push_esp, Nat.add_zero]
  exact load32_store32_same _ _ _

theorem push_mem (h : 4 ≤ c.sp) (v : U32) : (c.push v).mem = store32 c.mem (c.sp - 4) v := by
  have hsub : (c.gpr .esp - 4#32).toNat = c.sp - 4 := BitVec.toNat_sub_of_le h
  rw [← hsub]
  rfl

theorem push_word (h : 4 ≤ c.sp) (v : U32) (k : ℕ) : (c.push v).word (k + 4) = c.word k := by
  rw [word, push_sp h, push_mem h, load32_store32_of_disjoint _ (by omega), word]
  exact congrArg (load32 c.mem) (by omega)

theorem push_sameOutside (h : 4 ≤ c.sp) (v : U32) : SameOutside (object (c.sp - 4) 4) c.mem (c.push v).mem := by
  rw [push_mem h]
  exact sameOutside_store32 _ _ _

/-- Three words, below what was there. -/
theorem pushes_frame (h : 12 ≤ c.sp) (u v w : U32) :
    let c' := ((c.push u).push v).push w
    c'.sp = c.sp - 12 ∧ (c'.word 0 = w ∧ c'.word 4 = v ∧ c'.word 8 = u ∧ ∀ k, c'.word (k + 12) = c.word k) ∧
      (∀ r, r ≠ .esp → c'.gpr r = c.gpr r) ∧ SameOutside (object (c.sp - 12) 12) c.mem c'.mem := by
  intro c'
  set c₁ := c.push u with hc₁
  set c₂ := c₁.push v with hc₂
  have h1 : c₁.sp = c.sp - 4 := push_sp (by omega) _
  have h2 : c₂.sp = c₁.sp - 4 := push_sp (by omega) _
  have h3 : c'.sp = c₂.sp - 4 := push_sp (c := c₂) (by omega) _
  have hfirst : ∀ k, c'.word (k + 4) = c₂.word k := fun k => push_word (c := c₂) (by omega) _ k
  have hsecond : ∀ k, c₂.word (k + 4) = c₁.word k := fun k => push_word (by omega) _ k
  have hthird : ∀ k, c₁.word (k + 4) = c.word k := fun k => push_word (by omega) _ k
  have hin : ∀ {b : Core}, 4 ≤ b.sp → c.sp - 12 ≤ b.sp - 4 → b.sp ≤ c.sp → ∀ x,
      SameOutside (object (c.sp - 12) 12) b.mem (b.push x).mem := fun h4 hlo hhi x =>
    (push_sameOutside h4 x).mono (object_subset hlo (by omega))
  have hmem₁ : SameOutside (object (c.sp - 12) 12) c.mem c₁.mem := hin (by omega) (by omega) le_rfl u
  have hmem₂ : SameOutside (object (c.sp - 12) 12) c₁.mem c₂.mem := hin (by omega) (by omega) (by omega) v
  refine ⟨h3.trans (by omega), ⟨push_word_zero c₂ w, ?_, ?_, ?_⟩, ?_, ?_⟩
  · exact (hfirst 0).trans (push_word_zero c₁ v)
  · exact (hfirst 4).trans ((hsecond 0).trans (push_word_zero c u))
  · exact fun k => (hfirst (k + 8)).trans ((hsecond (k + 4)).trans (hthird k))
  · exact fun r hr => (push_gpr hr c₂ w).trans ((push_gpr hr c₁ v).trans (push_gpr hr c u))
  · exact (hmem₁.trans hmem₂).trans (hin (by omega) (by omega) (by omega) w)

/-- A call with three words behind its return address. -/
theorem call_frame (h : 16 ≤ c.sp) (u v w back : U32) :
    let c' := (((c.push u).push v).push w).push back
    (c'.sp = c.sp - 16 ∧ c'.word 0 = back) ∧
      (c'.word 4 = w ∧ c'.word 8 = v ∧ c'.word 12 = u ∧ ∀ k, c'.word (k + 16) = c.word k) ∧
      (∀ r, r ≠ .esp → c'.gpr r = c.gpr r) ∧ SameOutside (object (c.sp - 16) 16) c.mem c'.mem := by
  intro c'
  obtain ⟨hsp, ⟨h0, h4, h8, hrest⟩, hgpr, hmem⟩ := pushes_frame (c := c) (by omega) u v w
  set a := ((c.push u).push v).push w with ha
  have hword : ∀ k, c'.word (k + 4) = a.word k := fun k => push_word (c := a) (by omega) back k
  refine ⟨⟨(push_sp (c := a) (by omega) back).trans (by omega), push_word_zero a back⟩, ?_, ?_, ?_⟩
  · exact ⟨(hword 0).trans h0, (hword 4).trans h4, (hword 8).trans h8, fun k => (hword (k + 12)).trans (hrest k)⟩
  · exact fun r hr => (push_gpr hr a back).trans (hgpr r hr)
  · exact (hmem.mono (object_subset (by omega) (by omega))).trans
      ((push_sameOutside (c := a) (by omega) back).mono (object_subset (by omega) (by omega)))

end Core

/-- The three words of the frame. -/
theorem intGate_frame (h : 12 ≤ c.sp) (handler next : U32) :
    (c.intGate handler next).sp = c.sp - 12 ∧ (c.intGate handler next).word 0 = next ∧
      (c.intGate handler next).word 4 = c.cs.setWidth 32 ∧ (c.intGate handler next).word 8 = c.eflags ∧
        SameOutside (object (c.sp - 12) 12) c.mem (c.intGate handler next).mem := by
  obtain ⟨hsp, ⟨h0, h4, h8, -⟩, -, hmem⟩ := Core.pushes_frame h c.eflags (c.cs.setWidth 32) next
  exact ⟨hsp, h0, h4, h8, hmem⟩

theorem intGate_gpr (h : r ≠ .esp) (c : Core) (handler next : U32) : (c.intGate handler next).gpr r = c.gpr r :=
  (Core.push_gpr h _ next).trans ((Core.push_gpr h _ _).trans (Core.push_gpr h _ _))

theorem pushArguments_sameOutside (h : 12 ≤ c.sp) :
    SameOutside (object (c.sp - 12) 12) c.mem (pushArguments c).mem :=
  (Core.pushes_frame h (c.gpr .edx) (c.gpr .ecx) (c.gpr .ebx)).2.2.2

theorem pushArguments_gpr (h : r ≠ .esp) (c : Core) : (pushArguments c).gpr r = c.gpr r :=
  (Core.push_gpr h _ _).trans ((Core.push_gpr h _ _).trans (Core.push_gpr h _ _))

namespace Core

theorem pop_gpr (c : Core) (r : Gpr) : (c.pop r).gpr r = c.word 0 := by
  simp [pop, set]

theorem pop_gpr_of_ne {q : Gpr} (hq : q ≠ r) (hesp : q ≠ .esp) (c : Core) : (c.pop r).gpr q = c.gpr q := by
  simp [pop, set, hq, hesp]

theorem pop_esp (h : r ≠ .esp) (c : Core) : (c.pop r).gpr .esp = c.gpr .esp + 4#32 := by
  simp [pop, set, h.symm]

theorem pop_sp (h : r ≠ .esp) (hsp : c.sp + 4 < 2 ^ 32) : (c.pop r).sp = c.sp + 4 := by
  rw [sp, pop_esp h, BitVec.toNat_add]
  exact Nat.mod_eq_of_lt hsp

theorem pop_word (h : r ≠ .esp) (hsp : c.sp + 4 < 2 ^ 32) (k : ℕ) : (c.pop r).word k = c.word (k + 4) := by
  rw [word, pop_sp h hsp, word]
  exact congrArg (load32 c.mem) (by omega)

/-- Three words taken back and the way out, over the frame of the interrupted state. -/
theorem pops_iret {r₁ r₂ r₃ : Gpr} (h₁ : r₁ ≠ .esp) (h₂ : r₂ ≠ .esp) (h₃ : r₃ ≠ .esp) {a : Core} {next : U32}
    (h : 28 ≤ c.sp) (hsp : a.sp = c.sp - 24)
    (hwords : a.word 12 = next ∧ a.word 16 = c.cs.setWidth 32 ∧ a.word 20 = c.eflags) :
    (((a.pop r₁).pop r₂).pop r₃).iret =
      ⟨fun q => if q = .esp then c.gpr .esp else if q = r₃ then a.word 8 else if q = r₂ then a.word 4
        else if q = r₁ then a.word 0 else a.gpr q, next, c.eflags, c.cs, a.mem⟩ := by
  have hlt : c.sp < 2 ^ 32 := (c.gpr .esp).isLt
  set a₁ := a.pop r₁ with ha₁
  set a₂ := a₁.pop r₂ with ha₂
  have h1 : a₁.sp = a.sp + 4 := pop_sp h₁ (by omega)
  have h2 : a₂.sp = a₁.sp + 4 := pop_sp h₂ (by omega)
  have hword₁ : ∀ k, a₁.word k = a.word (k + 4) := pop_word h₁ (by omega)
  have hword₂ : ∀ k, a₂.word k = a₁.word (k + 4) := pop_word (c := a₁) h₂ (by omega)
  have hword₃ : ∀ k, (a₂.pop r₃).word k = a₂.word (k + 4) := pop_word (c := a₂) h₃ (by omega)
  have hword : ∀ k, (a₂.pop r₃).word k = a.word (k + 12) := fun k => (hword₃ k).trans ((hword₂ _).trans (hword₁ _))
  have hesp : (a₂.pop r₃).gpr .esp + 12#32 = c.gpr .esp := by
    apply BitVec.eq_of_toNat_eq
    have h3 : (a₂.pop r₃).sp = a₂.sp + 4 := pop_sp (c := a₂) h₃ (by omega)
    rw [BitVec.toNat_add]
    change ((a₂.pop r₃).sp + 12) % 2 ^ 32 = c.sp
    omega
  obtain ⟨hnext, hcs, hflags⟩ := hwords
  ext1
  · funext q
    by_cases hq : q = .esp
    · subst hq
      simpa [iret, set] using hesp
    · have hiret : (a₂.pop r₃).iret.gpr q = (a₂.pop r₃).gpr q := by simp [iret, set, hq]
      rw [hiret]
      simp only [if_neg hq]
      split_ifs with hq₃ hq₂ hq₁
      · exact hq₃ ▸ (pop_gpr a₂ r₃).trans ((hword₂ 0).trans (hword₁ 4))
      · exact (pop_gpr_of_ne hq₃ hq a₂).trans (hq₂ ▸ (pop_gpr a₁ r₂).trans (hword₁ 0))
      · exact (pop_gpr_of_ne hq₃ hq a₂).trans ((pop_gpr_of_ne hq₂ hq a₁).trans (hq₁ ▸ pop_gpr a r₁))
      · exact (pop_gpr_of_ne hq₃ hq a₂).trans
          ((pop_gpr_of_ne hq₂ hq a₁).trans (pop_gpr_of_ne hq₁ hq a))
  · exact (hword 0).trans hnext
  · exact (hword 8).trans hflags
  · change ((a₂.pop r₃).word 4).setWidth 16 = c.cs
    rw [hword 4, hcs, BitVec.setWidth_setWidth_of_le _ (by decide), BitVec.setWidth_eq]
  · rfl

end Core

/-- Behind the return of the function, its caller finds its own words. -/
theorem Returns.frame_words {entry a : Core} (h : 28 ≤ c.sp) (hentry : entry.sp = c.sp - 28) (ha : Returns entry a) :
    a.sp = c.sp - 24 ∧ ∀ k, 12 ≤ k → k ≤ 20 → a.word k = entry.word (k + 4) := by
  have hlt : c.sp < 2 ^ 32 := (c.gpr .esp).isLt
  have hasp : a.sp = entry.sp + 4 := by
    rw [Core.sp, ha.esp, BitVec.toNat_add]
    exact Nat.mod_eq_of_lt (by unfold Core.sp at hentry hlt h; change (entry.gpr .esp).toNat + 4 < 2 ^ 32; omega)
  refine ⟨by omega, fun k hlo hhi => ?_⟩
  rw [Core.word, Core.word, hasp, Nat.add_assoc, Nat.add_comm 4 k]
  refine load32_congr fun x hx hx' => ?_
  obtain ⟨j, rfl⟩ := Nat.exists_eq_add_of_le (show entry.sp ≤ x by omega)
  exact ha.frame j (by omega) (by omega)

/-- The way back is the way in, over whatever the function has left in the words of its arguments. -/
theorem handler_return {entry a : Core} (h : 28 ≤ c.sp) (hentry : entry.sp = c.sp - 28) (ha : Returns entry a)
    (hwords : entry.word 16 = next ∧ entry.word 20 = c.cs.setWidth 32 ∧ entry.word 24 = c.eflags)
    (hsaved : ∀ q ∈ [Gpr.ebp, .esi, .edi], entry.gpr q = c.gpr q) :
    (((a.pop .ebx).pop .ecx).pop .edx).iret =
      { (((c.set .eax (a.gpr .eax)).set .ebx (a.word 0)).set .ecx (a.word 4)).set .edx (a.word 8) with
        eip := next, mem := a.mem } := by
  obtain ⟨hsp, hframe⟩ := ha.frame_words h hentry
  obtain ⟨hnext, hcs, hflags⟩ := hwords
  have hcallee : ∀ q ∈ [Gpr.ebp, .esi, .edi], a.gpr q = c.gpr q := fun q hq =>
    (ha.saved q (List.mem_cons_of_mem _ hq)).trans (hsaved q hq)
  rw [Core.pops_iret (by decide) (by decide) (by decide) h hsp ⟨(hframe 12 le_rfl (by omega)).trans hnext,
    (hframe 16 (by omega) (by omega)).trans hcs, (hframe 20 (by omega) le_rfl).trans hflags⟩]
  ext1
  · funext q
    cases q with
    | eax | ebx | ecx | edx | esp => rfl
    | ebp => exact hcallee .ebp (by decide)
    | esi => exact hcallee .esi (by decide)
    | edi => exact hcallee .edi (by decide)
  all_goals rfl

theorem last_number : nrSyscall - 1#32 = 2#32 := by decide

theorem handlerSyscall_good (l : Symbols) (compiled : U32 → Core → Core) (back : U32) (h : ¬2#32 < c.gpr .eax) :
    handlerSyscall l compiled back c =
      ((((compiled (called l back c).eip (called l back c)).pop .ebx).pop .ecx).pop .edx).iret := by
  rw [handlerSyscall, last_number, if_neg h]

/-- A number without a function. -/
theorem gate_bad (l : Symbols) (compiled : U32 → Core → Core) (handler next back : U32) (h : 28 ≤ c.sp)
    (hbad : 2#32 < c.gpr .eax) :
    handlerSyscall l compiled back (c.intGate handler next) =
      { c.set .eax 0xFFFFFFFF#32 with eip := next, mem := (c.intGate handler next).mem } := by
  obtain ⟨hsp, hnext, hcs, hflags, -⟩ := intGate_frame (c := c) (by omega) handler next
  have hgpr : ∀ r, r ≠ .esp → (c.intGate handler next).gpr r = c.gpr r := fun r hr => intGate_gpr hr c handler next
  have hlt : c.sp < 2 ^ 32 := (c.gpr .esp).isLt
  rw [handlerSyscall, last_number, hgpr .eax (by decide), if_pos hbad]
  generalize c.intGate handler next = g at hsp hnext hcs hflags hgpr ⊢
  have hesp : g.gpr .esp + 12#32 = c.gpr .esp := by
    apply BitVec.eq_of_toNat_eq
    rw [BitVec.toNat_add]
    change (g.sp + 12) % 2 ^ 32 = c.sp
    omega
  ext1
  · funext q
    by_cases hq : q = .esp
    · subst hq
      simpa [Core.iret, Core.set] using hesp
    · by_cases hq' : q = .eax
      · simp [Core.iret, Core.set, hq']
      · simpa [Core.iret, Core.set, hq, hq'] using hgpr q hq
  · exact hnext
  · exact hflags
  · change (g.word 4).setWidth 16 = c.cs
    rw [hcs, BitVec.setWidth_setWidth_of_le _ (by decide), BitVec.setWidth_eq]
  · rfl

/-- The call pushes the address behind it. -/
theorem called_frame (l : Symbols) (back : U32) (h : 16 ≤ c.sp) :
    ((called l back c).sp = c.sp - 16 ∧ (called l back c).word 0 = back) ∧
      ((called l back c).word 4 = c.gpr .ebx ∧ (called l back c).word 8 = c.gpr .ecx ∧
        (called l back c).word 12 = c.gpr .edx ∧ ∀ k, (called l back c).word (k + 16) = c.word k) ∧
      (∀ r, r ≠ .esp → (called l back c).gpr r = c.gpr r) ∧ SameOutside (object (c.sp - 16) 16) c.mem (called l back c).mem :=
  Core.call_frame h (c.gpr .edx) (c.gpr .ecx) (c.gpr .ebx) back

/-- The function of the number, if the table is not on the stack. -/
theorem called_eip (back : U32) {m : Memory} (htable : Set.EqOn c.mem (initSyscall l m) (object l.syscallTable 12))
    (h : 12 ≤ c.sp) (hstack : l.syscallTable + 12 ≤ c.sp - 12 ∨ c.sp ≤ l.syscallTable) (hgood : ¬2#32 < c.gpr .eax) :
    (called l back c).eip = l.function (c.gpr .eax) := by
  have hle : (c.gpr .eax).toNat ≤ 2 := BitVec.not_lt.mp hgood
  have heax : (pushArguments c).gpr .eax = c.gpr .eax := pushArguments_gpr (by decide) c
  have heip : (called l back c).eip =
      load32 (pushArguments c).mem (l.syscallTable + 4 * ((pushArguments c).gpr .eax).toNat) := rfl
  have hread : load32 c.mem (l.syscallTable + 4 * (c.gpr .eax).toNat) =
      load32 (initSyscall l m) (l.syscallTable + 4 * (c.gpr .eax).toNat) :=
    load32_congr fun x hlo hhi => htable ⟨by omega, by omega⟩
  rw [heip, heax, (pushArguments_sameOutside h).load32 (object_disjoint (by omega)), hread]
  exact load32_initSyscall l m (last_number ▸ hgood)

end

/-- For every number in `eax`: if there is no such call, the caller gets -1 and the rest of its state back; otherwise
the function that `init_syscall` has put in the table is entered with the three registers as its arguments, and the
caller gets its result, its own flags and stack, and the registers as the function left its arguments. -/
theorem syscall_gate (l : Symbols) (compiled : U32 → Core → Core) (handler next back : U32) {c : Core} (hsp : 28 ≤ c.sp)
    {m : Memory} (htable : Set.EqOn c.mem (initSyscall l m) (object l.syscallTable 12))
    (hstack : l.syscallTable + 12 ≤ c.sp - 28 ∨ c.sp ≤ l.syscallTable)
    (habi : ¬2#32 < c.gpr .eax → Returns (called l back (c.intGate handler next))
      (compiled (l.function (c.gpr .eax)) (called l back (c.intGate handler next)))) :
    let c' := handlerSyscall l compiled back (c.intGate handler next)
    if 2#32 < c.gpr .eax then
      c' = { c.set .eax 0xFFFFFFFF#32 with eip := next, mem := c'.mem } ∧ SameOutside (object (c.sp - 12) 12) c.mem c'.mem
    else ∃ entry, entry.eip = l.function (c.gpr .eax) ∧
      (entry.word 0 = back ∧ entry.word 4 = c.gpr .ebx ∧ entry.word 8 = c.gpr .ecx ∧ entry.word 12 = c.gpr .edx) ∧
      SameOutside (object (c.sp - 28) 28) c.mem entry.mem ∧
      let r := compiled entry.eip entry
      c' = { (((c.set .eax (r.gpr .eax)).set .ebx (r.word 0)).set .ecx (r.word 4)).set .edx (r.word 8) with
        eip := next, mem := r.mem } := by
  intro c'
  by_cases hbad : 2#32 < c.gpr .eax
  · rw [if_pos hbad]
    have hc' : c' = _ := gate_bad l compiled handler next back hsp hbad
    rw [hc']
    exact ⟨rfl, (intGate_frame (by omega) handler next).2.2.2.2⟩
  · rw [if_neg hbad]
    obtain ⟨hsp', hnext, hcs, hflags, hmem⟩ := intGate_frame (c := c) (by omega) handler next
    have hgpr : ∀ r, r ≠ .esp → (c.intGate handler next).gpr r = c.gpr r := fun r hr => intGate_gpr hr c handler next
    have heax := hgpr .eax (by decide)
    have hc' : c' = _ := handlerSyscall_good l compiled back (by rwa [heax])
    have hreturns := habi hbad
    generalize c.intGate handler next = g at hsp' hnext hcs hflags hmem hgpr heax hc' hreturns
    obtain ⟨⟨hentry, hback⟩, ⟨hebx, hecx, hedx, hrest⟩, hkept, hargs⟩ := called_frame (c := g) l back (by omega)
    have htable' : Set.EqOn g.mem (initSyscall l m) (object l.syscallTable 12) := fun x hx =>
      (hmem.apply (Set.disjoint_left.mp (object_disjoint (by omega)) hx)).trans (htable hx)
    have heip : (called l back g).eip = l.function (c.gpr .eax) :=
      heax ▸ called_eip back htable' (by omega) (by omega) (by rwa [heax])
    refine ⟨called l back g, heip, ⟨hback, hebx.trans (hgpr .ebx (by decide)), hecx.trans (hgpr .ecx (by decide)),
      hedx.trans (hgpr .edx (by decide))⟩, ?_, ?_⟩
    · exact (hmem.mono (object_subset (by omega) (by omega))).trans (hargs.mono (object_subset (by omega) (by omega)))
    · rw [hc', heip]
      refine handler_return hsp (by omega) hreturns ⟨(hrest 0).trans hnext, (hrest 4).trans hcs, (hrest 8).trans hflags⟩ ?_
      intro q hq
      have hne : q ≠ .esp := by
        rintro rfl
        revert hq
        decide
      exact (hkept q hne).trans (hgpr q hne)

/-- `example()` gets 1, and its flags and its stack pointer back. -/
theorem syscall_gate_example :
    let l : Symbols := ⟨0x120000, 0x100100#32, 0x100200#32, 0x100300#32⟩
    let returnOne : U32 → Core → Core := fun _ c =>
      { (c.set .esp (c.gpr .esp + 4#32)).set .eax 1#32 with eip := c.word 0 }
    let c : Core := ⟨fun r => if r = .esp then 0x118000#32 else 0#32, 0x100400#32, 0x202#32, 0x10#16,
      initSyscall l (fun _ => 0#8)⟩
    let c' := handlerSyscall l returnOne 0x100600#32 (c.intGate 0x100500#32 0x100402#32)
    c'.gpr .eax = 1#32 ∧ c'.gpr .esp = 0x118000#32 ∧ c'.eflags = 0x202#32 ∧ c'.eip = 0x100402#32 := by
  intro l returnOne c c'
  have hreturns : Returns (called l 0x100600#32 (c.intGate 0x100500#32 0x100402#32))
      (returnOne (l.function (c.gpr .eax)) (called l 0x100600#32 (c.intGate 0x100500#32 0x100402#32))) := by
    generalize called l 0x100600#32 (c.intGate 0x100500#32 0x100402#32) = entry
    refine ⟨by simp [returnOne, Core.set], ?_, fun _ _ _ => rfl⟩
    intro r hr
    have hne : r ≠ .eax ∧ r ≠ .esp := by
      simp only [List.mem_cons, List.not_mem_nil, or_false] at hr
      rcases hr with rfl | rfl | rfl | rfl <;> decide
    simp [returnOne, Core.set, hne.1, hne.2]
  have hgate := syscall_gate l returnOne 0x100500#32 0x100402#32 0x100600#32 (c := c) (by decide)
    (Set.eqOn_refl _ _) (.inr (by decide)) fun _ => hreturns
  rw [if_neg (by decide)] at hgate
  obtain ⟨entry, -, -, -, hc'⟩ := hgate
  have hresult : (returnOne entry.eip entry).gpr .eax = 1#32 := by simp [returnOne, Core.set]
  have hback : c' = _ := hc'
  rw [hback]
  exact ⟨by simpa [Core.set] using hresult, by simp [Core.set, c], rfl, rfl⟩

end N7OS.Dispatch
