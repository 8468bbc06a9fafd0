import N7OS.Memory.Sbrk
import N7OS.Syscall.Dispatch

/-! # The way into the kernel

`entry` of `boot/crt0.S`, from the boot loader to `kernel_start`. The memory behind the
initialised data is blanked, with what has been stored there before.
-/
namespace N7OS.Boot
open ByteMemory Dispatch

/-- The linker's symbols. `kernel.lds` puts the common objects in `.bss`, behind `_edata`; the heap ends behind them. -/
structure BootSymbols where
  edata : U32
  firstStack : U32
  multibootMagic : U32
  multibootInfo : U32
  hang : U32
  kernelStart : U32
  stack_bss : edata.toNat ≤ firstStack.toNat ∧ firstStack.toNat + 16384 ≤ memHeapEnd.toNat
  magic_bss : edata.toNat ≤ multibootMagic.toNat ∧ multibootMagic.toNat + 4 ≤ memHeapEnd.toNat
  info_bss : edata.toNat ≤ multibootInfo.toNat ∧ multibootInfo.toNat + 4 ≤ memHeapEnd.toNat
  magic_apart : multibootMagic.toNat + 4 ≤ firstStack.toNat ∨ firstStack.toNat + 16384 ≤ multibootMagic.toNat
  info_apart : multibootInfo.toNat + 4 ≤ firstStack.toNat ∨ firstStack.toNat + 16384 ≤ multibootInfo.toNat

/-- Objects like those that the linker places. -/
def BootSymbols.sample : BootSymbols where
  edata := 0x110000#32
  firstStack := 0x118000#32
  multibootMagic := 0x11C000#32
  multibootInfo := 0x11C004#32
  hang := 0x100060#32
  kernelStart := 0x100400#32
  stack_bss := by decide
  magic_bss := by decide
  info_bss := by decide
  magic_apart := by decide
  info_apart := by decide

/-- `movl` to an object. -/
def store (c : Core) (a v : U32) : Core := { c with mem := store32 c.mem a.toNat v }

/-- Bit 1 is always set. -/
def popfl (c : Core) : Core := { c.set .esp (c.gpr .esp + 4#32) with eflags := c.word 0 ||| 2#32 }

/-- The loop at `0:`. The flags of `addl` and `cmpl` are left out. -/
def blank (c : Core) : Core :=
  let c' := (store c (c.gpr .edi) (c.gpr .eax)).set .edi (c.gpr .edi + 4#32)
  if c.gpr .edi + 4#32 < memHeapEnd then blank c' else c'
-- Above the end of the heap the pointer can only come back by an overflow, once.
termination_by
  if (c.gpr .edi).toNat < memHeapEnd.toNat then memHeapEnd.toNat - (c.gpr .edi).toNat
  else memHeapEnd.toNat + 2 ^ 32 - (c.gpr .edi).toNat
decreasing_by
  rename_i hlt
  have hend := toNat_memHeapEnd
  have hedi := (c.gpr .edi).isLt
  have hnext : (c'.gpr .edi).toNat = ((c.gpr .edi).toNat + 4) % 2 ^ 32 := by simp [c', store, Core.set]
  rw [BitVec.lt_def, BitVec.toNat_add] at hlt
  change ((c.gpr .edi).toNat + 4) % 2 ^ 32 < memHeapEnd.toNat at hlt
  rw [hnext]
  split_ifs <;> omega

/-- The instructions in front of the loop. -/
def prepared (l : BootSymbols) (c : Core) : Core :=
  let c := store c l.multibootMagic (c.gpr .eax)
  let c := store c l.multibootInfo (c.gpr .ebx)
  let c := c.set .esp l.firstStack
  let c := c.set .esp (c.gpr .esp + 16384#32)
  let c := c.set .ebp 0#32
  let c := popfl (c.push 0#32)
  let c := c.set .edi l.edata
  c.set .eax 0#32

/-- The call pushes the address of `hang`. -/
def entry (l : BootSymbols) (c : Core) : Core :=
  { (blank (prepared l c)).push l.hang with eip := l.kernelStart }

section
variable {c : Core} {k : ℕ}

theorem set_self (c : Core) (r : Gpr) (v : U32) : (c.set r v).gpr r = v := Function.update_self _ _ _

theorem set_of_ne {q r : Gpr} (h : q ≠ r) (c : Core) (v : U32) : (c.set r v).gpr q = c.gpr q := Function.update_of_ne h _ _

/-- One word more than those that end before the heap does. -/
theorem blank_zero (heax : c.gpr .eax = 0#32) (hlt : (c.gpr .edi).toNat + 4 * k < memHeapEnd.toNat)
    (hend : memHeapEnd.toNat ≤ (c.gpr .edi).toNat + 4 * (k + 1)) :
    (blank c).mem = memset c.mem (c.gpr .edi).toNat 0#8 (4 * (k + 1)) ∧
      (∀ r, r ≠ .edi → (blank c).gpr r = c.gpr r) ∧ (blank c).eflags = c.eflags := by
  have hheap := toNat_memHeapEnd
  have hnext : (c.gpr .edi + 4#32).toNat = (c.gpr .edi).toNat + 4 := toNat_add_of_lt (by simp; omega)
  induction k generalizing c with
  | zero =>
    have hlast : ¬c.gpr .edi + 4#32 < memHeapEnd := by
      rw [BitVec.lt_def, hnext]
      omega
    rw [blank, if_neg hlast]
    refine ⟨?_, fun r hr => set_of_ne hr _ _, rfl⟩
    exact (congrArg (store32 c.mem _) heax).trans (store32_zero _ _)
  | succ k ih =>
    have hmore : c.gpr .edi + 4#32 < memHeapEnd := by
      rw [BitVec.lt_def, hnext]
      omega
    rw [blank, if_pos hmore]
    set c' := (store c (c.gpr .edi) (c.gpr .eax)).set .edi (c.gpr .edi + 4#32) with hc'
    have hedi : (c'.gpr .edi).toNat = (c.gpr .edi).toNat + 4 := by rw [hc', set_self, hnext]
    have hmem : c'.mem = memset c.mem (c.gpr .edi).toNat 0#8 4 :=
      (congrArg (store32 c.mem _) heax).trans (store32_zero _ _)
    have hkept : ∀ r, r ≠ .edi → c'.gpr r = c.gpr r := fun r hr => set_of_ne hr _ _
    obtain ⟨hblank, hgpr, hflags⟩ := ih (c := c') ((hkept .eax (by decide)).trans heax) (by omega) (by omega)
      (toNat_add_of_lt (by simp; omega))
    refine ⟨?_, fun r hr => (hgpr r hr).trans (hkept r hr), hflags⟩
    rw [hblank, hmem, hedi, memset_memset]
    exact congrArg (memset c.mem (c.gpr .edi).toNat 0#8) (by omega)

/-- Only the flags are other than before. -/
theorem popfl_push (c : Core) :
    (∀ r, (popfl (c.push 0#32)).gpr r = c.gpr r) ∧ (popfl (c.push 0#32)).eflags = 2#32 ∧
      (popfl (c.push 0#32)).mem = (c.push 0#32).mem := by
  refine ⟨fun r => ?_, congrArg (· ||| 2#32) (Core.push_word_zero c 0#32), rfl⟩
  by_cases hr : r = .esp
  · subst hr
    have hpop : (popfl (c.push 0#32)).gpr .esp = (c.push 0#32).gpr .esp + 4#32 := set_self (c.push 0#32) .esp _
    rw [hpop, Core.push_esp, BitVec.sub_add_cancel]
  · exact (set_of_ne hr _ _).trans (Core.push_gpr hr _ _)

theorem prepared_frame (l : BootSymbols) (c : Core) :
    ((prepared l c).gpr .esp = l.firstStack + 16384#32 ∧ (prepared l c).gpr .ebp = 0#32 ∧
        (prepared l c).gpr .eax = 0#32 ∧ (prepared l c).gpr .edi = l.edata ∧ (prepared l c).eflags = 2#32) ∧
      SameOutside (object l.edata.toNat (memHeapEnd.toNat - l.edata.toNat)) c.mem (prepared l c).mem := by
  have hheap := toNat_memHeapEnd
  obtain ⟨hlow, hhigh⟩ := l.stack_bss
  obtain ⟨hlow', hhigh'⟩ := l.magic_bss
  obtain ⟨hlow'', hhigh''⟩ := l.info_bss
  set c₁ := store c l.multibootMagic (c.gpr .eax) with hc₁
  set c₂ := store c₁ l.multibootInfo (c₁.gpr .ebx) with hc₂
  set c₃ := ((c₂.set .esp l.firstStack).set .esp ((c₂.set .esp l.firstStack).gpr .esp + 16384#32)).set .ebp 0#32 with hc₃
  have hesp : c₃.gpr .esp = l.firstStack + 16384#32 := by
    rw [hc₃, set_of_ne (by decide), set_self, set_self]
  have hebp : c₃.gpr .ebp = 0#32 := set_self _ _ _
  have hmem : c₃.mem = c₂.mem := rfl
  have hsp : c₃.sp = l.firstStack.toNat + 16384 := by
    rw [Core.sp, hesp]
    exact toNat_add_of_lt (by simp; omega)
  have hpushed : SameOutside (object (c₃.sp - 4) 4) c₃.mem (c₃.push 0#32).mem := Core.push_sameOutside (by omega) _
  have hprepared : prepared l c = ((popfl (c₃.push 0#32)).set .edi l.edata).set .eax 0#32 := rfl
  rw [hprepared]
  clear_value c₃
  obtain ⟨hgpr, hflags, hpopped⟩ := popfl_push c₃
  generalize popfl (c₃.push 0#32) = d at hgpr hflags hpopped
  refine ⟨⟨?_, ?_, set_self _ _ _, ?_, hflags⟩, ?_⟩
  · rw [set_of_ne (by decide), set_of_ne (by decide), hgpr, hesp]
  · rw [set_of_ne (by decide), set_of_ne (by decide), hgpr, hebp]
  · rw [set_of_ne (by decide), set_self]
  · have hin {a : U32} (hlo : l.edata.toNat ≤ a.toNat) (hhi : a.toNat + 4 ≤ memHeapEnd.toNat) (d : Core) (v : U32) :
        SameOutside (object l.edata.toNat (memHeapEnd.toNat - l.edata.toNat)) d.mem (store d a v).mem :=
      (sameOutside_store32 _ _ _).mono (object_subset hlo (by omega))
    have hstored : SameOutside (object l.edata.toNat (memHeapEnd.toNat - l.edata.toNat)) c.mem c₂.mem :=
      (hin hlow' hhigh' c _).trans (hin hlow'' hhigh'' c₁ _)
    have hlast : (((d.set .edi l.edata).set .eax 0#32)).mem = (c₃.push 0#32).mem := hpopped
    rw [hlast]
    rw [hmem] at hpushed
    exact hstored.trans (hpushed.mono (object_subset (by omega) (by omega)))

/-- The state behind the loop, which ends at most three bytes behind the heap. -/
theorem blanked_frame (l : BootSymbols) (c : Core) :
    let b := blank (prepared l c)
    (b.sp = l.firstStack.toNat + 16384 ∧ b.gpr .ebp = 0#32 ∧ b.eflags = 2#32) ∧
      (∀ x, l.edata.toNat ≤ x → x < memHeapEnd.toNat → b.mem x = 0#8) ∧
      SameOutside (object l.edata.toNat (memHeapEnd.toNat + 3 - l.edata.toNat)) c.mem b.mem := by
  intro b
  have hheap := toNat_memHeapEnd
  obtain ⟨hlow, hhigh⟩ := l.stack_bss
  obtain ⟨⟨hesp, hebp, heax, hedi, hflags⟩, hbefore⟩ := prepared_frame l c
  obtain ⟨k, hlt, hend⟩ : ∃ k, l.edata.toNat + 4 * k < memHeapEnd.toNat ∧
      memHeapEnd.toNat ≤ l.edata.toNat + 4 * (k + 1) :=
    ⟨(memHeapEnd.toNat - l.edata.toNat - 1) / 4, by omega, by omega⟩
  obtain ⟨hmem, hgpr, hkept⟩ := blank_zero heax (by rwa [hedi]) (by rwa [hedi])
  rw [hedi] at hmem
  refine ⟨⟨?_, (hgpr .ebp (by decide)).trans hebp, hkept.trans hflags⟩, fun x hlo hhi => ?_, ?_⟩
  · rw [Core.sp, hgpr .esp (by decide), hesp]
    exact toNat_add_of_lt (by simp; omega)
  · rw [hmem]
    exact if_pos ⟨hlo, by omega⟩
  · refine (hbefore.mono (object_subset le_rfl (by omega))).trans ?_
    rw [hmem]
    exact (sameOutside_memset _ _ _ _).mono (object_subset le_rfl (by omega))

end

/-- For every state that the boot loader leaves: the kernel is entered on its own stack, with the interrupts off, and all
that stands behind the initialised data is 0 up to the end of the heap, but for the return address. What the boot loader
has passed and the first two instructions have saved is 0, too. -/
theorem kernel_entered (l : BootSymbols) (c : Core) :
    let c' := entry l c
    (c'.eip = l.kernelStart ∧ c'.eflags = 2#32 ∧ c'.gpr .ebp = 0#32 ∧ c'.sp = l.firstStack.toNat + 16380 ∧
        c'.word 0 = l.hang) ∧
      (∀ x, l.edata.toNat ≤ x → x < memHeapEnd.toNat → x ∉ object c'.sp 4 → c'.mem x = 0#8) ∧
      SameOutside (object l.edata.toNat (memHeapEnd.toNat + 3 - l.edata.toNat)) c.mem c'.mem ∧
      load32 c'.mem l.multibootMagic.toNat = 0#32 ∧ load32 c'.mem l.multibootInfo.toNat = 0#32 := by
  intro c'
  have hheap := toNat_memHeapEnd
  obtain ⟨hlow, hhigh⟩ := l.stack_bss
  obtain ⟨⟨hsp, hebp, hflags⟩, hzero, hbefore⟩ := blanked_frame l c
  have hc' : c' = { (blank (prepared l c)).push l.hang with eip := l.kernelStart } := rfl
  generalize blank (prepared l c) = b at hsp hebp hflags hzero hbefore hc'
  have hsp' : c'.sp = l.firstStack.toNat + 16380 := by
    rw [hc']
    exact (Core.push_sp (c := b) (by omega) l.hang).trans (by omega)
  have hpushed : SameOutside (object c'.sp 4) b.mem c'.mem := by
    rw [hsp', hc', show l.firstStack.toNat + 16380 = b.sp - 4 by omega]
    exact Core.push_sameOutside (by omega) _
  have hzero' : ∀ x, l.edata.toNat ≤ x → x < memHeapEnd.toNat → x ∉ object c'.sp 4 → c'.mem x = 0#8 :=
    fun x hlo hhi hx => (hpushed.apply hx).trans (hzero x hlo hhi)
  have hblanked {a : U32} (hbss : l.edata.toNat ≤ a.toNat ∧ a.toNat + 4 ≤ memHeapEnd.toNat)
      (hapart : a.toNat + 4 ≤ l.firstStack.toNat ∨ l.firstStack.toNat + 16384 ≤ a.toNat) :
      load32 c'.mem a.toNat = 0#32 := load32_eq_zero fun x hlo hhi =>
    hzero' x (by omega) (by omega) (by rw [hsp', notMem_object]; omega)
  refine ⟨⟨?_, ?_, ?_, hsp', ?_⟩, hzero', ?_, hblanked l.magic_bss l.magic_apart, hblanked l.info_bss l.info_apart⟩
  · rw [hc']
  · rw [hc']
    exact hflags
  · rw [hc']
    exact (Core.push_gpr (by decide) b l.hang).trans hebp
  · rw [hc']
    exact Core.push_word_zero b l.hang
  · rw [hsp'] at hpushed
    exact hbefore.trans (hpushed.mono (object_subset (by omega) (by omega)))

/-- The number of the boot loader is stored and gone. -/
theorem kernel_entered_magic :
    let l := BootSymbols.sample
    let c : Core := ⟨fun r => if r = .eax then 0x2BADB002#32 else 0#32, 0x100000#32, 2#32, 0x10#16, fun _ => 0xFF#8⟩
    load32 (store c l.multibootMagic (c.gpr .eax)).mem l.multibootMagic.toNat = 0x2BADB002#32 ∧
      load32 (entry l c).mem l.multibootMagic.toNat = 0#32 ∧ (entry l c).sp = 0x11BFFC := by
  intro l c
  obtain ⟨⟨-, -, -, hsp, -⟩, -, -, hmagic, -⟩ := kernel_entered l c
  have hstack : l.firstStack.toNat + 16380 = 0x11BFFC := by decide
  refine ⟨?_, hmagic, hsp.trans hstack⟩
  exact load32_store32_same c.mem l.multibootMagic.toNat (c.gpr .eax)

end N7OS.Boot
