import N7OS.Process.ContextSwitch
import N7OS.Process.TableInvariant

/-! # What `create_process` changes

One slot of the four arrays `process_table`, `stacks`, `process_entry` and their
contexts, or nothing.
-/
namespace N7OS
open ByteMemory

/-- `name` is a string of `len` characters with its NUL. -/
structure IsCString (name : ℕ → U8) (len : ℕ) : Prop where
  closed : name len = 0
  noNul : ∀ i < len, name i ≠ 0

/-- The slot holds a new process and the rest of the kernel is as before. -/
structure CreatedIn (L : Layout) (name : ℕ → U8) (len : ℕ) (function : U32) (slot : Slot) (k k' : Kernel) :
    Prop where
  pid : (k'.processTable slot).pid = BitVec.ofNat 32 slot
  state : (k'.processTable slot).state = .pret
  chars : ∀ i < min 31 len, (k'.processTable slot).name i = name i
  nul : (k'.processTable slot).name (min 31 len) = 0
  nameRest : ∀ i, min 31 len < i → (k'.processTable slot).name i = (k.processTable slot).name i
  regs : loadContext k'.mem (L.regs slot) = ⟨0, BitVec.ofNat 32 (L.stackWord slot 255), 0, 0, 0⟩
  trampoline : load32 k'.mem (L.stackWord slot 255) = L.processStarter
  entry : k'.processEntry slot = function
  otherSlots : ∀ j, j ≠ slot → k'.processTable j = k.processTable j
  otherEntries : ∀ j, j ≠ slot → k'.processEntry j = k.processEntry j
  otherRegs : ∀ j, j ≠ slot → loadContext k'.mem (L.regs j) = loadContext k.mem (L.regs j)
  otherWords : ∀ j : Slot, ∀ w < 256, ¬(j = slot ∧ w = 255) →
    load32 k'.mem (L.stackWord j w) = load32 k.mem (L.stackWord j w)
  memory : ∀ x, ¬L.InRegs slot x → x < L.stackWord slot 255 ∨ L.stackWord slot 255 + 4 ≤ x → k'.mem x = k.mem x
  current : k'.currentPid = k.currentPid
  enabled : k'.schedulingEnabled = k.schedulingEnabled

section
variable {L : Layout} {name dst : ℕ → U8} {len n i j : ℕ} {slot : Slot} {m : Memory} {p : Slot} {w x : ℕ}

/-- The copy stops at the NUL or when it has used up its characters. -/
theorem copyName_apply (h : IsCString name len) (hi : i ≤ len) (n : ℕ) (dst : ℕ → U8) (j : ℕ) :
    copyName name n i dst j =
      if i ≤ j ∧ j < min (i + n) len then name j
      else if j = min (i + n) len then 0 else dst j := by
  induction n generalizing i dst with
  | zero =>
    rw [copyName, Nat.add_zero, Nat.min_eq_left hi, if_neg (by omega)]
    exact Function.update_apply _ _ _ _
  | succ n ih =>
    rw [copyName]
    by_cases hend : i = len
    · subst hend
      rw [if_neg (not_not.mpr h.closed), Nat.min_eq_right (by omega), if_neg (by omega)]
      exact Function.update_apply _ _ _ _
    · rw [if_pos (h.noNul i (by omega)), ih (by omega), Nat.add_assoc i 1 n, Nat.add_comm 1 n]
      by_cases hj : j = i
      · subst hj
        rw [if_neg (by omega), if_neg (by omega), if_pos (by omega), Function.update_self]
      · rw [Function.update_of_ne hj]
        exact if_congr (by omega) rfl rfl

theorem Layout.stackWord_eq (L : Layout) (p : Slot) (w : ℕ) : L.stackWord p w = L.stacksBase + 1024 * p + 4 * w := rfl

/-- The words of the stacks are apart from the contexts. -/
theorem Layout.stackWord_regs_disjoint (L : Layout) (p q : Slot) (hw : w < 256) :
    L.stackWord p w + 4 ≤ L.regs q ∨ L.regs q + 20 ≤ L.stackWord p w := by
  have hp := p.isLt
  have hq := q.isLt
  have htable := L.table_stacks
  rw [stackWord_eq, regs_eq]
  omega

theorem Layout.stackWords_disjoint (L : Layout) (p q : Slot) {v : ℕ} (hw : w < 256) (hv : v < 256)
    (hne : ¬(p = q ∧ w = v)) :
    L.stackWord p w + 4 ≤ L.stackWord q v ∨ L.stackWord q v + 4 ≤ L.stackWord p w := by
  have hneq : ¬(p.val = q.val ∧ w = v) := fun h => hne ⟨Fin.ext h.1, h.2⟩
  rw [stackWord_eq, stackWord_eq]
  omega

theorem Layout.regs_disjoint (L : Layout) {p q : Slot} (hne : p ≠ q) :
    L.regs p + 20 ≤ L.regs q ∨ L.regs q + 20 ≤ L.regs p := by
  have hneq : p.val ≠ q.val := fun h => hne (Fin.ext h)
  rw [regs_eq, regs_eq]
  omega

theorem prepareStack_eq_storeContext (L : Layout) (slot : Slot) (m : Memory) :
    prepareStack L slot m = storeContext (store32 m (L.stackWord slot 255) L.processStarter) (L.regs slot)
      ⟨0, BitVec.ofNat 32 (L.stackWord slot 255), 0, 0, 0⟩ := rfl

theorem prepareStack_frame (hregs : ¬L.InRegs slot x)
    (htop : x < L.stackWord slot 255 ∨ L.stackWord slot 255 + 4 ≤ x) :
    prepareStack L slot m x = m x := by
  unfold Layout.InRegs at hregs
  rw [prepareStack_eq_storeContext, storeContext_of_outside _ (by omega), store32_of_outside _ htop]

theorem loadContext_prepareStack (L : Layout) (slot : Slot) (m : Memory) :
    loadContext (prepareStack L slot m) (L.regs slot) = ⟨0, BitVec.ofNat 32 (L.stackWord slot 255), 0, 0, 0⟩ := by
  rw [prepareStack_eq_storeContext]
  exact loadContext_storeContext _ _ _

theorem load32_prepareStack (L : Layout) (slot : Slot) (m : Memory) :
    load32 (prepareStack L slot m) (L.stackWord slot 255) = L.processStarter := by
  have htop := L.stackWord_regs_disjoint slot slot (w := 255) (by omega)
  rw [prepareStack_eq_storeContext]
  refine Eq.trans (load32_congr fun x h1 h2 => storeContext_of_outside _ ?_) (load32_store32_same _ _ _)
  omega

theorem fillSlot_createdIn (L : Layout) (slot : Slot) (h : IsCString name len) (function : U32) (k : Kernel) :
    CreatedIn L name len function slot k (fillSlot L slot name function k) := by
  have hname : ∀ j, (copyName name 31 0 (k.processTable slot).name) j = _ := copyName_apply h (Nat.zero_le len) 31 _
  rw [Nat.zero_add] at hname
  have hframe : ∀ x, ¬L.InRegs slot x → x < L.stackWord slot 255 ∨ L.stackWord slot 255 + 4 ≤ x →
      (fillSlot L slot name function k).mem x = k.mem x := fun x => prepareStack_frame
  constructor
  case pid => simp [fillSlot]
  case state => simp [fillSlot]
  case chars =>
    intro i hi
    simp only [fillSlot, Function.update_self, hname]
    exact if_pos ⟨Nat.zero_le i, hi⟩
  case nul =>
    simp only [fillSlot, Function.update_self, hname]
    rw [if_neg (by omega), if_true]
  case nameRest =>
    intro i hi
    simp only [fillSlot, Function.update_self, hname]
    rw [if_neg (by omega), if_neg (by omega)]
  case regs => exact loadContext_prepareStack L slot k.mem
  case trampoline => exact load32_prepareStack L slot k.mem
  case entry => simp [fillSlot]
  case otherSlots => exact fun j hj => Function.update_of_ne hj _ _
  case otherEntries => exact fun j hj => Function.update_of_ne hj _ _
  case otherRegs =>
    intro j hj
    have hdisj := L.regs_disjoint hj
    have hstack := L.stackWord_regs_disjoint slot j (w := 255) (by omega)
    refine loadContext_congr fun x h1 h2 => hframe x ?_ (by omega)
    unfold Layout.InRegs
    omega
  case otherWords =>
    intro j w hw hne
    have hstack := L.stackWord_regs_disjoint j slot hw
    have hwords := L.stackWords_disjoint j slot hw (by omega) hne
    refine load32_congr fun x h1 h2 => hframe x ?_ (by omega)
    unfold Layout.InRegs
    omega
  case memory => exact hframe
  case current => rfl
  case enabled => rfl

theorem createProcess_of_lowest {k : Kernel} {function : U32}
    (hlibre : (k.processTable slot).state = .libre) (hmin : ∀ j < slot, (k.processTable j).state ≠ .libre) :
    createProcess L name function k = (fillSlot L slot name function k, BitVec.ofNat 32 slot) := by
  rcases createProcess_cases L name function k with ⟨hfull, -⟩ | ⟨found, hfree, hlowest, hc⟩
  · exact absurd hlibre (hfull slot)
  · have hfound : found = slot := by
      rcases lt_trichotomy found slot with hlt | heq | hgt
      · exact absurd hfree (hmin found hlt)
      · exact heq
      · exact absurd hlibre (hlowest slot hgt)
    rw [hc, hfound]

end

/-- `create_process` fails and changes nothing, or fills the lowest free slot and
nothing else. -/
theorem createProcess_oneSlot (L : Layout) (k : Kernel) (name : ℕ → U8) (len : ℕ) (function : U32)
    (h : IsCString name len) :
    ((∀ i, (k.processTable i).state ≠ .libre) → createProcess L name function k = (k, 0xFFFFFFFF#32)) ∧
      ∀ slot, (k.processTable slot).state = .libre → (∀ j < slot, (k.processTable j).state ≠ .libre) →
        (createProcess L name function k).2 = BitVec.ofNat 32 slot ∧
          CreatedIn L name len function slot k (createProcess L name function k).1 := by
  constructor
  · intro hfull
    rcases createProcess_cases L name function k with ⟨-, hc⟩ | ⟨slot, hlibre, -⟩
    · exact hc
    · exact absurd hlibre (hfull slot)
  · intro slot hlibre hmin
    rw [createProcess_of_lowest hlibre hmin]
    exact ⟨rfl, fillSlot_createdIn L slot h function k⟩

theorem createProcess_oneSlot_a :
    let k := kernelStart .sample (fun _ => 0)
    let name := cString ['a']
    ((∀ i, (k.processTable i).state ≠ .libre) → createProcess .sample name 0x100500#32 k = (k, 0xFFFFFFFF#32)) ∧
      ∀ slot, (k.processTable slot).state = .libre → (∀ j < slot, (k.processTable j).state ≠ .libre) →
        (createProcess .sample name 0x100500#32 k).2 = BitVec.ofNat 32 slot ∧
          CreatedIn .sample name 1 0x100500#32 slot k (createProcess .sample name 0x100500#32 k).1 :=
  createProcess_oneSlot .sample (kernelStart .sample fun _ => 0) (cString ['a']) 1 0x100500#32
    ⟨by decide, by decide⟩

end N7OS
