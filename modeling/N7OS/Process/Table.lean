import N7OS.Foundation.ByteMemory
import N7OS.Foundation.CyclicScan
import N7OS.Machine.Integers

/-! # The process table

`kernel/process.c`. The saved contexts and the stacks are words of memory at the
addresses the linker gave them; the other fields of the table are kept apart.
-/
namespace N7OS
open Execution ByteMemory CyclicScan

inductive ProcessState
  | libre
  | pret
  | elu
  | bloque
deriving DecidableEq

/-- An index below `NB_PROC`. -/
abbrev Slot := Fin 16

instance slotsNeZero : NeZero 16 := ⟨by decide⟩

/-- `process_t` without `regs`; the 32 bytes of `name` are unbounded here. -/
structure Process where
  pid : U32
  state : ProcessState
  name : ℕ → U8

/-- Where the linker put the arrays and the code. -/
structure Layout where
  processTable : ℕ
  stacksBase : ℕ
  firstStack : ℕ
  processStarter : U32
  idle : U32
  processus1 : U32
  shell : U32
  table_stacks : processTable + 16 * 60 ≤ stacksBase ∨ stacksBase + 16 * 1024 ≤ processTable
  table_first : processTable + 16 * 60 ≤ firstStack ∨ firstStack + 16384 ≤ processTable
  stacks_first : stacksBase + 16 * 1024 ≤ firstStack ∨ firstStack + 16384 ≤ stacksBase
  table_fits : processTable + 16 * 60 < 2 ^ 32
  stacks_fit : stacksBase + 16 * 1024 < 2 ^ 32
  first_fits : firstStack + 16384 < 2 ^ 32

/-- A layout like the one `kernel.lds` gives. -/
def Layout.sample : Layout where
  processTable := 0x110000
  stacksBase := 0x111000
  firstStack := 0x118000
  processStarter := 0x100100#32
  idle := 0x100200#32
  processus1 := 0x100300#32
  shell := 0x100400#32
  table_stacks := by decide
  table_first := by decide
  stacks_first := by decide
  table_fits := by decide
  stacks_fit := by decide
  first_fits := by decide

structure Kernel where
  processTable : Slot → Process
  currentPid : Slot
  schedulingEnabled : Bool
  processEntry : Slot → U32
  mem : Memory

/-- `&process_table[i].regs`. -/
def Layout.regs (L : Layout) (i : Slot) : ℕ := L.processTable + 60 * i + 40

/-- `&stacks[i][w]`. -/
def Layout.stackWord (L : Layout) (i : Slot) (w : ℕ) : ℕ := L.stacksBase + 1024 * i + 4 * w

def setState (i : Slot) (st : ProcessState) (t : Slot → Process) : Slot → Process :=
  Function.update t i { t i with state := st }

def initSlot (L : Layout) (k : Kernel) (i : Slot) : Kernel :=
  { k with
    processTable := Function.update k.processTable i
      { pid := BitVec.ofNat 32 i
        state := .libre
        name := Function.update (k.processTable i).name 0 0 }
    mem := storeWords k.mem (L.regs i) 5 (fun _ => 0) }

def initProcess (L : Layout) (k : Kernel) : Kernel := (List.finRange 16).foldl (initSlot L) k

def findFreeSlot (t : Slot → Process) : Option Slot :=
  (List.finRange 16).find? (fun i => (t i).state = .libre)

/-- The loop that copies at most `n` more characters, and the closing NUL. -/
def copyName (src : ℕ → U8) : ℕ → ℕ → (ℕ → U8) → (ℕ → U8)
  | 0, i, dst => Function.update dst i 0
  | n + 1, i, dst =>
    if src i ≠ 0 then copyName src n (i + 1) (Function.update dst i (src i))
    else Function.update dst i 0

/-- The first context of a process: `esp` on the word that holds the trampoline. -/
def prepareStack (L : Layout) (slot : Slot) (m : Memory) : Memory :=
  let stackTop := L.stackWord slot 255
  let m := store32 m stackTop L.processStarter
  let m := store32 m (L.regs slot) 0
  let m := store32 m (L.regs slot + 4) (BitVec.ofNat 32 stackTop)
  let m := store32 m (L.regs slot + 8) 0
  let m := store32 m (L.regs slot + 12) 0
  store32 m (L.regs slot + 16) 0

/-- What `create_process` writes once it has a slot. -/
def fillSlot (L : Layout) (slot : Slot) (name : ℕ → U8) (function : U32) (k : Kernel) : Kernel :=
  { k with
    processTable := Function.update k.processTable slot
      { pid := BitVec.ofNat 32 slot
        state := .pret
        name := copyName name 31 0 (k.processTable slot).name }
    processEntry := Function.update k.processEntry slot function
    mem := prepareStack L slot k.mem }

/-- `create_process`, with `(pid_t) -1` when every slot is in use. -/
def createProcess (L : Layout) (name : ℕ → U8) (function : U32) (k : Kernel) : Kernel × U32 :=
  match findFreeSlot k.processTable with
  | none => (k, 0xFFFFFFFF#32)
  | some slot => (fillSlot L slot name function k, BitVec.ofNat 32 slot)

/-- The slot that `schedule` goes to. -/
def nextPid (t : Slot → Process) (oldPid : Slot) : Slot :=
  (scan (fun i => (t i).state = .pret) oldPid).getD oldPid

/-- `schedule` up to its call of `ctx_sw`, whose two contexts it returns. -/
def schedule (k : Kernel) : Kernel × Option (Slot × Slot) :=
  if ¬k.schedulingEnabled then (k, none)
  else
    let oldPid := k.currentPid
    let next := nextPid k.processTable oldPid
    if next = oldPid then (k, none)
    else
      let t := if (k.processTable oldPid).state = .elu then setState oldPid .pret k.processTable
        else k.processTable
      ({ k with processTable := setState next .elu t, currentPid := next }, some (oldPid, next))

def startScheduling (k : Kernel) : Kernel := { k with schedulingEnabled := true }

def getpid (k : Kernel) : Slot := k.currentPid

/-- A string constant, with its closing NUL. -/
def cString (chars : List Char) (i : ℕ) : U8 := ((chars.map (fun c => BitVec.ofNat 8 c.toNat))[i]?).getD 0

/-- The zeroed statics of `process.c`. -/
def Kernel.boot (m : Memory) : Kernel where
  processTable _ := ⟨0, .libre, fun _ => 0⟩
  currentPid := 0
  schedulingEnabled := false
  processEntry _ := 0
  mem := m

/-- The three `create_process` calls of `kernel_start`, with what they return. -/
def createBase (L : Layout) (k : Kernel) : Kernel × List U32 :=
  let idle := createProcess L (cString ['i', 'd', 'l', 'e']) L.idle k
  let processus1 := createProcess L
    (cString ['p', 'r', 'o', 'c', 'e', 's', 's', 'u', 's', '1']) L.processus1 idle.1
  let shell := createProcess L (cString ['s', 'h', 'e', 'l', 'l']) L.shell processus1.1
  (shell.1, [idle.2, processus1.2, shell.2])

/-- The part of `kernel_start` from `init_process` up to `start_scheduling`. -/
def kernelTable (L : Layout) (m : Memory) : Kernel :=
  let k := (createBase L (initProcess L (.boot m))).1
  { k with processTable := setState 0 .elu k.processTable }

/-- The same with `start_scheduling`. -/
def kernelStart (L : Layout) (m : Memory) : Kernel := startScheduling (kernelTable L m)

variable {L : Layout} {k : Kernel} {t : Slot → Process} {i slot : Slot}

@[simp] theorem setState_self (st : ProcessState) (t : Slot → Process) :
    setState i st t i = { t i with state := st } := Function.update_self _ _ _

theorem setState_of_ne {j : Slot} (h : j ≠ i) (st : ProcessState) (t : Slot → Process) :
    setState i st t j = t j := Function.update_of_ne h _ _

theorem setState_state (i j : Slot) (st : ProcessState) (t : Slot → Process) :
    (setState i st t j).state = if j = i then st else (t j).state := by
  by_cases h : j = i
  · subst h
    rw [setState_self, if_pos rfl]
  · rw [setState_of_ne h, if_neg h]

@[simp] theorem setState_pid (i j : Slot) (st : ProcessState) (t : Slot → Process) :
    (setState i st t j).pid = (t j).pid := by
  by_cases h : j = i
  · subst h
    rw [setState_self]
  · rw [setState_of_ne h]

@[simp] theorem setState_name (i j : Slot) (st : ProcessState) (t : Slot → Process) :
    (setState i st t j).name = (t j).name := by
  by_cases h : j = i
  · subst h
    rw [setState_self]
  · rw [setState_of_ne h]

theorem findFreeSlot_some (h : findFreeSlot t = some slot) :
    (t slot).state = .libre ∧ ∀ j < slot, (t j).state ≠ .libre := by
  obtain ⟨hlibre, i, hi, rfl, hmin⟩ := List.find?_eq_some_iff_getElem.mp h
  refine ⟨by simpa using hlibre, ?_⟩
  intro j hj
  rw [List.getElem_finRange] at hj
  have hnot := hmin j.val hj
  rw [List.getElem_finRange] at hnot
  simpa using hnot

theorem findFreeSlot_none : findFreeSlot t = none ↔ ∀ i, (t i).state ≠ .libre := by
  simp [findFreeSlot, List.find?_eq_none]

end N7OS
