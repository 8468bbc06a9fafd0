import N7OS.Foundation.LastWrite
import N7OS.Processor.Descriptors

/-! # The interrupt table

`kernel/irq.c` writes an entry field by field through a packed structure, where
`fill_gate` builds the 64 bits with shifts. A run of installations is a run of writes
to a table of gates.
-/
namespace N7OS
open ByteMemory LastWrite

/-- A vector of the table, which has `IDT_ENTRIES` entries. -/
abbrev IdtVector := Fin 256

def idtFlagIntGateKernel : U8 := 0x8E#8
def idtFlagIntGateUser : U8 := 0xEE#8

/-- The fields of `idt_entry_t`, one after the other. -/
def installEntry (typeAttr : U8) (m : Memory) (idt numLine : ℕ) (handler : U32) : Memory :=
  let entry := idt + 8 * numLine
  let m := store16 m entry ((handler &&& 0xFFFF#32).setWidth 16)
  let m := store16 m (entry + 2) kernelCs
  let m := store8 m (entry + 4) 0#8
  let m := store8 m (entry + 5) typeAttr
  store16 m (entry + 6) (((handler >>> 16) &&& 0xFFFF#32).setWidth 16)

def initIdtEntry (m : Memory) (idt numLine : ℕ) (handler : U32) : Memory :=
  installEntry idtFlagIntGateKernel m idt numLine handler

def initIrqEntry (m : Memory) (idt irqNum : ℕ) (addr : U32) : Memory :=
  installEntry idtFlagIntGateUser m idt irqNum addr

/-- A call of one of the two. -/
inductive Installation
  | initIdtEntry (numLine : IdtVector) (handler : U32)
  | initIrqEntry (irqNum : IdtVector) (addr : U32)
deriving DecidableEq

namespace Installation

def vector : Installation → IdtVector
  | initIdtEntry n _ => n
  | initIrqEntry n _ => n

def run (idt : ℕ) (m : Memory) : Installation → Memory
  | initIdtEntry n handler => N7OS.initIdtEntry m idt n handler
  | initIrqEntry n addr => N7OS.initIrqEntry m idt n addr

/-- The interrupt gate that is meant: for the kernel, or open to user code. -/
def gate : Installation → GateDescriptor
  | initIdtEntry _ handler => ⟨handler, kernelCs, 1#1, 0#2, 0#1, 0xE#4⟩
  | initIrqEntry _ addr => ⟨addr, kernelCs, 1#1, 3#2, 0#1, 0xE#4⟩

end Installation

def installAll (idt : ℕ) (m : Memory) (calls : List Installation) : Memory :=
  calls.foldl (Installation.run idt) m

/-- The table in memory. -/
def idtTable (m : Memory) (idt : ℕ) : IdtVector → U64 := fun n => load64 m (idt + 8 * n)

section
variable {m : Memory} {idt : ℕ} {calls : List Installation}

/-- The stores of the fields are one store of the entry. -/
theorem installEntry_eq (typeAttr : U8) (m : Memory) (idt numLine : ℕ) (handler : U32) :
    installEntry typeAttr m idt numLine handler =
      store64 m (idt + 8 * numLine)
        ((handler.extractLsb' 16 16 ++ (typeAttr ++ 0#8)) ++ (kernelCs ++ handler.setWidth 16)) := by
  have hinf : (handler &&& 0xFFFF#32).setWidth 16 = handler.setWidth 16 := by
    apply BitVec.eq_of_getLsbD_eq
    intro i hi
    interval_cases i <;> simp
  have hsup : ((handler >>> 16) &&& 0xFFFF#32).setWidth 16 = handler.extractLsb' 16 16 := by
    apply BitVec.eq_of_getLsbD_eq
    intro i hi
    interval_cases i <;> simp
  generalize hentry : idt + 8 * numLine = entry
  have hfields : installEntry typeAttr m idt numLine handler =
      store16 (store8 (store8 (store16 (store16 m entry (handler.setWidth 16)) (entry + 2) kernelCs) (entry + 4) 0#8)
        (entry + 4 + 1) typeAttr) (entry + 4 + 2) (handler.extractLsb' 16 16) := by
    simp only [installEntry, hentry, hinf, hsup]
  rw [hfields, store32_append, store16_append, store32_append, store64_append]

/-- The entry of either function, with the attribute byte taken apart. -/
theorem installEntry_gate (m : Memory) (idt numLine : ℕ) (handler : U32) (access : U8) {typeAttr : U8}
    (h : 1#1 ++ access.extractLsb' 5 2 ++ access.extractLsb' 4 1 ++ access.extractLsb' 0 4 = typeAttr) :
    installEntry typeAttr m idt numLine handler =
      store64 m (idt + 8 * numLine) (accessGate handler kernelCs access).encode := by
  rw [installEntry_eq, ← h]
  rfl

theorem initIdtEntry_eq (m : Memory) (idt n : ℕ) (a : U32) :
    initIdtEntry m idt n a = store64 m (idt + 8 * n) (accessGate a kernelCs 0x0E#8).encode :=
  installEntry_gate m idt n a 0x0E#8 rfl

theorem initIrqEntry_eq (m : Memory) (idt n : ℕ) (a : U32) :
    initIrqEntry m idt n a = store64 m (idt + 8 * n) (accessGate a kernelCs 0x6E#8).encode :=
  installEntry_gate m idt n a 0x6E#8 rfl

theorem installation_run (i : Installation) (idt : ℕ) (m : Memory) :
    i.run idt m = store64 m (idt + 8 * i.vector) i.gate.encode := by
  cases i with
  | initIdtEntry n handler => exact initIdtEntry_eq m idt n handler
  | initIrqEntry n addr => exact initIrqEntry_eq m idt n addr

/-- An installation is one write to the table. -/
theorem idtTable_run (i : Installation) (idt : ℕ) (m : Memory) :
    idtTable (i.run idt m) idt = Function.update (idtTable m idt) i.vector i.gate.encode := by
  funext n
  rw [idtTable, installation_run]
  by_cases hn : n = i.vector
  · rw [hn, Function.update_self, load64_store64_same]
  · have hne : n.val ≠ i.vector.val := fun h => hn (Fin.ext h)
    rw [Function.update_of_ne hn, load64_store64_of_disjoint _ (by omega)]
    rfl

theorem idtTable_installAll (idt : ℕ) (m : Memory) (calls : List Installation) :
    idtTable (installAll idt m calls) idt =
      writeAll Installation.vector (fun i => i.gate.encode) (idtTable m idt) calls := by
  induction calls generalizing m with
  | nil => rfl
  | cons i calls ih =>
    have hrest := ih (i.run idt m)
    rw [idtTable_run] at hrest
    exact hrest

theorem installAll_of_outside {x : ℕ} (hx : x < idt ∨ idt + 8 * 256 ≤ x) (m : Memory) (calls : List Installation) :
    installAll idt m calls x = m x := by
  induction calls generalizing m with
  | nil => rfl
  | cons i calls ih =>
    have hvector := i.vector.isLt
    have hfirst : i.run idt m x = m x := by
      rw [installation_run, store64_of_outside _ (by omega)]
    exact (ih (i.run idt m)).trans hfirst

end

/-- Both functions leave the memory that `fill_gate` leaves, an interrupt gate to the handler, and after
any installations a vector has the gate of the last one on it. -/
theorem idt_encoders_agree (m : Memory) (idt : ℕ) :
    (∀ n a, initIdtEntry m idt n a =
          fillGate m (idt + 8 * n) a kernelCs ((accPlK ||| accIntrGate).setWidth 8) 0#8 ∧
        initIrqEntry m idt n a = fillGate m (idt + 8 * n) a kernelCs ((accPlU ||| accIntrGate).setWidth 8) 0#8) ∧
      (∀ n a, GateDescriptor.decode (load64 (initIdtEntry m idt n a) (idt + 8 * n)) =
            ⟨a, kernelCs, 1#1, 0#2, 0#1, 0xE#4⟩ ∧
          GateDescriptor.decode (load64 (initIrqEntry m idt n a) (idt + 8 * n)) = ⟨a, kernelCs, 1#1, 3#2, 0#1, 0xE#4⟩) ∧
      ∀ calls : List Installation,
        (∀ v : IdtVector, match lastAt Installation.vector v calls with
          | some i => GateDescriptor.decode (idtTable (installAll idt m calls) idt v) = i.gate
          | none => idtTable (installAll idt m calls) idt v = idtTable m idt v) ∧
        ∀ x, x < idt ∨ idt + 8 * 256 ≤ x → installAll idt m calls x = m x := by
  refine ⟨?_, ?_, ?_⟩
  · intro n a
    rw [fillGate_eq, fillGate_eq]
    exact ⟨initIdtEntry_eq m idt n a, initIrqEntry_eq m idt n a⟩
  · intro n a
    rw [initIdtEntry_eq, initIrqEntry_eq]
    simp only [load64_store64_same, GateDescriptor.decode_encode]
    exact ⟨rfl, rfl⟩
  · intro calls
    refine ⟨?_, fun x hx => installAll_of_outside hx m calls⟩
    intro v
    have hread := writeAll_apply Installation.vector (fun i => i.gate.encode) (idtTable m idt) calls v
    rw [← idtTable_installAll] at hread
    cases hlast : lastAt Installation.vector v calls with
    | none =>
      rw [hlast] at hread
      exact hread
    | some i =>
      rw [hlast] at hread
      simp only [hread, Option.map_some, Option.getD_some, GateDescriptor.decode_encode]

/-- The handler of vector 50 installed twice, with the keyboard's in between. -/
theorem idt_encoders_agree_twice :
    let calls : List Installation :=
      [.initIdtEntry 50 0x100000#32, .initIrqEntry 0x21 0x100100#32, .initIdtEntry 50 0x100200#32]
    let m := installAll 0x20000 (fun _ => 0) calls
    GateDescriptor.decode (idtTable m 0x20000 50) = ⟨0x100200#32, kernelCs, 1#1, 0#2, 0#1, 0xE#4⟩ ∧ m 0 = 0 := by
  intro calls m
  obtain ⟨hlast, hout⟩ := (idt_encoders_agree (fun _ => 0) 0x20000).2.2 calls
  exact ⟨hlast 50, hout 0 (by decide)⟩

end N7OS
