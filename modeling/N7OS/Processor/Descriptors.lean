import Mathlib.Tactic.IntervalCases
import N7OS.Foundation.PackedWords
import N7OS.Machine.Integers

/-! # Descriptors of the processor

`fill_descriptor` and `fill_gate` of `kernel/processor_structs.c` build the 64 bits of
a descriptor with shifts. The layouts that the processor and `irq.h` give to these bits
are records of fields, encoded by concatenation.
-/
namespace N7OS
open ByteMemory

/-! ## Constants of `processor_structs.c` and `segment.h` -/

def sz32 : U32 := 0x4#32
def szG : U32 := 0x8#32
def accTss : U32 := 0x09#32
def accIntrGate : U32 := 0x0E#32
def accDataW : U32 := 0x12#32
def accCodeR : U32 := 0x1A#32
def accPlK : U32 := 0x00#32
def accPlU : U32 := 0x60#32
def accP : U32 := 0x80#32

def baseTss : U16 := 0x08#16
def kernelCs : U16 := 0x10#16
def kernelDs : U16 := 0x18#16
def userCs : U16 := 0x43#16
def userDs : U16 := 0x4B#16
def trapTssBase : U16 := 0x50#16

/-! ## The two encoders -/

/-- `*entry = (((unsigned long long) p1) << 32) | p0`. -/
def storeHalves (m : Memory) (entry : ℕ) (p1 p0 : U32) : Memory :=
  store64 m entry (p1.setWidth 64 <<< 32 ||| p0.setWidth 64)

def fillDescriptor (m : Memory) (entry : ℕ) (addr limit access sizebits : U32) : Memory :=
  let base := addr
  let (limit, sizebits) := if 0xFFFFF#32 < limit then (limit >>> 12, sizebits ||| szG) else (limit, sizebits)
  let p0 := (limit &&& 0xFFFF#32) + ((base &&& 0xFFFF#32) <<< 16)
  let p1 := (base >>> 16) &&& 0xFF#32
  let p1 := p1 ||| (((access ||| accP) &&& 0xFF#32) <<< 8)
  let p1 := p1 ||| (limit &&& 0xF0000#32)
  let p1 := p1 ||| ((sizebits &&& 0xF#32) <<< 20)
  let p1 := p1 ||| (base &&& 0xFF000000#32)
  storeHalves m entry p1 p0

def fillGate (m : Memory) (entry : ℕ) (offset : U32) (selector : U16) (access wordCount : U8) : Memory :=
  let p0 := offset &&& 0xFFFF#32
  let p0 := p0 ||| (selector.setWidth 32 <<< 16)
  let p1 := wordCount.setWidth 32 &&& 0xF#32
  let p1 := p1 ||| ((access.setWidth 32 ||| accP) <<< 8)
  let p1 := p1 ||| (offset &&& 0xFFFF0000#32)
  storeHalves m entry p1 p0

/-! ## What the bits mean -/

/-- A segment descriptor, as the processor reads it. -/
@[ext] structure SegmentDescriptor where
  base : U32
  limit : BitVec 20
  access : U8
  flags : BitVec 4

namespace SegmentDescriptor

def encode (d : SegmentDescriptor) : U64 :=
  (d.base.extractLsb' 24 8 ++ (d.flags ++ d.limit.extractLsb' 16 4) ++ (d.access ++ d.base.extractLsb' 16 8)) ++
    (d.base.setWidth 16 ++ d.limit.setWidth 16)

def decode (v : U64) : SegmentDescriptor where
  base := v.extractLsb' 56 8 ++ v.extractLsb' 16 24
  limit := v.extractLsb' 48 4 ++ v.extractLsb' 0 16
  access := v.extractLsb' 40 8
  flags := v.extractLsb' 52 4

/-- The last byte of the segment: with the granularity bit the unit is a page. -/
def effectiveLimit (d : SegmentDescriptor) : U32 :=
  if d.flags.getLsbD 3 then d.limit.setWidth 32 <<< 12 ||| 0xFFF#32 else d.limit.setWidth 32

@[simp] theorem decode_encode (d : SegmentDescriptor) : decode d.encode = d := by
  ext i hi
  all_goals
    simp only [decode, encode, ← BitVec.getLsbD_eq_getElem, BitVec.getLsbD_append, BitVec.getLsbD_extractLsb']
    interval_cases i <;> simp

end SegmentDescriptor

/-- A gate, in the layout of `irq.h`. -/
@[ext] structure GateDescriptor where
  offset : U32
  selector : U16
  present : BitVec 1
  dpl : BitVec 2
  s : BitVec 1
  gateType : BitVec 4

namespace GateDescriptor

def encode (g : GateDescriptor) : U64 :=
  (g.offset.extractLsb' 16 16 ++ ((g.present ++ g.dpl ++ g.s ++ g.gateType) ++ 0#8)) ++
    (g.selector ++ g.offset.setWidth 16)

def decode (v : U64) : GateDescriptor where
  offset := v.extractLsb' 48 16 ++ v.extractLsb' 0 16
  selector := v.extractLsb' 16 16
  present := v.extractLsb' 47 1
  dpl := v.extractLsb' 45 2
  s := v.extractLsb' 44 1
  gateType := v.extractLsb' 40 4

@[simp] theorem decode_encode (g : GateDescriptor) : decode g.encode = g := by
  ext i hi
  all_goals
    simp only [decode, encode, ← BitVec.getLsbD_eq_getElem, BitVec.getLsbD_append, BitVec.getLsbD_extractLsb']
    interval_cases i <;> simp

end GateDescriptor

/-! ## What the encoders write -/

/-- The descriptor of a segment of `limit + 1` bytes, in pages when the field for the limit is too small. -/
def segmentDescriptor (base limit access sizebits : U32) : SegmentDescriptor :=
  if 0xFFFFF#32 < limit then
    ⟨base, (limit >>> 12).setWidth 20, (access ||| accP).setWidth 8, (sizebits ||| szG).setWidth 4⟩
  else ⟨base, limit.setWidth 20, (access ||| accP).setWidth 8, sizebits.setWidth 4⟩

/-- The gate with the type and the privilege level of an access byte, present. -/
def accessGate (offset : U32) (selector : U16) (access : U8) : GateDescriptor where
  offset := offset
  selector := selector
  present := 1#1
  dpl := access.extractLsb' 5 2
  s := access.extractLsb' 4 1
  gateType := access.extractLsb' 0 4

section
variable (m : Memory) (entry : ℕ)

theorem storeHalves_eq (p1 p0 : U32) : storeHalves m entry p1 p0 = store64 m entry (p1 ++ p0) := by
  have h : (p1 ++ p0).setWidth 64 = p1.setWidth 64 <<< 32 ||| p0.setWidth 64 :=
    BitVec.setWidth_append_eq_shiftLeft_setWidth_or
  rw [storeHalves, ← h]
  rfl

/-- The two halves of a descriptor, as `fill_descriptor` puts them together. -/
theorem descriptor_halves (base limit access sizebits : U32) :
    storeHalves m entry
        ((base >>> 16) &&& 0xFF#32 ||| (((access ||| accP) &&& 0xFF#32) <<< 8) ||| (limit &&& 0xF0000#32) |||
          ((sizebits &&& 0xF#32) <<< 20) ||| (base &&& 0xFF000000#32))
        ((limit &&& 0xFFFF#32) + ((base &&& 0xFFFF#32) <<< 16)) =
      store64 m entry
        (SegmentDescriptor.encode
          ⟨base, limit.setWidth 20, (access ||| accP).setWidth 8, sizebits.setWidth 4⟩) := by
  have hdisjoint : (limit &&& 0xFFFF#32) &&& ((base &&& 0xFFFF#32) <<< 16) = 0#32 := by
    apply BitVec.eq_of_getLsbD_eq
    intro i hi
    interval_cases i <;> simp
  have hlow : (limit &&& 0xFFFF#32) + ((base &&& 0xFFFF#32) <<< 16) = base.setWidth 16 ++ limit.setWidth 16 := by
    rw [BitVec.add_eq_or_of_and_eq_zero _ _ hdisjoint]
    apply BitVec.eq_of_getLsbD_eq
    intro i hi
    rw [BitVec.getLsbD_append]
    interval_cases i <;> simp
  have hhigh : (base >>> 16) &&& 0xFF#32 ||| (((access ||| accP) &&& 0xFF#32) <<< 8) ||| (limit &&& 0xF0000#32) |||
      ((sizebits &&& 0xF#32) <<< 20) ||| (base &&& 0xFF000000#32) =
        base.extractLsb' 24 8 ++ (sizebits.setWidth 4 ++ limit.extractLsb' 16 4) ++
          ((access ||| accP).setWidth 8 ++ base.extractLsb' 16 8) := by
    apply BitVec.eq_of_getLsbD_eq
    intro i hi
    simp only [BitVec.getLsbD_append]
    interval_cases i <;> simp
  have hlimit : (limit.setWidth 20).extractLsb' 16 4 = limit.extractLsb' 16 4 :=
    BitVec.extractLsb'_setWidth_of_le (by decide)
  rw [storeHalves_eq, hlow, hhigh, SegmentDescriptor.encode, hlimit, BitVec.setWidth_setWidth_of_le _ (by decide)]

theorem fillDescriptor_eq (base limit access sizebits : U32) :
    fillDescriptor m entry base limit access sizebits =
      store64 m entry (segmentDescriptor base limit access sizebits).encode := by
  unfold fillDescriptor segmentDescriptor
  by_cases hbig : 0xFFFFF#32 < limit
  · simp only [if_pos hbig]
    exact descriptor_halves m entry base (limit >>> 12) access (sizebits ||| szG)
  · simp only [if_neg hbig]
    exact descriptor_halves m entry base limit access sizebits

theorem fillGate_eq (offset : U32) (selector : U16) (access : U8) :
    fillGate m entry offset selector access 0#8 = store64 m entry (accessGate offset selector access).encode := by
  have hlow : offset &&& 0xFFFF#32 ||| (selector.setWidth 32 <<< 16) = selector ++ offset.setWidth 16 := by
    apply BitVec.eq_of_getLsbD_eq
    intro i hi
    rw [BitVec.getLsbD_append]
    interval_cases i <;> simp
  have hhigh : (0#8).setWidth 32 &&& 0xF#32 ||| ((access.setWidth 32 ||| accP) <<< 8) ||| (offset &&& 0xFFFF0000#32) =
      offset.extractLsb' 16 16 ++
        ((1#1 ++ access.extractLsb' 5 2 ++ access.extractLsb' 4 1 ++ access.extractLsb' 0 4) ++ 0#8) := by
    apply BitVec.eq_of_getLsbD_eq
    intro i hi
    simp only [BitVec.getLsbD_append]
    interval_cases i <;> simp [accP]
  rw [fillGate, storeHalves_eq, hlow, hhigh]
  rfl

end

end N7OS
