import N7OS.Foundation.BitField
import N7OS.Foundation.ByteMemory
import N7OS.Machine.Integers

/-! # Page directory and page table entries

The bit fields of `page_table_entry_t` in `paging.h`, the sequence of field
assignments by which the kernel fills an entry, and the two-level walk that the
processor makes from a page directory.
-/
namespace N7OS
open ByteMemory

namespace Pte

def present (v : U32) : BitVec 1 := BitField.get v 0 1
def rw (v : U32) : BitVec 1 := BitField.get v 1 1
def user (v : U32) : BitVec 1 := BitField.get v 2 1
def frameAddr (v : U32) : BitVec 20 := BitField.get v 12 20

def setPresent (v : U32) (x : BitVec 1) : U32 := BitField.put v 0 x
def setRw (v : U32) (x : BitVec 1) : U32 := BitField.put v 1 x
def setUser (v : U32) (x : BitVec 1) : U32 := BitField.put v 2 x
def setFrameAddr (v : U32) (x : BitVec 20) : U32 := BitField.put v 12 x

/-- The word that the field assignments leave in a present entry. -/
def make (rw user : BitVec 1) (frameAddr : BitVec 20) : U32 :=
  setFrameAddr (setUser (setRw (setPresent 0 1) rw) user) frameAddr

@[simp] theorem present_zero : present 0#32 = 0 := by decide

@[simp] theorem present_make (w u : BitVec 1) (f : BitVec 20) : present (make w u f) = 1 := by
  simp only [present, make, setFrameAddr, setUser, setRw, setPresent]
  rw [BitField.get_put_of_disjoint _ _ (by omega) (by omega),
    BitField.get_put_of_disjoint _ _ (by omega) (by omega),
    BitField.get_put_of_disjoint _ _ (by omega) (by omega), BitField.get_put_same _ _ (by omega)]

@[simp] theorem rw_make (w u : BitVec 1) (f : BitVec 20) : rw (make w u f) = w := by
  simp only [rw, make, setFrameAddr, setUser, setRw]
  rw [BitField.get_put_of_disjoint _ _ (by omega) (by omega),
    BitField.get_put_of_disjoint _ _ (by omega) (by omega), BitField.get_put_same _ _ (by omega)]

@[simp] theorem user_make (w u : BitVec 1) (f : BitVec 20) : user (make w u f) = u := by
  simp only [user, make, setFrameAddr, setUser]
  rw [BitField.get_put_of_disjoint _ _ (by omega) (by omega), BitField.get_put_same _ _ (by omega)]

@[simp] theorem frameAddr_make (w u : BitVec 1) (f : BitVec 20) : frameAddr (make w u f) = f :=
  BitField.get_put_same _ _ (by omega)

/-- The address `frame_addr << 12` of the page or table an entry points to. -/
def target (v : U32) : U32 := (frameAddr v).setWidth 32 <<< 12

theorem toNat_target (v : U32) : (target v).toNat = (frameAddr v).toNat * 4096 :=
  toNat_frame_shift _

/-- An entry made from a page-aligned address points back to it. -/
theorem toNat_target_make (w u : BitVec 1) {a : U32} (h : a.toNat % 4096 = 0) :
    (target (make w u ((a >>> 12).setWidth 20))).toNat = a.toNat := by
  rw [toNat_target, frameAddr_make, toNat_frame]
  omega

end Pte

/-- `value = 0` followed by the assignments to `present`, `rw`, `user` and `frame_addr`. -/
def writeEntry (m : Memory) (a : ℕ) (rw user : BitVec 1) (frameAddr : BitVec 20) : Memory :=
  let m := store32 m a 0
  let m := modify32 m a (Pte.setPresent · 1)
  let m := modify32 m a (Pte.setRw · rw)
  let m := modify32 m a (Pte.setUser · user)
  modify32 m a (Pte.setFrameAddr · frameAddr)

theorem writeEntry_eq (m : Memory) (a : ℕ) (rw user : BitVec 1) (frameAddr : BitVec 20) :
    writeEntry m a rw user frameAddr = store32 m a (Pte.make rw user frameAddr) := by
  simp only [writeEntry, modify32_store32, Pte.make]

/-- The two entries that a successful walk goes through. -/
structure Walk where
  pde : U32
  pte : U32

namespace Walk

def phys (w : Walk) (v : U32) : U32 := Pte.target w.pte + (v &&& 0xFFF#32)

def rw (w : Walk) : BitVec 1 := Pte.rw w.pde &&& Pte.rw w.pte

def user (w : Walk) : BitVec 1 := Pte.user w.pde &&& Pte.user w.pte

end Walk

/-- The address of the directory entry and of the table entry of `v`. -/
def pdeAddr (directory : U32) (v : U32) : ℕ := directory.toNat + 4 * ((v >>> 22) &&& 0x3FF#32).toNat

def pteAddr (table : U32) (v : U32) : ℕ := table.toNat + 4 * ((v >>> 12) &&& 0x3FF#32).toNat

def walk (m : Memory) (directory v : U32) : Option Walk :=
  let pde := load32 m (pdeAddr directory v)
  let pte := load32 m (pteAddr (Pte.target pde) v)
  if Pte.present pde = 1 ∧ Pte.present pte = 1 then some ⟨pde, pte⟩ else none

theorem pdeAddr_eq (directory v : U32) : pdeAddr directory v = directory.toNat + 4 * (v.toNat / 4194304) := by
  rw [pdeAddr, toNat_dirIdx]

theorem pteAddr_eq (table v : U32) : pteAddr table v = table.toNat + 4 * (v.toNat / 4096 % 1024) := by
  rw [pteAddr, toNat_tabIdx]

end N7OS
