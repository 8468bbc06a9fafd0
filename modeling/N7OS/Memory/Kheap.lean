import N7OS.Machine.Integers

/-! # The kernel heap

`kernel/kheap.c`: a bump allocator over `placement_address`, which starts at the
linker symbol `mem_heap` and never moves back.
-/
namespace N7OS

/-- What one `kmalloc_int` call returns, stores through `phys` and leaves in
`placement_address`. -/
structure Kmalloc where
  address : U32
  phys : Option U32
  placementAddress : U32

def initKheap (memHeap : U32) : U32 := memHeap

/-- `phys` says whether the pointer argument is non-null. -/
def kmallocInt (placementAddress sz : U32) (align : ℤ) (phys : Bool) : Kmalloc :=
  let placementAddress :=
    if align = 1 ∧ placementAddress &&& 0xFFF#32 ≠ 0 then
      (placementAddress &&& 0xFFFFF000#32) + 0x1000#32
    else placementAddress
  { address := placementAddress
    phys := if phys then some placementAddress else none
    placementAddress := placementAddress + sz }

def kmallocA (placementAddress sz : U32) : Kmalloc := kmallocInt placementAddress sz 1 false

def kmallocP (placementAddress sz : U32) (phys : Bool) : Kmalloc := kmallocInt placementAddress sz 0 phys

def kmallocAp (placementAddress sz : U32) (phys : Bool) : Kmalloc := kmallocInt placementAddress sz 1 phys

def kmalloc (placementAddress sz : U32) : Kmalloc := kmallocInt placementAddress sz 0 false

@[simp] theorem kmallocInt_placementAddress (p sz : U32) (align : ℤ) (phys : Bool) :
    (kmallocInt p sz align phys).placementAddress = (kmallocInt p sz align phys).address + sz := rfl

/-- An aligned request starts at the next page boundary. -/
theorem kmallocInt_address_aligned {p : U32} (sz : U32) (phys : Bool)
    (h : pageCeil p.toNat < 2 ^ 32) : (kmallocInt p sz 1 phys).address.toNat = pageCeil p.toNat := by
  have hlow := toNat_and_low12 p
  simp only [kmallocInt, true_and]
  by_cases h0 : p &&& 0xFFF#32 = 0
  · have hmod : p.toNat % 4096 = 0 := by rw [← hlow, h0]; rfl
    rw [if_neg (by simpa using h0), pageCeil_of_aligned hmod]
  · have hmod : p.toNat % 4096 ≠ 0 := by
      intro hz
      exact h0 (BitVec.eq_of_toNat_eq (hlow.trans hz))
    have hceil : p.toNat / 4096 * 4096 + 4096 = pageCeil p.toNat := by
      unfold pageCeil
      omega
    rw [if_pos h0, toNat_add_of_lt, toNat_and_page]
    · exact hceil
    · rw [toNat_and_page]
      exact hceil ▸ h

/-- `kmalloc_a` returns the next page boundary and consumes exactly `s` bytes from it. -/
theorem kmallocA_spec {p s : U32} (h : pageCeil p.toNat + s.toNat < 2 ^ 32) :
    (kmallocA p s).address.toNat = pageCeil p.toNat ∧
      (kmallocA p s).placementAddress.toNat = pageCeil p.toNat + s.toNat := by
  have ha : (kmallocA p s).address.toNat = pageCeil p.toNat :=
    kmallocInt_address_aligned s false (by omega)
  refine ⟨ha, ?_⟩
  change ((kmallocA p s).address + s).toNat = _
  rw [toNat_add_of_lt (by omega), ha]

end N7OS
