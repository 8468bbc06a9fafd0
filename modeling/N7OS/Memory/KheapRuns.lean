import N7OS.Foundation.StackedRegions
import N7OS.Memory.Kheap

/-! # The regions of the kernel heap

Any mix of calls of the `kmalloc` family after `init_kheap`. As long as the heap does
not reach the end of the address space, the regions are stacked from `mem_heap` up to
`placement_address`.
-/
namespace N7OS
open StackedRegions

/-- A call of the interface of `kheap.h`; a flag says that the pointer is not null. -/
inductive KmallocCall
  | kmalloc (sz : U32)
  | kmallocA (sz : U32)
  | kmallocP (sz : U32) (phys : Bool)
  | kmallocAp (sz : U32) (phys : Bool)
deriving DecidableEq

namespace KmallocCall

def sz : KmallocCall → U32
  | kmalloc sz => sz
  | kmallocA sz => sz
  | kmallocP sz _ => sz
  | kmallocAp sz _ => sz

def aligned : KmallocCall → Bool
  | kmalloc _ => false
  | kmallocA _ => true
  | kmallocP _ _ => false
  | kmallocAp _ _ => true

def hasPhys : KmallocCall → Bool
  | kmalloc _ => false
  | kmallocA _ => false
  | kmallocP _ phys => phys
  | kmallocAp _ phys => phys

def run (placementAddress : U32) : KmallocCall → Kmalloc
  | kmalloc sz => N7OS.kmalloc placementAddress sz
  | kmallocA sz => N7OS.kmallocA placementAddress sz
  | kmallocP sz phys => N7OS.kmallocP placementAddress sz phys
  | kmallocAp sz phys => N7OS.kmallocAp placementAddress sz phys

/-- Where the region starts, for numbers without a bound. -/
def start (n : ℕ) (c : KmallocCall) : ℕ := if c.aligned then pageCeil n else n

end KmallocCall

/-- A call, what it finds in `placement_address`, and what it does. -/
structure KmallocEvent where
  before : U32
  call : KmallocCall
  result : Kmalloc

def KmallocEvent.region (e : KmallocEvent) : Region := ⟨e.result.address.toNat, e.call.sz.toNat⟩

def runKmallocs (placementAddress : U32) (calls : List KmallocCall) : U32 :=
  calls.foldl (fun p c => (c.run p).placementAddress) placementAddress

def kmallocTrace (placementAddress : U32) : List KmallocCall → List KmallocEvent
  | [] => []
  | c :: calls =>
    let r := c.run placementAddress
    ⟨placementAddress, c, r⟩ :: kmallocTrace r.placementAddress calls

/-- Where the last region ends, padding included, for numbers without a bound. -/
def heapEnd (n : ℕ) (calls : List KmallocCall) : ℕ := calls.foldl (fun n c => c.start n + c.sz.toNat) n

section
variable {p : U32} {c : KmallocCall} {calls : List KmallocCall}

theorem KmallocCall.le_start (n : ℕ) (c : KmallocCall) : n ≤ c.start n := by
  unfold KmallocCall.start
  split
  · exact le_pageCeil n
  · exact le_rfl

theorem le_heapEnd (n : ℕ) (calls : List KmallocCall) : n ≤ heapEnd n calls := by
  induction calls generalizing n with
  | nil => exact le_rfl
  | cons c calls ih => exact (c.le_start n).trans ((Nat.le_add_right _ _).trans (ih _))

/-- All four functions are `kmalloc_int`. -/
theorem KmallocCall.run_eq (p : U32) (c : KmallocCall) :
    c.run p = kmallocInt p c.sz (if c.aligned then 1 else 0) c.hasPhys := by
  cases c <;> rfl

/-- A call that fits starts where it should and leaves `placement_address` at its end. -/
theorem KmallocCall.run_spec (hfit : c.start p.toNat + c.sz.toNat < 2 ^ 32) :
    (c.run p).address.toNat = c.start p.toNat ∧
      (c.run p).placementAddress.toNat = c.start p.toNat + c.sz.toNat ∧
      (c.run p).phys = if c.hasPhys then some (c.run p).address else none := by
  have haddress : (c.run p).address.toNat = c.start p.toNat := by
    rw [c.run_eq]
    cases haligned : c.aligned with
    | true =>
      rw [KmallocCall.start, if_pos haligned] at hfit ⊢
      exact kmallocInt_address_aligned c.sz c.hasPhys (by omega)
    | false => simp [kmallocInt, KmallocCall.start, haligned]
  refine ⟨haddress, ?_, ?_⟩
  · rw [← haddress] at hfit ⊢
    rw [c.run_eq] at hfit ⊢
    exact toNat_add_of_lt hfit
  · rw [c.run_eq]
    rfl

/-- The regions of a run are stacked, and the run ends where they do. -/
theorem stacked_kmallocTrace (hfit : heapEnd p.toNat calls < 2 ^ 32) :
    Stacked p.toNat ((kmallocTrace p calls).map KmallocEvent.region) (runKmallocs p calls).toNat := by
  induction calls generalizing p with
  | nil => exact le_rfl
  | cons c calls ih =>
    have hle : c.start p.toNat + c.sz.toNat ≤ heapEnd p.toNat (c :: calls) := le_heapEnd _ calls
    obtain ⟨haddress, hplacement, -⟩ := KmallocCall.run_spec (lt_of_le_of_lt hle hfit)
    have hrest := ih (p := (c.run p).placementAddress) (by rw [hplacement]; exact hfit)
    refine ⟨?_, ?_⟩
    · change p.toNat ≤ (c.run p).address.toNat
      rw [haddress]
      exact c.le_start _
    · have hstop : Region.stop ⟨(c.run p).address.toNat, c.sz.toNat⟩ = (c.run p).placementAddress.toNat := by
        rw [hplacement, Region.stop, haddress]
      change Stacked (Region.stop ⟨(c.run p).address.toNat, c.sz.toNat⟩) _ _
      rw [hstop]
      exact hrest

/-- What one call of a run that fits gives. -/
theorem mem_kmallocTrace (hfit : heapEnd p.toNat calls < 2 ^ 32) {e : KmallocEvent} (he : e ∈ kmallocTrace p calls) :
    e.result.address.toNat = e.call.start e.before.toNat ∧
      e.result.phys = if e.call.hasPhys then some e.result.address else none := by
  induction calls generalizing p with
  | nil => simp [kmallocTrace] at he
  | cons c calls ih =>
    have hle : c.start p.toNat + c.sz.toNat ≤ heapEnd p.toNat (c :: calls) := le_heapEnd _ calls
    obtain ⟨haddress, hplacement, hphys⟩ := KmallocCall.run_spec (lt_of_le_of_lt hle hfit)
    rcases List.mem_cons.mp he with rfl | he
    · exact ⟨haddress, hphys⟩
    · refine ih ?_ he
      rw [hplacement]
      exact hfit

end

/-- The regions of any calls that stay below `2 ^ 32` do not overlap and lie between `mem_heap` and
`placement_address`; an aligned one starts at the next page, and `*phys` is the address. -/
theorem kmalloc_regions (memHeap : U32) (calls : List KmallocCall) (hfit : heapEnd memHeap.toNat calls < 2 ^ 32) :
    let tr := kmallocTrace (initKheap memHeap) calls
    tr.Pairwise (fun e e' => Disjoint e.region.points e'.region.points) ∧
      ∀ e ∈ tr, memHeap.toNat ≤ e.region.start ∧ e.region.stop ≤ (runKmallocs (initKheap memHeap) calls).toNat ∧
        (e.call.aligned = true → e.result.address.toNat % 4096 = 0 ∧
          e.before.toNat ≤ e.result.address.toNat ∧ e.result.address.toNat - e.before.toNat < 4096) ∧
        e.result.phys = if e.call.hasPhys then some e.result.address else none := by
  intro tr
  have hstacked : Stacked memHeap.toNat (tr.map KmallocEvent.region) (runKmallocs (initKheap memHeap) calls).toNat :=
    stacked_kmallocTrace hfit
  have hdisjoint := hstacked.pairwise_disjoint
  rw [List.pairwise_map] at hdisjoint
  refine ⟨hdisjoint, ?_⟩
  intro e he
  obtain ⟨hlo, hhi⟩ := hstacked.bounds (List.mem_map_of_mem he)
  obtain ⟨haddress, hphys⟩ := mem_kmallocTrace hfit he
  refine ⟨hlo, hhi, ?_, hphys⟩
  intro haligned
  have hpage : e.result.address.toNat = pageCeil e.before.toNat := by
    rw [haddress, KmallocCall.start, if_pos haligned]
  rw [hpage]
  refine ⟨pageCeil_mod _, le_pageCeil _, ?_⟩
  unfold pageCeil
  omega

/-- A page after three bytes. -/
theorem kmalloc_regions_page :
    let tr := kmallocTrace (initKheap 0x120000#32) [.kmalloc 3#32, .kmallocAp 0x1000#32 true]
    tr.Pairwise (fun e e' => Disjoint e.region.points e'.region.points) ∧
      ∀ e ∈ tr, e.call.aligned = true → e.result.address.toNat % 4096 = 0 := by
  intro tr
  obtain ⟨hdisjoint, hall⟩ := kmalloc_regions 0x120000#32 [.kmalloc 3#32, .kmallocAp 0x1000#32 true] (by decide)
  exact ⟨hdisjoint, fun e he haligned => ((hall e he).2.2.1 haligned).1⟩

end N7OS
