import Mathlib.Order.CompletePartialOrder
import Mathlib.Order.Interval.Set.Disjoint
import N7OS.Memory.Paging

/-! # Two heaps from one symbol

`kernel/sbrk.c` beside `kernel/kheap.c`: both bump pointers start at `mem_heap`,
and each checks only its own. The calls of a run are given with the addresses
they return, from which the bytes handed out by either heap are read off.
-/
namespace N7OS

/-- `mem_heap_end` in `kernel.lds`. -/
def memHeapEnd : U32 := 0x1000000

/-- What `sbrk` returns and leaves in `curptr`; `diff` is a `ptrdiff_t`, in two's complement. -/
def sbrk (curptr diff : U32) : U32 × U32 :=
  let c := curptr + diff
  if c < curptr ∨ memHeapEnd < c then (0xFFFFFFFF, curptr) else (curptr, c)

structure Heaps where
  curptr : U32
  placementAddress : U32

/-- `static char *curptr = mem_heap` and `init_kheap`. -/
def Heaps.init (memHeap : U32) : Heaps := ⟨memHeap, initKheap memHeap⟩

/-- The functions of the `kmalloc` family are `kmalloc_int` with fixed arguments. -/
inductive HeapCall
  | sbrk (diff : U32)
  | kmallocInt (sz : U32) (align : ℤ) (phys : Bool)
deriving DecidableEq

def HeapCall.kmallocA (sz : U32) : HeapCall := .kmallocInt sz 1 false

def HeapCall.run (h : Heaps) : HeapCall → U32 × Heaps
  | .sbrk diff => ((N7OS.sbrk h.curptr diff).1, { h with curptr := (N7OS.sbrk h.curptr diff).2 })
  | .kmallocInt sz align phys =>
    let r := N7OS.kmallocInt h.placementAddress sz align phys
    (r.address, { h with placementAddress := r.placementAddress })

structure HeapEvent where
  call : HeapCall
  result : U32
deriving DecidableEq

/-- The calls of a run with what they return. -/
def heapTrace (h : Heaps) : List HeapCall → List HeapEvent
  | [] => []
  | c :: calls => ⟨c, (c.run h).1⟩ :: heapTrace (c.run h).2 calls

namespace HeapEvent

/-- The bytes handed out by a successful `sbrk`. -/
def sbrkBytes (e : HeapEvent) : Set ℕ :=
  match e.call with
  | .sbrk diff => if e.result = 0xFFFFFFFF then ∅ else Set.Ico e.result.toNat (e.result.toNat + diff.toNat)
  | .kmallocInt .. => ∅

def kmallocBytes (e : HeapEvent) : Set ℕ :=
  match e.call with
  | .sbrk _ => ∅
  | .kmallocInt sz _ _ => Set.Ico e.result.toNat (e.result.toNat + sz.toNat)

/-- A `kmalloc` range that ends inside the heap; `sbrk` sees to that itself. -/
def Inside (e : HeapEvent) : Prop :=
  match e.call with
  | .sbrk _ => True
  | .kmallocInt sz _ _ => e.result.toNat + sz.toNat ≤ memHeapEnd.toNat

instance (e : HeapEvent) : Decidable e.Inside :=
  match e with
  | ⟨.sbrk _, _⟩ => isTrue trivial
  | ⟨.kmallocInt sz _ _, result⟩ => inferInstanceAs (Decidable (result.toNat + sz.toNat ≤ memHeapEnd.toNat))

end HeapEvent

def HeapsDisjoint (tr : List HeapEvent) : Prop :=
  ∀ e ∈ tr, ∀ e' ∈ tr, Disjoint e.sbrkBytes e'.kmallocBytes

/-- The bytes that `sbrk` grants, each request if it still fits in the room left. -/
def sbrkTotal (room : ℕ) : List HeapCall → ℕ
  | [] => 0
  | .sbrk diff :: calls =>
    if diff.toNat ≤ room then diff.toNat + sbrkTotal (room - diff.toNat) calls else sbrkTotal room calls
  | .kmallocInt .. :: calls => sbrkTotal room calls

/-- Where the first `kmalloc` block that is not empty starts. -/
def firstBlock (start : ℕ) : List HeapCall → Option ℕ
  | [] => none
  | .sbrk _ :: calls => firstBlock start calls
  | .kmallocInt sz align _ :: calls =>
    let start := if align = 1 then pageCeil start else start
    if sz.toNat = 0 then firstBlock start calls else some start

/-- What `sbrk` grants ends before the first block of the other heap. -/
def HeapsApart (memHeap : U32) (calls : List HeapCall) : Prop :=
  let total := sbrkTotal (memHeapEnd.toNat - memHeap.toNat) calls
  total = 0 ∨ ∀ a, firstBlock memHeap.toNat calls = some a → memHeap.toNat + total ≤ a

theorem toNat_memHeapEnd : memHeapEnd.toNat = 2 ^ 24 := by decide

/-- `sbrk` moves on exactly when the request, read as unsigned, ends inside the heap. -/
theorem sbrk_eq (curptr diff : U32) : sbrk curptr diff =
    if curptr.toNat + diff.toNat ≤ 2 ^ 24 then (curptr, curptr + diff) else (0xFFFFFFFF, curptr) := by
  have hc := curptr.isLt
  have hd := diff.isLt
  have hend := toNat_memHeapEnd
  simp only [sbrk, BitVec.lt_def, BitVec.toNat_add, hend]
  by_cases h : curptr.toNat + diff.toNat ≤ 2 ^ 24
  · rw [if_neg (by omega), if_pos h]
  · rw [if_pos (by omega), if_neg h]

theorem kmallocInt_address {p : U32} (sz : U32) (align : ℤ) (phys : Bool) (h : p.toNat ≤ 2 ^ 24) :
    (kmallocInt p sz align phys).address.toNat = if align = 1 then pageCeil p.toNat else p.toNat := by
  by_cases ha : align = 1
  · subst ha
    rw [if_pos rfl]
    apply kmallocInt_address_aligned
    unfold pageCeil
    omega
  · simp [kmallocInt, ha]

section
variable {h : Heaps} {calls : List HeapCall}

theorem sbrk_step_of_fits {diff : U32} (hfit : h.curptr.toNat + diff.toNat ≤ 2 ^ 24) :
    (HeapCall.run h (.sbrk diff)).2.curptr.toNat = h.curptr.toNat + diff.toNat ∧
      HeapEvent.sbrkBytes ⟨.sbrk diff, (HeapCall.run h (.sbrk diff)).1⟩ =
        Set.Ico h.curptr.toNat (h.curptr.toNat + diff.toNat) := by
  have hne : h.curptr ≠ 0xFFFFFFFF := by
    intro he
    rw [he] at hfit
    simp at hfit
    omega
  constructor
  · simp only [HeapCall.run, sbrk_eq, if_pos hfit]
    exact toNat_add_of_lt (by omega)
  · simp only [HeapEvent.sbrkBytes, HeapCall.run, sbrk_eq, if_pos hfit, if_neg hne]

theorem sbrk_step_of_not_fits {diff : U32} (hfit : ¬h.curptr.toNat + diff.toNat ≤ 2 ^ 24) :
    (HeapCall.run h (.sbrk diff)).2 = h ∧
      HeapEvent.sbrkBytes ⟨.sbrk diff, (HeapCall.run h (.sbrk diff)).1⟩ = ∅ := by
  constructor
  · simp only [HeapCall.run, sbrk_eq, if_neg hfit]
  · simp only [HeapEvent.sbrkBytes, HeapCall.run, sbrk_eq, if_neg hfit, ↓reduceIte]

/-- Together the `sbrk` calls hand out the bytes from `curptr` up to the total granted. -/
theorem mem_sbrkBytes (hcur : h.curptr.toNat ≤ 2 ^ 24) (x : ℕ) :
    (∃ e ∈ heapTrace h calls, x ∈ e.sbrkBytes) ↔
      h.curptr.toNat ≤ x ∧ x < h.curptr.toNat + sbrkTotal (2 ^ 24 - h.curptr.toNat) calls := by
  induction calls generalizing h with
  | nil => simp [heapTrace, sbrkTotal]
  | cons c calls ih =>
    cases c with
    | sbrk diff =>
      simp only [heapTrace, List.mem_cons, exists_eq_or_imp, sbrkTotal]
      by_cases hfit : h.curptr.toNat + diff.toNat ≤ 2 ^ 24
      · obtain ⟨hnext, hbytes⟩ := sbrk_step_of_fits hfit
        have hroom : diff.toNat ≤ 2 ^ 24 - h.curptr.toNat := by omega
        rw [hbytes, ih (hnext.le.trans hfit), hnext, if_pos hroom, Nat.sub_sub, Set.mem_Ico]
        omega
      · obtain ⟨hnext, hbytes⟩ := sbrk_step_of_not_fits hfit
        have hroom : ¬diff.toNat ≤ 2 ^ 24 - h.curptr.toNat := by omega
        rw [hbytes, hnext, ih hcur, if_neg hroom]
        simp
    | kmallocInt sz align phys =>
      have hih := ih (h := (HeapCall.run h (.kmallocInt sz align phys)).2) hcur
      simpa [heapTrace, sbrkTotal, HeapEvent.sbrkBytes, HeapCall.run] using hih

theorem le_pageStart (p : ℕ) (align : ℤ) : p ≤ if align = 1 then pageCeil p else p := by
  split
  · exact le_pageCeil p
  · exact le_rfl

/-- An inside request starts at or after the watermark and moves it to its end. -/
theorem kmalloc_step {sz : U32} {align : ℤ} {phys : Bool} (hplace : h.placementAddress.toNat ≤ 2 ^ 24)
    (hin : HeapEvent.Inside ⟨.kmallocInt sz align phys, (HeapCall.run h (.kmallocInt sz align phys)).1⟩) :
    (HeapCall.run h (.kmallocInt sz align phys)).1.toNat =
        (if align = 1 then pageCeil h.placementAddress.toNat else h.placementAddress.toNat) ∧
      (HeapCall.run h (.kmallocInt sz align phys)).2.placementAddress.toNat =
        (HeapCall.run h (.kmallocInt sz align phys)).1.toNat + sz.toNat ∧
      (HeapCall.run h (.kmallocInt sz align phys)).1.toNat + sz.toNat ≤ 2 ^ 24 := by
  have hend : (HeapCall.run h (.kmallocInt sz align phys)).1.toNat + sz.toNat ≤ 2 ^ 24 := by
    rw [← toNat_memHeapEnd]
    exact hin
  exact ⟨kmallocInt_address sz align phys hplace, toNat_add_of_lt (Nat.lt_of_le_of_lt hend (by decide)), hend⟩

theorem le_of_mem_kmallocBytes (hplace : h.placementAddress.toNat ≤ 2 ^ 24)
    (hin : ∀ e ∈ heapTrace h calls, e.Inside) {x : ℕ} {e : HeapEvent} (he : e ∈ heapTrace h calls)
    (hx : x ∈ e.kmallocBytes) : h.placementAddress.toNat ≤ x := by
  induction calls generalizing h with
  | nil => cases he
  | cons c calls ih =>
    have hin' : ∀ e ∈ heapTrace (c.run h).2 calls, e.Inside := fun e he => hin e (List.mem_cons_of_mem _ he)
    cases c with
    | sbrk diff =>
      rcases List.mem_cons.mp he with rfl | he
      · cases hx
      · exact ih (h := (HeapCall.run h (.sbrk diff)).2) hplace hin' he
    | kmallocInt sz align phys =>
      obtain ⟨hstart, hnext, hend⟩ := kmalloc_step hplace (hin _ List.mem_cons_self)
      have hle := le_pageStart h.placementAddress.toNat align
      rcases List.mem_cons.mp he with rfl | he
      · exact (hle.trans hstart.ge).trans hx.1
      · have := ih (hnext.le.trans hend) hin' he
        omega

/-- The bytes of the `kmalloc` family begin with the first block that is not empty. -/
theorem firstBlock_spec (hplace : h.placementAddress.toNat ≤ 2 ^ 24)
    (hin : ∀ e ∈ heapTrace h calls, e.Inside) :
    (∀ a, firstBlock h.placementAddress.toNat calls = some a →
      h.placementAddress.toNat ≤ a ∧ ∃ e ∈ heapTrace h calls, a ∈ e.kmallocBytes) ∧
    ∀ e ∈ heapTrace h calls, ∀ x ∈ e.kmallocBytes,
      ∃ a, firstBlock h.placementAddress.toNat calls = some a ∧ a ≤ x := by
  induction calls generalizing h with
  | nil => simp [heapTrace, firstBlock]
  | cons c calls ih =>
    have hin' : ∀ e ∈ heapTrace (c.run h).2 calls, e.Inside := fun e he => hin e (List.mem_cons_of_mem _ he)
    cases c with
    | sbrk diff =>
      obtain ⟨hfirst, hbytes⟩ := ih (h := (HeapCall.run h (.sbrk diff)).2) hplace hin'
      constructor
      · intro a ha
        obtain ⟨hle, e, he, hx⟩ := hfirst a ha
        exact ⟨hle, e, List.mem_cons_of_mem _ he, hx⟩
      · intro e he x hx
        rcases List.mem_cons.mp he with rfl | he
        · cases hx
        · exact hbytes e he x hx
    | kmallocInt sz align phys =>
      obtain ⟨hstart, hnext, hend⟩ := kmalloc_step hplace (hin _ List.mem_cons_self)
      have hle := le_pageStart h.placementAddress.toNat align
      simp only [firstBlock, ← hstart]
      by_cases hsz : sz.toNat = 0
      · have hsame : (HeapCall.run h (.kmallocInt sz align phys)).2.placementAddress.toNat =
            (HeapCall.run h (.kmallocInt sz align phys)).1.toNat := by omega
        obtain ⟨hfirst, hbytes⟩ := ih (hnext.le.trans hend) hin'
        rw [hsame] at hfirst hbytes
        rw [if_pos hsz]
        constructor
        · intro a ha
          obtain ⟨hle', e, he, hx⟩ := hfirst a ha
          exact ⟨by omega, e, List.mem_cons_of_mem _ he, hx⟩
        · intro e he x hx
          rcases List.mem_cons.mp he with rfl | he
          · have hlt := hx.2
            rw [hsz] at hlt
            exact absurd hx.1 (Nat.not_le_of_lt hlt)
          · exact hbytes e he x hx
      · rw [if_neg hsz]
        constructor
        · rintro a ha
          obtain rfl := Option.some.inj ha
          refine ⟨by omega, _, List.mem_cons_self, le_rfl, ?_⟩
          exact Nat.lt_add_of_pos_right (Nat.pos_of_ne_zero hsz)
        · intro e he x hx
          refine ⟨_, rfl, ?_⟩
          rcases List.mem_cons.mp he with rfl | he
          · exact hx.1
          · have := le_of_mem_kmallocBytes (hnext.le.trans hend) hin' he hx
            omega

end

/-- The two heaps of a run stay apart exactly when what `sbrk` grants ends before the first block of
the other heap. -/
theorem heapsDisjoint_iff (memHeap : U32) (calls : List HeapCall) (hheap : memHeap.toNat ≤ memHeapEnd.toNat)
    (hin : ∀ e ∈ heapTrace (.init memHeap) calls, e.Inside) :
    HeapsDisjoint (heapTrace (.init memHeap) calls) ↔ HeapsApart memHeap calls := by
  rw [toNat_memHeapEnd] at hheap
  have hsbrk : ∀ x, (∃ e ∈ heapTrace (.init memHeap) calls, x ∈ e.sbrkBytes) ↔
      memHeap.toNat ≤ x ∧ x < memHeap.toNat + sbrkTotal (2 ^ 24 - memHeap.toNat) calls :=
    mem_sbrkBytes (h := .init memHeap) hheap
  obtain ⟨hfirst, hbytes⟩ := firstBlock_spec (h := .init memHeap) hheap hin
  change ∀ a, firstBlock memHeap.toNat calls = some a → memHeap.toNat ≤ a ∧ _ at hfirst
  rw [HeapsApart, toNat_memHeapEnd]
  constructor
  · intro hdisj
    by_contra hno
    simp only [not_or, not_forall, not_le] at hno
    obtain ⟨htotal, a, ha, hlt⟩ := hno
    obtain ⟨hle, e', he', hx'⟩ := hfirst a ha
    obtain ⟨e, he, hx⟩ := (hsbrk a).mpr ⟨hle, hlt⟩
    exact Set.disjoint_left.mp (hdisj e he e' he') hx hx'
  · intro hapart e he e' he'
    apply Set.disjoint_left.mpr
    intro x hx hx'
    obtain ⟨hge, hlt⟩ := (hsbrk x).mp ⟨e, he, hx⟩
    obtain ⟨a, ha, hle⟩ := hbytes e' he' x hx'
    rcases hapart with h0 | hall
    · omega
    · have := hall a ha
      omega

/-- What `initialise_paging` asks of the heap: the directory and the four identity tables. -/
def initialisePagingCalls : List HeapCall := List.replicate 5 (.kmallocA (4 * 1024))

/-- After start-up all that `sbrk` may grant is the padding before the page directory. -/
theorem heapsApart_after_initialisePaging (memHeap : U32) (calls : List HeapCall) :
    HeapsApart memHeap (initialisePagingCalls ++ calls) ↔
      sbrkTotal (memHeapEnd.toNat - memHeap.toNat) calls = 0 ∨
        memHeap.toNat + sbrkTotal (memHeapEnd.toNat - memHeap.toNat) calls ≤ pageCeil memHeap.toNat := by
  have htotal : sbrkTotal (memHeapEnd.toNat - memHeap.toNat) (initialisePagingCalls ++ calls) =
      sbrkTotal (memHeapEnd.toNat - memHeap.toNat) calls := rfl
  have hfirst : firstBlock memHeap.toNat (initialisePagingCalls ++ calls) = some (pageCeil memHeap.toNat) := rfl
  simp [HeapsApart, htotal, hfirst]

/-- Start-up and a request of one page. -/
theorem heapsDisjoint_iff_120000 :
    HeapsDisjoint (heapTrace (.init 0x120000) (initialisePagingCalls ++ [.sbrk 0x1000])) ↔
      HeapsApart 0x120000 (initialisePagingCalls ++ [.sbrk 0x1000]) :=
  heapsDisjoint_iff 0x120000 _ (by decide) (by decide)

/-- The request is answered with the page directory. -/
theorem sbrk_hands_out_directory :
    let tr := heapTrace (.init 0x120000) (initialisePagingCalls ++ [.sbrk 0x1000])
    (∀ e ∈ tr, e.Inside) ∧ ¬HeapsDisjoint tr := by
  refine ⟨by decide, ?_⟩
  intro hdisj
  have h := hdisj ⟨.sbrk 0x1000, 0x120000⟩ (by decide) ⟨.kmallocA (4 * 1024), 0x120000⟩ (by decide)
  have hsbrk : 0x120000 ∈ HeapEvent.sbrkBytes ⟨.sbrk 0x1000, 0x120000⟩ := by simp [HeapEvent.sbrkBytes]
  apply Set.disjoint_left.mp h hsbrk
  simp [HeapEvent.kmallocBytes, HeapCall.kmallocA]

end N7OS
