import N7OS.Memory.Kheap
import N7OS.Memory.PageEntry
import N7OS.Memory.PhysicalPages

/-! # Paging

`kernel/paging.c`. The state holds physical memory, the two allocators, the directory
pointer and the control registers. Until paging is switched on a pointer is a physical
address; afterwards every access of `alloc_page_entry` goes through the tables that it
is changing.
-/
namespace N7OS
open ByteMemory Execution

structure Paging where
  mem : Memory
  placementAddress : U32
  pageBitmap : PageBitmap
  kernelDirectory : U32
  cr3 : U32
  cr0 : U32

namespace Paging

/-- Entry `d` of the directory, in physical memory. -/
def pde (s : Paging) (d : ℕ) : U32 := load32 s.mem (s.kernelDirectory.toNat + 4 * d)

/-- The physical address of an access by the kernel. With paging on the processor walks the tables
from CR3, at each access anew, and a missing entry is a page fault; the kernel may write to a
read-only page unless CR0.WP is set. -/
def translate (s : Paging) (v : U32) (write : Bool) : Option ℕ :=
  if s.cr0.getLsbD 31 then
    match walk s.mem s.cr3 v with
    | some w => if write && s.cr0.getLsbD 16 && w.rw == 0 then none else some (w.phys v).toNat
    | none => none
  else some v.toNat

/-- A load of an aligned word, which lies in one page; `none` is a page fault, here and below. -/
def load (s : Paging) (v : U32) : Option U32 := (s.translate v false).map (load32 s.mem)

def store (s : Paging) (v x : U32) : Option Paging :=
  (s.translate v true).map (fun a => { s with mem := store32 s.mem a x })

def modify (s : Paging) (v : U32) (f : U32 → U32) : Option Paging :=
  (s.load v).bind (fun x => s.store v (f x))

/-- `writeEntry` at a virtual address. -/
def setEntry (s : Paging) (v : U32) (rw user : BitVec 1) (frameAddr : BitVec 20) : Option Paging := do
  let s ← s.store v 0
  let s ← s.modify v (Pte.setPresent · 1)
  let s ← s.modify v (Pte.setRw · rw)
  let s ← s.modify v (Pte.setUser · user)
  s.modify v (Pte.setFrameAddr · frameAddr)

/-- The loop that clears the `n` entries of a new table. -/
def clearTable (s : Paging) (table : U32) (n : ℕ) : Option Paging :=
  countedLoop n (fun i s => s.bind (fun s => s.store (table + BitVec.ofNat 32 (4 * i)) 0)) (some s)

end Paging

/-- The inner loop of `initialise_paging`: entry `i` of table `dir` maps page `dir * 1024 + i`
to itself. -/
def fillIdentity (m : Memory) (table : U32) (dir : ℕ) : Memory :=
  countedLoop 1024 (fun i m =>
    let phys := BitVec.ofNat 32 ((dir * 1024 + i) * 4096)
    writeEntry m (table.toNat + 4 * i) 1 0 ((phys >>> 12).setWidth 20)) m

/-- One round of the outer loop: allocate a table, fill it and link it at `dir`. -/
def identityTable (dir : ℕ) (s : Paging) : Paging :=
  let table := kmallocA s.placementAddress (4 * 1024)
  let m := fillIdentity s.mem table.address dir
  { s with
    placementAddress := table.placementAddress
    mem := writeEntry m (s.kernelDirectory.toNat + 4 * dir) 1 0 ((table.address >>> 12).setWidth 20) }

/-- The loop `for (addr; addr < placement_address; addr += PAGE_SIZE) setPage(addr)`. -/
def markUsed (bitmap : PageBitmap) (placementAddress addr : U32) : Option PageBitmap :=
  if addr < placementAddress then
    if h : addr.toNat < 2 ^ 24 then
      (setPage bitmap addr).bind (fun bitmap => markUsed bitmap placementAddress (addr + 0x1000))
    else setPage bitmap addr
  else some bitmap
termination_by 2 ^ 25 - addr.toNat
decreasing_by
  rw [toNat_add_of_lt] <;> simp only [BitVec.reduceToNat] <;> omega

def initialisePaging (s : Paging) : Option Paging :=
  let directory := kmallocA s.placementAddress (4 * 1024)
  let s := { s with
    kernelDirectory := directory.address
    placementAddress := directory.placementAddress
    mem := storeWords s.mem directory.address.toNat 1024 (fun _ => 0) }
  let s := countedLoop 4 identityTable s
  (markUsed s.pageBitmap s.placementAddress 0).map (fun bitmap =>
    { s with
      pageBitmap := bitmap
      cr3 := s.kernelDirectory
      cr0 := s.cr0 ||| 0x80000000 })

/-- The branch of `alloc_page_entry` that creates a missing table and links it at `entry`. -/
def newTable (entry : U32) (s : Paging) : Option Paging := do
  let table := kmallocA s.placementAddress (4 * 1024)
  let s ← Paging.clearTable { s with placementAddress := table.placementAddress } table.address 1024
  s.setEntry entry 1 0 ((table.address >>> 12).setWidth 20)

def linkTable (entry : U32) (s : Paging) : Option Paging := do
  let pde ← s.load entry
  if Pte.present pde = 0 then newTable entry s else some s

/-- Returns the table that holds the new entry, and the state left behind. -/
def allocPageEntry (s : Paging) (address : U32) (isWriteable isKernel : ℤ) : Option (U32 × Paging) := do
  let dirIdx := (address >>> 22) &&& 0x3FF#32
  let tabIdx := (address >>> 12) &&& 0x3FF#32
  let entry := s.kernelDirectory + 4#32 * dirIdx
  let s ← linkTable entry s
  let pde ← s.load entry
  let table := Pte.target pde
  let free := findfreePage s.pageBitmap
  let rw := if isWriteable ≠ 0 then 1 else 0
  let user := if isKernel ≠ 0 then 0 else 1
  let s ← Paging.setEntry { s with pageBitmap := free.2 } (table + 4#32 * tabIdx) rw user
    ((free.1 >>> 12).setWidth 20)
  return (table, s)

/-- `newTable` when the directory and the new table are mapped to themselves. -/
def createTable (dirIdx : ℕ) (s : Paging) : Paging :=
  let table := kmallocA s.placementAddress (4 * 1024)
  let m := storeWords s.mem table.address.toNat 1024 (fun _ => 0)
  { s with
    placementAddress := table.placementAddress
    mem := writeEntry m (s.kernelDirectory.toNat + 4 * dirIdx) 1 0 ((table.address >>> 12).setWidth 20) }

def ensureTable (dirIdx : ℕ) (s : Paging) : Paging :=
  if Pte.present (s.pde dirIdx) = 0 then createTable dirIdx s else s

/-- What `allocPageEntry` leaves when the directory and the table are mapped to themselves, so that
its pointers are physical addresses (`AllocCall.exec_eq`). -/
def allocPageEntryPhysical (s : Paging) (address : U32) (isWriteable isKernel : ℤ) : U32 × Paging :=
  let dirIdx := ((address >>> 22) &&& 0x3FF#32).toNat
  let tabIdx := ((address >>> 12) &&& 0x3FF#32).toNat
  let s := ensureTable dirIdx s
  let table := Pte.target (s.pde dirIdx)
  let free := findfreePage s.pageBitmap
  let rw := if isWriteable ≠ 0 then 1 else 0
  let user := if isKernel ≠ 0 then 0 else 1
  (table, { s with
    pageBitmap := free.2
    mem := writeEntry s.mem (table.toNat + 4 * tabIdx) rw user ((free.1 >>> 12).setWidth 20) })

/-- One call of `alloc_page_entry`. -/
structure AllocCall where
  address : U32
  isWriteable : ℤ
  isKernel : ℤ

def AllocCall.exec (s : Paging) (c : AllocCall) : Option (U32 × Paging) :=
  allocPageEntry s c.address c.isWriteable c.isKernel

/-- The call with its accesses made at physical addresses. -/
def AllocCall.run (s : Paging) (c : AllocCall) : Paging :=
  (allocPageEntryPhysical s c.address c.isWriteable c.isKernel).2

/-- The directory slot that a call goes through. -/
def AllocCall.slot (c : AllocCall) : ℕ := ((c.address >>> 22) &&& 0x3FF#32).toNat

def runCalls (s : Paging) (calls : List AllocCall) : Paging := calls.foldl AllocCall.run s

def execCalls (s : Paging) (calls : List AllocCall) : Option Paging :=
  calls.foldlM (fun s c => (c.exec s).map Prod.snd) s

section
variable {s t : Paging} {v x : U32} {rw user : BitVec 1} {frameAddr : BitVec 20}

/-- An access to memory leaves the rest of the state alone. -/
theorem Paging.store_frame (h : s.store v x = some t) : ∃ m, t = { s with mem := m } := by
  obtain ⟨a, _, rfl⟩ := Option.map_eq_some_iff.mp h
  exact ⟨_, rfl⟩

theorem Paging.modify_frame {f : U32 → U32} (h : s.modify v f = some t) : ∃ m, t = { s with mem := m } := by
  obtain ⟨y, _, hstore⟩ := Option.bind_eq_some_iff.mp h
  exact store_frame hstore

theorem Paging.setEntry_frame (h : s.setEntry v rw user frameAddr = some t) : ∃ m, t = { s with mem := m } := by
  simp only [setEntry, Option.bind_eq_bind, Option.bind_eq_some_iff] at h
  obtain ⟨s₁, h₁, s₂, h₂, s₃, h₃, s₄, h₄, h₅⟩ := h
  obtain ⟨_, rfl⟩ := store_frame h₁
  obtain ⟨_, rfl⟩ := modify_frame h₂
  obtain ⟨_, rfl⟩ := modify_frame h₃
  obtain ⟨_, rfl⟩ := modify_frame h₄
  obtain ⟨_, rfl⟩ := modify_frame h₅
  exact ⟨_, rfl⟩

theorem Paging.clearTable_succ (n : ℕ) : s.clearTable v (n + 1) =
    (s.clearTable v n).bind (fun s => s.store (v + BitVec.ofNat 32 (4 * n)) 0) := rfl

theorem Paging.clearTable_frame {n : ℕ} (h : s.clearTable v n = some t) : ∃ m, t = { s with mem := m } := by
  induction n generalizing t with
  | zero => exact ⟨s.mem, (Option.some.inj h).symm⟩
  | succ n ih =>
    rw [clearTable_succ, Option.bind_eq_some_iff] at h
    obtain ⟨u, hu, ht⟩ := h
    obtain ⟨_, rfl⟩ := ih hu
    obtain ⟨_, rfl⟩ := store_frame ht
    exact ⟨_, rfl⟩

theorem newTable_frame (h : newTable v s = some t) :
    ∃ m p, t = { s with mem := m, placementAddress := p } := by
  simp only [newTable, Option.bind_eq_bind, Option.bind_eq_some_iff] at h
  obtain ⟨u, hu, ht⟩ := h
  obtain ⟨_, rfl⟩ := Paging.clearTable_frame hu
  obtain ⟨_, rfl⟩ := Paging.setEntry_frame ht
  exact ⟨_, _, rfl⟩

theorem linkTable_frame (h : linkTable v s = some t) :
    ∃ m p, t = { s with mem := m, placementAddress := p } := by
  simp only [linkTable, Option.bind_eq_bind, Option.bind_eq_some_iff] at h
  obtain ⟨pde, _, ht⟩ := h
  split at ht
  · exact newTable_frame ht
  · exact ⟨s.mem, s.placementAddress, (Option.some.inj ht).symm⟩

/-- A call that returns takes one page from the bitmap, and leaves the directory pointer and the
control registers alone. -/
theorem allocPageEntry_frame {address table : U32} {w k : ℤ} (h : allocPageEntry s address w k = some (table, t)) :
    ∃ m p, t = { s with mem := m, placementAddress := p, pageBitmap := (findfreePage s.pageBitmap).2 } := by
  simp only [allocPageEntry, Option.bind_eq_bind, Option.bind_eq_some_iff] at h
  obtain ⟨u, hu, pde, _, t', ht, he⟩ := h
  obtain ⟨_, rfl⟩ := Prod.mk.inj (Option.some.inj he)
  obtain ⟨_, _, rfl⟩ := linkTable_frame hu
  obtain ⟨_, rfl⟩ := Paging.setEntry_frame ht
  exact ⟨_, _, rfl⟩

end

/-- The static data of the memory subsystem before the kernel runs, over zeroed memory. -/
def Paging.blank : Paging where
  mem := fun _ => 0
  placementAddress := 0
  pageBitmap := Bitmap.empty 128
  kernelDirectory := 0
  cr3 := 0
  cr0 := 0

/-- The memory start-up of `kernel_start`: `init_kheap`, `init_mem`, `initialise_paging`. -/
def bootPaging (memHeap : U32) (s : Paging) : Option Paging :=
  initialisePaging { s with
    placementAddress := initKheap memHeap
    pageBitmap := initMem s.pageBitmap }

end N7OS
