import N7OS.Foundation.FreeSet
import N7OS.Memory.BootPaging

/-! # The bitmap as a set of pages

A sequence of calls of `setPage`, `clearPage` and `findfreePage` acts on the
bitmap as the abstract allocator acts on a set, over the pool of the 4096 pages.
After start-up page 0 is taken for good, which makes the answer `0` of
`findfreePage` mean that there is no page.
-/
namespace N7OS
open Bitmap Execution

inductive PageCall
  | setPage (addr : U32)
  | clearPage (addr : U32)
  | findfreePage

/-- What the call returns, if it returns a value, and the bitmap left behind. -/
def PageCall.run (bitmap : PageBitmap) : PageCall → Option (Option U32 × PageBitmap)
  | .setPage addr => (N7OS.setPage bitmap addr).map (fun bitmap => (none, bitmap))
  | .clearPage addr => (N7OS.clearPage bitmap addr).map (fun bitmap => (none, bitmap))
  | .findfreePage => some (some (N7OS.findfreePage bitmap).1, (N7OS.findfreePage bitmap).2)

/-- The address argument lies in the 16 MiB that the bitmap covers. -/
def PageCall.InMemory : PageCall → Prop
  | .setPage addr => addr.toNat < 2 ^ 24
  | .clearPage addr => addr.toNat < 2 ^ 24
  | .findfreePage => True

structure PageEvent where
  call : PageCall
  result : Option U32

def PageStep (bitmap : PageBitmap) (e : PageEvent) (bitmap' : PageBitmap) : Prop :=
  e.call.run bitmap = some (e.result, bitmap')

def pagePool : Set ℕ := {p | p < 4096}

/-- What a call and its result mean for the set of pages. -/
inductive ActsAs : PageEvent → FreeSet.Event ℕ → Prop
  | setPage (addr : U32) : ActsAs ⟨.setPage addr, none⟩ (.insert (addr.toNat / 4096))
  | clearPage (addr : U32) : ActsAs ⟨.clearPage addr, none⟩ (.erase (addr.toNat / 4096))
  | found {r : U32} {p : ℕ} : r.toNat = 4096 * p → ActsAs ⟨.findfreePage, some r⟩ (.take (some p))
  | full : ActsAs ⟨.findfreePage, some 0⟩ (.take none)

theorem clearPage_of_lt {bitmap : PageBitmap} {addr : U32} (h : addr.toNat < 2 ^ 24) :
    clearPage bitmap addr = some (erase bitmap (addr.toNat / 4096)) := by
  have hp : addr.toNat / 4096 / 32 < 128 := by omega
  simp only [clearPage, if_pos hp]

section Steps
variable {bitmap bitmap' : PageBitmap} {e : PageEvent}

/-- A call that the bitmap covers always returns. -/
theorem PageCall.run_total {c : PageCall} (hc : c.InMemory) (bitmap : PageBitmap) :
    ∃ result bitmap', PageStep bitmap ⟨c, result⟩ bitmap' := by
  cases c with
  | setPage addr =>
    refine ⟨none, insert bitmap (addr.toNat / 4096), ?_⟩
    simp [PageStep, PageCall.run, setPage_of_lt hc]
  | clearPage addr =>
    refine ⟨none, erase bitmap (addr.toNat / 4096), ?_⟩
    simp [PageStep, PageCall.run, clearPage_of_lt hc]
  | findfreePage => exact ⟨_, _, rfl⟩

/-- What each call does to the bitmap. -/
theorem PageStep.cases (h : PageStep bitmap e bitmap') :
    (∃ addr : U32, e = ⟨.setPage addr, none⟩ ∧ addr.toNat / 4096 / 32 < 128 ∧
      bitmap' = insert bitmap (addr.toNat / 4096)) ∨
    (∃ addr : U32, e = ⟨.clearPage addr, none⟩ ∧ addr.toNat / 4096 / 32 < 128 ∧
      bitmap' = erase bitmap (addr.toNat / 4096)) ∨
    (e = ⟨.findfreePage, some (findfreePage bitmap).1⟩ ∧ bitmap' = (findfreePage bitmap).2) := by
  rcases e with ⟨c, result⟩
  cases c with
  | setPage addr =>
    simp only [PageStep, PageCall.run, setPage] at h
    split at h <;> simp at h
    next hp => exact Or.inl ⟨addr, by simp [h.1], hp, h.2.symm⟩
  | clearPage addr =>
    simp only [PageStep, PageCall.run, clearPage] at h
    split at h <;> simp at h
    next hp => exact Or.inr (Or.inl ⟨addr, by simp [h.1], hp, h.2.symm⟩)
  | findfreePage =>
    simp only [PageStep, PageCall.run, Option.some.injEq, Prod.mk.injEq] at h
    exact Or.inr (Or.inr ⟨by simp [h.1], h.2.symm⟩)

/-- A search takes the least free page, or reports that the pool is used up. -/
theorem findfreePage_take (bitmap : PageBitmap) :
    ∃ page, ActsAs ⟨.findfreePage, some (findfreePage bitmap).1⟩ (.take page) ∧
      FreeSet.Step pagePool (members bitmap) (.take page) (members (findfreePage bitmap).2) := by
  rcases findfreePage_spec bitmap with ⟨p, hp, hfree, hleast, hr, hm⟩ | ⟨hn, he⟩
  · refine ⟨some p, .found (by omega), hm ▸ .take ⟨⟨hp, hfree⟩, ?_⟩⟩
    intro q hq
    by_contra hlt
    exact hq.2 (hleast q (by omega))
  · refine ⟨none, he ▸ .full, ?_⟩
    rw [he]
    apply FreeSet.Step.full
    intro p hp
    by_contra hfree
    exact hn ⟨p, hp, hfree⟩

theorem PageStep.simulates (h : PageStep bitmap e bitmap') :
    ∃ e', ActsAs e e' ∧ FreeSet.Step pagePool (members bitmap) e' (members bitmap') := by
  rcases h.cases with ⟨addr, rfl, hp, rfl⟩ | ⟨addr, rfl, hp, rfl⟩ | ⟨rfl, rfl⟩
  · exact ⟨_, .setPage addr, members_insert bitmap hp ▸ .insert _ _⟩
  · exact ⟨_, .clearPage addr, members_erase bitmap hp ▸ .erase _ _⟩
  · obtain ⟨page, hacts, hstep⟩ := findfreePage_take bitmap
    exact ⟨_, hacts, hstep⟩

theorem PageStep.runs_simulate {tr : List PageEvent} (h : Runs PageStep bitmap tr bitmap') :
    ∃ tr', List.Forall₂ ActsAs tr tr' ∧ Runs (FreeSet.Step pagePool) (members bitmap) tr' (members bitmap') := by
  have hstep : ∀ b e b' S, S = members b → PageStep b e b' →
      ∃ e' S', ActsAs e e' ∧ FreeSet.Step pagePool S e' S' ∧ S' = members b' := by
    rintro b e b' _ rfl h
    obtain ⟨e', he, hs⟩ := h.simulates
    exact ⟨e', _, he, hs, rfl⟩
  obtain ⟨tr', S, htr, hruns, rfl⟩ := h.simulation (FreeSet.Step pagePool) _ ActsAs hstep rfl
  exact ⟨tr', htr, hruns⟩

theorem runs_total {calls : List PageCall} (hmem : ∀ c ∈ calls, c.InMemory) (bitmap : PageBitmap) :
    ∃ tr bitmap', Runs PageStep bitmap tr bitmap' ∧ tr.map PageEvent.call = calls := by
  induction calls generalizing bitmap with
  | nil => exact ⟨[], bitmap, .nil bitmap, rfl⟩
  | cons c calls ih =>
    obtain ⟨result, next, hstep⟩ := PageCall.run_total (hmem c List.mem_cons_self) bitmap
    obtain ⟨tr, bitmap', hruns, htr⟩ := ih (fun c' hc' => hmem c' (List.mem_cons_of_mem _ hc')) next
    exact ⟨⟨c, result⟩ :: tr, bitmap', .cons hstep hruns, by simp [htr]⟩

theorem findfreePage_eq_of_full (h : ¬HasFree bitmap) : findfreePage bitmap = (0, bitmap) := by
  rcases findfreePage_spec bitmap with ⟨p, hp, hfree, _⟩ | ⟨_, he⟩
  · exact absurd ⟨p, hp, hfree⟩ h
  · exact he

/-- A search that finds a page takes the page of the address it returns. -/
theorem findfreePage_take_of_free (h : HasFree bitmap) :
    FreeSet.Step pagePool (members bitmap) (.take (some ((findfreePage bitmap).1.toNat / 4096)))
      (members (findfreePage bitmap).2) := by
  obtain ⟨page, hacts, hstep⟩ := findfreePage_take bitmap
  generalize members (findfreePage bitmap).2 = T at hstep ⊢
  generalize (findfreePage bitmap).1 = r at hacts ⊢
  cases hstep with
  | take hleast =>
    cases hacts with
    | found hr =>
      rw [hr, Nat.mul_div_cancel_left _ (by decide)]
      exact .take hleast
  | full hfull =>
    obtain ⟨p, hp, hfree⟩ := h
    exact absurd (hfull hp) hfree

/-- A page that two searches found has been cleared in between. -/
theorem cleared_of_found_twice {mid : List PageEvent} (h : HasFree bitmap)
    (hmid : Runs PageStep (findfreePage bitmap).2 mid bitmap') (h' : HasFree bitmap')
    (heq : (findfreePage bitmap').1 = (findfreePage bitmap).1) :
    ∃ addr : U32, ⟨.clearPage addr, none⟩ ∈ mid ∧
      addr.toNat / 4096 = (findfreePage bitmap).1.toNat / 4096 := by
  obtain ⟨mid', hacts, hruns⟩ := PageStep.runs_simulate hmid
  have hfirst := findfreePage_take_of_free h
  have hsecond := findfreePage_take_of_free h'
  rw [heq] at hsecond
  have herase := FreeSet.erase_mem_of_taken_twice hfirst hruns hsecond
  obtain ⟨e, he, hs⟩ := mem_of_labels hacts herase
  generalize hp : (findfreePage bitmap).1.toNat / 4096 = p at hs
  cases hs with
  | clearPage addr => exact ⟨addr, he, rfl⟩

/-- Only addresses other than `0` that a search has returned are cleared. -/
def ClearsOnlyFound (tr : List PageEvent) : Prop :=
  ∀ pre addr result post, tr = pre ++ ⟨.clearPage addr, result⟩ :: post →
    addr ≠ 0 ∧ ⟨.findfreePage, some addr⟩ ∈ pre

theorem ClearsOnlyFound.prefix {tr later : List PageEvent} (h : ClearsOnlyFound (tr ++ later)) :
    ClearsOnlyFound tr := by
  rintro pre addr result post rfl
  exact h pre addr result (post ++ later) (by simp)

theorem findfreePage_aligned (bitmap : PageBitmap) : (findfreePage bitmap).1.toNat % 4096 = 0 := by
  rcases findfreePage_spec bitmap with ⟨p, _, _, _, hr, _⟩ | ⟨_, he⟩
  · rw [hr]
    exact Nat.mul_mod_left p 4096
  · rw [he]
    rfl

/-- Page 0 stays taken: what may be cleared is another page. -/
theorem zero_mem_of_runs {tr : List PageEvent} (h : Runs PageStep bitmap tr bitmap')
    (h0 : 0 ∈ members bitmap) (hclear : ClearsOnlyFound tr) : 0 ∈ members bitmap' := by
  refine (h.history_nil (fun past b => ClearsOnlyFound past →
    0 ∈ members b ∧ ∀ addr : U32, ⟨.findfreePage, some addr⟩ ∈ past → addr.toNat % 4096 = 0)
    ?_ (fun _ => ⟨h0, by simp⟩) hclear).1
  intro past b e b' ih hstep hc
  obtain ⟨hzero, halign⟩ := ih hc.prefix
  rcases hstep.cases with ⟨addr, rfl, hp, rfl⟩ | ⟨addr, rfl, hp, rfl⟩ | ⟨rfl, rfl⟩
  · refine ⟨members_insert b hp ▸ Set.mem_insert_of_mem _ hzero, ?_⟩
    simpa using halign
  · obtain ⟨hne, hfound⟩ := hc past addr none [] rfl
    have hal := halign addr hfound
    have hpos : addr.toNat ≠ 0 := fun h => hne (BitVec.eq_of_toNat_eq h)
    refine ⟨members_erase b hp ▸ ⟨hzero, ?_⟩, by simpa using halign⟩
    simp only [Set.mem_singleton_iff]
    omega
  · refine ⟨members_subset_findfreePage b hzero, ?_⟩
    intro addr ha
    rcases List.mem_append.mp ha with ha | ha
    · exact halign addr ha
    · simp only [List.mem_singleton, PageEvent.mk.injEq, Option.some.injEq, true_and] at ha
      rw [ha]
      exact findfreePage_aligned b

theorem findfreePage_eq_zero_iff (h0 : 0 ∈ members bitmap) :
    (findfreePage bitmap).1 = 0 ↔ ¬HasFree bitmap := by
  rcases findfreePage_spec bitmap with ⟨p, hp, hfree, _, hr, _⟩ | ⟨hn, he⟩
  · have hp0 : p ≠ 0 := fun h => hfree (h ▸ h0)
    refine ⟨fun hz => ?_, fun hn => absurd ⟨p, hp, hfree⟩ hn⟩
    have hr0 : (findfreePage bitmap).1.toNat = 0 := congrArg BitVec.toNat hz
    omega
  · simp [he, hn]

end Steps

/-- What the sequences of calls from `bitmap` have to do with sets of pages. -/
structure RefinesSet (bitmap : PageBitmap) (S : Set ℕ) : Prop where
  total : ∀ calls : List PageCall, (∀ c ∈ calls, c.InMemory) →
    ∃ tr bitmap', Runs PageStep bitmap tr bitmap' ∧ tr.map PageEvent.call = calls
  refines : ∀ tr bitmap', Runs PageStep bitmap tr bitmap' →
    ∃ tr', List.Forall₂ ActsAs tr tr' ∧ Runs (FreeSet.Step pagePool) S tr' (members bitmap')
  full : ∀ tr bitmap', Runs PageStep bitmap tr bitmap' → pagePool ⊆ members bitmap' →
    findfreePage bitmap' = (0, bitmap')
  once : ∀ pre mid b b', Runs PageStep bitmap pre b → HasFree b →
    Runs PageStep (findfreePage b).2 mid b' → HasFree b' → (findfreePage b').1 = (findfreePage b).1 →
    ∃ addr : U32, ⟨.clearPage addr, none⟩ ∈ mid ∧ addr.toNat / 4096 = (findfreePage b).1.toNat / 4096

theorem pageBitmap_refines (memHeap : U32) (s₀ s : Paging) (hfit : BootFits memHeap)
    (hboot : bootPaging memHeap s₀ = some s) :
    (∀ bitmap, RefinesSet (initMem bitmap) ∅) ∧
    ∀ tr bitmap, Runs PageStep s.pageBitmap tr bitmap → ClearsOnlyFound tr →
      0 ∈ members bitmap ∧ ((findfreePage bitmap).1 = 0 ↔ ¬HasFree bitmap) := by
  constructor
  · intro bitmap
    constructor
    · exact fun calls hmem => runs_total hmem _
    · intro tr bitmap' h
      have hempty : members (initMem bitmap) = ∅ := members_empty
      exact hempty ▸ PageStep.runs_simulate h
    · rintro tr bitmap' _ hfull
      apply findfreePage_eq_of_full
      rintro ⟨p, hp, hfree⟩
      exact hfree (hfull hp)
    · exact fun pre mid b b' _ hfree hmid hfree' heq => cleared_of_found_twice hfree hmid hfree' heq
  · intro tr bitmap h hclear
    obtain ⟨ht, hmark, _⟩ := bootPaging_some hfit hboot
    have hp := ht.placement
    have h0 : 0 ∈ members s.pageBitmap := (hmark 0).mpr (by omega)
    have hzero := zero_mem_of_runs h h0 hclear
    exact ⟨hzero, findfreePage_eq_zero_iff hzero⟩

/-- With the heap at 0x120000. -/
theorem pageBitmap_refines_120000 : ∃ s, bootPaging 0x120000 Paging.blank = some s ∧
    RefinesSet (initMem s.pageBitmap) ∅ := by
  obtain ⟨s, hs, _⟩ := bootPaging_spec 0x120000 Paging.blank bootFits_120000
  exact ⟨s, hs, (pageBitmap_refines 0x120000 Paging.blank s bootFits_120000 hs).1 s.pageBitmap⟩

end N7OS
