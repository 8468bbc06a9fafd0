import N7OS.Process.Creation

/-! # `create_process`, statement by statement

The search for a free slot, its publication as `PRET` and the stores that come after
it, in the order of the source. Run without a break they are `createProcess`.
-/
namespace N7OS
open Execution ByteMemory

/-- The next statement of a call, from the loop of `find_free_slot` to the `return`. -/
inductive CreatePoint
  | search (i : ℕ)
  | testSlot (slot : Option Slot)
  | setPid (slot : Slot)
  | setState (slot : Slot)
  | copyTest (slot : Slot) (i : ℕ)
  | copyChar (slot : Slot) (i : ℕ)
  | closeName (slot : Slot) (i : ℕ)
  | setEntry (slot : Slot)
  | setTop (slot : Slot)
  | setReg (slot : Slot) (r : Fin 5)
  | ret (slot : Option Slot)
deriving DecidableEq

structure CreateCall where
  name : ℕ → U8
  function : U32
  pc : CreatePoint

def setName (slot : Slot) (name : ℕ → U8) (k : Kernel) : Kernel :=
  { k with processTable := Function.update k.processTable slot { k.processTable slot with name := name } }

/-- What `p->regs[r]` is set to: `stack_top` for `esp`. -/
def firstReg (L : Layout) (slot : Slot) (r : ℕ) : U32 := if r = 1 then BitVec.ofNat 32 (L.stackWord slot 255) else 0

def createStatement (L : Layout) (c : CreateCall) (k : Kernel) : CreatePoint × Kernel :=
  match c.pc with
  | .search i =>
    if h : i < 16 then
      (if (k.processTable ⟨i, h⟩).state = .libre then .testSlot (some ⟨i, h⟩) else .search (i + 1), k)
    else (.testSlot none, k)
  | .testSlot none => (.ret none, k)
  | .testSlot (some slot) => (.setPid slot, k)
  | .setPid slot =>
    (.setState slot, { k with
      processTable := Function.update k.processTable slot { k.processTable slot with pid := BitVec.ofNat 32 slot } })
  | .setState slot => (.copyTest slot 0, { k with processTable := setState slot .pret k.processTable })
  | .copyTest slot i => (if i < 31 ∧ c.name i ≠ 0 then .copyChar slot i else .closeName slot i, k)
  | .copyChar slot i =>
    (.copyTest slot (i + 1), setName slot (Function.update (k.processTable slot).name i (c.name i)) k)
  | .closeName slot i => (.setEntry slot, setName slot (Function.update (k.processTable slot).name i 0) k)
  | .setEntry slot => (.setTop slot, { k with processEntry := Function.update k.processEntry slot c.function })
  | .setTop slot => (.setReg slot 0, { k with mem := store32 k.mem (L.stackWord slot 255) L.processStarter })
  | .setReg slot r =>
    (if h : r.val + 1 < 5 then .setReg slot ⟨r + 1, h⟩ else .ret (some slot),
      { k with mem := store32 k.mem (L.regs slot + 4 * r) (firstReg L slot r) })
  | .ret slot => (.ret slot, k)

/-- `return p->pid` or `return (pid_t) -1`. -/
def createResult (k : Kernel) : Option Slot → U32
  | some slot => (k.processTable slot).pid
  | none => 0xFFFFFFFF#32

namespace CreatePoint

/-- The slot found. -/
def slot : CreatePoint → Option Slot
  | .search _ => none
  | .testSlot slot => slot
  | .setPid slot => some slot
  | .setState slot => some slot
  | .copyTest slot _ => some slot
  | .copyChar slot _ => some slot
  | .closeName slot _ => some slot
  | .setEntry slot => some slot
  | .setTop slot => some slot
  | .setReg slot _ => some slot
  | .ret slot => slot

/-- The slot is `PRET` and stores to it are still to come. -/
def Published : CreatePoint → Prop
  | .copyTest _ _ => True
  | .copyChar _ _ => True
  | .closeName _ _ => True
  | .setEntry _ => True
  | .setTop _ => True
  | .setReg _ _ => True
  | _ => False

/-- A slot has been found and is not `PRET` yet. -/
def Found : CreatePoint → Prop
  | .testSlot slot => slot.isSome
  | .setPid _ => True
  | .setState _ => True
  | _ => False

/-- Between the test that finds the slot and the last store to it. -/
def InWindow (pc : CreatePoint) : Prop := pc.Found ∨ pc.Published

/-- A bound on the statements left. -/
def rank : CreatePoint → ℕ
  | .search i => 101 + (16 - i)
  | .testSlot _ => 100
  | .setPid _ => 99
  | .setState _ => 98
  | .copyTest _ i => 20 + 2 * (31 - i)
  | .copyChar _ i => 21 + 2 * (30 - i)
  | .closeName _ _ => 15
  | .setEntry _ => 14
  | .setTop _ => 13
  | .setReg _ r => 12 - r
  | .ret _ => 0

end CreatePoint

/-- The stores that a slot needs before it can be run. -/
def stores (slot : Slot) : List CreatePoint :=
  .setEntry slot :: .setTop slot :: (List.finRange 5).map (.setReg slot)

/-- The last `n` of the stores to `regs`, from `regs[r]` on. -/
def storeRegs (L : Layout) (slot : Slot) : ℕ → ℕ → Memory → Memory
  | 0, _, m => m
  | n + 1, r, m => storeRegs L slot n (r + 1) (store32 m (L.regs slot + 4 * r) (firstReg L slot r))

/-- The rest of the call, once the name is complete. -/
def finishNamed (L : Layout) (slot : Slot) (name : ℕ → U8) (function : U32) (k : Kernel) : Kernel :=
  { setName slot name k with
    processEntry := Function.update k.processEntry slot function
    mem := prepareStack L slot k.mem }

/-- What a call that has published its slot will have made of the kernel when it returns. -/
def CreateCall.finish (L : Layout) (c : CreateCall) (k : Kernel) : Kernel :=
  match c.pc with
  | .copyTest slot i => finishNamed L slot (copyName c.name (31 - i) i (k.processTable slot).name) c.function k
  | .copyChar slot i =>
    finishNamed L slot (copyName c.name (30 - i) (i + 1) (Function.update (k.processTable slot).name i (c.name i)))
      c.function k
  | .closeName slot i => finishNamed L slot (Function.update (k.processTable slot).name i 0) c.function k
  | .setEntry slot =>
    { k with
      processEntry := Function.update k.processEntry slot c.function
      mem := prepareStack L slot k.mem }
  | .setTop slot => { k with mem := prepareStack L slot k.mem }
  | .setReg slot r => { k with mem := storeRegs L slot (5 - r) r k.mem }
  | _ => k

section
variable {L : Layout} {c : CreateCall} {k : Kernel} {slot : Slot} {pc : CreatePoint}

@[simp] theorem setName_state (slot : Slot) (name : ℕ → U8) (k : Kernel) (j : Slot) :
    ((setName slot name k).processTable j).state = (k.processTable j).state := by
  by_cases hj : j = slot
  · simp [setName, hj]
  · simp [setName, hj]

@[simp] theorem setName_pid (slot : Slot) (name : ℕ → U8) (k : Kernel) (j : Slot) :
    ((setName slot name k).processTable j).pid = (k.processTable j).pid := by
  by_cases hj : j = slot
  · simp [setName, hj]
  · simp [setName, hj]

theorem finishNamed_setName (L : Layout) (slot : Slot) (name name' : ℕ → U8) (function : U32) (k : Kernel) :
    finishNamed L slot name function (setName slot name' k) = finishNamed L slot name function k := by
  simp [finishNamed, setName]

theorem setName_name (slot : Slot) (name : ℕ → U8) (k : Kernel) :
    ((setName slot name k).processTable slot).name = name := by
  simp [setName]

theorem storeRegs_congr {m m' : Memory} {x : ℕ} (h : m' x = m x) (n r : ℕ) :
    storeRegs L slot n r m' x = storeRegs L slot n r m x := by
  induction n generalizing r m m' with
  | zero => exact h
  | succ n ih => exact ih (store32_apply_congr _ h) (r + 1)

theorem prepareStack_congr {m m' : Memory} {x : ℕ} (h : m' x = m x) :
    prepareStack L slot m' x = prepareStack L slot m x := storeRegs_congr (store32_apply_congr _ h) 5 0

@[simp] theorem createStatement_currentPid (L : Layout) (c : CreateCall) (k : Kernel) :
    (createStatement L c k).2.currentPid = k.currentPid := by
  unfold createStatement
  repeat' split
  all_goals rfl

theorem createStatement_state (L : Layout) (c : CreateCall) (k : Kernel) (j : Slot) :
    ((createStatement L c k).2.processTable j).state =
      if c.pc = .setState j then .pret else (k.processTable j).state := by
  obtain ⟨name, function, pc⟩ := c
  cases pc with
  | search i =>
    rw [if_neg (by simp)]
    simp only [createStatement]
    split <;> rfl
  | testSlot slot => cases slot <;> rfl
  | setPid slot =>
    simp only [createStatement, Function.update_apply]
    split
    · next hj => simp [hj]
    · simp
  | setState slot => simp [createStatement, setState_state, eq_comm]
  | copyChar slot i => simp [createStatement]
  | closeName slot i => simp [createStatement]
  | _ => simp [createStatement]

/-- A statement after the publication leaves the outcome of the call as it is. -/
theorem finish_createStatement (h : c.pc.Published) :
    CreateCall.finish L { c with pc := (createStatement L c k).1 } (createStatement L c k).2 = c.finish L k := by
  obtain ⟨name, function, pc⟩ := c
  cases pc with
  | copyTest slot i =>
    by_cases htest : i < 31 ∧ name i ≠ 0
    · have hleft : 31 - i = (30 - i) + 1 := by omega
      simp only [createStatement, CreateCall.finish, if_pos htest]
      rw [hleft, copyName, if_pos htest.2]
    · have hstop : copyName name (31 - i) i (k.processTable slot).name =
          Function.update (k.processTable slot).name i 0 := by
        cases hleft : 31 - i with
        | zero => rfl
        | succ n => rw [copyName, if_neg (fun hne => htest ⟨by omega, hne⟩)]
      simp only [createStatement, CreateCall.finish, if_neg htest, hstop]
  | copyChar slot i =>
    have hleft : 31 - (i + 1) = 30 - i := by omega
    simp only [createStatement, CreateCall.finish, finishNamed_setName, setName_name, hleft]
  | closeName slot i => rfl
  | setEntry slot => rfl
  | setTop slot => rfl
  | setReg slot r =>
    by_cases hr : r.val + 1 < 5
    · have hleft : 5 - r.val = (5 - (r.val + 1)) + 1 := by omega
      simp only [createStatement, CreateCall.finish, dif_pos hr]
      rw [hleft]
      rfl
    · have hlast : r = 4 := Fin.ext (by change r.val = 4; omega)
      simp only [createStatement, CreateCall.finish, dif_neg hr]
      rw [hlast]
      rfl
  | _ => exact absurd h id

/-- The next point is in the same slot, and still to be finished unless all is done. -/
theorem published_statement (h : c.pc.Published) (hslot : c.pc.slot = some slot) (k : Kernel) :
    (createStatement L c k).1.slot = some slot ∧
      ((createStatement L c k).1.Published ∨ (createStatement L c k).1 = .ret (some slot)) := by
  obtain ⟨name, function, pc⟩ := c
  cases pc with
  | copyTest slot i =>
    simp only [createStatement]
    split
    · exact ⟨hslot, .inl trivial⟩
    · exact ⟨hslot, .inl trivial⟩
  | setReg slot r =>
    simp only [createStatement]
    split
    · exact ⟨hslot, .inl trivial⟩
    · exact ⟨hslot, .inr (congrArg CreatePoint.ret hslot)⟩
  | copyChar slot i => exact ⟨hslot, .inl trivial⟩
  | closeName slot i => exact ⟨hslot, .inl trivial⟩
  | setEntry slot => exact ⟨hslot, .inl trivial⟩
  | setTop slot => exact ⟨hslot, .inl trivial⟩
  | _ => exact absurd h id

theorem rank_createStatement (h : ∀ slot, c.pc ≠ .ret slot) (k : Kernel) :
    (createStatement L c k).1.rank < c.pc.rank := by
  obtain ⟨name, function, pc⟩ := c
  cases pc with
  | search i =>
    simp only [createStatement]
    split
    · split
      · simp only [CreatePoint.rank]
        omega
      · simp only [CreatePoint.rank]
        omega
    · simp only [CreatePoint.rank]
      omega
  | testSlot slot =>
    cases slot with
    | none => simp [createStatement, CreatePoint.rank]
    | some slot => simp [createStatement, CreatePoint.rank]
  | copyTest slot i =>
    simp only [createStatement]
    split
    · simp only [CreatePoint.rank]
      omega
    · simp only [CreatePoint.rank]
      omega
  | copyChar slot i =>
    simp only [createStatement, CreatePoint.rank]
    omega
  | setReg slot r =>
    simp only [createStatement]
    split
    · simp only [CreatePoint.rank]
      omega
    · simp only [CreatePoint.rank]
      omega
  | ret slot => exact absurd rfl (h slot)
  | _ => simp [createStatement, CreatePoint.rank]

end

/-- One statement of a call, with the point it leaves. -/
inductive CreateStep (L : Layout) (name : ℕ → U8) (function : U32) :
    CreatePoint × Kernel → CreatePoint → CreatePoint × Kernel → Prop
  | statement (pc : CreatePoint) (k : Kernel) : (∀ slot, pc ≠ .ret slot) →
      CreateStep L name function (pc, k) pc (createStatement L ⟨name, function, pc⟩ k)

section
variable (L : Layout) (name : ℕ → U8) (function : U32) {k : Kernel} {slot : Slot} {pc : CreatePoint} {i : ℕ}

theorem published_ne_ret (h : pc.Published) (s : Option Slot) : pc ≠ .ret s := by
  rintro rfl
  exact h

theorem statements_published (h : pc.Published) (hslot : pc.slot = some slot) (k : Kernel) :
    ∃ pcs, Runs (CreateStep L name function) (pc, k) pcs
      (.ret (some slot), CreateCall.finish L ⟨name, function, pc⟩ k) := by
  induction hn : pc.rank using Nat.strong_induction_on generalizing pc k with
  | _ n ih =>
    have hstep : CreateStep L name function (pc, k) pc _ := .statement pc k (published_ne_ret h)
    have hfinish := finish_createStatement (L := L) (c := ⟨name, function, pc⟩) (k := k) h
    have hrank := rank_createStatement (L := L) (c := ⟨name, function, pc⟩) (published_ne_ret h) k
    obtain ⟨hnext, hpub | hret⟩ := published_statement (L := L) (c := ⟨name, function, pc⟩) h hslot k
    · obtain ⟨pcs, hruns⟩ := ih _ (hn ▸ hrank) hpub hnext _ rfl
      rw [hfinish] at hruns
      exact ⟨pc :: pcs, .cons hstep hruns⟩
    · have hlast : createStatement L ⟨name, function, pc⟩ k =
          (.ret (some slot), CreateCall.finish L ⟨name, function, pc⟩ k) := by
        refine Prod.ext hret ?_
        rw [← hfinish, hret]
        rfl
      exact ⟨[pc], .cons (hlast ▸ hstep) (.nil _)⟩

theorem finish_fillSlot (L : Layout) (slot : Slot) (name : ℕ → U8) (function : U32)
    (hpid : (k.processTable slot).pid = BitVec.ofNat 32 slot) :
    CreateCall.finish L ⟨name, function, .copyTest slot 0⟩
        { k with processTable := setState slot .pret k.processTable } =
      fillSlot L slot name function k := by
  simp [CreateCall.finish, finishNamed, setName, fillSlot, setState, hpid]

theorem fillSlot_setPid (L : Layout) (slot : Slot) (name : ℕ → U8) (function : U32) (k : Kernel) (pid : U32) :
    fillSlot L slot name function
        { k with processTable := Function.update k.processTable slot { k.processTable slot with pid := pid } } =
      fillSlot L slot name function k := by
  simp [fillSlot]

/-- A call that has found its slot fills it, if nothing comes in between. -/
theorem statements_found (h : pc.Found) (hslot : pc.slot = some slot)
    (hpid : pc = .setState slot → (k.processTable slot).pid = BitVec.ofNat 32 slot) :
    ∃ pcs, Runs (CreateStep L name function) (pc, k) pcs (.ret (some slot), fillSlot L slot name function k) := by
  have hpublish : ∀ k : Kernel, (k.processTable slot).pid = BitVec.ofNat 32 slot → ∃ pcs,
      Runs (CreateStep L name function) (.setState slot, k) pcs
        (.ret (some slot), fillSlot L slot name function k) := by
    intro k hpid
    have hpub : CreatePoint.Published (.copyTest slot 0) := trivial
    obtain ⟨pcs, hruns⟩ := statements_published L name function hpub rfl
      { k with processTable := setState slot .pret k.processTable }
    rw [finish_fillSlot L slot name function hpid] at hruns
    exact ⟨_, .cons (.statement (.setState slot) k nofun) hruns⟩
  have hname : ∀ k : Kernel, ∃ pcs,
      Runs (CreateStep L name function) (.setPid slot, k) pcs (.ret (some slot), fillSlot L slot name function k) := by
    intro k
    obtain ⟨pcs, hruns⟩ := hpublish
      { k with processTable :=
          Function.update k.processTable slot { k.processTable slot with pid := BitVec.ofNat 32 slot } }
      (by simp)
    rw [fillSlot_setPid] at hruns
    exact ⟨_, .cons (.statement (.setPid slot) k nofun) hruns⟩
  cases pc with
  | testSlot found =>
    cases hslot
    obtain ⟨pcs, hruns⟩ := hname k
    exact ⟨_, .cons (.statement (.testSlot (some slot)) k nofun) hruns⟩
  | setPid found =>
    cases hslot
    exact hname k
  | setState found =>
    cases hslot
    exact hpublish k (hpid rfl)
  | _ => exact absurd h id

theorem search_next (hi : i < 16) (hused : (k.processTable ⟨i, hi⟩).state ≠ .libre) :
    CreateStep L name function (.search i, k) (.search i) (.search (i + 1), k) := by
  have hstep : CreateStep L name function (.search i, k) (.search i) _ := .statement (.search i) k nofun
  simpa only [createStatement, dif_pos hi, if_neg hused] using hstep

/-- The loop of `find_free_slot` stops at the lowest free slot. -/
theorem statements_search (hlibre : (k.processTable slot).state = .libre)
    (hmin : ∀ j < slot, (k.processTable j).state ≠ .libre) (hi : i ≤ slot.val) :
    ∃ pcs, Runs (CreateStep L name function) (.search i, k) pcs (.testSlot (some slot), k) := by
  obtain ⟨n, hn⟩ := Nat.exists_eq_add_of_le hi
  induction n generalizing i with
  | zero =>
    have hslot : (⟨i, hi.trans_lt slot.isLt⟩ : Slot) = slot := Fin.ext hn.symm
    have hstep : CreateStep L name function (.search i, k) (.search i) _ := .statement (.search i) k nofun
    simp only [createStatement, dif_pos (hi.trans_lt slot.isLt), hslot, if_pos hlibre] at hstep
    exact ⟨_, .cons hstep (.nil _)⟩
  | succ n ih =>
    have hlt : i < slot.val := by omega
    obtain ⟨pcs, hruns⟩ := ih (i := i + 1) hlt (by omega)
    exact ⟨_, .cons (search_next L name function (hlt.trans slot.isLt) (hmin ⟨i, hlt.trans slot.isLt⟩ hlt)) hruns⟩

theorem statements_search_full (hfull : ∀ j, (k.processTable j).state ≠ .libre) (hi : i ≤ 16) :
    ∃ pcs, Runs (CreateStep L name function) (.search i, k) pcs (.testSlot none, k) := by
  obtain ⟨n, hn⟩ := Nat.exists_eq_add_of_le hi
  induction n generalizing i with
  | zero =>
    have hstep : CreateStep L name function (.search i, k) (.search i) _ := .statement (.search i) k nofun
    have hend : ¬i < 16 := by omega
    simp only [createStatement, dif_neg hend] at hstep
    exact ⟨_, .cons hstep (.nil _)⟩
  | succ n ih =>
    have hlt : i < 16 := by omega
    obtain ⟨pcs, hruns⟩ := ih (i := i + 1) hlt (by omega)
    exact ⟨_, .cons (search_next L name function hlt (hfull ⟨i, hlt⟩)) hruns⟩

/-- Uninterrupted, the statements do what `createProcess` does in one step. -/
theorem statements_createProcess (L : Layout) (name : ℕ → U8) (function : U32) (k : Kernel) : ∃ pcs slot k',
    Runs (CreateStep L name function) (.search 0, k) pcs (.ret slot, k') ∧
      createProcess L name function k = (k', createResult k' slot) := by
  rcases createProcess_cases L name function k with ⟨hfull, hc⟩ | ⟨slot, hlibre, hmin, hc⟩
  · obtain ⟨pcs, hsearch⟩ := statements_search_full L name function hfull (Nat.zero_le 16)
    have hreturn : CreateStep L name function (.testSlot none, k) (.testSlot none) _ :=
      .statement (.testSlot none) k nofun
    exact ⟨_, none, k, hsearch.append (.cons hreturn (.nil _)), hc⟩
  · obtain ⟨pcs, hsearch⟩ := statements_search L name function hlibre hmin (Nat.zero_le _)
    have hfound : CreatePoint.Found (.testSlot (some slot)) := rfl
    obtain ⟨pcs', hfill⟩ := statements_found L name function (k := k) hfound rfl nofun
    refine ⟨_, some slot, _, hsearch.append hfill, hc.trans ?_⟩
    simp [createResult, fillSlot]

end

end N7OS
