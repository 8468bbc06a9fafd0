import N7OS.Process.CreationPreempted

/-! # The window of `create_process`

While no switch comes between the test that finds a slot and the last store to it,
every slot that `schedule` may go to is set up by one call, and no two calls have
the same slot. One such switch is enough for both to fail later.
-/
namespace N7OS
open Execution ByteMemory CyclicScan

/-- The running process is filling the slot. -/
def Filling (s : Creators) (slot : Slot) : Prop :=
  ∃ c, s.running = some c ∧ c.pc.Published ∧ c.pc.slot = some slot

/-- Which stores have been executed, and which slots and pids have been given away. -/
structure Accounts (L : Layout) (m : Memory) (past : List CreationEvent) (s : Creators) : Prop where
  stored : ∀ p c slot, s.call p = some c → c.pc.slot = some slot →
    ∀ pc ∈ stores slot, c.pc.rank < pc.rank → .statement { c with pc := pc } ∈ past
  made : ∀ slot, (s.system.kernel.processTable slot).state ≠ .libre →
    Filling s slot ∨ MadeBy L m past slot (s.system.kernel.processEntry slot)
  unstored : ∀ slot, Filling s slot ∨ (s.system.kernel.processTable slot).state = .libre →
    ∀ name function, .statement ⟨name, function, .setReg slot 4⟩ ∉ past
  owned : ∀ p q c d slot, s.call p = some c → s.call q = some d →
    c.pc.slot = some slot → d.pc.slot = some slot → p = q
  fresh : ∀ p c slot, s.call p = some c → c.pc.slot = some slot → BitVec.ofNat 32 slot.val ∉ handedOut L m past
  nodup : (handedOut L m past).Nodup
  used : ∀ pid ∈ handedOut L m past, ∃ slot : Slot, pid = BitVec.ofNat 32 slot.val ∧
    (s.system.kernel.processTable slot).state ≠ .libre

section
variable {L : Layout} {m : Memory} {gpr : Reg → U32} {past events : List CreationEvent} {e : CreationEvent}
  {s t : Creators} {c : CreateCall} {k : Kernel} {slot p : Slot} {function : U32}

theorem MadeBy.mono (h : MadeBy L m past slot function) (e : CreationEvent) :
    MadeBy L m (past ++ [e]) slot function := by
  rcases h with hbase | ⟨name, hall⟩
  · exact .inl hbase
  · exact .inr ⟨name, fun pc hpc => List.mem_append_left _ (hall pc hpc)⟩

theorem handedOut_append (past : List CreationEvent) (e : CreationEvent) :
    handedOut L m (past ++ [e]) = handedOut L m past ++ returned [e] := by
  rw [handedOut, returned_append, ← List.append_assoc]
  rfl

theorem handedOut_same (past : List CreationEvent) (h : returned [e] = []) :
    handedOut L m (past ++ [e]) = handedOut L m past := by
  rw [handedOut_append, h, List.append_nil]

/-- A slot is found by the test or kept. -/
theorem createStatement_slot (hret : ∀ found, c.pc ≠ .ret found)
    (h : (createStatement L c k).1.slot = some slot) :
    c.pc.slot = some slot ∨
      (k.processTable slot).state = .libre ∧ (createStatement L c k).1 = .testSlot (some slot) := by
  obtain ⟨name, function, pc⟩ := c
  cases pc with
  | search i =>
    simp only [createStatement] at h ⊢
    split at h
    · next hi =>
      split at h
      · next hlibre =>
        cases h
        exact .inr ⟨hlibre, by rw [dif_pos hi, if_pos hlibre]⟩
      · cases h
    · cases h
  | testSlot found =>
    cases found with
    | none => cases h
    | some found => exact .inl h
  | copyTest found i =>
    simp only [createStatement] at h
    split at h <;> exact .inl h
  | setReg found r =>
    simp only [createStatement] at h
    split at h <;> exact .inl h
  | ret found => exact absurd rfl (hret found)
  | _ => exact .inl h

theorem mem_stores {pc : CreatePoint} : pc ∈ stores slot ↔
    pc = .setEntry slot ∨ pc = .setTop slot ∨ ∃ r, pc = .setReg slot r := by
  simp [stores, eq_comm]

/-- The stores that the next point has behind it are those of this one and its own. -/
theorem createStatement_stores (hret : ∀ found, c.pc ≠ .ret found) {pc : CreatePoint} (hpc : pc ∈ stores slot)
    (hslot : (createStatement L c k).1.slot = some slot) (hrank : (createStatement L c k).1.rank < pc.rank) :
    c.pc.slot = some slot ∧ c.pc.rank < pc.rank ∨ pc = c.pc := by
  have hle : pc.rank ≤ 14 := by
    rcases mem_stores.mp hpc with rfl | rfl | ⟨r, rfl⟩
    · exact Nat.le_refl 14
    · exact Nat.le_succ 13
    · simp only [CreatePoint.rank]
      omega
  have hnext := hrank.trans_le hle
  obtain ⟨name, function, cpc⟩ := c
  cases cpc with
  | setEntry found =>
    cases hslot
    rcases mem_stores.mp hpc with rfl | rfl | ⟨r, rfl⟩
    · exact .inr rfl
    · exact absurd hrank (lt_irrefl _)
    · simp only [createStatement, CreatePoint.rank] at hrank
      omega
  | setTop found =>
    cases hslot
    rcases mem_stores.mp hpc with rfl | rfl | ⟨r, rfl⟩
    · exact .inl ⟨rfl, Nat.lt_succ_self 13⟩
    · exact .inr rfl
    · simp only [createStatement, CreatePoint.rank, Fin.val_zero] at hrank
      omega
  | setReg found r =>
    have hfound : found = slot := by
      simp only [createStatement] at hslot
      split at hslot <;> exact Option.some.inj hslot
    subst hfound
    rcases mem_stores.mp hpc with rfl | rfl | ⟨r', rfl⟩
    · refine .inl ⟨rfl, ?_⟩
      simp only [CreatePoint.rank]
      omega
    · refine .inl ⟨rfl, ?_⟩
      simp only [CreatePoint.rank]
      omega
    · have hr' : r'.val ≤ r.val := by
        simp only [createStatement] at hrank
        split at hrank
        · simp only [CreatePoint.rank] at hrank
          omega
        · omega
      rcases Nat.lt_or_eq_of_le hr' with hlt | heq
      · refine .inl ⟨rfl, ?_⟩
        simp only [CreatePoint.rank]
        omega
      · exact .inr (congrArg (CreatePoint.setReg found) (Fin.ext heq))
  | search i =>
    simp only [createStatement] at hnext
    split at hnext
    · split at hnext
      · simp only [CreatePoint.rank] at hnext
        omega
      · simp only [CreatePoint.rank] at hnext
        omega
    · simp only [CreatePoint.rank] at hnext
      omega
  | testSlot found =>
    cases found with
    | none => cases hslot
    | some found =>
      simp only [createStatement, CreatePoint.rank] at hnext
      omega
  | copyTest found i =>
    simp only [createStatement] at hnext
    split at hnext
    · simp only [CreatePoint.rank] at hnext
      omega
    · simp only [CreatePoint.rank] at hnext
      omega
  | ret found => exact absurd rfl (hret found)
  | _ =>
    simp only [createStatement, CreatePoint.rank] at hnext
    omega

theorem createStatement_processEntry (L : Layout) (c : CreateCall) (k : Kernel) (j : Slot) :
    (createStatement L c k).2.processEntry j = if c.pc = .setEntry j then c.function else k.processEntry j := by
  obtain ⟨name, function, pc⟩ := c
  cases pc with
  | search i =>
    rw [if_neg nofun]
    simp only [createStatement]
    split <;> rfl
  | testSlot found => cases found <;> rfl
  | setEntry found => simp [createStatement, Function.update_apply, eq_comm]
  | _ => simp [createStatement, setName]

/-- The system itself fills no slot, and only a switch changes the process that runs. -/
theorem switchStep_table {s t : System} {e : SwitchEvent} (h : TableInv s.kernel) (hs : SwitchStep L s e t)
    (hcreate : ∀ name function result, e ≠ .create name function result) :
    (∀ j, (t.kernel.processTable j).state = .libre ↔ (s.kernel.processTable j).state = .libre) ∧
      t.kernel.processEntry = s.kernel.processEntry ∧
      (t.kernel.currentPid = s.kernel.currentPid ∨ ∃ w, e = .switch w) := by
  cases hs with
  | create name function hphase => exact absurd rfl (hcreate _ _ _)
  | stay hs =>
    rcases schedule_cases h with ⟨-, hc⟩ | ⟨q, -, -, hc⟩
    · rw [hc]
      exact ⟨fun _ => Iff.rfl, rfl, .inl rfl⟩
    · rw [hc] at hs
      cases hs
  | switch old next ra hs hra hroom =>
    obtain ⟨-, -, -, hk⟩ := switch_cases h hs
    refine ⟨switched_libre h ra hs, ?_, .inr ⟨_, rfl⟩⟩
    change (schedule s.kernel).1.processEntry = _
    rw [hk]
  | _ => exact ⟨fun _ => Iff.rfl, rfl, .inl rfl⟩

theorem Accounts.systemStep (h : Accounts L m past s) (ha : AtomicSoFar L m gpr past s) {e' : SwitchEvent}
    {t : System} (hs : SwitchStep L s.system e' t)
    (hcreate : ∀ name function result, e' ≠ .create name function result)
    (hout : ¬(CreationEvent.system e' s.running).InWindow) :
    Accounts L m (past ++ [.system e' s.running]) { s with system := t } := by
  obtain ⟨hlibre, hentry, hcur⟩ := switchStep_table ha.tableInv hs hcreate
  have hfill : ∀ slot, Filling { s with system := t } slot ↔ Filling s slot := by
    intro slot
    rcases hcur with hsame | ⟨w, rfl⟩
    · have hrun : Creators.running { s with system := t } = s.running := congrArg s.call hsame
      rw [Filling, Filling, hrun]
    · have hnone : ∀ p c, s.call p = some c → ¬c.pc.Published := by
        apply ha.not_published
        intro c hc hpub
        rw [hc] at hout
        exact hout (.inr hpub)
      exact iff_of_false (fun ⟨c, hc, hpub, _⟩ => hnone _ c hc hpub) (fun ⟨c, hc, hpub, _⟩ => hnone _ c hc hpub)
  have hhanded : handedOut L m (past ++ [.system e' s.running]) = handedOut L m past := handedOut_same past rfl
  constructor
  · exact fun p c slot hc hslot pc hpc hrank => List.mem_append_left _ (h.stored p c slot hc hslot pc hpc hrank)
  · intro slot hused
    rw [hfill]
    rcases h.made slot (fun hl => hused ((hlibre slot).mpr hl)) with hf | hmade
    · exact .inl hf
    · refine .inr ?_
      change MadeBy L m _ slot (t.kernel.processEntry slot)
      rw [hentry]
      exact hmade.mono _
  · intro slot hcase name function hmem
    rw [hfill, hlibre] at hcase
    rcases List.mem_append.mp hmem with hmem | hmem
    · exact h.unstored slot hcase name function hmem
    · cases List.mem_singleton.mp hmem
  · exact h.owned
  · intro p c slot hc hslot
    rw [hhanded]
    exact h.fresh p c slot hc hslot
  · rw [hhanded]
    exact h.nodup
  · intro pid hpid
    rw [hhanded] at hpid
    obtain ⟨slot, rfl, hused⟩ := h.used pid hpid
    exact ⟨slot, rfl, fun hl => hused ((hlibre slot).mp hl)⟩

/-- A call that begins has no slot. -/
theorem Accounts.callStep (h : Accounts L m past s) (hrun : s.running = none) (name : ℕ → U8) (function : U32) :
    Accounts L m (past ++ [.call name function]) (s.goto (some ⟨name, function, .search 0⟩)) := by
  have hhanded : handedOut L m (past ++ [.call name function]) = handedOut L m past := handedOut_same past rfl
  have hcall : ∀ p c slot, (s.goto (some ⟨name, function, .search 0⟩)).call p = some c → c.pc.slot = some slot →
      s.call p = some c := by
    intro p c slot hc hslot
    rcases Creators.goto_call hc with ⟨-, hnew⟩ | ⟨-, hc⟩
    · cases hnew
      cases hslot
    · exact hc
  have hfill : ∀ slot, ¬Filling (s.goto (some ⟨name, function, .search 0⟩)) slot := by
    rintro slot ⟨c, hc, hpub, -⟩
    cases (s.goto_running _).symm.trans hc
    exact hpub
  constructor
  · exact fun p c slot hc hslot pc hpc hrank =>
      List.mem_append_left _ (h.stored p c slot (hcall p c slot hc hslot) hslot pc hpc hrank)
  · intro slot hused
    rcases h.made slot hused with ⟨c, hc, -⟩ | hmade
    · cases hrun.symm.trans hc
    · exact .inr (hmade.mono _)
  · intro slot hcase name' function' hmem
    rcases List.mem_append.mp hmem with hmem | hmem
    · exact h.unstored slot (.inr (hcase.resolve_left (hfill slot))) name' function' hmem
    · cases List.mem_singleton.mp hmem
  · exact fun p q c d slot hc hd hslot hslot' =>
      h.owned p q c d slot (hcall p c slot hc hslot) (hcall q d slot hd hslot') hslot hslot'
  · intro p c slot hc hslot
    rw [hhanded]
    exact h.fresh p c slot (hcall p c slot hc hslot) hslot
  · rw [hhanded]
    exact h.nodup
  · intro pid hpid
    rw [hhanded] at hpid
    exact h.used pid hpid

theorem returned_createResult (h : TableInv k) (found : Option Slot) :
    returned [.ret (createResult k found)] = (found.map (fun slot => BitVec.ofNat 32 slot.val)).toList := by
  cases found with
  | none => rfl
  | some slot =>
    have hne := pid_ne_fail slot
    simp [returned, createResult, h.pid slot, hne]

theorem Accounts.retStep (h : Accounts L m past s) (ha : AtomicSoFar L m gpr past s) {found : Option Slot}
    (hrun : s.running = some c) (hpc : c.pc = .ret found) :
    Accounts L m (past ++ [.ret (createResult s.system.kernel found)]) (s.goto none) := by
  have hhanded : handedOut L m (past ++ [.ret (createResult s.system.kernel found)]) =
      handedOut L m past ++ (found.map (fun slot => BitVec.ofNat 32 slot.val)).toList := by
    rw [handedOut_append, returned_createResult ha.tableInv]
  have hcall : ∀ p c, (s.goto none).call p = some c → p ≠ s.current ∧ s.call p = some c := by
    intro p c hc
    rcases Creators.goto_call hc with ⟨-, hnew⟩ | hold
    · cases hnew
    · exact hold
  have hmem : ∀ pid, pid ∈ handedOut L m (past ++ [.ret (createResult s.system.kernel found)]) →
      pid ∈ handedOut L m past ∨ ∃ slot, c.pc.slot = some slot ∧ pid = BitVec.ofNat 32 slot.val := by
    intro pid hpid
    rw [hhanded] at hpid
    rcases List.mem_append.mp hpid with hpid | hpid
    · exact .inl hpid
    · obtain ⟨slot, hslot, rfl⟩ := Option.map_eq_some_iff.mp (Option.mem_toList.mp hpid)
      exact .inr ⟨slot, by rw [hpc, hslot]; rfl, rfl⟩
  have hfill : ∀ slot, ¬Filling (s.goto none) slot := by
    rintro slot ⟨c, hc, -⟩
    cases (s.goto_running none).symm.trans hc
  constructor
  · exact fun p c slot hc hslot pc hpc hrank =>
      List.mem_append_left _ (h.stored p c slot (hcall p c hc).2 hslot pc hpc hrank)
  · intro slot hused
    rcases h.made slot hused with ⟨d, hd, hpub, -⟩ | hmade
    · cases hrun.symm.trans hd
      rw [hpc] at hpub
      exact absurd hpub id
    · exact .inr (hmade.mono _)
  · intro slot hcase name function hmem
    rcases List.mem_append.mp hmem with hmem | hmem
    · exact h.unstored slot (.inr (hcase.resolve_left (hfill slot))) name function hmem
    · cases List.mem_singleton.mp hmem
  · exact fun p q c d slot hc hd => h.owned p q c d slot (hcall p c hc).2 (hcall q d hd).2
  · intro p d slot hd hslot hpid
    obtain ⟨hp, hd⟩ := hcall p d hd
    rcases hmem _ hpid with hold | ⟨slot', hslot', heq⟩
    · exact h.fresh p d slot hd hslot hold
    · obtain rfl := pid_inj heq
      exact hp (h.owned p _ d c slot hd hrun hslot hslot')
  · rw [hhanded]
    refine List.nodup_append.mpr ⟨h.nodup, ?_, ?_⟩
    · cases found <;> simp
    · rintro pid hpid _ hnew rfl
      obtain ⟨slot, hslot, rfl⟩ := Option.map_eq_some_iff.mp (Option.mem_toList.mp hnew)
      exact h.fresh _ c slot hrun (by rw [hpc, hslot]; rfl) hpid
  · intro pid hpid
    rcases hmem pid hpid with hold | ⟨slot, hslot, rfl⟩
    · exact h.used pid hold
    · refine ⟨slot, rfl, ?_⟩
      have hassert := ha.assertion _ c hrun
      rw [hpc] at hslot
      cases hslot
      rw [CreateCall.Assertion, hpc] at hassert
      exact hassert

theorem published_of_next (h : (createStatement L c k).1.Published)
    (hslot : (createStatement L c k).1.slot = some slot) :
    c.pc.Published ∧ c.pc.slot = some slot ∨ c.pc = .setState slot := by
  obtain ⟨name, function, pc⟩ := c
  cases pc with
  | search i =>
    simp only [createStatement] at h
    repeat' split at h
    all_goals exact absurd h id
  | testSlot found => cases found <;> exact absurd h id
  | setPid found => exact absurd h id
  | setState found => exact .inr (congrArg CreatePoint.setState (Option.some.inj hslot))
  | copyTest found i =>
    simp only [createStatement] at hslot
    split at hslot <;> exact .inl ⟨trivial, hslot⟩
  | setReg found r =>
    simp only [createStatement] at hslot
    split at hslot <;> exact .inl ⟨trivial, hslot⟩
  | ret found => exact absurd h id
  | _ => exact .inl ⟨trivial, hslot⟩

/-- The call returns after the store to `regs[4]`. -/
theorem lastStore_of_next (hpub : c.pc.Published) (h : (createStatement L c k).1 = .ret (some slot)) :
    c.pc = .setReg slot 4 := by
  obtain ⟨name, function, pc⟩ := c
  cases pc with
  | copyTest found i =>
    simp only [createStatement] at h
    split at h <;> cases h
  | setReg found r =>
    simp only [createStatement] at h
    split at h
    · cases h
    · cases h
      have hr : r = 4 := Fin.ext (by change r.val = 4; omega)
      rw [hr]
  | copyChar found i => cases h
  | closeName found i => cases h
  | setEntry found => cases h
  | setTop found => cases h
  | _ => exact absurd hpub id

/-- Outside the window only a call that is about to return has a slot. -/
theorem ret_of_slot {pc : CreatePoint} (hout : ¬pc.InWindow) (hslot : pc.slot = some slot) : pc = .ret (some slot) := by
  cases pc with
  | search i => cases hslot
  | testSlot found =>
    cases hslot
    exact absurd (.inl rfl) hout
  | ret found => exact congrArg CreatePoint.ret hslot
  | setPid found => exact absurd (.inl trivial) hout
  | setState found => exact absurd (.inl trivial) hout
  | _ => exact absurd (.inr trivial) hout

theorem Filling.execute (h : Filling s slot) (hrun : s.running = some c) :
    Filling (s.execute L c) slot ∨ (createStatement L c s.system.kernel).1 = .ret (some slot) := by
  obtain ⟨d, hd, hpub, hslot⟩ := h
  cases hrun.symm.trans hd
  obtain ⟨hnext, hpub' | hlast⟩ := published_statement (L := L) hpub hslot s.system.kernel
  · exact .inl ⟨_, s.execute_running L c, hpub', hnext⟩
  · exact .inr hlast

theorem filling_setState (L : Layout) (hpc : c.pc = .setState slot) : Filling (s.execute L c) slot :=
  ⟨_, s.execute_running L c, by simp [createStatement, hpc, CreatePoint.Published],
    by simp [createStatement, hpc, CreatePoint.slot]⟩

/-- What is filled now was free or being filled before. -/
theorem filling_of_execute (h : Filling (s.execute L c) slot) (ha : AtomicSoFar L m gpr past s)
    (hrun : s.running = some c) : Filling s slot ∨ (s.system.kernel.processTable slot).state = .libre := by
  obtain ⟨d, hd, hpub, hslot⟩ := h
  cases (s.execute_running L c).symm.trans hd
  rcases published_of_next hpub hslot with ⟨hpub, hslot⟩ | hpc
  · exact .inl ⟨c, hrun, hpub, hslot⟩
  · have hassert := ha.assertion _ c hrun
    rw [CreateCall.Assertion, hpc] at hassert
    exact .inr hassert.1

/-- A call that has come to its `return` has executed all the stores. -/
theorem Accounts.madeBy_last (h : Accounts L m past s) (ha : AtomicSoFar L m gpr past s) (hrun : s.running = some c)
    (hpub : c.pc.Published) (hlast : (createStatement L c s.system.kernel).1 = .ret (some slot)) :
    MadeBy L m (past ++ [.statement c]) slot (s.system.kernel.processEntry slot) := by
  have hassert := ha.assertion _ c hrun
  rw [CreateCall.Assertion, lastStore_of_next hpub hlast] at hassert
  rw [hassert.2]
  refine .inr ⟨c.name, ?_⟩
  intro pc hmem
  have hpos : (createStatement L c s.system.kernel).1.rank < pc.rank := by
    rw [hlast]
    rcases mem_stores.mp hmem with rfl | rfl | ⟨r, rfl⟩
    · exact Nat.zero_lt_succ 13
    · exact Nat.zero_lt_succ 12
    · simp only [CreatePoint.rank]
      omega
  rcases createStatement_stores (fun found => published_ne_ret hpub found) hmem (by rw [hlast]; rfl) hpos with
    ⟨hkept, hbefore⟩ | rfl
  · exact List.mem_append_left _ (h.stored _ c slot hrun hkept pc hmem hbefore)
  · exact List.mem_append_right _ List.mem_cons_self

theorem Accounts.made_execute (h : Accounts L m past s) (ha : AtomicSoFar L m gpr past s) (hrun : s.running = some c)
    (hused : ((s.execute L c).system.kernel.processTable slot).state ≠ .libre) :
    Filling (s.execute L c) slot ∨
      MadeBy L m (past ++ [.statement c]) slot ((s.execute L c).system.kernel.processEntry slot) := by
  by_cases hfill : Filling (s.execute L c) slot
  · exact .inl hfill
  · have hpublish : c.pc ≠ .setState slot := fun hpc => hfill (filling_setState L hpc)
    have hentry : c.pc ≠ .setEntry slot := by
      intro hpc
      refine hfill ⟨_, s.execute_running L c, ?_, ?_⟩
      · simp [createStatement, hpc, CreatePoint.Published]
      · simp [createStatement, hpc, CreatePoint.slot]
    have hsame : (s.execute L c).system.kernel.processEntry slot = s.system.kernel.processEntry slot :=
      (createStatement_processEntry L c s.system.kernel slot).trans (if_neg hentry)
    have hused' : (s.system.kernel.processTable slot).state ≠ .libre := by
      intro hl
      exact hused ((createStatement_state L c s.system.kernel slot).trans ((if_neg hpublish).trans hl))
    rw [hsame]
    refine .inr ?_
    rcases h.made slot hused' with hbefore | hmade
    · rcases hbefore.execute (L := L) hrun with hafter | hlast
      · exact absurd hafter hfill
      · obtain ⟨d, hd, hpub, -⟩ := hbefore
        cases hrun.symm.trans hd
        exact h.madeBy_last ha hrun hpub hlast
    · exact hmade.mono _

theorem Accounts.unstored_execute (h : Accounts L m past s) (ha : AtomicSoFar L m gpr past s)
    (hrun : s.running = some c)
    (hcase : Filling (s.execute L c) slot ∨ ((s.execute L c).system.kernel.processTable slot).state = .libre)
    (name : ℕ → U8) (function : U32) :
    .statement ⟨name, function, .setReg slot 4⟩ ∉ past ++ [.statement c] := by
  intro hmem
  rcases List.mem_append.mp hmem with hmem | hmem
  · refine h.unstored slot ?_ name function hmem
    rcases hcase with hfill | hl
    · exact filling_of_execute hfill ha hrun
    · refine .inr ?_
      by_contra hused
      exact createStatement_used L c hused hl
  · obtain rfl := CreationEvent.statement.inj (List.mem_singleton.mp hmem)
    have hpret : (s.system.kernel.processTable slot).state = .pret := (ha.assertion _ _ hrun).1
    rcases hcase with ⟨d, hd, hpub, -⟩ | hl
    · cases (s.execute_running L _).symm.trans hd
      exact hpub
    · cases hpret.symm.trans hl

theorem Accounts.statementStep (h : Accounts L m past s) (ha : AtomicSoFar L m gpr past s)
    (hrun : s.running = some c) (hret : ∀ found, c.pc ≠ .ret found) :
    Accounts L m (past ++ [.statement c]) (s.execute L c) := by
  have hhanded : handedOut L m (past ++ [.statement c]) = handedOut L m past := handedOut_same past rfl
  have hother : ∀ q d slot, q ≠ s.current → s.call q = some d → d.pc.slot = some slot →
      (createStatement L c s.system.kernel).1.slot ≠ some slot := by
    intro q d slot hq hd hslot hnext
    rcases createStatement_slot hret hnext with hkept | ⟨hfree, -⟩
    · exact hq (h.owned q _ d c slot hd hrun hslot hkept)
    · have hpc := ret_of_slot (fun hwin => hq (ha.window q d hd hwin)) hslot
      have hused := ha.assertion q d hd
      rw [CreateCall.Assertion, hpc] at hused
      exact hused hfree
  constructor
  · intro p d slot hd hslot pc hpc hrank
    rcases Creators.execute_call hd with ⟨-, rfl⟩ | ⟨-, hd⟩
    · rcases createStatement_stores hret hpc hslot hrank with ⟨hkept, hbefore⟩ | rfl
      · exact List.mem_append_left _ (h.stored _ c slot hrun hkept pc hpc hbefore)
      · exact List.mem_append_right _ List.mem_cons_self
    · exact List.mem_append_left _ (h.stored p d slot hd hslot pc hpc hrank)
  · exact fun slot hused => h.made_execute ha hrun hused
  · exact fun slot hcase name function => h.unstored_execute ha hrun hcase name function
  · intro p q d d' slot hd hd' hslot hslot'
    rcases Creators.execute_call hd with ⟨hp, rfl⟩ | ⟨hp, hd⟩ <;>
      rcases Creators.execute_call hd' with ⟨hq, rfl⟩ | ⟨hq, hd'⟩
    · exact hp.trans hq.symm
    · exact absurd hslot (hother q d' slot hq hd' hslot')
    · exact absurd hslot' (hother p d slot hp hd hslot)
    · exact h.owned p q d d' slot hd hd' hslot hslot'
  · intro p d slot hd hslot
    rw [hhanded]
    rcases Creators.execute_call hd with ⟨-, rfl⟩ | ⟨-, hd⟩
    · rcases createStatement_slot hret hslot with hkept | ⟨hfree, -⟩
      · exact h.fresh _ c slot hrun hkept
      · intro hpid
        obtain ⟨slot', heq, hused⟩ := h.used _ hpid
        exact hused (pid_inj heq ▸ hfree)
    · exact h.fresh p d slot hd hslot
  · rw [hhanded]
    exact h.nodup
  · intro pid hpid
    rw [hhanded] at hpid
    obtain ⟨slot, rfl, hused⟩ := h.used pid hpid
    exact ⟨slot, rfl, createStatement_used L c hused⟩

theorem Accounts.step (h : Accounts L m past s) (ha : AtomicSoFar L m gpr past s) (hs : CreationStep L s e t)
    (hout : ¬e.InWindow) : Accounts L m (past ++ [e]) t := by
  cases hs with
  | system e' t hstep hcreate => exact h.systemStep ha hstep hcreate hout
  | call name function hphase hrun => exact h.callStep hrun name function
  | statement c hrun hret => exact h.statementStep ha hrun hret
  | ret c found hrun hpc => exact h.retStep ha hrun hpc

theorem accounts_start (L : Layout) (m : Memory) (gpr : Reg → U32) : Accounts L m [] (.start L m gpr) := by
  have hbase : Handed (handedOut L m []) (kernelStart L m) := handed_run (.nil _)
  refine ⟨nofun, ?_, fun _ _ _ _ => List.not_mem_nil, nofun, nofun, hbase.nodup, hbase.used⟩
  intro slot hused
  exact .inr (.inl ((kernelStart_entries L m slot _).mpr ⟨hused, rfl⟩))

theorem accounts_run (h : Runs (CreationStep L) (.start L m gpr) events s) (hout : ∀ e ∈ events, ¬e.InWindow) :
    AtomicSoFar L m gpr events s ∧ Accounts L m events s := by
  refine h.history_nil (fun past s => (∀ e ∈ past, ¬e.InWindow) → AtomicSoFar L m gpr past s ∧ Accounts L m past s)
    ?_ (fun _ => ⟨atomicSoFar_start L m gpr, accounts_start L m gpr⟩) hout
  intro past s e t hpast hs hall
  obtain ⟨ha, h⟩ := hpast (fun e' he' => hall e' (List.mem_append_left _ he'))
  have hlast := hall e (List.mem_append_right _ List.mem_cons_self)
  exact ⟨ha.step hs hlast, h.step ha hs hlast⟩

theorem lastOut_systemEvents (p : Slot) (events : List CreationEvent) :
    lastOut p (systemEvents events) = lastOut p (atomicTrace events) := by
  induction events with
  | nil => rfl
  | cons e events ih =>
    cases e with
    | system e' running =>
      change lastOut p (e' :: systemEvents events) = lastOut p (e' :: atomicTrace events)
      cases e' with
      | switch w => rw [lastOut, lastOut, ih]
      | _ => exact ih
    | statement c =>
      obtain ⟨name, function, pc⟩ := c
      cases pc <;> exact ih
    | _ => exact ih

/-- A switch out of the window goes to a slot that is set up. -/
theorem Accounts.setUp (h : Accounts L m past s) (ha : AtomicSoFar L m gpr past s) {w : Switch} {c : Option CreateCall}
    (hs : CreationStep L s (.system (.switch w) c) t) (hout : ¬(CreationEvent.system (.switch w) c).InWindow) :
    SetUp L m past s w.into := by
  cases hs with
  | system e' t hstep hcreate =>
    cases hstep with
    | switch old next ra hs hra hroom =>
      obtain ⟨hold, hne, hpret, -⟩ := switch_cases ha.tableInv hs
      have hused : (s.system.kernel.processTable next).state ≠ .libre := by
        rw [hpret]
        simp
      have hpub : ∀ c, s.running = some c → ¬c.pc.Published := by
        intro c hc hpub
        rw [hc] at hout
        exact hout (.inr hpub)
      have hinv := ha.contextInv
      rw [finished_of_not_published hpub] at hinv
      rw [switchRecord_into]
      constructor
      · rcases h.made next hused with ⟨c, hc, hfill, -⟩ | hmade
        · exact absurd hfill (hpub c hc)
        · exact hmade
      · rw [lastOut_systemEvents]
        exact hinv.suspended next (hold ▸ hne) hused

theorem atomic_of_run (h : Runs (CreationStep L) (.start L m gpr) events s) (hout : ∀ e ∈ events, ¬e.InWindow) :
    Atomic L m gpr events := by
  constructor
  · rintro past w c rest s' t rfl hruns hstep
    obtain ⟨ha, haccounts⟩ := accounts_run hruns (fun e he => hout e (List.mem_append_left _ he))
    exact haccounts.setUp ha hstep (hout _ (List.mem_append_right _ List.mem_cons_self))
  · exact (accounts_run h hout).2.nodup

end

/-! ## One switch in the window -/

/-- The system goes on by itself, out of the window, until the slot is elected. -/
structure Elected (L : Layout) (s : Creators) (q : Slot) (more : List CreationEvent) (s₁ : Creators) (w : Switch)
    (t : Creators) : Prop where
  runs : Runs (CreationStep L) s more s₁
  system : ∀ e ∈ more, ∃ e' running, e = .system e' running
  out : ∀ e ∈ more, ¬e.InWindow
  elect : CreationStep L s₁ (.system (.switch w) s₁.running) t
  electOut : ¬(CreationEvent.system (.switch w) s₁.running).InWindow
  into : w.into = q
  current : t.current = q
  call : t.call = s.call
  table : TableInv t.system.kernel

section
variable {L : Layout} {m : Memory} {gpr : Reg → U32} {past more events : List CreationEvent} {e : CreationEvent}
  {s s₁ t : Creators} {c : CreateCall} {k k' : Kernel} {slot p q base cur next : Slot} {function : U32} {name : ℕ → U8}

/-- Where another process is ready, the timer can switch to the next one. -/
theorem switch_possible (h : TableInv s.system.kernel) (hq : (s.system.kernel.processTable q).state = .pret) :
    ∃ s₁ w t, CreationStep L s (.system .work s.running) s₁ ∧ s₁.running = s.running ∧
      CreationStep L s₁ (.system (.switch w) s₁.running) t ∧ w.into = t.current ∧ t.call = s.call ∧
      TableInv t.system.kernel ∧ steps s.current t.current ≤ steps s.current q ∧
      (t.current ≠ q → (t.system.kernel.processTable q).state = .pret) := by
  rcases schedule_cases h with ⟨hnone, -⟩ | ⟨next, hnext, hmin, hs⟩
  · exact absurd hq (hnone q)
  · have hlow := L.stack_cases s.current
    have hfit := L.stackHigh_fits s.current
    have hra : L.processStarter + 1 ≠ L.processStarter := by simp
    have hwork := SwitchStep.work (L := L) s.system (fun _ => BitVec.ofNat 32 (L.stackHigh s.current))
      s.system.kernel.mem (fun _ _ => rfl)
    have hroom : L.StackRoom s.current (BitVec.ofNat 32 (L.stackHigh s.current)) := by
      rw [Layout.StackRoom, toNat_ofNat_of_lt hfit]
      omega
    have hcur : s.current ≠ next := by
      intro hc
      have helu : (s.system.kernel.processTable s.current).state = .elu := (h.elu _).mpr rfl
      rw [hc, hnext] at helu
      cases helu
    have htable := tableInv_schedule h
    have hswitch := SwitchStep.switch (L := L)
      { s.system with gpr := fun _ => BitVec.ofNat 32 (L.stackHigh s.current) } s.current next
      (L.processStarter + 1) (congrArg Prod.snd hs) hra hroom
    have hcurrent : (schedule s.system.kernel).1.currentPid = next := by rw [hs]
    refine ⟨_, _, _, .system s _ _ hwork nofun, rfl, .system _ _ _ hswitch nofun, ?_, rfl,
      ⟨htable.enabled, htable.elu, htable.bloque, htable.pid⟩, ?_, ?_⟩
    · exact (switchRecord_into _ _ _ _ _).trans hcurrent.symm
    · change steps s.current (schedule s.system.kernel).1.currentPid ≤ _
      rw [hcurrent]
      exact hmin q hq
    · intro hne
      change (schedule s.system.kernel).1.currentPid ≠ q at hne
      change ((schedule s.system.kernel).1.processTable q).state = .pret
      rw [hcurrent] at hne
      rw [hs]
      change (setState next .elu _ q).state = .pret
      rw [setState_of_ne (Ne.symm hne), setState_state]
      split
      · rfl
      · exact hq

/-- Round robin leads to the slot before it leads back to `base`. -/
theorem elected_of_ready (h : TableInv s.system.kernel) (hq : (s.system.kernel.processTable q).state = .pret)
    (hsum : steps base s.current + steps s.current q = steps base q)
    (hcalm : ∀ r c, steps base r < steps base q → s.call r = some c → ¬c.pc.InWindow) :
    ∃ more s₁ w t, Elected L s q more s₁ w t := by
  induction hn : steps s.current q using Nat.strong_induction_on generalizing s with
  | _ n ih =>
    obtain ⟨s₁, w, t, hwork, hrun, hswitch, hinto, hcall, htable, hle, hpret⟩ := switch_possible (L := L) h hq
    have hout : ¬(CreationEvent.system (.switch w) s₁.running).InWindow := by
      rw [hrun]
      cases hc : s.running with
      | none => exact id
      | some c =>
        refine hcalm s.current c ?_ hc
        have hpos := steps_pos s.current q
        omega
    by_cases hdone : t.current = q
    · refine ⟨_, s₁, w, t, .cons hwork (.nil _), ?_, ?_, hswitch, hout, hinto.trans hdone, hdone, hcall, htable⟩
      · intro e he
        exact ⟨_, _, List.mem_singleton.mp he⟩
      · intro e he
        rw [List.mem_singleton.mp he]
        exact id
    · obtain ⟨hsum', hlt⟩ := steps_split hle hdone hsum
      obtain ⟨more, s₂, w', t', helect⟩ := ih _ (hn ▸ hlt) htable (hpret hdone) hsum' (hcall ▸ hcalm) rfl
      refine ⟨_, s₂, w', t', (Runs.cons hwork (.cons hswitch helect.runs)), ?_, ?_, helect.elect, helect.electOut,
        helect.into, helect.current, helect.call.trans hcall, helect.table⟩
      · intro e he
        rcases List.mem_cons.mp he with rfl | he
        · exact ⟨_, _, rfl⟩
        rcases List.mem_cons.mp he with rfl | he
        · exact ⟨_, _, rfl⟩
        · exact helect.system e he
      · intro e he
        rcases List.mem_cons.mp he with rfl | he
        · exact id
        rcases List.mem_cons.mp he with rfl | he
        · exact hout
        · exact helect.out e he

/-- A slot whose last store has not been executed is not set up. -/
theorem not_setUp (hfresh : BitVec.ofNat 32 slot.val ∉ handedOut L m past)
    (hstored : ∀ name function, .statement ⟨name, function, .setReg slot 4⟩ ∉ events) : ¬SetUp L m events s slot := by
  intro h
  rcases h.made with hbase | ⟨name, hall⟩
  · have hzip : allCreations L m [] =
        (createBase L (initProcess L (.boot m))).2.zip [L.idle, L.processus1, L.shell] := List.append_nil _
    rw [hzip] at hbase
    exact hfresh (List.mem_append_left _ (List.of_mem_zip hbase).1)
  · exact hstored name _ (hall _ (mem_stores.mpr (.inr (.inr ⟨4, rfl⟩))))

/-- What a switch away from the running process leaves. -/
theorem switched_away (h : TableInv s.system.kernel) {w : Switch} {running : Option CreateCall}
    (hs : CreationStep L s (.system (.switch w) running) t) :
    t.call = s.call ∧ running = s.running ∧ w.into = t.current ∧ t.current ≠ s.current ∧ TableInv t.system.kernel ∧
      (t.system.kernel.processTable s.current).state = .pret ∧
      (∀ q, (s.system.kernel.processTable q).state = .pret → steps s.current t.current ≤ steps s.current q ∧
        (t.current ≠ q → (t.system.kernel.processTable q).state = .pret)) ∧
      ∀ q, (t.system.kernel.processTable q).state = .libre ↔ (s.system.kernel.processTable q).state = .libre := by
  cases hs with
  | system e' t hstep hcreate =>
    cases hstep with
    | switch old next ra hs hra hroom =>
      have htable := tableInv_schedule h
      have hlibre := switched_libre (L := L) h ra hs
      rcases schedule_cases h with ⟨-, hc⟩ | ⟨q, -, hmin, hc⟩
      · rw [hc] at hs
        cases hs
      · obtain ⟨hold, hne, -, hk⟩ := switch_cases h hs
        rw [hc] at hs
        obtain ⟨-, rfl⟩ := Prod.mk.inj (Option.some.inj hs)
        have hcur : (schedule s.system.kernel).1.currentPid = q := by rw [hk]
        have hpret : ∀ r, r ≠ q → r = s.current ∨ (s.system.kernel.processTable r).state = .pret →
            ((schedule s.system.kernel).1.processTable r).state = .pret := by
          intro r hr hcase
          rw [hk]
          change (setState q .elu _ r).state = .pret
          rw [setState_of_ne hr, setState_state, hold]
          split
          · rfl
          · next hrc => exact hcase.resolve_left hrc
        refine ⟨rfl, rfl, (switchRecord_into _ _ _ _ _).trans hcur.symm, ?_, ?_, ?_, ?_, hlibre⟩
        · change (schedule s.system.kernel).1.currentPid ≠ s.current
          rw [hcur]
          exact fun heq => hne (heq.trans hold.symm)
        · exact ⟨htable.enabled, htable.elu, htable.bloque, htable.pid⟩
        · exact hpret s.current (fun heq => hne (heq.symm.trans hold.symm)) (.inl rfl)
        · intro r hr
          change steps s.current (schedule s.system.kernel).1.currentPid ≤ _ ∧
            ((schedule s.system.kernel).1.currentPid ≠ r → ((schedule s.system.kernel).1.processTable r).state = .pret)
          rw [hcur]
          exact ⟨hmin r hr, fun hne => hpret r (Ne.symm hne) (.inr hr)⟩

/-- A published slot is elected before the process that was filling it. -/
theorem published_violates (hruns : Runs (CreationStep L) (.start L m gpr) past s) (ha : AtomicSoFar L m gpr past s)
    (h : Accounts L m past s) (hrun : s.running = some c) (hpub : c.pc.Published) {w : Switch}
    (hs : CreationStep L s (.system (.switch w) (some c)) t) :
    ∃ more u, Runs (CreationStep L) t more u ∧ (∀ e ∈ more, ¬e.InWindow) ∧
      ¬Atomic L m gpr (past ++ .system (.switch w) (some c) :: more) := by
  obtain ⟨slot, hslot, hpret⟩ := (ha.assertion _ c hrun).pret hpub
  have hfresh := h.fresh _ c slot hrun hslot
  have hstored := h.unstored slot (.inl ⟨c, hrun, hpub, hslot⟩)
  obtain ⟨hcall, -, hinto, -, htable, -, hnear, -⟩ := switched_away ha.tableInv hs
  obtain ⟨hle, hready⟩ := hnear slot hpret
  by_cases hfirst : t.current = slot
  · refine ⟨[], t, .nil _, nofun, ?_⟩
    intro hatomic
    have hset := hatomic.setUp past w _ [] s t rfl hruns hs
    rw [hinto, hfirst] at hset
    exact not_setUp hfresh hstored hset
  · have hne : slot ≠ s.current := by
      rintro rfl
      have helu : (s.system.kernel.processTable s.current).state = .elu := (ha.tableInv.elu _).mpr rfl
      rw [hpret] at helu
      cases helu
    have hother : ∀ r c, steps s.current r < steps s.current slot → t.call r = some c → ¬c.pc.InWindow := by
      intro r d hr hd hwin
      rw [hcall] at hd
      obtain rfl := ha.window r d hd hwin
      have hfull := steps_self s.current
      have hslot := steps_le s.current slot
      omega
    obtain ⟨more, s₁, w', u, helect⟩ := elected_of_ready (L := L) htable (hready hfirst) (steps_add hle hfirst) hother
    refine ⟨more ++ [.system (.switch w') s₁.running], u, helect.runs.append (.cons helect.elect (.nil _)), ?_, ?_⟩
    · intro e he
      rcases List.mem_append.mp he with he | he
      · exact helect.out e he
      · rw [List.mem_singleton.mp he]
        exact helect.electOut
    · intro hatomic
      have hset := hatomic.setUp (past ++ .system (.switch w) (some c) :: more) w' _ [] s₁ u (by simp)
        (hruns.append (.cons hs helect.runs)) helect.elect
      rw [helect.into] at hset
      refine not_setUp hfresh ?_ hset
      intro name function hmem
      rcases List.mem_append.mp hmem with hmem | hmem
      · exact hstored name function hmem
      · rcases List.mem_cons.mp hmem with heq | hmem
        · cases heq
        · obtain ⟨_, _, heq⟩ := helect.system _ hmem
          cases heq

/-- The running process goes on, and nothing else happens. -/
structure Alone (L : Layout) (s : Creators) (more : List CreationEvent) (t : Creators) : Prop where
  runs : Runs (CreationStep L) s more t
  out : ∀ e ∈ more, ¬e.InWindow
  current : t.current = s.current
  others : ∀ p, p ≠ s.current → t.call p = s.call p

theorem Alone.refl (L : Layout) (s : Creators) : Alone L s [] s := ⟨.nil s, nofun, rfl, fun _ _ => rfl⟩

theorem Alone.trans {u : Creators} {more' : List CreationEvent} (h : Alone L s more t) (h' : Alone L t more' u) :
    Alone L s (more ++ more') u := by
  refine ⟨h.runs.append h'.runs, ?_, h'.current.trans h.current, ?_⟩
  · intro e he
    exact (List.mem_append.mp he).elim (h.out e) (h'.out e)
  · intro p hp
    exact (h'.others p (h.current ▸ hp)).trans (h.others p hp)

theorem Alone.single (hs : CreationStep L s e t) (hout : ¬e.InWindow) (hcurrent : t.current = s.current)
    (hothers : ∀ p, p ≠ s.current → t.call p = s.call p) : Alone L s [e] t := by
  refine ⟨.cons hs (.nil t), ?_, hcurrent, hothers⟩
  intro e' he'
  rw [List.mem_singleton.mp he']
  exact hout

theorem alone_statements {x y : CreatePoint × Kernel} {pcs : List CreatePoint}
    (h : Runs (CreateStep L name function) x pcs y) (hrun : s.running = some ⟨name, function, x.1⟩)
    (hk : s.system.kernel = x.2) : ∃ t, Alone L s (pcs.map (fun pc => .statement ⟨name, function, pc⟩)) t ∧
      t.running = some ⟨name, function, y.1⟩ ∧ t.system.kernel = y.2 := by
  induction h generalizing s with
  | nil => exact ⟨s, .refl L s, hrun, hk⟩
  | @cons _ _ _ pc _ hstep _ ih =>
    cases hstep with
    | statement _ k hret =>
      have hk' : s.system.kernel = k := hk
      obtain ⟨t, halone, hrun', hkernel⟩ := ih (s := s.execute L ⟨name, function, pc⟩)
        ((s.execute_running L _).trans (by rw [hk'])) (by rw [Creators.execute, hk'])
      have hfirst : Alone L s [.statement ⟨name, function, pc⟩] (s.execute L ⟨name, function, pc⟩) :=
        .single (.statement s _ hrun hret) id (s.execute_current L _) (fun p hp => Function.update_of_ne hp _ _)
      exact ⟨t, hfirst.trans halone, hrun', hkernel⟩

/-- A process in the trampoline comes to its body. -/
theorem alone_body (s : Creators) : ∃ more t, Alone L s more t ∧ t.system.phase t.current = .body ∧
    t.system.kernel = s.system.kernel ∧ t.call = s.call := by
  have hcall : ∀ (s : Creators) me, s.system.phase s.current = .call me → ∃ more t, Alone L s more t ∧
      t.system.phase t.current = .body ∧ t.system.kernel = s.system.kernel ∧ t.call = s.call := by
    intro s me hphase
    exact ⟨_, _, .single (.system s _ _ (.call s.system me hphase) nofun) id rfl (fun _ _ => rfl),
      Function.update_self _ _ _, rfl, rfl⟩
  have hsti : ∀ (s : Creators) me, s.system.phase s.current = .sti me → ∃ more t, Alone L s more t ∧
      t.system.phase t.current = .body ∧ t.system.kernel = s.system.kernel ∧ t.call = s.call := by
    intro s me hphase
    have hfirst := Alone.single (L := L) (.system s _ _ (.sti s.system me hphase) nofun) id rfl (fun _ _ => rfl)
    obtain ⟨more, t, halone, hbody, hk, hc⟩ := hcall
      { s with system := { s.system with phase := Function.update s.system.phase s.current (.call me) } } me
      (Function.update_self s.current (Phase.call me) s.system.phase)
    exact ⟨_, t, hfirst.trans halone, hbody, hk, hc⟩
  cases hphase : s.system.phase s.current with
  | body => exact ⟨[], s, .refl L s, hphase, rfl, rfl⟩
  | starter =>
    have hfirst := Alone.single (L := L) (.system s _ _ (.getpid s.system hphase) nofun) id rfl (fun _ _ => rfl)
    obtain ⟨more, t, halone, hbody, hk, hc⟩ := hsti
      { s with system := { s.system with
        phase := Function.update s.system.phase s.current (.sti (getpid s.system.kernel)) } } (getpid s.system.kernel)
      (Function.update_self s.current (Phase.sti (getpid s.system.kernel)) s.system.phase)
    exact ⟨_, t, hfirst.trans halone, hbody, hk, hc⟩
  | sti me => exact hsti s me hphase
  | call me => exact hcall s me hphase

/-- A process out of the window can come to a search that has passed used slots only. -/
theorem alone_search (hfree : LowestFree slot s.system.kernel)
    (hout : ∀ c, s.running = some c → c.Assertion s.system.kernel ∧ ¬c.pc.InWindow) :
    ∃ more t name function i, Alone L s more t ∧ t.running = some ⟨name, function, .search i⟩ ∧ i ≤ slot.val ∧
      t.system.kernel = s.system.kernel := by
  have hnew : ∀ s : Creators, s.running = none → ∃ more t, Alone L s more t ∧
      t.running = some ⟨fun _ => 0, 0, .search 0⟩ ∧ t.system.kernel = s.system.kernel := by
    intro s hrun
    obtain ⟨more, t, halone, hbody, hk, hc⟩ := alone_body (L := L) s
    have hrun' : t.running = none := by
      rw [Creators.running, hc, halone.current]
      exact hrun
    exact ⟨_, _, halone.trans (.single (.call t (fun _ => 0) 0 hbody hrun') id rfl
      (fun p hp => Function.update_of_ne hp _ _)), t.goto_running _, hk⟩
  cases hrun : s.running with
  | none =>
    obtain ⟨more, t, halone, hsearch, hk⟩ := hnew s hrun
    exact ⟨more, t, _, _, 0, halone, hsearch, Nat.zero_le _, hk⟩
  | some c =>
    obtain ⟨hassert, hwin⟩ := hout c hrun
    obtain ⟨name, function, pc⟩ := c
    cases pc with
    | search i =>
      refine ⟨[], s, name, function, i, .refl L s, hrun, ?_, rfl⟩
      by_contra hlt
      exact hassert slot (Nat.lt_of_not_le hlt) hfree.1
    | testSlot found =>
      cases found with
      | none => exact absurd hfree.1 (hassert slot)
      | some found => exact absurd (.inl rfl) hwin
    | ret found =>
      have hfirst := Alone.single (L := L) (.ret s _ found hrun rfl) id rfl (fun p hp => Function.update_of_ne hp _ _)
      obtain ⟨more, t, halone, hsearch, hk⟩ := hnew (s.goto none) (s.goto_running none)
      exact ⟨_, t, _, _, 0, hfirst.trans halone, hsearch, Nat.zero_le _, hk⟩
    | setPid found => exact absurd (.inl trivial) hwin
    | setState found => exact absurd (.inl trivial) hwin
    | _ => exact absurd (.inr trivial) hwin

/-- Another process can be given the lowest free slot. -/
theorem alone_create (hfree : LowestFree slot s.system.kernel)
    (hout : ∀ c, s.running = some c → c.Assertion s.system.kernel ∧ ¬c.pc.InWindow) :
    ∃ more t name function, Alone L s (more ++ [.ret (BitVec.ofNat 32 slot.val)]) t ∧ t.running = none ∧
      t.system.kernel = fillSlot L slot name function s.system.kernel := by
  obtain ⟨before, s₁, name, function, i, hbefore, hrun₁, hi, hk₁⟩ := alone_search (L := L) hfree hout
  obtain ⟨pcs, hsearch⟩ := statements_search L name function hfree.1 hfree.2 hi
  have hfound : CreatePoint.Found (.testSlot (some slot)) := rfl
  obtain ⟨pcs', hfill⟩ := statements_found L name function (k := s.system.kernel) hfound rfl nofun
  obtain ⟨s₂, hstatements, hrun₂, hk₂⟩ := alone_statements (hsearch.append hfill) hrun₁ hk₁
  have hret := CreationStep.ret (L := L) s₂ _ (some slot) hrun₂ rfl
  have hresult : createResult s₂.system.kernel (some slot) = BitVec.ofNat 32 slot.val := by
    rw [hk₂]
    simp [createResult, fillSlot]
  rw [hresult] at hret
  have hlast : Alone L s₂ [.ret (BitVec.ofNat 32 slot.val)] (s₂.goto none) :=
    .single hret id rfl (fun p hp => Function.update_of_ne hp _ _)
  have hall := hbefore.trans (hstatements.trans hlast)
  rw [← List.append_assoc] at hall
  exact ⟨_, _, name, function, hall, s₂.goto_running none, hk₂⟩

theorem not_nodup_of_twice (L : Layout) (m : Memory) (events mid : List CreationEvent) (slot : Slot) :
    ¬(handedOut L m (events ++ .ret (BitVec.ofNat 32 slot.val) ::
      (mid ++ [.ret (BitVec.ofNat 32 slot.val)]))).Nodup := by
  intro h
  have hone : returned [.ret (BitVec.ofNat 32 slot.val)] = [BitVec.ofNat 32 slot.val] := by
    have hne := pid_ne_fail slot
    simp [returned, hne]
  have hsplit : handedOut L m
        (events ++ .ret (BitVec.ofNat 32 slot.val) :: (mid ++ [.ret (BitVec.ofNat 32 slot.val)])) =
      handedOut L m (events ++ .ret (BitVec.ofNat 32 slot.val) :: mid) ++ [BitVec.ofNat 32 slot.val] := by
    rw [← hone, ← handedOut_append]
    simp
  rw [hsplit] at h
  refine (List.nodup_append.mp h).2.2 _ ?_ _ List.mem_cons_self rfl
  rw [handedOut, returned_append, List.mem_append, List.mem_append]
  refine .inr (.inr ?_)
  change _ ∈ returned ([.ret (BitVec.ofNat 32 slot.val)] ++ mid)
  rw [returned_append, hone]
  exact List.mem_append_left _ List.mem_cons_self

theorem CreateCall.Assertion.lowestFree (h : c.Assertion k) (hfound : c.pc.Found) :
    ∃ slot, c.pc.slot = some slot ∧ LowestFree slot k := by
  obtain ⟨name, function, pc⟩ := c
  cases pc with
  | testSlot found =>
    cases found with
    | none => cases hfound
    | some slot => exact ⟨slot, rfl, h⟩
  | setPid slot => exact ⟨slot, rfl, h⟩
  | setState slot => exact ⟨slot, rfl, h⟩
  | _ => exact absurd hfound id

/-- A slot that has been found and not published is found again by the next process, and both return it. -/
theorem found_violates (ha : AtomicSoFar L m gpr past s) (hrun : s.running = some c) (hfound : c.pc.Found) {w : Switch}
    (hs : CreationStep L s (.system (.switch w) (some c)) t) :
    ∃ more u, Runs (CreationStep L) t more u ∧ (∀ e ∈ more, ¬e.InWindow) ∧
      ¬Atomic L m gpr (past ++ .system (.switch w) (some c) :: more) := by
  obtain ⟨slot, hslot, hfree⟩ := (ha.assertion _ c hrun).lowestFree hfound
  obtain ⟨hcall, -, -, hne, htable, hback, -, hlibre⟩ := switched_away ha.tableInv hs
  have hfree' : LowestFree slot t.system.kernel :=
    ⟨(hlibre slot).mpr hfree.1, fun j hj hl => hfree.2 j hj ((hlibre j).mp hl)⟩
  have hcalm : ∀ p d, p ≠ s.current → s.call p = some d → ¬d.pc.InWindow :=
    fun p d hp hd hwin => hp (ha.window p d hd hwin)
  obtain ⟨first, t₁, name, function, hfirst, hrun₁, hk₁⟩ := alone_create (L := L) hfree' (by
    intro d hd
    rw [Creators.running, hcall] at hd
    have hout := hcalm _ d hne hd
    exact ⟨(ha.assertion _ d hd).mono hout (fun j hj hl => hj ((hlibre j).mp hl)), hout⟩)
  have htable₁ : TableInv t₁.system.kernel := by
    have hcreate := tableInv_create htable L name function
    rw [createProcess_of_lowest hfree'.1 hfree'.2] at hcreate
    rw [hk₁]
    exact hcreate
  have hcurrent₁ : t₁.current ≠ s.current := hfirst.current ▸ hne
  have hback₁ : (t₁.system.kernel.processTable s.current).state = .pret := by
    have hother : s.current ≠ slot := by
      rintro rfl
      rw [hfree'.1] at hback
      cases hback
    rw [hk₁]
    exact (congrArg Process.state (Function.update_of_ne hother _ _)).trans hback
  have hsum : steps s.current t₁.current + steps t₁.current s.current = steps s.current s.current :=
    steps_add (by rw [steps_self]; exact steps_le _ _) hcurrent₁
  obtain ⟨second, s₁, w', u, helect⟩ := elected_of_ready (L := L) htable₁ hback₁ hsum (by
    intro r d hr hd
    have hrs : r ≠ s.current := by
      rintro rfl
      exact lt_irrefl _ hr
    refine hcalm r d hrs ?_
    rw [← hcall, ← hfirst.others r]
    · exact hd
    · rintro rfl
      rw [Creators.running, hfirst.current, hd] at hrun₁
      cases hrun₁)
  have hrun₂ : u.running = some c := by
    rw [Creators.running, helect.current, helect.call, hfirst.others _ (Ne.symm hne), hcall]
    exact hrun
  obtain ⟨pcs, hfill⟩ := statements_found L c.name c.function hfound hslot
    (fun _ => helect.table.pid slot)
  obtain ⟨v, hthird, hrun₃, hk₃⟩ := alone_statements hfill hrun₂ rfl
  have hret := CreationStep.ret (L := L) v _ (some slot) hrun₃ rfl
  have hresult : createResult v.system.kernel (some slot) = BitVec.ofNat 32 slot.val := by
    rw [hk₃]
    simp [createResult, fillSlot]
  rw [hresult] at hret
  let third := pcs.map (fun pc => CreationEvent.statement ⟨c.name, c.function, pc⟩)
  let switch := CreationEvent.system (.switch w') s₁.running
  have hall : Runs (CreationStep L) t
      (first ++ [.ret (BitVec.ofNat 32 slot.val)] ++
        (second ++ switch :: (third ++ [.ret (BitVec.ofNat 32 slot.val)])))
      (v.goto none) :=
    hfirst.runs.append (helect.runs.append (.cons helect.elect (hthird.runs.append (.cons hret (.nil _)))))
  refine ⟨_, _, hall, ?_, ?_⟩
  · intro e he
    rcases List.mem_append.mp he with he | he
    · exact hfirst.out e he
    rcases List.mem_append.mp he with he | he
    · exact helect.out e he
    rcases List.mem_cons.mp he with rfl | he
    · exact helect.electOut
    rcases List.mem_append.mp he with he | he
    · exact hthird.out e he
    · rw [List.mem_singleton.mp he]
      exact id
  · intro hatomic
    refine not_nodup_of_twice L m (past ++ .system (.switch w) (some c) :: first) (second ++ switch :: third) slot ?_
    have hpids := hatomic.pids
    simpa using hpids

/-- After one switch in the window the run can be continued, without another one, to a state
where a slot is half made or a pid has been returned twice. -/
theorem inWindow_violates (hruns : Runs (CreationStep L) (.start L m gpr) past s) (hpast : ∀ e ∈ past, ¬e.InWindow)
    (hs : CreationStep L s e t) (hwin : e.InWindow) : ∃ more u, Runs (CreationStep L) t more u ∧
      (∀ e ∈ more, ¬e.InWindow) ∧ ¬Atomic L m gpr (past ++ e :: more) := by
  obtain ⟨ha, h⟩ := accounts_run hruns hpast
  cases e with
  | system e' running =>
    cases e' with
    | switch w =>
      cases running with
      | none => exact absurd hwin id
      | some c =>
        obtain ⟨-, hrunning, -⟩ := switched_away ha.tableInv hs
        rcases hwin with hfound | hpub
        · exact found_violates ha hrunning.symm hfound hs
        · exact published_violates hruns ha h hrunning.symm hpub hs
    | _ => exact absurd hwin id
  | _ => exact absurd hwin id

end

/-- A run can be continued anywhere without harm exactly when no switch in it comes between the
test that finds a slot and the last store to it. -/
theorem createProcess_atomic_iff {L : Layout} {m : Memory} {gpr : Reg → U32} {events : List CreationEvent}
    {s : Creators}
    (h : Runs (CreationStep L) (.start L m gpr) events s) :
    (∀ past more t, past <+: events → Runs (CreationStep L) (.start L m gpr) (past ++ more) t →
        (∀ e ∈ more, ¬e.InWindow) → Atomic L m gpr (past ++ more)) ↔
      ∀ e ∈ events, ¬e.InWindow := by
  constructor
  · intro hatomic
    induction events using List.reverseRecOn generalizing s with
    | nil => exact nofun
    | append_singleton events e ih =>
      obtain ⟨s₁, hevents, hlast⟩ := h.split
      cases hlast with
      | cons hstep hnil =>
        have hpast := ih hevents (fun past more t hp => hatomic past more t (hp.trans (List.prefix_append _ _)))
        intro e' he'
        rcases List.mem_append.mp he' with he' | he'
        · exact hpast e' he'
        · rw [List.mem_singleton.mp he']
          intro hwin
          obtain ⟨more, u, hmore, hout, hnot⟩ := inWindow_violates hevents hpast hstep hwin
          refine hnot ?_
          rw [List.append_cons]
          refine hatomic _ more u List.prefix_rfl ?_ hout
          rw [List.append_assoc]
          exact hevents.append (.cons hstep hmore)
  · intro hgood past more t hpast hruns hout
    refine atomic_of_run hruns ?_
    intro e he
    rcases List.mem_append.mp he with he | he
    · exact hgood e (hpast.subset he)
    · exact hout e he

/-- Process 0 is preempted in `find_free_slot`, after it has looked at slot 0. -/
theorem createProcess_atomic_iff_search :
    ∃ w events s, Runs (CreationStep .sample) (.start .sample (fun _ => 0) (fun _ => 0)) events s ∧
      .system (.switch w) (some ⟨cString ['a'], 0x100500#32, .search 1⟩) ∈ events ∧
        Atomic .sample (fun _ => 0) (fun _ => 0) events := by
  have hcall := CreationStep.call (L := .sample) (.start .sample (fun _ => 0) (fun _ => 0)) (cString ['a']) 0x100500#32
    rfl rfl
  have hstatement := CreationStep.statement (L := .sample) _ ⟨cString ['a'], 0x100500#32, .search 0⟩
    (Creators.goto_running _ (.start .sample (fun _ => 0) (fun _ => 0))) nofun
  generalize hs : Creators.execute .sample _ _ = s at hstatement
  have hrun : s.running = some ⟨cString ['a'], 0x100500#32, .search 1⟩ := by
    rw [← hs]
    rfl
  have hruns := Runs.cons hcall (.cons hstatement (.nil s))
  have hready : (s.system.kernel.processTable 1).state = .pret := by
    rw [← hs]
    decide
  have htable := (accounts_run hruns (by simp [CreationEvent.InWindow])).1.tableInv
  obtain ⟨s₁, w, t, hwork, hrun₁, hswitch, -⟩ := switch_possible (L := .sample) htable hready
  rw [hrun₁, hrun] at hswitch
  have hall := hruns.append (.cons hwork (.cons hswitch (.nil t)))
  refine ⟨w, _, t, hall, by simp, ?_⟩
  have hatomic := (createProcess_atomic_iff hall).mpr ?_ _ [] t List.prefix_rfl ((List.append_nil _).symm ▸ hall) nofun
  · rwa [List.append_nil] at hatomic
  · simp [CreationEvent.InWindow, CreatePoint.InWindow, CreatePoint.Found, CreatePoint.Published]

/-- Process 0 publishes slot 3 and is preempted before it sets the entry, the stack and the
registers; the quanta of processes 1 and 2 go by, and slot 3 is elected. -/
theorem halfMade_elected :
    ¬∀ events s, Runs (CreationStep .sample) (.start .sample (fun _ => 0) (fun _ => 0)) events s →
      Atomic .sample (fun _ => 0) (fun _ => 0) events := by
  intro h
  have hcall := CreationStep.call (L := .sample) (.start .sample (fun _ => 0) (fun _ => 0)) (cString ['a']) 0x100500#32
    rfl rfl
  have hfree : LowestFree 3 (kernelStart .sample fun _ => 0) := ⟨by decide, by decide⟩
  obtain ⟨pcs, hsearch⟩ := statements_search .sample (cString ['a']) 0x100500#32 hfree.1 hfree.2 (Nat.zero_le _)
  have hpublish : Runs (CreateStep .sample (cString ['a']) 0x100500#32) (.search 0, kernelStart .sample fun _ => 0)
      (pcs ++ [.testSlot (some 3), .setPid 3, .setState 3]) (.copyTest 3 0, _) :=
    hsearch.append (.cons (.statement _ _ nofun) (.cons (.statement (.setPid 3) _ nofun)
      (.cons (.statement (.setState 3) _ nofun) (.nil _))))
  obtain ⟨s, halone, hrun, hk⟩ := alone_statements
    (s := (Creators.start .sample (fun _ => 0) (fun _ => 0)).goto (some ⟨cString ['a'], 0x100500#32, .search 0⟩))
    hpublish (Creators.goto_running _ _) rfl
  have hruns := Runs.cons hcall halone.runs
  have hout : ∀ e ∈ CreationEvent.call (cString ['a']) 0x100500#32 :: _, ¬e.InWindow :=
    List.forall_mem_cons.mpr ⟨id, halone.out⟩
  have hready : (s.system.kernel.processTable 1).state = .pret := by
    rw [hk]
    decide
  obtain ⟨s₁, w, t, hwork, hrun₁, hswitch, -⟩ :=
    switch_possible (L := .sample) (accounts_run hruns hout).1.tableInv hready
  obtain ⟨more, u, hmore, -, hnot⟩ := inWindow_violates (hruns.append (.cons hwork (.nil _)))
    (fun e he => (List.mem_append.mp he).elim (hout e) (fun he => by
      rw [List.mem_singleton.mp he]
      exact id)) hswitch (by
      rw [hrun₁, hrun]
      exact .inr trivial)
  exact hnot (h _ u ((hruns.append (.cons hwork (.nil _))).append (.cons hswitch hmore)))

end N7OS
