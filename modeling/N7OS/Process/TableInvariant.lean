import N7OS.Process.Table

/-! # The invariant of the process table

Runs of `schedule` and `create_process`, each call atomic, from the table that
`kernel_start` sets up.
-/
namespace N7OS
open Execution ByteMemory CyclicScan

inductive TableEvent
  | schedule (elected : Option Slot)
  | create (name : ℕ → U8) (function : U32) (result : U32)

inductive TableStep (L : Layout) : Kernel → TableEvent → Kernel → Prop
  | schedule (k : Kernel) :
      TableStep L k (.schedule ((schedule k).2.map Prod.snd)) (schedule k).1
  | create (k : Kernel) (name : ℕ → U8) (function : U32) :
      TableStep L k (.create name function (createProcess L name function k).2)
        (createProcess L name function k).1

structure TableInv (k : Kernel) : Prop where
  enabled : k.schedulingEnabled = true
  elu : ∀ i, (k.processTable i).state = .elu ↔ i = k.currentPid
  bloque : ∀ i, (k.processTable i).state ≠ .bloque
  pid : ∀ i, (k.processTable i).pid = BitVec.ofNat 32 i

variable {L : Layout} {k k' : Kernel} {i slot : Slot} {name : ℕ → U8} {function : U32}
  {e : TableEvent} {tr : List TableEvent}

theorem createProcess_cases (L : Layout) (name : ℕ → U8) (function : U32) (k : Kernel) :
    ((∀ i, (k.processTable i).state ≠ .libre) ∧
      createProcess L name function k = (k, 0xFFFFFFFF#32)) ∨
    ∃ slot, (k.processTable slot).state = .libre ∧
      (∀ j < slot, (k.processTable j).state ≠ .libre) ∧
      createProcess L name function k = (fillSlot L slot name function k, BitVec.ofNat 32 slot) := by
  cases h : findFreeSlot k.processTable with
  | none =>
    refine .inl ⟨findFreeSlot_none.mp h, ?_⟩
    rw [createProcess, h]
  | some slot =>
    obtain ⟨hlibre, hmin⟩ := findFreeSlot_some h
    refine .inr ⟨slot, hlibre, hmin, ?_⟩
    rw [createProcess, h]

/-- Either nobody is ready, or the first ready slot after the current one is elected. -/
theorem schedule_cases (h : TableInv k) :
    ((∀ i, (k.processTable i).state ≠ .pret) ∧ schedule k = (k, none)) ∨
    ∃ q, (k.processTable q).state = .pret ∧
      (∀ r, (k.processTable r).state = .pret → steps k.currentPid q ≤ steps k.currentPid r) ∧
      schedule k =
        ({ k with
            processTable := setState q .elu (setState k.currentPid .pret k.processTable)
            currentPid := q },
          some (k.currentPid, q)) := by
  have hcur : (k.processTable k.currentPid).state = .elu := (h.elu _).mpr rfl
  have hen : ¬¬k.schedulingEnabled = true := not_not.mpr h.enabled
  cases hs : scan (fun i => decide ((k.processTable i).state = .pret)) k.currentPid with
  | none =>
    have hnext : nextPid k.processTable k.currentPid = k.currentPid := by rw [nextPid, hs, Option.getD_none]
    refine .inl ⟨?_, ?_⟩
    · intro i
      simpa using scan_eq_none.mp hs i
    · rw [schedule, if_neg hen]
      exact if_pos hnext
  | some q =>
    obtain ⟨hq, hmin⟩ := scan_eq_some.mp hs
    have hpret : (k.processTable q).state = .pret := by simpa using hq
    have hne : q ≠ k.currentPid := by
      rintro rfl
      rw [hcur] at hpret
      cases hpret
    have hnext : nextPid k.processTable k.currentPid = q := by rw [nextPid, hs, Option.getD_some]
    refine .inr ⟨q, hpret, fun r hr => hmin r (by simpa using hr), ?_⟩
    rw [schedule, if_neg hen]
    simp only [hnext, if_neg hne, if_pos hcur]

theorem tableInv_schedule (h : TableInv k) : TableInv (schedule k).1 := by
  rcases schedule_cases h with ⟨_, hs⟩ | ⟨q, hq, _, hs⟩
  · rw [hs]
    exact h
  · have hne : q ≠ k.currentPid := by
      rintro rfl
      rw [(h.elu _).mpr rfl] at hq
      cases hq
    rw [hs]
    refine ⟨h.enabled, ?_, ?_, ?_⟩
    · intro i
      simp only [setState_state]
      by_cases hi : i = q
      · simp [hi]
      · by_cases hc : i = k.currentPid
        · simp [hc, hne.symm]
        · simp [hi, hc, h.elu]
    · intro i
      simp only [setState_state]
      split
      · simp
      · split
        · simp
        · exact h.bloque i
    · intro i
      simp only [setState_pid]
      exact h.pid i

theorem tableInv_create (h : TableInv k) (L : Layout) (name : ℕ → U8) (function : U32) :
    TableInv (createProcess L name function k).1 := by
  rcases createProcess_cases L name function k with ⟨_, hc⟩ | ⟨slot, hlibre, _, hc⟩
  · rw [hc]
    exact h
  · have hcur : slot ≠ k.currentPid := by
      rintro rfl
      rw [(h.elu _).mpr rfl] at hlibre
      cases hlibre
    rw [hc]
    refine ⟨h.enabled, ?_, ?_, ?_⟩
    · intro i
      simp only [fillSlot, Function.update_apply]
      split
      · next hi => simp [hi, hcur]
      · exact h.elu i
    · intro i
      simp only [fillSlot, Function.update_apply]
      split
      · simp
      · exact h.bloque i
    · intro i
      simp only [fillSlot, Function.update_apply]
      split
      · next hi => rw [hi]
      · exact h.pid i

theorem tableInv_step (h : TableInv k) (hs : TableStep L k e k') : TableInv k' := by
  cases hs with
  | schedule => exact tableInv_schedule h
  | create name function => exact tableInv_create h L name function

/-- A process, once created, keeps its name and its function. -/
def Keeps (k k' : Kernel) : Prop :=
  ∀ i, (k.processTable i).state ≠ .libre → (k'.processTable i).state ≠ .libre ∧
    (k'.processTable i).name = (k.processTable i).name ∧ k'.processEntry i = k.processEntry i

theorem keeps_refl (k : Kernel) : Keeps k k := fun _ h => ⟨h, rfl, rfl⟩

theorem keeps_trans {k₁ k₂ k₃ : Kernel} (h : Keeps k₁ k₂) (h' : Keeps k₂ k₃) : Keeps k₁ k₃ := by
  intro i hi
  obtain ⟨h2, hname, hentry⟩ := h i hi
  obtain ⟨h3, hname', hentry'⟩ := h' i h2
  exact ⟨h3, hname'.trans hname, hentry'.trans hentry⟩

theorem keeps_step (h : TableInv k) (hs : TableStep L k e k') : Keeps k k' := by
  cases hs with
  | schedule =>
    rcases schedule_cases h with ⟨_, hs⟩ | ⟨q, _, _, hs⟩
    · rw [hs]
      exact keeps_refl k
    · rw [hs]
      intro i hi
      refine ⟨?_, by simp, rfl⟩
      simp only [setState_state]
      split
      · simp
      · split
        · simp
        · exact hi
  | create name function =>
    rcases createProcess_cases L name function k with ⟨_, hc⟩ | ⟨slot, hlibre, _, hc⟩
    · rw [hc]
      exact keeps_refl k
    · rw [hc]
      intro i hi
      have hne : i ≠ slot := by
        rintro rfl
        exact hi hlibre
      simpa [fillSlot, Function.update_of_ne hne] using hi

theorem keeps_run (h : TableInv k) (hr : Runs (TableStep L) k tr k') : Keeps k k' := by
  induction hr with
  | nil => exact keeps_refl _
  | cons hs _ ih => exact keeps_trans (keeps_step h hs) (ih (tableInv_step h hs))

/-- The pids of the successful `create_process` calls of a run. -/
def created : List TableEvent → List U32
  | [] => []
  | .schedule _ :: tr => created tr
  | .create _ _ result :: tr => if result = 0xFFFFFFFF#32 then created tr else result :: created tr

theorem pid_inj {i j : Slot} (h : BitVec.ofNat 32 i.val = BitVec.ofNat 32 j.val) : i = j := by
  have hv := congrArg BitVec.toNat h
  rw [toNat_ofNat_of_lt (by omega), toNat_ofNat_of_lt (by omega)] at hv
  exact Fin.ext hv

theorem pid_ne_fail (i : Slot) : BitVec.ofNat 32 i.val ≠ 0xFFFFFFFF#32 := by
  intro h
  have hv := congrArg BitVec.toNat h
  rw [toNat_ofNat_of_lt (by omega)] at hv
  change i.val = 4294967295 at hv
  omega

theorem createProcess_fails_iff (L : Layout) (name : ℕ → U8) (function : U32) (k : Kernel) :
    (createProcess L name function k).2 = 0xFFFFFFFF#32 ↔ ∀ i, (k.processTable i).state ≠ .libre := by
  rcases createProcess_cases L name function k with ⟨hfull, hc⟩ | ⟨slot, hlibre, _, hc⟩
  · rw [hc]
    exact iff_of_true rfl hfull
  · rw [hc]
    exact iff_of_false (pid_ne_fail slot) (fun h => h slot hlibre)

/-- The first `n` slots are ready and the others are free. -/
structure Filled (n : ℕ) (k : Kernel) : Prop where
  used : ∀ i : Slot, i.val < n → (k.processTable i).state = .pret
  free : ∀ i : Slot, n ≤ i.val → (k.processTable i).state = .libre
  pid : ∀ i, (k.processTable i).pid = BitVec.ofNat 32 i
  current : k.currentPid = 0

theorem initSlots_slot (xs : List Slot) (k : Kernel) (i : Slot)
    (h : i ∈ xs ∨ ((k.processTable i).state = .libre ∧ (k.processTable i).pid = BitVec.ofNat 32 i)) :
    ((xs.foldl (initSlot L) k).processTable i).state = .libre ∧
      ((xs.foldl (initSlot L) k).processTable i).pid = BitVec.ofNat 32 i := by
  induction xs generalizing k with
  | nil => exact h.resolve_left List.not_mem_nil
  | cons x xs ih =>
    apply ih
    by_cases hx : i = x
    · subst hx
      refine .inr ?_
      simp [initSlot]
    · rcases h with h | h
      · exact .inl ((List.mem_cons.mp h).resolve_left hx)
      · refine .inr ?_
        simpa [initSlot, Function.update_of_ne hx] using h

theorem initSlots_current (xs : List Slot) (k : Kernel) :
    (xs.foldl (initSlot L) k).currentPid = k.currentPid := by
  induction xs generalizing k with
  | nil => rfl
  | cons x xs ih => exact ih _

theorem filled_init (L : Layout) (m : Memory) : Filled 0 (initProcess L (.boot m)) where
  used _ hi := absurd hi (Nat.not_lt_zero _)
  free i _ := (initSlots_slot _ _ i (.inl (List.mem_finRange i))).1
  pid i := (initSlots_slot _ _ i (.inl (List.mem_finRange i))).2
  current := initSlots_current _ _

theorem createProcess_filled {n : ℕ} (hn : n < 16) (h : Filled n k) (L : Layout) (name : ℕ → U8)
    (function : U32) : createProcess L name function k =
      (fillSlot L ⟨n, hn⟩ name function k, BitVec.ofNat 32 n) := by
  rcases createProcess_cases L name function k with ⟨hfull, _⟩ | ⟨slot, hlibre, hmin, hc⟩
  · exact absurd (h.free ⟨n, hn⟩ (Nat.le_refl n)) (hfull ⟨n, hn⟩)
  · have hle : n ≤ slot.val := by
      by_contra hlt
      rw [h.used slot (by omega)] at hlibre
      cases hlibre
    have hge : slot.val ≤ n := by
      by_contra hlt
      exact hmin ⟨n, hn⟩ (Nat.lt_of_not_le hlt) (h.free _ (Nat.le_refl n))
    have hslot : slot = ⟨n, hn⟩ := Fin.ext (Nat.le_antisymm hge hle)
    rw [hc, hslot]

theorem filled_fillSlot {n : ℕ} (hn : n < 16) (h : Filled n k) (L : Layout) (name : ℕ → U8)
    (function : U32) : Filled (n + 1) (fillSlot L ⟨n, hn⟩ name function k) := by
  refine ⟨?_, ?_, ?_, h.current⟩
  · intro i hi
    by_cases his : i = ⟨n, hn⟩
    · simp [fillSlot, his]
    · have hv : i.val ≠ n := fun hv => his (Fin.ext hv)
      simpa [fillSlot, Function.update_of_ne his] using h.used i (by omega)
  · intro i hi
    have his : i ≠ ⟨n, hn⟩ := by
      rintro rfl
      exact absurd hi (Nat.not_succ_le_self n)
    simpa [fillSlot, Function.update_of_ne his] using h.free i (by omega)
  · intro i
    by_cases his : i = ⟨n, hn⟩
    · simp [fillSlot, his]
    · simpa [fillSlot, Function.update_of_ne his] using h.pid i

/-- The table after the three calls of `kernel_start`. -/
theorem createBase_eq (L : Layout) (m : Memory) :
    createBase L (initProcess L (.boot m)) =
      (fillSlot L 2 (cString ['s', 'h', 'e', 'l', 'l']) L.shell
        (fillSlot L 1 (cString ['p', 'r', 'o', 'c', 'e', 's', 's', 'u', 's', '1']) L.processus1
          (fillSlot L 0 (cString ['i', 'd', 'l', 'e']) L.idle (initProcess L (.boot m)))),
        [0#32, 1#32, 2#32]) := by
  have h0 := filled_init L m
  have h1 := filled_fillSlot (by decide) h0 L (cString ['i', 'd', 'l', 'e']) L.idle
  have h2 := filled_fillSlot (by decide) h1 L
    (cString ['p', 'r', 'o', 'c', 'e', 's', 's', 'u', 's', '1']) L.processus1
  rw [createBase, createProcess_filled (by decide) h0, createProcess_filled (by decide) h1,
    createProcess_filled (by decide) h2]
  rfl

theorem createBase_filled (L : Layout) (m : Memory) : Filled 3 (createBase L (initProcess L (.boot m))).1 := by
  rw [createBase_eq]
  exact filled_fillSlot (by decide) (filled_fillSlot (by decide) (filled_fillSlot (by decide)
    (filled_init L m) L _ _) L _ _) L _ _

theorem tableInv_kernelStart (L : Layout) (m : Memory) : TableInv (kernelStart L m) := by
  have h := createBase_filled L m
  refine ⟨rfl, ?_, ?_, ?_⟩
  · intro i
    change (setState 0 .elu _ i).state = .elu ↔ i = (createBase L (initProcess L (.boot m))).1.currentPid
    rw [setState_state, h.current]
    by_cases hi : i = 0
    · simp [hi]
    · rw [if_neg hi]
      by_cases hlt : i.val < 3
      · simp [h.used i hlt, hi]
      · simp [h.free i (by omega), hi]
  · intro i
    change (setState 0 .elu _ i).state ≠ .bloque
    rw [setState_state]
    split
    · simp
    · by_cases hlt : i.val < 3
      · simp [h.used i hlt]
      · simp [h.free i (by omega)]
  · intro i
    change (setState 0 .elu _ i).pid = _
    rw [setState_pid]
    exact h.pid i

theorem kernelStart_used (L : Layout) (m : Memory) {i : Slot} (hi : i.val < 3) :
    ((kernelStart L m).processTable i).state ≠ .libre := by
  change (setState 0 .elu _ i).state ≠ .libre
  rw [setState_state]
  split
  · simp
  · simp [(createBase_filled L m).used i hi]

theorem kernelStart_libre (L : Layout) (m : Memory) (i : Slot) :
    ((kernelStart L m).processTable i).state = .libre ↔ 3 ≤ i.val := by
  constructor
  · intro h
    by_contra hi
    exact kernelStart_used L m (by omega) h
  · intro hi
    have h0 : i ≠ 0 := by
      rintro rfl
      exact absurd hi (by decide)
    change (setState 0 .elu _ i).state = .libre
    rw [setState_state, if_neg h0]
    exact (createBase_filled L m).free i hi

theorem tableInv_run {m : Memory} (h : Runs (TableStep L) (kernelStart L m) tr k) : TableInv k :=
  h.invariant TableInv (fun _ _ _ hk hs => tableInv_step hk hs) (tableInv_kernelStart L m)

/-- The pids handed out so far, all different and all of slots in use. -/
structure Handed (pids : List U32) (k : Kernel) : Prop where
  nodup : pids.Nodup
  used : ∀ pid ∈ pids, ∃ i : Slot, pid = BitVec.ofNat 32 i ∧ (k.processTable i).state ≠ .libre

theorem handed_step {pids : List U32} (h : Handed pids k) (hk : TableInv k) (hs : TableStep L k e k') :
    Handed (pids ++ created [e]) k' := by
  have hkeep := keeps_step hk hs
  have hold : ∀ pid ∈ pids, ∃ i : Slot, pid = BitVec.ofNat 32 i ∧ (k'.processTable i).state ≠ .libre := by
    intro pid hp
    obtain ⟨i, hi, hstate⟩ := h.used pid hp
    exact ⟨i, hi, (hkeep i hstate).1⟩
  cases hs with
  | schedule =>
    rw [created, created, List.append_nil]
    exact ⟨h.nodup, hold⟩
  | create name function =>
    rcases createProcess_cases L name function k with ⟨_, hc⟩ | ⟨slot, hlibre, _, hc⟩
    · rw [hc] at hold ⊢
      rw [created, if_pos rfl, created, List.append_nil]
      exact ⟨h.nodup, hold⟩
    · rw [hc] at hold ⊢
      rw [created, if_neg (pid_ne_fail slot), created]
      refine ⟨?_, ?_⟩
      · refine List.nodup_append.mpr ⟨h.nodup, List.nodup_singleton _, ?_⟩
        rintro pid hp _ hslot rfl
        obtain ⟨i, hi, hstate⟩ := h.used pid hp
        have his : i = slot := pid_inj (hi.symm.trans (List.mem_singleton.mp hslot))
        exact hstate (his ▸ hlibre)
      · intro pid hp
        rcases List.mem_append.mp hp with hp | hp
        · exact hold pid hp
        · exact ⟨slot, List.mem_singleton.mp hp, by simp [fillSlot]⟩

theorem created_append (tr tr' : List TableEvent) : created (tr ++ tr') = created tr ++ created tr' := by
  induction tr with
  | nil => rfl
  | cons e tr ih =>
    cases e with
    | schedule => exact ih
    | create name function result =>
      rw [List.cons_append, created, created, ih]
      split <;> rfl

theorem handed_run {m : Memory} (h : Runs (TableStep L) (kernelStart L m) tr k) :
    Handed ((createBase L (initProcess L (.boot m))).2 ++ created tr) k := by
  have hstart : Handed (createBase L (initProcess L (.boot m))).2 (kernelStart L m) := by
    rw [createBase_eq]
    refine ⟨show [0#32, 1#32, 2#32].Nodup by decide, ?_⟩
    intro pid hp
    simp only [List.mem_cons, List.not_mem_nil, or_false] at hp
    rcases hp with rfl | rfl | rfl
    · exact ⟨0, rfl, kernelStart_used L m (by decide)⟩
    · exact ⟨1, rfl, kernelStart_used L m (by decide)⟩
    · exact ⟨2, rfl, kernelStart_used L m (by decide)⟩
  have hnil : Handed ((createBase L (initProcess L (.boot m))).2 ++ created []) (kernelStart L m) := by
    rw [created, List.append_nil]
    exact hstart
  refine (h.history_nil (fun past k => TableInv k ∧
    Handed ((createBase L (initProcess L (.boot m))).2 ++ created past) k) ?_
    ⟨tableInv_kernelStart L m, hnil⟩).2
  intro past s e t hinv hs
  rw [created_append, ← List.append_assoc]
  exact ⟨tableInv_step hinv.1 hs, handed_step hinv.2 hinv.1 hs⟩

/-- The table after any sequence of calls. -/
theorem processTable_invariant {m : Memory} (h : Runs (TableStep L) (kernelStart L m) tr k) :
    (∀ i, (k.processTable i).state = .elu ↔ i = k.currentPid) ∧
      (∀ i, i ≠ k.currentPid → (k.processTable i).state = .pret ∨ (k.processTable i).state = .libre) ∧
      (∀ i, (k.processTable i).pid = BitVec.ofNat 32 i) ∧
      (∀ tr' k', Runs (TableStep L) k tr' k' → Keeps k k') ∧
      ((createBase L (initProcess L (.boot m))).2 ++ created tr).Nodup ∧
      ∀ name function, (createProcess L name function k).2 = 0xFFFFFFFF#32 ↔
        ∀ i, (k.processTable i).state ≠ .libre := by
  have hk := tableInv_run h
  refine ⟨hk.elu, ?_, hk.pid, fun _ _ hr => keeps_run hk hr, (handed_run h).nodup, ?_⟩
  · intro i hi
    have helu := mt (hk.elu i).mp hi
    have hbloque := hk.bloque i
    cases hs : (k.processTable i).state with
    | libre => exact .inr rfl
    | pret => exact .inl rfl
    | elu => exact absurd hs helu
    | bloque => exact absurd hs hbloque
  · exact fun name function => createProcess_fails_iff L name function k

theorem tableStep_schedule {q : Slot} (L : Layout) (h : (schedule k).2.map Prod.snd = some q) :
    TableStep L k (.schedule (some q)) (schedule k).1 := h ▸ .schedule k

theorem tableStep_create {q : Slot} (L : Layout) (name : ℕ → U8) (function : U32)
    (h : (createProcess L name function k).2 = BitVec.ofNat 32 q) :
    TableStep L k (.create name function (BitVec.ofNat 32 q)) (createProcess L name function k).1 :=
  h ▸ .create k name function

/-- After boot slot 1 is elected, a process is created in slot 3, and slots 2 and 3 are elected. -/
theorem processTable_invariant_created :
    ∃ k, Runs (TableStep .sample) (kernelStart .sample fun _ => 0)
        [.schedule (some 1), .create (fun _ => 0) 0x100500#32 3#32, .schedule (some 2), .schedule (some 3)] k ∧
      (∀ i, (k.processTable i).state = .elu ↔ i = 3) ∧
        ((createBase .sample (initProcess .sample (.boot fun _ => 0))).2 ++ [3#32]).Nodup := by
  have h1 := tableStep_schedule (k := kernelStart .sample fun _ => 0) (q := 1) .sample (by decide)
  generalize hk1 : (schedule (kernelStart .sample fun _ => 0)).1 = k1 at h1
  have h2 := tableStep_create (k := k1) (q := 3) .sample (fun _ => 0) 0x100500#32 (by subst hk1; decide)
  generalize hk2 : (createProcess .sample (fun _ => 0) 0x100500#32 k1).1 = k2 at h2
  have h3 := tableStep_schedule (k := k2) (q := 2) .sample (by subst hk2 hk1; decide)
  generalize hk3 : (schedule k2).1 = k3 at h3
  have h4 := tableStep_schedule (k := k3) (q := 3) .sample (by subst hk3 hk2 hk1; decide)
  have hrun := Runs.cons h1 (.cons h2 (.cons h3 (.cons h4 (.nil (schedule k3).1))))
  obtain ⟨helu, _, _, _, hnodup, _⟩ := processTable_invariant hrun
  have hcur : (schedule k3).1.currentPid = 3 := by
    subst hk3 hk2 hk1
    decide
  rw [hcur] at helu
  exact ⟨_, hrun, helu, hnodup⟩

end N7OS
