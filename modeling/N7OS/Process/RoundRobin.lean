import N7OS.Process.TableInvariant

/-! # Round robin

The elections of `schedule` are the moves of a cyclic sweep over the 16 slots,
and `create_process` only makes more slots ready.
-/
namespace N7OS
open Execution ByteMemory CyclicScan

/-- The slots that `schedule` may go to. -/
def ready (k : Kernel) : Set Slot := {i | (k.processTable i).state = .pret}

def TableEvent.move : TableEvent → Move 16
  | .schedule (some q) => .elect q
  | .schedule none => .pass
  | .create _ _ _ => .grow

/-- The slots elected in a run, in order. -/
def elections (tr : List TableEvent) : List Slot := elected (tr.map TableEvent.move)

/-- The number of `schedule` calls of a run. -/
def scheduleCalls (tr : List TableEvent) : ℕ := turns (tr.map TableEvent.move)

variable {L : Layout} {k k' : Kernel} {e : TableEvent} {tr : List TableEvent} {p q : Slot}

theorem turn_step (h : TableInv k) (hs : TableStep L k e k') :
    Turn (k.currentPid, ready k) e.move (k'.currentPid, ready k') := by
  cases hs with
  | schedule =>
    rcases schedule_cases h with ⟨hnone, hs⟩ | ⟨q, hq, hmin, hs⟩
    · rw [hs]
      exact .pass hnone
    · rw [hs]
      refine .elect hq hmin ?_ ?_
      · intro r hr hrq
        change (setState q .elu _ r).state = .pret
        rw [setState_state, if_neg hrq, setState_state]
        split
        · rfl
        · exact hr
      · have hne : k.currentPid ≠ q := by
          rintro rfl
          rw [(h.elu _).mpr rfl] at hq
          cases hq
        change (setState q .elu _ k.currentPid).state = .pret
        rw [setState_state, if_neg hne, setState_state, if_pos rfl]
  | create name function =>
    rcases createProcess_cases L name function k with ⟨_, hc⟩ | ⟨slot, hlibre, _, hc⟩
    · rw [hc]
      exact .grow (Set.Subset.refl _)
    · rw [hc]
      refine .grow ?_
      intro i hi
      change (Function.update k.processTable slot _ i).state = .pret
      rw [Function.update_apply]
      split
      · rfl
      · exact hi

theorem turn_run (h : TableInv k) (hr : Runs (TableStep L) k tr k') :
    Runs Turn (k.currentPid, ready k) (tr.map TableEvent.move) (k'.currentPid, ready k') := by
  induction hr with
  | nil => exact .nil _
  | cons hs _ ih => exact .cons (turn_step h hs) (ih (tableInv_step h hs))

theorem move_eq_elect (e : TableEvent) : e.move = .elect q ↔ e = .schedule (some q) := by
  cases e with
  | schedule r =>
    cases r with
    | none => simp [TableEvent.move]
    | some r => simp [TableEvent.move]
  | create => simp [TableEvent.move]

theorem elect_notMem (h : .schedule (some q) ∉ tr) : .elect q ∉ tr.map TableEvent.move := by
  rintro hq
  obtain ⟨e, he, hmove⟩ := List.mem_map.mp hq
  exact h ((move_eq_elect e).mp hmove ▸ he)

/-- An election makes its slot current and the nearest of the ready ones. -/
theorem elected_current (h : TableInv k) (hs : TableStep L k (.schedule (some q)) k') :
    k'.currentPid = q ∧ (∀ r ∈ ready k, steps k.currentPid q ≤ steps k.currentPid r) ∧
      ∀ r ∈ ready k, r ≠ q → r ∈ ready k' := by
  have ht := turn_step h hs
  generalize hc : (k.currentPid, ready k) = s at ht
  generalize hc' : (k'.currentPid, ready k') = s' at ht
  cases ht with
  | elect hq hmin hkeep _ =>
    obtain ⟨rfl, rfl⟩ := Prod.mk.inj hc
    obtain ⟨rfl, rfl⟩ := Prod.mk.inj hc'
    exact ⟨rfl, hmin, hkeep⟩

/-- Between two elections of a slot the ready ones have one turn each, in order,
and nobody waits for more than a round. -/
theorem schedule_roundRobin {m : Memory} (h : Runs (TableStep L) (kernelStart L m) tr k) :
    (∀ p k₁ mid k₂ k₃, TableStep L k (.schedule (some p)) k₁ → Runs (TableStep L) k₁ mid k₂ →
      TableStep L k₂ (.schedule (some p)) k₃ → .schedule (some p) ∉ mid →
        p ∉ elections mid ∧ (elections mid).Pairwise (fun q r => ahead p q < ahead p r) ∧
          (elections mid).Nodup ∧
            ∀ q, (k.processTable q).state = .pret ∧ q ≠ p ∨ (k₁.processTable q).state = .pret →
              (elections mid).count q = 1) ∧
    ∀ q mid k₂, (k.processTable q).state = .pret → Runs (TableStep L) k mid k₂ →
      .schedule (some q) ∉ mid → scheduleCalls mid ≤ 14 := by
  have hk := tableInv_run h
  refine ⟨?_, ?_⟩
  · intro p k₁ mid k₂ k₃ hfirst hmid hsecond hnot
    have hk₁ := tableInv_step hk hfirst
    have hk₂ : TableInv k₂ := hmid.invariant TableInv (fun _ _ _ hi hs => tableInv_step hi hs) hk₁
    obtain ⟨hcur, _, hkeep⟩ := elected_current hk hfirst
    obtain ⟨_, hmin, _⟩ := elected_current hk₂ hsecond
    have hrun := turn_run hk₁ hmid
    rw [hcur] at hrun
    obtain ⟨hord, hall⟩ := sweep_complete hrun (elect_notMem hnot) hmin
    have hnodup : (elections mid).Nodup := hord.imp (fun hlt heq => by rw [heq] at hlt; exact lt_irrefl _ hlt)
    refine ⟨fun hp => elect_notMem hnot (mem_elected.mp hp), hord, hnodup, ?_⟩
    intro q hq
    refine List.count_eq_one_of_mem hnodup ?_
    rcases hq with ⟨hq, hqp⟩ | hq
    · exact hall q (hkeep q hq hqp) hqp
    · refine hall q hq ?_
      rintro rfl
      rw [(hk₁.elu _).mpr hcur.symm] at hq
      cases hq
  · intro q mid k₂ hq hmid hnot
    obtain ⟨_, hle⟩ := turns_lt_steps (turn_run hk hmid) hq (elect_notMem hnot)
    have hne : q ≠ k.currentPid := by
      rintro rfl
      rw [(hk.elu _).mpr rfl] at hq
      cases hq
    have hlt := steps_lt hne
    have hpos := steps_pos k₂.currentPid q
    change turns (mid.map TableEvent.move) ≤ 14
    omega

/-- After boot the slots 1, 2, 0 and again 1 are elected. -/
theorem schedule_roundRobin_base :
    (1 ∉ elections [.schedule (some 2), .schedule (some 0)] ∧
      (elections [.schedule (some 2), .schedule (some 0)]).count 2 = 1) ∧
      scheduleCalls [.schedule (some 1)] ≤ 14 := by
  have h1 := tableStep_schedule (k := kernelStart .sample fun _ => 0) (q := 1) .sample (by decide)
  generalize hk1 : (schedule (kernelStart .sample fun _ => 0)).1 = k1 at h1
  have h2 := tableStep_schedule (k := k1) (q := 2) .sample (by subst hk1; decide)
  generalize hk2 : (schedule k1).1 = k2 at h2
  have h3 := tableStep_schedule (k := k2) (q := 0) .sample (by subst hk2 hk1; decide)
  generalize hk3 : (schedule k2).1 = k3 at h3
  have h4 := tableStep_schedule (k := k3) (q := 1) .sample (by subst hk3 hk2 hk1; decide)
  obtain ⟨hround, hwait⟩ := schedule_roundRobin (.nil (kernelStart .sample fun _ => 0))
  have hmid : Runs (TableStep .sample) k1 [.schedule (some 2), .schedule (some 0)] k3 :=
    .cons h2 (.cons h3 (.nil k3))
  obtain ⟨haway, _, _, honce⟩ := hround 1 k1 _ k3 _ h1 hmid h4 (by simp)
  have hpret : (k1.processTable 2).state = .pret := by
    subst hk1
    decide
  exact ⟨⟨haway, honce 2 (.inr hpret)⟩, hwait 2 _ k1 (by decide) (.cons h1 (.nil k1)) (by simp)⟩

end N7OS
