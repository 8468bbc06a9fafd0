import N7OS.Console.Clock
import N7OS.Process.Table

/-! # Time kept by the timer

`tick_handler_C` of `kernel/time.c` over any number of interrupts. The clock and
the quantum are both read off `system_ticks`, a counter of 32 bits.
-/
namespace N7OS
open Execution

structure Timer where
  systemTicks : U32
  console : Console
  kernel : Kernel

def Timer.boot (console : Console) (kernel : Kernel) : Timer := ⟨0#32, console, kernel⟩

/-- `tick_handler_C` after its acknowledgement, and whether it has called `schedule`. -/
def tickHandler (s : Timer) : Timer × Bool :=
  let s := { s with systemTicks := s.systemTicks + 1#32 }
  let s := { s with console := displayClock s.systemTicks s.console }
  if s.systemTicks % 50#32 = 0#32 then ({ s with kernel := (schedule s.kernel).1 }, true) else (s, false)

inductive TimerEvent
  | tick
  | work
deriving DecidableEq

/-- Between two ticks the rest of the system does as it likes with the screen and the
processes; `system_ticks` is the timer's own. -/
inductive TimerStep : Timer → TimerEvent → Timer → Prop
  | tick (s : Timer) : TimerStep s .tick (tickHandler s).1
  | work (s : Timer) (console : Console) (kernel : Kernel) :
      TimerStep s .work { s with console := console, kernel := kernel }

def ticks (tr : List TimerEvent) : ℕ := tr.count .tick

/-- The next interrupt, the `n`-th since boot, shows the time of day and ends a quantum
when it should. -/
def OnTime (n : ℕ) (s : Timer) : Prop :=
  ShowsTime (tickHandler s).1.console (n / 1000 % 86400) ∧ ((tickHandler s).2 = true ↔ n % 50 = 0)

section
variable {s t : Timer} {tr : List TimerEvent} {c : Console} {k : Kernel} {a b n : ℕ}

@[simp] theorem tickHandler_systemTicks (s : Timer) : (tickHandler s).1.systemTicks = s.systemTicks + 1#32 := by
  unfold tickHandler
  dsimp only
  split <;> rfl

theorem tickHandler_console (s : Timer) :
    (tickHandler s).1.console = displayClock (s.systemTicks + 1#32) s.console := by
  unfold tickHandler
  dsimp only
  split <;> rfl

theorem tickHandler_schedules (s : Timer) :
    (tickHandler s).2 = true ↔ (s.systemTicks + 1#32).toNat % 50 = 0 := by
  have hzero : (s.systemTicks + 1#32) % 50#32 = 0#32 ↔ (s.systemTicks + 1#32).toNat % 50 = 0 := by
    rw [← BitVec.toNat_inj, BitVec.toNat_umod]
    rfl
  rw [← hzero]
  unfold tickHandler
  dsimp only
  split
  · next h => simp [h]
  · next h => simp [h]

/-- The counter holds the number of ticks, modulo its width. -/
theorem systemTicks_run (h : Runs TimerStep (.boot c k) tr s) : s.systemTicks = BitVec.ofNat 32 (ticks tr) := by
  refine h.history_nil (fun past s => s.systemTicks = BitVec.ofNat 32 (ticks past)) ?_ rfl
  rintro past s e t hs hstep
  cases hstep with
  | tick =>
    rw [tickHandler_systemTicks, hs, ticks, ticks, List.count_append]
    simp [BitVec.ofNat_add]
  | work console kernel => simpa [ticks, List.count_append] using hs

/-- Every number of ticks is reached. -/
theorem exists_run_ticks (c : Console) (k : Kernel) (n : ℕ) :
    ∃ tr s, Runs TimerStep (.boot c k) tr s ∧ ticks tr = n := by
  induction n with
  | zero => exact ⟨[], _, .nil _, rfl⟩
  | succ n ih =>
    obtain ⟨tr, s, hrun, hn⟩ := ih
    refine ⟨tr ++ [.tick], _, hrun.append (.cons (.tick s) (.nil _)), ?_⟩
    simp [ticks, List.count_append] at hn ⊢
    exact hn

theorem digit_inj (ha : a < 10) (hb : b < 10) (h : digit a = digit b) : a = b := by
  have hv := congrArg BitVec.toNat h
  simp only [digit, BitVec.toNat_ofNat] at hv
  omega

/-- A clock shows one time of day. -/
theorem ShowsTime.unique (ha : ShowsTime c a) (hb : ShowsTime c b) : a = b := by
  obtain ⟨h₁, h₀, m₁, m₀, s₁, s₀, htext, hh, hm, hs⟩ := ha
  obtain ⟨h₁', h₀', m₁', m₀', s₁', s₀', htext', hh', hm', hs'⟩ := hb
  rw [htext] at htext'
  simp only [List.cons.injEq] at htext'
  obtain ⟨e1, e2, -, e3, e4, -, e5, e6, -⟩ := htext'
  unfold IsTwoDigits at hh hm hs hh' hm' hs'
  have h1 := digit_inj hh.1 hh'.1 e1
  have h2 := digit_inj hh.2.1 hh'.2.1 e2
  have h3 := digit_inj hm.1 hm'.1 e3
  have h4 := digit_inj hm.2.1 hm'.2.1 e4
  have h5 := digit_inj hs.1 hs'.1 e5
  have h6 := digit_inj hs.2.1 hs'.2.1 e6
  omega

theorem onTime_of_lt (h : s.systemTicks = BitVec.ofNat 32 n) (hn : n + 1 < 2 ^ 32) : OnTime (n + 1) s := by
  have hticks : (s.systemTicks + 1#32).toNat = n + 1 := by
    rw [h, BitVec.toNat_add, toNat_ofNat_of_lt (by omega)]
    exact Nat.mod_eq_of_lt hn
  constructor
  · rw [tickHandler_console]
    simpa [hticks] using displayClock_showsTime (s.systemTicks + 1#32) s.console
  · rw [tickHandler_schedules, hticks]

/-- The counter is back at zero: the clock starts again and a quantum ends early. -/
theorem wrapped_tick (h : s.systemTicks = BitVec.ofNat 32 (2 ^ 32 - 1)) :
    ShowsTime (tickHandler s).1.console 0 ∧ (tickHandler s).2 = true := by
  have hticks : s.systemTicks + 1#32 = 0#32 := by
    rw [h]
    rfl
  rw [tickHandler_console, tickHandler_schedules, hticks]
  exact ⟨displayClock_showsTime 0#32 s.console, rfl⟩

theorem not_onTime_wrapped (h : s.systemTicks = BitVec.ofNat 32 (2 ^ 32 - 1)) : ¬OnTime (2 ^ 32) s := by
  rintro ⟨-, hsched⟩
  have hearly := hsched.mp (wrapped_tick h).2
  omega

end

/-- Time is kept over an uptime of `N` ticks, whatever the system does, exactly when the
counter does not wrap. -/
theorem timeKept_iff (N : ℕ) :
    (∀ c k tr s, Runs TimerStep (.boot c k) tr s → ticks tr + 1 ≤ N → OnTime (ticks tr + 1) s) ↔ N < 2 ^ 32 := by
  constructor
  · intro h
    by_contra hN
    obtain ⟨tr, s, hrun, hticks⟩ :=
      exists_run_ticks (.boot (fun _ => 0) ⟨0, fun _ => 0⟩) (.boot fun _ => 0) (2 ^ 32 - 1)
    have hs := systemTicks_run hrun
    have hlast := h _ _ tr s hrun (by omega)
    rw [hticks] at hs hlast
    exact not_onTime_wrapped hs hlast
  · intro hN c k tr s hrun hle
    exact onTime_of_lt (systemTicks_run hrun) (by omega)

/-- Tick `2 ^ 32`: midnight on the clock instead of 17:02:47, and a quantum of 46 ticks. -/
theorem clock_wraps :
    ∃ tr s, Runs TimerStep (.boot (.boot (fun _ => 0) ⟨0, fun _ => 0⟩) (.boot fun _ => 0)) tr s ∧
      ticks tr + 1 = 2 ^ 32 ∧ ¬ShowsTime (tickHandler s).1.console (2 ^ 32 / 1000 % 86400) ∧
      ¬((tickHandler s).2 = true ↔ 2 ^ 32 % 50 = 0) := by
  obtain ⟨tr, s, hrun, hticks⟩ :=
    exists_run_ticks (.boot (fun _ => 0) ⟨0, fun _ => 0⟩) (.boot fun _ => 0) (2 ^ 32 - 1)
  have hs := systemTicks_run hrun
  rw [hticks] at hs
  obtain ⟨hshows, hsched⟩ := wrapped_tick hs
  refine ⟨tr, s, hrun, by omega, ?_, ?_⟩
  · intro h
    have hsame := h.unique hshows
    omega
  · intro h
    have hearly := h.mp hsched
    omega

end N7OS
