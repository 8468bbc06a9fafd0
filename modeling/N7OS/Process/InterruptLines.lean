import N7OS.Foundation.InterruptController
import N7OS.Process.Programs
import N7OS.Processor.TaskSwitch

/-! # From the lines to the handlers

What `kernel_start` writes to the ports of the two controllers and of the timer, and to
the interrupt table. The machine of the processes knows two lines and the code behind
them; here are the registers and the table that make it so.
-/
namespace N7OS
open ByteMemory Execution LastWrite Pic8259

/-! ## The ports -/

/-- Channel 0 of the timer: a command that is awaited byte by byte, the mode and the counter. -/
structure Pit where
  low : Option U8
  mode : BitVec 3
  bcd : Bool
  reload : U16

/-- A command for channel 0 with both bytes of the counter, or one of them. -/
def Pit.command (p : Pit) (v : U8) : Option Pit :=
  if v.extractLsb' 4 4 = 0b0011#4 then some { p with low := none, mode := v.extractLsb' 1 3, bcd := v.getLsbD 0 } else none

/-- The low byte, and then the high one. -/
def Pit.data (p : Pit) (v : U8) : Pit :=
  match p.low with
  | none => { p with low := some v }
  | some low => { p with low := none, reload := v ++ low }

structure Devices where
  pics : Pair
  pit : Pit

def outb (value : U8) (port : ℕ) (d : Devices) : Option Devices :=
  if port = 0x43 then (d.pit.command value).map fun pit => { d with pit := pit }
  else if port = 0x40 then some { d with pit := d.pit.data value }
  else (d.pics.out value port).map fun pics => { d with pics := pics }

/-- `inb(PIC_MASTER_DATA)` reads the mask. -/
def inbMask (d : Devices) : U8 := d.pics.master.imr

def outbAll (writes : List (U8 × ℕ)) (d : Devices) : Option Devices := writes.foldlM (fun d w => outb w.1 w.2 d) d

def setupPic : Devices → Option Devices := outbAll [
  (0x11#8, 0x20), (0x20#8, 0x21), (0x4#8, 0x21), (0x1#8, 0x21),
  (0x11#8, 0xA0), (0x28#8, 0xA1), (0x2#8, 0xA1), (0x1#8, 0xA1),
  (0x20#8, 0x20), (0x20#8, 0xA0),
  (0xFF#8, 0x21), (0xFF#8, 0xA1)]

/-- `PIT_OSCILLATOR_HZ / TIMER_FREQ_HZ`. -/
def divider : U16 := BitVec.ofNat 16 (1193182 / 1000)

def initTimer (d : Devices) : Option Devices :=
  (outbAll [(0x34#8, 0x43), (divider.setWidth 8, 0x40), ((divider >>> 8).setWidth 8, 0x40)] d).bind fun d =>
    outb (inbMask d &&& 0xFE#8) 0x21 d

def initKeyboard (d : Devices) : Option Devices := outb (inbMask d &&& ~~~(1#8 <<< 1)) 0x21 d

/-- The ports that `kernel_start` writes to before its `sti`, the cursor's apart. -/
def bootPorts (d : Devices) : Option Devices := (setupPic d).bind fun d => (initTimer d).bind initKeyboard

/-! ## The table -/

/-- The addresses of the stubs. -/
structure HandlerSymbols where
  handlerSyscall : U32
  handlerIT : U32
  handlerTimer : U32
  handlerKeyboard : U32

/-- The code that the machine of the processes has behind a gate. -/
def HandlerSymbols.address (h : HandlerSymbols) : Gate → U32
  | .timer => h.handlerTimer
  | .keyboard => h.handlerKeyboard
  | .test => h.handlerIT
  | .syscall _ _ _ => h.handlerSyscall

/-- `init_syscall`, `init_irq`, `init_timer` and `init_keyboard`. -/
def bootInstallations (h : HandlerSymbols) : List Installation := [
  .initIrqEntry 0x80 h.handlerSyscall,
  .initIdtEntry 50 h.handlerIT,
  .initIrqEntry 0x20 h.handlerTimer,
  .initIrqEntry 0x21 h.handlerKeyboard]

/-! ## The controllers after the boot -/

/-- Lines 0 and 1 are open. -/
def bootMaster : Chip := ⟨0#8, 0xFC#8, 0#8, 0x20#8, .mask, false, true, 0x4#8, false⟩

def bootSlave : Chip := ⟨0#8, 0xFF#8, 0#8, 0x28#8, .mask, false, true, 0x2#8, false⟩

theorem highest_zero : highest 0#8 = none := by decide

theorem setupPic_eq (d : Devices) : setupPic d = some ⟨⟨{ bootMaster with imr := 0xFF#8 }, bootSlave⟩, d.pit⟩ := by
  simp [setupPic, outbAll, outb, Pair.out, Chip.command, Chip.data, Chip.afterIcw2, Chip.afterIcw3, Chip.eoi, bootMaster,
    bootSlave, highest_zero]

theorem initTimer_eq (d : Devices) :
    initTimer d = some ⟨{ d.pics with master := d.pics.master.data (inbMask d &&& 0xFE#8) }, ⟨none, 0b010#3, false, 1193#16⟩⟩ :=
  rfl

/-- Whatever the controllers and the timer were in the middle of. -/
theorem bootPorts_eq (d : Devices) :
    bootPorts d = some ⟨⟨bootMaster, bootSlave⟩, ⟨none, 0b010#3, false, 1193#16⟩⟩ := by
  rw [bootPorts, setupPic_eq, Option.bind_some, initTimer_eq, Option.bind_some]
  simp [initKeyboard, outb, Pair.out, Chip.data, bootMaster, inbMask]

theorem refines_boot : Refines ⟨bootMaster, bootSlave⟩ .idle ⟨bootMaster, bootSlave⟩ where
  quiet := ⟨rfl, rfl, rfl, rfl⟩
  imr := rfl
  base := rfl
  waiting n _ _ := by simp [bootMaster, Nest.idle]
  inService := .nil

section
variable {n : ℕ} {L : Layout}

/-- The mask leaves the lines that the machine of the processes knows. -/
theorem mask_line (L : Layout) (hn : n < 8) : bootMaster.imr.getLsbD n = ((n7os L).line n).isNone := by
  interval_cases n <;> rfl

theorem line_cases {gate : Gate} (h : (n7os L).line n = some gate) : n = 0 ∧ gate = .timer ∨ n = 1 ∧ gate = .keyboard := by
  by_cases h0 : n = 0
  · subst h0
    cases h
    exact .inl ⟨rfl, rfl⟩
  by_cases h1 : n = 1
  · subst h1
    cases h
    exact .inr ⟨rfl, rfl⟩
  have hnone : (n7os L).line n = none := (if_neg h0).trans (if_neg h1)
  rw [hnone] at h
  cases h

end

/-- In every run after the boot, the processor can be given a vector exactly when the machine of the processes can
serve a line, which waits and is above all that is in service; whatever has happened to the tables since then but other
installations, the vector leads to the stub of the gate that this machine has on the line. -/
theorem lines_enter (d : Devices) (l : BaseSymbols) (h : HandlerSymbols) (L : Layout) (cr3 : U32) (m : Memory)
    {past : List TaskEvent} {s : TaskState} (hrun : Runs (TaskStep l) (bootTask l 0#32 cr3 m) past s)
    (hinstalled : installations past = bootInstallations h) :
    ∃ p₀, (bootPorts d).map Devices.pics = some p₀ ∧
      ∀ tr p, Runs Step p₀ tr p → ∀ v,
        (∃ q, p.acknowledge = some (q, v)) ↔
          ∃ n gate, (n7os L).line n = some gate ∧ (Nest.idle.after tr).Serves (fun k => ((n7os L).line k).isNone) n ∧
            v.toNat = 0x20 + n ∧ enter s.mem l.idt l.gdt ⟨v.toNat, v.isLt⟩ = some (.code (h.address gate)) := by
  refine ⟨⟨bootMaster, bootSlave⟩, congrArg (Option.map Devices.pics) (bootPorts_eq d), ?_⟩
  intro tr p hlines v
  have href := refines_boot.run hlines
  have htables := taskInvariant_run hrun
  constructor
  · rintro ⟨q, hack⟩
    obtain ⟨n, hn, hserves, rfl, -⟩ := href.acknowledge.mp hack
    have hline : ((n7os L).line n).isNone = false := mask_line L hn ▸ hserves.unmasked
    obtain ⟨gate, hgate⟩ := Option.isSome_iff_exists.mp (by simpa using hline)
    refine ⟨n, gate, hgate, hserves.congr fun k hk => mask_line L (by omega), ?_⟩
    obtain ⟨rfl, rfl⟩ | ⟨rfl, rfl⟩ := line_cases hgate
    · have hlast : lastAt Installation.vector 0x20 (installations past) = some (.initIrqEntry 0x20 h.handlerTimer) := by
        rw [hinstalled]
        rfl
      exact ⟨rfl, htables.enter_installed (by decide) hlast⟩
    · have hlast : lastAt Installation.vector 0x21 (installations past) = some (.initIrqEntry 0x21 h.handlerKeyboard) := by
        rw [hinstalled]
        rfl
      exact ⟨rfl, htables.enter_installed (by decide) hlast⟩
  · rintro ⟨n, gate, hline, hserves, hv, -⟩
    have hn : n < 8 := by
      obtain ⟨rfl, -⟩ | ⟨rfl, -⟩ := line_cases hline <;> decide
    have hvector : v = bootMaster.vector n := by
      apply BitVec.eq_of_toNat_eq
      rw [hv]
      obtain ⟨rfl, -⟩ | ⟨rfl, -⟩ := line_cases hline <;> rfl
    exact ⟨_, href.acknowledge.mpr ⟨n, hn, hserves.congr fun k hk => (mask_line L (by omega)).symm, hvector, rfl⟩⟩

/-- A key is pressed after the boot has installed its handlers and switched paging on. -/
theorem lines_enter_key :
    let l := BaseSymbols.sample
    let h : HandlerSymbols := ⟨0x100500#32, 0x100600#32, 0x100700#32, 0x100800#32⟩
    let s : TaskState := ⟨installAll l.idt (setupBase l 0#32 (fun _ => 0)) (bootInstallations h), baseTss, true, 0x123000#32⟩
    ∃ p q, Runs Step ⟨bootMaster, bootSlave⟩ [.request 1] p ∧ p.acknowledge = some (q, 0x21#8) ∧
      enter s.mem l.idt l.gdt 0x21 = some (.code 0x100800#32) := by
  intro l h s
  have hrun : Runs (TaskStep l) (bootTask l 0#32 0#32 (fun _ => 0)) [.pagingOn 0x123000#32,
      .install (.initIrqEntry 0x80 h.handlerSyscall), .install (.initIdtEntry 50 h.handlerIT),
      .install (.initIrqEntry 0x20 h.handlerTimer), .install (.initIrqEntry 0x21 h.handlerKeyboard)] s :=
    .cons (.pagingOn _) <| .cons (.install (by decide)) <| .cons (.install (by decide)) <| .cons (.install (by decide)) <|
      .cons (.install (by decide)) (.nil _)
  obtain ⟨p₀, hp₀, hlines⟩ := lines_enter ⟨⟨bootMaster, bootSlave⟩, ⟨none, 0#3, false, 0#16⟩⟩ l h Layout.sample 0#32
    (fun _ => 0) hrun rfl
  rw [bootPorts_eq] at hp₀
  cases hp₀
  have hkey := Runs.cons (Step.request ⟨bootMaster, bootSlave⟩ 1) (.nil _)
  obtain ⟨n, gate, hline, hserves, hv, henter⟩ := (hlines _ _ hkey 0x21#8).mp ⟨_, rfl⟩
  have hn : n = 1 := Nat.add_left_cancel (n := 0x20) hv.symm
  subst hn
  cases hline
  exact ⟨_, _, hkey, rfl, henter⟩

end N7OS
