import N7OS.Console.Clock
import N7OS.Foundation.Interrupts
import N7OS.Keyboard.Handler
import N7OS.Process.Table
import N7OS.Syscall.Read

/-! # The code behind the interrupts, and that of the processes

The stubs `handler_*.S` with the C functions they call, the trampoline, `idle`,
`kernel_start` and the programs of `bin/`, as far as interrupts, halts, system
calls and the scheduler go. The texts that `printf` formats are left open, and so
is how many `write` calls it makes of one. All gates are interrupt gates.
-/
namespace N7OS
open ByteMemory Interrupts

/-- The functions that execute `sti` or `hlt`. -/
inductive Place
  | kernelStart
  | processStarter
  | idle
  | kgetch
  | processus1
  | demoProcess
  | other
deriving DecidableEq

/-- IRQ 0, IRQ 1, vector 50, and vector 0x80 with `eax`, the bytes at `ebx` and `ecx`. -/
inductive Gate
  | timer
  | keyboard
  | test
  | syscall (eax : U32) (s : List U8) (len : ℤ)

/-- What one process keeps to itself: the value a call returned, the buffer and the locals of
`sys_read`, and the loop flags of `bin/demo.c`. -/
structure Locals where
  eax : U32
  s : List U8
  count : ℕ
  c : U8
  stop : Bool
  quit : Bool

/-- The data of the kernel and of the programs; `encoder` is what port 0x60 holds. -/
structure Shared where
  kernel : Kernel
  systemTicks : U32
  keyboard : Keyboard
  encoder : U8
  console : Console
  p1Active : Bool
  p1Iter : U32
  locals : Slot → Locals

abbrev Code := Stmt Shared Gate Place

def Shared.own (s : Shared) : Locals := s.locals (getpid s.kernel)

def Shared.setOwn (f : Locals → Locals) (s : Shared) : Shared :=
  { s with locals := Function.update s.locals (getpid s.kernel) (f s.own) }

namespace Code

def nop : Code := .act id

/-- A number of statements one after the other. -/
def sequence : List Code → Code
  | [] => nop
  | [p] => p
  | p :: q :: ps => .seq p (sequence (q :: ps))

def returns (v : U32) : Code := .act (Shared.setOwn (fun l => { l with eax := v }))

/-! ## The keyboard and the timer -/

def kgetch : Code := sequence [
  .loop (fun s => s.keyboard.kbdHead == s.keyboard.kbdTail) (.seq (.sti .kgetch) (.hlt .kgetch)),
  .act (fun s => s.setOwn (fun l => { l with c := s.keyboard.kbdBuffer s.keyboard.kbdTail.toNat })),
  .act (fun s => { s with keyboard := { s.keyboard with kbdTail := nextIndex s.keyboard.kbdTail } })]

def keyboardHandlerC : Code := sequence [
  .eoi,
  .act (fun s => { s with keyboard := N7OS.keyboardHandlerC s.encoder s.keyboard })]

def handlerKeyboard : Code := .seq keyboardHandlerC .iret

def tickHandlerC : Code := sequence [
  .eoi,
  .act (fun s => { s with systemTicks := s.systemTicks + 1#32 }),
  .act (fun s => { s with console := displayClock s.systemTicks s.console }),
  .branch (fun s => if s.systemTicks % 50#32 = 0#32 then .schedule else nop)]

def handlerTimer : Code := .seq tickHandlerC .iret

/-! ## System calls -/

def sysExample : Code := returns 1#32

def sysWrite (s : List U8) (len : ℤ) : Code := sequence [
  .act (fun t => { t with console := consolePutbytes t.console (s.take len.toNat) }),
  returns (BitVec.ofInt 32 len)]

/-- The loop body of `sys_read` on the character in `c`; a store past the buffer is not modelled. -/
def readCharacter (t : Shared) : Shared :=
  match readBody ⟨t.own.s, t.own.count, t.console⟩ t.own.c with
  | some (r, stop) =>
    { t with console := r.console }.setOwn (fun l => { l with s := r.s, count := r.count, stop := stop })
  | none => t

def terminate (l : Locals) : Locals := { l with s := (storeByte l.s l.count 0#8).getD l.s }

def sysRead (s : List U8) (len : ℤ) : Code := sequence [
  .act (Shared.setOwn (fun l => { l with s := s, count := 0, stop := false })),
  .loop (fun t => !t.own.stop && decide ((t.own.count : ℤ) < len - 1)) (.seq kgetch (.act readCharacter)),
  .act (Shared.setOwn terminate),
  .act (Shared.setOwn (fun l => { l with eax := BitVec.ofNat 32 l.count }))]

/-- `syscall_table`. -/
def syscallTable (eax : U32) (s : List U8) (len : ℤ) : Code :=
  if eax = 0#32 then sysExample else if eax = 1#32 then sysWrite s len else sysRead s len

def handlerSyscall (eax : U32) (s : List U8) (len : ℤ) : Code :=
  if 2#32 < eax then .seq (returns 0xFFFFFFFF#32) .iret else .seq (syscallTable eax s len) .iret

def write (s : List U8) : Code := .int (.syscall 1#32 s s.length)

def printf : Code := .choose (fun calls : List (List U8) => sequence (calls.map write))

/-- `read` into a buffer of `n` bytes that holds anything. -/
def read (n : ℕ) : Code := .choose (fun s : {s : List U8 // s.length = n} => .int (.syscall 2#32 s n))

def callExample : Code := .int (.syscall 0#32 [] 0)

/-- `handler_en_C`. -/
def handlerEnC : Code := printf

def handlerIT : Code := .seq handlerEnC .iret

def handler : Gate → Code
  | .timer => handlerTimer
  | .keyboard => handlerKeyboard
  | .test => handlerIT
  | .syscall eax s len => handlerSyscall eax s len

/-! ## The programs -/

def processus1 : Code := .forever (.seq
  (.loop (fun s => s.p1Active) (.seq printf (.act (fun s => { s with p1Iter := s.p1Iter + 1#32 }))))
  (.seq (.sti .processus1) (.hlt .processus1)))

def demoInterrupt : Code := sequence [printf, .int .test, printf]

def demoSyscall : Code := sequence [printf, callExample, printf]

/-- The wait for a `q`. -/
def demoWait : Code := .loop (fun s => !s.own.stop) (sequence [
  .sti .demoProcess,
  .hlt .demoProcess,
  .branch (fun s => if kbdHasInput s.keyboard then
    .seq kgetch (.act (Shared.setOwn (fun l => { l with stop := l.c == 0x71#8 || l.c == 0x51#8 }))) else nop)])

def demoProcess : Code := sequence [
  printf,
  .act (fun s => { s with p1Iter := 0#32 }),
  .act (fun s => { s with p1Active := true }),
  .act (Shared.setOwn (fun l => { l with stop := false })),
  demoWait,
  .act (fun s => { s with p1Active := false }),
  printf]

def demoKeyboard : Code :=
  sequence [printf, printf, read 2, printf, printf, read 2, printf, printf, read 2, printf]

def demoRead : Code := sequence [printf, read 64, printf]

/-- The `switch` on `choice[0]`; the other choices only print. -/
def demoChoice (choice : U8) : Code :=
  if choice = 0x32#8 then demoInterrupt
  else if choice = 0x33#8 then demoSyscall
  else if choice = 0x35#8 then demoProcess
  else if choice = 0x36#8 then demoKeyboard
  else if choice = 0x37#8 then demoRead
  else if choice = 0x71#8 ∨ choice = 0x51#8 then
    .seq printf (.act (Shared.setOwn (fun l => { l with quit := true })))
  else printf

def demo : Code := .seq (.act (Shared.setOwn (fun l => { l with quit := false })))
  (.loop (fun s => !s.own.quit) (sequence [
    printf,
    read 16,
    .branch (fun s => if s.own.eax = 0#32 then nop else demoChoice (s.own.s.headD 0#8))]))

/-- `str_starts_with`, on a terminated string. -/
def strStartsWith : List U8 → List U8 → Bool
  | s, [] => s.headD 0#8 == 0#8 || s.headD 0#8 == 0x20#8
  | [], _ :: _ => false
  | c :: s, d :: pre => c == d && strStartsWith s pre

/-- `shell`, whose commands other than `demo` only print. -/
def shell : Code := .seq printf (.forever (sequence [
  printf,
  read 64,
  .branch (fun s =>
    if s.own.eax = 0#32 then nop
    else if strStartsWith s.own.s [0x64#8, 0x65#8, 0x6D#8, 0x6F#8] then demo
    else printf)]))

/-- What any other function can do that concerns interrupts. -/
inductive Call
  | sti
  | hlt
  | kgetch
  | test
  | syscall (eax : U32) (s : List U8) (len : ℤ)

def Call.code : Call → Code
  | .sti => .sti .other
  | .hlt => .hlt .other
  | .kgetch => Code.kgetch
  | .test => .int .test
  | .syscall eax s len => .int (.syscall eax s len)

/-- A function of which nothing is known: any calls, and then it returns. -/
def other : Code := .choose (fun calls : List Call => sequence (calls.map Call.code))

def idle : Code := .seq .schedule (.forever (.seq (.sti .idle) (.hlt .idle)))

/-- The code at an address. -/
def entry (L : Layout) (function : U32) : Code :=
  if function = L.processus1 then processus1
  else if function = L.shell then shell
  else if function = L.idle then idle
  else other

def processStarter (L : Layout) : Code := .branch (fun s =>
  let me := getpid s.kernel
  sequence [
    .sti .processStarter,
    .branch (fun s => entry L (s.kernel.processEntry me)),
    .forever (.hlt .processStarter)])

/-- `kernel_start`, of whose `init_` functions only the console's touches anything modelled here. The
table of processes is set up in one step: no interrupt looks at it before `start_scheduling`. -/
def kernelStart (L : Layout) : Code := sequence [
  .act (fun s => { s with console := initConsole s.console }),
  .sti .kernelStart,
  printf,
  .act (fun s => { s with kernel := kernelTable L s.kernel.mem }),
  .act (fun s => { s with kernel := startScheduling s.kernel }),
  idle,
  .forever (.hlt .kernelStart)]

end Code

/-! ## The machine -/

/-- The functions that later processes run: `kernel_start` alone creates `idle`. -/
def UserFunction (L : Layout) (function : U32) : Prop :=
  function = L.processus1 ∨ function = L.shell ∨ function ≠ L.idle

/-- A key changes what the encoder holds; a process may create another one. -/
inductive Outside (L : Layout) : Shared → Shared → Prop
  | key (s : Shared) (scancode : U8) : Outside L s { s with encoder := scancode }
  | create (s : Shared) (name : ℕ → U8) (function : U32) : UserFunction L function →
      Outside L s { s with kernel := (createProcess L name function s.kernel).1 }

/-- Only IRQ 0 and IRQ 1 are unmasked. -/
def n7os (L : Layout) : Setup Shared Slot Gate Place where
  running s := getpid s.kernel
  schedule s := ({ s with kernel := (schedule s.kernel).1 }, (schedule s.kernel).2)
  handler := Code.handler
  line n := if n = 0 then some .timer else if n = 1 then some .keyboard else none
  outside := Outside L

/-- The zeroed statics. -/
def Shared.boot (m : Memory) (console : Console) (locals : Slot → Locals) : Shared where
  kernel := .boot m
  systemTicks := 0
  keyboard := .boot
  encoder := 0
  console := console
  p1Active := false
  p1Iter := 0
  locals := locals

/-- The boot processor enters `kernel_start` with interrupts off. A slot that has never run is at
its trampoline, where `create_process` puts it. -/
def bootMachine (L : Layout) (s : Shared) : Interrupts.Machine Shared Slot Gate Place where
  cpu := { data := s, flag := false, halted := false, inService := [] }
  context := ⟨[Code.kernelStart L], []⟩
  saved _ := ⟨[Code.processStarter L], []⟩

abbrev SystemRun (L : Layout) (m : Memory) (console : Console) (locals : Slot → Locals) :=
  Execution.Runs (Step (n7os L)) (bootMachine L (.boot m console locals))

end N7OS
