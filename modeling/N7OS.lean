import N7OS.Foundation.Execution
import N7OS.Foundation.ByteMemory
import N7OS.Foundation.BlockMove
import N7OS.Foundation.BitField
import N7OS.Foundation.Bitmap
import N7OS.Foundation.FreeSet
import N7OS.Foundation.LineEditor
import N7OS.Foundation.Interactive
import N7OS.Foundation.Occurrence
import N7OS.Foundation.Interrupts
import N7OS.Foundation.InterruptController
import N7OS.Foundation.FlagDiscipline
import N7OS.Foundation.FlagSafety
import N7OS.Machine.Integers
import N7OS.Foundation.QuotientEstimate
import N7OS.Machine.WideArithmetic
import N7OS.Lib.Div64
import N7OS.Foundation.PackedWords
import N7OS.Foundation.MemoryFrame
import N7OS.Processor.Descriptors
import N7OS.Processor.SegmentTable
import N7OS.Foundation.LastWrite
import N7OS.Processor.InterruptTable
import N7OS.Processor.ExceptionTasks
import N7OS.Processor.TaskSwitch
import N7OS.Foundation.BlockWriter
import N7OS.Lib.Printf
import N7OS.Lib.Strings
import N7OS.Lib.StringOrder
import N7OS.Lib.Memmem
import N7OS.Lib.StringSearch
import N7OS.Lib.StringConcat
import N7OS.Lib.Memmove
import N7OS.Processor.Debugger
import N7OS.Processor.TrapScreen
import N7OS.Lib.Atoi
import N7OS.Lib.Strtol
import N7OS.Foundation.Positional
import N7OS.Lib.Doprnt
import N7OS.Lib.DoprntFormat
import N7OS.Lib.DoprntMeaning
import N7OS.Lib.DoprntBits
import N7OS.Memory.Kheap
import N7OS.Foundation.StackedRegions
import N7OS.Memory.KheapRuns
import N7OS.Memory.PhysicalPages
import N7OS.Memory.PageEntry
import N7OS.Memory.Paging
import N7OS.Memory.PageWalks
import N7OS.Memory.KernelReached
import N7OS.Memory.BootPaging
import N7OS.Memory.IdentityMap
import N7OS.Memory.DirectoryInvariant
import N7OS.Memory.FrameCollision
import N7OS.Memory.PageAllocator
import N7OS.Memory.PageMapping
import N7OS.Memory.FrameConservation
import N7OS.Memory.MemoryRuns
import N7OS.Memory.Sbrk
import N7OS.Foundation.RowWindow
import N7OS.Console.Putchar
import N7OS.Console.Cursor
import N7OS.Console.Terminal
import N7OS.Console.FormFeed
import N7OS.Console.Clock
import N7OS.Console.Statements
import N7OS.Console.OnScreen
import N7OS.Console.EchoPreempted
import N7OS.Syscall.Read
import N7OS.Lib.Sprintf
import N7OS.Lib.NumberRoundTrip
import N7OS.Lib.Gets
import N7OS.Lib.Strtok
import N7OS.Lib.Scanf
import N7OS.Lib.ScanfFormat
import N7OS.Syscall.Framing
import N7OS.Syscall.Dispatch
import N7OS.Syscall.InterruptStubs
import N7OS.Boot.Entry
import N7OS.Lib.PrintfRuns
import N7OS.Syscall.Transcript
import N7OS.Bin.Shell
import N7OS.Syscall.Echo
import N7OS.Foundation.RingQueue
import N7OS.Keyboard.Handler
import N7OS.Keyboard.Channel
import N7OS.Keyboard.Shift
import N7OS.Keyboard.Extended
import N7OS.Foundation.CyclicScan
import N7OS.Process.Table
import N7OS.Process.TableInvariant
import N7OS.Process.RoundRobin
import N7OS.Machine.X86
import N7OS.Process.ContextSwitch
import N7OS.Process.Creation
import N7OS.Process.TimeKeeping
import N7OS.Process.ContextIntegrity
import N7OS.Process.CreationStatements
import N7OS.Process.CreationPreempted
import N7OS.Process.CreationWindow
import N7OS.Process.Handover
import N7OS.Process.HandoverSafety
import N7OS.Process.Programs
import N7OS.Process.InterruptLines
import N7OS.Process.Preemption
import N7OS.Memory.PrintMem
import N7OS.Bin.ShellSession
import N7OS.Bin.ProcessList
import N7OS.Bin.Processus1
import N7OS.Bin.Demo
import N7OS.Bin.DemoSession
import N7OS.Bin.DemoShown
