import UnivOS.Lib.Circular
import UnivOS.Lib.Word
import UnivOS.Lib.Trace
import UnivOS.Lib.IdPool
import UnivOS.Lib.Loop
import UnivOS.Lib.Lines
import UnivOS.Base
import UnivOS.Queue
import UnivOS.Memory
import UnivOS.RingBuf
import UnivOS.Lib.Machine
import UnivOS.RingFifo
import UnivOS.Timer
import UnivOS.Tty
import UnivOS.Vga
import UnivOS.Display
import UnivOS.Shell
import UnivOS.Lib.Ia32
import UnivOS.State
import UnivOS.Scheduler
import UnivOS.Kproc
import UnivOS.Kmutex
import UnivOS.Ksem
import UnivOS.Ksyscall
import UnivOS.Kernel
import UnivOS.IoCount
import UnivOS.IoSize
import UnivOS.Console
import UnivOS.Lib.Places
import UnivOS.Table
import UnivOS.Boot
import UnivOS.Removal
import UnivOS.Sleepers
import UnivOS.Placement
import UnivOS.Moves
import UnivOS.Frames
import UnivOS.Handlers
import UnivOS.Locking
import UnivOS.Entries
import UnivOS.Runs
import UnivOS.SemCalls
import UnivOS.Bystander
import UnivOS.RoundRobin
import UnivOS.ProcMap
import UnivOS.Exclusion
import UnivOS.MutexPool
import UnivOS.MutexSupply
import UnivOS.SemPool
import UnivOS.Permits
import UnivOS.Stores
import UnivOS.Registers
import UnivOS.Results
import UnivOS.Owners
import UnivOS.Dangling
import UnivOS.Resting
import UnivOS.Sleeping
import UnivOS.SleepLength
import UnivOS.TimerTick
import UnivOS.TimerCalls
import UnivOS.TimerSafety
import UnivOS.LineBuffer
import UnivOS.Painting
import UnivOS.VgaPuts
import UnivOS.VgaState
import UnivOS.Lib.Bits
import UnivOS.Lib.Streak
import UnivOS.BitUtil
import UnivOS.QueueFifo
import UnivOS.Pic
import UnivOS.Keyboard
import UnivOS.Modifiers
import UnivOS.Escapes
import UnivOS.Context
import UnivOS.UserCalls
import UnivOS.Resume
import UnivOS.Interrupts
import UnivOS.Printing
import UnivOS.Status
import UnivOS.Attached
import UnivOS.System
import UnivOS.Dispatch
import UnivOS.Sound
import UnivOS.Terminals
import UnivOS.Rings
import UnivOS.Devices
import UnivOS.Progress
import UnivOS.Keys
import UnivOS.Streams
import UnivOS.Screen
import UnivOS.Accounting
