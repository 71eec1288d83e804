import UnivOS.Interrupts
import UnivOS.Context
import UnivOS.Status
import UnivOS.Display
import UnivOS.Keyboard
import UnivOS.Timer
import UnivOS.Kernel

/-! # The whole system

`main` and `kernel_context_enter` with everything behind an interrupt: the table of
handlers, the timers and their callbacks, the keyboard and its commands. The ports of the
keyboard read back what the device has put there.
-/
namespace UnivOS
open Word

/-- The functions `main` registers with the timers. -/
inductive Callback
  | ttyRefresh
  | schedulerTimer
  | testSpinner
  | testTimer
  | testProcList
deriving DecidableEq, Repr

/-- The functions `main` registers for interrupts. -/
inductive Handler
  | timerIrqHandler
  | keyboardIrqHandler
  | ksyscallIrqHandler
deriving DecidableEq, Repr

/-- What the machine and the linker fix: the first programs, `kproc_test`, and what is in
the video memory, the interrupt table and the ports to start with. -/
structure Platform where
  image : Image
  kprocTest : BitVec 32
  vgaBuf : Fin vgaSize → BitVec 16
  idt : Fin irqMax → Option (Gate Isr)
  ports : Ports
  test_ne : kprocTest ≠ 0

/-- What the callbacks act on; `spinCount` is the `count` of the spinner. -/
structure Core where
  kernel : Kernel
  vga : Vga
  spinCount : BitVec 32

structure System where
  core : Core
  timers : Timers Callback
  keyboard : Keyboard
  interrupts : Interrupts Isr Handler
  kernelLogLevel : Int

/-- Why `kernel_context_enter` does not get to a process: the kernel halts, or it exits
and leaves the screen as it is. -/
inductive Stop
  | halt (reason : Halt)
  | exit (screen : Vga)

/-- A kernel step as a step that may also exit. -/
def Res.orStop {α : Type} : Res α → Except Stop α
  | .error reason => .error (.halt reason)
  | .ok a => .ok a

/-! ## Log levels and `kernel_exit` -/

def kernelLogLevelNone : Int := 0
def kernelLogLevelDebug : Int := 4
def kernelLogLevelAll : Int := 6

def kernelSetLogLevel (level : Int) : Int :=
  if level < kernelLogLevelNone then kernelLogLevelNone
  else if level > kernelLogLevelAll then kernelLogLevelAll
  else level

/-- What `kernel_exit` draws. -/
def Vga.kernelExit (v : Vga) : Res Vga := do
  let v := ((v.vgaSetBg vgaColorRed).vgaSetFg vgaColorWhite).vgaSetXy 0 0
  let v ← v.vgaPrintf (padLeft 80 [])
  (v.vgaSetXy 0 0).vgaPrintf (cstring ("Exiting " ++ osName ++ "...\n"))

/-! ## The timer -/

def Callback.run (c : Core) : Callback → Res Core
  | .ttyRefresh => do
    let (ttys, vga) ← c.kernel.ttys.ttyRefresh c.vga
    .ok { c with kernel := { c.kernel with ttys }, vga }
  | .schedulerTimer => do
    let kernel ← c.kernel.schedulerTimer
    .ok { c with kernel }
  | .testSpinner => do
    let (spinCount, vga) ← Vga.testSpinner c.spinCount c.vga
    .ok { c with spinCount, vga }
  | .testTimer => do
    let vga ← Vga.testTimer c.kernel.timerTicks c.vga
    .ok { c with vga }
  | .testProcList => do
    let vga ← Vga.testProcList c.kernel.ttys.ttyGetActive c.kernel.timerTicks c.kernel.procTable c.vga
    .ok { c with vga }

namespace System

/-- `timer_ticks` is in the records of the timers and of the kernel. -/
def timerIrqHandler (s : System) : Res System := do
  let ticks := wrap32 (s.timers.ticks + 1)
  let core := { s.core with kernel := { s.core.kernel with timerTicks := ticks } }
  let (timers, core) ← s.timers.timerIrqHandler
    (Timers.apart fun f core => core >>= fun c => f.run c) (.ok core : Res Core)
  let core ← core
  .ok { s with timers, core }

/-! ## The keyboard -/

def kbdPortData : Int := 0x60
def kbdPortStat : Int := 0x64

def keyboardScan (s : System) : BitVec 32 := inportb kbdPortData s.interrupts.ports

/-- A change to the kernel. -/
def withKernel (s : System) (k : Kernel) : System := { s with core := { s.core with kernel := k } }

/-- The calls of the decoder. A breakpoint is for the debugger. -/
def command (p : Platform) (s : System) : KeyCommand → Except Stop System
  | .ttySelect n => do
    let ttys ← Res.orStop (s.core.kernel.ttys.ttySelect n)
    .ok (s.withKernel { s.core.kernel with ttys })
  | .kernelExit => do
    let vga ← Res.orStop s.core.vga.kernelExit
    .error (.exit vga)
  | .setLogLevel change =>
    .ok { s with kernelLogLevel := kernelSetLogLevel (s.kernelLogLevel + change) }
  | .kprocCreate => do
    let (_, k) ← Res.orStop (s.core.kernel.kprocCreate p.kprocTest (some (cstring "test")) .user)
    .ok (s.withKernel k)
  | .kprocDestroy => do
    let (_, k) ← Res.orStop (s.core.kernel.kprocDestroy s.core.kernel.activeProc)
    .ok (s.withKernel k)
  | .breakpoint => .ok s

def keyboardPoll (p : Platform) (s : System) : Except Stop (BitVec 32 × System) :=
  if inportb kbdPortStat s.interrupts.ports &&& 1 ≠ 0 then do
    let (d, keyboard) ← Res.orStop (keyboardDecode s.keyboardScan s.keyboard)
    let s := { s with keyboard }
    match d.call with
    | none => .ok (d.char, s)
    | some call => do
      let s ← s.command p call
      .ok (d.char, s)
  else .ok (keyNull, s)

def keyboardIrqHandler (p : Platform) (s : System) : Except Stop System := do
  let (c, s) ← s.keyboardPoll p
  if c ≠ 0 then
    .ok (s.withKernel { s.core.kernel with ttys := s.core.kernel.ttys.ttyInput (c.setWidth 8) })
  else .ok s

/-! ## Entering the kernel -/

/-- What an interrupt finds: where the registers of the process are in a trapframe, the
memory with it and otherwise as user code left it, and the ports of the keyboard. -/
structure Arrival where
  frame : Ptr
  mem : Memory
  kbdStat : Byte
  kbdData : Byte

def Arrival.trapframe (a : Arrival) : Trapframe := Trapframe.read a.mem a.frame

/-- An interrupt with these registers and ports. -/
def Arrival.of (tf : Trapframe) (kbdStat kbdData : Byte) : Arrival :=
  ⟨.sample, tf.write (fun _ => 0) Ptr.sample, kbdStat, kbdData⟩

theorem Arrival.of_trapframe (tf : Trapframe) (stat data : Byte) :
    (Arrival.of tf stat data).trapframe = tf := Trapframe.read_write ..

/-- A handler, with the result of a system call. -/
def handle (p : Platform) (s : System) : Handler → Except Stop (Int × System)
  | .timerIrqHandler => do
    let s ← Res.orStop s.timerIrqHandler
    .ok (0, s)
  | .keyboardIrqHandler => do
    let s ← s.keyboardIrqHandler p
    .ok (0, s)
  | .ksyscallIrqHandler => do
    let (rc, k) ← Res.orStop s.core.kernel.ksyscallIrqHandler
    .ok (rc, s.withKernel k)

def interruptsIrqHandler (p : Platform) (s : System) (irq : BitVec 32) :
    Except Stop (Int × System) := do
  let handler ← Res.orStop (s.interrupts.irqHandler irq)
  let (rc, s) ← s.handle p handler
  .ok (rc, { s with interrupts := s.interrupts.dismiss irq })

/-- The machine at the start of `kernel_context_enter`. -/
def arrive (s : System) (a : Arrival) : System :=
  { s with
    core := { s.core with kernel := { s.core.kernel with mem := a.mem }.saveTrapframe a.frame }
    interrupts := { s.interrupts with
      ports := Function.update (Function.update s.interrupts.ports kbdPortStat a.kbdStat)
        kbdPortData a.kbdData } }

/-- `kernel_context_enter` up to the return to the active process. -/
def kernelContextEnter (p : Platform) (a : Arrival) (s : System) : Except Stop (Int × System) := do
  let (rc, s) ← (s.arrive a).interruptsIrqHandler p a.trapframe.interrupt
  let k ← Res.orStop s.core.kernel.schedulerRun
  if k.activeProc = none then .error (.halt (.panic "No active process!"))
  else .ok (rc, s.withKernel k)

/-! ## `main` -/

def register (s : System) (p : Platform) (isr : Isr) (handler : Handler) : Res System := do
  let interrupts ← s.interrupts.interruptsIrqRegister p.image.cpu.cs isr.irq (some isr) (some handler)
  .ok { s with interrupts }

def callback (s : System) (f : Callback) (interval : Int) : Res System := do
  let (_, timers) ← s.timers.timerCallbackRegister (some f) interval (-1)
  .ok { s with timers }

def timerInit (p : Platform) (s : System) : Res System :=
  { s with
    timers := Timers.timerInit
    core := { s.core with kernel := { s.core.kernel with timerTicks := 0 } } }.register p
      .timer .timerIrqHandler

def ttyInit (s : System) : Res System := do
  let ttys ← Ttys.ttyInit
  (s.withKernel { s.core.kernel with ttys }).callback .ttyRefresh 2

def vgaPortAddr : Int := 0x3D4
def vgaPortData : Int := 0x3D5

/-- Two writes: the number of a register, and its value. -/
def vgaRegister (s : System) (reg value : BitVec 32) : System :=
  { s with interrupts := { s.interrupts with
      ports := outportb vgaPortData value (outportb vgaPortAddr reg s.interrupts.ports) } }

/-- The current value of a register is read behind its number. -/
def vgaUpdateRegister (s : System) (reg keep value : BitVec 32) : System :=
  let ports := outportb vgaPortAddr reg s.interrupts.ports
  { s with interrupts := { s.interrupts with
      ports := outportb vgaPortData ((inportb vgaPortData ports &&& keep) ||| value) ports } }

def vgaCursorEnable (s : System) : System :=
  let s := { s with core := { s.core with vga := { s.core.vga with cursor := 1 } } }
  (s.vgaUpdateRegister 0x0A 0xC0 0xE).vgaUpdateRegister 0x0B 0xE0 0xF

def vgaCursorDisable (s : System) : System :=
  { s with core := { s.core with vga := { s.core.vga with cursor := 0 } } }.vgaRegister 0x0A 0x20

def vgaClear (s : System) : Res System := do
  let vga ← s.core.vga.vgaClear
  .ok { s with core := { s.core with vga } }

def vgaInit (s : System) : Res System :=
  (if s.core.vga.cursor ≠ 0 then s.vgaCursorEnable else s.vgaCursorDisable).vgaClear

def keyboardInit (p : Platform) (s : System) : Res System :=
  { s with keyboard := UnivOS.keyboardInit s.keyboard }.register p .keyboard .keyboardIrqHandler

def schedulerInit (s : System) : Res System :=
  (s.withKernel { s.core.kernel with runQueue := Queue.empty, sleepQueue := Queue.empty }).callback
    .schedulerTimer 1

def kprocInit (p : Platform) (s : System) : Res System := do
  let k ← s.core.kernel.kprocInit p.image
  .ok (s.withKernel k)

def ksyscallInit (p : Platform) (s : System) : Res System :=
  s.register p .syscall .ksyscallIrqHandler

def testInit (s : System) : Res System := do
  let s ← s.callback .testSpinner 10
  let s ← s.callback .testTimer 25
  s.callback .testProcList 10

/-- The globals before `main`. -/
def zero (p : Platform) : System :=
  { core := {
      kernel := Kernel.zero p.image
      vga := { buf := p.vgaBuf, posX := 0, posY := 0, colorBg := vgaColorBlack
               colorFg := vgaColorLightGrey, cursor := 0, scroll := 0 }
      spinCount := 0 }
    timers := { ticks := 0, table := fun _ => ⟨none, 0, 0⟩, allocator := Queue.empty }
    keyboard := ⟨0, 0⟩
    interrupts := { idt := p.idt, irqHandlers := fun _ => none, ports := p.ports }
    kernelLogLevel := kernelLogLevelDebug }

/-- `main` up to the loop in which it waits for the first interrupt. -/
def main (p : Platform) : Res System := do
  let s := { zero p with interrupts := (zero p).interrupts.interruptsInit }
  let s ← s.timerInit p
  let s ← s.ttyInit
  let s ← s.vgaInit
  let s ← s.keyboardInit p
  let s ← s.schedulerInit
  let s ← s.kprocInit p
  let s ← s.ksyscallInit p
  let s := s.withKernel s.core.kernel.ksemaphoresInit.kmutexesInit
  let s ← s.testInit
  s.vgaClear

end System
end UnivOS
