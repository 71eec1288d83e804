import UnivOS.Scheduler

/-! # Processes

`kproc.c`: creation, destruction and the processes the kernel starts with.
-/
namespace UnivOS

/-- What the linker and the machine fix: the addresses of the first programs, the
registers copied into trapframes and the arrays, and the initial memory. -/
structure Image where
  kprocIdle : BitVec 32
  progShell : BitVec 32
  progPing : BitVec 32
  progPong : BitVec 32
  cpu : Cpu
  mem : Memory
  idle_ne : kprocIdle ≠ 0
  shell_ne : progShell ≠ 0
  ping_ne : progPing ≠ 0
  pong_ne : progPong ≠ 0

namespace Kernel
open Word

/-- `EF_INTR`, the flag of the processor that has interrupts on. -/
def efIntr : BitVec 32 := Ia32.flagIf

/-- The trapframe of a new process. -/
def newTrapframe (cpu : Cpu) (procPtr : BitVec 32) : Trapframe :=
  { Trapframe.zero with
    eip := procPtr
    eflags := cpu.efDefaultValue ||| efIntr
    cs := cpu.cs.setWidth 32
    ds := cpu.ds
    es := cpu.es
    fs := cpu.fs
    gs := cpu.gs }

/-- A new process has interrupts on. -/
theorem newTrapframe_interrupts (cpu : Cpu) (procPtr : BitVec 32) :
    (newTrapframe cpu procPtr).eflags &&& Ia32.flagIf = Ia32.flagIf := by
  show (cpu.efDefaultValue ||| Ia32.flagIf) &&& Ia32.flagIf = Ia32.flagIf
  ext i hi
  rw [BitVec.getElem_and, BitVec.getElem_or]
  cases Ia32.flagIf[i] <;> simp

/-- `proc_stack[entry]`. -/
def stack (cpu : Cpu) (entry : Fin procMax) : BitVec 32 :=
  cpu.procStack + BitVec.ofNat 32 (entry * procStackSize)

/-- The stacks do not wrap. -/
theorem stack_add_toNat (cpu : Cpu) (entry : Fin procMax) {n : Nat} (hn : n < procStackSize) :
    (stack cpu entry + BitVec.ofNat 32 n).toNat =
      cpu.procStack.toNat + entry * procStackSize + n := by
  have hend := cpu.procStack_end
  have hentry : (entry : Nat) < 20 := entry.isLt
  have hmax : procMax = 20 := rfl
  have hsize : procStackSize = 8192 := rfl
  rw [hmax, hsize] at hend
  rw [stack, BitVec.toNat_add, BitVec.toNat_add, BitVec.toNat_ofNat, BitVec.toNat_ofNat, hsize]
  omega

theorem firstFrame_ne (cpu : Cpu) (entry : Fin procMax) :
    stack cpu entry + BitVec.ofNat 32 (procStackSize - Trapframe.size) ≠ 0 := by
  have haddr := stack_add_toNat cpu entry (n := procStackSize - Trapframe.size) (by decide)
  have hstart := cpu.procStack_start
  intro h
  rw [h] at haddr
  have hzero : (0 : BitVec 32).toNat = 0 := rfl
  omega

/-- The end of the stack, less a trapframe. -/
def firstFrame (cpu : Cpu) (entry : Fin procMax) : Ptr :=
  ⟨stack cpu entry + BitVec.ofNat 32 (procStackSize - Trapframe.size),
    firstFrame_ne cpu entry⟩

/-- The stack of a new process: cleared, with its trapframe at the end. -/
def newStack (k : Kernel) (entry : Fin procMax) (procPtr : BitVec 32) : Memory :=
  (newTrapframe k.cpu procPtr).write (k.mem.fill (stack k.cpu entry) procStackSize 0)
    (firstFrame k.cpu entry)

/-- The process control block `kproc_create` fills in. -/
def newProc (k : Kernel) (entry : Fin procMax) (name : List Byte) (procType : ProcType) : Proc :=
  { Proc.zero with
    pid := k.nextPid
    state := .idle
    type := procType
    startTime := k.timerTicks
    name := strncpy name procNameLen
    trapframe := some (firstFrame k.cpu entry) }

/-- The allocated entry holds the new process. -/
def allotProc (k : Kernel) (proc : Fin procMax) (p : Proc) (q : Queue) (stack : Memory) : Kernel :=
  { k with
    procAllocator := q
    nextPid := k.nextPid + 1
    procTable := Function.update k.procTable proc p
    mem := stack }

/-- Returns the process id, or -1. The increment of `next_pid` is undefined
where it overflows. -/
def kprocCreate (k : Kernel) (procPtr : BitVec 32) (procName : Option (List Byte))
    (procType : ProcType) : Res (Int × Kernel) :=
  match procName with
  | none => .error (.panic "Invalid process title\n")
  | some name =>
    if procPtr = 0 then .error (.panic "Invalid function pointer")
    else match k.procAllocator.queueOut with
      | none => .ok (-1, k)
      | some (procEntry, q) =>
        match index procMax procEntry with
        | none => .error (.undefined "proc_table[proc_entry]")
        | some proc =>
          if InInt32 (k.nextPid + 1) then do
            let k := k.allotProc proc (k.newProc proc name procType) q (k.newStack proc procPtr)
            let k ← k.schedulerAdd (some proc)
            .ok ((k.procTable proc).pid, k)
          else .error (.undefined "next_pid++")

/-- The stack and the entry are cleared, and the entry goes back to the allocator. -/
def freeProc (k : Kernel) (proc : Fin procMax) (q : Queue) : Kernel :=
  { k with
    procAllocator := q
    procTable := Function.update k.procTable proc Proc.zero
    mem := k.mem.fill (stack k.cpu proc) procStackSize 0 }

def kprocDestroy (k : Kernel) (proc : Option (Fin procMax)) : Res (Int × Kernel) :=
  match proc with
  | none => .error (.panic "Invalid process!")
  | some proc =>
    if (k.procTable proc).pid = 0 then .ok (-1, k)
    else do
      let k ← k.schedulerRemove (some proc)
      match k.procToEntry proc with
      | none => .error (.panic "Error obtaining the process table entry")
      | some entry =>
        .ok (0, k.freeProc proc ((k.procAllocator.queueIn (entry : Nat)).getD k.procAllocator))

/-- `PROC_IO_IN` and `PROC_IO_OUT` point to the rings of the terminal. -/
def attachedIo (tty : Fin ttyMax) (io : Fin procIoMax → Option IoRing) :
    Fin procIoMax → Option IoRing :=
  fun i => if i.val = 0 then some (.input tty) else if i.val = 1 then some (.output tty) else io i

def kprocAttachTty (k : Kernel) (pid ttyNumber : Int) : Res (Int × Kernel) := do
  let proc := k.pidToProc pid
  let tty ← Ttys.ttyGet ttyNumber
  match proc with
  | none => .ok (-1, k)
  | some proc => .ok (0, k.modifyProc proc fun p => { p with io := attachedIo tty p.io })

/-- The programs `kproc_init` starts after the idle task, in order, each with the
terminal it attaches its process id to. -/
def startPrograms (img : Image) : List (BitVec 32 × String × (Int → Int)) :=
  let pingpong (pid : Int) : Int := ttyMax - pid.tmod 2 - 1
  (List.range 4).map (fun (i : Nat) => (img.progShell, "shell", fun _ => (i : Int) + 1)) ++
    List.replicate 3 (img.progPing, "ping", pingpong) ++
    List.replicate 3 (img.progPong, "pong", pingpong)

def startProgram (k : Kernel) (p : BitVec 32 × String × (Int → Int)) : Res Kernel := do
  let (pid, k) ← k.kprocCreate p.1 (some (cstring p.2.1)) .user
  let (_, k) ← k.kprocAttachTty pid (p.2.2 pid)
  .ok k

def kprocInit (k : Kernel) (img : Image) : Res Kernel := do
  let k := { k with procAllocator := Queue.fill procMax, procTable := fun _ => Proc.zero }
  let (_, k) ← k.kprocCreate img.kprocIdle (some (cstring "idle")) .kernel
  (startPrograms img).foldlM startProgram k

end Kernel
end UnivOS
