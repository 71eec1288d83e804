import UnivOS.Ksyscall
import UnivOS.Lib.Trace

/-! # Kernel entries

`kernel.c` and the initialisation in `main.c`. An entry saves the trapframe of
the active process, handles one event and runs the scheduler. The timer interrupt
is its count and its `scheduler_timer` callback; the callbacks that draw on the
screen are left out.
-/
namespace UnivOS
open Word

/-- The functions of `kmutex.h`. -/
inductive MutexCall
  | init
  | destroy (id : Int)
  | lock (id : Int)
  | unlock (id : Int)
deriving DecidableEq, Repr

/-- The functions of `ksem.h`. -/
inductive SemCall
  | init (value : Int)
  | destroy (id : Int)
  | wait (id : Int)
  | post (id : Int)
deriving DecidableEq, Repr

/-- What an entry handles. The keyboard creates and destroys processes; a system
call goes through the dispatcher (`syscall`), and the kernel functions behind the
calls that affect scheduling are events of their own too. -/
inductive Event
  | tick
  | create (procPtr : BitVec 32) (procName : Option (List Byte)) (procType : ProcType)
  | destroy
  | sleep (time : Int)
  | mutex (call : MutexCall)
  | sem (call : SemCall)
  | syscall
deriving DecidableEq

/-- An entry: where `context.S` has put the trapframe, the memory with the trapframe in
it and otherwise as user code left it, the event. -/
structure Entry where
  frame : Ptr
  mem : Memory
  event : Event

/-- The trapframe an entry finds. -/
def Entry.trapframe (e : Entry) : Trapframe := Trapframe.read e.mem e.frame

/-- An entry with these registers. -/
def Trapframe.entry (tf : Trapframe) (ev : Event) : Entry :=
  ⟨⟨0x1000, by decide⟩, tf.write (fun _ => 0) 0x1000, ev⟩

/-- The kernel function a system call is a call of, where it affects scheduling. -/
def Syscall.event (tf : Trapframe) : Syscall → Option Event
  | .procSleep => some (.sleep (Word.wrap32 (tf.ebx.toInt * 100)))
  | .procExit => some .destroy
  | .mutexInit => some (.mutex .init)
  | .mutexDestroy => some (.mutex (.destroy tf.ebx.toInt))
  | .mutexLock => some (.mutex (.lock tf.ebx.toInt))
  | .mutexUnlock => some (.mutex (.unlock tf.ebx.toInt))
  | .semInit => some (.sem (.init tf.ebx.toInt))
  | .semDestroy => some (.sem (.destroy tf.ebx.toInt))
  | .semWait => some (.sem (.wait tf.ebx.toInt))
  | .semPost => some (.sem (.post tf.ebx.toInt))
  | _ => none

/-- The event behind an entry, which a system call selects by its registers. -/
def Entry.call (e : Entry) : Option Event :=
  if e.event = .syscall then
    (Syscall.ofNumber e.trapframe.eax).bind (Syscall.event e.trapframe)
  else some e.event

/-- An image to run the model on. -/
def Image.blank : Image :=
  { kprocIdle := 1, progShell := 2, progPing := 3, progPong := 4
    cpu := { cs := 8, ds := 16, es := 16, fs := 16, gs := 16, efDefaultValue := 2,
             procStack := 0xD000, kstack := 0x40000, kernelData := fun a => 0x3C000 ≤ a.toNat,
             procStack_start := by decide, procStack_end := by decide,
             kstack_apart := .inr (by decide), kstack_start := by decide,
             kstack_data := fun a h => decide_eq_true (by
               have hsize : kstackSize = 16384 := rfl
               bv_omega)
             procStack_data := fun a h => decide_eq_false (by
               have hsize : procMax * procStackSize = 163840 := rfl
               bv_omega) }
    mem := fun _ => 0
    idle_ne := by decide, shell_ne := by decide, ping_ne := by decide, pong_ne := by decide }

namespace Kernel

def mutexCall (k : Kernel) : MutexCall → Res (Int × Kernel)
  | .init => .ok k.kmutexInit
  | .destroy id => .ok (k.kmutexDestroy id)
  | .lock id => k.kmutexLock id
  | .unlock id => k.kmutexUnlock id

def semCall (k : Kernel) : SemCall → Res (Int × Kernel)
  | .init value => .ok (k.ksemInit value)
  | .destroy id => .ok (k.ksemDestroy id)
  | .wait id => k.ksemWait id
  | .post id => k.ksemPost id

def tick (k : Kernel) : Res Kernel :=
  { k with timerTicks := wrap32 (k.timerTicks + 1) }.schedulerTimer

/-- The handler of an event; those that return nothing return 0. -/
def handle (k : Kernel) : Event → Res (Int × Kernel)
  | .tick => do
    let k ← k.tick
    .ok (0, k)
  | .create procPtr procName procType => k.kprocCreate procPtr procName procType
  | .destroy => k.kprocDestroy k.activeProc
  | .sleep time => do
    let k ← k.schedulerSleep k.activeProc time
    .ok (0, k)
  | .mutex call => k.mutexCall call
  | .sem call => k.semCall call
  | .syscall => k.ksyscallIrqHandler

def saveTrapframe (k : Kernel) (trapframe : Ptr) : Kernel :=
  match k.activeProc with
  | none => k
  | some proc => k.modifyProc proc fun p => { p with trapframe := some trapframe }

/-- `kernel_context_enter` up to the return to the active process. -/
def kernelContextEnter (e : Entry) (k : Kernel) : Res (Int × Kernel) := do
  let k := { k with mem := e.mem }.saveTrapframe e.frame
  let (rc, k) ← k.handle e.event
  let k ← k.schedulerRun
  if k.activeProc = none then .error (.panic "No active process!") else .ok (rc, k)

/-- The state `main` starts from: zeroed globals. -/
def zero (img : Image) : Kernel :=
  { activeProc := none, procTable := fun _ => Proc.zero, nextPid := 0
    procAllocator := Queue.empty, runQueue := Queue.empty, sleepQueue := Queue.empty
    mutexes := fun _ => Mutex.zero, mutexQueue := Queue.empty
    semaphores := fun _ => ⟨0, 0, Queue.empty⟩, semQueue := Queue.empty
    ttys := Ttys.ttyZero, timerTicks := 0, cpu := img.cpu, mem := img.mem, nullAccess := false }

/-- The initialisation `main` performs before it enables interrupts. -/
def kernelInit (img : Image) : Res Kernel := do
  let ttys ← Ttys.ttyInit
  let k ← { zero img with ttys }.kprocInit img
  .ok k.ksemaphoresInit.kmutexesInit

/-! ## What a system call changes -/

variable {k k' : Kernel} {rc : Int}

theorem ksyscall_event {tf : Trapframe} {call : Syscall} {ev : Event}
    (h : call.event tf = some ev) : k.ksyscall tf call = k.handle ev := by
  cases call <;> cases h <;> rfl

/-- The other system calls change the terminals and the memory only. -/
theorem ksyscall_frame {tf : Trapframe} {call : Syscall}
    (hcall : call.event tf = none) (h : k.ksyscall tf call = .ok (rc, k')) :
    ∃ (ttys : Ttys) (mem : Memory), k' = { k with ttys := ttys, mem := mem } := by
  cases call with
  | ioRead =>
    rw [eq_of_ok h, ksyscallIoRead]
    split
    · exact ⟨k.ttys, k.mem, rfl⟩
    · obtain ⟨ttys, hset⟩ := setRing_frame k _ _
      dsimp only
      rw [hset]
      exact ⟨ttys, _, rfl⟩
  | ioWrite =>
    rw [eq_of_ok h, ksyscallIoWrite]
    split
    · exact ⟨k.ttys, k.mem, rfl⟩
    · split
      · exact ⟨k.ttys, k.mem, rfl⟩
      · obtain ⟨ttys, hset⟩ := setRing_frame k _ _
        exact ⟨ttys, k.mem, hset⟩
  | ioFlush =>
    rw [eq_of_ok h, ksyscallIoFlush]
    split
    · exact ⟨k.ttys, k.mem, rfl⟩
    · obtain ⟨ttys, hset⟩ := setRing_frame k _ _
      exact ⟨ttys, k.mem, hset⟩
  | sysGetTime => exact ⟨k.ttys, k.mem, eq_of_ok h⟩
  | sysGetName =>
    rw [eq_of_ok h, ksyscallSysGetName]
    split
    · exact ⟨k.ttys, k.mem, rfl⟩
    · exact ⟨k.ttys, _, rfl⟩
  | procGetPid => exact ⟨k.ttys, k.mem, eq_of_ok h⟩
  | procGetName =>
    have h' : k.ksyscallProcGetName tf.ebx = .ok (rc, k') := h
    unfold ksyscallProcGetName at h'
    split at h'
    · cases h'
      exact ⟨k.ttys, k.mem, rfl⟩
    · split at h'
      · cases h'
      · cases h'
        exact ⟨k.ttys, _, rfl⟩
  | procSleep => cases hcall
  | procExit => cases hcall
  | mutexInit => cases hcall
  | mutexDestroy => cases hcall
  | mutexLock => cases hcall
  | mutexUnlock => cases hcall
  | semInit => cases hcall
  | semDestroy => cases hcall
  | semPost => cases hcall
  | semWait => cases hcall

end Kernel

abbrev KernelStep := Trace.Step Kernel (Entry × Int)

end UnivOS
