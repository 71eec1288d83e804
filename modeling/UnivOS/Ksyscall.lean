import UnivOS.Kmutex
import UnivOS.Ksem

/-! # System calls

`ksyscall.c`. The arguments are registers of the saved trapframe, which the
dispatcher finds in memory; those the source casts to `int` are read as signed,
addresses as they are.
-/
namespace UnivOS

/-- `syscall_t`, without `SYSCALL_NONE`, which the dispatcher does not handle. -/
inductive Syscall
  | ioRead
  | ioWrite
  | ioFlush
  | sysGetTime
  | sysGetName
  | procSleep
  | procExit
  | procGetPid
  | procGetName
  | mutexInit
  | mutexDestroy
  | mutexLock
  | mutexUnlock
  | semInit
  | semDestroy
  | semWait
  | semPost
deriving DecidableEq, Repr

/-- The enumeration's values. -/
def Syscall.number : Syscall → BitVec 32
  | .ioRead => 1
  | .ioWrite => 2
  | .ioFlush => 3
  | .sysGetTime => 4
  | .sysGetName => 5
  | .procSleep => 6
  | .procExit => 7
  | .procGetPid => 8
  | .procGetName => 9
  | .mutexInit => 10
  | .mutexDestroy => 11
  | .mutexLock => 12
  | .mutexUnlock => 13
  | .semInit => 14
  | .semDestroy => 15
  | .semWait => 16
  | .semPost => 17

def Syscall.all : List Syscall :=
  [.ioRead, .ioWrite, .ioFlush, .sysGetTime, .sysGetName, .procSleep, .procExit, .procGetPid,
    .procGetName, .mutexInit, .mutexDestroy, .mutexLock, .mutexUnlock, .semInit, .semDestroy,
    .semWait, .semPost]

/-- The case of the dispatcher's `switch` a number selects. -/
def Syscall.ofNumber (n : BitVec 32) : Option Syscall := Syscall.all.find? fun c => c.number == n

theorem Syscall.ofNumber_eq {n : BitVec 32} {c : Syscall} (h : Syscall.ofNumber n = some c) :
    n = c.number := by
  have := List.find?_some h
  exact (eq_of_beq this).symm

def osName : String := "MyUnivOS"

/-- The seconds in the tick count that `timer_get_ticks` returns. -/
def ksyscallSysGetTime (timerTicks : Int) : Int := timerTicks.tdiv 100

namespace Kernel
open Word

def ring (k : Kernel) : IoRing → Ringbuf
  | .input tty => (k.ttys.ttyTable tty).ioInput
  | .output tty => (k.ttys.ttyTable tty).ioOutput

/-- The number of bytes in a ring. -/
def held (k : Kernel) (r : IoRing) : Nat := (k.ring r).toList.length

/-- The `n` bytes from `a` on are none of the kernel's objects. -/
def UserBuffer (k : Kernel) (a : BitVec 32) (n : Nat) : Prop :=
  ∀ i < n, k.cpu.kernelData (a + BitVec.ofNat 32 i) = false

instance (k : Kernel) (a : BitVec 32) (n : Nat) : Decidable (k.UserBuffer a n) :=
  inferInstanceAs (Decidable (∀ i < n, _))

def modifyTty (k : Kernel) (tty : Fin ttyMax) (f : Tty → Tty) : Kernel :=
  { k with ttys := { k.ttys with
    ttyTable := Function.update k.ttys.ttyTable tty (f (k.ttys.ttyTable tty)) } }

def setRing (k : Kernel) (b : Ringbuf) : IoRing → Kernel
  | .input tty => k.modifyTty tty fun t => { t with ioInput := b }
  | .output tty => k.modifyTty tty fun t => { t with ioOutput := b }

theorem setRing_frame (k : Kernel) (b : Ringbuf) (r : IoRing) :
    ∃ ttys : Ttys, k.setRing b r = { k with ttys := ttys } := by
  cases r <;> exact ⟨_, rfl⟩

/-- The ring of the active process that an `io` argument selects, where the
source does not return -1. -/
def activeRing (k : Kernel) (io : Int) : Option IoRing := do
  let proc ← k.activeProc
  let i ← index procIoMax io
  (k.procTable proc).io i

def ksyscallIoWrite (k : Kernel) (io : Int) (buf size : BitVec 32) : Int × Kernel :=
  match k.activeRing io with
  | none => (-1, k)
  | some r =>
    match (k.ring r).ringbufWriteMem (fun i => k.mem (buf + BitVec.ofNat 32 i)) size.toNat with
    | none => (-1, k)
    | some b => (0, k.setRing b r)

def ksyscallIoRead (k : Kernel) (io : Int) (buf size : BitVec 32) : Int × Kernel :=
  match k.activeRing io with
  | none => (-1, k)
  | some r =>
    let (count, mem, b) := (k.ring r).ringbufReadMemTo buf size.toNat k.mem
    (count, { k.setRing b r with mem })

def ksyscallIoFlush (k : Kernel) (io : Int) : Int × Kernel :=
  match k.activeRing io with
  | none => (-1, k)
  | some r => (0, k.setRing (k.ring r).ringbufFlush r)

def ksyscallSysGetName (k : Kernel) (name : BitVec 32) : Int × Kernel :=
  if name = 0 then (-1, k)
  else (0, { k with mem := k.mem.write name (strncpy (cstring osName) (osName.length + 1)) })

def ksyscallProcSleep (k : Kernel) (seconds : Int) : Res (Int × Kernel) := do
  let k ← k.schedulerSleep k.activeProc (wrap32 (seconds * 100))
  .ok (0, k)

def ksyscallProcExit (k : Kernel) : Res (Int × Kernel) := k.kprocDestroy k.activeProc

def ksyscallProcGetPid (k : Kernel) : Int :=
  match k.activeProc with
  | none => -1
  | some proc => (k.procTable proc).pid

/-- The name is copied from `active_proc` without a test of that pointer. -/
def ksyscallProcGetName (k : Kernel) (name : BitVec 32) : Res (Int × Kernel) :=
  if name = 0 then .ok (-1, k)
  else match k.activeProc with
    | none => .error (.undefined "active_proc->name")
    | some proc =>
      .ok (0, { k with mem := k.mem.write name (strncpy (k.procTable proc).name procNameLen) })

/-- The `switch` of `ksyscall_irq_handler`. -/
def ksyscall (k : Kernel) (tf : Trapframe) : Syscall → Res (Int × Kernel)
  | .ioWrite => .ok (k.ksyscallIoWrite tf.ebx.toInt tf.ecx tf.edx)
  | .ioRead => .ok (k.ksyscallIoRead tf.ebx.toInt tf.ecx tf.edx)
  | .ioFlush => .ok (k.ksyscallIoFlush tf.ebx.toInt)
  | .sysGetTime => .ok (ksyscallSysGetTime k.timerTicks, k)
  | .sysGetName => .ok (k.ksyscallSysGetName tf.ebx)
  | .procSleep => k.ksyscallProcSleep tf.ebx.toInt
  | .procExit => k.ksyscallProcExit
  | .procGetPid => .ok (k.ksyscallProcGetPid, k)
  | .procGetName => k.ksyscallProcGetName tf.ebx
  | .mutexInit => .ok k.kmutexInit
  | .mutexDestroy => .ok (k.kmutexDestroy tf.ebx.toInt)
  | .mutexLock => k.kmutexLock tf.ebx.toInt
  | .mutexUnlock => k.kmutexUnlock tf.ebx.toInt
  | .semInit => .ok (k.ksemInit tf.ebx.toInt)
  | .semDestroy => .ok (k.ksemDestroy tf.ebx.toInt)
  | .semPost => k.ksemPost tf.ebx.toInt
  | .semWait => k.ksemWait tf.ebx.toInt

/-- The address a pointer to a trapframe holds. -/
def address (p : Option Ptr) : BitVec 32 := (p.map Subtype.val).getD 0

/-- The return value reaches the trapframe of the process that is active after
the call, if there is one. -/
def setResult (k : Kernel) (rc : Int) : Kernel :=
  match k.activeProc with
  | none => k
  | some proc => { k with
      mem := Ia32.store k.mem (address (k.procTable proc).trapframe + Trapframe.eaxOffset)
        (BitVec.ofInt 32 rc) }

theorem setResult_frame (k : Kernel) (rc : Int) :
    ∃ mem : Memory, k.setResult rc = { k with mem := mem } := by
  unfold setResult
  split
  · exact ⟨k.mem, rfl⟩
  · exact ⟨_, rfl⟩

theorem setResult_only (k : Kernel) (rc : Int) : ActiveOnly k (k.setResult rc) := by
  obtain ⟨mem, hk⟩ := setResult_frame k rc
  rw [hk]
  exact ⟨rfl, fun _ _ => rfl, fun _ => rfl, fun _ => rfl, fun _ => rfl⟩

def ksyscallIrqHandler (k : Kernel) : Res (Int × Kernel) :=
  match k.activeProc with
  | none => .error (.panic "Invalid process")
  | some proc =>
    match (k.procTable proc).trapframe with
    | none => .error (.panic "Invalid trapframe")
    | some a =>
      let tf := Trapframe.read k.mem a
      match Syscall.ofNumber tf.eax with
      | none => .error (.panic ("Invalid system call " ++ toString tf.eax.toInt ++ "!"))
      | some call => do
        let (rc, k) ← k.ksyscall tf call
        .ok (rc, k.setResult rc)

/-- The registers a process will resume with. -/
def registers (k : Kernel) (proc : Fin procMax) : Option Trapframe :=
  (k.procTable proc).trapframe.map fun a : Ptr => Trapframe.read k.mem a

/-- A dispatcher that returns has made the system call in the caller's registers. -/
theorem ksyscallIrqHandler_call {k k' : Kernel} {rc : Int}
    (h : k.ksyscallIrqHandler = .ok (rc, k')) :
    ∃ proc tf call k₁, k.activeProc = some proc ∧ k.registers proc = some tf ∧
      Syscall.ofNumber tf.eax = some call ∧ k.ksyscall tf call = .ok (rc, k₁) ∧
      k' = k₁.setResult rc := by
  unfold ksyscallIrqHandler at h
  split at h
  · cases h
  · rename_i proc hact
    split at h
    · cases h
    · rename_i a ha
      dsimp only at h
      split at h
      · cases h
      · rename_i call hcall
        obtain ⟨⟨rc₁, k₁⟩, h₁, h₂⟩ := Loop.bind_eq_ok.mp h
        cases h₂
        exact ⟨proc, _, call, k₁, hact, by rw [registers, ha]; rfl, hcall, h₁, rfl⟩

theorem ksyscallIrqHandler_ok {k k' : Kernel} {proc : Fin procMax} {tf : Trapframe} {rc : Int}
    (hact : k.activeProc = some proc) (htf : k.registers proc = some tf)
    (h : k.ksyscallIrqHandler = .ok (rc, k')) :
    ∃ call k₁, Syscall.ofNumber tf.eax = some call ∧ k.ksyscall tf call = .ok (rc, k₁) ∧
      k' = k₁.setResult rc := by
  obtain ⟨p, t, call, k₁, hp, ht, hcall, h₁, hk⟩ := ksyscallIrqHandler_call h
  cases hp.symm.trans hact
  cases ht.symm.trans htf
  exact ⟨call, k₁, hcall, h₁, hk⟩

end Kernel
end UnivOS
