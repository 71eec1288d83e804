import UnivOS.Context
import UnivOS.Kernel

/-! # System calls as a process makes them

`syscall.c`. A call moves its number and its arguments into registers and interrupts;
what it returns is in `eax` when the process goes on. The compiler may keep an argument
in any register that the `asm` statement does not name, or in memory.
-/
namespace UnivOS
open Ia32

/-- The registers a system call has its number and its arguments in. -/
def callRegs : List Reg := [.eax, .ebx, .ecx, .edx]

/-- A system call up to `int $0x80`. -/
def syscallCode (syscall : Syscall) (args : List Operand) : List Instr :=
  moves (callRegs.zip (.imm syscall.number :: args))

/-- `_syscall0` and its siblings. -/
def syscall0 (syscall : Syscall) : List Instr := syscallCode syscall []

def syscall1 (syscall : Syscall) (arg1 : Operand) : List Instr := syscallCode syscall [arg1]

def syscall2 (syscall : Syscall) (arg1 arg2 : Operand) : List Instr :=
  syscallCode syscall [arg1, arg2]

def syscall3 (syscall : Syscall) (arg1 arg2 arg3 : Operand) : List Instr :=
  syscallCode syscall [arg1, arg2, arg3]

/-- The functions of `syscall.h`. -/
inductive UserCall
  | sysGetTime
  | sysGetName (name : Operand)
  | procSleep (secs : Operand)
  | procExit (exitcode : Operand)
  | procGetPid
  | procGetName (name : Operand)
  | ioWrite (io buf n : Operand)
  | ioRead (io buf n : Operand)
  | ioFlush (io : Operand)
  | mutexInit
  | mutexDestroy (mutex : Operand)
  | mutexLock (mutex : Operand)
  | mutexUnlock (mutex : Operand)
  | semInit (value : Operand)
  | semDestroy (sem : Operand)
  | semWait (sem : Operand)
  | semPost (sem : Operand)

theorem Syscall.ofNumber_number (c : Syscall) : Syscall.ofNumber c.number = some c := by
  cases c <;> decide

namespace UserCall

def code : UserCall → List Instr
  | sysGetTime => syscall0 .sysGetTime
  | sysGetName name => syscall1 .sysGetName name
  | procSleep secs => syscall1 .procSleep secs
  | procExit exitcode => syscall1 .procExit exitcode
  | procGetPid => syscall0 .procGetPid
  | procGetName name => syscall1 .procGetName name
  | ioWrite io buf n => syscall3 .ioWrite io buf n
  | ioRead io buf n => syscall3 .ioRead io buf n
  | ioFlush io => syscall1 .ioFlush io
  | mutexInit => syscall0 .mutexInit
  | mutexDestroy mutex => syscall1 .mutexDestroy mutex
  | mutexLock mutex => syscall1 .mutexLock mutex
  | mutexUnlock mutex => syscall1 .mutexUnlock mutex
  | semInit value => syscall1 .semInit value
  | semDestroy sem => syscall1 .semDestroy sem
  | semWait sem => syscall1 .semWait sem
  | semPost sem => syscall1 .semPost sem

def args : UserCall → List Operand
  | sysGetTime | procGetPid | mutexInit => []
  | sysGetName a | procSleep a | procExit a | procGetName a | ioFlush a | mutexDestroy a
  | mutexLock a | mutexUnlock a | semInit a | semDestroy a | semWait a | semPost a => [a]
  | ioWrite a b c | ioRead a b c => [a, b, c]

/-- The registers the `asm` statement names. -/
def regs (c : UserCall) : List Reg := callRegs.take (c.args.length + 1)

/-- What the compiler promises: no argument is in one of them. -/
def Compiled (c : UserCall) : Prop := ∀ a ∈ c.args, a.Avoids c.regs

/-- What the process asks of the kernel, in terms of its arguments. -/
def serve (c : UserCall) (s : State) (k : Kernel) : Res (Int × Kernel) :=
  match c with
  | sysGetTime => .ok (ksyscallSysGetTime k.timerTicks, k)
  | sysGetName name => .ok (k.ksyscallSysGetName (name.value s))
  | procSleep secs => k.ksyscallProcSleep (secs.value s).toInt
  | procExit _ => k.ksyscallProcExit
  | procGetPid => .ok (k.ksyscallProcGetPid, k)
  | procGetName name => k.ksyscallProcGetName (name.value s)
  | ioWrite io buf n => .ok (k.ksyscallIoWrite (io.value s).toInt (buf.value s) (n.value s))
  | ioRead io buf n => .ok (k.ksyscallIoRead (io.value s).toInt (buf.value s) (n.value s))
  | ioFlush io => .ok (k.ksyscallIoFlush (io.value s).toInt)
  | mutexInit => .ok k.kmutexInit
  | mutexDestroy mutex => .ok (k.kmutexDestroy (mutex.value s).toInt)
  | mutexLock mutex => k.kmutexLock (mutex.value s).toInt
  | mutexUnlock mutex => k.kmutexUnlock (mutex.value s).toInt
  | semInit value => .ok (k.ksemInit (value.value s).toInt)
  | semDestroy sem => .ok (k.ksemDestroy (sem.value s).toInt)
  | semWait sem => k.ksemWait (sem.value s).toInt
  | semPost sem => k.ksemPost (sem.value s).toInt

def syscall : UserCall → Syscall
  | sysGetTime => .sysGetTime
  | sysGetName _ => .sysGetName
  | procSleep _ => .procSleep
  | procExit _ => .procExit
  | procGetPid => .procGetPid
  | procGetName _ => .procGetName
  | ioWrite _ _ _ => .ioWrite
  | ioRead _ _ _ => .ioRead
  | ioFlush _ => .ioFlush
  | mutexInit => .mutexInit
  | mutexDestroy _ => .mutexDestroy
  | mutexLock _ => .mutexLock
  | mutexUnlock _ => .mutexUnlock
  | semInit _ => .semInit
  | semDestroy _ => .semDestroy
  | semWait _ => .semWait
  | semPost _ => .semPost

/-- What `int $0x80` finds: the number and the arguments in their registers, and
everything else as it was. -/
structure Made (c : UserCall) (s u : State) : Prop where
  number : u.reg .eax = c.syscall.number
  args : ∀ i r a, callRegs[i + 1]? = some r → c.args[i]? = some a → u.reg r = a.value s
  other : ∀ r, r ∉ c.regs → u.reg r = s.reg r
  frame : u = { s with reg := u.reg }

variable {p : Model} {s u : State} {c : UserCall}

/-- The moves of a call. -/
def passes (c : UserCall) : List (Reg × Operand) :=
  callRegs.zip (.imm c.syscall.number :: c.args)

theorem code_eq_moves (c : UserCall) : c.code = moves c.passes := by cases c <;> rfl

theorem passes_regs (c : UserCall) : c.passes.map Prod.fst = c.regs := by cases c <;> rfl

theorem Compiled.made (h : c.Compiled) (p : Model) (s : State) : c.Made s (run p c.code s) := by
  have hnodup : (c.passes.map Prod.fst).Nodup := by
    rw [passes_regs]
    exact (List.take_sublist ..).nodup (by decide)
  have havoids : ∀ x ∈ c.passes, x.1 ∈ c.regs ∧ x.2.Avoids c.regs := by
    intro x hx
    refine ⟨passes_regs c ▸ List.mem_map_of_mem hx, ?_⟩
    rcases List.mem_cons.mp (List.of_mem_zip hx).2 with hnum | harg
    · rw [hnum]
      trivial
    · exact h x.2 harg
  obtain ⟨hvalue, hother, hframe⟩ := run_moves p s hnodup havoids
  rw [code_eq_moves]
  refine ⟨hvalue (.eax, .imm c.syscall.number) List.mem_cons_self, fun i r a hr ha => ?_, ?_,
    hframe⟩
  · have hget : c.passes[i + 1]? = some (r, a) :=
      List.getElem?_zip_eq_some.mpr ⟨hr, by rw [List.getElem?_cons_succ]; exact ha⟩
    exact hvalue (r, a) (List.mem_of_getElem? hget)
  · rw [← passes_regs]
    exact hother

/-- The dispatcher finds the call in the registers, and serves it with its arguments. -/
theorem Made.ksyscall {irq : Word} {tf : Trapframe} (h : c.Made s u) (htf : tf.Saves u irq)
    (k : Kernel) : Syscall.ofNumber tf.eax = some c.syscall ∧ k.ksyscall tf c.syscall = c.serve s k := by
  have heax : tf.eax = c.syscall.number := (htf.reg .eax nofun).trans h.number
  have harg : ∀ i r a, callRegs[i + 1]? = some r → c.args[i]? = some a → r ≠ .esp →
      tf.reg r = a.value s :=
    fun i r a hr ha hne => (htf.reg r hne).trans (h.args i r a hr ha)
  refine ⟨by rw [heax]; exact Syscall.ofNumber_number c.syscall, ?_⟩
  cases c with
  | sysGetTime | procGetPid | mutexInit => rfl
  | procExit => rfl
  | ioWrite io buf n | ioRead io buf n =>
    have hio : tf.ebx = io.value s := harg 0 .ebx io rfl rfl nofun
    have hbuf : tf.ecx = buf.value s := harg 1 .ecx buf rfl rfl nofun
    have hn : tf.edx = n.value s := harg 2 .edx n rfl rfl nofun
    simp only [syscall, serve, Kernel.ksyscall, hio, hbuf, hn]
  | sysGetName a | procSleep a | procGetName a | ioFlush a | mutexDestroy a | mutexLock a
  | mutexUnlock a | semInit a | semDestroy a | semWait a | semPost a =>
    have ha : tf.ebx = a.value s := harg 0 .ebx a rfl rfl nofun
    simp only [syscall, serve, Kernel.ksyscall, ha]

end UserCall
end UnivOS
