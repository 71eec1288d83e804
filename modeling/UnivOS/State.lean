import UnivOS.Base
import UnivOS.Queue
import UnivOS.Tty
import UnivOS.Lib.Word
import UnivOS.Lib.Ia32

/-! # The kernel state

The globals of `kernel.c`, `kproc.c`, `scheduler.c`, `kmutex.c` and `ksem.c` in
one record, with the terminals whose rings processes are attached to. Pointers
into a table are its indices. The stacks of the processes, and so their
trapframes, lie in the memory (`mem`) that user code works in, which system calls
read and write through the addresses they are given and which also backs the
accesses `ksem_wait` makes through a null pointer. The kernel's other objects are
values apart from it; `kernelData` says which addresses they take up.
-/
namespace UnivOS

def procMax : Nat := 20
def procIoMax : Nat := 4
def procNameLen : Nat := 32
def mutexMax : Nat := 16
def semMax : Nat := 16
def procStackSize : Nat := 8192
def kstackSize : Nat := 16384
def schedulerTimeslice : Int := 10

/-- `state_t`. -/
inductive ProcState
  | none
  | idle
  | active
  | sleeping
  | waiting
deriving DecidableEq, Repr

/-- `proc_type_t`. -/
inductive ProcType
  | none
  | kernel
  | user
deriving DecidableEq, Repr

/-- `trapframe_t`, without its filler. -/
structure Trapframe where
  gs : BitVec 16
  fs : BitVec 16
  es : BitVec 16
  ds : BitVec 16
  edi : BitVec 32
  esi : BitVec 32
  ebp : BitVec 32
  esp : BitVec 32
  ebx : BitVec 32
  edx : BitVec 32
  ecx : BitVec 32
  eax : BitVec 32
  interrupt : BitVec 32
  eip : BitVec 32
  cs : BitVec 32
  eflags : BitVec 32
deriving DecidableEq, Repr

namespace Trapframe

/-- A trapframe in a cleared stack. -/
def zero : Trapframe := ⟨0, 0, 0, 0, 0, 0, 0, 0, 0, 0, 0, 0, 0, 0, 0, 0⟩

/-- The layout of `trapframe_t`; the upper halves of the first four words are filler. -/
def ofWords : List (BitVec 32) → Option Trapframe
  | [gs, fs, es, ds, edi, esi, ebp, esp, ebx, edx, ecx, eax, interrupt, eip, cs, eflags] =>
    some {
      gs := gs.setWidth 16, fs := fs.setWidth 16, es := es.setWidth 16, ds := ds.setWidth 16
      edi, esi, ebp, esp, ebx, edx, ecx, eax, interrupt, eip, cs, eflags }
  | _ => none

/-- The words of a trapframe whose filler is zero. -/
def toWords (tf : Trapframe) : List (BitVec 32) :=
  [tf.gs.setWidth 32, tf.fs.setWidth 32, tf.es.setWidth 32, tf.ds.setWidth 32, tf.edi, tf.esi,
    tf.ebp, tf.esp, tf.ebx, tf.edx, tf.ecx, tf.eax, tf.interrupt, tf.eip, tf.cs, tf.eflags]

def size : Nat := 64

/-- The trapframe a pointer points to. -/
def read (m : Memory) (a : BitVec 32) : Trapframe := (ofWords (Ia32.words m a 16)).getD zero

def write (m : Memory) (a : BitVec 32) (tf : Trapframe) : Memory := Ia32.storeWords m a tf.toWords

/-- Where `eax` is in a trapframe. -/
def eaxOffset : BitVec 32 := 44

/-- The trapframe with a return value in it. -/
def setResult (tf : Trapframe) (rc : Int) : Trapframe := { tf with eax := BitVec.ofInt 32 rc }

theorem ofWords_toWords (tf : Trapframe) : ofWords tf.toWords = some tf := by
  have hseg : ∀ v : BitVec 16, (v.setWidth 32).setWidth 16 = v := by
    intro v
    rw [BitVec.setWidth_setWidth_of_le v (by decide), BitVec.setWidth_eq]
  simp only [toWords, ofWords, hseg]

theorem toWords_length (tf : Trapframe) : tf.toWords.length = 16 := rfl

/-- A trapframe that is stored can be read back. -/
theorem read_write (m : Memory) (a : BitVec 32) (tf : Trapframe) : read (tf.write m a) a = tf := by
  have hwords := Ia32.words_storeWords m a tf.toWords (by rw [toWords_length]; decide)
  rw [toWords_length] at hwords
  rw [read, write, hwords, ofWords_toWords, Option.getD_some]

theorem write_ne (m : Memory) {a x : BitVec 32} (tf : Trapframe) (h : size ≤ (x - a).toNat) :
    tf.write m a x = m x := Ia32.storeWords_ne m a tf.toWords h

/-- A trapframe depends on its own bytes only. -/
theorem read_congr {m m' : Memory} {a : BitVec 32}
    (h : ∀ i < size, m' (a + BitVec.ofNat 32 i) = m (a + BitVec.ofNat 32 i)) :
    read m' a = read m a := by
  rw [read, read, Ia32.words_congr h]

/-- A word stored at `eax`. -/
theorem read_store_eax (m : Memory) (a : BitVec 32) (rc : Int) :
    read (Ia32.store m (a + eaxOffset) (BitVec.ofInt 32 rc)) a = (read m a).setResult rc := by
  have hwords := Ia32.words_store_at m (BitVec.ofInt 32 rc) (n := 16) (i := 11) (a := a)
    (by decide) (by decide)
  have heax : a + BitVec.ofNat 32 (4 * 11) = a + eaxOffset := rfl
  rw [heax] at hwords
  rw [read, hwords]
  rfl

end Trapframe

/-- The queues a `scheduler_queue` pointer can name. -/
inductive SchedQueue
  | run
  | sleep
deriving DecidableEq, Repr

/-- The rings an `io` pointer can name. -/
inductive IoRing
  | input (tty : Fin ttyMax)
  | output (tty : Fin ttyMax)
deriving DecidableEq

/-- `proc_t`, without the pointer to the stack. -/
structure Proc where
  pid : Int
  state : ProcState
  type : ProcType
  name : List Byte
  startTime : Int
  runTime : Int
  cpuTime : Int
  sleepTime : Int
  schedulerQueue : Option SchedQueue
  io : Fin procIoMax → Option IoRing
  trapframe : Option Ptr

/-- A process table entry after `memset`. -/
def Proc.zero : Proc :=
  { pid := 0, state := .none, type := .none, name := List.replicate procNameLen 0
    startTime := 0, runTime := 0, cpuTime := 0, sleepTime := 0
    schedulerQueue := none, io := fun _ => none, trapframe := none }

/-- `mutex_t`. -/
structure Mutex where
  allocated : Int
  locks : Int
  owner : Option (Fin procMax)
  waitQueue : Queue

def Mutex.zero : Mutex := ⟨0, 0, none, Queue.empty⟩

/-- `sem_t`. -/
structure Sem where
  allocated : Int
  count : Int
  waitQueue : Queue

/-- What the machine and the linker fix: the segment registers and the flags word
that `kproc_create` copies into a trapframe, where the arrays `proc_stack` and
`kstack` are (the latter by its end), and which addresses the kernel stack and the
objects take up that the model keeps as values. -/
structure Cpu where
  cs : BitVec 16
  ds : BitVec 16
  es : BitVec 16
  fs : BitVec 16
  gs : BitVec 16
  /-- `EF_DEFAULT_VALUE`. -/
  efDefaultValue : BitVec 32
  procStack : BitVec 32
  kstack : BitVec 32
  kernelData : BitVec 32 → Bool
  /-- No array is at the addresses of the first fields behind a null pointer. -/
  procStack_start : 8 ≤ procStack.toNat
  procStack_end : procStack.toNat + procMax * procStackSize ≤ 2 ^ 32
  /-- The arrays do not meet. -/
  kstack_apart : kstack.toNat ≤ procStack.toNat ∨
    procStack.toNat + procMax * procStackSize + kstackSize ≤ kstack.toNat
  kstack_start : kstackSize ≤ kstack.toNat
  kstack_data : ∀ a, (kstack - 1 - a).toNat < kstackSize → kernelData a = true
  procStack_data : ∀ a, (a - procStack).toNat < procMax * procStackSize → kernelData a = false

structure Kernel where
  activeProc : Option (Fin procMax)
  procTable : Fin procMax → Proc
  nextPid : Int
  procAllocator : Queue
  runQueue : Queue
  sleepQueue : Queue
  mutexes : Fin mutexMax → Mutex
  mutexQueue : Queue
  semaphores : Fin semMax → Sem
  semQueue : Queue
  ttys : Ttys
  timerTicks : Int
  cpu : Cpu
  mem : Memory
  /-- Set by an access through a null `active_proc`. -/
  nullAccess : Bool

/-- `strncpy`: the characters up to a NUL, at most `n`, padded with NULs. -/
def strncpy (src : List Byte) (n : Nat) : List Byte :=
  let s := (src.takeWhile (· != 0)).take n
  s ++ List.replicate (n - s.length) 0

/-- The characters of a string constant. -/
def cstring (s : String) : List Byte := s.toList.map fun c => BitVec.ofNat 8 c.toNat

theorem one_lt_procMax : 1 < procMax := by decide

theorem semMax_pos : 0 < semMax := by decide

namespace Kernel

/-- A change to a process table entry. -/
def modifyProc (k : Kernel) (proc : Fin procMax) (f : Proc → Proc) : Kernel :=
  { k with procTable := Function.update k.procTable proc (f (k.procTable proc)) }

def schedQueue (k : Kernel) : SchedQueue → Queue
  | .run => k.runQueue
  | .sleep => k.sleepQueue

def setSchedQueue (k : Kernel) (q : Queue) : SchedQueue → Kernel
  | .run => { k with runQueue := q }
  | .sleep => { k with sleepQueue := q }

/-- The kernel a call that cannot fail leaves. -/
theorem eq_of_ok {r : Int × Kernel} {rc : Int} {k' : Kernel}
    (h : (Except.ok r : Res (Int × Kernel)) = .ok (rc, k')) : k' = r.2 :=
  (congrArg Prod.snd (Except.ok.inj h)).symm

/-! ## What the updates leave alone -/

variable (k : Kernel) (i j : Fin procMax) (f : Proc → Proc) (q : Queue) (w : SchedQueue)

@[simp] theorem modifyProc_self : (k.modifyProc i f).procTable i = f (k.procTable i) :=
  Function.update_self ..

theorem modifyProc_ne {i j : Fin procMax} (h : j ≠ i) :
    (k.modifyProc i f).procTable j = k.procTable j := Function.update_of_ne h ..

/-- What the new entry has in common with the old one, every entry has. -/
theorem same_of_update {α : Type} {k k' : Kernel} {i : Fin procMax} {p : Proc} (g : Proc → α)
    (hk : k'.procTable = Function.update k.procTable i p) (hp : g p = g (k.procTable i))
    (j : Fin procMax) : g (k'.procTable j) = g (k.procTable j) := by
  rw [hk]
  by_cases hj : j = i
  · rw [hj, Function.update_self, hp]
  · rw [Function.update_of_ne hj]

theorem modifyProc_eq_self (h : f (k.procTable i) = k.procTable i) : k.modifyProc i f = k := by
  rw [modifyProc, h, Function.update_eq_self]

@[simp] theorem modifyProc_activeProc : (k.modifyProc i f).activeProc = k.activeProc := rfl

@[simp] theorem modifyProc_nextPid : (k.modifyProc i f).nextPid = k.nextPid := rfl

@[simp] theorem modifyProc_procAllocator :
    (k.modifyProc i f).procAllocator = k.procAllocator := rfl

@[simp] theorem modifyProc_runQueue : (k.modifyProc i f).runQueue = k.runQueue := rfl

@[simp] theorem modifyProc_sleepQueue : (k.modifyProc i f).sleepQueue = k.sleepQueue := rfl

@[simp] theorem modifyProc_mutexes : (k.modifyProc i f).mutexes = k.mutexes := rfl

@[simp] theorem modifyProc_mutexQueue : (k.modifyProc i f).mutexQueue = k.mutexQueue := rfl

@[simp] theorem modifyProc_semaphores : (k.modifyProc i f).semaphores = k.semaphores := rfl

@[simp] theorem setSchedQueue_procTable : (k.setSchedQueue q w).procTable = k.procTable := by
  cases w <;> rfl

@[simp] theorem setSchedQueue_activeProc : (k.setSchedQueue q w).activeProc = k.activeProc := by
  cases w <;> rfl

@[simp] theorem setSchedQueue_nextPid : (k.setSchedQueue q w).nextPid = k.nextPid := by
  cases w <;> rfl

@[simp] theorem setSchedQueue_procAllocator :
    (k.setSchedQueue q w).procAllocator = k.procAllocator := by cases w <;> rfl

@[simp] theorem setSchedQueue_mutexes : (k.setSchedQueue q w).mutexes = k.mutexes := by
  cases w <;> rfl

@[simp] theorem setSchedQueue_mutexQueue : (k.setSchedQueue q w).mutexQueue = k.mutexQueue := by
  cases w <;> rfl

@[simp] theorem setSchedQueue_semaphores : (k.setSchedQueue q w).semaphores = k.semaphores := by
  cases w <;> rfl

/-! ## Changes to the active process -/

/-- At most the entry of the active process changes, its accounting or where its
registers are, and memory. -/
structure ActiveOnly (k k' : Kernel) : Prop where
  table : k' = { k with procTable := k'.procTable, mem := k'.mem }
  other : ∀ i, k.activeProc ≠ some i → k'.procTable i = k.procTable i
  pid : ∀ i, (k'.procTable i).pid = (k.procTable i).pid
  state : ∀ i, (k'.procTable i).state = (k.procTable i).state
  sleepTime : ∀ i, (k'.procTable i).sleepTime = (k.procTable i).sleepTime

theorem ActiveOnly.refl : ActiveOnly k k :=
  ⟨rfl, fun _ _ => rfl, fun _ => rfl, fun _ => rfl, fun _ => rfl⟩

theorem ActiveOnly.frame {α : Type} {k k' : Kernel} (h : ActiveOnly k k') (g : Kernel → α)
    (hg : ∀ t m, g { k with procTable := t, mem := m } = g k) : g k' = g k := by
  rw [h.table, hg]

theorem ActiveOnly.of_modifyProc {k : Kernel} {i : Fin procMax} {f : Proc → Proc}
    (hact : k.activeProc = some i) (hpid : ∀ p, (f p).pid = p.pid)
    (hstate : ∀ p, (f p).state = p.state) (htime : ∀ p, (f p).sleepTime = p.sleepTime) :
    ActiveOnly k (k.modifyProc i f) := by
  refine ⟨rfl, fun j hj => ?_, same_of_update Proc.pid rfl (hpid _),
    same_of_update Proc.state rfl (hstate _), same_of_update Proc.sleepTime rfl (htime _)⟩
  exact modifyProc_ne k f fun he => hj (he ▸ hact)

end Kernel
end UnivOS
