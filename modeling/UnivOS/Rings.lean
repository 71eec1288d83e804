import UnivOS.Attached
import UnivOS.IoCount
import UnivOS.Stores
import UnivOS.Terminals

/-! # The rings of the terminals

What a system call does to them: only `io_read`, `io_write` and `io_flush` touch a ring,
and only one that the active process is attached to. What they put in comes behind what
is there, and what they take out comes from the front.
-/
namespace UnivOS

/-- The terminal of a ring. -/
def IoRing.tty : IoRing → Fin ttyMax
  | .input i => i
  | .output i => i

namespace Kernel
open Word

variable {k k' : Kernel} {r q : IoRing} {rc : Int}

/-- A system call on a ring. -/
structure IoRequest where
  call : Syscall
  buf : BitVec 32
  size : BitVec 32
  ring : IoRing

/-- The active process's system call, if it is on a ring. -/
def ioRequest (k : Kernel) : Option IoRequest := do
  let proc ← k.activeProc
  let tf ← k.registers proc
  let call ← Syscall.ofNumber tf.eax
  let ring ← k.activeRing tf.ebx.toInt
  some ⟨call, tf.ecx, tf.edx, ring⟩

namespace IoRequest

/-- The bytes a request puts into its ring: all there are, or none if they do not fit. -/
def puts (k : Kernel) (q : IoRequest) : List Byte :=
  match q.call with
  | .ioWrite =>
    if (k.held q.ring + q.size.toNat) % 2 ^ 32 ≤ ringbufSize then
      (k.mem.bytes q.buf q.size.toNat).take (ringbufSize - k.held q.ring)
    else []
  | _ => []

/-- A byte of the request is for address 0. -/
def MeetsNull (k : Kernel) (q : IoRequest) : Prop :=
  RingbufT.MeetsNull q.buf (min q.size.toNat (k.held q.ring))

instance (k : Kernel) (q : IoRequest) : Decidable (q.MeetsNull k) :=
  inferInstanceAs (Decidable (RingbufT.MeetsNull ..))

/-- The bytes a request takes out of its ring: a read takes none for address 0. -/
def takes (k : Kernel) (q : IoRequest) : List Byte :=
  match q.call with
  | .ioRead =>
    (k.ring q.ring).toList.take (if q.MeetsNull k then q.size.toNat - 1 else q.size.toNat)
  | .ioFlush => (k.ring q.ring).toList
  | _ => []

end IoRequest

/-- The bytes the active process's system call puts into a ring. -/
def putIn (k : Kernel) (r : IoRing) : List Byte :=
  match k.ioRequest with
  | none => []
  | some q => if q.ring = r then q.puts k else []

/-- The bytes it takes out of a ring. -/
def takenOut (k : Kernel) (r : IoRing) : List Byte :=
  match k.ioRequest with
  | none => []
  | some q => if q.ring = r then q.takes k else []

theorem setRing_ring_ne (k : Kernel) (b : Ringbuf) (h : r ≠ q) : (k.setRing b q).ring r = k.ring r := by
  cases q <;> cases r <;> simp only [setRing, ring, modifyTty, Function.update_apply] <;> split <;>
    simp_all

/-- What a system call does to the terminals: it moves bytes on the ring it is about. -/
inductive Transfers (k : Kernel) (k' : Kernel) : Prop
  | nothing (ttys : k'.ttys = k.ttys) (takes : ∀ q, k.ioRequest = some q → q.takes k = [])
      (puts : ∀ q, k.ioRequest = some q → q.puts k = [])
  | moves (q : IoRequest) (b : Ringbuf) (request : k.ioRequest = some q)
      (ttys : k'.ttys = (k.setRing b q.ring).ttys)
      (bytes : q.takes k ++ b.toList = (k.ring q.ring).toList ++ q.puts k)

theorem ring_congr (h : k'.ttys = k.ttys) (r : IoRing) : k'.ring r = k.ring r := by
  cases r <;> simp only [ring, h]

/-- In every ring, what is taken out and what stays is what was there and what is put in. -/
theorem Transfers.ring (h : Transfers k k') (r : IoRing) :
    k.takenOut r ++ (k'.ring r).toList = (k.ring r).toList ++ k.putIn r := by
  unfold takenOut putIn
  cases h with
  | nothing ttys takes puts =>
    rw [ring_congr ttys]
    cases hq : k.ioRequest with
    | none => simp
    | some q => simp [takes q hq, puts q hq]
  | moves q b request ttys bytes =>
    rw [ring_congr ttys, request]
    dsimp only
    by_cases hr : q.ring = r
    · subst hr
      rw [if_pos rfl, if_pos rfl, setRing_ring]
      exact bytes
    · rw [if_neg hr, if_neg hr, setRing_ring_ne k b (Ne.symm hr), List.nil_append, List.append_nil]

/-- The system calls on rings. -/
def OnRing : Syscall → Prop
  | .ioRead | .ioWrite | .ioFlush => True
  | _ => False

theorem ksyscall_sameTtys (ht : TableOk k) {tf : Trapframe} {call : Syscall} (hcall : ¬ OnRing call)
    (h : k.ksyscall tf call = .ok (rc, k')) : k'.ttys = k.ttys := by
  cases hev : call.event tf with
  | some ev =>
    rw [ksyscall_event hev] at h
    have hsys : ev ≠ .syscall := by
      rintro rfl
      cases call <;> cases hev
    have htick : ev ≠ .tick := by
      rintro rfl
      cases call <;> cases hev
    exact (handle_files ht htick h).ttys hsys
  | none =>
    cases call with
    | ioRead | ioWrite | ioFlush => exact absurd trivial hcall
    | sysGetTime | procGetPid =>
      cases h
      rfl
    | sysGetName =>
      rw [eq_of_ok h, ksyscallSysGetName]
      split <;> rfl
    | procGetName =>
      have h' : k.ksyscallProcGetName tf.ebx = .ok (rc, k') := h
      unfold ksyscallProcGetName at h'
      split at h'
      · cases h'
        rfl
      · split at h'
        · cases h'
        · cases h'
          rfl
    | procSleep | procExit | mutexInit | mutexDestroy | mutexLock | mutexUnlock | semInit
    | semDestroy | semPost | semWait => cases hev

theorem takes_of_not_onRing {q : IoRequest} (h : ¬ OnRing q.call) : q.takes k = [] ∧ q.puts k = [] := by
  obtain ⟨call, buf, size, ring⟩ := q
  cases call with
  | ioRead | ioWrite | ioFlush => exact absurd trivial h
  | _ => exact ⟨rfl, rfl⟩

theorem setRing_steady (h : k.ttys.Steady) (b : Ringbuf) (r : IoRing) : (k.setRing b r).ttys.Steady := by
  cases r with
  | input i => exact h.setTty ((h.tty i).withRings b (k.ttys.ttyTable i).ioOutput) rfl
  | output i => exact h.setTty ((h.tty i).withRings (k.ttys.ttyTable i).ioInput b) rfl

theorem Transfers.steady (h : Transfers k k') (hs : k.ttys.Steady) : k'.ttys.Steady := by
  cases h with
  | nothing ttys takes puts => exact ttys ▸ hs
  | moves q b request ttys bytes => exact ttys ▸ setRing_steady hs b q.ring

theorem Transfers.usable (h : Transfers k k') (hs : k.ttys.Usable) : k'.ttys.Usable := by
  refine ⟨h.steady hs.toSteady, ?_⟩
  cases h with
  | nothing ttys takes puts => exact ttys ▸ hs.cursor
  | moves q b request ttys bytes =>
    rw [ttys]
    cases q.ring with
    | input i =>
      exact (hs.setTty ((hs.tty i).withRings b (k.ttys.ttyTable i).ioOutput) rfl (hs.cursor i)).cursor
    | output i =>
      exact (hs.setTty ((hs.tty i).withRings (k.ttys.ttyTable i).ioInput b) rfl (hs.cursor i)).cursor

theorem Transfers.congr {k'' : Kernel} (h : Transfers k k') (ht : k''.ttys = k'.ttys) :
    Transfers k k'' := by
  cases h with
  | nothing ttys takes puts => exact .nothing (ht.trans ttys) takes puts
  | moves q b request ttys bytes => exact .moves q b request (ht.trans ttys) bytes

/-- A system call on a ring makes its transfers. -/
theorem ksyscall_transfers {tf : Trapframe} {call : Syscall} (hon : OnRing call)
    (hrequest : k.ioRequest =
      (k.activeRing tf.ebx.toInt).map fun ring => ⟨call, tf.ecx, tf.edx, ring⟩)
    (h : k.ksyscall tf call = .ok (rc, k')) : Transfers k k' := by
  cases hr : k.activeRing tf.ebx.toInt with
  | none =>
    rw [hr, Option.map_none] at hrequest
    have hsame : k' = k := by
      cases call with
      | ioRead => rw [eq_of_ok h, ksyscallIoRead, hr]
      | ioWrite => rw [eq_of_ok h, ksyscallIoWrite, hr]
      | ioFlush => rw [eq_of_ok h, ksyscallIoFlush, hr]
      | _ => exact hon.elim
    exact .nothing (by rw [hsame]) (by simp [hrequest]) (by simp [hrequest])
  | some r =>
    rw [hr, Option.map_some] at hrequest
    cases call with
    | ioRead =>
      have hl : ((k.ring r).ringbufReadMemTo tf.ecx tf.edx.toNat k.mem).2.2.toList =
          (k.ring r).toList.drop
            (if RingbufT.MeetsNull tf.ecx (min tf.edx.toNat (k.held r)) then tf.edx.toNat - 1
            else tf.edx.toNat) := by
        split
        · rename_i hnull
          exact (Ringbuf.ringbufReadMemTo_short k.mem hnull).2
        · rename_i hnull
          exact (Ringbuf.ringbufReadMemTo_whole k.mem hnull).2.2
      rw [eq_of_ok h, ksyscallIoRead, hr]
      refine .moves _ _ hrequest rfl ?_
      show (k.ring r).toList.take _ ++ _ = _ ++ []
      rw [hl, List.append_nil]
      exact List.take_append_drop ..
    | ioFlush =>
      rw [eq_of_ok h, ksyscallIoFlush, hr]
      exact .moves _ _ hrequest rfl rfl
    | ioWrite =>
      rw [eq_of_ok h, ksyscallIoWrite, hr]
      dsimp only
      cases hb : (k.ring r).ringbufWriteMem (fun i => k.mem (tf.ecx + BitVec.ofNat 32 i))
          tf.edx.toNat with
      | none =>
        have hover := Ringbuf.ringbufWriteMem_none.mp hb
        refine .nothing rfl (fun q hq => ?_) fun q hq => ?_
        · cases hrequest.symm.trans hq
          rfl
        · cases hrequest.symm.trans hq
          exact if_neg (Nat.not_le.mpr hover)
      | some b =>
        have hfits : (k.held r + tf.edx.toNat) % 2 ^ 32 ≤ ringbufSize := by
          refine Nat.le_of_not_lt fun hlt => ?_
          rw [Ringbuf.ringbufWriteMem_none.mpr hlt] at hb
          cases hb
        refine .moves _ b hrequest rfl ?_
        show [] ++ _ = (k.ring r).toList ++ if _ then _ else _
        rw [if_pos hfits, List.nil_append]
        exact Ringbuf.ringbufWriteMem_take hb
    | _ => exact hon.elim

/-- A system call that returns has made its transfers. -/
theorem ksyscallIrqHandler_transfers (ht : TableOk k) (h : k.ksyscallIrqHandler = .ok (rc, k')) :
    Transfers k k' := by
  obtain ⟨proc, tf, call, k₁, hact, htf, hcall, h₁, rfl⟩ := ksyscallIrqHandler_call h
  have hrequest : k.ioRequest =
      (k.activeRing tf.ebx.toInt).map fun ring => ⟨call, tf.ecx, tf.edx, ring⟩ := by
    simp only [ioRequest, hact, htf, hcall, Option.bind_eq_bind, Option.bind_some]
    cases k.activeRing tf.ebx.toInt <;> rfl
  refine Transfers.congr ?_ (setResult_sameFiles k₁ rc).ttys
  by_cases hon : OnRing call
  · exact ksyscall_transfers hon hrequest h₁
  · have hidle : ∀ q, k.ioRequest = some q → ¬ OnRing q.call := by
      intro q hq
      rw [hrequest] at hq
      obtain ⟨r, _, rfl⟩ := Option.map_eq_some_iff.mp hq
      exact hon
    exact .nothing (ksyscall_sameTtys ht hon h₁) (fun q hq => (takes_of_not_onRing (hidle q hq)).1)
      fun q hq => (takes_of_not_onRing (hidle q hq)).2

/-! ## What the process sees -/

/-- The buffer of a read is nowhere at address 0, and apart from the caller's trapframe,
which the result goes to. -/
structure IoRequest.Apart (k : Kernel) (q : IoRequest) : Prop where
  null : ¬ q.MeetsNull k
  frame : ∀ proc, k.activeProc = some proc → ∀ a : Ptr, (k.procTable proc).trapframe = some a →
    ∀ n < Trapframe.size, (q.takes k).length ≤ (a + BitVec.ofNat 32 n - q.buf).toNat

/-- The reader finds the bytes that are taken out in its buffer, and their number in the
result. -/
structure Reads (k k' : Kernel) (q : IoRequest) (rc : Int) : Prop where
  result : rc = (q.takes k).length
  stored : k'.mem.bytes q.buf (q.takes k).length = q.takes k

/-- The result of a system call reaches no other byte than those of a trapframe. -/
theorem setResult_bytes {addr : BitVec 32} {n : Nat} (hn : n ≤ 2 ^ 32)
    (h : ∀ proc, k.activeProc = some proc → ∀ a : Ptr, (k.procTable proc).trapframe = some a →
      ∀ j < Trapframe.size, n ≤ (a + BitVec.ofNat 32 j - addr).toNat)
    (hframe : ∀ proc, k.activeProc = some proc → (k.procTable proc).trapframe ≠ none) :
    (k.setResult rc).mem.bytes addr n = k.mem.bytes addr n := by
  cases hact : k.activeProc with
  | none => rw [setResult, hact]
  | some proc =>
    obtain ⟨a, ha⟩ := Option.ne_none_iff_exists'.mp (hframe proc hact)
    have hsize : Trapframe.size = 64 := rfl
    have heax : Trapframe.eaxOffset = 44 := rfl
    simp only [setResult, hact, ha, address, Option.map_some, Option.getD_some, Memory.bytes]
    refine List.map_congr_left fun i hi => Ia32.store_ne k.mem _ (Nat.le_of_not_lt fun hlt => ?_)
    have hi' := List.mem_range.mp hi
    let d := (addr + BitVec.ofNat 32 i - (a + Trapframe.eaxOffset)).toNat
    have hd := h proc hact a ha (44 + d) (by omega)
    have hoffset : (a.val + BitVec.ofNat 32 (44 + d) - addr).toNat = i := by
      have hdd : d < 4 := hlt
      have hdef : d = (addr + BitVec.ofNat 32 i - (a.val + 44)).toNat := rfl
      generalize a.val = b at *
      clear_value d
      bv_omega
    omega

theorem ksyscallIrqHandler_reads {q : IoRequest} (hq : k.ioRequest = some q)
    (hread : q.call = .ioRead) (hapart : q.Apart k) (h : k.ksyscallIrqHandler = .ok (rc, k')) :
    Reads k k' q rc := by
  obtain ⟨proc, tf, call, k₁, hact, htf, hcall, h₁, rfl⟩ := ksyscallIrqHandler_call h
  simp only [ioRequest, hact, htf, hcall, Option.bind_eq_bind, Option.bind_some] at hq
  cases hr : k.activeRing tf.ebx.toInt with
  | none =>
    rw [hr] at hq
    cases hq
  | some r =>
    rw [hr] at hq
    cases hq
    obtain rfl : call = .ioRead := hread
    have htakes : IoRequest.takes k ⟨.ioRead, tf.ecx, tf.edx, r⟩ =
        (k.ring r).toList.take tf.edx.toNat := by
      show (k.ring r).toList.take (if IoRequest.MeetsNull k _ then _ else _) = _
      rw [if_neg hapart.null]
    have hframe := hapart.frame
    rw [htakes] at hframe
    obtain ⟨hresult, _, hmem⟩ := ksyscallIoRead_ring hr hapart.null
    have hlen : ((k.ring r).toList.take tf.edx.toNat).length ≤ 2 ^ 32 := by
      have hring : (k.ring r).toList.length ≤ 2048 := (k.ring r).length_le
      rw [List.length_take]
      omega
    have hrc : (k.ksyscallIoRead tf.ebx.toInt tf.ecx tf.edx).1 = rc :=
      congrArg Prod.fst (Except.ok.inj h₁)
    have hnone : Syscall.ioRead.event tf = none := rfl
    obtain ⟨ttys, mem, hk₁⟩ := ksyscall_frame hnone h₁
    refine ⟨by rw [htakes]; exact hrc.symm.trans hresult, ?_⟩
    rw [htakes]
    show (k₁.setResult rc).mem.bytes tf.ecx _ = _
    rw [setResult_bytes hlen]
    · rw [eq_of_ok h₁]
      show Memory.bytes (k.ksyscallIoRead _ _ _).2.mem _ _ = _
      rw [hmem]
      exact Memory.bytes_write k.mem tf.ecx hlen
    · rw [hk₁]
      exact hframe
    · rw [hk₁]
      intro p hp hnone
      cases hact.symm.trans hp
      have hnone' : (k.procTable proc).trapframe = none := hnone
      rw [registers, hnone'] at htf
      cases htf

theorem schedulerRun_mem (h : k.schedulerRun = .ok k') : k'.mem = k.mem :=
  (schedulerRun_sameMem h).mem

end Kernel
end UnivOS
