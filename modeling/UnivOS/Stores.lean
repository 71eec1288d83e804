import UnivOS.Bystander

/-! # What the kernel stores in memory

The scheduler, the mutexes and the terminals leave memory alone. A process is created
and destroyed with its stack, a semaphore that blocks stores through a null pointer, and
a system call stores what it is asked for in the buffer it is given. So the stack of a
process that stays is the same but for the buffers that reach into it.
-/
namespace UnivOS
namespace Kernel
open Word

/-- The address is on the stack of process table entry `i`. -/
def InStack (cpu : Cpu) (i : Fin procMax) (x : BitVec 32) : Prop :=
  (x - stack cpu i).toNat < procStackSize

/-- Memory and machine are the same. -/
structure SameMem (k k' : Kernel) : Prop where
  mem : k'.mem = k.mem
  cpu : k'.cpu = k.cpu

/-- The stack of process table entry `i` is the same. -/
structure SameStack (k k' : Kernel) (i : Fin procMax) : Prop where
  bytes : ∀ x, InStack k.cpu i x → k'.mem x = k.mem x
  cpu : k'.cpu = k.cpu

variable {k k' k'' : Kernel} {cpu : Cpu} {i j : Fin procMax} {x : BitVec 32} {rc : Int}
  {tf : Trapframe} {call : Syscall}

/-! ## The stacks -/

theorem InStack.toNat (h : InStack cpu i x) :
    x.toNat = cpu.procStack.toNat + i * procStackSize + (x - stack cpu i).toNat := by
  have haddr := stack_add_toNat cpu i h
  rwa [BitVec.ofNat_toNat, BitVec.setWidth_eq, BitVec.add_comm, BitVec.sub_add_cancel] at haddr

/-- No address is on two stacks. -/
theorem InStack.unique (h : InStack cpu i x) (h' : InStack cpu j x) : i = j := by
  have hi := h.toNat
  have hj := h'.toNat
  have hlt : (x - stack cpu i).toNat < 8192 := h
  have hlt' : (x - stack cpu j).toNat < 8192 := h'
  have hsize : procStackSize = 8192 := rfl
  rw [hsize] at hi hj
  exact Fin.ext (by omega)

theorem InStack.low (h : InStack cpu i x) : 8 ≤ x.toNat := by
  have hstart := cpu.procStack_start
  have hx := h.toNat
  omega

/-- The stacks are none of the kernel's objects. -/
theorem InStack.kernelData (h : InStack cpu i x) : cpu.kernelData x = false := by
  refine cpu.procStack_data x ?_
  have hx := h.toNat
  have hlt : (x - stack cpu i).toNat < 8192 := h
  have hi : (i : Nat) < 20 := i.isLt
  have hsize : procStackSize = 8192 := rfl
  have hmax : procMax = 20 := rfl
  rw [hsize] at hx
  rw [hsize, hmax]
  bv_omega

theorem inStack_add {n : Nat} (hn : n < procStackSize) :
    InStack cpu i (stack cpu i + BitVec.ofNat 32 n) := by
  have hsize : procStackSize = 8192 := rfl
  unfold InStack
  generalize stack cpu i = s
  bv_omega

/-! ## Functions that store nothing -/

theorem SameMem.refl (k : Kernel) : SameMem k k := ⟨rfl, rfl⟩

theorem SameMem.trans (h : SameMem k k') (h' : SameMem k' k'') : SameMem k k'' :=
  ⟨h'.mem.trans h.mem, h'.cpu.trans h.cpu⟩

theorem schedulerAdd_sameMem (h : k.schedulerAdd (some i) = .ok k') : SameMem k k' := by
  obtain ⟨q, rfl, _⟩ := schedulerAdd_eq h
  exact ⟨rfl, rfl⟩

theorem schedulerRemove_sameMem (h : k.schedulerRemove (some i) = .ok k') : SameMem k k' := by
  obtain ⟨r, s, _, _, hk⟩ := k.schedulerRemove_eq i
  cases hk.symm.trans h
  exact ⟨rfl, rfl⟩

theorem schedulerSleep_sameMem {time : Int} (h : k.schedulerSleep (some i) time = .ok k') :
    SameMem k k' := by
  cases schedulerSleep_cases h with
  | again _ => exact ⟨rfl, rfl⟩
  | sleeps k₁ _ _ hrem hmoved =>
    have hsame := schedulerRemove_sameMem hrem
    rw [hmoved]
    exact ⟨hsame.mem, hsame.cpu⟩

theorem accountActive_sameMem (k : Kernel) : SameMem k k.accountActive := by
  unfold accountActive
  split <;> exact ⟨rfl, rfl⟩

theorem tick_sameMem (h : k.tick = .ok k') : SameMem k k' := by
  have hacc := accountActive_sameMem { k with timerTicks := wrap32 (k.timerTicks + 1) }
  refine Loop.live_inv (fun k' => SameMem k k') ?_ _ _ ⟨hacc.mem, hacc.cpu⟩ h
  intro s t hs hst
  refine hs.trans ?_
  cases timerBody_cases hst <;> exact ⟨rfl, rfl⟩

theorem schedulerRun_sameMem (h : k.schedulerRun = .ok k') : SameMem k k' := by
  obtain ⟨k₁, h₁, h₂⟩ := Loop.bind_eq_ok.mp h
  have hout : SameMem k k₁ := by
    cases scheduleOut_cases h₁ <;> exact ⟨rfl, rfl⟩
  have hin : SameMem k₁ k' := by
    cases scheduleIn_cases h₂ <;> exact ⟨rfl, rfl⟩
  exact hout.trans hin

theorem mutexCall_sameMem {call : MutexCall} (h : k.mutexCall call = .ok (rc, k')) :
    SameMem k k' := by
  cases call with
  | init =>
    obtain ⟨f, q, hk⟩ := kmutexInit_frame k
    rw [eq_of_ok h, hk]
    exact ⟨rfl, rfl⟩
  | destroy id =>
    obtain ⟨f, q, hk⟩ := kmutexDestroy_frame k id
    rw [eq_of_ok h, hk]
    exact ⟨rfl, rfl⟩
  | lock id =>
    have h' : k.kmutexLock id = .ok (rc, k') := h
    cases hi : index mutexMax id with
    | none =>
      rw [kmutexLock, hi] at h'
      cases h'
      exact .refl k
    | some m =>
      rw [index_eq_some.mp hi] at h'
      cases (kmutexLock_cases h').2 with
      | acquires _ same => rw [same]; exact ⟨rfl, rfl⟩
      | counts _ _ same => rw [same]; exact ⟨rfl, rfl⟩
      | blocks _ _ _ _ _ same => rw [same]; exact ⟨rfl, rfl⟩
  | unlock id =>
    have h' : k.kmutexUnlock id = .ok (rc, k') := h
    cases hi : index mutexMax id with
    | none =>
      rw [kmutexUnlock, hi] at h'
      cases h'
      exact .refl k
    | some m =>
      rw [index_eq_some.mp hi] at h'
      cases kmutexUnlock_cases h' with
      | refused _ same => rw [same]; exact .refl k
      | frees _ _ _ same => rw [same]; exact ⟨rfl, rfl⟩
      | keeps _ _ _ _ same => rw [same]; exact ⟨rfl, rfl⟩
      | handsOff _ _ _ _ _ _ _ _ same => rw [same]; exact ⟨rfl, rfl⟩

/-! ## Functions that store on other stacks, or on none -/

theorem SameMem.sameStack (h : SameMem k k') (i : Fin procMax) : SameStack k k' i :=
  ⟨fun x _ => congrFun h.mem x, h.cpu⟩

theorem SameStack.refl (k : Kernel) (i : Fin procMax) : SameStack k k i :=
  (SameMem.refl k).sameStack i

theorem SameStack.trans (h : SameStack k k' i) (h' : SameStack k' k'' i) : SameStack k k'' i :=
  ⟨fun x hx => (h'.bytes x (by rw [h.cpu]; exact hx)).trans (h.bytes x hx), h'.cpu.trans h.cpu⟩

/-- A stack is cleared for its own process. -/
theorem fill_stack_ne (m : Memory) (hx : InStack cpu i x) (hne : i ≠ j) :
    m.fill (stack cpu j) procStackSize 0 x = m x :=
  Memory.fill_ne (Nat.le_of_not_lt fun hj => hne (hx.unique hj))

theorem firstFrame_inStack {n : Nat} (hn : n < Trapframe.size) :
    InStack cpu i ((firstFrame cpu i).val + BitVec.ofNat 32 n) := by
  have hsize : Trapframe.size = 64 := rfl
  have hstack : procStackSize = 8192 := rfl
  have haddr : (firstFrame cpu i).val + BitVec.ofNat 32 n =
      stack cpu i + BitVec.ofNat 32 (procStackSize - Trapframe.size + n) := by
    rw [BitVec.ofNat_add, ← BitVec.add_assoc]
    rfl
  rw [haddr]
  exact inStack_add (by omega)

theorem newStack_ne (k : Kernel) (ptr : BitVec 32) (hx : InStack k.cpu i x) (hne : i ≠ j) :
    k.newStack j ptr x = k.mem x := by
  have hframe : Trapframe.size ≤ (x - (firstFrame k.cpu j).val).toNat := by
    refine Nat.le_of_not_lt fun hlt => hne (hx.unique ?_)
    have hin : InStack k.cpu j _ := firstFrame_inStack hlt
    rwa [BitVec.ofNat_toNat, BitVec.setWidth_eq, BitVec.add_comm, BitVec.sub_add_cancel] at hin
  rw [newStack, Trapframe.write_ne _ _ hframe, fill_stack_ne k.mem hx hne]

theorem kprocCreate_sameStack (ht : TableOk k) (hi : k.Live i) {ptr : BitVec 32}
    {name : Option (List Byte)} {type : ProcType} (h : k.kprocCreate ptr name type = .ok (rc, k')) :
    SameStack k k' i := by
  rcases kprocCreate_ok h with ⟨_, _, rfl⟩ | ⟨j, q, name', _, hq, _, _, hadd⟩
  · exact .refl k' i
  · have hfree := ht.alloc.mem_val (i := j)
    rw [hq] at hfree
    have hne : i ≠ j := fun he => hfree.mp List.mem_cons_self (he ▸ hi)
    have hallot : SameStack k (k.allotProc j (k.newProc j name' type) q (k.newStack j ptr)) i :=
      ⟨fun x hx => newStack_ne k ptr hx hne, rfl⟩
    exact hallot.trans ((schedulerAdd_sameMem hadd).sameStack i)

theorem kprocDestroy_sameStack (ht : TableOk k) (hj : k.Live j) (hi : k'.Live i)
    (h : k.kprocDestroy (some j) = .ok (rc, k')) : SameStack k k' i := by
  rcases kprocDestroy_cases ht hj h with ⟨_, _, rfl⟩ | ⟨k₁, q, _, _, h₁, _, rfl⟩
  · exact .refl k' i
  · have hne := (freeProc_live.mp hi).2
    refine ((schedulerRemove_sameMem h₁).sameStack i).trans ⟨fun x hx => ?_, rfl⟩
    exact fill_stack_ne k₁.mem hx hne

theorem semCall_sameStack {call : SemCall} (h : k.semCall call = .ok (rc, k')) :
    SameStack k k' i := by
  cases call with
  | init value =>
    obtain ⟨f, q, hk⟩ := ksemInit_frame k value
    rw [eq_of_ok h, hk]
    exact ⟨fun _ _ => rfl, rfl⟩
  | destroy id =>
    obtain ⟨f, q, hk⟩ := ksemDestroy_frame k id
    rw [eq_of_ok h, hk]
    exact ⟨fun _ _ => rfl, rfl⟩
  | wait id =>
    cases ksemWait_effect h with
    | returns f same _ => rw [same]; exact ⟨fun _ _ => rfl, rfl⟩
    | blocks _ _ k₁ _ mem _ _ _ _ _ removes same low =>
      refine ((schedulerRemove_sameMem removes).sameStack i).trans ?_
      rw [same]
      exact ⟨fun x hx => low x hx.low, rfl⟩
  | post id =>
    cases ksemPost_effect h with
    | counts f same => rw [same]; exact ⟨fun _ _ => rfl, rfl⟩
    | wakes _ _ _ _ same => rw [same]; exact ⟨fun _ _ => rfl, rfl⟩

/-- Every event but a system call, on the stack of a process that outlives it. -/
theorem handle_sameStack (ht : TableOk k) (hi : k.Live i) (hi' : k'.Live i) {ev : Event}
    (hsys : ev ≠ .syscall) (h : k.handle ev = .ok (rc, k')) : SameStack k k' i := by
  cases ev with
  | tick =>
    obtain ⟨k₁, h₁, h₂⟩ := Loop.bind_eq_ok.mp h
    cases h₂
    exact (tick_sameMem h₁).sameStack i
  | create ptr name type => exact kprocCreate_sameStack ht hi h
  | destroy =>
    cases hact : k.activeProc with
    | none => rw [handle, hact] at h; cases h
    | some j =>
      rw [handle, hact] at h
      exact kprocDestroy_sameStack ht (ht.active_live j hact) hi' h
  | sleep time =>
    obtain ⟨k₁, h₁, h₂⟩ := Loop.bind_eq_ok.mp h
    cases h₂
    cases hact : k.activeProc with
    | none => rw [hact] at h₁; cases h₁
    | some j =>
      rw [hact] at h₁
      exact (schedulerSleep_sameMem h₁).sameStack i
  | mutex call => exact (mutexCall_sameMem h).sameStack i
  | sem call => exact semCall_sameStack h
  | syscall => exact absurd rfl hsys

/-! ## System calls -/

/-- The buffer a system call fills: its address and how many bytes it stores there. -/
def filled (k : Kernel) (tf : Trapframe) : Syscall → BitVec 32 × Nat
  | .ioRead =>
    match k.activeRing tf.ebx.toInt with
    | none => (tf.ecx, 0)
    | some r => (tf.ecx, RingbufT.transferred tf.ecx tf.edx.toNat (k.held r))
  | .sysGetName => (tf.ebx, if tf.ebx = 0 then 0 else osName.length + 1)
  | .procGetName => (tf.ebx, if tf.ebx = 0 then 0 else procNameLen)
  | _ => (0, 0)

/-- The address is outside the buffer the system call fills. -/
def Outside (k : Kernel) (tf : Trapframe) (call : Syscall) (x : BitVec 32) : Prop :=
  (k.filled tf call).2 ≤ (x - (k.filled tf call).1).toNat

theorem strncpy_length (src : List Byte) (n : Nat) : (strncpy src n).length = n := by
  rw [strncpy, List.length_append, List.length_replicate]
  have hle := List.length_take_le n (src.takeWhile (· != 0))
  omega

/-- The calls behind no event store in their buffer only. -/
theorem ksyscall_outside (hcall : call.event tf = none) (h : k.ksyscall tf call = .ok (rc, k'))
    (hx : k.Outside tf call x) : k'.mem x = k.mem x := by
  cases call with
  | ioRead =>
    rw [eq_of_ok h, ksyscallIoRead]
    split
    · rfl
    · rename_i r hr
      simp only [Outside, filled, hr] at hx
      exact Ringbuf.ringbufReadMemTo_other k.mem hx
  | ioWrite =>
    rw [eq_of_ok h, ksyscallIoWrite]
    split
    · rfl
    · split
      · rfl
      · obtain ⟨ttys, hset⟩ := setRing_frame k _ _
        dsimp only
        rw [hset]
  | ioFlush =>
    rw [eq_of_ok h, ksyscallIoFlush]
    split
    · rfl
    · obtain ⟨ttys, hset⟩ := setRing_frame k _ _
      dsimp only
      rw [hset]
  | sysGetTime => rw [eq_of_ok h]
  | sysGetName =>
    rw [eq_of_ok h, ksyscallSysGetName]
    split
    · rfl
    · rename_i hne
      simp only [Outside, filled, if_neg hne] at hx
      exact Memory.write_ne (by rw [strncpy_length]; exact hx)
  | procGetPid => rw [eq_of_ok h]
  | procGetName =>
    have h' : k.ksyscallProcGetName tf.ebx = .ok (rc, k') := h
    unfold ksyscallProcGetName at h'
    split at h'
    · cases h'
      rfl
    · rename_i hne
      simp only [Outside, filled, if_neg hne] at hx
      split at h'
      · cases h'
      · cases h'
        exact Memory.write_ne (by rw [strncpy_length]; exact hx)
  | procSleep => cases hcall
  | procExit => cases hcall
  | mutexInit => cases hcall
  | mutexDestroy => cases hcall
  | mutexLock => cases hcall
  | mutexUnlock => cases hcall
  | semInit => cases hcall
  | semDestroy => cases hcall
  | semPost => cases hcall
  | semWait => cases hcall

theorem event_ne_syscall {ev : Event} (h : call.event tf = some ev) : ev ≠ .syscall := by
  cases call <;> cases h <;> exact nofun

/-- What a system call leaves of the stack of a process that outlives it. -/
theorem ksyscall_stack (ht : TableOk k) (hi : k.Live i) (hi' : k'.Live i)
    (h : k.ksyscall tf call = .ok (rc, k')) :
    k'.cpu = k.cpu ∧ ∀ x, InStack k.cpu i x → k.Outside tf call x → k'.mem x = k.mem x := by
  cases hcall : call.event tf with
  | none =>
    refine ⟨?_, fun x _ hx => ksyscall_outside hcall h hx⟩
    obtain ⟨ttys, mem, rfl⟩ := ksyscall_frame hcall h
    rfl
  | some ev =>
    rw [ksyscall_event hcall] at h
    have hs := handle_sameStack ht hi hi' (event_ne_syscall hcall) h
    exact ⟨hs.cpu, fun x hx _ => hs.bytes x hx⟩

end Kernel
end UnivOS
