import UnivOS.Results
import UnivOS.UserCalls

/-! # Interrupted processes

A kernel run together with the processor. The kernel is entered with the memory and the
argument that `context.S` makes of an interrupt (`Arrives`), and left by a call of
`kernel_context_exit` for the active process (`Departs`). Whatever happens between an
interrupt and the next time the process is active, it goes on where it was, with the
result of a system call in `eax` and no other difference.
-/
namespace UnivOS
open Ia32
namespace Kernel

variable {k k' : Kernel} {i : Fin procMax} {tf : Trapframe} {call : Syscall} {rc : Int}
  {e : Entry} {tr mid : List KernelStep} {x : KernelStep}

/-! ## The trapframe a process resumes with -/

/-- The entry is a system call that its caller does not wait in. -/
def Answers (k : Kernel) (e : Entry) : Prop :=
  e.event = .syscall ∧ ∀ call, Syscall.ofNumber e.trapframe.eax = some call →
    ¬ k.Waits e.trapframe call

theorem entered_waits : (k.entered e).Waits tf call ↔ k.Waits tf call := by
  cases call <;> simp only [Waits, (entered_sameMutexes k e).mutexes, entered_semaphores]

/-- The dispatcher destroys its caller, or leaves it with the result; a caller that waits
keeps its registers. -/
theorem ksyscallIrqHandler_registers (ht : TableOk k) (hf : Framed k) (hact : k.activeProc = some i)
    (hstate : (k.procTable i).state = .active) (htf : k.registers i = some tf)
    (hb : ∀ call, Syscall.ofNumber tf.eax = some call → k.BufferClear tf call)
    (h : k.ksyscallIrqHandler = .ok (rc, k')) :
    ¬ k'.Live i ∨ SameProc k k' i ∧ ∃ call, Syscall.ofNumber tf.eax = some call ∧
      (¬ k.Waits tf call → k'.registers i = some (tf.setResult rc)) ∧
      (k.Waits tf call → k'.registers i = some tf) := by
  obtain ⟨call, k₁, hcall, h₁, rfl⟩ := ksyscallIrqHandler_ok hact htf h
  have hi := ht.active_live i hact
  have hkept : k₁.Live i → SameProc k (k₁.setResult rc) i ∧ k₁.HasFrame i ∧
      k₁.registers i = some tf := by
    intro hi₁
    have hs := ksyscall_undisturbed ht hi hi₁ (hf i hi) (hb call hcall) h₁
    exact ⟨hs.toSameProc.trans ((setResult_keeps k₁ rc).sameProc hi₁), hs.hasFrame (hf i hi),
      hs.registers.trans htf⟩
  cases ksyscall_effect ht hact hstate h₁ with
  | exits _ gone => exact .inl fun hl => gone (((setResult_sameTable k₁ rc).live i).mp hl)
  | returns kept same active =>
    obtain ⟨hs, hframe, hregs⟩ := hkept same.live
    exact .inr ⟨hs, call, hcall, fun _ => setResult_registers active hframe hregs,
      fun hw => absurd hw kept⟩
  | waits waits same active _ =>
    obtain ⟨hs, _, hregs⟩ := hkept same.live
    have hid : k₁.setResult rc = k₁ := by
      unfold setResult
      rw [active]
    refine .inr ⟨hs, call, hcall, fun hw => absurd waits hw, fun _ => ?_⟩
    rw [hid, hregs]

/-- The process is there with its trapframe at `a`, which holds the registers it made the
entry with and the result of a system call. -/
structure Saved (k : Kernel) (e : Entry) (rc : Int) (k' : Kernel) (i : Fin procMax) : Prop where
  live : k'.Live i
  frame : (k'.procTable i).trapframe = some e.frame
  answered : k.Answers e → k'.registers i = some (e.trapframe.setResult rc)
  kept : ¬ k.Answers e → k'.registers i = some e.trapframe

theorem Saved.undisturbed {k'' : Kernel} (h : Saved k e rc k' i) (hs : Undisturbed k' k'' i) :
    Saved k e rc k'' i :=
  ⟨hs.live, hs.trapframe.trans h.frame, fun ha => hs.registers.trans (h.answered ha),
    fun ha => hs.registers.trans (h.kept ha)⟩

/-- A handler destroys the active process, or leaves it with the registers it had and
the result of a system call. -/
theorem handler_saved (ht : TableOk k) (hf : Framed k) (ho : Harmless k e)
    (hact : k.activeProc = some i) (hstate : (k.procTable i).state = .active)
    (h : (k.entered e).handle e.event = .ok (rc, k')) : ¬ k'.Live i ∨ Saved k e rc k' i := by
  have ht₀ := (entered_sameTable k e).tableOk ht
  have hf₀ := hf.entered ho
  have hact₀ : (k.entered e).activeProc = some i := (entered_still k e).active.trans hact
  have hi := ht₀.active_live i hact₀
  have hframe : ((k.entered e).procTable i).trapframe = some e.frame := by rw [entered_self hact]
  have hregs := entered_registers hact e
  by_cases hlive : k'.Live i
  · by_cases hev : e.event = .syscall
    · rw [hev] at h
      rcases ksyscallIrqHandler_registers ht₀ hf₀ hact₀ (by rw [entered_self hact]; exact hstate)
        hregs (ho.buffer hev) h with hgone | ⟨hs, call, hcall, hr, hw⟩
      · exact .inl hgone
      · refine .inr ⟨hlive, hs.trapframe.trans hframe, fun ha => hr ?_, fun ha => hw ?_⟩
        · rw [entered_waits]
          exact ha.2 call hcall
        · by_contra hnot
          refine ha ⟨hev, fun call' hcall' => ?_⟩
          rw [hcall] at hcall'
          cases hcall'
          rwa [entered_waits] at hnot
    · have hs := handle_undisturbed ht₀ hi hlive (hf₀ i hi) hev h
      exact .inr ⟨hlive, hs.trapframe.trans hframe, fun ha => absurd ha.1 hev,
        fun _ => hs.registers.trans hregs⟩
  · exact .inl hlive

/-- After an entry the entry of the process is free or holds a newer process, or the
process has its registers. -/
theorem kernelContextEnter_saved (ht : TableOk k) (hf : Framed k) (ho : Harmless k e)
    (hact : k.activeProc = some i) (hstate : (k.procTable i).state = .active)
    (h : kernelContextEnter e k = .ok (rc, k')) :
    (k'.Live i → k.nextPid ≤ (k'.procTable i).pid) ∨ Saved k e rc k' i := by
  obtain ⟨k₁, h₁, h₂⟩ := kernelContextEnter_ok h
  have hent := entered_sameTable k e
  have ht₀ := hent.tableOk ht
  have ht₁ := handle_tableOk ht₀ h₁
  rcases handler_saved ht hf ho hact hstate h₁ with hgone | hsaved
  · refine .inl fun hp => ?_
    rcases (schedulerRun_grows ht₁ h₂).live i hp with ⟨hp₁, _⟩ | hnew
    · exact absurd hp₁ hgone
    · exact (hent.grows.trans (handle_grows ht₀ h₁)).nextPid.trans hnew
  · have hf₁ := handler_framed ht hf ho h₁ i hsaved.live
    exact .inr (hsaved.undisturbed (schedulerRun_undisturbed ht₁ hsaved.live hf₁ h₂))

/-- Process `i`, active when step `x` starts, is active for the first time again. -/
structure Returns (x : KernelStep) (mid : List KernelStep) (k : Kernel) (i : Fin procMax) :
    Prop where
  before : x.pre.activeProc = some i
  away : ∀ y ∈ mid, y.pre.activeProc ≠ some i
  active : k.activeProc = some i
  same : (k.procTable i).pid = (x.pre.procTable i).pid

theorem returns_saved (h : HarmlessRun (tr ++ x :: mid) k) (hr : Returns x mid k i) :
    Saved x.pre x.act.1 x.act.2 k i := by
  obtain ⟨hrun, ho, henter⟩ := run_step h
  have ht := tableOk_of_run hrun
  have hstate := active_state_of_run hrun i hr.before
  rcases kernelContextEnter_saved ht (framed_of_run hrun) ho hr.before hstate henter with
    hnew | hsaved
  · -- the process is gone, and nobody has its process id
    have hold := (ht.pid_range i (ht.active_live i hr.before)).2
    rw [← hr.same] at hold
    have hnext := (kernelContextEnter_grows ht henter).nextPid
    rcases (grows_of_run h).live i ((tableOk_of_run h).active_live i hr.active) with ⟨hi, hpid⟩ | hpid
    · have := hnew hi
      omega
    · omega
  · exact hsaved.undisturbed (undisturbed_of_run h hsaved.live hr.away)

/-! ## The process does not see the interrupt -/

section Processor

variable {p : Model} {gate : BitVec 16 × Word} {isr : Isr} {ret a : Word} {s t : State}

/-- The entry is what `context.S` makes of an interrupt in `s`: the argument of
`kernel_context_enter` and the memory it finds. -/
structure Arrives (p : Model) (gate : BitVec 16 × Word) (isr : Isr) (ret : Word) (k : Kernel)
    (s : State) (e : Entry) : Prop where
  frame : load (enterContext p gate isr k.cpu.kstack ret s).mem
    ((enterContext p gate isr k.cpu.kstack ret s).esp + 4) = e.frame
  mem : e.mem = (enterContext p gate isr k.cpu.kstack ret s).mem
  event : isr = .syscall → e.event = .syscall

/-- `kernel_context_exit` is called in `t` with the trapframe of the active process, and
memory is that of `k` but for the kernel's own objects and its stack. -/
structure Departs (k : Kernel) (t : State) : Prop where
  argument : ∀ i, k.activeProc = some i → load t.mem (t.esp + 4) = address (k.procTable i).trapframe
  memory : ∀ x, k.cpu.kernelData x = false → t.mem x = k.mem x

theorem Arrives.frame_eq (h : Arrives p gate isr ret k s e) : (e.frame : Word) = s.esp - 64 := by
  rw [← h.frame, enterContext_argument]

/-- The kernel stack is apart from the stacks of the processes. -/
theorem OnStack.room (h : OnStack k.cpu i (s.esp - 64)) : Room k.cpu.kstack s := by
  have hx := (h.inStack (n := 0) (by decide)).toNat
  have hzero : s.esp - 64 + BitVec.ofNat 32 0 = s.esp - 64 := BitVec.add_zero _
  rw [hzero] at hx
  have hsize : procStackSize = 8192 := rfl
  have hkstack : kstackSize = 16384 := rfl
  have hframe : Trapframe.size = 64 := rfl
  have hmax : procMax = 20 := rfl
  have hi : (i : Nat) < 20 := i.isLt
  have hstart := k.cpu.kstack_start
  have hend := k.cpu.procStack_end
  have hapart := k.cpu.kstack_apart
  have hfits : (s.esp - 64 - stack k.cpu i).toNat + 64 ≤ 8192 := h
  rw [hsize] at hx
  rw [hsize, hmax] at hend hapart
  rw [hkstack] at hapart hstart
  have hroom : 64 ≤ (k.cpu.kstack - 8 - (s.esp - 64)).toNat ∧
      (k.cpu.kstack - 8 - (s.esp - 64)).toNat + 8 ≤ 2 ^ 32 := by
    generalize s.esp - 64 = a at *
    generalize k.cpu.kstack = b at *
    constructor <;> bv_omega
  exact hroom

/-- The entry finds the registers of `s`. -/
theorem Arrives.saves (h : Arrives p gate isr ret k s e) (hon : OnStack k.cpu i e.frame) :
    e.trapframe.Saves s isr.irq := by
  rw [h.frame_eq] at hon
  obtain ⟨tf, hat, hsaves⟩ := (enterContext_entered p gate isr ret hon.room).frame
  rw [Entry.trapframe, h.mem, h.frame_eq, hat.read]
  exact hsaves

/-- The active process goes on with the registers the kernel has for it. -/
theorem Departs.exits (h : Departs k t) (hact : k.activeProc = some i) (hf : k.HasFrame i) {b : Ptr}
    (hb : (k.procTable i).trapframe = some b) (htf : k.registers i = some tf) :
    exitContext p t = tf.resume b t.mem := by
  obtain ⟨c, hc, hon⟩ := hf
  cases hc.symm.trans hb
  rw [registers, hb] at htf
  have hread : Trapframe.read t.mem b = tf := by
    rw [← Option.some.inj htf]
    exact Trapframe.read_congr fun n hn => h.memory _ (hon.inStack hn).kernelData
  have harg := h.argument i hact
  rw [hb] at harg
  refine exitContext_resumes p harg ?_
  rw [← hread]
  exact Trapframe.at_read ..

/-- What a process goes on with. -/
theorem Returns.resumes (hr : Returns x mid k i) (h : HarmlessRun (tr ++ x :: mid) k)
    (hs : Arrives p gate isr ret x.pre s x.act.1) (ht : Departs k t) :
    (x.pre.Answers x.act.1 →
        exitContext p t = { s.setReg .eax (BitVec.ofInt 32 x.act.2) with mem := t.mem }) ∧
      (¬ x.pre.Answers x.act.1 → exitContext p t = { s with mem := t.mem }) := by
  have hsaved := returns_saved h hr
  have hf := framed_of_run h i hsaved.live
  have hsaves := hs.saves ((run_step h).2.1.frame i hr.before)
  refine ⟨fun ha => ?_, fun ha => ?_⟩
  · rw [ht.exits hr.active hf hsaved.frame (hsaved.answered ha), hs.frame_eq,
      hsaves.resume_setResult]
  · rw [ht.exits hr.active hf hsaved.frame (hsaved.kept ha), hs.frame_eq, hsaves.resume]

/-- In every harmless run, a process that is interrupted in `s` and returned to in `t` goes on
in `s`, with the memory of `t` and, after a system call it did not wait in, the result in
`eax`. -/
theorem interrupt_transparent (h : HarmlessRun (tr ++ x :: mid) k) (hr : Returns x mid k i)
    (hs : Arrives p gate isr ret x.pre s x.act.1) (ht : Departs k t) :
    (x.pre.Answers x.act.1 →
        exitContext p t = { s.setReg .eax (BitVec.ofInt 32 x.act.2) with mem := t.mem }) ∧
      (¬ x.pre.Answers x.act.1 → exitContext p t = { s with mem := t.mem }) :=
  hr.resumes h hs ht

/-- Step `x` creates a process, which is active in entry `i` for the first time in `k`. -/
structure FirstRun (x : KernelStep) (mid : List KernelStep) (k : Kernel) (i : Fin procMax)
    (procPtr : BitVec 32) : Prop where
  created : ∃ name type, x.act.1.event = .create procPtr name type
  away : ∀ y ∈ mid, y.pre.activeProc ≠ some i
  active : k.activeProc = some i
  same : (k.procTable i).pid = x.act.2

/-- A process that has not run yet: its trapframe is at the end of its stack. -/
structure Unstarted (k : Kernel) (i : Fin procMax) (procPtr : BitVec 32) : Prop where
  live : k.Live i
  frame : (k.procTable i).trapframe = some (firstFrame k.cpu i)
  registers : k.registers i = some (newTrapframe k.cpu procPtr)

theorem Unstarted.undisturbed {ptr : BitVec 32} (h : Unstarted k i ptr) (hs : Undisturbed k k' i) :
    Unstarted k' i ptr :=
  ⟨hs.live, by rw [hs.cpu]; exact hs.trapframe.trans h.frame,
    by rw [hs.cpu]; exact hs.registers.trans h.registers⟩

theorem kprocCreate_unstarted {ptr : BitVec 32} {name : Option (List Byte)}
    {type : ProcType} (h : k.kprocCreate ptr name type = .ok (rc, k')) (hrc : rc ≠ -1) :
    k'.nextPid = k.nextPid + 1 ∧ rc = k.nextPid ∧
      ∃ j, (k'.procTable j).pid = rc ∧ Unstarted k' j ptr := by
  rcases kprocCreate_ok h with ⟨_, hnone, _⟩ | ⟨j, q, name', _, _, _, hrc', hadd⟩
  · exact absurd hnone hrc
  · have hlive : (k.allotProc j (k.newProc j name' type) q (k.newStack j ptr)).Live j :=
      allotProc_live.mpr (.inr ⟨rfl, nofun⟩)
    have hkeeps := schedulerAdd_keeps hlive hadd
    have hmem := schedulerAdd_sameMem hadd
    have hframe : (k'.procTable j).trapframe = some (firstFrame k.cpu j) := by
      rw [hkeeps.trapframe j, allotProc_self]
      rfl
    refine ⟨hkeeps.nextPid, hrc', j, ?_, (hkeeps.live j).mpr hlive, ?_, ?_⟩
    · rw [hkeeps.pid j, allotProc_self]
      exact hrc'.symm
    · rw [hmem.cpu]
      exact hframe
    · rw [Kernel.registers, hframe, hmem.mem, hmem.cpu]
      exact congrArg some (Trapframe.read_write ..)

/-- Pushing the trapframe and calling the kernel touches no other stack, so that an entry is
harmless if the code before it was. -/
theorem Arrives.harmless (h : Arrives p gate isr ret k s e) (hf : Framed k)
    (hact : k.activeProc = some i) (hon : OnStack k.cpu i (s.esp - 64))
    (hothers : ∀ j, k.Live j → j ≠ i →
      Kernel.registers { k with mem := s.mem } j = k.registers j)
    (hbuffer : e.event = .syscall → ∀ call, Syscall.ofNumber e.trapframe.eax = some call →
      (k.entered e).BufferClear e.trapframe call) : Harmless k e := by
  refine ⟨fun j hj => ?_, fun j hj hne => ?_, hbuffer⟩
  · cases hact.symm.trans hj
    rw [h.frame_eq]
    exact hon
  · have hij : j ≠ i := fun he => hne (he ▸ hact)
    obtain ⟨a, ha, hframe⟩ := hf j hj
    rw [← hothers j hj hij]
    refine registers_congr rfl fun b hb n hn => ?_
    cases ha.symm.trans hb
    have hin := hframe.inStack hn
    generalize a.val + BitVec.ofNat 32 n = y at *
    show e.mem y = s.mem y
    rw [h.mem]
    refine (enterContext_entered p gate isr ret hon.room).other y ?_ ?_
    · refine Nat.le_of_not_lt fun hlt => hij (hin.unique ?_)
      have hself := hon.inStack hlt
      rwa [BitVec.ofNat_toNat, BitVec.setWidth_eq, BitVec.add_comm, BitVec.sub_add_cancel] at hself
    · refine Nat.le_of_not_lt fun hlt => ?_
      have hdata := k.cpu.kstack_data y (by
        have hsize : kstackSize = 16384 := rfl
        bv_omega)
      rw [hin.kernelData] at hdata
      cases hdata

end Processor

/-- `kernel_context_enter` has called `kernel_context_exit`. -/
def departure (k : Kernel) (s : State) : State :=
  { s.setReg .esp (k.cpu.kstack - 8) with
    mem := store k.mem (k.cpu.kstack - 4)
      (address (k.activeProc.bind fun i => (k.procTable i).trapframe)) }

theorem departure_departs (k : Kernel) (s : State) : Departs k (k.departure s) := by
  refine ⟨fun i hi => ?_, fun y hy => store_ne _ _ (Nat.le_of_not_lt fun hlt => ?_)⟩
  · have hesp : (k.departure s).esp = k.cpu.kstack - 8 := rfl
    have harg : k.cpu.kstack - 8 + 4 = k.cpu.kstack - 4 := by bv_omega
    have hmem : (k.departure s).mem = store k.mem (k.cpu.kstack - 4)
        (address (k.procTable i).trapframe) := by rw [departure, hi]; rfl
    rw [hesp, harg, hmem, load_store_self]
  · have hdata := k.cpu.kstack_data y (by
      have hsize : kstackSize = 16384 := rfl
      bv_omega)
    rw [hy] at hdata
    cases hdata

/-- Process 1 at an interrupt: it has run `code` in the state `plainState`. -/
def sampleState (k : Kernel) (code : List Instr) : State :=
  run plainModel code { plainState with mem := k.mem }

/-- What the kernel is entered with then. -/
def sampleEntry (k : Kernel) (code : List Instr) (isr : Isr) (event : Event) : Entry :=
  { frame := ⟨0x10000 - 64, by decide⟩
    mem := (enterContext plainModel (8, 0x4000) isr k.cpu.kstack 0x5000 (k.sampleState code)).mem
    event }

/-- Whether process 1 can be entered so, with result `rc`, and is returned to at once. -/
def returnsTest (code : List Instr) (isr : Isr) (event : Event) (rc : Int) (k : Kernel) : Bool :=
  (kernelContextEnter (k.sampleEntry code isr event) k).toOption.any fun r =>
    decide (r.1 = rc ∧ k.activeProc = some ⟨1, one_lt_procMax⟩ ∧
      OnStack k.cpu ⟨1, one_lt_procMax⟩ ((k.sampleState code).esp - 64) ∧
      (k.sampleState code).esp - 64 = 0x10000 - 64 ∧
      r.2.activeProc = some ⟨1, one_lt_procMax⟩ ∧
      (r.2.procTable ⟨1, one_lt_procMax⟩).pid = (k.procTable ⟨1, one_lt_procMax⟩).pid)

theorem returns_of_test (code : List Instr) (isr : Isr) (event : Event) (rc : Int)
    (hmoves : ∀ m, (run plainModel code { plainState with mem := m }).mem = m)
    (hcall : isr = .syscall → event = .syscall)
    (hbuffer : event = .syscall → ∀ k : Kernel, ∀ call,
      Syscall.ofNumber ((k.sampleState code).reg .eax) = some call →
        call ∉ [.ioRead, .sysGetName, .procGetName])
    (h : harmlessTest (kernelInit Image.blank) (List.replicate 11 Event.tick.occurs)
      (fun _ k => returnsTest code isr event rc k) = true) :
    ∃ tr x k, HarmlessRun (tr ++ [x]) k ∧ Returns x [] k ⟨1, one_lt_procMax⟩ ∧
      x.act = (x.pre.sampleEntry code isr event, rc) ∧
      Arrives plainModel (8, 0x4000) isr 0x5000 x.pre (x.pre.sampleState code) x.act.1 := by
  obtain ⟨tr, k, hrun, hP⟩ := harmlessRun_of_test Image.blank _ _ h
  rw [returnsTest, Option.any_eq_true] at hP
  obtain ⟨r, hr, hP⟩ := hP
  cases hk : kernelContextEnter (k.sampleEntry code isr event) k with
  | error halt => rw [hk] at hr; cases hr
  | ok r' =>
    rw [hk] at hr
    cases hr
    obtain ⟨hrc, hbefore, hon, hesp, hactive, hsame⟩ := of_decide_eq_true hP
    have harrives : Arrives plainModel (8, 0x4000) isr 0x5000 k (k.sampleState code)
        (k.sampleEntry code isr event) := by
      refine ⟨?_, rfl, hcall⟩
      rw [enterContext_argument, hesp]
      rfl
    have hharmless : Harmless k (k.sampleEntry code isr event) := by
      have heax := (harrives.saves (by rw [harrives.frame_eq]; exact hon)).reg .eax nofun
      refine harrives.harmless (framed_of_run hrun) hbefore hon (fun j _ _ => ?_)
        fun hev call hc => bufferClear_of_unfilling (hbuffer hev k call ?_)
      · rw [sampleState, hmoves]
      · rw [← heax]
        exact hc
    refine ⟨tr, ⟨k, (_, r.1), r.2⟩, r.2, .snoc hrun ⟨hharmless, hk⟩,
      ⟨hbefore, List.forall_mem_nil _, hactive, hsame⟩, congrArg (Prod.mk _) hrc, harrives⟩

/-- Process 1 is interrupted by the timer and goes on as if nothing had happened. -/
theorem interrupt_transparent_tick : ∃ (tr : List KernelStep) (x : KernelStep) (k : Kernel)
    (s t : State),
      HarmlessRun (tr ++ [x]) k ∧ Arrives plainModel (8, 0x4000) .timer 0x5000 x.pre s x.act.1 ∧
      Departs k t ∧ exitContext plainModel t = { s with mem := t.mem } := by
  obtain ⟨tr, x, k, hrun, hreturns, hact, harrives⟩ :=
    returns_of_test [] .timer .tick 0 (fun _ => rfl) nofun nofun (by decide +kernel)
  have hno : ¬ x.pre.Answers x.act.1 := fun ha => by rw [hact] at ha; cases ha.1
  exact ⟨tr, x, k, _, k.departure plainState, hrun, harrives, departure_departs k plainState,
    (interrupt_transparent hrun hreturns harrives (departure_departs k plainState)).2 hno⟩

end Kernel
end UnivOS
