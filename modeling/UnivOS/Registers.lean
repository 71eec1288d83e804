import UnivOS.Stores
import UnivOS.Runs

/-! # The saved registers

Every process that exists has its trapframe on its own stack: `kproc_create` puts it
there, and so does an interrupt, as long as the process keeps its stack pointer there.
Then the registers of a process that is not active stay the same from entry to entry,
where user code leaves them alone and has no system call store over them (`Harmless`).
-/
namespace UnivOS

/-- A system call, made with 0 in the argument registers. -/
def Syscall.made (call : Syscall) : Trapframe × Event :=
  ({ Trapframe.zero with eax := call.number }, .syscall)

/-- An event at which the registers do not matter. -/
def Event.occurs (ev : Event) : Trapframe × Event := (Trapframe.zero, ev)

namespace Kernel
open Word

/-- A trapframe at `a` is on the stack of process table entry `i`. -/
def OnStack (cpu : Cpu) (i : Fin procMax) (a : BitVec 32) : Prop :=
  (a - stack cpu i).toNat + Trapframe.size ≤ procStackSize

instance (cpu : Cpu) (i : Fin procMax) (a : BitVec 32) : Decidable (OnStack cpu i a) :=
  inferInstanceAs (Decidable (_ ≤ _))

def HasFrame (k : Kernel) (i : Fin procMax) : Prop :=
  ∃ a : Ptr, (k.procTable i).trapframe = some a ∧ OnStack k.cpu i a

/-- Every process has its trapframe on its own stack. -/
def Framed (k : Kernel) : Prop := ∀ i, k.Live i → k.HasFrame i

/-- The buffer a system call fills meets no trapframe and none of the kernel's objects. -/
structure BufferClear (k : Kernel) (tf : Trapframe) (call : Syscall) : Prop where
  user : k.UserBuffer (k.filled tf call).1 (k.filled tf call).2
  frames : ∀ i, k.Live i → ∀ a : Ptr, (k.procTable i).trapframe = some a →
    ∀ n < Trapframe.size, k.Outside tf call (a + BitVec.ofNat 32 n)

/-- What user code keeps to before an entry: the process that is interrupted is on its own
stack, the registers of the others are as they were saved, and a system call fills no
buffer that is not the caller's. -/
structure Harmless (k : Kernel) (e : Entry) : Prop where
  frame : ∀ i, k.activeProc = some i → OnStack k.cpu i e.frame
  others : ∀ i, k.Live i → k.activeProc ≠ some i →
    Kernel.registers { k with mem := e.mem } i = k.registers i
  buffer : e.event = .syscall → ∀ call, Syscall.ofNumber e.trapframe.eax = some call →
    (k.entered e).BufferClear e.trapframe call

/-- The process is still there with the same registers. -/
structure Undisturbed (k k' : Kernel) (i : Fin procMax) : Prop extends SameProc k k' i where
  cpu : k'.cpu = k.cpu
  registers : k'.registers i = k.registers i

variable {k k' k'' : Kernel} {cpu : Cpu} {i j : Fin procMax} {a x : BitVec 32} {rc : Int}
  {tf : Trapframe} {call : Syscall} {e : Entry}

/-! ## Trapframes on stacks -/

theorem OnStack.inStack (h : OnStack cpu i a) {n : Nat} (hn : n < Trapframe.size) :
    InStack cpu i (a + BitVec.ofNat 32 n) := by
  have hsize : Trapframe.size = 64 := rfl
  have hstack : procStackSize = 8192 := rfl
  unfold OnStack at h
  unfold InStack
  generalize stack cpu i = s at *
  bv_omega

theorem firstFrame_onStack (cpu : Cpu) (i : Fin procMax) :
    OnStack cpu i (firstFrame cpu i) := by
  have hsize : Trapframe.size = 64 := rfl
  have hstack : procStackSize = 8192 := rfl
  have haddr : (firstFrame cpu i).val = stack cpu i + BitVec.ofNat 32 (8192 - 64) := rfl
  unfold OnStack
  rw [haddr]
  generalize stack cpu i = s
  bv_omega

/-- Registers depend on where they are saved and on the bytes there. -/
theorem registers_congr (htf : (k'.procTable i).trapframe = (k.procTable i).trapframe)
    (hmem : ∀ a : Ptr, (k.procTable i).trapframe = some a → ∀ n < Trapframe.size,
      k'.mem (a + BitVec.ofNat 32 n) = k.mem (a + BitVec.ofNat 32 n)) :
    k'.registers i = k.registers i := by
  unfold registers
  rw [htf]
  cases ha : (k.procTable i).trapframe with
  | none => rfl
  | some a => exact congrArg some (Trapframe.read_congr (hmem a ha))

theorem HasFrame.congr (h : k.HasFrame i)
    (htf : (k'.procTable i).trapframe = (k.procTable i).trapframe) (hcpu : k'.cpu = k.cpu) :
    k'.HasFrame i := by
  obtain ⟨a, ha, hon⟩ := h
  exact ⟨a, htf.trans ha, by rw [hcpu]; exact hon⟩

theorem Undisturbed.hasFrame (h : Undisturbed k k' i) (hf : k.HasFrame i) : k'.HasFrame i :=
  hf.congr h.trapframe h.cpu

theorem Undisturbed.trans (h : Undisturbed k k' i) (h' : Undisturbed k' k'' i) :
    Undisturbed k k'' i :=
  ⟨h.toSameProc.trans h'.toSameProc, h'.cpu.trans h.cpu, h'.registers.trans h.registers⟩

/-- A process whose stack is the same keeps its registers. -/
theorem HasFrame.undisturbed (h : k.HasFrame i) (hp : SameProc k k' i) (hs : SameStack k k' i) :
    Undisturbed k k' i := by
  obtain ⟨a, ha, hon⟩ := h
  refine ⟨hp, hs.cpu, registers_congr hp.trapframe fun b hb n hn => hs.bytes _ ?_⟩
  cases ha.symm.trans hb
  exact hon.inStack hn

/-! ## Events -/

theorem kprocDestroy_stays (ht : TableOk k) (hj : k.Live j) (hi : k.Live i) (hi' : k'.Live i)
    (h : k.kprocDestroy (some j) = .ok (rc, k')) : SameProc k k' i := by
  rcases kprocDestroy_cases ht hj h with ⟨_, _, rfl⟩ | ⟨k₁, q, _, _, h₁, _, rfl⟩
  · exact .of_entry hi rfl
  · have hs := (schedulerRemove_keeps h₁).sameProc hi
    exact hs.trans (.of_entry hs.live (freeProc_ne k₁ q (freeProc_live.mp hi').2))

/-- Every event but a system call leaves a process that outlives it as it is. -/
theorem handle_stays (ht : TableOk k) (hi : k.Live i) (hi' : k'.Live i) {ev : Event}
    (hsys : ev ≠ .syscall) (h : k.handle ev = .ok (rc, k')) : SameProc k k' i := by
  cases ev with
  | create ptr name type => exact kprocCreate_sameProc ht hi h
  | destroy =>
    cases hact : k.activeProc with
    | none => rw [handle, hact] at h; cases h
    | some j =>
      rw [handle, hact] at h
      exact kprocDestroy_stays ht (ht.active_live j hact) hi hi' h
  | syscall => exact absurd rfl hsys
  | tick => exact (handle_keeps ht (by trivial) h).sameProc hi
  | sleep time => exact (handle_keeps ht (by trivial) h).sameProc hi
  | mutex call => exact (handle_keeps ht (by trivial) h).sameProc hi
  | sem call => exact (handle_keeps ht (by trivial) h).sameProc hi

theorem handle_undisturbed (ht : TableOk k) (hi : k.Live i) (hi' : k'.Live i)
    (hf : k.HasFrame i) {ev : Event} (hsys : ev ≠ .syscall) (h : k.handle ev = .ok (rc, k')) :
    Undisturbed k k' i :=
  hf.undisturbed (handle_stays ht hi hi' hsys h) (handle_sameStack ht hi hi' hsys h)

theorem ksyscall_stays (ht : TableOk k) (hi : k.Live i) (hi' : k'.Live i)
    (h : k.ksyscall tf call = .ok (rc, k')) : SameProc k k' i := by
  by_cases hexit : call = .procExit
  · subst hexit
    have hd : k.handle .destroy = .ok (rc, k') := h
    refine handle_stays ht hi hi' ?_ hd
    exact nofun
  · exact (ksyscall_keeps ht hexit h).sameProc hi

/-- A system call leaves every process that outlives it as it is, the caller included. -/
theorem ksyscall_undisturbed (ht : TableOk k) (hi : k.Live i) (hi' : k'.Live i)
    (hf : k.HasFrame i) (hb : k.BufferClear tf call) (h : k.ksyscall tf call = .ok (rc, k')) :
    Undisturbed k k' i := by
  obtain ⟨a, ha, hon⟩ := hf
  obtain ⟨hcpu, hmem⟩ := ksyscall_stack ht hi hi' h
  have hp := ksyscall_stays ht hi hi' h
  refine ⟨hp, hcpu, registers_congr hp.trapframe fun b hb' n hn => ?_⟩
  cases ha.symm.trans hb'
  exact hmem _ (hon.inStack hn) (hb.frames i hi a ha n hn)

theorem schedulerRun_undisturbed (ht : TableOk k) (hi : k.Live i) (hf : k.HasFrame i)
    (h : k.schedulerRun = .ok k') : Undisturbed k k' i :=
  hf.undisturbed (schedulerRun_sameProc ht hi h) ((schedulerRun_sameMem h).sameStack i)

/-! ## The result of a system call -/

/-- A result is stored in the trapframe of the active process. -/
theorem setResult_registers (hact : k.activeProc = some i) (hf : k.HasFrame i)
    (htf : k.registers i = some tf) : (k.setResult rc).registers i = some (tf.setResult rc) := by
  obtain ⟨a, ha, _⟩ := hf
  rw [registers, ha] at htf
  cases htf
  simp only [setResult, hact, registers, ha, Option.map_some, address, Option.getD_some,
    Trapframe.read_store_eax]

/-- The processes that are not active have their trapframes elsewhere. -/
theorem setResult_undisturbed (hi : k.Live i) (hf : k.HasFrame i)
    (hne : k.activeProc ≠ some i) (hact : ∀ j, k.activeProc = some j → k.HasFrame j) :
    Undisturbed k (k.setResult rc) i := by
  refine hf.undisturbed (setResult_sameProc hi hne) ?_
  cases ha : k.activeProc with
  | none =>
    have hsame : k.setResult rc = k := by rw [setResult, ha]
    rw [hsame]
    exact .refl k i
  | some j =>
    obtain ⟨a, hframe, hon⟩ := hact j ha
    simp only [setResult, ha, address, hframe, Option.map_some, Option.getD_some]
    refine ⟨fun x hx => Ia32.store_ne k.mem _ (Nat.le_of_not_lt fun hlt => ?_), rfl⟩
    have hin : InStack k.cpu j x := by
      have heax : Trapframe.eaxOffset = 44 := rfl
      have hsize : Trapframe.size = 64 := rfl
      have hstack : procStackSize = 8192 := rfl
      unfold OnStack at hon
      unfold InStack
      generalize stack k.cpu j = s at *
      bv_omega
    exact hne (hx.unique hin ▸ ha)

/-! ## Entries -/

theorem entered_cpu (k : Kernel) (e : Entry) : (k.entered e).cpu = k.cpu :=
  (entered_only k e).frame Kernel.cpu fun _ _ => rfl

theorem entered_undisturbed (ho : Harmless k e) (hi : k.Live i) (hne : k.activeProc ≠ some i) :
    Undisturbed k (k.entered e) i := by
  refine ⟨entered_sameProc hi hne e, entered_cpu k e, ?_⟩
  rw [← ho.others i hi hne, registers, registers, entered_mem, (entered_only k e).other i hne]

/-- Saving the trapframe of the active process keeps all of them on their stacks. -/
theorem Framed.entered (hf : Framed k) (ho : Harmless k e) : Framed (k.entered e) := by
  intro i hi
  have hi' := ((entered_sameTable k e).live i).mp hi
  by_cases hact : k.activeProc = some i
  · refine ⟨e.frame, by rw [entered_self hact], ?_⟩
    rw [entered_cpu]
    exact ho.frame i hact
  · exact (entered_undisturbed ho hi' hact).hasFrame (hf i hi')

/-- A process that is created has its trapframe at the end of its stack. -/
theorem kprocCreate_hasFrame {ptr : BitVec 32} {name : Option (List Byte)} {type : ProcType}
    (h : k.kprocCreate ptr name type = .ok (rc, k')) (hi : ¬ k.Live i) (hi' : k'.Live i) :
    k'.HasFrame i := by
  rcases kprocCreate_ok h with ⟨_, _, rfl⟩ | ⟨j, q, name', _, _, _, _, hadd⟩
  · exact absurd hi' hi
  · have hlive : (k.allotProc j (k.newProc j name' type) q (k.newStack j ptr)).Live j :=
      allotProc_live.mpr (.inr ⟨rfl, nofun⟩)
    have hkeeps := schedulerAdd_keeps hlive hadd
    obtain rfl : i = j := by
      rcases allotProc_live.mp ((hkeeps.live i).mp hi') with ⟨_, hl⟩ | ⟨hij, _⟩
      · exact absurd hl hi
      · exact hij
    refine ⟨firstFrame k.cpu i, ?_, ?_⟩
    · rw [hkeeps.trapframe i, allotProc_self]
      rfl
    · rw [(schedulerAdd_sameMem hadd).cpu]
      exact firstFrame_onStack k.cpu i

theorem kprocCreate_framed (ht : TableOk k) (hf : Framed k) {ptr : BitVec 32}
    {name : Option (List Byte)} {type : ProcType} (h : k.kprocCreate ptr name type = .ok (rc, k')) :
    Framed k' := by
  intro i hi'
  by_cases hi : k.Live i
  · have hc : k.handle (.create ptr name type) = .ok (rc, k') := h
    have hsys : Event.create ptr name type ≠ .syscall := nofun
    exact (handle_undisturbed ht hi hi' (hf i hi) hsys hc).hasFrame (hf i hi)
  · exact kprocCreate_hasFrame h hi hi'

/-- Every event but a creation leaves only processes there were before. -/
theorem handle_live (ht : TableOk k) (hi' : k'.Live i) {ev : Event}
    (hcreate : ∀ ptr name type, ev ≠ .create ptr name type) (hsys : ev ≠ .syscall)
    (h : k.handle ev = .ok (rc, k')) : k.Live i := by
  cases ev with
  | create ptr name type => exact absurd rfl (hcreate ptr name type)
  | destroy =>
    cases hact : k.activeProc with
    | none => rw [handle, hact] at h; cases h
    | some j =>
      rw [handle, hact] at h
      rcases kprocDestroy_cases ht (ht.active_live j hact) h with ⟨_, _, rfl⟩ | ⟨_, _, _, _, h₁, _, rfl⟩
      · exact hi'
      · exact ((schedulerRemove_keeps h₁).live i).mp (freeProc_live.mp hi').1
  | syscall => exact absurd rfl hsys
  | tick => exact ((handle_keeps ht (by trivial) h).live i).mp hi'
  | sleep time => exact ((handle_keeps ht (by trivial) h).live i).mp hi'
  | mutex call => exact ((handle_keeps ht (by trivial) h).live i).mp hi'
  | sem call => exact ((handle_keeps ht (by trivial) h).live i).mp hi'

theorem ksyscall_live (ht : TableOk k) (hi' : k'.Live i) (h : k.ksyscall tf call = .ok (rc, k')) :
    k.Live i := by
  by_cases hexit : call = .procExit
  · subst hexit
    have hd : k.handle .destroy = .ok (rc, k') := h
    refine handle_live ht hi' ?_ ?_ hd
    · exact nofun
    · exact nofun
  · exact ((ksyscall_keeps ht hexit h).live i).mp hi'

theorem ksyscall_framed (ht : TableOk k) (hf : Framed k) (hb : k.BufferClear tf call)
    (h : k.ksyscall tf call = .ok (rc, k')) : Framed k' := by
  intro i hi'
  have hi := ksyscall_live ht hi' h
  exact (ksyscall_undisturbed ht hi hi' (hf i hi) hb h).hasFrame (hf i hi)

theorem ksyscall_tableOk (ht : TableOk k) (h : k.ksyscall tf call = .ok (rc, k')) :
    TableOk k' := by
  by_cases hexit : call = .procExit
  · subst hexit
    exact kprocDestroy_active_tableOk ht h
  · exact (ksyscall_keeps ht hexit h).tableOk ht

theorem Framed.setResult (hf : Framed k) (rc : Int) : Framed (k.setResult rc) := by
  obtain ⟨mem, hk⟩ := setResult_frame k rc
  rw [hk]
  exact fun i hi => (hf i hi).congr rfl rfl

/-- What the dispatcher is given in a harmless entry. -/
theorem Harmless.dispatched (ho : Harmless k e) (hev : e.event = .syscall)
    (h : (k.entered e).ksyscallIrqHandler = .ok (rc, k')) :
    ∃ call k₁, Syscall.ofNumber e.trapframe.eax = some call ∧
      (k.entered e).BufferClear e.trapframe call ∧
      (k.entered e).ksyscall e.trapframe call = .ok (rc, k₁) ∧ k' = k₁.setResult rc := by
  obtain ⟨p, _, _, _, hact, _, _, _, _⟩ := ksyscallIrqHandler_call h
  have hact₀ := ((entered_sameTable k e).active p hact)
  obtain ⟨call, k₁, hcall, h₁, hk⟩ := ksyscallIrqHandler_ok hact (entered_registers hact₀ e) h
  exact ⟨call, k₁, hcall, ho.buffer hev call hcall, h₁, hk⟩

theorem handler_framed (ht : TableOk k) (hf : Framed k) (ho : Harmless k e)
    (h : (k.entered e).handle e.event = .ok (rc, k')) : Framed k' := by
  have ht₀ := (entered_sameTable k e).tableOk ht
  have hf₀ := hf.entered ho
  cases hev : e.event with
  | create ptr name type =>
    rw [hev] at h
    exact kprocCreate_framed ht₀ hf₀ h
  | syscall =>
    rw [hev] at h
    obtain ⟨call, k₁, _, hb, h₁, rfl⟩ := ho.dispatched hev h
    exact (ksyscall_framed ht₀ hf₀ hb h₁).setResult rc
  | tick | destroy | sleep | mutex | sem =>
    rw [hev] at h
    intro i hi'
    have hi := handle_live ht₀ hi' (by simp) (by simp) h
    exact (handle_undisturbed ht₀ hi hi' (hf₀ i hi) (by simp) h).hasFrame (hf₀ i hi)

/-- Every entry that returns leaves the trapframes on their stacks. -/
theorem kernelContextEnter_framed (ht : TableOk k) (hf : Framed k) (ho : Harmless k e)
    (h : kernelContextEnter e k = .ok (rc, k')) : Framed k' := by
  obtain ⟨k₁, h₁, h₂⟩ := kernelContextEnter_ok h
  have hf₁ := handler_framed ht hf ho h₁
  have ht₁ := handle_tableOk ((entered_sameTable k e).tableOk ht) h₁
  intro i hi
  have hi₁ : k₁.Live i := by
    obtain ⟨k₂, h₃, h₄⟩ := Loop.bind_eq_ok.mp h₂
    have hout := scheduleOut_keeps ht₁ h₃
    obtain ⟨a, hd⟩ := scheduleIn_dispatches h₄
    exact (hout.live i).mp (((hd.keeps (hout.tableOk ht₁)).live i).mp hi)
  exact (schedulerRun_undisturbed ht₁ hi₁ (hf₁ i hi₁) h₂).hasFrame (hf₁ i hi₁)

/-- A process that is not active keeps its registers through the handler. -/
theorem handler_undisturbed (ht : TableOk k) (hf : Framed k) (ho : Harmless k e) (hi : k.Live i)
    (hne : k.activeProc ≠ some i) (h : (k.entered e).handle e.event = .ok (rc, k')) :
    Undisturbed k k' i := by
  have hent := entered_sameTable k e
  have ht₀ := hent.tableOk ht
  have hf₀ := hf.entered ho
  have h₀ := entered_undisturbed ho hi hne
  have hne₀ : (k.entered e).activeProc ≠ some i := fun ha => hne (hent.active i ha)
  have hp := handle_sameProc ht₀ h₀.live hne₀ h
  refine h₀.trans ?_
  by_cases hev : e.event = .syscall
  · rw [hev] at h
    obtain ⟨call, k₁, _, hb, h₁, rfl⟩ := ho.dispatched hev h
    obtain ⟨hp₁, hne₁⟩ := ksyscall_sameProc ht₀ h₀.live hne₀ h₁
    have hf₁ := ksyscall_framed ht₀ hf₀ hb h₁
    have ht₁ := ksyscall_tableOk ht₀ h₁
    refine (ksyscall_undisturbed ht₀ h₀.live hp₁.live (hf₀ i h₀.live) hb h₁).trans ?_
    exact setResult_undisturbed hp₁.live (hf₁ i hp₁.live) hne₁
      fun j hj => hf₁ j (ht₁.active_live j hj)
  · exact handle_undisturbed ht₀ h₀.live hp.live (hf₀ i h₀.live) hev h

/-- A process that is not active when the kernel is entered keeps its registers. -/
theorem kernelContextEnter_undisturbed (ht : TableOk k) (hf : Framed k) (ho : Harmless k e)
    (hi : k.Live i) (hne : k.activeProc ≠ some i) (h : kernelContextEnter e k = .ok (rc, k')) :
    Undisturbed k k' i := by
  obtain ⟨k₁, h₁, h₂⟩ := kernelContextEnter_ok h
  have hs := handler_undisturbed ht hf ho hi hne h₁
  have ht₁ := handle_tableOk ((entered_sameTable k e).tableOk ht) h₁
  exact hs.trans (schedulerRun_undisturbed ht₁ hs.live (handler_framed ht hf ho h₁ i hs.live) h₂)

/-! ## Runs -/

/-- A run of kernel entries between which user code keeps to its own. -/
abbrev HarmlessRun : List KernelStep → Kernel → Prop :=
  Trace.Run Start (Trace.Exec kernelContextEnter fun _ k e => Harmless k e)

/-- A process that is started has its trapframe on its stack, like those before it. -/
theorem startProgram_framed {n : Nat} (hb : Booted n k) (h0 : 0 < n) (hf : Framed k)
    {p : BitVec 32 × String × (Int → Int)} (h : k.startProgram p = .ok k') : Framed k' := by
  obtain ⟨⟨pid, k₁⟩, h₁, h₂⟩ := Loop.bind_eq_ok.mp h
  obtain ⟨⟨rc, k₂⟩, h₂, h₃⟩ := Loop.bind_eq_ok.mp h₂
  cases h₃
  have hf₁ := kprocCreate_framed (hb.tableOk h0) hf h₁
  obtain ⟨tty, _, h₄⟩ := Loop.bind_eq_ok.mp h₂
  split at h₄
  · cases h₄
    exact hf₁
  · rename_i proc _
    cases h₄
    let k₂ : Kernel := k₁.modifyProc proc fun p => { p with io := attachedIo tty p.io }
    have htf : ∀ i, (k₂.procTable i).trapframe = (k₁.procTable i).trapframe :=
      same_of_update Proc.trapframe rfl rfl
    have hstate : ∀ i, (k₂.procTable i).state = (k₁.procTable i).state :=
      same_of_update Proc.state rfl rfl
    intro i hi
    refine (hf₁ i ?_).congr (htf i) rfl
    rwa [Live, ← hstate i]

theorem startAll_framed : ∀ (l : List (BitVec 32 × String × (Int → Int))) {n : Nat} {k : Kernel},
    Booted n k → 0 < n → n + l.length ≤ procMax → (∀ p ∈ l, Startable p) → Framed k →
    l.foldlM Kernel.startProgram k = .ok k' → Framed k'
  | [], _, _, _, _, _, _, hf, h => by cases h; exact hf
  | p :: l, n, k, hb, h0, hn, hp, hf, h => by
    rw [List.length_cons] at hn
    obtain ⟨k₁, h₁, hb₁⟩ := hb.startProgram (by omega) (hp p List.mem_cons_self)
    rw [List.foldlM_cons, h₁, Loop.ok_bind] at h
    exact startAll_framed l hb₁ n.succ_pos (by omega)
      (fun x hx => hp x (List.mem_cons_of_mem p hx)) (startProgram_framed hb h0 hf h₁) h

theorem Start.framed (h : Start k) : Framed k := by
  obtain ⟨img, h⟩ := h
  rw [kernelInit, Ttys.ttyInit_eq, Loop.ok_bind] at h
  obtain ⟨k₂, h₂, h₃⟩ := Loop.bind_eq_ok.mp h
  cases h₃
  have hb₀ := booted_zero img Ttys.ttyInitial
  obtain ⟨k₁, h₁, hb₁⟩ := hb₀.kprocCreate (by decide) img.idle_ne (cstring "idle") .kernel
  rw [kprocInit] at h₂
  dsimp only at h₂
  rw [h₁, Loop.ok_bind] at h₂
  have hf₁ : Framed k₁ := fun i hi => kprocCreate_hasFrame h₁ (fun hl => hl rfl) hi
  have hlen : (startPrograms img).length = 10 := rfl
  have hf₂ := startAll_framed (startPrograms img) hb₁ Nat.one_pos (by rw [hlen]; decide)
    (startPrograms_startable img) hf₁ h₂
  exact fun i hi => (hf₂ i hi).congr rfl rfl

theorem framed_of_run {tr : List KernelStep} (h : HarmlessRun tr k) : Framed k :=
  h.state_invariant (fun _ hs => hs.framed) fun _ _ _ _ hr hn hf =>
    kernelContextEnter_framed (tableOk_of_run hr) hf hn.1 hn.2

/-- A process that stays off the processor keeps its registers. -/
theorem undisturbed_of_run {tr mid : List KernelStep} {x : KernelStep}
    (h : HarmlessRun (tr ++ x :: mid) k) (hlive : x.post.Live i)
    (haway : ∀ y ∈ mid, y.pre.activeProc ≠ some i) : Undisturbed x.post k i := by
  refine h.after (P := fun k => Undisturbed x.post k i) ⟨.of_entry hlive rfl, rfl, rfl⟩ ?_
  intro tr' y hy hr hn hs
  exact hs.trans (kernelContextEnter_undisturbed (tableOk_of_run hr) (framed_of_run hr) hn.1 hs.live
    (haway y hy) hn.2)

/-! ## Runs to test -/

/-- The active process is interrupted at the end of its stack with these registers. Before
there is one, the timer interrupts `main`. -/
def interrupted (k : Kernel) (tf : Trapframe) (ev : Event) : Entry :=
  match k.activeProc with
  | none => ⟨firstFrame k.cpu idleProc, k.mem, .tick⟩
  | some i => ⟨firstFrame k.cpu i, tf.write k.mem (firstFrame k.cpu i), ev⟩

/-- The registers and the event are not those of a system call that fills a buffer. -/
def Unfilling (a : Trapframe × Event) : Prop :=
  a.2 = .syscall → Syscall.ofNumber a.1.eax ∉ [some .ioRead, some .sysGetName, some .procGetName]

instance (a : Trapframe × Event) : Decidable (Unfilling a) := inferInstanceAs (Decidable (_ → _))

theorem interrupted_eq (hact : k.activeProc = some i) (tf : Trapframe) (ev : Event) :
    k.interrupted tf ev = ⟨firstFrame k.cpu i, tf.write k.mem (firstFrame k.cpu i), ev⟩ := by
  rw [interrupted, hact]

theorem filled_of_unfilling (hc : call ∉ [.ioRead, .sysGetName, .procGetName]) :
    (k.filled tf call).2 = 0 := by
  cases call <;> first | rfl | simp at hc

theorem bufferClear_of_unfilling (hc : call ∉ [.ioRead, .sysGetName, .procGetName]) :
    k.BufferClear tf call := by
  have hnone : (k.filled tf call).2 = 0 := filled_of_unfilling hc
  refine ⟨fun n hn => ?_, fun i _ a _ n _ => ?_⟩
  · rw [hnone] at hn
    exact absurd hn (Nat.not_lt_zero n)
  · rw [Outside, hnone]
    exact Nat.zero_le _

/-- A trapframe on another stack is left alone. -/
theorem write_firstFrame_registers (hf : k.HasFrame j) (hne : j ≠ i) :
    Kernel.registers { k with mem := tf.write k.mem (firstFrame k.cpu i) } j = k.registers j := by
  obtain ⟨a, ha, hon⟩ := hf
  refine registers_congr rfl fun b hb n hn => Trapframe.write_ne _ _ ?_
  cases ha.symm.trans hb
  refine Nat.le_of_not_lt fun hlt => hne ?_
  have hin : InStack k.cpu i _ := firstFrame_inStack hlt
  rw [BitVec.ofNat_toNat, BitVec.setWidth_eq, BitVec.add_comm, BitVec.sub_add_cancel] at hin
  exact (hon.inStack hn).unique hin

theorem interrupted_harmless (hf : Framed k) {ev : Event} (hu : Unfilling (tf, ev)) :
    Harmless k (k.interrupted tf ev) := by
  cases hact : k.activeProc with
  | none =>
    have he : k.interrupted tf ev = ⟨firstFrame k.cpu idleProc, k.mem, .tick⟩ := by
      rw [interrupted, hact]
    rw [he]
    refine ⟨fun i hi => ?_, fun _ _ _ => rfl, fun hev => ?_⟩
    · cases hact.symm.trans hi
    · cases hev
  | some i =>
    have htf : (k.interrupted tf ev).trapframe = tf := by
      rw [interrupted_eq hact]
      exact Trapframe.read_write ..
    refine ⟨fun j hj => ?_, fun j hj hne => ?_, fun hev call hcall => ?_⟩
    · cases hact.symm.trans hj
      rw [interrupted_eq hact]
      exact firstFrame_onStack k.cpu i
    · rw [interrupted_eq hact]
      exact write_firstFrame_registers (hf j hj) fun he => hne (he ▸ hact)
    · rw [htf] at hcall
      refine bufferClear_of_unfilling fun hmem => hu ?_ ?_
      · rw [interrupted_eq hact] at hev
        exact hev
      · rw [hcall]
        simpa using hmem

/-- The registers and events `as` take the kernel, and what the run satisfies. -/
def harmlessTest (boot : Res Kernel) (as : List (Trapframe × Event))
    (P : List KernelStep → Kernel → Bool) : Bool :=
  match boot with
  | .error _ => false
  | .ok k =>
    match Trace.drive kernelContextEnter (fun a k => k.interrupted a.1 a.2) as [] k with
    | none => false
    | some (tr, k) => decide (∀ a ∈ as, Unfilling a) && P tr k

theorem harmlessRun_of_test (img : Image) (as : List (Trapframe × Event))
    (P : List KernelStep → Kernel → Bool) (h : harmlessTest (kernelInit img) as P = true) :
    ∃ tr k, HarmlessRun tr k ∧ P tr k = true := by
  unfold harmlessTest at h
  split at h
  · cases h
  · rename_i k hk
    split at h
    · cases h
    · rename_i tr k' hd
      obtain ⟨hu, hP⟩ := Bool.and_eq_true_iff.mp h
      refine ⟨tr, k', Trace.Run.drive as (fun a ha tr k hr => ?_) (.nil ⟨img, hk⟩) hd, hP⟩
      exact interrupted_harmless (framed_of_run hr) (of_decide_eq_true hu a ha)

end Kernel
end UnivOS
