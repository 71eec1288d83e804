import UnivOS.Frames
import UnivOS.Registers

/-! # The results of system calls

The dispatcher stores a result in the registers of the process that is active
after the call. A call that takes its caller off the processor clears
`active_proc`, so its result is lost: the caller resumes with the number of the
system call in `eax`.
-/
namespace UnivOS
namespace Kernel
open Word

variable {k k' k'' : Kernel} {p : Fin procMax} {rc : Int} {tf : Trapframe} {call : Syscall}
  {tr mid : List KernelStep} {x : KernelStep} {e : Entry}
  {allowed : List KernelStep → Kernel → Entry → Prop}

/-! ## Calls that take their caller off the processor -/

/-- The caller sleeps, or joins the wait queue of a locked mutex or of a
semaphore without a count. -/
def Waits (k : Kernel) (tf : Trapframe) : Syscall → Prop
  | .procSleep => True
  | .mutexLock => ∃ m, index mutexMax tf.ebx.toInt = some m ∧ 0 < (k.mutexes m).locks
  | .semWait => ∃ s, index semMax tf.ebx.toInt = some s ∧
      (k.semaphores s).allocated ≠ 0 ∧ (k.semaphores s).count ≤ 0
  | _ => False

/-- The call that waits returns its own number: the twelfth lock of a mutex. -/
def ReturnsNumber (k : Kernel) (tf : Trapframe) : Syscall → Prop
  | .mutexLock => ∃ m, index mutexMax tf.ebx.toInt = some m ∧
      BitVec.ofInt 32 (k.mutexes m).locks = 11
  | _ => False

/-- The system call in the registers waits, and its result is not what `eax`
holds anyway. -/
def LosesResult (k : Kernel) (tf : Trapframe) : Prop :=
  ∃ call, Syscall.ofNumber tf.eax = some call ∧ k.Waits tf call ∧ ¬ k.ReturnsNumber tf call

/-! ## What a call does to `active_proc` -/

theorem schedulerSleep_activeProc (hact : k.activeProc = some p)
    (hstate : (k.procTable p).state = .active) {time : Int}
    (h : k.schedulerSleep (some p) time = .ok k') : k'.activeProc = none := by
  cases schedulerSleep_cases h with
  | again hsleeping =>
    rw [hstate] at hsleeping
    cases hsleeping
  | sleeps k₁ _ _ hrem hmoved =>
    have hnone : k₁.activeProc = none := by
      refine schedulerRemove_active ?_ hrem
      exact hact
    rw [hmoved]
    exact hnone

/-- A lock on a locked mutex waits, and any other leaves the caller active. -/
theorem kmutexLock_activeProc (hact : k.activeProc = some p) {m : Fin mutexMax}
    (h : k.kmutexLock ((m : Nat) : Int) = .ok (rc, k')) :
    if 0 < (k.mutexes m).locks then k'.activeProc = none else k'.activeProc = some p := by
  cases (kmutexLock_cases h).2 with
  | acquires free same => rw [if_neg free, same]; exact hact
  | counts _ nobody _ => rw [hact] at nobody; cases nobody
  | blocks _ _ _ locked _ same => rw [if_pos locked, same]

theorem kmutexUnlock_activeProc {id : Int} (h : k.kmutexUnlock id = .ok (rc, k')) :
    k'.activeProc = k.activeProc := by
  cases hi : index mutexMax id with
  | none =>
    rw [kmutexUnlock, hi] at h
    cases h
    rfl
  | some m =>
    rw [index_eq_some.mp hi] at h
    cases kmutexUnlock_cases h with
    | refused _ same => rw [same]
    | frees _ _ _ same => rw [same]; rfl
    | keeps _ _ _ _ same => rw [same]; rfl
    | handsOff _ _ _ _ _ _ _ _ same => rw [same]; rfl

theorem ksemPost_activeProc {id : Int} (h : k.ksemPost id = .ok (rc, k')) :
    k'.activeProc = k.activeProc := by
  cases ksemPost_effect h with
  | counts _ same => rw [same]
  | wakes _ _ _ _ same => rw [same]; rfl

/-! ## What a call means for its caller -/

/-- The caller is gone, is still active, or waits with its result lost. -/
inductive CallEffect (k : Kernel) (p : Fin procMax) (tf : Trapframe) (call : Syscall) (rc : Int)
    (k' : Kernel) : Prop
  | exits (kept : ¬ k.Waits tf call) (gone : ¬ k'.Live p)
  | returns (kept : ¬ k.Waits tf call) (same : SameProc k k' p) (active : k'.activeProc = some p)
  | waits (waits : k.Waits tf call) (same : SameProc k k' p) (active : k'.activeProc = none)
      (number : BitVec.ofInt 32 rc = call.number ↔ k.ReturnsNumber tf call)

theorem kprocDestroy_effect (ht : TableOk k) (hact : k.activeProc = some p)
    (h : k.kprocDestroy (some p) = .ok (rc, k')) :
    ¬ k'.Live p ∨ SameProc k k' p ∧ k'.activeProc = some p := by
  have hp := ht.active_live p hact
  rcases kprocDestroy_cases ht hp h with ⟨_, _, rfl⟩ | ⟨k₁, q, _, _, _, _, rfl⟩
  · exact .inr ⟨.of_entry hp rfl, hact⟩
  · exact .inl fun hl => (freeProc_live.mp hl).2 rfl

theorem ofInt_succ_eq_twelve (n : Int) :
    BitVec.ofInt 32 (wrap32 (n + 1)) = 12 ↔ BitVec.ofInt 32 n = 11 := by
  rw [ofInt_wrap32, BitVec.ofInt_add, show BitVec.ofInt 32 1 = 1 from rfl]
  bv_omega

theorem ksyscall_effect (ht : TableOk k) (hact : k.activeProc = some p)
    (hstate : (k.procTable p).state = .active) (h : k.ksyscall tf call = .ok (rc, k')) :
    CallEffect k p tf call rc k' := by
  have hp := ht.active_live p hact
  have hsame : call ≠ .procExit → SameProc k k' p := fun hne => (ksyscall_keeps ht hne h).sameProc hp
  have hkept : k'.activeProc = k.activeProc → call ≠ .procExit → ¬ k.Waits tf call →
      CallEffect k p tf call rc k' :=
    fun ha hne hw => .returns hw (hsame hne) (ha.trans hact)
  cases hcall : call.event tf with
  | none =>
    obtain ⟨ttys, mem, hk⟩ := ksyscall_frame hcall h
    refine hkept (by rw [hk]) ?_ ?_
    · rintro rfl
      cases hcall
    · cases call <;> first | exact id | cases hcall
  | some ev =>
    cases call with
    | procSleep =>
      obtain ⟨k₁, h₁, h₂⟩ := Loop.bind_eq_ok.mp h
      rw [hact] at h₁
      have hnone := schedulerSleep_activeProc hact hstate h₁
      refine .waits trivial (hsame (by simp)) ?_ ?_
      · cases h₂
        exact hnone
      · cases h₂
        exact iff_of_false (by decide) id
    | procExit =>
      have h' : k.kprocDestroy k.activeProc = .ok (rc, k') := h
      rw [hact] at h'
      rcases kprocDestroy_effect ht hact h' with hgone | ⟨hs, ha⟩
      · exact .exits id hgone
      · exact .returns id hs ha
    | mutexInit =>
      obtain ⟨f, q, hk⟩ := kmutexInit_frame k
      exact hkept (by rw [eq_of_ok h, hk]) (by simp) id
    | mutexDestroy =>
      obtain ⟨f, q, hk⟩ := kmutexDestroy_frame k tf.ebx.toInt
      exact hkept (by rw [eq_of_ok h, hk]) (by simp) id
    | mutexLock =>
      have h' : k.kmutexLock tf.ebx.toInt = .ok (rc, k') := h
      cases hi : index mutexMax tf.ebx.toInt with
      | none =>
        refine hkept ?_ (by simp) ?_
        · rw [kmutexLock, hi] at h'
          cases h'
          rfl
        · rintro ⟨m, hm, _⟩
          rw [hi] at hm
          cases hm
      | some m =>
        rw [index_eq_some.mp hi] at h'
        have hlock := kmutexLock_activeProc hact h'
        split at hlock
        · rename_i hlocks
          refine .waits ⟨m, hi, hlocks⟩ (hsame (by simp)) hlock ?_
          rw [(kmutexLock_cases h').1, Syscall.number, ofInt_succ_eq_twelve]
          constructor
          · exact fun hn => ⟨m, hi, hn⟩
          · rintro ⟨n, hn, h11⟩
            rw [hi] at hn
            cases hn
            exact h11
        · rename_i hlocks
          refine hkept (hlock.trans hact.symm) (by simp) ?_
          rintro ⟨n, hn, hpos⟩
          rw [hi] at hn
          cases hn
          exact hlocks hpos
    | mutexUnlock => exact hkept (kmutexUnlock_activeProc h) (by simp) id
    | semInit =>
      obtain ⟨f, q, hk⟩ := ksemInit_frame k tf.ebx.toInt
      exact hkept (by rw [eq_of_ok h, hk]) (by simp) id
    | semDestroy =>
      obtain ⟨f, q, hk⟩ := ksemDestroy_frame k tf.ebx.toInt
      exact hkept (by rw [eq_of_ok h, hk]) (by simp) id
    | semWait =>
      cases ksemWait_effect h with
      | returns f same free =>
        refine hkept (by rw [same]) (by simp) ?_
        rintro ⟨s, hs, hw⟩
        exact free s hs hw
      | blocks s _ _ _ _ named allocated count result _ _ same =>
        refine .waits ⟨s, named, allocated, count⟩ (hsame (by simp)) (by rw [same]) ?_
        rw [result]
        exact iff_of_false (by decide) id
    | semPost => exact hkept (ksemPost_activeProc h) (by simp) id
    | ioRead | ioWrite | ioFlush | sysGetTime | sysGetName | procGetPid | procGetName => cases hcall

/-! ## The entry of a system call -/

theorem entered_semaphores (k : Kernel) (e : Entry) : (k.entered e).semaphores = k.semaphores :=
  (entered_only k e).frame Kernel.semaphores fun _ _ => rfl

theorem entered_losesResult {e : Entry} : (k.entered e).LosesResult tf ↔ k.LosesResult tf := by
  have hwaits : ∀ call, (k.entered e).Waits tf call ↔ k.Waits tf call := by
    intro call
    cases call <;> simp only [Waits, (entered_sameMutexes k e).mutexes, entered_semaphores]
  have hnumber : ∀ call, (k.entered e).ReturnsNumber tf call ↔ k.ReturnsNumber tf call := by
    intro call
    cases call <;> simp only [ReturnsNumber, (entered_sameMutexes k e).mutexes]
  simp only [LosesResult, hwaits, hnumber]

theorem losesResult_iff (h : Syscall.ofNumber tf.eax = some call) :
    k.LosesResult tf ↔ k.Waits tf call ∧ ¬ k.ReturnsNumber tf call := by
  constructor
  · rintro ⟨call', h', hw⟩
    rw [h] at h'
    cases h'
    exact hw
  · exact fun hw => ⟨call, h, hw⟩

theorem setResult_eq_self : tf = tf.setResult rc ↔ BitVec.ofInt 32 rc = tf.eax := by
  constructor
  · exact fun h => (congrArg Trapframe.eax h).symm
  · intro h
    rw [Trapframe.setResult, h]

/-- The dispatcher destroys its caller, or leaves it with the right registers
unless the result is lost. -/
theorem ksyscallIrqHandler_effect (ht : TableOk k) (hf : Framed k) (hact : k.activeProc = some p)
    (hstate : (k.procTable p).state = .active) (htf : k.registers p = some tf)
    (hb : ∀ call, Syscall.ofNumber tf.eax = some call → k.BufferClear tf call)
    (h : k.ksyscallIrqHandler = .ok (rc, k')) :
    ¬ k'.Live p ∨ k'.Live p ∧
      (k'.registers p = some (tf.setResult rc) ↔ ¬ k.LosesResult tf) := by
  obtain ⟨call, k₁, hcall, h₁, rfl⟩ := ksyscallIrqHandler_ok hact htf h
  have hp := ht.active_live p hact
  have hkept : k₁.Live p → k₁.HasFrame p ∧ k₁.registers p = some tf := by
    intro hp₁
    have hs := ksyscall_undisturbed ht hp hp₁ (hf p hp) (hb call hcall) h₁
    exact ⟨hs.hasFrame (hf p hp), hs.registers.trans htf⟩
  rw [losesResult_iff hcall, (setResult_sameTable k₁ rc).live p]
  cases ksyscall_effect ht hact hstate h₁ with
  | exits _ hgone => exact .inl hgone
  | returns hw hsame hact₁ =>
    obtain ⟨hframe, hregs⟩ := hkept hsame.live
    exact .inr ⟨hsame.live, iff_of_true (setResult_registers hact₁ hframe hregs) fun h => hw h.1⟩
  | waits hw hsame hnone hnumber =>
    have hid : k₁.setResult rc = k₁ := by
      unfold setResult
      rw [hnone]
    refine .inr ⟨hsame.live, ?_⟩
    rw [hid, (hkept hsame.live).2, Option.some.injEq, setResult_eq_self,
      Syscall.ofNumber_eq hcall, hnumber]
    simp [hw]

/-- An entry with a system call: afterwards the caller's entry is free or holds a
newer process, or the caller has the right registers unless the result is lost. -/
theorem kernelContextEnter_syscall (ht : TableOk k) (hf : Framed k) (ho : Harmless k e)
    (hact : k.activeProc = some p) (hstate : (k.procTable p).state = .active)
    (hev : e.event = .syscall) (h : kernelContextEnter e k = .ok (rc, k')) :
    (k'.Live p → k.nextPid ≤ (k'.procTable p).pid) ∨ k'.Live p ∧
      (k'.registers p = some (e.trapframe.setResult rc) ↔ ¬ k.LosesResult e.trapframe) := by
  obtain ⟨k₁, h₁, h₂⟩ := kernelContextEnter_ok h
  have hf₁ := handler_framed ht hf ho h₁
  rw [hev] at h₁
  have hent := entered_sameTable k e
  have ht₀ := hent.tableOk ht
  have ht₁ := handle_tableOk ht₀ h₁
  have heff := ksyscallIrqHandler_effect ht₀ (hf.entered ho) ((entered_still k e).active.trans hact)
    (by rw [entered_self hact]; exact hstate) (entered_registers hact e) (ho.buffer hev) h₁
  rw [entered_losesResult] at heff
  rcases heff with hgone | ⟨hlive, hiff⟩
  · refine .inl fun hp => ?_
    rcases (schedulerRun_grows ht₁ h₂).live p hp with ⟨hp₁, _⟩ | hnew
    · exact absurd hp₁ hgone
    · have hnext := (hent.grows.trans (handle_grows ht₀ h₁)).nextPid
      exact hnext.trans hnew
  · have hrun := schedulerRun_undisturbed ht₁ hlive (hf₁ p hlive) h₂
    rw [← hrun.registers] at hiff
    exact .inr ⟨hrun.live, hiff⟩

/-! ## Runs -/

/-- Step `x` is a system call of the process in entry `p`, which still exists in
`k`, where it is active for the first time after it. -/
structure Resumes (x : KernelStep) (mid : List KernelStep) (k : Kernel) (p : Fin procMax) :
    Prop where
  event : x.act.1.event = .syscall
  caller : x.pre.activeProc = some p
  away : ∀ y ∈ mid, y.pre.activeProc ≠ some p
  resumed : k.activeProc = some p
  same : (k.procTable p).pid = (x.pre.procTable p).pid

/-- The process resumes with the registers it made the system call with and the
result in `eax`. -/
def Delivered (x : KernelStep) (k : Kernel) (p : Fin procMax) : Prop :=
  k.registers p = some (x.act.1.trapframe.setResult x.act.2)

theorem active_state_of_run (h : Trace.Run Start (Trace.Exec kernelContextEnter allowed) tr k) :
    ∀ i, k.activeProc = some i → (k.procTable i).state = .active := by
  cases h with
  | nil hs =>
    obtain ⟨img, hk⟩ := hs
    intro i hi
    rw [(Initial.of_kernelInit hk).active] at hi
    cases hi
  | snoc hr hn =>
    obtain ⟨_, i, hi, hstate⟩ := kernelContextEnter_tableOk (tableOk_of_run hr) hn.2
    intro j hj
    rw [hi] at hj
    cases hj
    exact hstate

theorem grows_of_run
    (h : Trace.Run Start (Trace.Exec kernelContextEnter allowed) (tr ++ x :: mid) k) :
    Grows x.post k := by
  refine h.after (P := fun k => Grows x.post k) (.refl _) ?_
  intro tr' y _ hr hn hg
  exact hg.trans (kernelContextEnter_grows (tableOk_of_run hr) hn.2)

/-- The step `x` of a run, and the run before it. -/
theorem run_step (h : Trace.Run Start (Trace.Exec kernelContextEnter allowed) (tr ++ x :: mid) k) :
    Trace.Run Start (Trace.Exec kernelContextEnter allowed) tr x.pre ∧
      allowed tr x.pre x.act.1 ∧ kernelContextEnter x.act.1 x.pre = .ok (x.act.2, x.post) := by
  have hsplit : tr ++ x :: mid = (tr ++ [x]) ++ mid := by simp
  rw [hsplit] at h
  obtain ⟨s, hs⟩ := h.of_append
  obtain ⟨hr, hn, _⟩ := hs.snoc_inv
  exact ⟨hr, hn⟩

/-- In every harmless run, an entry leaves the registers of the other processes alone, and
the caller of a system call resumes with the result unless the call loses it. -/
theorem syscall_results (h : HarmlessRun (tr ++ x :: mid) k) :
    (∀ j, x.pre.Live j → x.pre.activeProc ≠ some j → x.post.registers j = x.pre.registers j) ∧
    (∀ p, Resumes x mid k p → (Delivered x k p ↔ ¬ x.pre.LosesResult x.act.1.trapframe)) := by
  obtain ⟨hr, ho, henter⟩ := run_step h
  have ht := tableOk_of_run hr
  have hf := framed_of_run hr
  refine ⟨fun j hj hne => (kernelContextEnter_undisturbed ht hf ho hj hne henter).registers,
    fun p hp => ?_⟩
  have hstate := active_state_of_run hr p hp.caller
  rcases kernelContextEnter_syscall ht hf ho hp.caller hstate hp.event henter with
    hnew | ⟨hlive, hiff⟩
  · -- the caller is gone, and nobody has its process id
    have hold := (ht.pid_range p (ht.active_live p hp.caller)).2
    rw [← hp.same] at hold
    have hgrows := grows_of_run h
    have hnext := (kernelContextEnter_grows ht henter).nextPid
    rcases hgrows.live p ((tableOk_of_run h).active_live p hp.resumed) with ⟨hp', hpid⟩ | hpid
    · have := hnew hp'
      omega
    · omega
  · rw [Delivered, (undisturbed_of_run h hlive hp.away).registers]
    exact hiff

/-! ## Results that arrive and results that are lost -/

instance : Decidable (Resumes x mid k p) :=
  decidable_of_iff (x.act.1.event = .syscall ∧ x.pre.activeProc = some p ∧
      (∀ y ∈ mid, y.pre.activeProc ≠ some p) ∧ k.activeProc = some p ∧
      (k.procTable p).pid = (x.pre.procTable p).pid)
    ⟨fun h => ⟨h.1, h.2.1, h.2.2.1, h.2.2.2.1, h.2.2.2.2⟩,
      fun h => ⟨h.event, h.caller, h.away, h.resumed, h.same⟩⟩

/-- Process 1 asks for its process id and resumes with it. -/
theorem syscall_results_getPid : ∃ (tr : List KernelStep) (x : KernelStep) (k : Kernel)
    (p : Fin procMax),
      HarmlessRun (tr ++ [x]) k ∧ Resumes x [] k p ∧
      x.act.1.trapframe.eax = Syscall.procGetPid.number ∧ x.act.2 = 1 ∧ Delivered x k p := by
  let p : Fin procMax := ⟨1, by decide⟩
  obtain ⟨tr, k, hrun, hP⟩ := harmlessRun_of_test Image.blank
    (List.replicate 11 Event.tick.occurs ++ [Syscall.procGetPid.made])
    (fun tr k => match tr.getLast? with
      | none => false
      | some x => decide (x.act.1.trapframe.eax = Syscall.procGetPid.number ∧ x.act.2 = 1 ∧
        Resumes x [] k p))
    (by decide +kernel)
  split at hP
  · cases hP
  · rename_i x hlast
    obtain ⟨tr₀, rfl⟩ := List.getLast?_eq_some_iff.mp hlast
    obtain ⟨heax, hres, hresumes⟩ := of_decide_eq_true hP
    have hcall : Syscall.ofNumber x.act.1.trapframe.eax = some .procGetPid := by
      rw [heax]
      decide
    refine ⟨tr₀, x, k, p, hrun, hresumes, heax, hres, ((syscall_results hrun).2 p hresumes).mpr ?_⟩
    rw [losesResult_iff hcall]
    exact fun hw => hw.1

/-- Process 1 sleeps and resumes when the others have been destroyed, with the
number of the system call in place of the result. -/
theorem sleep_result_lost : ∃ (tr : List KernelStep) (x : KernelStep) (mid : List KernelStep)
    (k : Kernel) (p : Fin procMax),
      HarmlessRun (tr ++ x :: mid) k ∧ Resumes x mid k p ∧
      x.act.1.trapframe.eax = Syscall.procSleep.number ∧ x.act.2 = 0 ∧
      (k.registers p).map Trapframe.eax = some Syscall.procSleep.number ∧ ¬ Delivered x k p := by
  let p : Fin procMax := ⟨1, by decide⟩
  obtain ⟨tr, k, hrun, hP⟩ := harmlessRun_of_test Image.blank
    (List.replicate 11 Event.tick.occurs ++ Syscall.procSleep.made ::
      (List.replicate 2 Event.tick.occurs ++ List.replicate 9 Event.destroy.occurs))
    (fun tr k => match tr.drop 11 with
      | [] => false
      | x :: mid => decide (Resumes x mid k p ∧
        x.act.1.trapframe.eax = Syscall.procSleep.number ∧ x.act.2 = 0 ∧
        (k.registers p).map Trapframe.eax = some Syscall.procSleep.number))
    (by decide +kernel)
  split at hP
  · cases hP
  · rename_i x mid hdrop
    rw [← List.take_append_drop 11 tr, hdrop] at hrun
    obtain ⟨hresumes, hcall, hrc, heax⟩ := of_decide_eq_true hP
    refine ⟨tr.take 11, x, mid, k, p, hrun, hresumes, hcall, hrc, heax, fun hd => ?_⟩
    rw [hd, hrc] at heax
    have hzero : BitVec.ofInt 32 0 = Syscall.procSleep.number := Option.some.inj heax
    exact absurd hzero (by decide)

end Kernel
end UnivOS
