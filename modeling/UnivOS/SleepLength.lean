import UnivOS.Sleeping

/-! # How long a process sleeps

The timer tests the time left before it decrements it and wakes the process on the
other branch, so that a process sleeps for two ticks more than it asked for. The
ticks asked for are the product of the seconds and 100 as an `int`.
-/
namespace UnivOS
namespace Kernel
open Word

variable {k k' : Kernel} {i a : Fin procMax} {pid rc time seconds : Int} {e : Entry}
  {tr mid : List KernelStep} {x y : KernelStep}

/-! ## Who changes a sleep time -/

@[simp] theorem runnable_sleepTime (k : Kernel) (q : Queue) (j : Fin procMax) :
    ((k.runnable i q).procTable j).sleepTime = (k.procTable j).sleepTime :=
  same_of_update Proc.sleepTime rfl (by rfl) j

/-- Removal from a queue changes the entry of the process only. -/
theorem schedulerRemove_entry (hne : i ≠ a) (h : k.schedulerRemove (some a) = .ok k') :
    k'.procTable i = k.procTable i := by
  obtain ⟨r, s, _, _, hk⟩ := k.schedulerRemove_eq a
  cases hk.symm.trans h
  exact Function.update_of_ne hne ..

theorem schedulerSleep_entry (hne : i ≠ a) (h : k.schedulerSleep (some a) time = .ok k') :
    k'.procTable i = k.procTable i := by
  cases schedulerSleep_cases h with
  | again _ => exact modifyProc_ne _ _ hne
  | sleeps k₁ k₂ _ hrem hmoved =>
    have hentry : k₂.procTable i = k₁.procTable i := by rw [hmoved, modifyProc_ne k₁ _ hne]
    exact hentry.trans ((schedulerRemove_entry hne hrem).trans (modifyProc_ne k _ hne))

theorem kprocCreate_sleepTime (ht : TableOk k) (hi : k.Live i) {ptr : BitVec 32}
    {name : Option (List Byte)} {type : ProcType} (h : k.kprocCreate ptr name type = .ok (rc, k')) :
    (k'.procTable i).sleepTime = (k.procTable i).sleepTime := by
  rcases kprocCreate_cases ht h with ⟨_, _, rfl⟩ | ⟨j, q, p, m, hj, _, _, _, _, _, hadd⟩
  · rfl
  · obtain ⟨r, rfl, _⟩ := schedulerAdd_eq hadd
    have hne : i ≠ j := fun he => hj (he ▸ hi)
    rw [runnable_ne _ _ hne, allotProc_ne k p q m hne]

theorem kprocDestroy_sleepTime (ht : TableOk k) (ha : k.Live a) (hne : i ≠ a)
    (h : k.kprocDestroy (some a) = .ok (rc, k')) :
    (k'.procTable i).sleepTime = (k.procTable i).sleepTime := by
  rcases kprocDestroy_cases ht ha h with ⟨_, _, rfl⟩ | ⟨k₁, q, _, _, hrem, _, rfl⟩
  · rfl
  · rw [freeProc_ne k₁ q hne, schedulerRemove_entry hne hrem]

theorem mutexCall_sleepTime {call : MutexCall} (h : k.mutexCall call = .ok (rc, k')) :
    (k'.procTable i).sleepTime = (k.procTable i).sleepTime := by
  cases call with
  | init =>
    obtain ⟨f, q, hk⟩ := kmutexInit_frame k
    rw [eq_of_ok h, hk]
  | destroy id =>
    obtain ⟨f, q, hk⟩ := kmutexDestroy_frame k id
    rw [eq_of_ok h, hk]
  | lock id =>
    have h' : k.kmutexLock id = .ok (rc, k') := h
    cases hid : index mutexMax id with
    | none =>
      rw [kmutexLock, hid] at h'
      cases h'
      rfl
    | some m =>
      rw [index_eq_some.mp hid] at h'
      cases (kmutexLock_cases h').2 with
      | acquires _ same => rw [same]; rfl
      | counts _ _ same => rw [same]; rfl
      | blocks _ _ _ _ _ same => rw [same]; exact same_of_update Proc.sleepTime rfl (by rfl) i
  | unlock id =>
    have h' : k.kmutexUnlock id = .ok (rc, k') := h
    cases hid : index mutexMax id with
    | none =>
      rw [kmutexUnlock, hid] at h'
      cases h'
      rfl
    | some m =>
      rw [index_eq_some.mp hid] at h'
      cases kmutexUnlock_cases h' with
      | refused _ same => rw [same]
      | frees _ _ _ same => rw [same]; rfl
      | keeps _ _ _ _ same => rw [same]; rfl
      | handsOff _ _ _ r _ _ _ _ same => rw [same]; exact runnable_sleepTime k r i

theorem semCall_sleepTime {call : SemCall} (h : k.semCall call = .ok (rc, k')) :
    (k'.procTable i).sleepTime = (k.procTable i).sleepTime := by
  cases call with
  | init value =>
    obtain ⟨f, q, hk⟩ := ksemInit_frame k value
    rw [eq_of_ok h, hk]
  | destroy id =>
    obtain ⟨f, q, hk⟩ := ksemDestroy_frame k id
    rw [eq_of_ok h, hk]
  | wait id =>
    cases ksemWait_effect h with
    | returns _ same _ => rw [same]
    | blocks _ a k₁ _ _ _ _ _ _ _ removes same =>
      obtain ⟨r, s, _, _, hk⟩ := k.schedulerRemove_eq a
      cases hk.symm.trans removes
      rw [same]
      exact same_of_update Proc.sleepTime rfl (by rfl) i
  | post id =>
    cases ksemPost_effect h with
    | counts _ same => rw [same]
    | wakes _ q _ _ same => rw [same]; exact runnable_sleepTime k q i

/-- No event but a tick changes the sleep time of a process that is not active. -/
theorem handle_sleepTime (ht : TableOk k) (hi : k.Live i) (hne : k.activeProc ≠ some i) {ev : Event}
    (htick : ev ≠ .tick) (hsys : ev ≠ .syscall) (h : k.handle ev = .ok (rc, k')) :
    (k'.procTable i).sleepTime = (k.procTable i).sleepTime := by
  cases ev with
  | tick => exact absurd rfl htick
  | create ptr name type => exact kprocCreate_sleepTime ht hi h
  | destroy =>
    have h' : k.kprocDestroy k.activeProc = .ok (rc, k') := h
    cases hact : k.activeProc with
    | none => rw [hact] at h'; cases h'
    | some a =>
      rw [hact] at h'
      exact kprocDestroy_sleepTime ht (ht.active_live a hact) (fun he => hne (he ▸ hact)) h'
  | sleep time =>
    obtain ⟨k₁, h₁, h₂⟩ := Loop.bind_eq_ok.mp h
    cases h₂
    cases hact : k.activeProc with
    | none => rw [hact] at h₁; cases h₁
    | some a =>
      rw [hact] at h₁
      have hia : i ≠ a := fun he => hne (he ▸ hact)
      rw [schedulerSleep_entry hia h₁]
  | mutex call => exact mutexCall_sleepTime h
  | sem call => exact semCall_sleepTime h
  | syscall => exact absurd rfl hsys

theorem scheduleOut_sleepTime (h : k.scheduleOut = .ok k') (j : Fin procMax) :
    (k'.procTable j).sleepTime = (k.procTable j).sleepTime := by
  cases scheduleOut_cases h with
  | idle _ => rfl
  | stays _ _ _ => rfl
  | leaves _ _ _ => rfl
  | queued i _ _ _ _ => exact same_of_update Proc.sleepTime rfl (by rfl) j
  | rests i _ _ => exact same_of_update Proc.sleepTime rfl (by rfl) j

theorem schedulerRun_sleepTime (h : k.schedulerRun = .ok k') (j : Fin procMax) :
    (k'.procTable j).sleepTime = (k.procTable j).sleepTime := by
  obtain ⟨k₁, h₁, h₂⟩ := Loop.bind_eq_ok.mp h
  obtain ⟨i, hd⟩ := scheduleIn_dispatches h₂
  rw [← scheduleOut_sleepTime h₁ j]
  exact same_of_update Proc.sleepTime hd.table rfl j

/-! ## Who wakes a process -/

/-- The process is on the run queue or active. -/
def Woken (k : Kernel) (pid : Int) : Prop := pid ∈ k.places .run ∨ pid ∈ k.places .cpu

instance (k : Kernel) (pid : Int) : Decidable (k.Woken pid) :=
  inferInstanceAs (Decidable (_ ∨ _))

theorem woken_of_places (hrun : k'.places .run = k.places .run)
    (hcpu : k'.places .cpu = k.places .cpu) : k'.Woken pid ↔ k.Woken pid := by
  unfold Woken
  rw [hrun, hcpu]

theorem scheduleOut_woken (pid : Int) (h : k.scheduleOut = .ok k') :
    (pid ∈ k.places .run → pid ∈ k'.places .run) ∧ (k'.Woken pid → k.Woken pid) := by
  cases scheduleOut_cases h with
  | idle _ => exact ⟨id, id⟩
  | stays _ _ _ => exact ⟨id, id⟩
  | leaves _ _ _ => exact ⟨id, fun hw => .inl (hw.resolve_right nofun)⟩
  | rests _ _ _ => exact ⟨id, fun hw => .inl (hw.resolve_right nofun)⟩
  | queued i r hact _ hr =>
    have hr' : r.toList = k.places .run ++ k.places .cpu := by
      rw [places_cpu_some hact]
      exact hr
    refine ⟨fun hm => ?_, fun hw => ?_⟩
    · show pid ∈ r.toList
      rw [hr']
      exact List.mem_append_left _ hm
    · have hmem : pid ∈ r.toList := hw.resolve_right nofun
      rw [hr', List.mem_append] at hmem
      exact hmem

theorem scheduleIn_woken (hne : pid ≠ 0) (h : k.scheduleIn = .ok k') :
    k'.Woken pid ↔ k.Woken pid := by
  cases scheduleIn_cases h with
  | stays i hact =>
    refine woken_of_places rfl ?_
    exact places_cpu_congr rfl rfl rfl
  | next i x q hact hrun hfound =>
    unfold Woken
    rw [places_cpu_none hact, places_cpu_some (i := i) rfl, modifyProc_self]
    show pid ∈ q.toList ∨ pid ∈ [(k.procTable i).pid] ↔ pid ∈ k.runQueue.toList ∨ pid ∈ []
    rw [pid_of_pidToProc hfound, hrun]
    simp only [List.mem_cons, List.not_mem_nil, or_false]
    exact Or.comm
  | idle i hact hrun hfound =>
    unfold Woken
    rw [places_cpu_none hact, places_cpu_some (i := i) rfl, modifyProc_self]
    show pid ∈ k.runQueue.toList ∨ pid ∈ [(k.procTable i).pid] ↔ pid ∈ k.runQueue.toList ∨ pid ∈ []
    rw [pid_of_pidToProc hfound, List.mem_singleton]
    simp only [hne, List.not_mem_nil, or_false]

/-- The scheduler wakes nobody, and loses nobody who is on the run queue. -/
theorem schedulerRun_woken (hne : pid ≠ 0) (h : k.schedulerRun = .ok k') :
    (pid ∈ k.places .run → k'.Woken pid) ∧ (k'.Woken pid → k.Woken pid) := by
  obtain ⟨k₁, h₁, h₂⟩ := Loop.bind_eq_ok.mp h
  obtain ⟨hkept, hfrom⟩ := scheduleOut_woken pid h₁
  have hin := scheduleIn_woken hne h₂
  exact ⟨fun hm => hin.mpr (.inl (hkept hm)), fun hw => hfrom (hin.mp hw)⟩

/-! ## A tick with one sleeper -/

/-- What a tick does to a process that is alone in the sleep queue. -/
structure TickedAlone (i : Fin procMax) (k k' : Kernel) : Prop where
  time : (k'.procTable i).sleepTime = wrap32 ((k.procTable i).sleepTime - 1)
  kept : 0 ≤ (k.procTable i).sleepTime →
    (k'.Woken (k.procTable i).pid ↔ k.Woken (k.procTable i).pid)
  woken : (k.procTable i).sleepTime < 0 → (k.procTable i).pid ∈ k'.places .run

theorem timerBody_alone (ht : TableOk k) (hi : k.Live i)
    (hq : k.sleepQueue.toList = [(k.procTable i).pid]) (hk : k.timerBody = .ok k') :
    TickedAlone i k k' ∧ k'.sleepQueue.size ≤ 1 := by
  have hfind := ht.pidToProc_pid hi
  cases timerBody_cases hk with
  | empty hnil =>
    rw [hq] at hnil
    cases hnil
  | lost x q hqueue hnone =>
    obtain ⟨rfl, _⟩ := List.cons.inj (hqueue.symm.trans hq)
    rw [hfind] at hnone
    cases hnone
  | kept x l q j hqueue hfound hleft hback =>
    cases hqueue.symm.trans hq
    cases hfound.symm.trans hfind
    refine ⟨⟨?_, fun _ => woken_of_places rfl ?_, fun hover => ?_⟩, ?_⟩
    · show (Function.update k.procTable i _ i).sleepTime = _
      rw [Function.update_self]
    · exact places_cpu_congr rfl rfl rfl
    · exact absurd hleft (Int.not_le.mpr hover)
    · show q.size ≤ 1
      rw [q.size_eq, hback]
      exact Nat.le_refl 1
  | woken x q r j hqueue hfound hover hr =>
    obtain ⟨rfl, hl⟩ := List.cons.inj (hqueue.symm.trans hq)
    cases hfound.symm.trans hfind
    refine ⟨⟨?_, fun hleft => absurd hover (Int.not_lt.mpr hleft), fun _ => ?_⟩, ?_⟩
    · rw [runnable_sleepTime, modifyProc_self]
    · show (k.procTable i).pid ∈ r.toList
      rw [hr]
      exact List.mem_append_right _ (List.mem_singleton.mpr rfl)
    · show q.size ≤ 1
      rw [q.size_eq, hl]
      exact Nat.zero_le 1

theorem tick_alone (ht : TableOk k) (hi : k.Live i)
    (hq : k.sleepQueue.toList = [(k.procTable i).pid]) (hk : k.tick = .ok k') :
    TickedAlone i k k' := by
  have hsame := accountActive_sameSleepers { k with timerTicks := wrap32 (k.timerTicks + 1) }
  have hticks : Keeps k { k with timerTicks := wrap32 (k.timerTicks + 1) } :=
    Keeps.of_table rfl rfl rfl fun _ => id
  have hkeeps : Keeps k k.accounted := hticks.trans (accountActive_keeps _)
  have hpid : (k.accounted.procTable i).pid = (k.procTable i).pid := hsame.pid i
  have htime : (k.accounted.procTable i).sleepTime = (k.procTable i).sleepTime := hsame.sleepTime i
  have hqueue : k.accounted.sleepQueue.toList = [(k.accounted.procTable i).pid] := by
    rw [hpid, ← hq]
    exact congrArg (fun q : Queue => q.toList) hsame.sleep
  have hwoken : k.accounted.Woken (k.procTable i).pid ↔ k.Woken (k.procTable i).pid := by
    refine woken_of_places (congrArg (fun q : Queue => q.toList) hsame.run) ?_
    unfold places
    dsimp only
    rw [show k.accounted.activeProc = k.activeProc from accountActive_activeProc _]
    exact congrArg Option.toList (congrArg (fun f => k.activeProc.map f) (funext hsame.pid))
  have hsize : 0 < k.accounted.sleepQueue.size := by
    rw [Queue.size_eq, hqueue]
    exact Nat.one_pos
  obtain ⟨k₁, h₁, h₂⟩ : ∃ k₁, k.accounted.timerBody = .ok k₁ ∧
      Loop.live (fun k : Kernel => k.sleepQueue.size) timerBody (queueSize - 1) 1 k₁ = .ok k' := by
    have hk' : Loop.live (fun k : Kernel => k.sleepQueue.size) timerBody (queueSize - 1 + 1) 0
        k.accounted = .ok k' := hk
    rw [Loop.live, if_pos hsize] at hk'
    exact Loop.bind_eq_ok.mp hk'
  obtain ⟨hticked, hone⟩ := timerBody_alone (hkeeps.tableOk ht) ((hkeeps.live i).mpr hi) hqueue h₁
  have hdone : Loop.live (fun k : Kernel => k.sleepQueue.size) timerBody (queueSize - 1) 1 k₁ =
      .ok k₁ := Loop.live_of_le (by exact hone) _
  cases hdone.symm.trans h₂
  refine ⟨by rw [hticked.time, htime], fun hleft => ?_, fun hover => ?_⟩
  · rw [← hwoken, ← hpid]
    exact hticked.kept (htime ▸ hleft)
  · rw [← hpid]
    exact hticked.woken (htime ▸ hover)

/-! ## Entries while it sleeps alone -/

/-- The process is the only one in the sleep queue and has not been woken. -/
structure SleepsAlone (pid : Int) (k : Kernel) : Prop where
  queue : k.sleepQueue.toList = [pid]
  asleep : ¬ k.Woken pid

instance (pid : Int) (k : Kernel) : Decidable (SleepsAlone pid k) :=
  decidable_of_iff (k.sleepQueue.toList = [pid] ∧ ¬ k.Woken pid)
    ⟨fun h => ⟨h.1, h.2⟩, fun h => ⟨h.queue, h.asleep⟩⟩

theorem Still.woken (h : Still k k') : k'.Woken pid ↔ k.Woken pid := by
  unfold Woken
  rw [h.places]

theorem SleepsAlone.not_active (h : SleepsAlone (k.procTable i).pid k) : k.activeProc ≠ some i :=
  fun hact => h.asleep (.inr (mem_cpu.mpr ⟨i, hact, rfl⟩))

theorem kernelContextEnter_keepsTime (ht : TableOk k) (hi : k.Live i)
    (hne : k.activeProc ≠ some i) (htick : e.call ≠ some .tick)
    (hk : kernelContextEnter e k = .ok (rc, k')) :
    (k'.procTable i).sleepTime = (k.procTable i).sleepTime := by
  obtain ⟨k₂, h₂, hrun⟩ := kernelContextEnter_ok hk
  obtain ⟨k₁, hres, hcall⟩ := entered_call h₂
  have hset : (k₂.procTable i).sleepTime = (k₁.procTable i).sleepTime := by
    rcases hres with rfl | rfl
    · rfl
    · exact (setResult_only k₁ rc).sleepTime i
  rw [schedulerRun_sleepTime hrun, hset, ← (entered_only k e).sleepTime i]
  rcases hcall with ⟨ev, hev, hsys, h₁⟩ | ⟨_, ttys, mem, rfl⟩
  · have hent := entered_sameTable k e
    refine handle_sleepTime (hent.tableOk ht) ((hent.live i).mpr hi)
      (fun ha => hne (hent.active i ha)) ?_ hsys h₁
    rintro rfl
    exact htick hev
  · rfl

/-- A tick while the process sleeps alone wakes it exactly if its time is over. -/
theorem kernelContextEnter_tick_alone (ht : TableOk k) (hi : k.Live i)
    (hne : (k.procTable i).pid ≠ 0) (halone : SleepsAlone (k.procTable i).pid k)
    (htick : e.call = some .tick) (hk : kernelContextEnter e k = .ok (rc, k')) :
    (k'.procTable i).sleepTime = wrap32 ((k.procTable i).sleepTime - 1) ∧
      (k'.Woken (k.procTable i).pid ↔ (k.procTable i).sleepTime < 0) := by
  obtain ⟨k₂, h₂, hrun⟩ := kernelContextEnter_ok hk
  obtain ⟨k₁, hres, ⟨ev, hev, _, h₁⟩ | ⟨hnone, _⟩⟩ := entered_call h₂
  · rw [htick] at hev
    cases hev
    obtain ⟨k₃, h₃, h₄⟩ := Loop.bind_eq_ok.mp h₁
    cases h₄
    have hent := entered_sameTable k e
    have hstill := entered_still k e
    have hpid : ((k.entered e).procTable i).pid = (k.procTable i).pid := hstill.pid i
    have hqueue : (k.entered e).sleepQueue.toList = [((k.entered e).procTable i).pid] := by
      rw [hpid, ← halone.queue]
      exact congrFun hstill.places .sleep
    have hticked := tick_alone (hent.tableOk ht) ((hent.live i).mpr hi) hqueue h₃
    have hset : Still k₁ k₂ ∧ (k₂.procTable i).sleepTime = (k₁.procTable i).sleepTime := by
      rcases hres with rfl | rfl
      · exact ⟨.refl _, rfl⟩
      · exact ⟨setResult_still k₁ 0, (setResult_only k₁ 0).sleepTime i⟩
    have htime := (entered_only k e).sleepTime i
    obtain ⟨hstays, hfrom⟩ := schedulerRun_woken hne hrun
    refine ⟨?_, ?_, fun hover => ?_⟩
    · rw [schedulerRun_sleepTime hrun, hset.2, hticked.time, htime]
    · -- had it time left, the tick would have left it asleep
      intro hw
      by_contra hleft
      rw [Int.not_lt, ← htime] at hleft
      have hkept := hticked.kept hleft
      rw [hpid] at hkept
      exact halone.asleep (hstill.woken.mp (hkept.mp (hset.1.woken.mp (hfrom hw))))
    · have hmem := hticked.woken (htime ▸ hover)
      rw [hpid] at hmem
      refine hstays ?_
      rw [hset.1.places]
      exact hmem
  · rw [htick] at hnone
    cases hnone

/-- The process that has gone to sleep for `time` ticks sleeps alone, and `n` ticks
are over. -/
structure Counted (i : Fin procMax) (pid time : Int) (n : Nat) (k : Kernel) : Prop where
  live : k.Live i
  named : (k.procTable i).pid = pid
  alone : SleepsAlone pid k
  left : (k.procTable i).sleepTime = time - n
  first : n = 0 ∨ -1 ≤ time - n

theorem Counted.step {n : Nat} (h : Counted i pid time n k) (ht : TableOk k) (hint : InInt32 time)
    (hne : pid ≠ 0) (hk : kernelContextEnter e k = .ok (rc, k')) (halone : SleepsAlone pid k') :
    Counted i pid time (n + if e.call = some .tick then 1 else 0) k' := by
  obtain rfl := h.named
  have hsame := kernelContextEnter_sameProc ht h.live h.alone.not_active hk
  have hleft := h.left
  by_cases htick : e.call = some .tick
  · rw [if_pos htick]
    obtain ⟨htime, hwoken⟩ := kernelContextEnter_tick_alone ht h.live hne h.alone htick hk
    have hmore : 0 ≤ (k.procTable i).sleepTime := Int.not_lt.mp fun hover =>
      halone.asleep (hwoken.mpr hover)
    have hdec : wrap32 ((k.procTable i).sleepTime - 1) = (k.procTable i).sleepTime - 1 := by
      refine wrap32_of_inInt32 ⟨by omega, ?_⟩
      have := hint.2
      omega
    refine ⟨hsame.live, hsame.pid, halone, ?_, .inr ?_⟩
    · rw [htime, hdec, hleft]
      omega
    · omega
  · rw [if_neg htick]
    refine ⟨hsame.live, hsame.pid, halone, ?_, h.first⟩
    rw [kernelContextEnter_keepsTime ht h.live h.alone.not_active htick hk]
    exact hleft

/-! ## The system call -/

/-- Process `i`, which is not the idle task, makes the system call in step `x`. -/
structure SleepCall (x : KernelStep) (i : Fin procMax) (seconds : Int) : Prop where
  event : x.act.1.event = .syscall
  number : Syscall.ofNumber x.act.1.trapframe.eax = some .procSleep
  argument : x.act.1.trapframe.ebx.toInt = seconds
  caller : x.pre.activeProc = some i
  notIdle : (x.pre.procTable i).pid ≠ 0

instance (x : KernelStep) (i : Fin procMax) (seconds : Int) : Decidable (SleepCall x i seconds) :=
  decidable_of_iff (x.act.1.event = .syscall ∧
      Syscall.ofNumber x.act.1.trapframe.eax = some .procSleep ∧
      x.act.1.trapframe.ebx.toInt = seconds ∧ x.pre.activeProc = some i ∧
      (x.pre.procTable i).pid ≠ 0)
    ⟨fun h => ⟨h.1, h.2.1, h.2.2.1, h.2.2.2.1, h.2.2.2.2⟩,
      fun h => ⟨h.event, h.number, h.argument, h.caller, h.notIdle⟩⟩

theorem SleepCall.call (h : SleepCall x i seconds) :
    x.act.1.call = some (.sleep (wrap32 (seconds * 100))) := by
  rw [Entry.call, if_pos h.event, h.number, ← h.argument]
  rfl

/-- The tick after the call that wakes a process which sleeps alone. -/
def wakeTick (seconds : Int) : Int :=
  if wrap32 (seconds * 100) < 0 then 1 else wrap32 (seconds * 100) + 2

/-- It is never the tick that was asked for. -/
theorem wakeTick_ne (seconds : Int) : wakeTick seconds ≠ 100 * seconds := by
  unfold wakeTick wrap32
  rw [Int.bmod_def]
  split
  · omega
  · split <;> omega

theorem counted_of_sleep (ht : TableOk k) (hact : k.activeProc = some i)
    (hstate : (k.procTable i).state = .active) (hcall : e.call = some (.sleep time))
    (hk : kernelContextEnter e k = .ok (rc, k')) (halone : SleepsAlone (k.procTable i).pid k') :
    Counted i (k.procTable i).pid time 0 k' := by
  obtain ⟨k₂, h₂, hrun⟩ := kernelContextEnter_ok hk
  obtain ⟨k₁, hres, ⟨ev, hev, hsys, h₁⟩ | ⟨hnone, _⟩⟩ := entered_call h₂
  · rw [hcall] at hev
    cases hev
    obtain ⟨k₃, h₃, h₄⟩ := Loop.bind_eq_ok.mp h₁
    cases h₄
    have hent := entered_sameTable k e
    have hself := entered_self hact e
    have hact₀ : (k.entered e).activeProc = some i := (entered_still k e).active.trans hact
    rw [hact₀] at h₃
    obtain ⟨r, s, _, _, he⟩ := schedulerSleep_eq hact₀ (by rw [hself, hstate]; exact nofun) time
    have hset : SameTable k₁ k₂ ∧ (k₂.procTable i).sleepTime = (k₁.procTable i).sleepTime := by
      rcases hres with rfl | rfl
      · exact ⟨(Keeps.refl _).toSameTable, rfl⟩
      · exact ⟨setResult_sameTable k₁ 0, (setResult_only k₁ 0).sleepTime i⟩
    have hi₁ : k₁.Live i ∧ (k₁.procTable i).pid = (k.procTable i).pid ∧
        (k₁.procTable i).sleepTime = time := by
      cases he.symm.trans h₃
      unfold Live
      dsimp only
      rw [Function.update_self, hself]
      exact ⟨nofun, rfl, rfl⟩
    have hsame := schedulerRun_sameProc (handle_tableOk (hent.tableOk ht) h₂)
      ((hset.1.live i).mpr hi₁.1) hrun
    refine ⟨hsame.live, ?_, halone, ?_, .inl rfl⟩
    · rw [hsame.pid, hset.1.pid, hi₁.2.1]
    · rw [schedulerRun_sleepTime hrun, hset.2, hi₁.2.2]
      exact (Int.sub_zero time).symm
  · rw [hcall] at hnone
    cases hnone

/-! ## Runs -/

theorem counted_of_run
    (h : Trace.Run Start (Trace.Exec kernelContextEnter fun _ _ _ => True) (tr ++ x :: mid) k)
    (hx : SleepCall x i seconds)
    (halone : ∀ z ∈ x :: mid, SleepsAlone (x.pre.procTable i).pid z.post) :
    Counted i (x.pre.procTable i).pid (wrap32 (seconds * 100)) (ticks mid) k := by
  obtain ⟨hr, _, henter⟩ := run_step h
  refine h.after_history (P := fun mid' s => Counted i (x.pre.procTable i).pid
    (wrap32 (seconds * 100)) (ticks mid') s) ?_ ?_
  · exact counted_of_sleep (tableOk_of_run hr) hx.caller (active_state_of_run hr i hx.caller)
      hx.call henter (halone x List.mem_cons_self)
  · intro mid' z hz hr' hn hs
    have hmem : z ∈ mid := hz.subset (by simp)
    rw [ticks_snoc]
    exact hs.step (tableOk_of_run hr') (wrap32_inInt32 _) hx.notIdle hn.2
      (halone z (List.mem_cons_of_mem x hmem))

/-- **Sleep does not last as long as requested.** In every run in which a process
calls `ksyscall_proc_sleep` and sleeps alone until the tick `y`, that tick wakes it
exactly if it is the one `wakeTick` names, which is never the one asked for. -/
theorem proc_sleep_wakes_iff
    (h : Trace.Run Start (Trace.Exec kernelContextEnter fun _ _ _ => True)
      (tr ++ x :: (mid ++ [y])) k)
    (hx : SleepCall x i seconds)
    (halone : ∀ z ∈ x :: mid, SleepsAlone (x.pre.procTable i).pid z.post)
    (hy : y.act.1.call = some .tick) :
    (k.Woken (x.pre.procTable i).pid ↔ ticks (mid ++ [y]) = wakeTick seconds) ∧
      wakeTick seconds ≠ 100 * seconds := by
  refine ⟨?_, wakeTick_ne seconds⟩
  have hsplit : tr ++ x :: (mid ++ [y]) = (tr ++ x :: mid) ++ [y] := by simp
  rw [hsplit] at h
  obtain ⟨hr, hn, rfl⟩ := h.snoc_inv
  have hc := counted_of_run hr hx halone
  obtain ⟨_, hwoken⟩ := kernelContextEnter_tick_alone (tableOk_of_run hr) hc.live
    (by rw [hc.named]; exact hx.notIdle) (by rw [hc.named]; exact hc.alone) hy hn.2
  rw [hc.named, hc.left] at hwoken
  have hfirst := hc.first
  rw [hwoken, ticks_snoc, if_pos hy, wakeTick]
  split <;> omega

/-- An entry with the system call `proc_sleep`. -/
def sleepEntry (seconds : BitVec 32) : Entry :=
  { Trapframe.zero with eax := Syscall.procSleep.number, ebx := seconds }.entry .syscall

/-- Process 1 asks for one second and is woken by the tick 102. -/
theorem proc_sleep_wakes_second : ∃ (tr : List KernelStep) (x : KernelStep)
    (mid : List KernelStep) (y : KernelStep) (k : Kernel) (i : Fin procMax),
      Trace.Run Start (Trace.Exec kernelContextEnter fun _ _ _ => True)
        (tr ++ x :: (mid ++ [y])) k ∧
      SleepCall x i 1 ∧ ticks (mid ++ [y]) = 102 ∧ k.Woken (x.pre.procTable i).pid := by
  let i : Fin procMax := ⟨1, by decide⟩
  obtain ⟨tr, k, hrun, hP⟩ := run_of_test (fun _ _ _ => True) (kernelInit Image.blank)
    ((List.replicate 11 Event.tick).map Event.entry ++ sleepEntry 1 ::
      (List.replicate 102 Event.tick).map Event.entry)
    (fun tr k => match tr.drop 11 with
      | [] => false
      | x :: rest => match rest.getLast? with
        | none => false
        | some y => decide (SleepCall x i 1 ∧ y.act.1.call = some .tick ∧ ticks rest = 102 ∧
          ∀ z ∈ x :: rest.dropLast, SleepsAlone (x.pre.procTable i).pid z.post))
    (fun k hk => (⟨Image.blank, hk⟩ : Start k)) (by decide +kernel)
  split at hP
  · cases hP
  · rename_i x rest hdrop
    split at hP
    · cases hP
    · rename_i y hlast
      obtain ⟨mid, rfl⟩ := List.getLast?_eq_some_iff.mp hlast
      rw [← List.take_append_drop 11 tr, hdrop] at hrun
      rw [List.dropLast_concat] at hP
      obtain ⟨hx, hy, hticks, halone⟩ := of_decide_eq_true hP
      have hwakes := proc_sleep_wakes_iff hrun hx halone hy
      refine ⟨tr.take 11, x, mid, y, k, i, hrun, hx, hticks, hwakes.1.mpr ?_⟩
      rw [hticks]
      decide

/-- Process 1 asks for one second and is still asleep after 100 ticks, in which it was
alone in the sleep queue. -/
theorem proc_sleep_too_long : ∃ (tr : List KernelStep) (x : KernelStep)
    (mid : List KernelStep) (k : Kernel) (i : Fin procMax),
      Trace.Run Start (Trace.Exec kernelContextEnter fun _ _ _ => True) (tr ++ x :: mid) k ∧
      SleepCall x i 1 ∧ ticks mid = 100 * 1 ∧
      ∀ z ∈ x :: mid, SleepsAlone (x.pre.procTable i).pid z.post := by
  let i : Fin procMax := ⟨1, by decide⟩
  obtain ⟨tr, k, hrun, hP⟩ := run_of_test (fun _ _ _ => True) (kernelInit Image.blank)
    ((List.replicate 11 Event.tick).map Event.entry ++ sleepEntry 1 ::
      (List.replicate 100 Event.tick).map Event.entry)
    (fun tr k => match tr.drop 11 with
      | [] => false
      | x :: mid => decide (SleepCall x i 1 ∧ ticks mid = 100 * 1 ∧
        ∀ z ∈ x :: mid, SleepsAlone (x.pre.procTable i).pid z.post))
    (fun k hk => (⟨Image.blank, hk⟩ : Start k)) (by decide +kernel)
  split at hP
  · cases hP
  · rename_i x mid hdrop
    rw [← List.take_append_drop 11 tr, hdrop] at hrun
    exact ⟨tr.take 11, x, mid, k, i, hrun, of_decide_eq_true hP⟩

end Kernel
end UnivOS
