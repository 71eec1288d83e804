import UnivOS.Locking

/-! # Runs of kernel entries

The entries without semaphores and mutex destruction, in which only processes
other than the idle task make calls: an event is handled, then `scheduler_run`
picks the process to return to. `Ready` is what they need to find.
-/
namespace UnivOS

namespace Kernel
open Word

variable {k k' : Kernel} {loc : Int → Option Place} {i : Fin procMax} {rc : Int}
  {tr : List KernelStep}

/-! ## The scheduler -/

/-- The head of the run queue `run` is dispatched, or the idle task if it is
empty, with a new time slice. -/
inductive Dispatched (run : List Int) (k' : Kernel) : Prop
  | next (i : Fin procMax) (head : run = (k'.procTable i).pid :: k'.runQueue.toList)
      (active : k'.activeProc = some i) (slice : (k'.procTable i).cpuTime = 0)
  | idle (empty : run = []) (empty' : k'.runQueue.toList = [])
      (active : k'.activeProc = some idleProc) (slice : (k'.procTable idleProc).cpuTime = 0)

theorem scheduleIn_dispatched (hs : Scheduled k) (ht : TableOk k) (hact : k.activeProc = none) :
    ∃ k', k.scheduleIn = .ok k' ∧ Scheduled k' ∧ Dispatched k.runQueue.toList k' := by
  obtain ⟨loc, h⟩ := hs
  obtain ⟨k', i, src, hk, hi, hsrc, hm, hcpu⟩ := scheduleIn_moved h ht hact
  have hactive : k'.activeProc = some i := by rw [hm.active, if_pos rfl]
  have hrun := hm.lists.after .run
  rw [if_neg (c := some Place.cpu = some Place.run) nofun, List.append_nil] at hrun
  refine ⟨k', hk, ⟨_, h.moved ht hi hm (fun hn => ?_) nofun fun _ => .inr (.inl rfl)⟩, ?_⟩
  · rcases hsrc with rfl | ⟨_, rfl, h0, _⟩
    · cases hn
    · rw [ht.idle_pid, h0]
  · rcases hsrc with rfl | ⟨rfl, rfl, _, hempty⟩
    · obtain ⟨r, hr⟩ := List.head?_eq_some_iff.mp (hm.lists.head .run rfl)
      refine .next i ?_ hactive hcpu
      rw [if_pos rfl, hr] at hrun
      rw [hm.pid]
      exact hr.trans (congrArg _ hrun.symm)
    · rw [if_neg nofun] at hrun
      exact .idle hempty (hrun.trans hempty) hactive hcpu

/-- What `scheduler_run` does. -/
inductive Rescheduled (k k' : Kernel) : Prop
  | stays (i : Fin procMax) (active : k.activeProc = some i)
      (slice : (k.procTable i).cpuTime < schedulerTimeslice) (same : k' = k)
  | switches (new : List Int) (notIdle : (0 : Int) ∉ new)
      (dispatched : Dispatched (k.runQueue.toList ++ new) k')

theorem schedulerRun_rescheduled (hs : Scheduled k) (ht : TableOk k) :
    ∃ k', k.schedulerRun = .ok k' ∧ Scheduled k' ∧ Rescheduled k k' := by
  cases hact : k.activeProc with
  | none =>
    have hout : k.scheduleOut = .ok k := by rw [scheduleOut, hact]
    obtain ⟨k', hk, hs', hd⟩ := scheduleIn_dispatched hs ht hact
    refine ⟨k', by rw [schedulerRun, hout, Loop.ok_bind, hk], hs', .switches [] (by simp) ?_⟩
    rwa [List.append_nil]
  | some i =>
    obtain ⟨loc, h⟩ := hs
    have hstate := (h.active ht hact).1
    have hi := ht.active_live i hact
    by_cases htime : (k.procTable i).cpuTime ≥ schedulerTimeslice
    · obtain ⟨k₁, dst, hout, hdst, hm⟩ := scheduleOut_moved h ht hact htime
      have ht₁ := (scheduleOut_keeps ht hout).tableOk ht
      have hs₁ : Scheduled k₁ := by
        refine ⟨_, h.moved ht hi hm nofun (fun hn => ?_) fun he => ?_⟩
        · rcases hdst with ⟨rfl, _⟩ | ⟨_, rfl⟩
          · rfl
          · cases hn
        · rcases hdst with ⟨_, rfl⟩ | ⟨hne, _⟩
          · exact .inl rfl
          · exact absurd he hne
      have hact₁ : k₁.activeProc = none := by
        rw [hm.active, if_pos rfl, if_neg]
        rcases hdst with ⟨_, rfl⟩ | ⟨_, rfl⟩ <;> exact nofun
      obtain ⟨k', hk, hs', hd⟩ := scheduleIn_dispatched hs₁ ht₁ hact₁
      have hrun := hm.lists.after .run
      rw [if_neg nofun] at hrun
      refine ⟨k', by rw [schedulerRun, hout, Loop.ok_bind, hk], hs',
        .switches (if dst = some .run then [(k.procTable i).pid] else []) ?_ (hrun ▸ hd)⟩
      rcases hdst with ⟨_, rfl⟩ | ⟨hne, rfl⟩
      · simp
      · rw [if_pos rfl, List.mem_singleton]
        exact fun h0 => hne ((ht.pid_eq_zero hi).mp h0.symm)
    · have hout : k.scheduleOut = .ok k := by
        unfold scheduleOut
        simp only [hact]
        rw [if_neg (not_not_intro hstate), if_neg htime]
      have htake : k.takeNext = k := by rw [takeNext, hact]
      have hin : k.scheduleIn = .ok k := by
        rw [scheduleIn, htake, hact]
        exact congrArg Except.ok (modifyProc_eq_self k i _ (by rw [← hstate]))
      exact ⟨k, by rw [schedulerRun, hout, Loop.ok_bind, hin], ⟨loc, h⟩,
        .stays i hact (not_le.mp htime) rfl⟩

/-! ## The entries of the runs -/

/-- A process other than the idle task is running. -/
def NonIdle (k : Kernel) : Prop := ∃ i, k.activeProc = some i ∧ (k.procTable i).pid ≠ 0

/-- An earlier `kmutex_init` returned the id. -/
def Returned (tr : List KernelStep) (m : Fin mutexMax) : Prop :=
  ∃ x ∈ tr, x.act.1.call = some (.mutex .init) ∧ x.act.2 = ((m : Nat) : Int)

def Permitted (tr : List KernelStep) (k : Kernel) : Event → Prop
  | .tick => True
  | .create .. => True
  | .destroy => True
  | .sleep _ => NonIdle k
  | .mutex .init => NonIdle k
  | .mutex (.destroy _) => False
  | .mutex (.lock id) => NonIdle k ∧ ∃ m : Fin mutexMax, id = ((m : Nat) : Int) ∧ Returned tr m
  | .mutex (.unlock id) => NonIdle k ∧ ∃ m : Fin mutexMax, id = ((m : Nat) : Int) ∧ Returned tr m
  | .sem _ => False
  | .syscall => False

/-- The entries of the runs: a permitted event, or a system call that makes it;
the idle task makes no system call. -/
structure Allowed (tr : List KernelStep) (k : Kernel) (e : Entry) : Prop where
  call : ∃ ev, e.call = some ev ∧ Permitted tr k ev
  caller : e.event = .syscall → NonIdle k

/-- The ids still to be given out are those of mutexes nobody has used. -/
structure MutexIds (tr : List KernelStep) (k : Kernel) : Prop where
  nodup : k.mutexQueue.toList.Nodup
  fresh : ∀ m : Fin mutexMax, ((m : Nat) : Int) ∈ k.mutexQueue.toList → k.mutexes m = Mutex.zero
  returned : ∀ m : Fin mutexMax, Returned tr m → ((m : Nat) : Int) ∉ k.mutexQueue.toList

/-- The invariant of the runs. -/
structure Ready (tr : List KernelStep) (k : Kernel) : Prop where
  table : TableOk k
  scheduled : Scheduled k
  mutexIds : MutexIds tr k

/-! ## Handlers -/

/-- What an event does to the mutexes. -/
def MutexEffect (k : Kernel) (rc : Int) (k' : Kernel) : Event → Prop
  | .mutex .init => InitEffect k rc k'
  | .mutex (.lock id) => k'.mutexQueue = k.mutexQueue ∧ ∃ (m : Fin mutexMax) (i : Fin procMax),
      id = ((m : Nat) : Int) ∧ k.activeProc = some i ∧ LockEffect k m i k'
  | .mutex (.unlock id) => k'.mutexQueue = k.mutexQueue ∧ ∃ (m : Fin mutexMax) (i : Fin procMax),
      id = ((m : Nat) : Int) ∧ k.activeProc = some i ∧ UnlockEffect k m i k'
  | _ => SameMutexes k k'

/-- What the handler of an event does. The timer's charges the active process
first. -/
structure Serves (k : Kernel) (ev : Event) (rc : Int) (k' : Kernel) : Prop where
  scheduled : Scheduled k'
  handled : Handled k k' ∨ Handled k.accountActive k'
  mutexes : MutexEffect k rc k' ev

theorem kmutexInit_still (hm : MutexIds tr k) : Still k k.kmutexInit.2 := by
  have hwait : ∀ n, (k.kmutexInit.2.mutexes n).waitQueue = (k.mutexes n).waitQueue := by
    intro n
    cases kmutexInit_effect k with
    | refused _ hmut _ => rw [hmut]
    | allocated m _ hids hmut =>
      rw [hmut]
      by_cases hn : n = m
      · rw [hn, Function.update_self, hm.fresh m (hids ▸ List.mem_cons_self)]
      · rw [Function.update_of_ne hn]
  obtain ⟨f, q, hk⟩ := kmutexInit_frame k
  rw [hk] at hwait ⊢
  exact .of_waitQueue rfl rfl rfl rfl hwait

theorem lockEffect_serves (h : Located k loc) (ht : TableOk k) (hact : k.activeProc = some i)
    (h0 : (k.procTable i).pid ≠ 0) {m : Fin mutexMax} (he : LockEffect k m i k') :
    Scheduled k' ∧ Handled k k' := by
  have hi := ht.active_live i hact
  cases he with
  | blocked q _ _ hm _ =>
    have hne : i ≠ idleProc := fun he => h0 ((ht.pid_eq_zero hi).mpr he)
    exact ⟨⟨_, h.moved ht hi hm nofun nofun fun he => absurd he hne⟩, hm.handled h nofun nofun h0⟩
  | acquired _ hstill _ => exact ⟨⟨loc, h.still hstill⟩, hstill.handled⟩

theorem unlockEffect_serves (h : Located k loc) (ht : TableOk k) {m : Fin mutexMax}
    (he : UnlockEffect k m i k') : Scheduled k' ∧ Handled k k' := by
  cases he with
  | refused _ hk => rw [hk]; exact ⟨⟨loc, h⟩, .refl k⟩
  | freed _ _ _ hstill _ => exact ⟨⟨loc, h.still hstill⟩, hstill.handled⟩
  | kept _ _ _ _ hstill _ => exact ⟨⟨loc, h.still hstill⟩, hstill.handled⟩
  | handedOff j q _ _ _ hj hne _ hm _ =>
    refine ⟨⟨_, h.moved ht hj hm nofun nofun fun he => absurd he hne⟩, hm.handled h nofun nofun ?_⟩
    exact fun h0 => hne ((ht.pid_eq_zero hj).mp h0)

/-- Every permitted event is served. -/
theorem handle_serves (hr : Ready tr k) {ev : Event} (hp : Permitted tr k ev)
    (h : k.handle ev = .ok (rc, k')) : Serves k ev rc k' := by
  obtain ⟨ht, hs, hm⟩ := hr
  obtain ⟨loc, hl⟩ := hs
  cases ev with
  | tick =>
    have hmut := handle_sameMutexes ht h (by simp) (by simp)
    obtain ⟨k₁, hk, hs', hh⟩ := tick_handled ⟨loc, hl⟩ ht
    rw [handle, hk] at h
    cases h
    exact ⟨hs', .inr hh, hmut⟩
  | create ptr name type =>
    obtain ⟨hs', hh⟩ := kprocCreate_handled ⟨loc, hl⟩ ht h
    exact ⟨hs', .inl hh, handle_sameMutexes ht h (by simp) (by simp)⟩
  | destroy =>
    cases hact : k.activeProc with
    | none => rw [handle, hact] at h; cases h
    | some i =>
      have hmut := handle_sameMutexes ht h (by simp) (by simp)
      obtain ⟨rc₁, k₁, hk, hs', hh⟩ := kprocDestroy_handled ⟨loc, hl⟩ ht hact
      rw [handle, hact, hk] at h
      cases h
      exact ⟨hs', .inl hh, hmut⟩
  | sleep time =>
    obtain ⟨i, hact, h0⟩ := hp
    have hmut := handle_sameMutexes ht h (by simp) (by simp)
    obtain ⟨k₁, hk, hs', hh⟩ := schedulerSleep_handled ⟨loc, hl⟩ ht hact h0 time
    rw [handle, hact, hk] at h
    cases h
    exact ⟨hs', .inl hh, hmut⟩
  | mutex call =>
    cases call with
    | init =>
      obtain ⟨rfl, rfl⟩ := Prod.mk.inj (Except.ok.inj h)
      have hstill := kmutexInit_still hm
      exact ⟨⟨loc, hl.still hstill⟩, .inl hstill.handled, kmutexInit_effect k⟩
    | destroy id => cases hp
    | lock id =>
      obtain ⟨⟨i, hact, h0⟩, m, rfl, _⟩ := hp
      obtain ⟨rc₁, k₁, hk, hmq, he⟩ := kmutexLock_effect hl hact m
      rw [handle, mutexCall, hk] at h
      cases h
      obtain ⟨hs', hh⟩ := lockEffect_serves hl ht hact h0 he
      exact ⟨hs', .inl hh, hmq, m, i, rfl, hact, he⟩
    | unlock id =>
      obtain ⟨⟨i, hact, h0⟩, m, rfl, _⟩ := hp
      obtain ⟨rc₁, k₁, hk, hmq, he⟩ := kmutexUnlock_effect hl ht hact m
      rw [handle, mutexCall, hk] at h
      cases h
      obtain ⟨hs', hh⟩ := unlockEffect_serves hl ht he
      exact ⟨hs', .inl hh, hmq, m, i, rfl, hact, he⟩
  | sem call => cases hp
  | syscall => cases hp

/-! ## Entries -/

theorem modifyProc_still (k : Kernel) (i : Fin procMax) {f : Proc → Proc}
    (hpid : (f (k.procTable i)).pid = (k.procTable i).pid)
    (hstate : (f (k.procTable i)).state = (k.procTable i).state)
    (hcpu : (f (k.procTable i)).cpuTime = (k.procTable i).cpuTime) :
    Still k (k.modifyProc i f) :=
  ⟨places_modifyProc hpid, rfl, same_of_update Proc.pid rfl hpid,
    same_of_update Proc.state rfl hstate, same_of_update Proc.cpuTime rfl hcpu⟩

theorem Still.refl (k : Kernel) : Still k k := ⟨rfl, rfl, fun _ => rfl, fun _ => rfl, fun _ => rfl⟩

theorem entered_still (k : Kernel) (e : Entry) : Still k (k.entered e) := by
  have hmem : Still k { k with mem := e.mem } := .of_waitQueue rfl rfl rfl rfl fun _ => rfl
  unfold entered saveTrapframe
  split
  · exact hmem
  · exact hmem.trans (modifyProc_still _ _ rfl rfl rfl)

theorem setResult_still (k : Kernel) (rc : Int) : Still k (k.setResult rc) := by
  obtain ⟨mem, hk⟩ := setResult_frame k rc
  rw [hk]
  exact .of_waitQueue rfl rfl rfl rfl fun _ => rfl

theorem entered_self (hact : k.activeProc = some i) (e : Entry) :
    (k.entered e).procTable i = { k.procTable i with trapframe := some e.frame } := by
  have hact' : { k with mem := e.mem }.activeProc = some i := hact
  unfold entered saveTrapframe
  rw [hact']
  exact modifyProc_self ..

theorem entered_mem (k : Kernel) (e : Entry) : (k.entered e).mem = e.mem := by
  unfold entered saveTrapframe
  split <;> rfl

/-- The active process is saved. -/
theorem entered_registers (hact : k.activeProc = some i) (e : Entry) :
    (k.entered e).registers i = some e.trapframe := by
  rw [registers, entered_self hact, entered_mem]
  rfl

/-- A handler runs the event behind the entry; a system call then leaves the
result with the active process. -/
theorem entered_handle {e : Entry} {ev : Event} (hc : e.call = some ev)
    (hcaller : e.event = .syscall → NonIdle k) :
    (k.entered e).handle e.event = (do
      let (rc, k') ← (k.entered e).handle ev
      .ok (rc, if e.event = .syscall then k'.setResult rc else k')) := by
  unfold Entry.call at hc
  by_cases hsys : e.event = .syscall
  · obtain ⟨i, hact, _⟩ := hcaller hsys
    rw [if_pos hsys, Option.bind_eq_some_iff] at hc
    obtain ⟨call, hnum, hev⟩ := hc
    have hactive : (k.entered e).activeProc = some i := by rw [(entered_still k e).active, hact]
    have hframe : ((k.entered e).procTable i).trapframe = some e.frame := by
      rw [entered_self hact]
    have htf : Trapframe.read (k.entered e).mem e.frame = e.trapframe := by
      rw [entered_mem, Entry.trapframe]
    simp only [hsys, if_true]
    rw [← ksyscall_event hev]
    show (k.entered e).ksyscallIrqHandler = _
    unfold ksyscallIrqHandler
    simp only [hactive, hframe, htf, hnum]
  · rw [if_neg hsys] at hc
    cases hc
    simp only [if_neg hsys]
    cases (k.entered e).handle e.event <;> rfl

/-- What a handler that returns has done: an event that is not a system call, or a
system call without one. -/
theorem entered_call {e : Entry} (h : (k.entered e).handle e.event = .ok (rc, k')) :
    ∃ k₁, (k' = k₁ ∨ k' = k₁.setResult rc) ∧
      ((∃ ev, e.call = some ev ∧ ev ≠ .syscall ∧ (k.entered e).handle ev = .ok (rc, k₁)) ∨
        e.call = none ∧ ∃ (ttys : Ttys) (mem : Memory),
          k₁ = { k.entered e with ttys := ttys, mem := mem }) := by
  unfold Entry.call
  by_cases hsys : e.event = .syscall
  · rw [hsys] at h
    have h' : (k.entered e).ksyscallIrqHandler = .ok (rc, k') := h
    have hactive : (k.entered e).activeProc = k.activeProc := (entered_still k e).active
    cases hact : k.activeProc with
    | none =>
      rw [ksyscallIrqHandler, hactive, hact] at h'
      cases h'
    | some i =>
      obtain ⟨call, k₁, hcall, h₁, rfl⟩ :=
        ksyscallIrqHandler_ok (hactive.trans hact) (entered_registers hact e) h'
      refine ⟨k₁, .inr rfl, ?_⟩
      rw [if_pos hsys, hcall, Option.bind_some]
      cases hev : call.event e.trapframe with
      | none => exact .inr ⟨rfl, ksyscall_frame hev h₁⟩
      | some ev =>
        rw [ksyscall_event hev] at h₁
        refine .inl ⟨ev, rfl, ?_, h₁⟩
        rintro rfl
        cases call <;> cases hev
  · rw [if_neg hsys]
    exact ⟨k', .inl rfl, .inl ⟨e.event, rfl, hsys, h⟩⟩

/-- An entry taken apart: the handler leaves `k₁`, a system call its result in
`k₂`, and the scheduler picks the process to return to. -/
inductive Enters (k : Kernel) (e : Entry) (ev : Event) (rc : Int) (k' : Kernel) : Prop
  | intro (k₁ k₂ : Kernel) (handles : (k.entered e).handle ev = .ok (rc, k₁))
      (serves : Serves (k.entered e) ev rc k₁) (table : SameTable k₁ k₂) (still : Still k₁ k₂)
      (schedules : k₂.schedulerRun = .ok k') (rescheduled : Rescheduled k₂ k')
      (mutexes : SameMutexes k₁ k')

theorem NonIdle.congr (h : NonIdle k) (hs : Still k k') : NonIdle k' := by
  obtain ⟨i, hact, h0⟩ := h
  exact ⟨i, hs.active.trans hact, by rw [hs.pid]; exact h0⟩

theorem Permitted.congr {ev : Event} (h : Permitted tr k ev) (hs : Still k k') :
    Permitted tr k' ev := by
  cases ev with
  | tick => trivial
  | create => trivial
  | destroy => trivial
  | sleep => exact NonIdle.congr h hs
  | mutex call =>
    cases call with
    | init => exact NonIdle.congr h hs
    | destroy => exact h
    | lock => exact ⟨NonIdle.congr h.1 hs, h.2⟩
    | unlock => exact ⟨NonIdle.congr h.1 hs, h.2⟩
  | sem => exact h
  | syscall => exact h

theorem MutexIds.congr (h : MutexIds tr k) (hs : SameMutexes k k') : MutexIds tr k' := by
  obtain ⟨hm, hq⟩ := hs
  refine ⟨?_, ?_, ?_⟩ <;> simp only [hm, hq]
  exacts [h.nodup, h.fresh, h.returned]

theorem Ready.entered (h : Ready tr k) (e : Entry) : Ready tr (k.entered e) := by
  obtain ⟨loc, hl⟩ := h.scheduled
  exact ⟨(entered_sameTable k e).tableOk h.table, ⟨loc, hl.still (entered_still k e)⟩,
    h.mutexIds.congr (entered_sameMutexes k e)⟩

/-- An allowed entry that returns. -/
theorem kernelContextEnter_enters (hr : Ready tr k) {e : Entry} {ev : Event}
    (hc : e.call = some ev) (hp : Permitted tr k ev) (hcaller : e.event = .syscall → NonIdle k)
    (h : kernelContextEnter e k = .ok (rc, k')) : Scheduled k' ∧ Enters k e ev rc k' := by
  obtain ⟨k₂, h₂, hrun⟩ := kernelContextEnter_ok h
  have ht₂ := handle_tableOk (hr.entered e).table h₂
  rw [entered_handle hc hcaller] at h₂
  obtain ⟨⟨rc₁, k₁⟩, h₁, hres⟩ := Loop.bind_eq_ok.mp h₂
  have hserves := handle_serves (hr.entered e) (hp.congr (entered_still k e)) h₁
  obtain ⟨rfl, hk₂⟩ := Prod.mk.inj (Except.ok.inj hres)
  have hstill : Still k₁ k₂ := by
    rw [← hk₂]
    split
    · exact setResult_still k₁ rc₁
    · exact .refl k₁
  have htable : SameTable k₁ k₂ := by
    rw [← hk₂]
    split
    · exact setResult_sameTable k₁ rc₁
    · exact (Keeps.refl k₁).toSameTable
  have hmut : SameMutexes k₁ k₂ := by
    rw [← hk₂]
    split
    · exact setResult_sameMutexes k₁ rc₁
    · exact .refl k₁
  obtain ⟨loc, hl⟩ := hserves.scheduled
  obtain ⟨k₃, hk₃, hs', hre⟩ := schedulerRun_rescheduled ⟨loc, hl.still hstill⟩ ht₂
  obtain rfl : k₃ = k' := Except.ok.inj (hk₃.symm.trans hrun)
  have hmut' := schedulerRun_sameMutexes hrun
  exact ⟨hs', .intro k₁ k₂ h₁ hserves htable hstill hrun hre (hmut.trans hmut')⟩

/-! ## The run queue from one exit to the next -/

/-- Processes join the run queue at its end; then the active process stays, or
the head of the queue is dispatched. -/
inductive RoundRobin (k k' : Kernel) : Prop
  | stays (new : List Int) (notIdle : (0 : Int) ∉ new)
      (queue : k'.runQueue.toList = k.runQueue.toList ++ new)
      (active : k'.activeProc = k.activeProc)
      (pid : ∀ i, k'.activeProc = some i → (k'.procTable i).pid = (k.procTable i).pid)
  | switches (new : List Int) (notIdle : (0 : Int) ∉ new)
      (dispatched : Dispatched (k.runQueue.toList ++ new) k')

theorem Handled.roundRobin {k₁ : Kernel} (h : Handled k k₁) (hre : Rescheduled k₁ k') :
    RoundRobin k k' := by
  obtain ⟨new, h0, hrun⟩ := h.run
  cases hre with
  | stays i hact _ hk =>
    subst hk
    exact .stays new h0 hrun (hact.trans (h.active i hact).1.symm) fun a ha => (h.active a ha).2.1
  | switches new' h0' hd =>
    refine .switches (new ++ new') ?_ ?_
    · rw [List.mem_append, not_or]
      exact ⟨h0, h0'⟩
    · rwa [← List.append_assoc, ← hrun]

theorem RoundRobin.of_same {k₁ : Kernel} (h : RoundRobin k₁ k') (hrun : k₁.runQueue = k.runQueue)
    (hact : k₁.activeProc = k.activeProc)
    (hpid : ∀ i, (k₁.procTable i).pid = (k.procTable i).pid) : RoundRobin k k' := by
  cases h with
  | stays new h0 hq ha hp =>
    exact .stays new h0 (hrun ▸ hq) (ha.trans hact) fun i hi => (hp i hi).trans (hpid i)
  | switches new h0 hd => exact .switches new h0 (hrun ▸ hd)

theorem entered_runQueue (k : Kernel) (e : Entry) : (k.entered e).runQueue = k.runQueue :=
  (entered_only k e).frame Kernel.runQueue fun _ _ => rfl

theorem Enters.roundRobin {e : Entry} {ev : Event} (h : Enters k e ev rc k') :
    RoundRobin k k' := by
  obtain ⟨k₁, k₂, _, hserves, _, hstill, _, hre, _⟩ := h
  refine RoundRobin.of_same ?_ (entered_runQueue k e) (entered_still k e).active
    (entered_still k e).pid
  rcases hserves.handled with hh | hh
  · exact (hh.trans hstill.handled).roundRobin hre
  · exact ((hh.trans hstill.handled).roundRobin hre).of_same (accountActive_runQueue _)
      (accountActive_activeProc _) (accountActive_keeps _).pid

/-- The idle task does not come back to the run queue. -/
theorem RoundRobin.idle_out (h : RoundRobin k k') (h0 : (0 : Int) ∉ k.runQueue.toList) :
    (0 : Int) ∉ k'.runQueue.toList := by
  cases h with
  | stays new hnew hq _ _ =>
    rw [hq, List.mem_append, not_or]
    exact ⟨h0, hnew⟩
  | switches new hnew hd =>
    have hout : (0 : Int) ∉ k.runQueue.toList ++ new := by
      rw [List.mem_append, not_or]
      exact ⟨h0, hnew⟩
    cases hd with
    | next i hhead _ _ =>
      rw [hhead] at hout
      exact fun hm => hout (List.mem_cons_of_mem _ hm)
    | idle _ hempty _ _ => simp [hempty]

end Kernel
end UnivOS
