import UnivOS.Resting

/-! # The sleep of a process

A round of the timer takes the head of the sleep queue and puts it back as long as
it has time left, so that a loop of rounds visits each entry once. A process that
has gone to sleep for some ticks is therefore at rest until they are over, whatever
the other processes do meanwhile.
-/
namespace UnivOS
namespace Kernel
open Word

variable {k k' : Kernel} {i : Fin procMax} {rc time : Int} {e : Entry}
  {tr mid : List KernelStep} {x : KernelStep}

/-! ## The timer -/

/-- What a round of the timer does with the head `y` of the sleep queue. -/
inductive Turn (k : Kernel) (y : Int) (l : List Int) (k' : Kernel) : Prop
  | lost (unknown : k.pidToProc y = none) (shift : Shift k k' y none)
      (queue : k'.sleepQueue.toList = l)
  | kept (i : Fin procMax) (found : k.pidToProc y = some i)
      (left : 0 ≤ (k.procTable i).sleepTime) (shift : Shift k k' y (some .sleep))
      (queue : k'.sleepQueue.toList = l ++ [y])
      (entry : k'.procTable i =
        { k.procTable i with sleepTime := wrap32 ((k.procTable i).sleepTime - 1) })
  | woken (i : Fin procMax) (found : k.pidToProc y = some i)
      (expired : (k.procTable i).sleepTime < 0) (shift : Shift k k' y (some .run))
      (queue : k'.sleepQueue.toList = l)
      (run : k'.runQueue.toList = k.runQueue.toList ++ [y])

theorem timerBody_turn (h : Apart k) (ht : TableOk k) {y : Int} {l : List Int}
    (hq : k.sleepQueue.toList = y :: l) (hk : k.timerBody = .ok k') : Turn k y l k' := by
  have hcpu : Place.cpu ≠ .sleep := by simp
  have hdst : some Place.sleep ≠ some .cpu := by simp
  cases timerBody_cases hk with
  | empty hnil =>
    rw [hq] at hnil
    cases hnil
  | lost x q hqueue hnone =>
    obtain ⟨rfl, hl⟩ := List.cons.inj (hqueue.symm.trans hq)
    refine .lost hnone (.of_head .sleep h hq (fun w z => ?_) (fun _ _ _ => rfl)
      fun hd => absurd rfl hd) hl
    cases w with
    | sleep =>
      rw [if_pos rfl, if_neg (Option.some_ne_none _).symm, List.append_nil, ← hl]
      exact le_rfl
    | _ => exact Nat.le_of_eq (by simp [places])
  | kept x l q i hqueue hi hleft hback =>
    cases hqueue.symm.trans hq
    obtain ⟨hlive, hpid⟩ := ht.of_pidToProc hi
    have hentry : Function.update k.procTable i { k.procTable i with
        sleepTime := wrap32 ((k.procTable i).sleepTime - 1) } i =
        { k.procTable i with sleepTime := wrap32 ((k.procTable i).sleepTime - 1) } :=
      Function.update_self ..
    refine .kept i hi hleft (.of_head .sleep h hq (fun w z => ?_) (fun j _ hne => ?_)
      fun _ => ⟨i, ?_, ?_⟩) hback hentry
    · cases w with
      | cpu =>
        rw [if_neg hcpu, if_neg hdst, List.append_nil]
        exact Nat.le_of_eq (congrArg (List.count z) (places_cpu_congr rfl rfl rfl))
      | sleep =>
        rw [if_pos rfl, if_pos rfl]
        exact Nat.le_of_eq (congrArg (List.count z) hback)
      | _ => exact Nat.le_of_eq (by simp [places])
    · have hji : j ≠ i := fun he => hne (he ▸ hpid)
      exact Function.update_of_ne hji ..
    · exact live_of_state (congrArg Proc.state hentry) hlive
    · exact (congrArg Proc.pid hentry).trans hpid
  | woken x q r i hqueue hi hover hr =>
    obtain ⟨rfl, hl⟩ := List.cons.inj (hqueue.symm.trans hq)
    have hpid := pid_of_pidToProc hi
    rw [hpid] at hr
    refine .woken i hi hover (.of_runnable .sleep _ h (by simp) hq hpid ?_
      (fun j hj => modifyProc_ne _ _ hj) rfl hr (by simp) fun w hwc hwr => ?_) hl hr
    · rw [modifyProc_self]
      exact hpid
    · cases w with
      | cpu => exact absurd rfl hwc
      | run => exact absurd rfl hwr
      | sleep =>
        rw [if_pos rfl]
        exact hl
      | wait m => rw [if_neg (by simp)]; rfl

theorem Turn.apart {y : Int} {l : List Int} (ht : Turn k y l k') (h : Apart k) : Apart k' := by
  cases ht with
  | lost _ hs _ => exact h.shift hs
  | kept _ _ _ hs _ _ => exact h.shift hs
  | woken _ _ _ hs _ _ => exact h.shift hs

/-- A sleeper that is not the head of the queue is spared. -/
theorem Turn.rests_ne {y : Int} {l : List Int} (ht : Turn k y l k') (hi : Rests k i)
    (hne : (k.procTable i).pid ≠ y) : Rests k' i ∧ k'.procTable i = k.procTable i := by
  cases ht with
  | lost _ hs _ => exact hi.shift hs hne
  | kept _ _ _ hs _ _ => exact hi.shift hs hne
  | woken _ _ _ hs _ _ => exact hi.shift hs hne

/-- The head of the queue with time left stays asleep. -/
theorem Turn.rests_self {l : List Int} (ht : Turn k (k.procTable i).pid l k') (hok : TableOk k)
    (hi : Rests k i) (htime : 0 ≤ (k.procTable i).sleepTime) :
    Rests k' i ∧ k'.sleepQueue.toList = l ++ [(k.procTable i).pid] ∧ k'.procTable i =
      { k.procTable i with sleepTime := wrap32 ((k.procTable i).sleepTime - 1) } := by
  have hfind := hok.pidToProc_pid hi.live
  cases ht with
  | lost hnone _ _ =>
    rw [hfind] at hnone
    cases hnone
  | kept j hj _ hs hqueue hentry =>
    rw [hfind] at hj
    cases hj
    have hlive : k'.Live i := live_of_state (congrArg Proc.state hentry) hi.live
    exact ⟨hs.rests (by rw [hentry]) hi.notIdle hlive, hqueue, hentry⟩
  | woken j hj hover _ _ _ =>
    rw [hfind] at hj
    cases hj
    omega

/-! ## A tick -/

/-- The loop of the timer after `n` rounds: the sleeper in entry `i`, which was `p`,
is still to have its turn or has had it. -/
structure Visited (i : Fin procMax) (p : Proc) (n : Nat) (k : Kernel) : Prop where
  table : TableOk k
  apart : Apart k
  rests : Rests k i
  split : ∃ rest kept, k.sleepQueue.toList = rest ++ kept ∧ kept.length ≤ n ∧
    (k.procTable i = p ∨
      k.procTable i = { p with sleepTime := wrap32 (p.sleepTime - 1) } ∧ p.pid ∉ rest)

/-- A round that the bound of the loop lets happen visits an entry that has not had
its turn. -/
theorem Visited.step {p : Proc} {n : Nat} (h : Visited i p n k) (htime : 0 ≤ p.sleepTime)
    (hn : n < k.sleepQueue.size) (hk : k.timerBody = .ok k') : Visited i p (n + 1) k' := by
  have ht := (timerBody_keeps h.table hk).tableOk h.table
  obtain ⟨rest, kept, hq, hkept, hentry⟩ := h.split
  have hpid : (k.procTable i).pid = p.pid := by rcases hentry with he | ⟨he, _⟩ <;> rw [he]
  rw [k.sleepQueue.size_eq, hq, List.length_append] at hn
  cases rest with
  | nil =>
    rw [List.length_nil] at hn
    omega
  | cons y rest =>
    have hturn := timerBody_turn (l := rest ++ kept) h.apart h.table hq hk
    have happart := hturn.apart h.apart
    by_cases hy : (k.procTable i).pid = y
    · -- its own turn: it has not had one, as it is once in the queue
      subst hy
      have hfirst : k.procTable i = p := by
        rcases hentry with he | ⟨_, hout⟩
        · exact he
        · exact absurd (hpid ▸ List.mem_cons_self) hout
      obtain ⟨hrests, hqueue, hnow⟩ := hturn.rests_self h.table h.rests (hfirst ▸ htime)
      have honce := h.rests.once
      rw [hq, List.cons_append, List.count_cons_self, List.count_append] at honce
      have hout : p.pid ∉ rest := hpid ▸ List.count_eq_zero.mp (by omega)
      refine ⟨ht, happart, hrests, rest, kept ++ [(k.procTable i).pid], ?_, ?_, .inr ⟨?_, hout⟩⟩
      · rw [hqueue, List.append_assoc]
      · rw [List.length_append, List.length_singleton]
        omega
      · rw [hnow, hfirst]
    · obtain ⟨hrests, hsame⟩ := hturn.rests_ne h.rests hy
      have hentry' : k'.procTable i = p ∨
          k'.procTable i = { p with sleepTime := wrap32 (p.sleepTime - 1) } ∧ p.pid ∉ rest := by
        rw [hsame]
        exact hentry.imp_right fun ⟨he, hout⟩ => ⟨he, fun hm => hout (List.mem_cons_of_mem y hm)⟩
      have hqueue : ∃ kept', k'.sleepQueue.toList = rest ++ kept' ∧ kept'.length ≤ n + 1 := by
        cases hturn with
        | lost _ _ hl => exact ⟨kept, hl, by omega⟩
        | kept _ _ _ _ hl _ =>
          refine ⟨kept ++ [y], by rw [hl, List.append_assoc], ?_⟩
          rw [List.length_append, List.length_singleton]
          omega
        | woken _ _ _ _ hl _ => exact ⟨kept, hl, by omega⟩
      obtain ⟨kept', hl, hlen⟩ := hqueue
      exact ⟨ht, happart, hrests, rest, kept', hl, hlen, hentry'⟩

/-- The kernel in which the loop of the timer starts. -/
def accounted (k : Kernel) : Kernel :=
  { k with timerTicks := wrap32 (k.timerTicks + 1) }.accountActive

theorem accounted_spares (h : Apart k) (ht : TableOk k) :
    TableOk k.accounted ∧ Spares k k.accounted := by
  have hkeeps : Keeps k { k with timerTicks := wrap32 (k.timerTicks + 1) } :=
    Keeps.of_table rfl rfl rfl fun _ => id
  have hticks : Spares k { k with timerTicks := wrap32 (k.timerTicks + 1) } :=
    .of_still h (.of_waitQueue rfl rfl rfl rfl fun _ => rfl) fun _ _ => rfl
  exact ⟨(accountActive_keeps _).tableOk (hkeeps.tableOk ht),
    hticks.trans (accountActive_spares hticks.apart)⟩

theorem tick_apart (h : Apart k) (ht : TableOk k) (hk : k.tick = .ok k') : Apart k' := by
  obtain ⟨htable, hspares⟩ := accounted_spares h ht
  have hend := Loop.live_inv (fun k => TableOk k ∧ Apart k) ?_ _ _
    ⟨htable, hspares.apart⟩ hk
  · exact hend.2
  · intro s t ⟨hts, hs⟩ hst
    refine ⟨(timerBody_keeps hts hst).tableOk hts, ?_⟩
    cases hq : s.sleepQueue.toList with
    | nil =>
      have hsize : s.sleepQueue.queueOut = none := by
        cases hout : s.sleepQueue.queueOut with
        | none => rfl
        | some r => rw [Queue.queueOut_spec hout] at hq; cases hq
      rw [timerBody, hsize] at hst
      cases hst
      exact hs
    | cons y l => exact (timerBody_turn hs hts hq hst).apart hs

/-- A tick leaves a process that has time left at rest, and takes at most one tick
of its time. -/
theorem tick_rests (h : Apart k) (ht : TableOk k) (hi : Rests k i)
    (htime : 0 ≤ (k.procTable i).sleepTime) (hk : k.tick = .ok k') :
    Rests k' i ∧ (k'.procTable i = k.procTable i ∨ k'.procTable i =
      { k.procTable i with sleepTime := wrap32 ((k.procTable i).sleepTime - 1) }) := by
  obtain ⟨htable, hspares⟩ := accounted_spares h ht
  obtain ⟨hi', he⟩ := hspares.rests i hi
  have hstart : Visited i (k.procTable i) 0 k.accounted :=
    ⟨htable, hspares.apart, hi', _, [], (List.append_nil _).symm, Nat.le_refl 0, .inl he⟩
  obtain ⟨n, hend⟩ := Loop.live_rounds (Visited i (k.procTable i))
    (fun n s t hn hs hst => hs.step htime hn hst) _ _ hstart hk
  obtain ⟨_, _, _, _, hentry⟩ := hend.split
  exact ⟨hend.rests, hentry.imp_right And.left⟩

/-! ## Entries -/

/-- The handlers of the other events spare the processes at rest. -/
theorem handle_spares (h : Apart k) (ht : TableOk k) {ev : Event} (htick : ev ≠ .tick)
    (hsem : ∀ call, ev ≠ .sem call) (hsys : ev ≠ .syscall) (hk : k.handle ev = .ok (rc, k')) :
    Spares k k' := by
  cases ev with
  | tick => exact absurd rfl htick
  | create ptr name type => exact kprocCreate_spares h ht hk
  | destroy =>
    have hk' : k.kprocDestroy k.activeProc = .ok (rc, k') := hk
    cases hact : k.activeProc with
    | none =>
      rw [hact] at hk'
      cases hk'
    | some a =>
      rw [hact] at hk'
      exact kprocDestroy_spares h ht hact hk'
  | sleep time =>
    obtain ⟨k₁, h₁, h₂⟩ := Loop.bind_eq_ok.mp hk
    cases h₂
    cases hact : k.activeProc with
    | none =>
      rw [hact] at h₁
      cases h₁
    | some a =>
      rw [hact] at h₁
      exact schedulerSleep_spares h hact h₁
  | mutex call => exact mutexCall_spares h hk
  | sem call => exact absurd rfl (hsem call)
  | syscall => exact absurd rfl hsys

/-- An entry taken apart: its event, and what spares the processes at rest. -/
theorem kernelContextEnter_split (h : Apart k) (hk : kernelContextEnter e k = .ok (rc, k')) :
    ∃ k₁, (Apart k₁ → Spares k₁ k') ∧
      ((∃ ev, e.call = some ev ∧ ev ≠ .syscall ∧ (k.entered e).handle ev = .ok (rc, k₁)) ∨
        e.call = none ∧ Spares k k₁) := by
  obtain ⟨k₂, h₂, hrun⟩ := kernelContextEnter_ok hk
  obtain ⟨k₁, hres, hcall⟩ := entered_call h₂
  refine ⟨k₁, fun h₁ => ?_, hcall.imp_right fun ⟨hnone, ttys, mem, he⟩ => ⟨hnone, ?_⟩⟩
  · have hset : Spares k₁ k₂ := by
      rcases hres with rfl | rfl
      · exact .refl h₁
      · exact setResult_spares h₁ rc
    exact hset.trans (schedulerRun_spares hset.apart hrun)
  · have hent := entered_spares h e
    refine hent.trans (.of_still hent.apart ?_ fun j _ => ?_)
    · rw [he]
      exact .of_waitQueue rfl rfl rfl rfl fun _ => rfl
    · rw [he]

theorem kernelContextEnter_spares (h : Apart k) (ht : TableOk k) (htick : e.call ≠ some .tick)
    (hsem : ∀ call, e.call ≠ some (.sem call)) (hk : kernelContextEnter e k = .ok (rc, k')) :
    Spares k k' := by
  obtain ⟨k₁, hrest, hcall⟩ := kernelContextEnter_split h hk
  rcases hcall with ⟨ev, hev, hsys, h₁⟩ | ⟨_, hs⟩
  · have hent := entered_spares h e
    have hs := handle_spares hent.apart ((entered_sameTable k e).tableOk ht)
      (fun he => htick (he ▸ hev)) (fun call he => hsem call (he ▸ hev)) hsys h₁
    exact (hent.trans hs).trans (hrest hs.apart)
  · exact hs.trans (hrest hs.apart)

/-- The kernel between the handler of a tick and the scheduler. -/
theorem kernelContextEnter_tick (h : Apart k) (htick : e.call = some .tick)
    (hk : kernelContextEnter e k = .ok (rc, k')) :
    ∃ k₁, (k.entered e).tick = .ok k₁ ∧ (Apart k₁ → Spares k₁ k') := by
  obtain ⟨k₁, hrest, ⟨ev, hev, _, h₁⟩ | ⟨hnone, _⟩⟩ := kernelContextEnter_split h hk
  · rw [htick] at hev
    cases hev
    obtain ⟨k₂, h₂, h₃⟩ := Loop.bind_eq_ok.mp h₁
    cases h₃
    exact ⟨k₁, h₂, hrest⟩
  · rw [htick] at hnone
    cases hnone

theorem kernelContextEnter_apart (h : Apart k) (ht : TableOk k)
    (hsem : ∀ call, e.call ≠ some (.sem call)) (hk : kernelContextEnter e k = .ok (rc, k')) :
    Apart k' := by
  by_cases htick : e.call = some .tick
  · obtain ⟨k₁, h₁, hrest⟩ := kernelContextEnter_tick h htick hk
    have hent := entered_spares h e
    exact (hrest (tick_apart hent.apart ((entered_sameTable k e).tableOk ht) h₁)).apart
  · exact (kernelContextEnter_spares h ht htick hsem hk).apart

/-- A process that has time left is at rest after any entry, and loses a tick at most. -/
theorem kernelContextEnter_rests (h : Apart k) (ht : TableOk k)
    (hsem : ∀ call, e.call ≠ some (.sem call)) (hi : Rests k i)
    (htime : 0 ≤ (k.procTable i).sleepTime) (hk : kernelContextEnter e k = .ok (rc, k')) :
    Rests k' i ∧ (k'.procTable i = k.procTable i ∨ e.call = some .tick ∧ k'.procTable i =
      { k.procTable i with sleepTime := wrap32 ((k.procTable i).sleepTime - 1) }) := by
  by_cases htick : e.call = some .tick
  · obtain ⟨k₁, h₁, hrest⟩ := kernelContextEnter_tick h htick hk
    have hent := entered_spares h e
    have ht₀ := (entered_sameTable k e).tableOk ht
    obtain ⟨hi₀, he₀⟩ := hent.rests i hi
    obtain ⟨hi₁, he₁⟩ := tick_rests hent.apart ht₀ hi₀ (he₀ ▸ htime) h₁
    obtain ⟨hi', he'⟩ := (hrest (tick_apart hent.apart ht₀ h₁)).rests i hi₁
    rw [← he', he₀] at he₁
    exact ⟨hi', he₁.imp_right fun he => ⟨htick, he⟩⟩
  · obtain ⟨hi', he⟩ := (kernelContextEnter_spares h ht htick hsem hk).rests i hi
    exact ⟨hi', .inl he⟩

/-- A process that calls `scheduler_sleep` is at rest after it. -/
theorem kernelContextEnter_sleep (h : Apart k) (hact : k.activeProc = some i)
    (hne : (k.procTable i).pid ≠ 0) (hstate : (k.procTable i).state = .active)
    (hcall : e.call = some (.sleep time)) (hk : kernelContextEnter e k = .ok (rc, k')) :
    Rests k' i ∧ (k'.procTable i).pid = (k.procTable i).pid ∧
      (k'.procTable i).state = .sleeping ∧ (k'.procTable i).sleepTime = time := by
  obtain ⟨k₁, hrest, ⟨ev, hev, _, h₁⟩ | ⟨hnone, _⟩⟩ := kernelContextEnter_split h hk
  · rw [hcall] at hev
    cases hev
    obtain ⟨k₂, h₂, h₃⟩ := Loop.bind_eq_ok.mp h₁
    cases h₃
    have hself := entered_self hact e
    have hact₀ : (k.entered e).activeProc = some i := (entered_still k e).active.trans hact
    have hent := entered_spares h e
    rw [hact₀] at h₂
    obtain ⟨hs, hentry⟩ := schedulerSleep_shift hent.apart hact₀
      (by rw [hself, hstate]; exact nofun) h₂
    have hpid : ((k.entered e).procTable i).pid = (k.procTable i).pid := by rw [hself]
    have hi : Rests k₁ i :=
      hs.rests (by rw [hentry]) (hpid ▸ hne) (live_of_state (congrArg Proc.state hentry) nofun)
    obtain ⟨hi', he⟩ := (hrest (hent.apart.shift hs)).rests i hi
    refine ⟨hi', ?_, ?_, ?_⟩
    · rw [he, hentry]
      exact hpid
    · rw [he, hentry]
    · rw [he, hentry]
  · rw [hcall] at hnone
    cases hnone

/-! ## Runs -/

def isSem : Event → Bool
  | .sem _ => true
  | _ => false

/-- Nobody makes a semaphore call, which could put a process in a wait queue twice. -/
def WithoutSem (_ : List KernelStep) (_ : Kernel) (e : Entry) : Prop :=
  ∀ call, e.call ≠ some (.sem call)

theorem Located.apart {loc : Int → Option Place} (h : Located k loc) : Apart k := by
  refine ⟨fun w x _ => List.nodup_iff_count_le_one.mp (h.exact.nodup w) x,
    fun w v x _ hw hv => h.exact.unique hw hv, fun w x _ hw => ?_⟩
  obtain ⟨j, hj, hpid, _⟩ := h.of_mem hw
  exact ⟨j, hj, hpid⟩

theorem apart_of_run (h : Trace.Run Start (Trace.Exec kernelContextEnter WithoutSem) tr k) :
    Apart k := by
  refine h.state_invariant ?_ ?_
  · intro k hk
    obtain ⟨loc, hloc⟩ := hk.ready.scheduled
    exact hloc.apart
  · intro tr k a k' hr hn hk
    exact kernelContextEnter_apart hk (tableOk_of_run hr) hn.1 hn.2

/-- The calls of `scheduler_timer` in a run. -/
def ticks (tr : List KernelStep) : Nat := tr.countP fun y => decide (y.act.1.call = some .tick)

theorem ticks_snoc (tr : List KernelStep) (y : KernelStep) :
    ticks (tr ++ [y]) = ticks tr + if y.act.1.call = some .tick then 1 else 0 := by
  rw [ticks, List.countP_append, List.countP_singleton]
  simp [ticks]

/-- The process `pid` sleeps in entry `i`, with the time that `n` ticks can have left. -/
structure Asleep (i : Fin procMax) (pid time : Int) (n : Nat) (k : Kernel) : Prop where
  rests : Rests k i
  pid : (k.procTable i).pid = pid
  state : (k.procTable i).state = .sleeping
  left : time - n ≤ (k.procTable i).sleepTime
  most : (k.procTable i).sleepTime ≤ time

theorem Asleep.step {pid : Int} {n : Nat} (hs : Asleep i pid time n k) (h : Apart k)
    (ht : TableOk k) (hint : InInt32 time) (hn : (n : Int) ≤ time)
    (hsem : ∀ call, e.call ≠ some (.sem call)) (hk : kernelContextEnter e k = .ok (rc, k')) :
    Asleep i pid time (n + if e.call = some .tick then 1 else 0) k' := by
  have hleft := hs.left
  have hmost := hs.most
  obtain ⟨hi, he | ⟨htick, he⟩⟩ := kernelContextEnter_rests h ht hsem hs.rests (by omega) hk
  · refine ⟨hi, by rw [he, hs.pid], by rw [he, hs.state], ?_, by rw [he]; exact hmost⟩
    rw [he]
    split <;> omega
  · have hdec : (k'.procTable i).sleepTime = (k.procTable i).sleepTime - 1 := by
      rw [he]
      refine wrap32_of_inInt32 ⟨?_, ?_⟩
      · omega
      · have := hint.2
        omega
    refine ⟨hi, by rw [he]; exact hs.pid, by rw [he]; exact hs.state, ?_, ?_⟩
    · rw [hdec, if_pos htick]
      omega
    · omega

/-- The process that has called `scheduler_sleep` in step `x` sleeps through the
first `time` ticks after it. -/
theorem asleep_of_run
    (h : Trace.Run Start (Trace.Exec kernelContextEnter WithoutSem) (tr ++ x :: mid) k)
    (hcall : x.act.1.call = some (.sleep time)) (hint : InInt32 time)
    (hact : x.pre.activeProc = some i) (hne : (x.pre.procTable i).pid ≠ 0)
    (hticks : (ticks mid : Int) ≤ time) :
    Asleep i (x.pre.procTable i).pid time (ticks mid) k := by
  obtain ⟨hr, _, hx⟩ := run_step h
  have hstate := active_state_of_run hr i hact
  refine h.after_history (P := fun mid' s => Asleep i (x.pre.procTable i).pid time (ticks mid') s)
    ?_ ?_
  · obtain ⟨hi, hpid, hsleeping, htime⟩ :=
      kernelContextEnter_sleep (apart_of_run hr) hact hne hstate hcall hx
    refine ⟨hi, hpid, hsleeping, ?_, Int.le_of_eq htime⟩
    rw [htime]
    exact Int.sub_le_self time (Int.natCast_nonneg _)
  · intro mid' y hpre hr' hn hs
    have hle : ticks mid' ≤ ticks mid :=
      ((List.prefix_append mid' [y]).trans hpre).sublist.countP_le
    rw [ticks_snoc]
    exact hs.step (apart_of_run hr') (tableOk_of_run hr') hint (by omega) hn.1 hn.2

/-- **No process wakes early.** A process other than the idle task that calls
`scheduler_sleep` for `time` ticks is asleep until after them: neither on the run
queue nor active, whatever the entries in between. -/
theorem sleeps_through_ticks
    (h : Trace.Run Start (Trace.Exec kernelContextEnter WithoutSem) (tr ++ x :: mid) k)
    (hcall : x.act.1.call = some (.sleep time)) (hint : InInt32 time)
    (hact : x.pre.activeProc = some i) (hne : (x.pre.procTable i).pid ≠ 0)
    (hticks : (ticks mid : Int) ≤ time) :
    (k.procTable i).pid = (x.pre.procTable i).pid ∧ (k.procTable i).state = .sleeping ∧
      (x.pre.procTable i).pid ∉ k.runQueue.toList ∧ k.activeProc ≠ some i := by
  have hs := asleep_of_run h hcall hint hact hne hticks
  refine ⟨hs.pid, hs.state, ?_, fun hi => ?_⟩
  · have hrun := hs.rests.away .run nofun
    rw [hs.pid] at hrun
    exact hrun
  · have hcpu := hs.rests.away .cpu nofun
    exact hcpu (mem_cpu.mpr ⟨i, hi, rfl⟩)

instance : Decidable (WithoutSem tr k e) :=
  decidable_of_iff (∀ ev ∈ e.call, isSem ev = false) (by
    constructor
    · intro h call hc
      cases h _ hc
    · intro h ev hc
      cases ev with
      | sem call => exact absurd hc (h call)
      | _ => rfl)

/-- Process 1 sleeps for two ticks, in which process 2 sleeps, a process is created and
process 2 is woken. -/
theorem sleeps_through_ticks_two : ∃ (tr : List KernelStep) (x : KernelStep)
    (mid : List KernelStep) (k : Kernel) (i : Fin procMax),
      Trace.Run Start (Trace.Exec kernelContextEnter WithoutSem) (tr ++ x :: mid) k ∧
      x.act.1.call = some (.sleep 2) ∧ (x.pre.procTable i).pid = 1 ∧ ticks mid = 2 ∧
      2 ∈ k.runQueue.toList ∧ (k.procTable i).state = .sleeping ∧ 1 ∉ k.runQueue.toList ∧
      k.activeProc ≠ some i := by
  let i : Fin procMax := ⟨1, by decide⟩
  let calls : List Event := [.sleep 2, .sleep (-2), .tick, .create 7 (some []) .user, .tick]
  obtain ⟨tr, k, hrun, hP⟩ := run_of_test WithoutSem (kernelInit Image.blank)
    ((List.replicate 11 Event.tick ++ calls).map Event.entry)
    (fun tr k => match tr.drop 11 with
      | [] => false
      | x :: mid => decide (x.act.1.call = some (.sleep 2) ∧ x.pre.activeProc = some i ∧
        (x.pre.procTable i).pid = 1 ∧ ticks mid = 2 ∧ 2 ∈ k.runQueue.toList))
    (fun k hk => (⟨Image.blank, hk⟩ : Start k)) (by decide +kernel)
  split at hP
  · cases hP
  · rename_i x mid hdrop
    rw [← List.take_append_drop 11 tr, hdrop] at hrun
    obtain ⟨hcall, hact, hpid, hticks, hwoken⟩ := of_decide_eq_true hP
    obtain ⟨_, hstate, hrun', hact'⟩ := sleeps_through_ticks hrun hcall (by decide) hact
      (by rw [hpid]; decide) (by rw [hticks]; decide)
    rw [hpid] at hrun'
    exact ⟨tr.take 11, x, mid, k, i, hrun, hcall, hpid, hticks, hwoken, hstate, hrun', hact'⟩

end Kernel
end UnivOS
