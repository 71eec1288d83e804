import UnivOS.Runs

/-! # Blocking on a semaphore and waking up

`ksem_wait` takes the caller off the scheduler and then goes on through
`active_proc`, which `scheduler_remove` has cleared. `ksem_post` takes a process
id off the wait queue and uses it as an index of the process table. What the two
are meant to do is stated here, and where they do it.
-/
namespace UnivOS
namespace Kernel
open Word

variable {k k' : Kernel} {s : Fin semMax} {p i : Fin procMax} {rc x : Int} {rest : List Int}

/-! ## Blocking -/

/-- The active process `p` waits for the semaphore, and nothing else has changed. -/
structure SoundBlock (k : Kernel) (p : Fin procMax) (s : Fin semMax) (k' : Kernel) : Prop where
  noNull : k'.nullAccess = false
  state : (k'.procTable p).state = .waiting
  waits : (k'.semaphores s).waitQueue.toList =
    (k.semaphores s).waitQueue.toList ++ [(k.procTable p).pid]
  unscheduled : ∀ w, (k.procTable p).pid ∉ (k'.schedQueue w).toList
  active : k'.activeProc = none
  count : (k'.semaphores s).count = (k.semaphores s).count
  semaphores : ∀ t, t ≠ s → k'.semaphores t = k.semaphores t
  processes : ∀ j, j ≠ p → k'.procTable j = k.procTable j

/-- The write through the null pointer does not reach the process id read through it. -/
theorem readInt_nullPid (m : Memory) (data : List Byte) (h : data.length ≤ 4) :
    (m.write nullState data).readInt nullPid = m.readInt nullPid := by
  have hfar : ∀ a : BitVec 32, 4 ≤ (a - nullState).toNat → m.write nullState data a = m a := by
    intro a ha
    rw [Memory.write, List.getElem?_eq_none (by omega), Option.getD_none]
  unfold Memory.readInt
  rw [hfar _ (by decide), hfar _ (by decide), hfar _ (by decide), hfar _ (by decide)]

/-- What a wait that blocks does: the caller's state is left alone, and the word at
address 0 joins the wait queue. -/
theorem ksemWait_blocks (hact : k.activeProc = some p) (halloc : (k.semaphores s).allocated ≠ 0)
    (hcount : (k.semaphores s).count ≤ 0)
    (hroom : (k.semaphores s).waitQueue.toList.length < queueSize) :
    ∃ k', k.ksemWait ((s : Nat) : Int) = .ok (0, k') ∧ k'.nullAccess = true ∧
      (k'.procTable p).state = (k.procTable p).state ∧
      (k'.semaphores s).waitQueue.toList =
        (k.semaphores s).waitQueue.toList ++ [k.mem.readInt nullPid] := by
  obtain ⟨r, q, _, _, hremove⟩ := schedulerRemove_eq_active hact
  obtain ⟨w, hw, hwl⟩ := (k.semaphores s).waitQueue.queueIn_ok (k.mem.readInt nullPid) hroom
  let k₁ : Kernel := { k.modifyProc p fun p => { p with schedulerQueue := none } with
    runQueue := r, sleepQueue := q, activeProc := none
    mem := k.mem.write nullState [4, 0, 0, 0], nullAccess := true }
  let join : Sem → Sem := fun x =>
    { x with waitQueue := (x.waitQueue.queueIn (k₁.mem.readInt nullPid)).getD x.waitQueue }
  have hblock : k.semBlock s = .ok (k₁.modifySem s join) := by
    rw [semBlock, hact, hremove]
    rfl
  refine ⟨k₁.modifySem s join, ?_, rfl, ?_, ?_⟩
  · rw [ksemWait, index_val]
    dsimp only
    rw [if_neg halloc, if_neg (Int.not_lt.mpr hcount), hblock]
    rfl
  · show (Function.update k.procTable p _ p).state = _
    rw [Function.update_self]
  · rw [modifySem_self]
    have hread : k₁.mem.readInt nullPid = k.mem.readInt nullPid :=
      readInt_nullPid k.mem [4, 0, 0, 0] (by decide)
    show (((k.semaphores s).waitQueue.queueIn (k₁.mem.readInt nullPid)).getD _).toList = _
    rw [hread, hw, Option.getD_some, hwl]

/-- **A wait that blocks never leaves its caller waiting for the semaphore**: it
writes through a null pointer, the state of the caller stays what it was, and what
joins the wait queue is the word at address 0. -/
theorem ksem_wait_never_sound (hact : k.activeProc = some p)
    (halloc : (k.semaphores s).allocated ≠ 0) (hcount : (k.semaphores s).count ≤ 0)
    (hroom : (k.semaphores s).waitQueue.toList.length < queueSize) :
    ∃ k', ({ k with nullAccess := false } : Kernel).ksemWait ((s : Nat) : Int) = .ok (0, k') ∧
      k'.nullAccess = true ∧ (k'.procTable p).state = (k.procTable p).state ∧
      (k'.semaphores s).waitQueue.toList =
        (k.semaphores s).waitQueue.toList ++ [k.mem.readInt nullPid] ∧
      ¬ SoundBlock k p s k' := by
  obtain ⟨k', hwait, hnull, hstate, hqueue⟩ :=
    ksemWait_blocks (k := { k with nullAccess := false }) hact halloc hcount hroom
  refine ⟨k', hwait, hnull, hstate, hqueue, fun h => ?_⟩
  rw [h.noNull] at hnull
  cases hnull

/-- The kernel in which process 1 has become active and made semaphore 0 with no permit. -/
def noPermit : Res Kernel := do
  let k ← kernelInit Image.blank
  let k ← k.schedulerRun
  (List.replicate 10 Event.tick ++ [Event.sem (.init 0)]).foldlM
    (fun k ev => (kernelContextEnter (Event.entry ev) k).map Prod.snd) k

/-- Process 1, active, is about to wait for semaphore 0. -/
def AboutToWait (k : Kernel) : Prop :=
  k.activeProc = some ⟨1, one_lt_procMax⟩ ∧
    (k.procTable ⟨1, one_lt_procMax⟩).state = .active ∧
    (k.semaphores ⟨0, semMax_pos⟩).allocated ≠ 0 ∧ (k.semaphores ⟨0, semMax_pos⟩).count ≤ 0 ∧
    (k.semaphores ⟨0, semMax_pos⟩).waitQueue.toList = [] ∧ k.nullAccess = false

instance (k : Kernel) : Decidable (AboutToWait k) := inferInstanceAs (Decidable (_ ∧ _))

theorem noPermit_aboutToWait : ∃ k, noPermit = .ok k ∧ AboutToWait k := by
  obtain ⟨k, hk, hP⟩ :=
    Loop.of_any (x := noPermit) (P := fun k => decide (AboutToWait k)) (by decide +kernel)
  exact ⟨k, hk, of_decide_eq_true hP⟩

/-- Process 1 waits for the semaphore. -/
theorem ksem_wait_never_sound_first : ∃ k k' : Kernel, noPermit = .ok k ∧
    ({ k with nullAccess := false } : Kernel).ksemWait 0 = .ok (0, k') ∧
    ¬ SoundBlock k ⟨1, by decide⟩ ⟨0, by decide⟩ k' := by
  obtain ⟨k, hk, hact, _, halloc, hcount, hqueue, _⟩ := noPermit_aboutToWait
  obtain ⟨k', hwait, _, _, _, hunsound⟩ :=
    ksem_wait_never_sound (s := ⟨0, by decide⟩) hact halloc hcount (by rw [hqueue]; decide)
  exact ⟨k, k', hk, hwait, hunsound⟩

/-- Process 1 has waited for the semaphore: it is still `ACTIVE`, and process id 0,
which is what memory holds at address 0, waits in its place. -/
theorem ksem_wait_strays : ∃ k k' : Kernel, noPermit = .ok k ∧ AboutToWait k ∧
    k.ksemWait 0 = .ok (0, k') ∧ k'.nullAccess = true ∧
    (k'.procTable ⟨1, by decide⟩).state = .active ∧
    ¬ SoundBlock k ⟨1, by decide⟩ ⟨0, by decide⟩ k' := by
  obtain ⟨k, hk, hw⟩ := noPermit_aboutToWait
  obtain ⟨hact, hactive, halloc, hcount, hqueue, _⟩ := id hw
  obtain ⟨k', hwait, hnull, hstate, _⟩ :=
    ksemWait_blocks (s := ⟨0, by decide⟩) hact halloc hcount (by rw [hqueue]; decide)
  refine ⟨k, k', hk, hw, hwait, hnull, hstate.trans hactive, fun h => ?_⟩
  have hsound := h.state
  rw [hstate, hactive] at hsound
  cases hsound

/-! ## Waking up -/

/-- The process with id `x`, at the head of the wait queue, has become runnable, and
nothing else has changed. -/
structure PostWakes (k : Kernel) (s : Fin semMax) (x : Int) (rest : List Int) (rc : Int)
    (k' : Kernel) : Prop where
  result : rc = (k.semaphores s).count
  count : (k'.semaphores s).count = (k.semaphores s).count
  waitQueue : (k'.semaphores s).waitQueue.toList = rest
  runQueue : k'.runQueue.toList = k.runQueue.toList ++ [x]
  woken : ∀ i, k.pidToProc x = some i → (k'.procTable i).pid = x ∧
    (k'.procTable i).state = .idle ∧ (k'.procTable i).schedulerQueue = some .run
  processes : ∀ j, k.pidToProc x ≠ some j → k'.procTable j = k.procTable j
  semaphores : ∀ t, t ≠ s → k'.semaphores t = k.semaphores t

/-- The semaphore counted up and the head taken off its wait queue. -/
def posted (k : Kernel) (s : Fin semMax) (q : Queue) : Kernel :=
  (k.modifySem s fun y => { y with count := wrap32 (y.count + 1) }).modifySem s fun y =>
    { y with waitQueue := q }

theorem posted_self (k : Kernel) (s : Fin semMax) (q : Queue) : (k.posted s q).semaphores s =
    { k.semaphores s with count := wrap32 ((k.semaphores s).count + 1), waitQueue := q } := by
  rw [posted, modifySem_self, modifySem_self]

/-- What a post does to a semaphore someone waits for. -/
theorem ksemPost_cons (halloc : (k.semaphores s).allocated ≠ 0)
    (hq : (k.semaphores s).waitQueue.toList = x :: rest) : ∃ q : Queue, q.toList = rest ∧
      k.ksemPost ((s : Nat) : Int) =
        match index procMax x with
        | none => .ok (-1, k.posted s q)
        | some proc =>
          if (k.procTable proc).state = .none then .ok (-1, k.posted s q)
          else (do
            let k ← (k.posted s q).schedulerAdd (some proc)
            let k := k.modifySem s fun y => { y with count := wrap32 (y.count - 1) }
            .ok ((k.semaphores s).count, k)) := by
  obtain ⟨q, hout, hl⟩ := Queue.queueOut_cons hq
  refine ⟨q, hl, ?_⟩
  rw [ksemPost, index_val]
  dsimp only
  rw [if_neg halloc]
  simp only [modifySem_self, hout]
  rfl

theorem wrap32_succ_pred {n : Int} (h : InInt32 n) : wrap32 (wrap32 (n + 1) - 1) = n := by
  have hmod : wrap32 (wrap32 (n + 1) - 1) = wrap32 (n + 1 - 1) := Int.bmod_sub_bmod
  rw [hmod, Int.add_sub_cancel, wrap32_of_inInt32 h]

/-- A waiting process that the post does not reach. -/
theorem not_postWakes (hi : k.pidToProc x = some i)
    (hwait : (k.procTable i).state = .waiting)
    (hsame : k'.procTable i = k.procTable i) : ¬ PostWakes k s x rest rc k' := by
  intro h
  have hidle := (h.woken i hi).2.1
  rw [hsame, hwait] at hidle
  cases hidle

/-- The process the post makes runnable, where it is the one that waits. -/
theorem postWakes_self {q r : Queue} (hcount : InInt32 (k.semaphores s).count)
    (hi : k.pidToProc x = some i) (hpid : (k.procTable i).pid = x) (hq : q.toList = rest)
    (hr : r.toList = k.runQueue.toList ++ [((k.posted s q).procTable i).pid]) :
    PostWakes k s x rest
      ((((k.posted s q).runnable i r).modifySem s fun y =>
        { y with count := wrap32 (y.count - 1) }).semaphores s).count
      (((k.posted s q).runnable i r).modifySem s fun y =>
        { y with count := wrap32 (y.count - 1) }) := by
  have hown : ((k.posted s q).procTable i).pid = x := hpid
  have hsem : ((k.posted s q).runnable i r).semaphores s =
      { k.semaphores s with count := wrap32 ((k.semaphores s).count + 1), waitQueue := q } :=
    k.posted_self s q
  refine ⟨?_, ?_, ?_, ?_, fun j hj => ?_, fun j hj => ?_, fun t hts => ?_⟩
  · rw [modifySem_self, hsem]
    exact wrap32_succ_pred hcount
  · rw [modifySem_self, hsem]
    exact wrap32_succ_pred hcount
  · rw [modifySem_self, hsem]
    exact hq
  · rw [modifySem_runQueue, runnable_runQueue, hr, hown]
  · rw [hi] at hj
    cases hj
    rw [modifySem_procTable, runnable_pid, runnable_state, hown, runnable, modifyProc_self]
    exact ⟨rfl, rfl, rfl⟩
  · have hji : j ≠ i := by
      rintro rfl
      exact hj hi
    rw [modifySem_procTable, runnable_ne _ _ hji]
    rfl
  · rw [modifySem_ne _ _ hts]
    show (k.posted s q).semaphores t = _
    rw [posted, modifySem_ne _ _ hts, modifySem_ne _ _ hts]

/-- **`ksem_post` wakes the process at the head of the wait queue exactly if the run
queue has room and the process id is the index of the process's own entry.** -/
theorem ksem_post_wakes_iff (ht : TableOk k) (halloc : (k.semaphores s).allocated ≠ 0)
    (hcount : InInt32 (k.semaphores s).count)
    (hq : (k.semaphores s).waitQueue.toList = x :: rest)
    (hw : ∀ y ∈ x :: rest, ∃ i, (k.procTable i).pid = y ∧ (k.procTable i).state = .waiting) :
    (∃ rc k', k.ksemPost ((s : Nat) : Int) = .ok (rc, k') ∧ PostWakes k s x rest rc k') ↔
      k.runQueue.toList.length < queueSize ∧
        ∃ j : Fin procMax, k.pidToProc x = some j ∧ x = ((j : Nat) : Int) := by
  obtain ⟨i, hpid, hwait⟩ := hw x List.mem_cons_self
  have hlive : k.Live i := live_of_state hwait nofun
  have hi : k.pidToProc x = some i := hpid ▸ ht.pidToProc_pid hlive
  obtain ⟨q, hl, hpost⟩ := ksemPost_cons halloc hq
  rw [hpost]
  constructor
  · rintro ⟨rc, k', hk, h⟩
    cases hx : index procMax x with
    | none =>
      rw [hx] at hk
      cases hk
      exact absurd h (not_postWakes hi hwait rfl)
    | some j =>
      rw [hx] at hk
      dsimp only at hk
      split at hk
      · cases hk
        exact absurd h (not_postWakes hi hwait rfl)
      · obtain ⟨k₁, hadd, hk⟩ := Loop.bind_eq_ok.mp hk
        cases hk
        obtain ⟨r, rfl, hr⟩ := schedulerAdd_eq hadd
        by_cases hij : i = j
        · subst hij
          refine ⟨?_, i, hi, index_eq_some.mp hx⟩
          -- the queue it leaves is longer by one, and has no more than `QUEUE_SIZE` entries
          have hmax := r.length_le
          rw [hr, List.length_append, List.length_singleton] at hmax
          exact hmax
        · exact absurd h (not_postWakes hi hwait (runnable_ne (k.posted s q) r hij))
  · rintro ⟨hroom, j, hj, rfl⟩
    rw [hi] at hj
    cases hj
    rw [index_val]
    dsimp only
    rw [if_neg hlive]
    obtain ⟨r, hadd, hrl⟩ := (k.posted s q).schedulerAdd_ok i hroom
    rw [hadd]
    exact ⟨_, _, rfl, postWakes_self hcount hi hpid hl hrl⟩

/-- The process waits for a new semaphore without a permit, as `ksem_wait` is meant
to leave it. -/
def withWaiter (k : Kernel) (i : Fin procMax) : Res Kernel := do
  let k ← k.schedulerRemove (some i)
  let k := k.modifyProc i fun p => { p with state := .waiting }
  let k := (k.ksemInit 0).2
  .ok (k.modifySem ⟨0, semMax_pos⟩ fun y =>
    { y with waitQueue := (y.waitQueue.queueIn (k.procTable i).pid).getD y.waitQueue })

theorem withWaiter_tableOk (ht : TableOk k) (hi : k.Live i) (h : k.withWaiter i = .ok k') :
    TableOk k' := by
  obtain ⟨k₁, h₁, h₂⟩ := Loop.bind_eq_ok.mp h
  cases h₂
  have hk := schedulerRemove_keeps h₁
  have hwait : Keeps k₁ (k₁.modifyProc i fun p => { p with state := .waiting }) :=
    Keeps.of_modifyProc rfl (iff_of_true nofun ((hk.live i).mpr hi)) rfl
  obtain ⟨f, q, hinit⟩ :=
    (k₁.modifyProc i fun p => { p with state := .waiting }).ksemInit_frame 0
  rw [hinit]
  have h' := (hk.trans hwait).tableOk ht
  exact ⟨h'.alloc, h'.free_pid, h'.pid_inj, h'.pid_range, h'.idle_live, h'.idle_pid, h'.active_live⟩

/-- The process waits for semaphore 0, alone. -/
def OneWaits (k : Kernel) (i : Fin procMax) : Prop :=
  (k.semaphores ⟨0, semMax_pos⟩).allocated ≠ 0 ∧ (k.semaphores ⟨0, semMax_pos⟩).count = 0 ∧
    (k.semaphores ⟨0, semMax_pos⟩).waitQueue.toList = [(k.procTable i).pid] ∧
    (k.procTable i).state = .waiting

instance (k : Kernel) (i : Fin procMax) : Decidable (OneWaits k i) :=
  inferInstanceAs (Decidable (_ ∧ _))

/-- Process 5 waits, in its own entry. -/
theorem ksem_post_wakes_five : ∃ k₀ k : Kernel, kernelInit Image.blank = .ok k₀ ∧
    k₀.withWaiter ⟨5, by decide⟩ = .ok k ∧ OneWaits k ⟨5, by decide⟩ ∧
    ∃ rc k', k.ksemPost 0 = .ok (rc, k') ∧ PostWakes k ⟨0, by decide⟩ 5 [] rc k' := by
  have htest : (kernelInit Image.blank >>= fun k₀ =>
      k₀.withWaiter ⟨5, by decide⟩).toOption.any (fun k =>
        decide (OneWaits k ⟨5, by decide⟩ ∧ (k.procTable ⟨5, by decide⟩).pid = 5 ∧
          k.runQueue.toList.length < queueSize)) = true := by
    decide +kernel
  obtain ⟨k, hk, hP⟩ := Loop.of_any htest
  obtain ⟨hwaits, hpid, hroom⟩ := of_decide_eq_true hP
  obtain ⟨halloc, hcount, hqueue, hstate⟩ := id hwaits
  obtain ⟨k₀, h₀, h₁⟩ := Loop.bind_eq_ok.mp hk
  have hinit := Initial.of_kernelInit h₀
  have ht := withWaiter_tableOk (hinit.tableOk (by decide))
    ((hinit.live ⟨5, by decide⟩).mpr (by decide)) h₁
  have hlive : k.Live ⟨5, by decide⟩ := live_of_state hstate nofun
  have hfind := ht.pidToProc_pid hlive
  rw [hpid] at hqueue hfind
  refine ⟨k₀, k, h₀, h₁, hwaits, ?_⟩
  refine (ksem_post_wakes_iff ht halloc (by rw [hcount]; decide) hqueue ?_).mpr
    ⟨hroom, ⟨5, by decide⟩, hfind, rfl⟩
  intro y hy
  rw [List.mem_singleton.mp hy]
  exact ⟨_, hpid, hstate⟩

/-- After a process has exited and ten have been created, process 20 is in entry 1. It
waits, and the post counts up, takes it off the wait queue and reports an error. -/
theorem ksem_post_strands : ∃ (tr : List KernelStep) (k₀ k k' : Kernel),
    Trace.Run Start (Trace.Exec kernelContextEnter fun _ _ _ => True) tr k₀ ∧
    k₀.withWaiter ⟨1, by decide⟩ = .ok k ∧ OneWaits k ⟨1, by decide⟩ ∧
    (k.procTable ⟨1, by decide⟩).pid = 20 ∧ k.ksemPost 0 = .ok (-1, k') ∧
    (k'.semaphores ⟨0, by decide⟩).count = 1 ∧
    (k'.semaphores ⟨0, by decide⟩).waitQueue.toList = [] ∧
    (k'.procTable ⟨1, by decide⟩).state = .waiting ∧
    ¬ ∃ rc k'', k.ksemPost 0 = .ok (rc, k'') ∧ PostWakes k ⟨0, by decide⟩ 20 [] rc k'' := by
  have hstart : ∀ k, kernelInit Image.blank = .ok k → Start k := fun k hk => ⟨Image.blank, hk⟩
  obtain ⟨tr, k₀, hrun, hP⟩ := run_of_test (fun _ _ _ => True) (kernelInit Image.blank)
    ((List.replicate 11 Event.tick ++ Event.destroy ::
      List.replicate 10 (.create 7 (some []) .user)).map Event.entry)
    (fun _ k₀ => (k₀.withWaiter ⟨1, by decide⟩).toOption.any fun k =>
      decide (OneWaits k ⟨1, by decide⟩ ∧ (k.procTable ⟨1, by decide⟩).pid = 20))
    hstart (by decide +kernel)
  obtain ⟨k, hk, hP⟩ := Loop.of_any hP
  obtain ⟨hwaits, hpid⟩ := of_decide_eq_true hP
  obtain ⟨halloc, hcount, hqueue, hstate⟩ := id hwaits
  rw [hpid] at hqueue
  obtain ⟨q, hq, hpost⟩ := ksemPost_cons halloc hqueue
  have hpost' : k.ksemPost 0 = .ok (-1, k.posted ⟨0, by decide⟩ q) := hpost
  refine ⟨tr, k₀, k, k.posted ⟨0, by decide⟩ q, hrun, hk, hwaits, hpid, hpost', ?_, ?_,
    hstate, ?_⟩
  · rw [posted_self, hcount]
    rfl
  · rw [posted_self]
    exact hq
  · rintro ⟨rc, k'', hk'', h⟩
    cases hpost'.symm.trans hk''
    have hresult := h.result
    rw [hcount] at hresult
    cases hresult

end Kernel
end UnivOS
