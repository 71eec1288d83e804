import UnivOS.Placement

/-! # The operations are moves

Each operation of the scheduler and of the mutexes, from a state in which the
processes are in their places, succeeds and moves one process.
-/
namespace UnivOS
namespace Kernel
open Word

variable {k k' : Kernel} {loc : Int → Option Place} {i : Fin procMax}

theorem schedulerSleep_moved (h : Located k loc) (ht : TableOk k) (hact : k.activeProc = some i)
    (time : Int) :
    ∃ k', k.schedulerSleep (some i) time = .ok k' ∧ Moved k k' i (some .cpu) (some .sleep) := by
  let k₁ := k.modifyProc i fun p => { p with sleepTime := time }
  have hpid : (k₁.procTable i).pid = (k.procTable i).pid := by rw [modifyProc_self]
  obtain ⟨r, s, hr, hs, hrem⟩ := schedulerRemove_ok (k := k₁) hact fun w => by
    rw [hpid]; exact h.not_queued hact w
  obtain ⟨q, hq, hl⟩ := s.queueIn_ok (k.procTable i).pid (by rw [hs]; exact h.room .sleep)
  have hstate : (k₁.procTable i).state ≠ .sleeping := by
    rw [modifyProc_self, (h.active ht hact).1]
    simp
  let p : Proc := { k.procTable i with
    sleepTime := time
    schedulerQueue := some .sleep
    state := .sleeping }
  refine ⟨{ k with
    procTable := Function.update k.procTable i p
    runQueue := r
    sleepQueue := q
    activeProc := none }, ?_, ?_⟩
  · rw [schedulerSleep]
    dsimp only
    rw [if_neg hstate, hrem, Loop.ok_bind]
    simp [k₁, modifyProc, hq, p]
  · refine Moved.of_cpu (p := p) hact rfl rfl rfl rfl (by simp [Place.state]) (by simp) ?_ ?_
    · show q.toList = k.sleepQueue.toList ++ _
      rw [hl, hs]
      rfl
    · intro v hv hvs
      cases v with
      | cpu => exact absurd rfl hv
      | run => exact hr
      | sleep => exact absurd rfl hvs
      | wait m => rfl

/-- The active process joins the wait queue of a mutex. -/
theorem mutexBlock_moved (h : Located k loc) (hact : k.activeProc = some i) (m : Fin mutexMax) :
    ∃ (q : Queue) (k' : Kernel), q.toList = (k.mutexes m).waitQueue.toList ++ [(k.procTable i).pid] ∧
      k.mutexBlock m = .ok k' ∧ Moved k k' i (some .cpu) (some (.wait m)) ∧
      k'.mutexes = Function.update k.mutexes m { k.mutexes m with waitQueue := q } ∧
      k'.mutexQueue = k.mutexQueue := by
  obtain ⟨q, hq, hl⟩ := (k.mutexes m).waitQueue.queueIn_ok (k.procTable i).pid (h.room (.wait m))
  let k₁ := (k.modifyMutex m fun x =>
    { x with waitQueue := (x.waitQueue.queueIn (k.procTable i).pid).getD x.waitQueue }).modifyProc i
      fun p => { p with state := .waiting }
  have hpid : (k₁.procTable i).pid = (k.procTable i).pid := by
    show (Kernel.procTable (Kernel.modifyProc _ _ _) _).pid = _
    rw [modifyProc_self]
    rfl
  obtain ⟨r, s, hr, hs, hrem⟩ := schedulerRemove_ok (k := k₁) hact fun w => by
    rw [hpid]
    have := h.not_queued hact w
    cases w <;> exact this
  let p : Proc := { k.procTable i with state := .waiting, schedulerQueue := none }
  refine ⟨q, { k with
    procTable := Function.update k.procTable i p
    mutexes := Function.update k.mutexes m { k.mutexes m with waitQueue := q }
    runQueue := r
    sleepQueue := s
    activeProc := none }, hl, ?_, ?_, rfl, rfl⟩
  · rw [mutexBlock, hact]
    refine hrem.trans ?_
    simp [k₁, modifyProc, modifyMutex, p, hq]
  · refine Moved.of_cpu (p := p) hact rfl rfl rfl rfl (by simp [Place.state]) (by simp) ?_ ?_
    · simp [places, hl]
    · intro v hv hvw
      cases v with
      | cpu => exact absurd rfl hv
      | run => exact hr
      | sleep => exact hs
      | wait n =>
        have hn : n ≠ m := fun he => hvw (he ▸ rfl)
        simp [places, hn]

/-- One round of the timer looks at the first sleeping process. -/
theorem timerBody_moved (h : Located k loc) (ht : TableOk k) (hpos : 0 < k.sleepQueue.size) :
    ∃ (k' : Kernel) (i : Fin procMax) (w : Place), k.timerBody = .ok k' ∧ k.Live i ∧
      i ≠ idleProc ∧ (w = .sleep ∨ w = .run) ∧ Moved k k' i (some .sleep) (some w) := by
  rw [Queue.size_eq] at hpos
  obtain ⟨x, l, hcons⟩ := List.exists_cons_of_length_pos hpos
  have hx : x ∈ k.places .sleep := by
    show x ∈ k.sleepQueue.toList
    rw [hcons]
    exact List.mem_cons_self
  obtain ⟨i, hfind, hi, rfl⟩ := h.pidToProc ht hx
  have hne := h.ne_idle ht hx (by simp) (by simp)
  have hsleeping : (k.procTable i).state = .sleeping := by
    rw [h.state i hi, (h.exact.mem_iff .sleep _).mp hx]
    rfl
  obtain ⟨q, hout, hl⟩ := Queue.queueOut_cons hcons
  have hfind' : ({ k with sleepQueue := q } : Kernel).pidToProc (k.procTable i).pid = some i := hfind
  have hcpu : some Place.sleep ≠ some .cpu := by simp
  let p : Proc := { k.procTable i with sleepTime := wrap32 ((k.procTable i).sleepTime - 1) }
  by_cases htime : (k.procTable i).sleepTime ≥ 0
  · have hroom := h.room .sleep
    rw [places, hcons, List.length_cons] at hroom
    obtain ⟨q', hin, hl'⟩ := q.queueIn_ok (k.procTable i).pid (by rw [hl]; omega)
    refine ⟨{ k with procTable := Function.update k.procTable i p, sleepQueue := q' }, i, .sleep,
      ?_, hi, hne, .inl rfl, ?_⟩
    · rw [timerBody, hout]
      dsimp only
      rw [hfind']
      dsimp only
      rw [if_pos htime, modifyProc_sleepQueue, hin]
      rfl
    · refine .of_update (p := p) rfl rfl hsleeping (by simp [stateAt, Place.state]) ⟨fun v hv => ?_, fun v => ?_⟩ rfl
      · rw [← Option.some.inj hv, places, hcons]
        rfl
      · cases v with
        | sleep => simp [places, hcons, hl', hl]
        | cpu =>
          rw [if_neg hcpu, if_neg hcpu, List.append_nil]
          exact places_cpu_congr (p := p) rfl rfl rfl
        | _ => exact (List.append_nil _).symm
  · let k₁ : Kernel := { k with procTable := Function.update k.procTable i p, sleepQueue := q }
    obtain ⟨r, hadd, hr⟩ := k₁.schedulerAdd_ok i (h.room .run)
    have hself : k₁.procTable i = p := Function.update_self ..
    rw [hself] at hr
    refine ⟨k₁.runnable i r, i, .run, ?_, hi, hne, .inr rfl, ?_⟩
    · rw [timerBody, hout]
      dsimp only
      rw [hfind']
      dsimp only
      rw [if_neg htime]
      exact hadd
    · refine Moved.of_wake (p := { p with schedulerQueue := some .run, state := .idle, cpuTime := 0 })
        rfl ?_ rfl rfl rfl (by simp) (by simp) hcons hl hr ?_
      · simp [runnable, modifyProc, k₁]
      · intro v hv hvr hcpu
        cases v with
        | cpu => exact absurd rfl hcpu
        | run => exact absurd rfl hvr
        | sleep => exact absurd rfl hv
        | wait m => rfl

/-- The first process waiting for a mutex becomes its owner. -/
theorem mutexHandOff_moved (h : Located k loc) (ht : TableOk k) {m : Fin mutexMax} {x : Int}
    {l : List Int} (hcons : (k.mutexes m).waitQueue.toList = x :: l) :
    ∃ (q : Queue) (k' : Kernel) (i : Fin procMax), q.toList = l ∧ k.mutexHandOff m = .ok k' ∧
      k.Live i ∧ i ≠ idleProc ∧ (k.procTable i).pid = x ∧
      Moved k k' i (some (.wait m)) (some .run) ∧
      k'.mutexes =
        Function.update k.mutexes m { k.mutexes m with waitQueue := q, owner := some i } ∧
      k'.mutexQueue = k.mutexQueue := by
  have hx : x ∈ k.places (.wait m) := by
    show x ∈ (k.mutexes m).waitQueue.toList
    rw [hcons]
    exact List.mem_cons_self
  obtain ⟨i, hfind, hi, rfl⟩ := h.pidToProc ht hx
  obtain ⟨q, hout, hl⟩ := Queue.queueOut_cons hcons
  let k₁ := k.modifyMutex m fun x => { x with waitQueue := q }
  have hfind' : (k.modifyMutex m fun x => { x with waitQueue := q }).pidToProc (k.procTable i).pid =
    some i := hfind
  obtain ⟨r, hadd, hr⟩ := k₁.schedulerAdd_ok i (h.room .run)
  refine ⟨q, (k₁.runnable i r).modifyMutex m fun x => { x with owner := some i }, i, hl, ?_, hi,
    h.ne_idle ht hx (by simp) (by simp), rfl, ?_, ?_, rfl⟩
  · rw [mutexHandOff, hout]
    dsimp only
    rw [hfind']
    show (k₁.schedulerAdd (some i) >>= _) = _
    rw [hadd, Loop.ok_bind]
  · refine Moved.of_wake (p := { k.procTable i with
      schedulerQueue := some .run
      state := .idle
      cpuTime := 0 }) rfl rfl rfl rfl rfl (by simp) (by simp) hcons ?_ hr ?_
    · simp [places, modifyMutex, runnable, modifyProc, k₁, hl]
    · intro v hv hvr hcpu
      cases v with
      | cpu => exact absurd rfl hcpu
      | run => exact absurd rfl hvr
      | sleep => rfl
      | wait n =>
        have hn : n ≠ m := fun he => hv (he ▸ rfl)
        simp [places, modifyMutex, runnable, modifyProc, k₁, hn]
  · simp [modifyMutex, runnable, modifyProc, k₁]

/-- A used-up time slice. -/
theorem scheduleOut_moved (h : Located k loc) (ht : TableOk k) (hact : k.activeProc = some i)
    (htime : (k.procTable i).cpuTime ≥ schedulerTimeslice) :
    ∃ (k' : Kernel) (dst : Option Place), k.scheduleOut = .ok k' ∧
      (i = idleProc ∧ dst = none ∨ i ≠ idleProc ∧ dst = some .run) ∧
      Moved k k' i (some .cpu) dst := by
  have hstate := (h.active ht hact).1
  have hi := ht.active_live i hact
  let k₁ := k.modifyProc i fun p => { p with cpuTime := 0 }
  have hself : k₁.procTable i = { k.procTable i with cpuTime := 0 } := modifyProc_self ..
  have hout : k.scheduleOut = (do
      let k ← k₁.endSlice i
      .ok { k with activeProc := none }) := by
    unfold scheduleOut
    simp only [hact]
    rw [if_neg (not_not_intro hstate), if_pos htime]
  by_cases hidle : i = idleProc
  · have h0 : ¬ (k₁.procTable i).pid ≠ 0 := by
      rw [hself, not_not]
      exact (ht.pid_eq_zero hi).mpr hidle
    refine ⟨{ k with
      procTable := Function.update k.procTable i { k.procTable i with cpuTime := 0, state := .idle }
      activeProc := none }, none, ?_, .inl ⟨hidle, rfl⟩, ?_⟩
    · rw [hout, endSlice, if_neg h0]
      simp [k₁, modifyProc]
    · refine .of_update rfl rfl rfl (fun _ => rfl) ⟨fun v hv => ?_, fun v => ?_⟩ rfl
      · rw [← Option.some.inj hv, places_cpu_some hact]
        rfl
      · cases v with
        | cpu => simp [places, hact]
        | _ => exact (List.append_nil _).symm
  · have h0 : (k₁.procTable i).pid ≠ 0 := by
      rw [hself]
      exact fun he => hidle ((ht.pid_eq_zero hi).mp he)
    obtain ⟨r, hadd, hr⟩ := k₁.schedulerAdd_ok i (h.room .run)
    rw [hself] at hr
    refine ⟨{ k₁.runnable i r with activeProc := none }, some .run, ?_, .inr ⟨hidle, rfl⟩, ?_⟩
    · rw [hout, endSlice, if_pos h0, hadd, Loop.ok_bind]
    · refine Moved.of_cpu (p := { k.procTable i with
        schedulerQueue := some .run
        state := .idle
        cpuTime := 0 }) hact rfl ?_ rfl rfl (fun _ => rfl) (by simp) hr ?_
      · simp [k₁, runnable, modifyProc]
      · intro v hv hvr
        cases v with
        | cpu => exact absurd rfl hv
        | run => exact absurd rfl hvr
        | _ => rfl

/-- Where no process is active, the first runnable one is dispatched, or else the
idle task. -/
theorem scheduleIn_moved (h : Located k loc) (ht : TableOk k) (hact : k.activeProc = none) :
    ∃ (k' : Kernel) (i : Fin procMax) (src : Option Place), k.scheduleIn = .ok k' ∧ k.Live i ∧
      (src = some .run ∨ src = none ∧ i = idleProc ∧ loc 0 = none ∧ k.runQueue.toList = []) ∧
      Moved k k' i src (some .cpu) ∧ (k'.procTable i).cpuTime = 0 := by
  let p (i : Fin procMax) : Proc := { k.procTable i with state := .active }
  have hin : ∀ (i : Fin procMax) (q : Queue),
      k.takeNext = { k with runQueue := q, activeProc := some i } →
      k.scheduleIn = .ok { k with
        procTable := Function.update k.procTable i (p i)
        runQueue := q
        activeProc := some i } := by
    intro i q hq
    rw [scheduleIn, hq]
    rfl
  cases hrun : k.runQueue.toList with
  | nil =>
    have hnone := h.idle_rests hact hrun
    have hidle : (k.procTable idleProc).state = .idle := by
      rw [h.state _ ht.idle_live, ht.idle_pid, hnone]
      rfl
    have htake : k.takeNext = { k with runQueue := k.runQueue, activeProc := some idleProc } := by
      have hfind := ht.pidToProc_pid ht.idle_live
      rw [ht.idle_pid] at hfind
      rw [takeNext, hact, Queue.queueOut_none.mpr hrun]
      dsimp only
      rw [hfind]
    refine ⟨_, idleProc, none, hin _ _ htake, ht.idle_live, .inr ⟨rfl, rfl, hnone, rfl⟩, ?_, ?_⟩
    · refine .of_update (p := p idleProc) rfl rfl rfl (by simp [stateAt, Place.state])
        ⟨by simp, fun v => ?_⟩ rfl
      cases v with
      | cpu => simp [places, hact, p]
      | _ => exact (List.append_nil _).symm
    · show (Function.update k.procTable idleProc (p idleProc) idleProc).cpuTime = 0
      rw [Function.update_self]
      exact h.slice _ ht.idle_live hidle
  | cons x l =>
    have hx : x ∈ k.places .run := by
      show x ∈ k.runQueue.toList
      rw [hrun]
      exact List.mem_cons_self
    obtain ⟨i, hfind, hi, rfl⟩ := h.pidToProc ht hx
    have hidle : (k.procTable i).state = .idle := by
      rw [h.state i hi, (h.exact.mem_iff .run _).mp hx]
      rfl
    obtain ⟨q, hout, hl⟩ := Queue.queueOut_cons hrun
    have htake : k.takeNext = { k with runQueue := q, activeProc := some i } := by
      rw [takeNext, hact, hout]
      dsimp only
      rw [hfind]
    refine ⟨_, i, some .run, hin _ _ htake, hi, .inl rfl, ?_, ?_⟩
    · refine .of_update (p := p i) rfl rfl rfl (by simp [stateAt, Place.state])
        ⟨fun v hv => ?_, fun v => ?_⟩ rfl
      · rw [← Option.some.inj hv, places, hrun]
        rfl
      · cases v with
        | cpu => simp [places, hact, p]
        | run => simp [places, hrun, hl]
        | _ => exact (List.append_nil _).symm
    · show (Function.update k.procTable i (p i) i).cpuTime = 0
      rw [Function.update_self]
      exact h.slice i hi hidle

end Kernel
end UnivOS
