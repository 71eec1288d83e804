import UnivOS.Frames
import UnivOS.Moves

/-! # Handlers and the run queue

What the handler of an event may do to the schedule before `scheduler_run` is
called: processes other than the idle task join the run queue at its end, and
the active process stays or leaves the processor (`Handled`).
-/
namespace UnivOS
namespace Kernel
open Word

structure Handled (k k' : Kernel) : Prop where
  run : ∃ new, (0 : Int) ∉ new ∧ k'.runQueue.toList = k.runQueue.toList ++ new
  active : ∀ a, k'.activeProc = some a → k.activeProc = some a ∧
    (k'.procTable a).pid = (k.procTable a).pid ∧
    (k'.procTable a).cpuTime = (k.procTable a).cpuTime

/-- Nothing the scheduler looks at has changed. -/
structure Still (k k' : Kernel) : Prop where
  places : k'.places = k.places
  active : k'.activeProc = k.activeProc
  pid : ∀ i, (k'.procTable i).pid = (k.procTable i).pid
  state : ∀ i, (k'.procTable i).state = (k.procTable i).state
  cpuTime : ∀ i, (k'.procTable i).cpuTime = (k.procTable i).cpuTime

variable {k k' k'' : Kernel} {loc : Int → Option Place} {i : Fin procMax} {w : Place}
  {dst : Option Place} {rc : Int}

theorem Handled.of_table (hrun : k'.runQueue = k.runQueue) (hact : k'.activeProc = k.activeProc)
    (hp : k'.procTable = k.procTable) : Handled k k' :=
  ⟨⟨[], by simp, by rw [hrun, List.append_nil]⟩, fun _ ha => ⟨hact ▸ ha, by rw [hp], by rw [hp]⟩⟩

theorem Handled.refl (k : Kernel) : Handled k k := .of_table rfl rfl rfl

theorem Handled.trans (h : Handled k k') (h' : Handled k' k'') : Handled k k'' := by
  obtain ⟨new, h0, hrun⟩ := h.run
  obtain ⟨new', h0', hrun'⟩ := h'.run
  refine ⟨⟨new ++ new', ?_, by rw [hrun', hrun, List.append_assoc]⟩, fun a ha => ?_⟩
  · rw [List.mem_append, not_or]
    exact ⟨h0, h0'⟩
  · obtain ⟨ha, hp', ht'⟩ := h'.active a ha
    obtain ⟨ha, hp, ht⟩ := h.active a ha
    exact ⟨ha, hp'.trans hp, ht'.trans ht⟩

theorem Still.trans (h : Still k k') (h' : Still k' k'') : Still k k'' where
  places := h'.places.trans h.places
  active := h'.active.trans h.active
  pid j := (h'.pid j).trans (h.pid j)
  state j := (h'.state j).trans (h.state j)
  cpuTime j := (h'.cpuTime j).trans (h.cpuTime j)

theorem Still.handled (h : Still k k') : Handled k k' := by
  refine ⟨⟨[], by simp, ?_⟩, fun a ha => ⟨h.active ▸ ha, h.pid a, h.cpuTime a⟩⟩
  rw [List.append_nil]
  exact congrFun h.places .run

/-- A move by which nothing is dispatched. -/
theorem Moved.handled (hm : Moved k k' i (some w) dst) (h : Located k loc) (hw : w ≠ .run)
    (hdst : dst ≠ some .cpu) (h0 : (k.procTable i).pid ≠ 0) : Handled k k' := by
  have hrun := hm.lists.after .run
  rw [if_neg (by simpa using hw)] at hrun
  refine ⟨⟨_, ?_, hrun⟩, fun a ha => ?_⟩
  · split
    · rw [List.mem_singleton]
      exact h0.symm
    · simp
  · rw [hm.active, if_neg hdst] at ha
    split at ha
    · cases ha
    · rename_i hcpu
      -- the process that moves was elsewhere
      have hne : a ≠ i := by
        rintro rfl
        obtain ⟨r, hr⟩ := List.head?_eq_some_iff.mp (hm.lists.head w rfl)
        have hmem : (k.procTable a).pid ∈ k.places w := hr ▸ List.mem_cons_self
        exact hcpu (congrArg some (h.exact.unique hmem (mem_cpu.mpr ⟨a, ha, rfl⟩)))
      exact ⟨ha, by rw [hm.other a hne], by rw [hm.other a hne]⟩

theorem Located.of_same (h : Located k loc) (hpl : k'.places = k.places)
    (hpid : ∀ i, (k'.procTable i).pid = (k.procTable i).pid)
    (hst : ∀ i, (k'.procTable i).state = (k.procTable i).state)
    (hsl : ∀ i, (k.procTable i).state = .idle →
      (k'.procTable i).cpuTime = (k.procTable i).cpuTime) : Located k' loc := by
  have hlive : ∀ i, k'.Live i ↔ k.Live i := fun i => by unfold Live; rw [hst]
  refine ⟨by rw [hpl]; exact h.exact, fun i hi => ?_, fun i hi h0 => ?_, fun x hx => ?_, h.idle,
    fun i hi hs => ?_⟩
  · rw [hst, hpid]
    exact h.state i ((hlive i).mp hi)
  · rw [hpid]
    exact h.placed i ((hlive i).mp hi) h0
  · obtain ⟨i, hi, hix⟩ := h.live x hx
    exact ⟨i, (hlive i).mpr hi, (hpid i).trans hix⟩
  · rw [hst] at hs
    rw [hsl i hs]
    exact h.slice i ((hlive i).mp hi) hs

theorem Located.still (h : Located k loc) (hs : Still k k') : Located k' loc :=
  h.of_same hs.places hs.pid hs.state fun i _ => hs.cpuTime i

theorem ActiveOnly.places (h : ActiveOnly k k') : k'.places = k.places := by
  rw [h.table]
  funext v
  cases v with
  | cpu => simp only [Kernel.places, h.pid]
  | _ => rfl

/-! ## The timer -/

theorem accountActive_located (h : Located k loc) (ht : TableOk k) :
    Located k.accountActive loc := by
  have hacc := accountActive_only k
  refine h.of_same hacc.places hacc.pid hacc.state fun j hs => ?_
  have hj : k.activeProc ≠ some j := by
    intro hact
    rw [(h.active ht hact).1] at hs
    cases hs
  rw [hacc.other j hj]

theorem accountActive_activeProc (k : Kernel) : k.accountActive.activeProc = k.activeProc :=
  (accountActive_only k).frame Kernel.activeProc fun _ _ => rfl

theorem accountActive_runQueue (k : Kernel) : k.accountActive.runQueue = k.runQueue :=
  (accountActive_only k).frame Kernel.runQueue fun _ _ => rfl

theorem accountActive_cpuTime (hact : k.activeProc = some i) :
    (k.accountActive.procTable i).cpuTime = wrap32 ((k.procTable i).cpuTime + 1) := by
  unfold accountActive
  rw [hact]
  dsimp only
  rw [modifyProc_self]

/-- What the rounds of the timer keep. -/
theorem timerBody_handled (hs : Scheduled k) (ht : TableOk k) (hpos : 0 < k.sleepQueue.size) :
    ∃ k', k.timerBody = .ok k' ∧ Scheduled k' ∧ TableOk k' ∧ Handled k k' := by
  obtain ⟨loc, h⟩ := hs
  obtain ⟨k', i, w, hk, hi, hne, hw, hm⟩ := timerBody_moved h ht hpos
  have hdst : w ≠ .cpu := by rcases hw with rfl | rfl <;> exact nofun
  refine ⟨k', hk, ⟨_, h.moved ht hi hm nofun nofun fun he => absurd he hne⟩,
    (timerBody_keeps ht hk).tableOk ht, hm.handled h nofun (by simpa using hdst) ?_⟩
  exact fun h0 => hne ((ht.pid_eq_zero hi).mp h0)

/-- The timer charges the active process and wakes others. -/
theorem tick_handled (hs : Scheduled k) (ht : TableOk k) :
    ∃ k', k.tick = .ok k' ∧ Scheduled k' ∧ Handled k.accountActive k' := by
  obtain ⟨loc, h⟩ := hs
  let k₀ : Kernel := { k with timerTicks := wrap32 (k.timerTicks + 1) }
  have hplaces : k₀.places = k.places := by
    funext v
    cases v <;> rfl
  have hkeeps : Keeps k k₀ := .of_table rfl rfl rfl fun _ => id
  have ht₀ := hkeeps.tableOk ht
  have h₀ := accountActive_located (h.of_same hplaces (fun _ => rfl) (fun _ => rfl) fun _ _ => rfl)
    ht₀
  have hacc : Handled k.accountActive k₀.accountActive := by
    unfold accountActive
    cases k.activeProc <;> exact .of_table rfl rfl rfl
  obtain ⟨k', hk, hs', ht', hh⟩ := Loop.live_ok
    (fun k' => Scheduled k' ∧ TableOk k' ∧ Handled k.accountActive k')
    (fun s hpos hinv => by
      obtain ⟨hs, ht, hh⟩ := hinv
      obtain ⟨t, hbody, hs', ht', hh'⟩ := timerBody_handled hs ht hpos
      exact ⟨t, hbody, hs', ht', hh.trans hh'⟩)
    queueSize 0 k₀.accountActive ⟨⟨loc, h₀⟩, (accountActive_keeps k₀).tableOk ht₀, hacc⟩
  exact ⟨k', hk, hs', hh⟩

/-! ## Creation and destruction -/

theorem Located.fresh (h : Located k loc) (ht : TableOk k) : loc k.nextPid = none := by
  by_contra hne
  obtain ⟨i, hi, hpid⟩ := h.live _ hne
  have := (ht.pid_range i hi).2
  omega

theorem Located.created (h : Located k loc) (ht : TableOk k) (hi : ¬ k.Live i)
    (hstate : (k'.procTable i).state = .idle) (hpid : (k'.procTable i).pid = k.nextPid)
    (hslice : (k'.procTable i).cpuTime = 0) (hother : ∀ j, j ≠ i → k'.procTable j = k.procTable j)
    (hm : Places.Moved k.places k'.places k.nextPid none (some .run)) :
    Located k' (Function.update loc k.nextPid (some .run)) := by
  have hlive : ∀ j, k'.Live j → j ≠ i → k.Live j := fun j hj hji =>
    (live_congr (hother j hji)).mp hj
  have hold : ∀ j, k.Live j → (k.procTable j).pid ≠ k.nextPid :=
    fun j hj => Int.ne_of_lt (ht.pid_range j hj).2
  refine ⟨(h.exact.moved (fun _ => h.fresh ht) hm).2, fun j hj => ?_, fun j hj hj0 => ?_,
    fun x hx => ?_, ?_, fun j hj hsj => ?_⟩
  · by_cases hji : j = i
    · rw [hji, hpid, Function.update_self, hstate]
      rfl
    · have hlj := hlive j hj hji
      rw [hother j hji, Function.update_of_ne (hold j hlj)]
      exact h.state j hlj
  · by_cases hji : j = i
    · rw [hji, hpid, Function.update_self]
      exact nofun
    · have hlj := hlive j hj hji
      rw [hother j hji, Function.update_of_ne (hold j hlj)]
      exact h.placed j hlj hj0
  · by_cases hxn : x = k.nextPid
    · exact ⟨i, live_of_state hstate nofun, hpid.trans hxn.symm⟩
    · rw [Function.update_of_ne hxn] at hx
      obtain ⟨j, hj, hjx⟩ := h.live x hx
      have hji : j ≠ i := fun he => hi (he ▸ hj)
      exact ⟨j, (live_congr (hother j hji)).mpr hj, by rw [hother j hji, hjx]⟩
  · have hne := hold idleProc ht.idle_live
    rw [ht.idle_pid] at hne
    rw [Function.update_of_ne hne]
    exact h.idle
  · by_cases hji : j = i
    · rw [hji, hslice]
    · rw [hother j hji] at hsj ⊢
      exact h.slice j (hlive j hj hji) hsj

/-- A new process is runnable. -/
theorem kprocCreate_handled (hs : Scheduled k) (ht : TableOk k) {ptr : BitVec 32}
    {name : Option (List Byte)} {type : ProcType} (h : k.kprocCreate ptr name type = .ok (rc, k')) :
    Scheduled k' ∧ Handled k k' := by
  rcases kprocCreate_cases ht h with ⟨_, _, rfl⟩ | ⟨i, q, p, m, hi, hq, _, hp, hst, _, hadd⟩
  · exact ⟨hs, .refl _⟩
  · obtain ⟨loc, hl⟩ := hs
    let k₁ := k.allotProc i p q m
    obtain ⟨r, hadd', hr⟩ := k₁.schedulerAdd_ok i (hl.room .run)
    obtain rfl : k₁.runnable i r = k' := Except.ok.inj (hadd'.symm.trans hadd)
    have hself : k₁.procTable i = p := allotProc_self k p q m
    rw [hself, hp] at hr
    have hactive : ∀ a, k.activeProc = some a → a ≠ i :=
      fun a ha he => hi (he ▸ ht.active_live a ha)
    have hother : ∀ j, j ≠ i → (k₁.runnable i r).procTable j = k.procTable j :=
      fun j hj => by rw [runnable_ne _ _ hj, allotProc_ne k p q m hj]
    have hmoved : Places.Moved k.places (k₁.runnable i r).places k.nextPid none (some .run) := by
      refine ⟨nofun, fun v => ?_⟩
      cases v with
      | cpu =>
        rw [if_neg nofun, if_neg nofun, List.append_nil]
        show (k.activeProc.map _).toList = (k.activeProc.map _).toList
        cases hact : k.activeProc with
        | none => rfl
        | some a =>
          show [((k₁.runnable i r).procTable a).pid] = [(k.procTable a).pid]
          rw [hother a (hactive a hact)]
      | run => exact hr
      | _ => exact (List.append_nil _).symm
    refine ⟨⟨_, hl.created ht hi (runnable_state ..) ?_ (runnable_cpuTime ..) hother hmoved⟩,
      ⟨[k.nextPid], ?_, hr⟩, fun a ha => ?_⟩
    · rw [runnable_pid, hself, hp]
    · have := ht.pid_range idleProc ht.idle_live
      rw [List.mem_singleton]
      omega
    · rw [hother a (hactive a ha)]
      exact ⟨ha, rfl, rfl⟩

theorem Located.destroyed (h : Located k loc) (ht : TableOk k) (hi : k.Live i) (hne : i ≠ idleProc)
    (hfree : ¬ k'.Live i) (hother : ∀ j, j ≠ i → k'.procTable j = k.procTable j)
    (hm : Places.Moved k.places k'.places (k.procTable i).pid (some .cpu) none) :
    Located k' (Function.update loc (k.procTable i).pid none) := by
  have hlive : ∀ j, k'.Live j → j ≠ i ∧ k.Live j := fun j hj => by
    have hji : j ≠ i := fun he => hfree (he ▸ hj)
    exact ⟨hji, (live_congr (hother j hji)).mp hj⟩
  have hpid : ∀ j, k.Live j → j ≠ i → (k.procTable j).pid ≠ (k.procTable i).pid :=
    fun j hj hji he => hji (ht.pid_inj j i hj hi he)
  refine ⟨(h.exact.moved (fun hn => by cases hn) hm).2, fun j hj => ?_, fun j hj hj0 => ?_, fun x hx => ?_, ?_,
    fun j hj hsj => ?_⟩
  · obtain ⟨hji, hlj⟩ := hlive j hj
    rw [hother j hji, Function.update_of_ne (hpid j hlj hji)]
    exact h.state j hlj
  · obtain ⟨hji, hlj⟩ := hlive j hj
    rw [hother j hji, Function.update_of_ne (hpid j hlj hji)]
    exact h.placed j hlj hj0
  · have hxi : x ≠ (k.procTable i).pid := by
      rintro rfl
      rw [Function.update_self] at hx
      exact hx rfl
    rw [Function.update_of_ne hxi] at hx
    obtain ⟨j, hj, hjx⟩ := h.live x hx
    have hji : j ≠ i := fun he => hxi (by rw [← hjx, he])
    exact ⟨j, (live_congr (hother j hji)).mpr hj, by rw [hother j hji, hjx]⟩
  · have h0 := hpid idleProc ht.idle_live hne.symm
    rw [ht.idle_pid] at h0
    rw [Function.update_of_ne h0]
    exact h.idle
  · obtain ⟨hji, hlj⟩ := hlive j hj
    rw [hother j hji] at hsj ⊢
    exact h.slice j hlj hsj

/-- The active process is gone; the idle task stays. -/
theorem kprocDestroy_handled (hs : Scheduled k) (ht : TableOk k) (hact : k.activeProc = some i) :
    ∃ rc k', k.kprocDestroy (some i) = .ok (rc, k') ∧ Scheduled k' ∧ Handled k k' := by
  obtain ⟨loc, h⟩ := hs
  have hi := ht.active_live i hact
  by_cases hidle : i = idleProc
  · refine ⟨-1, k, ?_, ⟨loc, h⟩, .refl k⟩
    exact if_pos ((ht.pid_eq_zero hi).mpr hidle)
  · obtain ⟨r, s, hr, hsl, hrem⟩ := schedulerRemove_ok hact (h.not_queued hact)
    let k₁ : Kernel := { k.modifyProc i fun p => { p with schedulerQueue := none } with
      runQueue := r
      sleepQueue := s
      activeProc := none }
    have hk : Keeps k k₁ := schedulerRemove_keeps hrem
    have hentry := (hk.tableOk ht).procToEntry_self ((hk.live i).mpr hi)
    let q := (k₁.procAllocator.queueIn ((i : Nat) : Int)).getD k₁.procAllocator
    have hother : ∀ j, j ≠ i → (k₁.freeProc i q).procTable j = k.procTable j :=
      fun j hj => (freeProc_ne k₁ q hj).trans (Function.update_of_ne hj ..)
    refine ⟨0, k₁.freeProc i q, ?_, ⟨_, h.destroyed ht hi hidle ?_ hother ?_⟩,
      ⟨⟨[], by simp, hr.trans (List.append_nil _).symm⟩, by simp [freeProc, k₁]⟩⟩
    · rw [kprocDestroy, if_neg fun h0 => hidle ((ht.pid_eq_zero hi).mp h0), hrem, Loop.ok_bind]
      rw [hentry]
    · exact fun hl => (freeProc_live.mp hl).2 rfl
    · refine ⟨fun v hv => ?_, fun v => ?_⟩
      · rw [← Option.some.inj hv, places_cpu_some hact]
        rfl
      · cases v with
        | cpu =>
          rw [places_cpu_some hact]
          rfl
        | run => exact hr.trans (List.append_nil _).symm
        | sleep => exact hsl.trans (List.append_nil _).symm
        | wait m => exact (List.append_nil _).symm

end Kernel
end UnivOS
