import UnivOS.Bystander
import UnivOS.Runs

/-! # Round-robin scheduling

The run queue is a queue: from one kernel exit to the next its list only grows at
the end and shrinks at the head, and the head goes to the processor. The active
process never holds it beyond its time slice.
-/
namespace UnivOS
namespace Kernel
open Word

variable {k k' : Kernel} {loc : Int → Option Place} {i : Fin procMax} {rc : Int}
  {tr : List KernelStep} {e : Entry} {ev : Event}

/-! ## Time slices -/

/-- The active process has not used up its time slice of `n` ticks. -/
def SliceBelow (n : Int) (k : Kernel) : Prop :=
  ∀ i, k.activeProc = some i → 0 ≤ (k.procTable i).cpuTime ∧ (k.procTable i).cpuTime < n

theorem Handled.sliceBelow {n : Int} (h : Handled k k') (hs : SliceBelow n k) :
    SliceBelow n k' := by
  intro i hi
  obtain ⟨hact, _, htime⟩ := h.active i hi
  rw [htime]
  exact hs i hact

theorem accountActive_sliceBelow (hs : SliceBelow schedulerTimeslice k) :
    SliceBelow (schedulerTimeslice + 1) k.accountActive := by
  intro i hi
  rw [accountActive_activeProc] at hi
  obtain ⟨h0, hlt⟩ := hs i hi
  have hmax : schedulerTimeslice = 10 := rfl
  rw [accountActive_cpuTime hi, wrap32_of_inInt32 ⟨by omega, by omega⟩]
  exact ⟨by omega, by omega⟩

/-- The scheduler ends a time slice that is used up. -/
theorem Rescheduled.sliceBelow (h : Rescheduled k k') (hs : SliceBelow (schedulerTimeslice + 1) k) :
    SliceBelow schedulerTimeslice k' := by
  have hmax : schedulerTimeslice = 10 := rfl
  intro i hi
  cases h with
  | stays j hact htime hk =>
    subst hk
    rw [hact] at hi
    cases hi
    exact ⟨(hs i hact).1, htime⟩
  | switches new _ hd =>
    have hzero : (k'.procTable i).cpuTime = 0 := by
      cases hd with
      | next j _ hact htime => rw [hact] at hi; cases hi; exact htime
      | idle _ _ hact htime => rw [hact] at hi; cases hi; exact htime
    rw [hzero, hmax]
    decide

theorem Enters.sliceBelow (h : Enters k e ev rc k') (hs : SliceBelow schedulerTimeslice k) :
    SliceBelow schedulerTimeslice k' := by
  obtain ⟨k₁, k₂, _, hserves, _, hstill, _, hre, _⟩ := h
  have hs₀ := (entered_still k e).handled.sliceBelow hs
  refine hre.sliceBelow (hstill.handled.sliceBelow ?_)
  rcases hserves.handled with hh | hh
  · intro i hi
    have := hh.sliceBelow hs₀ i hi
    omega
  · exact hh.sliceBelow (accountActive_sliceBelow hs₀)

/-! ## The order of the run queue -/

/-- The process is ready to run, or runs. -/
def Runnable (k : Kernel) (x : Int) : Prop := ∃ i, (k.procTable i).pid = x ∧
  ((k.procTable i).state = .idle ∨ (k.procTable i).state = .active)

def OnCpu (k : Kernel) (x : Int) : Prop := ∃ i, k.activeProc = some i ∧ (k.procTable i).pid = x

/-- The process has become ready to run: it was created, woken, handed a mutex or
taken off the processor. The idle task is none of these. -/
structure NewlyRunnable (k k' : Kernel) (x : Int) : Prop where
  notIdle : x ≠ 0
  runnable : k'.Runnable x
  /-- It did not wait for its turn before. -/
  new : ∀ i, (k.procTable i).pid = x → (k.procTable i).state ≠ .idle
  kept : ¬ (k.OnCpu x ∧ k'.OnCpu x)

/-- How the run queue changes from `k` to `k'`: the newly runnable processes
join it at its end, and nothing else does; then the active process stays, or the
head of the list is dispatched, or the list is empty and the idle task runs. -/
def TakesTurns (k k' : Kernel) : Prop :=
  ∃ new : List Int, (∀ x, x ∈ new ↔ NewlyRunnable k k' x) ∧ (k.runQueue.toList ++ new).Nodup ∧
    (k'.runQueue.toList = k.runQueue.toList ++ new ∧ k'.activeProc = k.activeProc ∨
      (∃ i, k'.activeProc = some i ∧
        k.runQueue.toList ++ new = (k'.procTable i).pid :: k'.runQueue.toList) ∨
      k.runQueue.toList ++ new = [] ∧ k'.runQueue.toList = [] ∧ k'.activeProc = some idleProc)

/-- A process other than the idle task is in the run queue if its state says so. -/
theorem Located.queued (h : Located k loc) (ht : TableOk k) (hs : (k.procTable i).state = .idle)
    (h0 : (k.procTable i).pid ≠ 0) : (k.procTable i).pid ∈ k.runQueue.toList := by
  have hi : k.Live i := live_of_state hs nofun
  have hplaced := h.placed i hi fun he => h0 ((ht.pid_eq_zero hi).mpr he)
  rw [h.state i hi] at hs
  refine (h.exact.mem_iff .run _).mpr ?_
  cases hloc : loc (k.procTable i).pid with
  | none => exact absurd hloc hplaced
  | some w =>
    rw [hloc] at hs
    cases w <;> first | rfl | cases hs

theorem Located.not_onCpu (h : Located k loc) {x : Int} (hx : x ∈ k.runQueue.toList) :
    ¬ k.OnCpu x := by
  intro hcpu
  cases h.exact.unique (i := .cpu) (j := .run) (mem_cpu.mpr hcpu) hx

/-- A process that has the processor at both ends is the same entry of the table. -/
theorem Grows.onCpu (h : Grows k k') (ht : TableOk k) (ht' : TableOk k')
    (hcpu : k.OnCpu (k'.procTable i).pid) (hact : k'.activeProc = some i) :
    (k'.procTable i).pid = (k.procTable i).pid ∧ k.activeProc = some i := by
  obtain ⟨j, hj, hpid⟩ := hcpu
  have hjl := ht.active_live j hj
  rcases h.live i (ht'.active_live i hact) with ⟨hi, hp⟩ | hnew
  · exact ⟨hp, by rw [hj, ht.pid_inj j i hjl hi (hpid.trans hp)]⟩
  · have := (ht.pid_range j hjl).2
    omega

/-- The processes that join the run queue and are then in it, or dispatched from
it, are the newly runnable ones. -/
theorem newlyRunnable_iff (h : Located k loc) (ht : TableOk k) {loc' : Int → Option Place}
    (h' : Located k' loc') (ht' : TableOk k') {new : List Int} (h0 : (0 : Int) ∉ new)
    (hnd : (k.runQueue.toList ++ new).Nodup)
    (hnew : ∀ x ∈ new, x ∈ k'.runQueue.toList ∨ k'.OnCpu x ∧ ¬ k.OnCpu x)
    (hall : ∀ x, x ≠ 0 → x ∈ k'.runQueue.toList ∨ k'.OnCpu x ∧ ¬ k.OnCpu x →
      x ∈ k.runQueue.toList ++ new) (x : Int) :
    x ∈ new ↔ NewlyRunnable k k' x := by
  constructor
  · intro hx
    have hx0 : x ≠ 0 := fun he => h0 (he ▸ hx)
    refine ⟨hx0, ?_, fun i hi hs => ?_, fun hcpu => ?_⟩
    · rcases hnew x hx with hq | ⟨⟨i, hi, hpid⟩, _⟩
      · obtain ⟨i, _, hpid, hs⟩ := h'.of_mem (w := .run) hq
        exact ⟨i, hpid, .inl hs⟩
      · exact ⟨i, hpid, .inr (h'.active ht' hi).1⟩
    · have hq := h.queued ht hs (hi ▸ hx0)
      exact (List.nodup_append.mp hnd).2.2 _ hq x hx hi
    · rcases hnew x hx with hq | ⟨_, hn⟩
      · exact h'.not_onCpu hq hcpu.2
      · exact hn hcpu.1
  · rintro ⟨hx0, ⟨i, rfl, hs⟩, hold, hkept⟩
    have hin : (k'.procTable i).pid ∈ k.runQueue.toList ++ new := by
      refine hall _ hx0 ?_
      rcases hs with hs | hs
      · exact .inl (h'.queued ht' hs hx0)
      · have hcpu : k'.OnCpu (k'.procTable i).pid := ⟨i, h'.of_active ht' hs, rfl⟩
        exact .inr ⟨hcpu, fun hc => hkept ⟨hc, hcpu⟩⟩
    rcases List.mem_append.mp hin with hq | hx
    · obtain ⟨j, _, hpid, hj⟩ := h.of_mem (w := .run) hq
      exact absurd hj (hold j hpid)
    · exact hx

/-- The active process has stayed, perhaps through the run queue. -/
theorem Located.takesTurns_stays (h : Located k loc) (ht : TableOk k) {loc' : Int → Option Place}
    (h' : Located k' loc') (ht' : TableOk k') {new : List Int} (h0 : (0 : Int) ∉ new)
    (hq : k'.runQueue.toList = k.runQueue.toList ++ new) (hact : k'.activeProc = k.activeProc)
    (hpid : ∀ i, k'.activeProc = some i → (k'.procTable i).pid = (k.procTable i).pid) :
    TakesTurns k k' := by
  have hkept : ∀ x, k'.OnCpu x → k.OnCpu x := by
    rintro x ⟨i, hi, rfl⟩
    exact ⟨i, hact ▸ hi, (hpid i hi).symm⟩
  have hnd : (k.runQueue.toList ++ new).Nodup := hq ▸ h'.exact.nodup .run
  refine ⟨new, newlyRunnable_iff h ht h' ht' h0 hnd (fun x hx => .inl ?_) fun x _ hx => ?_, hnd,
    .inl ⟨hq, hact⟩⟩
  · rw [hq]
    exact List.mem_append_right _ hx
  · rcases hx with hx | ⟨hx, hn⟩
    · rwa [← hq]
    · exact absurd (hkept x hx) hn

/-- A process that was not on the processor is dispatched from the head of the queue. -/
theorem Located.takesTurns_next (h : Located k loc) (ht : TableOk k) {loc' : Int → Option Place}
    (h' : Located k' loc') (ht' : TableOk k') {new : List Int} (h0 : (0 : Int) ∉ new)
    (hact : k'.activeProc = some i)
    (hhead : k.runQueue.toList ++ new = (k'.procTable i).pid :: k'.runQueue.toList)
    (hcpu : ¬ k.OnCpu (k'.procTable i).pid) : TakesTurns k k' := by
  have hcpu' : k'.OnCpu (k'.procTable i).pid := ⟨i, hact, rfl⟩
  have hnd : (k.runQueue.toList ++ new).Nodup := by
    rw [hhead, List.nodup_cons]
    exact ⟨fun hm => h'.not_onCpu hm hcpu', h'.exact.nodup .run⟩
  refine ⟨new, newlyRunnable_iff h ht h' ht' h0 hnd (fun x hx => ?_) fun x _ hx => ?_, hnd,
    .inr (.inl ⟨i, hact, hhead⟩)⟩
  · have hx' : x ∈ (k'.procTable i).pid :: k'.runQueue.toList :=
      hhead ▸ List.mem_append_right _ hx
    rcases List.mem_cons.mp hx' with rfl | hx'
    · exact .inr ⟨hcpu', hcpu⟩
    · exact .inl hx'
  · rw [hhead, List.mem_cons]
    rcases hx with hx | ⟨⟨j, hj, rfl⟩, _⟩
    · exact .inr hx
    · rw [hact] at hj
      exact .inl (by rw [Option.some.inj hj])

/-- A process that comes back from the run queue was alone there. -/
theorem Located.queue_empty (h : Located k loc) {x : Int} {new rest : List Int}
    (hhead : k.runQueue.toList ++ new = x :: rest) (hcpu : k.OnCpu x) :
    k.runQueue.toList = [] := by
  cases hq : k.runQueue.toList with
  | nil => rfl
  | cons y l =>
    rw [hq, List.cons_append] at hhead
    have hy : y ∈ k.runQueue.toList := hq ▸ List.mem_cons_self
    rw [(List.cons.inj hhead).1] at hy
    exact absurd hcpu (h.not_onCpu hy)

/-- With an empty list the idle task runs. -/
theorem Located.takesTurns_idle (h : Located k loc) (ht : TableOk k) {loc' : Int → Option Place}
    (h' : Located k' loc') (ht' : TableOk k') (hempty : k.runQueue.toList = [])
    (hempty' : k'.runQueue.toList = []) (hact : k'.activeProc = some idleProc) :
    TakesTurns k k' := by
  have hnil : k.runQueue.toList ++ [] = [] := by rw [hempty, List.append_nil]
  have hnd : (k.runQueue.toList ++ []).Nodup := by
    rw [hnil]
    exact List.nodup_nil
  refine ⟨[], newlyRunnable_iff h ht h' ht' (by simp) hnd (by simp) ?_, hnd,
    .inr (.inr ⟨hnil, hempty', hact⟩)⟩
  rintro x hx0 (hx | ⟨⟨j, hj, rfl⟩, _⟩)
  · rw [hempty'] at hx
    cases hx
  · rw [hact] at hj
    rw [← Option.some.inj hj, ht'.idle_pid] at hx0
    exact absurd rfl hx0

theorem RoundRobin.takesTurns (h : RoundRobin k k') (hs : Scheduled k) (ht : TableOk k)
    (hs' : Scheduled k') (ht' : TableOk k') (hg : Grows k k') : TakesTurns k k' := by
  obtain ⟨loc, hl⟩ := hs
  obtain ⟨loc', hl'⟩ := hs'
  cases h with
  | stays new h0 hq hact hpid => exact hl.takesTurns_stays ht hl' ht' h0 hq hact hpid
  | switches new h0 hd =>
    cases hd with
    | next i hhead hact _ =>
      by_cases hcpu : k.OnCpu (k'.procTable i).pid
      · -- the whole queue is new, and the process that was at its head has stayed
        have hempty := hl.queue_empty hhead hcpu
        obtain ⟨hpid, hsame⟩ := hg.onCpu ht ht' hcpu hact
        rw [hempty, List.nil_append] at hhead
        have hqueue : k'.runQueue.toList = k.runQueue.toList ++ k'.runQueue.toList := by
          rw [hempty, List.nil_append]
        refine hl.takesTurns_stays ht hl' ht' (fun hm => h0 ?_) hqueue (hact.trans hsame.symm)
          fun a ha => ?_
        · rw [hhead]
          exact List.mem_cons_of_mem _ hm
        · rw [hact] at ha
          rw [← Option.some.inj ha, hpid]
      · exact hl.takesTurns_next ht hl' ht' h0 hact hhead hcpu
    | idle hempty hempty' hact _ =>
      exact hl.takesTurns_idle ht hl' ht' (List.append_eq_nil_iff.mp hempty).1 hempty' hact

/-- The first entry takes the idle task off the run queue. -/
theorem RoundRobin.idle_leaves (h : RoundRobin k k') (hi : Initial k) (hact : k'.activeProc ≠ none) :
    (0 : Int) ∉ k'.runQueue.toList := by
  have hq : k.runQueue.toList = 0 :: [1, 2, 3, 4, 5, 6, 7, 8, 9, 10] := hi.run
  cases h with
  | stays new _ _ ha _ => exact absurd (ha.trans hi.active) hact
  | switches new h0 hd =>
    cases hd with
    | next i hhead _ _ =>
      rw [hq, List.cons_append] at hhead
      rw [← (List.cons.inj hhead).2, List.mem_append, not_or]
      exact ⟨by decide, h0⟩
    | idle hempty _ _ _ => rw [hq] at hempty; cases hempty

/-! ## Runs -/

/-- What the runs from the start keep. -/
structure Turns (tr : List KernelStep) (k : Kernel) : Prop where
  ready : Ready tr k
  slice : SliceBelow schedulerTimeslice k
  first : tr = [] → Initial k
  idle : (0 : Int) ∈ k.runQueue.toList → tr = []

theorem Start.turns (h : Start k) : Turns [] k := by
  obtain ⟨img, hk⟩ := h
  have hi := Initial.of_kernelInit hk
  refine ⟨hi.ready, fun i hact => ?_, fun _ => hi, fun _ => rfl⟩
  rw [hi.active] at hact
  cases hact

/-- An entry of a run: what it does, and that the run goes on. -/
theorem Turns.step (h : Turns tr k) (ha : Allowed tr k e)
    (hk : kernelContextEnter e k = .ok (rc, k')) :
    TakesTurns k k' ∧ Turns (tr ++ [⟨k, (e, rc), k'⟩]) k' := by
  obtain ⟨ht', i, hact, _⟩ := kernelContextEnter_tableOk h.ready.table hk
  obtain ⟨⟨ev, hc, hp⟩, hcaller⟩ := ha
  obtain ⟨hs', he⟩ := kernelContextEnter_enters h.ready hc hp hcaller hk
  have hturns := he.roundRobin.takesTurns h.ready.scheduled h.ready.table hs' ht'
    (kernelContextEnter_grows h.ready.table hk)
  refine ⟨hturns, h.ready.step ⟨⟨ev, hc, hp⟩, hcaller⟩ hk,
    he.sliceBelow h.slice, fun hn => by simp at hn, fun h0 => ?_⟩
  by_cases htr : tr = []
  · exact absurd h0 (he.roundRobin.idle_leaves (h.first htr) (by rw [hact]; exact nofun))
  · exact absurd h0 (he.roundRobin.idle_out fun hm => htr (h.idle hm))

theorem turns_of_run (h : Trace.Run Start (Trace.Exec kernelContextEnter Allowed) tr k) :
    Turns tr k :=
  h.invariant (fun _ => Start.turns) fun _ _ _ _ _ hn ht => (ht.step hn.1 hn.2).2

/-- From the start of the kernel, at the exit from every entry `x`: the active
process is within its time slice, the run queue has kept its order since the exit
before, and the idle task is queued only before the first entry. -/
theorem round_robin {x : KernelStep}
    (h : Trace.Run Start (Trace.Exec kernelContextEnter Allowed) (tr ++ [x]) k) :
    (∃ i, k.activeProc = some i ∧ (k.procTable i).cpuTime < schedulerTimeslice) ∧
      TakesTurns x.pre k ∧ ((0 : Int) ∈ x.pre.runQueue.toList → tr = []) := by
  obtain ⟨hrun, hnext, rfl⟩ := h.snoc_inv
  have ht := turns_of_run hrun
  obtain ⟨hturn, ht'⟩ := ht.step hnext.1 hnext.2
  obtain ⟨_, i, hact, _⟩ := kernelContextEnter_tableOk ht.ready.table hnext.2
  exact ⟨⟨i, hact, (ht'.slice i hact).2⟩, hturn, ht.idle⟩

/-- The twelfth entry ends the time slice of the idle task: process 1 leaves the
run queue, in which a process created meanwhile has joined the others. -/
theorem round_robin_twelve : ∃ (tr : List KernelStep) (x : KernelStep) (k : Kernel),
    tr.length = 11 ∧ x.pre.runQueue.toList = [1, 2, 3, 4, 5, 6, 7, 8, 9, 10, 11] ∧
      k.runQueue.toList = [2, 3, 4, 5, 6, 7, 8, 9, 10, 11] ∧
      (∃ i, k.activeProc = some i ∧ (k.procTable i).cpuTime < schedulerTimeslice) ∧
      TakesTurns x.pre k ∧ ((0 : Int) ∈ x.pre.runQueue.toList → tr = []) := by
  let events : List Event := [.tick, .create 7 (some []) .user] ++ List.replicate 10 .tick
  obtain ⟨tr, k, hrun, hP⟩ := run_of_test Allowed (kernelInit Image.blank) (events.map Event.entry)
    (fun tr k => match tr.getLast? with
      | none => false
      | some x => decide (tr.length = 12 ∧
        x.pre.runQueue.toList = [1, 2, 3, 4, 5, 6, 7, 8, 9, 10, 11] ∧
        k.runQueue.toList = [2, 3, 4, 5, 6, 7, 8, 9, 10, 11]))
    (fun k hk => (⟨Image.blank, hk⟩ : Start k)) (by decide +kernel)
  split at hP
  · cases hP
  · rename_i x hlast
    obtain ⟨tr₀, rfl⟩ := List.getLast?_eq_some_iff.mp hlast
    obtain ⟨hlen, hpre, hpost⟩ := of_decide_eq_true hP
    rw [List.length_append, List.length_singleton] at hlen
    exact ⟨tr₀, x, k, Nat.add_right_cancel hlen, hpre, hpost, round_robin hrun⟩

end Kernel
end UnivOS
