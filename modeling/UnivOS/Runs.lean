import UnivOS.Entries

/-! # The placement of the processes

`Ready` holds before and after every allowed entry, so it holds along every run,
and with it each process is in the place its state names (`Placed`).
-/
namespace UnivOS
namespace Kernel
open Word

variable {k k' : Kernel} {loc : Int → Option Place} {i : Fin procMax} {rc : Int}
  {tr : List KernelStep} {start : Kernel → Prop}

/-! ## The invariant -/

theorem returned_snoc {x : KernelStep} {m : Fin mutexMax} :
    Returned (tr ++ [x]) m ↔
      Returned tr m ∨ x.act.1.call = some (.mutex .init) ∧ x.act.2 = ((m : Nat) : Int) := by
  unfold Returned
  constructor
  · rintro ⟨y, hy, h⟩
    rcases List.mem_append.mp hy with hy | hy
    · exact .inl ⟨y, hy, h⟩
    · rw [List.mem_singleton.mp hy] at h
      exact .inr h
  · rintro (⟨y, hy, h⟩ | h)
    · exact ⟨y, List.mem_append_left _ hy, h⟩
    · exact ⟨x, by simp, h⟩

theorem LockEffect.mutexes_ne {m n : Fin mutexMax} (h : LockEffect k m i k') (hn : n ≠ m) :
    k'.mutexes n = k.mutexes n := by
  cases h with
  | blocked _ _ _ _ hm => rw [hm, Function.update_of_ne hn]
  | acquired _ _ hm => rw [hm, Function.update_of_ne hn]

theorem UnlockEffect.mutexes_ne {m n : Fin mutexMax} (h : UnlockEffect k m i k') (hn : n ≠ m) :
    k'.mutexes n = k.mutexes n := by
  cases h with
  | refused _ hk => rw [hk]
  | freed _ _ _ _ hm => rw [hm, Function.update_of_ne hn]
  | kept _ _ _ _ _ hm => rw [hm, Function.update_of_ne hn]
  | handedOff _ _ _ _ _ _ _ _ _ hm => rw [hm, Function.update_of_ne hn]

/-- A mutex that has been given out is not given out again, so that changing it
does not matter to the others. -/
theorem MutexIds.of_ne (h : MutexIds tr k) {m : Fin mutexMax} (hret : Returned tr m)
    (hq : k'.mutexQueue = k.mutexQueue) (hm : ∀ n, n ≠ m → k'.mutexes n = k.mutexes n) :
    MutexIds tr k' := by
  refine ⟨hq ▸ h.nodup, fun n hn => ?_, fun n hn => hq ▸ h.returned n hn⟩
  rw [hq] at hn
  have hne : n ≠ m := fun he => h.returned m hret (he ▸ hn)
  rw [hm n hne]
  exact h.fresh n hn

theorem MutexIds.step (h : MutexIds tr k) {ev : Event} (hp : Permitted tr k ev)
    (he : MutexEffect k rc k' ev) {x : KernelStep} (hx : x.act.1.call = some ev)
    (hrc : x.act.2 = rc) : MutexIds (tr ++ [x]) k' := by
  have hold : ev ≠ .mutex .init → MutexIds tr k' → MutexIds (tr ++ [x]) k' := by
    intro hne h'
    refine ⟨h'.nodup, h'.fresh, fun m hm => h'.returned m ?_⟩
    rcases returned_snoc.mp hm with hm | ⟨hcall, _⟩
    · exact hm
    · rw [hx, Option.some.injEq] at hcall
      exact absurd hcall hne
  cases ev with
  | tick => exact hold nofun (h.congr he)
  | create => exact hold nofun (h.congr he)
  | destroy => exact hold nofun (h.congr he)
  | sleep => exact hold nofun (h.congr he)
  | mutex call =>
    cases call with
    | init =>
      have htakes := InitEffect.takes he h.nodup h.fresh
      refine ⟨htakes.nodup, htakes.cleared, fun m hm hq => ?_⟩
      rcases returned_snoc.mp hm with hm | ⟨_, hres⟩
      · exact h.returned m hm (htakes.subset hq)
      · exact (htakes.given m (hrc.symm.trans hres)).2 hq
    | destroy => cases hp
    | lock id =>
      obtain ⟨hq, m, i, rfl, _, he⟩ := he
      obtain ⟨_, n, hn, hret⟩ := hp
      obtain rfl := IdPool.val_inj.mp hn
      exact hold nofun (h.of_ne hret hq fun n hn => he.mutexes_ne hn)
    | unlock id =>
      obtain ⟨hq, m, i, rfl, _, he⟩ := he
      obtain ⟨_, n, hn, hret⟩ := hp
      obtain rfl := IdPool.val_inj.mp hn
      exact hold nofun (h.of_ne hret hq fun n hn => he.mutexes_ne hn)
  | sem => cases hp
  | syscall => cases hp

/-- Every allowed entry keeps the invariant. -/
theorem Ready.step (hr : Ready tr k) {e : Entry} (ha : Allowed tr k e)
    (h : kernelContextEnter e k = .ok (rc, k')) : Ready (tr ++ [⟨k, (e, rc), k'⟩]) k' := by
  obtain ⟨⟨ev, hc, hp⟩, hcaller⟩ := ha
  obtain ⟨hs', k₁, k₂, _, hserves, _, _, _, _, hmut⟩ := kernelContextEnter_enters hr hc hp hcaller h
  refine ⟨(kernelContextEnter_tableOk hr.table h).1, hs', ?_⟩
  have := (hr.entered e).mutexIds.step (hp.congr (entered_still k e)) hserves.mutexes
    (x := ⟨k, (e, rc), k'⟩) hc rfl
  exact this.congr hmut

theorem Initial.ready (h : Initial k) : Ready [] k := by
  refine ⟨h.tableOk (by decide), ⟨fun x => if 0 ≤ x ∧ x < 11 then some .run else none, ?_⟩, ?_⟩
  · have hmem : ∀ x : Int, x ∈ k.runQueue.toList ↔ 0 ≤ x ∧ x < 11 := by
      intro x
      rw [h.run, List.mem_map]
      constructor
      · rintro ⟨n, hn, rfl⟩
        rw [List.mem_range] at hn
        exact ⟨Int.natCast_nonneg n, by show (n : Int) < 11; omega⟩
      · intro hx
        exact ⟨x.toNat, by rw [List.mem_range]; omega, Int.toNat_of_nonneg hx.1⟩
    have hlive : ∀ i, k.Live i → 0 ≤ (k.procTable i).pid ∧ (k.procTable i).pid < 11 := by
      intro i hi
      rw [h.live] at hi
      rw [(h.used i hi).1]
      omega
    refine ⟨⟨fun w => ?_, fun w x => ?_⟩, fun i hi => ?_, fun i hi _ => ?_, fun x hx => ?_, ?_,
      fun i hi _ => ?_⟩
    · cases w with
      | cpu => rw [places_cpu_none h.active]; exact List.nodup_nil
      | run => rw [places, h.run]; exact List.nodup_range.map fun _ _ => Int.ofNat_inj.mp
      | sleep => rw [places, h.sleep]; exact List.nodup_nil
      | wait m => rw [places, h.mutexes m]; exact List.nodup_nil
    · cases w with
      | cpu => rw [places_cpu_none h.active]; simp
      | run => rw [places, hmem]; simp
      | sleep => rw [places, h.sleep]; simp
      | wait m => rw [places, h.mutexes m]; simp [Mutex.zero]
    · rw [if_pos (hlive i hi), (h.used i ((h.live i).mp hi)).2.1]
      rfl
    · rw [if_pos (hlive i hi)]
      exact Option.some_ne_none _
    · have hx' : 0 ≤ x ∧ x < 11 := by
        by_contra hn
        exact hx (if_neg hn)
      obtain ⟨n, rfl⟩ := Int.eq_ofNat_of_zero_le hx'.1
      have hn : n < procMax := Nat.lt_trans (Int.ofNat_lt.mp hx'.2) (by decide)
      have hn' : n < 11 := Int.ofNat_lt.mp hx'.2
      exact ⟨⟨n, hn⟩, (h.live _).mpr hn', (h.used ⟨n, hn⟩ hn').1⟩
    · exact .inr (.inr rfl)
    · exact (h.used i ((h.live i).mp hi)).2.2
  · refine ⟨?_, fun m _ => h.mutexes m, ?_⟩
    · rw [h.mutexQueue]
      exact List.nodup_range.map fun _ _ => Int.ofNat_inj.mp
    · intro m hm
      obtain ⟨x, hx, _⟩ := hm
      cases hx

/-- The state after the first `scheduler_run`. -/
def Started (k : Kernel) : Prop := ∃ k₀, Start k₀ ∧ k₀.schedulerRun = .ok k

theorem Start.ready (h : Start k) : Ready [] k := by
  obtain ⟨img, hk⟩ := h
  exact (Initial.of_kernelInit hk).ready

theorem Started.ready (h : Started k) : Ready [] k := by
  obtain ⟨k₀, h₀, hrun⟩ := h
  have hr := h₀.ready
  obtain ⟨k₁, hk, hs, _⟩ := schedulerRun_rescheduled hr.scheduled hr.table
  obtain rfl : k₁ = k := Except.ok.inj (hk.symm.trans hrun)
  exact ⟨(schedulerRun_tableOk hr.table hrun).1, hs, hr.mutexIds.congr (schedulerRun_sameMutexes hrun)⟩

theorem ready_of_run (hstart : ∀ k, start k → Ready [] k)
    (h : Trace.Run start (Trace.Exec kernelContextEnter Allowed) tr k) : Ready tr k := by
  refine h.invariant hstart ?_
  intro tr k a k' _ hn hr
  exact hr.step hn.1 hn.2

/-! ## Progress -/

/-- A creation that does not panic, and does not run out of process ids. -/
def Creatable (k : Kernel) : Event → Prop
  | .create ptr name _ => ptr ≠ 0 ∧ name ≠ none ∧ InInt32 (k.nextPid + 1)
  | _ => True

/-- No permitted event halts the kernel. -/
theorem handle_returns (hr : Ready tr k) {ev : Event} (hp : Permitted tr k ev)
    (hc : Creatable k ev) (hact : k.activeProc ≠ none) : ∃ rc k', k.handle ev = .ok (rc, k') := by
  obtain ⟨ht, ⟨loc, h⟩, hm⟩ := hr
  obtain ⟨i, hi⟩ := Option.ne_none_iff_exists'.mp hact
  cases ev with
  | tick =>
    obtain ⟨k', hk, _⟩ := tick_handled ⟨loc, h⟩ ht
    exact ⟨0, k', by rw [handle, hk, Loop.ok_bind]⟩
  | create ptr name type => exact kprocCreate_returns ht (h.room .run) type hc.1 hc.2.1 hc.2.2
  | destroy =>
    obtain ⟨rc, k', hk, _⟩ := kprocDestroy_handled ⟨loc, h⟩ ht hi
    exact ⟨rc, k', by rw [handle, hi, hk]⟩
  | sleep time =>
    obtain ⟨j, hj, h0⟩ := hp
    obtain ⟨k', hk, _⟩ := schedulerSleep_handled ⟨loc, h⟩ ht hj h0 time
    exact ⟨0, k', by rw [handle, hj, hk, Loop.ok_bind]⟩
  | mutex call =>
    cases call with
    | init => exact ⟨_, _, rfl⟩
    | destroy id => cases hp
    | lock id =>
      obtain ⟨_, m, rfl, _⟩ := hp
      obtain ⟨rc, k', hk, _⟩ := kmutexLock_effect h hi m
      exact ⟨rc, k', hk⟩
    | unlock id =>
      obtain ⟨_, m, rfl, _⟩ := hp
      obtain ⟨rc, k', hk, _⟩ := kmutexUnlock_effect h ht hi m
      exact ⟨rc, k', hk⟩
  | sem call => cases hp
  | syscall => cases hp

/-- The kernel returns from every allowed entry, as long as process ids last. -/
theorem kernelContextEnter_returns (hr : Ready tr k) (hact : k.activeProc ≠ none) {e : Entry}
    (ha : Allowed tr k e) (hc : ∀ ev, e.call = some ev → Creatable k ev) :
    ∃ rc k', kernelContextEnter e k = .ok (rc, k') := by
  obtain ⟨⟨ev, hev, hp⟩, hcaller⟩ := ha
  have hstill := entered_still k e
  have hcre : Creatable (k.entered e) ev := by
    have hnext := (entered_sameTable k e).nextPid
    have := hc ev hev
    cases ev with
    | create => simpa [Creatable, hnext] using this
    | _ => trivial
  obtain ⟨rc, k₁, hk₁⟩ := handle_returns (hr.entered e) (hp.congr hstill) hcre
    (by rw [hstill.active]; exact hact)
  have hserves := handle_serves (hr.entered e) (hp.congr hstill) hk₁
  have hent := entered_handle hev hcaller
  rw [hk₁, Loop.ok_bind] at hent
  let k₂ := if e.event = .syscall then k₁.setResult rc else k₁
  have hk₂ : (k.entered e).handle e.event = .ok (rc, k₂) := hent
  have hs₂ : Scheduled k₂ := by
    obtain ⟨loc, hl⟩ := hserves.scheduled
    refine ⟨loc, hl.still ?_⟩
    show Still k₁ (if e.event = .syscall then _ else _)
    split
    · exact setResult_still k₁ rc
    · exact .refl k₁
  have ht₂ := handle_tableOk (hr.entered e).table hk₂
  obtain ⟨k', hk', _⟩ := schedulerRun_rescheduled hs₂ ht₂
  obtain ⟨_, i, hi, _⟩ := schedulerRun_tableOk ht₂ hk'
  refine ⟨rc, k', ?_⟩
  show ((k.entered e).handle e.event >>= _) = _
  rw [hk₂, Loop.ok_bind]
  dsimp only
  rw [hk', Loop.ok_bind, if_neg (by rw [hi]; exact nofun)]

/-! ## Runs on given entries -/

instance : Decidable (NonIdle k) := inferInstanceAs (Decidable (∃ _, _ ∧ _))

instance (m : Fin mutexMax) : Decidable (Returned tr m) :=
  inferInstanceAs (Decidable (∃ x ∈ tr, _ ∧ _))

instance (ev : Event) : Decidable (Permitted tr k ev) :=
  match ev with
  | .tick => .isTrue trivial
  | .create .. => .isTrue trivial
  | .destroy => .isTrue trivial
  | .sleep _ => inferInstanceAs (Decidable (NonIdle k))
  | .mutex .init => inferInstanceAs (Decidable (NonIdle k))
  | .mutex (.destroy _) => .isFalse id
  | .mutex (.lock _) => inferInstanceAs (Decidable (_ ∧ ∃ _, _ ∧ _))
  | .mutex (.unlock _) => inferInstanceAs (Decidable (_ ∧ ∃ _, _ ∧ _))
  | .sem _ => .isFalse id
  | .syscall => .isFalse id

instance (e : Entry) : Decidable (Allowed tr k e) :=
  decidable_of_iff ((∃ ev ∈ e.call, Permitted tr k ev) ∧ (e.event = .syscall → NonIdle k))
    ⟨fun h => ⟨h.1, h.2⟩, fun h => ⟨h.1, h.2⟩⟩

/-- Whether the entries `es` are allowed and return, and what the run satisfies. -/
def runTest (allowed : List KernelStep → Kernel → Entry → Prop)
    [∀ tr k e, Decidable (allowed tr k e)] (boot : Res Kernel) (es : List Entry)
    (P : List KernelStep → Kernel → Bool) : Bool :=
  match boot with
  | .error _ => false
  | .ok k =>
    match Trace.walk kernelContextEnter (fun tr k e => decide (allowed tr k e)) es [] k with
    | none => false
    | some (tr, k) => P tr k

theorem run_of_test (allowed : List KernelStep → Kernel → Entry → Prop)
    [∀ tr k e, Decidable (allowed tr k e)] (boot : Res Kernel) (es : List Entry)
    (P : List KernelStep → Kernel → Bool) (hstart : ∀ k, boot = .ok k → start k)
    (h : runTest allowed boot es P = true) :
    ∃ tr k, Trace.Run start (Trace.Exec kernelContextEnter allowed) tr k ∧ P tr k = true := by
  unfold runTest at h
  split at h
  · cases h
  · rename_i k
    split at h
    · cases h
    · rename_i tr k' hw
      exact ⟨tr, k', Trace.Run.walk (fun _ _ _ => of_decide_eq_true) es (.nil (hstart k rfl)) hw, h⟩

/-- An entry for the event, with registers and memory that do not matter. -/
def Event.entry (ev : Event) : Entry := ⟨.sample, fun _ => 0, ev⟩

/-! ## Placement -/

/-- The process id occurs once in this place and nowhere else. -/
def OnlyIn (k : Kernel) (x : Int) (w : Place) : Prop :=
  (k.places w).count x = 1 ∧ ∀ v, v ≠ w → x ∉ k.places v

/-- Where the processes are when the kernel returns to one of them. -/
structure Placed (k : Kernel) : Prop where
  active : ∃ i, k.activeProc = some i ∧ ∀ j, (k.procTable j).state = .active ↔ j = i
  waiting : ∀ i, k.Live i → i ≠ idleProc → k.activeProc ≠ some i →
    (k.procTable i).state = .idle ∧ k.OnlyIn (k.procTable i).pid .run ∨
    (k.procTable i).state = .sleeping ∧ k.OnlyIn (k.procTable i).pid .sleep ∨
    (k.procTable i).state = .waiting ∧ ∃ m, k.OnlyIn (k.procTable i).pid (.wait m)
  queued : ∀ w x, w ≠ .cpu → x ∈ k.places w →
    ∃ i, k.Live i ∧ (k.procTable i).pid = x ∧ i ≠ idleProc ∧ k.activeProc ≠ some i

theorem Located.onlyIn (h : Located k loc) {x : Int} {w : Place} (hx : loc x = some w) :
    k.OnlyIn x w := by
  have hmem := (h.exact.mem_iff w x).mpr hx
  exact ⟨List.count_eq_one_of_mem (h.exact.nodup w) hmem,
    fun v hv hm => hv (h.exact.unique hm hmem)⟩

theorem Ready.placed (hr : Ready tr k) (hact : k.activeProc = some i)
    (h0 : (0 : Int) ∉ k.runQueue.toList) : Placed k := by
  obtain ⟨loc, h⟩ := hr.scheduled
  have ht := hr.table
  refine ⟨⟨i, hact, fun j => ⟨fun hj => ?_, ?_⟩⟩, fun j hj hne hna => ?_, fun w x hw hx => ?_⟩
  · have := h.of_active ht hj
    rw [hact] at this
    exact (Option.some.inj this).symm
  · rintro rfl
    exact (h.active ht hact).1
  · have hst := h.state j hj
    cases hloc : loc (k.procTable j).pid with
    | none => exact absurd hloc (h.placed j hj hne)
    | some w =>
      rw [hloc] at hst
      have honly := h.onlyIn hloc
      cases w with
      | cpu => exact absurd (h.of_active ht hst) hna
      | run => exact .inl ⟨hst, honly⟩
      | sleep => exact .inr (.inl ⟨hst, honly⟩)
      | wait m => exact .inr (.inr ⟨hst, m, honly⟩)
  · obtain ⟨j, hj, rfl, hst⟩ := h.of_mem hx
    refine ⟨j, hj, rfl, ?_, fun hj' => ?_⟩
    · by_cases hwr : w = .run
      · rintro rfl
        rw [hwr, ht.idle_pid] at hx
        exact h0 hx
      · exact h.ne_idle ht hx hw hwr
    · exact hw (h.exact.unique hx (mem_cpu.mpr ⟨j, hj', rfl⟩))

theorem Started.idle_out (h : Started k) : (0 : Int) ∉ k.runQueue.toList := by
  obtain ⟨k₀, ⟨img, h₀⟩, hrun⟩ := h
  have hi := Initial.of_kernelInit h₀
  have hr := hi.ready
  obtain ⟨k₁, hk, _, hre⟩ := schedulerRun_rescheduled hr.scheduled hr.table
  obtain rfl : k₁ = k := Except.ok.inj (hk.symm.trans hrun)
  have hq : k₀.runQueue.toList = 0 :: [1, 2, 3, 4, 5, 6, 7, 8, 9, 10] := hi.run
  cases hre with
  | stays i hact _ _ => rw [hi.active] at hact; cases hact
  | switches new h0 hd =>
    cases hd with
    | next i hhead _ _ =>
      rw [hq, List.cons_append] at hhead
      rw [← (List.cons.inj hhead).2, List.mem_append, not_or]
      exact ⟨by decide, h0⟩
    | idle hempty _ _ _ => rw [hq] at hempty; cases hempty

theorem Started.active (h : Started k) : ∃ i, k.activeProc = some i := by
  obtain ⟨k₀, h₀, hrun⟩ := h
  obtain ⟨_, i, hi, _⟩ := schedulerRun_tableOk h₀.ready.table hrun
  exact ⟨i, hi⟩

/-- After the first `scheduler_run`, at every kernel exit, every process is in
its place. -/
theorem placed_of_run (h : Trace.Run Started (Trace.Exec kernelContextEnter Allowed) tr k) :
    Placed k := by
  have hout : (∃ i, k.activeProc = some i) ∧ (0 : Int) ∉ k.runQueue.toList := by
    refine h.state_invariant (P := fun k =>
      (∃ i, k.activeProc = some i) ∧ (0 : Int) ∉ k.runQueue.toList) ?_ ?_
    · intro k hk
      exact ⟨hk.active, hk.idle_out⟩
    · intro tr k a k' hrun hn ⟨_, h0⟩
      have hr := ready_of_run (fun _ => Started.ready) hrun
      obtain ⟨_, i, hi, _⟩ := kernelContextEnter_tableOk hr.table hn.2
      obtain ⟨⟨ev, hc, hp⟩, hcaller⟩ := hn.1
      obtain ⟨_, he⟩ := kernelContextEnter_enters hr hc hp hcaller hn.2
      exact ⟨⟨i, hi⟩, he.roundRobin.idle_out h0⟩
  obtain ⟨⟨i, hact⟩, h0⟩ := hout
  exact (ready_of_run (fun _ => Started.ready) h).placed hact h0

/-- The first process takes a mutex and sleeps, and the second waits for it. -/
theorem placed_of_run_waiting : ∃ (tr : List KernelStep) (k : Kernel), tr.length = 15 ∧
    (k.mutexes ⟨0, by decide⟩).waitQueue.toList = [2] ∧ k.sleepQueue.toList = [1] ∧ Placed k := by
  let calls : List Event := [.mutex .init, .mutex (.lock 0), .sleep 5, .mutex (.lock 0),
    .create 7 (some []) .user]
  have hstart : ∀ k, kernelInit Image.blank >>= schedulerRun = .ok k → Started k := by
    intro k hk
    obtain ⟨k₀, h₀, h₁⟩ := Loop.bind_eq_ok.mp hk
    exact ⟨k₀, ⟨Image.blank, h₀⟩, h₁⟩
  obtain ⟨tr, k, hrun, hP⟩ := run_of_test Allowed (kernelInit Image.blank >>= schedulerRun)
    ((List.replicate 10 Event.tick ++ calls).map Event.entry)
    (fun tr k => decide (tr.length = 15 ∧
      (k.mutexes ⟨0, by decide⟩).waitQueue.toList = [2] ∧ k.sleepQueue.toList = [1]))
    hstart (by decide +kernel)
  obtain ⟨hlen, hwait, hsleep⟩ := of_decide_eq_true hP
  exact ⟨tr, k, hlen, hwait, hsleep, placed_of_run hrun⟩

end Kernel
end UnivOS
