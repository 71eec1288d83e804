import UnivOS.Runs
import UnivOS.Bystander

/-! # Mutual exclusion and the order of ownership

A mutex is a line of callers: the first owns it, the others wait for it. Locking
joins the line at its end and unlocking leaves it at its head, so the callers of
`kmutex_lock` own the mutex in the order of their calls. The lock count, the owner
and the wait queue say the same thing three times (`InLine`).
-/
namespace UnivOS
namespace Kernel
open Word

structure InLine (k : Kernel) (m : Fin mutexMax) (line : List Int) : Prop where
  locks : (k.mutexes m).locks = line.length
  owner : (k.mutexes m).owner.map (fun i => (k.procTable i).pid) = line.head?
  waiting : (k.mutexes m).waitQueue.toList = line.tail
  live : ∀ i, (k.mutexes m).owner = some i → k.Live i

variable {k k' : Kernel} {loc : Int → Option Place} {i : Fin procMax} {m : Fin mutexMax}
  {line : List Int} {rc : Int} {tr : List KernelStep} {e : Entry} {ev : Event}

/-! ## One entry -/

/-- The owner is the same process in the same entry. -/
theorem InLine.congr (h : InLine k m line) (hm : k'.mutexes m = k.mutexes m)
    (hown : ∀ i, (k.mutexes m).owner = some i →
      k'.Live i ∧ (k'.procTable i).pid = (k.procTable i).pid) : InLine k' m line := by
  refine ⟨by rw [hm]; exact h.locks, ?_, by rw [hm]; exact h.waiting, fun i hi => ?_⟩
  · rw [hm, ← h.owner]
    cases ho : (k.mutexes m).owner with
    | none => rfl
    | some i => exact congrArg some (hown i ho).2
  · rw [hm] at hi
    exact (hown i hi).1

theorem InLine.of_sameTable (h : InLine k m line) (hm : k'.mutexes m = k.mutexes m)
    (ht : SameTable k k') : InLine k' m line :=
  h.congr hm fun i hi => ⟨(ht.live i).mpr (h.live i hi), ht.pid i⟩

theorem InLine.length_le (h : InLine k m line) (hl : Located k loc) :
    line.length ≤ procMax + 1 := by
  have hwait := hl.length_le (.wait m)
  rw [places, h.waiting, List.length_tail] at hwait
  omega

theorem InLine.wrap_succ (h : InLine k m line) (hl : Located k loc) :
    wrap32 ((k.mutexes m).locks + 1) = (line.length + 1 : Nat) := by
  have hlen := h.length_le hl
  have hmax : procMax = 20 := rfl
  rw [h.locks, wrap32_of_inInt32 ⟨by omega, by omega⟩]
  omega

theorem InLine.lock (h : InLine k m line) (hl : Located k loc) (ht : TableOk k)
    (hact : k.activeProc = some i) (hs : SameTable k k') (he : LockEffect k m i k') :
    InLine k' m (line ++ [(k.procTable i).pid]) := by
  have hwrap := h.wrap_succ hl
  cases he with
  | blocked q hlocked hjoin _ hm =>
    have hpos : line ≠ [] := by
      rintro rfl
      have := h.locks
      rw [List.length_nil] at this
      omega
    refine ⟨?_, ?_, ?_, fun j hj => ?_⟩ <;> rw [hm, Function.update_self] at *
    · rw [hwrap, List.length_append]
      rfl
    · rw [List.head?_append_of_ne_nil _ hpos, ← h.owner]
      congr 1
      funext j
      exact hs.pid j
    · rw [hjoin, h.waiting, List.tail_append_of_ne_nil hpos]
    · exact (hs.live j).mpr (h.live j hj)
  | acquired hfree _ hm =>
    have hnil : line = [] := by
      rw [← List.length_eq_zero_iff]
      have := h.locks
      omega
    subst hnil
    refine ⟨?_, ?_, ?_, fun j hj => ?_⟩ <;> rw [hm, Function.update_self] at *
    · rw [hwrap]
      rfl
    · exact congrArg some (hs.pid i)
    · exact h.waiting
    · rw [← Option.some.inj hj]
      exact (hs.live i).mpr (ht.active_live i hact)

/-- An unlock that counts is one by the head of the line. -/
theorem InLine.unlock (h : InLine k m line) (hl : Located k loc) (hs : SameTable k k')
    (he : UnlockEffect k m i k') :
    (¬ (k'.mutexes m).locks < (k.mutexes m).locks ∧ InLine k' m line) ∨
    ∃ rest, line = (k.procTable i).pid :: rest ∧ (k'.mutexes m).locks < (k.mutexes m).locks ∧
      InLine k' m rest := by
  have hlen := h.length_le hl
  have hmax : procMax = 20 := rfl
  have hhead : (k.mutexes m).owner = some i →
      ∃ rest, line = (k.procTable i).pid :: rest := by
    intro ho
    have := h.owner
    rw [ho] at this
    exact List.head?_eq_some_iff.mp this.symm
  have hwrap : ∀ rest, line = (k.procTable i).pid :: rest →
      wrap32 ((k.mutexes m).locks - 1) = rest.length := by
    rintro rest rfl
    rw [List.length_cons] at hlen
    rw [h.locks, List.length_cons, wrap32_of_inInt32 ⟨by omega, by omega⟩]
    omega
  have hless : ∀ rest, line = (k.procTable i).pid :: rest →
      (rest.length : Int) < (k.mutexes m).locks := by
    rintro rest rfl
    rw [h.locks, List.length_cons]
    omega
  cases he with
  | refused _ hk =>
    subst hk
    exact .inl ⟨Int.lt_irrefl _, h⟩
  | freed _ ho hlast _ hm =>
    obtain ⟨rest, hline⟩ := hhead ho
    have hw := hwrap rest hline
    have hnil : rest = [] := by
      rw [hlast] at hw
      exact List.length_eq_zero_iff.mp (Int.ofNat_eq_zero.mp hw.symm)
    refine .inr ⟨rest, hline, ?_, ?_⟩
    · rw [hm, Function.update_self, hw]
      exact hless rest hline
    · refine ⟨?_, ?_, ?_, fun j hj => ?_⟩ <;> rw [hm, Function.update_self] at *
      · exact hw
      · rw [hnil]; rfl
      · rw [h.waiting, hline, hnil]; rfl
      · cases hj
  | kept _ ho hmore hnobody _ hm =>
    -- the count is one more than the number of those waiting
    obtain ⟨rest, hline⟩ := hhead ho
    have hw := hwrap rest hline
    rw [h.waiting, hline, List.tail_cons] at hnobody
    rw [hnobody] at hw
    exact absurd hw hmore
  | handedOff j q _ ho _ hj _ hnext _ hm =>
    obtain ⟨rest, hline⟩ := hhead ho
    have hw := hwrap rest hline
    rw [h.waiting, hline, List.tail_cons] at hnext
    refine .inr ⟨rest, hline, ?_, ?_⟩
    · rw [hm, Function.update_self, hw]
      exact hless rest hline
    · refine ⟨?_, ?_, ?_, fun a ha => ?_⟩ <;> rw [hm, Function.update_self] at *
      · exact hw
      · rw [hnext]; exact congrArg some (hs.pid j)
      · rw [hnext]; rfl
      · rw [← Option.some.inj ha]
        exact (hs.live j).mpr hj

/-! ## The history of calls -/

/-- The process that called `kmutex_lock` in a step. -/
def lockCall (m : Fin mutexMax) (x : KernelStep) : Option Int :=
  if x.act.1.call = some (.mutex (.lock ((m : Nat) : Int))) then
    x.pre.activeProc.map fun i => (x.pre.procTable i).pid
  else none

/-- The process that called `kmutex_unlock` in a step and decremented the lock count. -/
def unlockCall (m : Fin mutexMax) (x : KernelStep) : Option Int :=
  if x.act.1.call = some (.mutex (.unlock ((m : Nat) : Int))) ∧
      (x.post.mutexes m).locks < (x.pre.mutexes m).locks then
    x.pre.activeProc.map fun i => (x.pre.procTable i).pid
  else none

theorem filterMap_snoc {f : KernelStep → Option Int} {x : KernelStep} :
    (tr ++ [x]).filterMap f = tr.filterMap f ++ (f x).toList := by
  rw [List.filterMap_append]
  cases hx : f x with
  | none => rw [List.filterMap_cons_none hx]; rfl
  | some y => rw [List.filterMap_cons_some hx]; rfl

def lockCalls (m : Fin mutexMax) (tr : List KernelStep) : List Int := tr.filterMap (lockCall m)

def unlockCalls (m : Fin mutexMax) (tr : List KernelStep) : List Int :=
  tr.filterMap (unlockCall m)

/-- The entries of the runs in which the owner of `m` is not destroyed. A process
that waits for it is not active, so it is not destroyed in any case. -/
structure AllowedFor (m : Fin mutexMax) (tr : List KernelStep) (k : Kernel) (e : Entry) :
    Prop extends Allowed tr k e where
  owner : e.call = some .destroy → ∀ i, k.activeProc = some i → (k.mutexes m).owner ≠ some i

/-- A mutex that is given out has not been used. -/
theorem InLine.init (h : InLine k m line) (hm : MutexIds tr k) (he : InitEffect k rc k')
    (hs : SameTable k k') : InLine k' m line := by
  cases he with
  | refused _ hmut _ => exact h.of_sameTable (congrFun hmut m) hs
  | allocated n _ hids hmut =>
    by_cases hn : m = n
    · subst hn
      have hzero := hm.fresh m (hids ▸ List.mem_cons_self)
      have hnil : line = [] := by
        have := h.locks
        rw [hzero] at this
        exact List.length_eq_zero_iff.mp (Int.ofNat_eq_zero.mp this.symm)
      subst hnil
      refine ⟨?_, ?_, ?_, fun j hj => ?_⟩ <;> rw [hmut, Function.update_self] at *
      · rfl
      · rfl
      · rfl
      · cases hj
    · exact h.of_sameTable (by rw [hmut, Function.update_of_ne hn]) hs

/-- One entry moves the line as its call says. -/
theorem InLine.step (h : InLine k m line) (hr : Ready tr k) (ha : AllowedFor m tr k e)
    (hk : kernelContextEnter e k = .ok (rc, k')) :
    ∃ line', InLine k' m line' ∧ line ++ (lockCall m ⟨k, (e, rc), k'⟩).toList =
      (unlockCall m ⟨k, (e, rc), k'⟩).toList ++ line' := by
  obtain ⟨⟨⟨ev, hc, hp⟩, hcaller⟩, hdestroy⟩ := ha
  obtain ⟨_, k₁, k₂, hhandle, hserves, htable, _, hrun, _, hmut⟩ :=
    kernelContextEnter_enters hr hc hp hcaller hk
  have hr₀ := hr.entered e
  have hent := entered_sameTable k e
  have hmut₀ : (k.entered e).mutexes m = k.mutexes m := congrFun (entered_sameMutexes k e).mutexes m
  have h₀ := h.of_sameTable hmut₀ hent
  have hactive : (k.entered e).activeProc = k.activeProc := (entered_still k e).active
  have hsys : ev ≠ .syscall := by rintro rfl; exact hp
  have ht₁ := handle_tableOk hr₀.table hhandle
  -- what the handler leaves, the kernel exit finds
  have hexit : ∀ line', InLine k₁ m line' → InLine k' m line' := by
    intro line' h₁
    refine h₁.congr (congrFun hmut.mutexes m) fun i hi => ?_
    have hi₂ := (htable.live i).mpr (h₁.live i hi)
    have hs := schedulerRun_sameProc (htable.tableOk ht₁) hi₂ hrun
    exact ⟨hs.live, hs.pid.trans (htable.pid i)⟩
  have hlocks : (k'.mutexes m).locks = (k₁.mutexes m).locks := by rw [hmut.mutexes]
  have hnolock : ev ≠ .mutex (.lock ((m : Nat) : Int)) → lockCall m ⟨k, (e, rc), k'⟩ = none :=
    fun hne => if_neg fun he => hne (Option.some.inj (hc.symm.trans he))
  have hnounlock : ev ≠ .mutex (.unlock ((m : Nat) : Int)) →
      unlockCall m ⟨k, (e, rc), k'⟩ = none :=
    fun hne => if_neg fun he => hne (Option.some.inj (hc.symm.trans he.1))
  have hsame : k₁.mutexes m = (k.entered e).mutexes m →
      InLine k' m line ∧ unlockCall m ⟨k, (e, rc), k'⟩ = none := by
    intro hsame
    refine ⟨hexit line (h₀.congr hsame fun i hi => ?_), if_neg fun he => ?_⟩
    · refine handle_survives hr₀.table (h₀.live i hi) (fun he hact => ?_) hsys hhandle
      rw [hactive] at hact
      rw [hmut₀] at hi
      exact absurd hi (hdestroy (by rw [hc, he]) i hact)
    · have := he.2
      simp only [hlocks, hsame, hmut₀] at this
      exact Int.lt_irrefl _ this
  have hother : k₁.mutexes m = (k.entered e).mutexes m → ev ≠ .mutex (.lock ((m : Nat) : Int)) →
      ∃ line', InLine k' m line' ∧ line ++ (lockCall m ⟨k, (e, rc), k'⟩).toList =
        (unlockCall m ⟨k, (e, rc), k'⟩).toList ++ line' := by
    intro hm hne
    obtain ⟨h', hu⟩ := hsame hm
    exact ⟨line, h', by rw [hnolock hne, hu]; simp⟩
  have hkeeps : KeepsProcs ev → SameTable (k.entered e) k₁ :=
    fun hev => (handle_keeps hr₀.table hev hhandle).toSameTable
  obtain ⟨loc, hl⟩ := hr₀.scheduled
  have hmutexes := hserves.mutexes
  cases ev with
  | tick => exact hother (congrFun (SameMutexes.mutexes hmutexes) m) nofun
  | create => exact hother (congrFun (SameMutexes.mutexes hmutexes) m) nofun
  | destroy => exact hother (congrFun (SameMutexes.mutexes hmutexes) m) nofun
  | sleep => exact hother (congrFun (SameMutexes.mutexes hmutexes) m) nofun
  | sem => cases hp
  | syscall => cases hp
  | mutex call =>
    have hs := hkeeps trivial
    cases call with
    | init =>
      refine ⟨line, hexit line (h₀.init hr₀.mutexIds hmutexes hs), ?_⟩
      rw [hnolock nofun, hnounlock nofun]
      simp
    | destroy id => cases hp
    | lock id =>
      obtain ⟨_, n, i, rfl, hact, he⟩ := hmutexes
      by_cases hn : m = n
      · subst hn
        refine ⟨_, hexit _ (h₀.lock hl hr₀.table hact hs he), ?_⟩
        have hl : lockCall m ⟨k, (e, rc), k'⟩ = some ((k.procTable i).pid) := by
          unfold lockCall
          rw [if_pos hc, ← hactive, hact]
          rfl
        rw [hl, hnounlock nofun, hent.pid]
        rfl
      · refine hother (he.mutexes_ne hn) fun hne => hn ?_
        rw [Event.mutex.injEq, MutexCall.lock.injEq] at hne
        exact (IdPool.val_inj.mp hne).symm
    | unlock id =>
      obtain ⟨_, n, i, rfl, hact, he⟩ := hmutexes
      by_cases hn : m = n
      · subst hn
        have hlocks₀ : (k.mutexes m).locks = ((k.entered e).mutexes m).locks := by rw [hmut₀]
        rcases h₀.unlock hl hs he with ⟨hless, h₁⟩ | ⟨rest, hline, hless, h₁⟩
        · have hu : unlockCall m ⟨k, (e, rc), k'⟩ = none := by
            refine if_neg fun he => hless ?_
            have := he.2
            simp only [hlocks, hlocks₀] at this
            exact this
          exact ⟨line, hexit line h₁, by rw [hnolock nofun, hu]; simp⟩
        · have hu : unlockCall m ⟨k, (e, rc), k'⟩ = some ((k.procTable i).pid) := by
            unfold unlockCall
            rw [if_pos ⟨hc, by simp only [hlocks, hlocks₀]; exact hless⟩, ← hactive, hact]
            rfl
          refine ⟨rest, hexit rest h₁, ?_⟩
          rw [hnolock nofun, hu, hline, hent.pid]
          simp
      · exact hother (he.mutexes_ne hn) nofun

/-! ## Runs -/

/-- The callers of `kmutex_lock`, `L`, and those whose `kmutex_unlock` counted,
`U`, say everything about the mutex. -/
structure Granted (k : Kernel) (m : Fin mutexMax) (L U : List Int) : Prop where
  order : U = L.take U.length
  locks : (k.mutexes m).locks = (L.length : Int) - U.length
  owner : (k.mutexes m).owner.map (fun i => (k.procTable i).pid) = L[U.length]?
  waiting : (k.mutexes m).waitQueue.toList = L.drop (U.length + 1)
  /-- Only the owner runs past the lock. -/
  exclusive : ∀ i, k.activeProc = some i → U.count (k.procTable i).pid < L.count (k.procTable i).pid →
    (k.mutexes m).owner = some i

theorem InLine.granted (h : InLine k m line) (ht : TableOk k) (hl : Located k loc) {L U : List Int}
    (hL : L = U ++ line) : Granted k m L U := by
  subst hL
  refine ⟨(List.take_left).symm, ?_, ?_, ?_, fun i hi hcount => ?_⟩
  · rw [h.locks, List.length_append]
    omega
  · rw [h.owner, List.getElem?_append_right (Nat.le_refl _), Nat.sub_self, List.head?_eq_getElem?]
  · rw [h.waiting, ← List.drop_drop, List.drop_left, List.drop_one]
  · -- the active process is in the line, and not among those that wait
    rw [List.count_append] at hcount
    have hmem : (k.procTable i).pid ∈ line := List.count_pos_iff.mp (by omega)
    obtain ⟨x, rest, rfl⟩ := List.exists_cons_of_ne_nil (List.ne_nil_of_mem hmem)
    have hx : x = (k.procTable i).pid := by
      rcases List.mem_cons.mp hmem with he | hrest
      · exact he.symm
      · have hwait : (k.procTable i).pid ∈ k.places (.wait m) := by
          rw [places, h.waiting]
          exact hrest
        cases hl.exact.unique hwait (mem_cpu.mpr ⟨i, hi, rfl⟩)
    have hown := h.owner
    rw [List.head?_cons, Option.map_eq_some_iff] at hown
    obtain ⟨j, hj, hpid⟩ := hown
    rw [hj, ht.pid_inj j i (h.live j hj) (ht.active_live i hi) (hpid.trans hx)]

theorem Initial.inLine (h : Initial k) (m : Fin mutexMax) : InLine k m [] := by
  refine ⟨?_, ?_, ?_, fun i hi => ?_⟩ <;> rw [h.mutexes m] at *
  · rfl
  · rfl
  · rfl
  · cases hi

theorem AllowedFor.ready_of_run
    (h : Trace.Run Start (Trace.Exec kernelContextEnter (AllowedFor m)) tr k) : Ready tr k :=
  Kernel.ready_of_run (fun _ => Start.ready)
    (h.mono fun _ _ _ _ hn => ⟨hn.1.toAllowed, hn.2⟩)

theorem inLine_of_run (h : Trace.Run Start (Trace.Exec kernelContextEnter (AllowedFor m)) tr k) :
    ∃ line, InLine k m line ∧ lockCalls m tr = unlockCalls m tr ++ line := by
  refine h.invariant (P := fun tr k =>
    ∃ line, InLine k m line ∧ lockCalls m tr = unlockCalls m tr ++ line) ?_ ?_
  · intro k ⟨img, hk⟩
    exact ⟨[], (Initial.of_kernelInit hk).inLine m, rfl⟩
  · intro tr k a k' hrun hn ⟨line, hline, hcalls⟩
    have hr := AllowedFor.ready_of_run hrun
    obtain ⟨line', hline', hstep⟩ := hline.step hr hn.1 hn.2
    refine ⟨line', hline', ?_⟩
    rw [lockCalls, unlockCalls, filterMap_snoc, filterMap_snoc, ← lockCalls, ← unlockCalls, hcalls,
      List.append_assoc, hstep, List.append_assoc]

/-- The mutex is granted to the processes in the order of their calls, one at a time. -/
theorem mutex_fifo (h : Trace.Run Start (Trace.Exec kernelContextEnter (AllowedFor m)) tr k) :
    Granted k m (lockCalls m tr) (unlockCalls m tr) := by
  obtain ⟨line, hline, hcalls⟩ := inLine_of_run h
  have hr := AllowedFor.ready_of_run h
  obtain ⟨loc, hl⟩ := hr.scheduled
  exact hline.granted hr.table hl hcalls

instance (e : Entry) : Decidable (AllowedFor m tr k e) :=
  decidable_of_iff (Allowed tr k e ∧
      (e.call = some .destroy → ∀ i, k.activeProc = some i → (k.mutexes m).owner ≠ some i))
    ⟨fun h => ⟨h.1, h.2⟩, fun h => ⟨h.1, h.2⟩⟩

/-- Process 1 locks, unlocks and locks again before it sleeps; process 2 waits. -/
theorem mutex_fifo_two : ∃ (tr : List KernelStep) (k : Kernel),
    lockCalls ⟨0, by decide⟩ tr = [1, 1, 2] ∧ unlockCalls ⟨0, by decide⟩ tr = [1] ∧
      Granted k ⟨0, by decide⟩ [1, 1, 2] [1] := by
  let calls : List Event := [.mutex .init, .mutex (.lock 0), .mutex (.unlock 0), .mutex (.lock 0),
    .sleep 5, .mutex (.lock 0)]
  obtain ⟨tr, k, hrun, hP⟩ := run_of_test (AllowedFor ⟨0, by decide⟩) (kernelInit Image.blank)
    ((List.replicate 11 Event.tick ++ calls).map Event.entry)
    (fun tr _ => decide (lockCalls ⟨0, by decide⟩ tr = [1, 1, 2] ∧
      unlockCalls ⟨0, by decide⟩ tr = [1]))
    (fun k hk => (⟨Image.blank, hk⟩ : Start k)) (by decide +kernel)
  obtain ⟨hL, hU⟩ := of_decide_eq_true hP
  exact ⟨tr, k, hL, hU, hL ▸ hU ▸ mutex_fifo hrun⟩

end Kernel
end UnivOS
