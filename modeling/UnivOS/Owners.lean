import UnivOS.Exclusion

/-! # Owners that called for their mutex

Whatever the entries, a mutex passes from caller to caller: the owner of a locked
mutex and the processes that wait for it have called `kmutex_lock` (`Called`). Only
the destruction of an owner breaks this, because its entry is used again.
-/
namespace UnivOS
namespace Kernel
open Word

variable {k k' : Kernel} {i : Fin procMax} {m : Fin mutexMax} {rc : Int} {callers : List Int}
  {tr : List KernelStep} {e : Entry} {ev : Event}

/-! ## Callers -/

/-- The owner of the mutex, while it is locked, and the processes that wait for it
are among the callers. -/
structure Called (k : Kernel) (m : Fin mutexMax) (callers : List Int) : Prop where
  owner : (k.mutexes m).locks ≠ 0 → ∀ i, (k.mutexes m).owner = some i →
    k.Live i ∧ (k.procTable i).pid ∈ callers
  waiting : ∀ x ∈ (k.mutexes m).waitQueue.toList, x ∈ callers

theorem Called.mono {callers' : List Int} (h : Called k m callers) (hs : callers ⊆ callers') :
    Called k m callers' :=
  ⟨fun hl i hi => ⟨(h.owner hl i hi).1, hs (h.owner hl i hi).2⟩, fun x hx => hs (h.waiting x hx)⟩

/-- The mutex is the same, and so is the process that owns it. -/
theorem Called.congr (h : Called k m callers) (hm : k'.mutexes m = k.mutexes m)
    (hown : (k.mutexes m).locks ≠ 0 → ∀ i, (k.mutexes m).owner = some i →
      k'.Live i ∧ (k'.procTable i).pid = (k.procTable i).pid) : Called k' m callers := by
  refine ⟨fun hl i hi => ?_, fun x hx => h.waiting x (hm ▸ hx)⟩
  rw [hm] at hl hi
  obtain ⟨hlive, hpid⟩ := hown hl i hi
  exact ⟨hlive, by rw [hpid]; exact (h.owner hl i hi).2⟩

theorem Called.of_sameTable (h : Called k m callers) (hm : k'.mutexes m = k.mutexes m)
    (hs : SameTable k k') : Called k' m callers :=
  h.congr hm fun hl i hi => ⟨(hs.live i).mpr (h.owner hl i hi).1, hs.pid i⟩

/-- A mutex nobody owns and nobody waits for. -/
theorem Called.of_unused (hl : (k.mutexes m).locks = 0)
    (hw : (k.mutexes m).waitQueue.toList = []) : Called k m callers :=
  ⟨fun hn => absurd hl hn, fun x hx => by rw [hw] at hx; cases hx⟩

theorem Called.init (h : Called k m callers) : Called k.kmutexInit.2 m callers := by
  have hs : SameTable k k.kmutexInit.2 := by
    obtain ⟨f, q, hk⟩ := kmutexInit_frame k
    rw [hk]
    exact (Keeps.of_mutexes k f q).toSameTable
  cases kmutexInit_effect k with
  | refused _ hm _ => exact h.of_sameTable (congrFun hm m) hs
  | allocated n _ _ hm =>
    by_cases hn : m = n
    · subst hn
      refine .of_unused ?_ ?_ <;> rw [hm, Function.update_self] <;> rfl
    · exact h.of_sameTable (by rw [hm, Function.update_of_ne hn]) hs

theorem Called.destroy (h : Called k m callers) (id : Int) :
    Called (k.kmutexDestroy id).2 m callers := by
  unfold kmutexDestroy
  split
  · exact h
  · rename_i n _
    split
    · exact h
    · by_cases hn : m = n
      · subst hn
        refine .of_unused ?_ ?_ <;> dsimp only <;> rw [Function.update_self] <;> rfl
      · exact h.of_sameTable (Function.update_of_ne hn ..) (Keeps.of_mutexes k _ _).toSameTable

/-- The process id of the active process. -/
def caller (k : Kernel) : Option Int := k.activeProc.map fun i => (k.procTable i).pid

theorem caller_some (hact : k.activeProc = some i) : k.caller = some (k.procTable i).pid := by
  rw [caller, hact]
  rfl

/-- The caller joins the callers. -/
theorem Called.lock (h : Called k m callers) (ht : TableOk k) (hs : SameTable k k')
    (hlock : LockCases k m k') : Called k' m (callers ++ k.caller.toList) := by
  have hold : ∀ x, x ∈ callers → x ∈ callers ++ k.caller.toList :=
    fun x hx => List.mem_append_left _ hx
  have hnew : ∀ j, k.activeProc = some j → (k.procTable j).pid ∈ callers ++ k.caller.toList := by
    intro j hj
    rw [caller_some hj]
    simp
  have hown : (k.mutexes m).locks ≠ 0 → ∀ j, (k.mutexes m).owner = some j →
      k'.Live j ∧ (k'.procTable j).pid ∈ callers ++ k.caller.toList := by
    intro hl j hj
    obtain ⟨hlive, hpid⟩ := h.owner hl j hj
    exact ⟨(hs.live j).mpr hlive, by rw [hs.pid]; exact hold _ hpid⟩
  cases hlock with
  | acquires _ same =>
    refine ⟨fun _ j hj => ?_, fun x hx => ?_⟩ <;> subst same <;> rw [modifyMutex_self] at *
    · exact ⟨(hs.live j).mpr (ht.active_live j hj), by rw [hs.pid]; exact hnew j hj⟩
    · exact hold x (h.waiting x hx)
  | counts locked _ same =>
    refine ⟨fun _ j hj => ?_, fun x hx => ?_⟩ <;> subst same <;> rw [modifyMutex_self] at *
    · exact hown (by omega) j hj
    · exact hold x (h.waiting x hx)
  | blocks i r s locked caller same =>
    have hm : k'.mutexes m = { k.mutexes m with
        locks := wrap32 ((k.mutexes m).locks + 1)
        waitQueue := ((k.mutexes m).waitQueue.queueIn (k.procTable i).pid).getD
          (k.mutexes m).waitQueue } := by
      rw [same]
      exact Function.update_self ..
    refine ⟨fun _ j hj => ?_, fun x hx => ?_⟩ <;> rw [hm] at *
    · exact hown (by omega) j hj
    · dsimp only at hx
      cases hq : (k.mutexes m).waitQueue.queueIn (k.procTable i).pid with
      | none =>
        rw [hq] at hx
        exact hold x (h.waiting x hx)
      | some q =>
        rw [hq, Option.getD_some, Queue.queueIn_spec hq, List.mem_append] at hx
        rcases hx with hx | hx
        · exact hold x (h.waiting x hx)
        · rw [List.mem_singleton.mp hx]
          exact hnew i caller

/-- The new owner has waited. -/
theorem Called.unlock (h : Called k m callers) (ht : TableOk k) (hs : SameTable k k')
    (hunlock : UnlockCases k m k') : Called k' m callers := by
  cases hunlock with
  | refused _ same => rw [same]; exact h
  | frees _ _ last same =>
    subst same
    refine ⟨fun hl => absurd last ?_, fun x hx => ?_⟩ <;> rw [modifyMutex_self] at *
    · exact hl
    · exact h.waiting x hx
  | keeps q locked _ waiting same =>
    subst same
    refine ⟨fun _ j hj => ?_, fun x hx => ?_⟩ <;> rw [modifyMutex_self] at *
    · exact h.owner locked j hj
    · exact h.waiting x (waiting hx)
  | handsOff j pid q r _ _ waiting next same =>
    have hm : k'.mutexes m = { k.mutexes m with
        locks := wrap32 ((k.mutexes m).locks - 1), owner := some j, waitQueue := q } := by
      rw [same]
      exact modifyMutex_self ..
    obtain ⟨hlive, hpid⟩ := ht.of_pidToProc next
    refine ⟨fun _ i hi => ?_, fun x hx => ?_⟩ <;> rw [hm] at *
    · cases hi
      refine ⟨(hs.live j).mpr hlive, ?_⟩
      rw [hs.pid, hpid]
      exact h.waiting pid (waiting ▸ List.mem_cons_self)
    · exact h.waiting x (waiting ▸ List.mem_cons_of_mem _ hx)

/-! ## Entries -/

/-- The process that calls `kmutex_lock` with an event. -/
def lockCaller (m : Fin mutexMax) (k : Kernel) (ev : Event) : Option Int :=
  if ev = .mutex (.lock ((m : Nat) : Int)) then k.caller else none

/-- The event does not destroy the owner of the mutex while it is locked. -/
def SparesOwner (m : Fin mutexMax) (k : Kernel) (ev : Event) : Prop :=
  ev = .destroy → ∀ i, k.activeProc = some i → i ≠ idleProc → (k.mutexes m).locks ≠ 0 →
    (k.mutexes m).owner ≠ some i

theorem Called.handle (h : Called k m callers) (ht : TableOk k) (hd : SparesOwner m k ev)
    (hsys : ev ≠ .syscall) (hk : k.handle ev = .ok (rc, k')) :
    Called k' m (callers ++ (lockCaller m k ev).toList) := by
  have hother : (∀ call, ev ≠ .mutex call) → Called k' m (callers ++ (lockCaller m k ev).toList) := by
    intro hev
    refine Called.mono ?_ (List.subset_append_left ..)
    refine h.congr (congrFun (handle_sameMutexes ht hk hev hsys).mutexes m) fun hl i hi => ?_
    refine handle_survives ht (h.owner hl i hi).1 (fun he hact => ?_) hsys hk
    by_contra hne
    exact hd he i hact hne hl hi
  cases ev with
  | tick => exact hother nofun
  | create => exact hother nofun
  | destroy => exact hother nofun
  | sleep => exact hother nofun
  | sem => exact hother nofun
  | syscall => exact hother nofun
  | mutex call =>
    have hs : SameTable k k' := (handle_keeps ht (by trivial) hk).toSameTable
    have hkept : Called k' m callers →
        Called k' m (callers ++ (lockCaller m k (.mutex call)).toList) :=
      fun h' => h'.mono (List.subset_append_left ..)
    cases call with
    | init => exact hkept (eq_of_ok hk ▸ h.init)
    | destroy id => exact hkept (eq_of_ok hk ▸ h.destroy id)
    | lock id =>
      have hk' : k.kmutexLock id = .ok (rc, k') := hk
      cases hi : index mutexMax id with
      | none =>
        rw [kmutexLock, hi] at hk'
        cases hk'
        exact hkept h
      | some n =>
        obtain rfl := index_eq_some.mp hi
        have hlock := (kmutexLock_cases hk').2
        by_cases hn : m = n
        · subst hn
          rw [lockCaller, if_pos rfl]
          exact h.lock ht hs hlock
        · exact hkept (h.of_sameTable (hlock.onlyMutex.mutexes m hn) hs)
    | unlock id =>
      have hk' : k.kmutexUnlock id = .ok (rc, k') := hk
      refine hkept ?_
      cases hi : index mutexMax id with
      | none =>
        rw [kmutexUnlock, hi] at hk'
        cases hk'
        exact h
      | some n =>
        obtain rfl := index_eq_some.mp hi
        have hunlock := kmutexUnlock_cases hk'
        by_cases hn : m = n
        · subst hn
          exact h.unlock ht hs hunlock
        · exact h.of_sameTable (hunlock.onlyMutex.mutexes m hn) hs

theorem setResult_called (h : Called k m callers) : Called (k.setResult rc) m callers :=
  h.of_sameTable (congrFun (setResult_sameMutexes k rc).mutexes m) (setResult_sameTable k rc)

/-- An entry adds its caller. -/
theorem Called.step (h : Called k m callers) (ht : TableOk k)
    (hd : e.call = some .destroy → SparesOwner m k .destroy)
    (hk : kernelContextEnter e k = .ok (rc, k')) :
    Called k' m (callers ++ (lockCall m ⟨k, (e, rc), k'⟩).toList) := by
  obtain ⟨k₁, h₁, h₂⟩ := kernelContextEnter_ok hk
  have hent := entered_sameTable k e
  have hmut₀ := congrFun (entered_sameMutexes k e).mutexes m
  have hactive : (k.entered e).activeProc = k.activeProc := (entered_still k e).active
  have h₀ : Called (k.entered e) m callers := h.of_sameTable hmut₀ hent
  have ht₀ := hent.tableOk ht
  have hcaller : (k.entered e).caller = k.caller := by
    unfold caller
    rw [hactive]
    congr 1
    funext i
    exact hent.pid i
  have hhandle : Called k₁ m (callers ++ (lockCall m ⟨k, (e, rc), k'⟩).toList) := by
    obtain ⟨k₂, hk₁, hcall⟩ := entered_call h₁
    have hk₂ : Called k₂ m (callers ++ (lockCall m ⟨k, (e, rc), k'⟩).toList) := by
      rcases hcall with ⟨ev, hc, hsys, hev⟩ | ⟨hc, ttys, mem, rfl⟩
      · have hl : lockCall m ⟨k, (e, rc), k'⟩ = lockCaller m (k.entered e) ev := by
          unfold lockCall lockCaller
          rw [hcaller]
          exact if_congr (by rw [hc, Option.some.injEq]) rfl rfl
        rw [hl]
        refine h₀.handle ht₀ (fun he i hi hne => ?_) hsys hev
        rw [hmut₀]
        rw [hactive] at hi
        exact hd (by rw [hc, he]) rfl i hi hne
      · refine Called.mono ?_ (List.subset_append_left ..)
        have hkeeps : Keeps (k.entered e) { k.entered e with ttys := ttys, mem := mem } :=
          Keeps.of_table rfl rfl rfl fun _ => id
        exact h₀.of_sameTable rfl hkeeps.toSameTable
    rcases hk₁ with rfl | rfl
    · exact hk₂
    · exact setResult_called hk₂
  refine hhandle.congr (congrFun (schedulerRun_sameMutexes h₂).mutexes m) fun hl i hi => ?_
  have hs := schedulerRun_sameProc (handle_tableOk ht₀ h₁) (hhandle.owner hl i hi).1 h₂
  exact ⟨hs.live, hs.pid⟩

/-! ## Runs -/

theorem Initial.called (h : Initial k) (m : Fin mutexMax) : Called k m [] := by
  refine .of_unused ?_ ?_ <;> rw [h.mutexes m] <;> rfl

/-- In a run that destroys no owner of the mutex while it is locked, whoever owns
or awaits it has called `kmutex_lock`. -/
theorem called_of_run {allowed : List KernelStep → Kernel → Entry → Prop}
    (h : Trace.Run Start (Trace.Exec kernelContextEnter allowed) tr k)
    (hd : ∀ x ∈ tr, x.act.1.call = some .destroy → SparesOwner m x.pre .destroy) :
    Called k m (lockCalls m tr) := by
  revert hd
  refine h.invariant (P := fun tr k => (∀ x ∈ tr, x.act.1.call = some .destroy →
    SparesOwner m x.pre .destroy) → Called k m (lockCalls m tr)) ?_ ?_
  · rintro k ⟨img, hk⟩ _
    exact (Initial.of_kernelInit hk).called m
  · intro tr k a k' hr hn hc hd
    rw [lockCalls, filterMap_snoc]
    have hold := hc fun x hx => hd x (List.mem_append_left _ hx)
    exact hold.step (tableOk_of_run hr) (hd ⟨k, a, k'⟩ (by simp)) hn.2

end Kernel
end UnivOS
