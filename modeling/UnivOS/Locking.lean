import UnivOS.Handlers

/-! # Sleeping, locking and unlocking

What the calls of an active process that is not the idle task do to the
schedule and, for the mutex calls, to the mutex.
-/
namespace UnivOS
namespace Kernel
open Word

variable {k k' : Kernel} {loc : Int → Option Place} {i : Fin procMax} {dst : Option Place}

theorem schedulerSleep_handled (hs : Scheduled k) (ht : TableOk k) (hact : k.activeProc = some i)
    (h0 : (k.procTable i).pid ≠ 0) (time : Int) :
    ∃ k', k.schedulerSleep (some i) time = .ok k' ∧ Scheduled k' ∧ Handled k k' := by
  obtain ⟨loc, h⟩ := hs
  have hi := ht.active_live i hact
  obtain ⟨k', hk, hm⟩ := schedulerSleep_moved h ht hact time
  have hne : i ≠ idleProc := fun he => h0 ((ht.pid_eq_zero hi).mpr he)
  exact ⟨k', hk, ⟨_, h.moved ht hi hm nofun nofun fun he => absurd he hne⟩,
    hm.handled h nofun nofun h0⟩

/-- A change that only concerns locks, owners and allocation. -/
theorem Still.of_waitQueue (hp : k'.procTable = k.procTable) (hact : k'.activeProc = k.activeProc)
    (hrun : k'.runQueue = k.runQueue) (hsl : k'.sleepQueue = k.sleepQueue)
    (hw : ∀ m, (k'.mutexes m).waitQueue = (k.mutexes m).waitQueue) : Still k k' := by
  refine ⟨?_, hact, fun i => by rw [hp], fun i => by rw [hp], fun i => by rw [hp]⟩
  funext v
  cases v with
  | cpu => simp [Kernel.places, hact, hp]
  | run => simp [Kernel.places, hrun]
  | sleep => simp [Kernel.places, hsl]
  | wait m => simp [Kernel.places, hw]

theorem modifyMutex_still (k : Kernel) (m : Fin mutexMax) {f : Mutex → Mutex}
    (hf : (f (k.mutexes m)).waitQueue = (k.mutexes m).waitQueue) :
    Still k (k.modifyMutex m f) := by
  refine .of_waitQueue rfl rfl rfl rfl fun n => ?_
  by_cases hn : n = m
  · rw [hn, modifyMutex_self, hf]
  · rw [modifyMutex_ne k f hn]

theorem Moved.congr {k₁ : Kernel} {src : Option Place} (h : Moved k k₁ i src dst)
    (hpl : k'.places = k₁.places) (hp : k'.procTable = k₁.procTable)
    (ha : k'.activeProc = k₁.activeProc) : Moved k k' i src dst := by
  refine ⟨by rw [hpl]; exact h.lists, ?_, ?_, ?_, ?_, ?_⟩ <;> simp only [hp, ha]
  exacts [h.pid, h.state, h.other, h.slice, h.active]

theorem Moved.of_still {k₁ : Kernel} {src : Option Place} (h : Moved k₁ k' i src dst)
    (hs : Still k k₁) (hp : k₁.procTable = k.procTable) : Moved k k' i src dst := by
  obtain ⟨hlists, hpid, hstate, hother, hslice, hact⟩ := h
  rw [hs.places] at hlists
  rw [hs.active] at hact
  rw [hp] at hlists hpid hother
  exact ⟨hlists, hpid, hstate, hother, hslice, hact⟩

/-- What locking a mutex does for the active process. -/
inductive LockEffect (k : Kernel) (m : Fin mutexMax) (i : Fin procMax) (k' : Kernel) : Prop
  | blocked (q : Queue) (locked : (k.mutexes m).locks > 0)
      (joins : q.toList = (k.mutexes m).waitQueue.toList ++ [(k.procTable i).pid])
      (moved : Moved k k' i (some .cpu) (some (.wait m)))
      (mutexes : k'.mutexes = Function.update k.mutexes m { k.mutexes m with
        locks := wrap32 ((k.mutexes m).locks + 1)
        waitQueue := q })
  | acquired (free : ¬ (k.mutexes m).locks > 0) (still : Still k k')
      (mutexes : k'.mutexes = Function.update k.mutexes m { k.mutexes m with
        locks := wrap32 ((k.mutexes m).locks + 1)
        owner := some i })

theorem kmutexLock_effect (h : Located k loc) (hact : k.activeProc = some i) (m : Fin mutexMax) :
    ∃ rc k', k.kmutexLock ((m : Nat) : Int) = .ok (rc, k') ∧ k'.mutexQueue = k.mutexQueue ∧
      LockEffect k m i k' := by
  by_cases hlocked : (k.mutexes m).locks > 0
  · obtain ⟨q, k₁, hq, hk, hm, hmut, hmq⟩ := mutexBlock_moved h hact m
    have hself : k₁.mutexes m = { k.mutexes m with waitQueue := q } := by
      rw [hmut, Function.update_self]
    let k' := k₁.modifyMutex m fun x => { x with locks := wrap32 (x.locks + 1) }
    refine ⟨(k'.mutexes m).locks, k', ?_, hmq, .blocked q hlocked hq ?_ ?_⟩
    · rw [kmutexLock, index_val]
      dsimp only
      rw [mutexAcquire, if_pos hlocked, hk, Loop.ok_bind]
    · exact hm.congr (modifyMutex_still k₁ m rfl).places rfl rfl
    · show Function.update k₁.mutexes m _ = _
      rw [hself, hmut, Function.update_idem]
  · let k' := (k.modifyMutex m fun x => { x with owner := k.activeProc }).modifyMutex m fun x =>
      { x with locks := wrap32 (x.locks + 1) }
    refine ⟨(k'.mutexes m).locks, k', ?_, rfl, .acquired hlocked ?_ ?_⟩
    · rw [kmutexLock, index_val]
      dsimp only
      rw [mutexAcquire, if_neg hlocked, Loop.ok_bind]
    · exact (modifyMutex_still k m rfl).trans (modifyMutex_still _ m rfl)
    · show Function.update (Function.update k.mutexes m _) m _ = _
      rw [modifyMutex_self, Function.update_idem, hact]

/-- What unlocking a mutex does for the active process. -/
inductive UnlockEffect (k : Kernel) (m : Fin mutexMax) (i : Fin procMax) (k' : Kernel) : Prop
  | refused (reason : (k.mutexes m).locks = 0 ∨ (k.mutexes m).owner ≠ some i) (same : k' = k)
  | freed (locked : (k.mutexes m).locks ≠ 0) (owner : (k.mutexes m).owner = some i)
      (last : wrap32 ((k.mutexes m).locks - 1) = 0) (still : Still k k')
      (mutexes : k'.mutexes = Function.update k.mutexes m { k.mutexes m with
        locks := wrap32 ((k.mutexes m).locks - 1)
        owner := none })
  | kept (locked : (k.mutexes m).locks ≠ 0) (owner : (k.mutexes m).owner = some i)
      (more : wrap32 ((k.mutexes m).locks - 1) ≠ 0)
      (nobody : (k.mutexes m).waitQueue.toList = []) (still : Still k k')
      (mutexes : k'.mutexes = Function.update k.mutexes m { k.mutexes m with
        locks := wrap32 ((k.mutexes m).locks - 1) })
  | handedOff (j : Fin procMax) (q : Queue) (locked : (k.mutexes m).locks ≠ 0)
      (owner : (k.mutexes m).owner = some i) (more : wrap32 ((k.mutexes m).locks - 1) ≠ 0)
      (live : k.Live j) (notIdle : j ≠ idleProc)
      (next : (k.mutexes m).waitQueue.toList = (k.procTable j).pid :: q.toList)
      (moved : Moved k k' j (some (.wait m)) (some .run))
      (mutexes : k'.mutexes = Function.update k.mutexes m { k.mutexes m with
        locks := wrap32 ((k.mutexes m).locks - 1)
        owner := some j
        waitQueue := q })

theorem kmutexUnlock_effect (h : Located k loc) (ht : TableOk k) (hact : k.activeProc = some i)
    (m : Fin mutexMax) :
    ∃ rc k', k.kmutexUnlock ((m : Nat) : Int) = .ok (rc, k') ∧ k'.mutexQueue = k.mutexQueue ∧
      UnlockEffect k m i k' := by
  by_cases hlocked : (k.mutexes m).locks = 0
  · refine ⟨0, k, ?_, rfl, .refused (.inl hlocked) rfl⟩
    rw [kmutexUnlock, index_val]
    exact if_pos hlocked
  by_cases howner : (k.mutexes m).owner = some i
  swap
  · refine ⟨-1, k, ?_, rfl, .refused (.inr howner) rfl⟩
    rw [kmutexUnlock, index_val]
    dsimp only
    rw [if_neg hlocked, if_pos (by rw [hact]; exact howner)]
  let k₁ := k.modifyMutex m fun x => { x with locks := wrap32 (x.locks - 1) }
  have hself : k₁.mutexes m = { k.mutexes m with locks := wrap32 ((k.mutexes m).locks - 1) } :=
    modifyMutex_self k m _
  have hstill : Still k k₁ := modifyMutex_still k m rfl
  have hunlock : ∀ k', k₁.mutexRelease m = .ok k' →
      k.kmutexUnlock ((m : Nat) : Int) = .ok ((k'.mutexes m).locks, k') := by
    intro k' hk
    rw [kmutexUnlock, index_val]
    dsimp only
    rw [if_neg hlocked, if_neg (not_not_intro (howner.trans hact.symm))]
    show (k₁.mutexRelease m >>= _) = _
    rw [hk, Loop.ok_bind]
  have hlocks : (k₁.mutexes m).locks = wrap32 ((k.mutexes m).locks - 1) := by rw [hself]
  have hwait : (k₁.mutexes m).waitQueue = (k.mutexes m).waitQueue := by rw [hself]
  by_cases hlast : wrap32 ((k.mutexes m).locks - 1) = 0
  · refine ⟨_, k₁.modifyMutex m fun x => { x with owner := none }, hunlock _ ?_, rfl,
      .freed hlocked howner hlast ?_ ?_⟩
    · exact if_pos (hlocks.trans hlast)
    · exact hstill.trans (modifyMutex_still k₁ m rfl)
    · show Function.update (Function.update k.mutexes m _) m _ = _
      rw [hself, Function.update_idem]
  have hrelease : k₁.mutexRelease m = k₁.mutexHandOff m := if_neg (by rw [hlocks]; exact hlast)
  cases hw : (k.mutexes m).waitQueue.toList with
  | nil =>
    refine ⟨_, k₁, hunlock k₁ ?_, rfl, .kept hlocked howner hlast hw hstill rfl⟩
    rw [hrelease, mutexHandOff, hwait, Queue.queueOut_none.mpr hw]
  | cons x l =>
    have hkeeps : Keeps k k₁ := Keeps.of_mutexes k _ k.mutexQueue
    obtain ⟨q, k', j, hq, hk, hj, hne, rfl, hm, hmut, hmq⟩ :=
      mutexHandOff_moved (h.still hstill) (hkeeps.tableOk ht) (hwait ▸ hw)
    refine ⟨_, k', hunlock k' (hrelease.trans hk), hmq, .handedOff j q hlocked howner hlast hj hne ?_
      ?_ ?_⟩
    · rw [hw, hq]; rfl
    · exact hm.of_still hstill rfl
    · rw [hmut, hself]
      show Function.update (Function.update k.mutexes m _) m _ = _
      rw [Function.update_idem]

end Kernel
end UnivOS
