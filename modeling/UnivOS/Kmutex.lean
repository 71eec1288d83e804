import UnivOS.Kproc

/-! # Mutexes

`kmutex.c`.
-/
namespace UnivOS
namespace Kernel
open Word

def kmutexesInit (k : Kernel) : Kernel :=
  { k with mutexes := fun _ => Mutex.zero, mutexQueue := Queue.fill mutexMax }

/-- Returns the mutex id, or -1. The id taken from a queue that this empties is
not given out. -/
def kmutexInit (k : Kernel) : Int × Kernel :=
  match k.mutexQueue.queueOut with
  | none => (-1, k)
  | some (mutexId, q) =>
    let k := { k with mutexQueue := q }
    if q.queueIsEmpty then (-1, k)
    else match index mutexMax mutexId with
      | none => (-1, k)
      | some m =>
        let x := { Mutex.zero with allocated := 1 }
        (mutexId, { k with mutexes := Function.update k.mutexes m x })

def kmutexDestroy (k : Kernel) (id : Int) : Int × Kernel :=
  match index mutexMax id with
  | none => (-1, k)
  | some m =>
    if (k.mutexes m).locks > 0 then (-1, k)
    else (0, { k with
      mutexQueue := (k.mutexQueue.queueIn id).getD k.mutexQueue
      mutexes := Function.update k.mutexes m Mutex.zero })

def modifyMutex (k : Kernel) (m : Fin mutexMax) (f : Mutex → Mutex) : Kernel :=
  { k with mutexes := Function.update k.mutexes m (f (k.mutexes m)) }

@[simp] theorem modifyMutex_self (k : Kernel) (m : Fin mutexMax) (f : Mutex → Mutex) :
    (k.modifyMutex m f).mutexes m = f (k.mutexes m) := Function.update_self ..

theorem modifyMutex_ne (k : Kernel) {m n : Fin mutexMax} (f : Mutex → Mutex) (h : n ≠ m) :
    (k.modifyMutex m f).mutexes n = k.mutexes n := Function.update_of_ne h ..

/-- The active process joins the wait queue of a locked mutex. -/
def mutexBlock (k : Kernel) (m : Fin mutexMax) : Res Kernel :=
  match k.activeProc with
  | none => .ok k
  | some proc =>
    let k := k.modifyMutex m fun x =>
      { x with waitQueue := (x.waitQueue.queueIn (k.procTable proc).pid).getD x.waitQueue }
    let k := k.modifyProc proc fun p => { p with state := .waiting }
    k.schedulerRemove (some proc)

/-- The active process waits for the mutex or becomes its owner. -/
def mutexAcquire (k : Kernel) (m : Fin mutexMax) : Res Kernel :=
  if (k.mutexes m).locks > 0 then k.mutexBlock m
  else .ok (k.modifyMutex m fun x => { x with owner := k.activeProc })

def kmutexLock (k : Kernel) (id : Int) : Res (Int × Kernel) :=
  match index mutexMax id with
  | none => .ok (-1, k)
  | some m => do
    let k ← k.mutexAcquire m
    let k := k.modifyMutex m fun x => { x with locks := wrap32 (x.locks + 1) }
    .ok ((k.mutexes m).locks, k)

/-- The mutex is handed to the first process waiting for it. -/
def mutexHandOff (k : Kernel) (m : Fin mutexMax) : Res Kernel :=
  match (k.mutexes m).waitQueue.queueOut with
  | none => .ok k
  | some (waitingPid, q) =>
    let k := k.modifyMutex m fun x => { x with waitQueue := q }
    match k.pidToProc waitingPid with
    | none => .ok k
    | some waitingProc => do
      let k ← k.schedulerAdd (some waitingProc)
      .ok (k.modifyMutex m fun x => { x with owner := some waitingProc })

def mutexRelease (k : Kernel) (m : Fin mutexMax) : Res Kernel :=
  if (k.mutexes m).locks = 0 then .ok (k.modifyMutex m fun x => { x with owner := none })
  else k.mutexHandOff m

def kmutexUnlock (k : Kernel) (id : Int) : Res (Int × Kernel) :=
  match index mutexMax id with
  | none => .ok (-1, k)
  | some m =>
    if (k.mutexes m).locks = 0 then .ok (0, k)
    else if (k.mutexes m).owner ≠ k.activeProc then .ok (-1, k)
    else do
      let k ← (k.modifyMutex m fun x => { x with locks := wrap32 (x.locks - 1) }).mutexRelease m
      .ok ((k.mutexes m).locks, k)

/-! ## What locking and unlocking do -/

variable {k k' k'' : Kernel} {i : Fin procMax} {m : Fin mutexMax} {rc : Int}

inductive LockCases (k : Kernel) (m : Fin mutexMax) (k' : Kernel) : Prop
  | acquires (free : ¬ (k.mutexes m).locks > 0)
      (same : k' = k.modifyMutex m fun x =>
        { x with owner := k.activeProc, locks := wrap32 (x.locks + 1) })
  | counts (locked : (k.mutexes m).locks > 0) (nobody : k.activeProc = none)
      (same : k' = k.modifyMutex m fun x => { x with locks := wrap32 (x.locks + 1) })
  | blocks (i : Fin procMax) (r s : Queue) (locked : (k.mutexes m).locks > 0)
      (caller : k.activeProc = some i)
      (same : k' = { k.modifyProc i fun p => { p with state := .waiting, schedulerQueue := none } with
        runQueue := r
        sleepQueue := s
        activeProc := none
        mutexes := Function.update k.mutexes m { k.mutexes m with
          locks := wrap32 ((k.mutexes m).locks + 1)
          waitQueue := ((k.mutexes m).waitQueue.queueIn (k.procTable i).pid).getD
            (k.mutexes m).waitQueue } })

theorem kmutexLock_cases (h : k.kmutexLock ((m : Nat) : Int) = .ok (rc, k')) :
    rc = wrap32 ((k.mutexes m).locks + 1) ∧ LockCases k m k' := by
  rw [kmutexLock, index_val] at h
  obtain ⟨k₁, h₁, h₂⟩ := Loop.bind_eq_ok.mp h
  unfold mutexAcquire at h₁
  split at h₁
  · rename_i hlocked
    unfold mutexBlock at h₁
    split at h₁
    · rename_i hact
      cases h₁
      cases h₂
      exact ⟨by rw [modifyMutex_self], .counts hlocked hact rfl⟩
    · rename_i i hact
      dsimp only at h₁
      obtain ⟨r, s, _, _, hrem⟩ := schedulerRemove_eq_active
        (k := (k.modifyMutex m fun x => { x with
            waitQueue := (x.waitQueue.queueIn (k.procTable i).pid).getD x.waitQueue }).modifyProc i
          fun p => { p with state := .waiting }) hact
      cases hrem.symm.trans h₁
      cases h₂
      refine ⟨?_, .blocks i r s hlocked hact ?_⟩
      · rw [modifyMutex_self]
        simp [modifyMutex, modifyProc]
      · simp [modifyMutex, modifyProc]
  · rename_i hfree
    cases h₁
    cases h₂
    refine ⟨?_, .acquires hfree ?_⟩
    · rw [modifyMutex_self, modifyMutex_self]
    · simp [modifyMutex]

inductive UnlockCases (k : Kernel) (m : Fin mutexMax) (k' : Kernel) : Prop
  | refused (reason : (k.mutexes m).locks = 0 ∨ (k.mutexes m).owner ≠ k.activeProc)
      (same : k' = k)
  | frees (locked : (k.mutexes m).locks ≠ 0) (owner : (k.mutexes m).owner = k.activeProc)
      (last : wrap32 ((k.mutexes m).locks - 1) = 0)
      (same : k' = k.modifyMutex m fun x =>
        { x with locks := wrap32 (x.locks - 1), owner := none })
  | keeps (q : Queue) (locked : (k.mutexes m).locks ≠ 0)
      (owner : (k.mutexes m).owner = k.activeProc)
      (waiting : q.toList ⊆ (k.mutexes m).waitQueue.toList)
      (same : k' = k.modifyMutex m fun x => { x with locks := wrap32 (x.locks - 1), waitQueue := q })
  | handsOff (j : Fin procMax) (pid : Int) (q r : Queue) (locked : (k.mutexes m).locks ≠ 0)
      (owner : (k.mutexes m).owner = k.activeProc)
      (waiting : (k.mutexes m).waitQueue.toList = pid :: q.toList)
      (next : k.pidToProc pid = some j)
      (same : k' = (k.runnable j r).modifyMutex m fun x =>
        { x with locks := wrap32 (x.locks - 1), owner := some j, waitQueue := q })

theorem kmutexUnlock_cases (h : k.kmutexUnlock ((m : Nat) : Int) = .ok (rc, k')) :
    UnlockCases k m k' := by
  rw [kmutexUnlock, index_val] at h
  dsimp only at h
  split at h
  · rename_i hfree
    cases h
    exact .refused (.inl hfree) rfl
  · rename_i hlocked
    split at h
    · rename_i hother
      cases h
      exact .refused (.inr hother) rfl
    · rename_i howner
      rw [not_not] at howner
      obtain ⟨k₁, h₁, h₂⟩ := Loop.bind_eq_ok.mp h
      cases h₂
      unfold mutexRelease at h₁
      split at h₁
      · rename_i hlast
        rw [modifyMutex_self] at hlast
        cases h₁
        exact .frees hlocked howner hlast (by simp [modifyMutex])
      · unfold mutexHandOff at h₁
        rw [modifyMutex_self] at h₁
        split at h₁
        · cases h₁
          exact .keeps (k.mutexes m).waitQueue hlocked howner (List.Subset.refl _) rfl
        · rename_i pid q hq
          have hwait := Queue.queueOut_spec hq
          dsimp only at h₁
          split at h₁
          · cases h₁
            refine .keeps q hlocked howner ?_ (by simp [modifyMutex])
            rw [hwait]
            exact List.subset_cons_self pid _
          · rename_i j hj
            obtain ⟨k₂, h₂, h₃⟩ := Loop.bind_eq_ok.mp h₁
            cases h₃
            obtain ⟨r, rfl, _⟩ := schedulerAdd_eq h₂
            exact .handsOff j pid q r hlocked howner hwait hj
              (by simp [modifyMutex, runnable, modifyProc])

/-! ## What stays the same, and what `kmutex_init` does -/

structure SameMutexes (k k' : Kernel) : Prop where
  mutexes : k'.mutexes = k.mutexes
  mutexQueue : k'.mutexQueue = k.mutexQueue

theorem SameMutexes.refl (k : Kernel) : SameMutexes k k := ⟨rfl, rfl⟩

theorem SameMutexes.trans (h : SameMutexes k k') (h' : SameMutexes k' k'') : SameMutexes k k'' :=
  ⟨h'.mutexes.trans h.mutexes, h'.mutexQueue.trans h.mutexQueue⟩

theorem schedulerAdd_sameMutexes (h : k.schedulerAdd (some i) = .ok k') : SameMutexes k k' := by
  obtain ⟨q, rfl, _⟩ := schedulerAdd_eq h
  exact ⟨rfl, rfl⟩

theorem schedulerRemove_sameMutexes (h : k.schedulerRemove (some i) = .ok k') :
    SameMutexes k k' := by
  obtain ⟨r, s, _, _, hk⟩ := k.schedulerRemove_eq i
  cases hk.symm.trans h
  exact ⟨rfl, rfl⟩

/-- The pool and the other mutexes stay. -/
structure OnlyMutex (k k' : Kernel) (m : Fin mutexMax) : Prop where
  mutexQueue : k'.mutexQueue = k.mutexQueue
  mutexes : ∀ n, n ≠ m → k'.mutexes n = k.mutexes n

theorem SameMutexes.onlyMutex (h : SameMutexes k k') (m : Fin mutexMax) : OnlyMutex k k' m :=
  ⟨h.mutexQueue, fun n _ => congrFun h.mutexes n⟩

theorem modifyMutex_onlyMutex (k : Kernel) (m : Fin mutexMax) (f : Mutex → Mutex) :
    OnlyMutex k (k.modifyMutex m f) m :=
  ⟨rfl, fun _ hn => modifyMutex_ne k f hn⟩

theorem LockCases.onlyMutex (h : LockCases k m k') : OnlyMutex k k' m := by
  cases h with
  | acquires _ same => rw [same]; exact modifyMutex_onlyMutex k m _
  | counts _ _ same => rw [same]; exact modifyMutex_onlyMutex k m _
  | blocks _ _ _ _ _ same =>
    rw [same]
    exact ⟨rfl, fun n hn => Function.update_of_ne hn ..⟩

theorem UnlockCases.onlyMutex (h : UnlockCases k m k') : OnlyMutex k k' m := by
  cases h with
  | refused _ same => rw [same]; exact (SameMutexes.refl k).onlyMutex m
  | frees _ _ _ same => rw [same]; exact modifyMutex_onlyMutex k m _
  | keeps _ _ _ _ same => rw [same]; exact modifyMutex_onlyMutex k m _
  | handsOff j _ _ r _ _ _ _ same =>
    rw [same]
    exact ⟨rfl, fun n hn => modifyMutex_ne (k.runnable j r) _ hn⟩

/-- Unlocking a mutex that is not locked changes nothing. -/
theorem UnlockCases.of_free (h : UnlockCases k m k') (hfree : (k.mutexes m).locks = 0) :
    k' = k := by
  cases h with
  | refused _ same => exact same
  | frees locked _ _ _ => exact absurd hfree locked
  | keeps _ locked _ _ _ => exact absurd hfree locked
  | handsOff _ _ _ _ locked _ _ _ _ => exact absurd hfree locked

/-- An id that is returned was the first of the allocator. -/
inductive InitEffect (k : Kernel) (rc : Int) (k' : Kernel) : Prop
  | refused (result : rc = -1) (mutexes : k'.mutexes = k.mutexes)
      (ids : ∃ used, k.mutexQueue.toList = used ++ k'.mutexQueue.toList)
  | allocated (m : Fin mutexMax) (result : rc = ((m : Nat) : Int))
      (ids : k.mutexQueue.toList = ((m : Nat) : Int) :: k'.mutexQueue.toList)
      (mutexes : k'.mutexes = Function.update k.mutexes m { Mutex.zero with allocated := 1 })

theorem kmutexInit_effect (k : Kernel) : InitEffect k k.kmutexInit.1 k.kmutexInit.2 := by
  unfold kmutexInit
  split
  · exact .refused rfl rfl ⟨[], rfl⟩
  · rename_i id q hq
    have hids := Queue.queueOut_spec hq
    dsimp only
    split
    · exact .refused rfl rfl ⟨[id], hids⟩
    · split
      · exact .refused rfl rfl ⟨[id], hids⟩
      · rename_i m hm
        obtain rfl := index_eq_some.mp hm
        exact .allocated m rfl hids rfl

/-- What `kmutex_init` takes from an allocator: an id that is not there any more,
if it gives out one. -/
structure TakesId (k : Kernel) (rc : Int) (k' : Kernel) : Prop where
  nodup : k'.mutexQueue.toList.Nodup
  cleared : ∀ m : Fin mutexMax, ((m : Nat) : Int) ∈ k'.mutexQueue.toList → k'.mutexes m = Mutex.zero
  subset : k'.mutexQueue.toList ⊆ k.mutexQueue.toList
  given : ∀ m : Fin mutexMax, rc = ((m : Nat) : Int) →
    ((m : Nat) : Int) ∈ k.mutexQueue.toList ∧ ((m : Nat) : Int) ∉ k'.mutexQueue.toList

theorem InitEffect.takes {rc : Int} (h : InitEffect k rc k') (hnd : k.mutexQueue.toList.Nodup)
    (hzero : ∀ m : Fin mutexMax, ((m : Nat) : Int) ∈ k.mutexQueue.toList →
      k.mutexes m = Mutex.zero) : TakesId k rc k' := by
  cases h with
  | refused hres hm hids =>
    obtain ⟨used, hids⟩ := hids
    have hsub : k'.mutexQueue.toList ⊆ k.mutexQueue.toList :=
      fun id hid => hids ▸ List.mem_append_right used hid
    refine ⟨(List.nodup_append.mp (hids ▸ hnd)).2.1, fun m hq => ?_, hsub, fun m he => ?_⟩
    · rw [hm]
      exact hzero m (hsub hq)
    · rw [hres] at he
      omega
  | allocated n hres hids hm =>
    rw [hids, List.nodup_cons] at hnd
    have hsub : k'.mutexQueue.toList ⊆ k.mutexQueue.toList :=
      fun id hid => hids ▸ List.mem_cons_of_mem _ hid
    refine ⟨hnd.2, fun m hq => ?_, hsub, fun m he => ?_⟩
    · have hne : m ≠ n := fun he => hnd.1 (he ▸ hq)
      rw [hm, Function.update_of_ne hne]
      exact hzero m (hsub hq)
    · rw [hres] at he
      rw [← he, hids]
      exact ⟨List.mem_cons_self, hnd.1⟩

theorem kmutexInit_frame (k : Kernel) : ∃ (f : Fin mutexMax → Mutex) (q : Queue),
    k.kmutexInit.2 = { k with mutexes := f, mutexQueue := q } := by
  unfold kmutexInit
  split
  · exact ⟨k.mutexes, k.mutexQueue, rfl⟩
  · dsimp only
    split
    · exact ⟨_, _, rfl⟩
    · split <;> exact ⟨_, _, rfl⟩

theorem kmutexDestroy_frame (k : Kernel) (id : Int) : ∃ (f : Fin mutexMax → Mutex) (q : Queue),
    (k.kmutexDestroy id).2 = { k with mutexes := f, mutexQueue := q } := by
  unfold kmutexDestroy
  split
  · exact ⟨k.mutexes, k.mutexQueue, rfl⟩
  · split
    · exact ⟨k.mutexes, k.mutexQueue, rfl⟩
    · exact ⟨_, _, rfl⟩

end Kernel
end UnivOS
