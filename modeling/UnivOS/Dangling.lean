import UnivOS.Owners

/-! # What a destroyed process leaves behind

`kproc_destroy` clears the table entry and the scheduler queue that holds the
process. The wait queues keep its process id, and a mutex it holds keeps its table
entry as the owner: the next process in the entry can unlock it.
-/
namespace UnivOS
namespace Kernel
open Word

variable {k k' : Kernel} {p : Fin procMax} {m : Fin mutexMax} {rc : Int} {tr : List KernelStep}
  {x : KernelStep}

/-- After the destruction of the process in entry `p` of `k` nothing refers to it. -/
structure Forgotten (k : Kernel) (p : Fin procMax) (k' : Kernel) : Prop where
  scheduler : ∀ w, (k.procTable p).pid ∉ (k'.schedQueue w).toList
  mutexes : ∀ m, (k.procTable p).pid ∉ (k'.mutexes m).waitQueue.toList
  semaphores : ∀ s, (k.procTable p).pid ∉ (k'.semaphores s).waitQueue.toList
  owner : ∀ m, (k'.mutexes m).locks ≠ 0 → (k'.mutexes m).owner ≠ some p
  waiters : ∀ m, (k.mutexes m).owner = some p → ∀ x ∈ (k.mutexes m).waitQueue.toList,
    (k'.mutexes m).locks = 0 ∨ ∃ i, (k'.mutexes m).owner = some i ∧ k'.Live i

/-- The entries of a queue the removal loop does not come to: it stops one entry
earlier for each that it drops, the last one apart. -/
def unreached (pid : Int) (l : List Int) : List Int := l.drop (l.length + 1 - l.count pid)

/-- Nothing but the queue `scheduler_remove` searches refers to the process. -/
structure Forgettable (k : Kernel) (p : Fin procMax) : Prop where
  searched : ∀ w, (k.procTable p).schedulerQueue = some w →
    (k.procTable p).pid ∉ unreached (k.procTable p).pid (k.schedQueue w).toList
  scheduler : ∀ w, (k.procTable p).schedulerQueue ≠ some w →
    (k.procTable p).pid ∉ (k.schedQueue w).toList
  mutexes : ∀ m, (k.procTable p).pid ∉ (k.mutexes m).waitQueue.toList
  semaphores : ∀ s, (k.procTable p).pid ∉ (k.semaphores s).waitQueue.toList
  owner : ∀ m, (k.mutexes m).locks ≠ 0 → (k.mutexes m).owner ≠ some p

theorem mem_unscheduled {w : SchedQueue} (hw : (k.procTable p).schedulerQueue = some w) :
    (k.procTable p).pid ∈ k.unscheduled p w ↔
      (k.procTable p).pid ∈ unreached (k.procTable p).pid (k.schedQueue w).toList := by
  rw [unscheduled, if_pos hw, mem_removed 0 _ [] List.not_mem_nil]
  rfl

/-- The parts of the kernel that can refer to a process, after its destruction. -/
theorem kprocDestroy_leaves (ht : TableOk k) (hp : k.Live p) (hne : p ≠ idleProc)
    (h : k.kprocDestroy (some p) = .ok (rc, k')) :
    (∀ w, (k'.schedQueue w).toList = k.unscheduled p w) ∧ k'.mutexes = k.mutexes ∧
      k'.semaphores = k.semaphores ∧ ¬ k'.Live p := by
  rcases kprocDestroy_cases ht hp h with ⟨hidle, _⟩ | ⟨k₁, q, _, _, hrem, _, rfl⟩
  · exact absurd hidle hne
  · obtain ⟨r, s, hr, hs, hk⟩ := k.schedulerRemove_eq p
    cases hk.symm.trans hrem
    refine ⟨fun w => ?_, rfl, rfl, fun hl => (freeProc_live.mp hl).2 rfl⟩
    cases w with
    | run => exact hr
    | sleep => exact hs

theorem forgotten_iff (ht : TableOk k) (hp : k.Live p) (hne : p ≠ idleProc)
    (h : k.kprocDestroy (some p) = .ok (rc, k')) : Forgotten k p k' ↔ Forgettable k p := by
  obtain ⟨hsched, hmut, hsem, hgone⟩ := kprocDestroy_leaves ht hp hne h
  constructor
  · intro hf
    refine ⟨fun w hw hmem => ?_, fun w hw hmem => ?_, fun m => ?_, fun s => ?_, fun m => ?_⟩
    · refine hf.scheduler w ?_
      rw [hsched, mem_unscheduled hw]
      exact hmem
    · refine hf.scheduler w ?_
      rw [hsched, unscheduled, if_neg hw]
      exact hmem
    · rw [← hmut]
      exact hf.mutexes m
    · rw [← hsem]
      exact hf.semaphores s
    · rw [← hmut]
      exact hf.owner m
  · intro hf
    refine ⟨fun w => ?_, fun m => ?_, fun s => ?_, fun m => ?_, fun m hown _ _ => .inl ?_⟩
    · rw [hsched]
      by_cases hw : (k.procTable p).schedulerQueue = some w
      · rw [mem_unscheduled hw]
        exact hf.searched w hw
      · rw [unscheduled, if_neg hw]
        exact hf.scheduler w hw
    · rw [hmut]
      exact hf.mutexes m
    · rw [hsem]
      exact hf.semaphores s
    · rw [hmut]
      exact hf.owner m
    · rw [hmut]
      by_contra hl
      exact hf.owner m hl hown

/-! ## Runs -/

/-- The owner of the mutex, while it is locked, is a live process that has called
`kmutex_lock` itself, and no other process can unlock it. -/
structure OwnedByCaller (tr : List KernelStep) (k : Kernel) (m : Fin mutexMax) : Prop where
  owner : (k.mutexes m).locks ≠ 0 → ∀ i, (k.mutexes m).owner = some i →
    k.Live i ∧ (k.procTable i).pid ∈ lockCalls m tr
  unlock : ∀ e i rc k', k.activeProc = some i → (k.procTable i).pid ∉ lockCalls m tr →
    (k.entered e).kmutexUnlock ((m : Nat) : Int) = .ok (rc, k') → k' = k.entered e

theorem Called.ownedByCaller (h : Called k m (lockCalls m tr)) : OwnedByCaller tr k m := by
  refine ⟨h.owner, fun e i rc k' hact hnot hk => ?_⟩
  have hent := entered_sameTable k e
  have h₀ : Called (k.entered e) m (lockCalls m tr) :=
    h.of_sameTable (congrFun (entered_sameMutexes k e).mutexes m) hent
  have hactive : (k.entered e).activeProc = some i := (entered_still k e).active.trans hact
  have hout : ((k.entered e).mutexes m).locks ≠ 0 →
      ((k.entered e).mutexes m).owner ≠ (k.entered e).activeProc := by
    intro hl hown
    obtain ⟨_, hpid⟩ := h₀.owner hl i (hown.trans hactive)
    rw [hent.pid] at hpid
    exact hnot hpid
  cases kmutexUnlock_cases hk with
  | refused _ same => exact same
  | frees locked owner _ _ => exact absurd owner (hout locked)
  | keeps _ locked owner _ _ => exact absurd owner (hout locked)
  | handsOff _ _ _ _ locked owner _ _ _ => exact absurd owner (hout locked)

/-- Where the step destroys a process, it is forgettable. -/
def DestroysForgettable (x : KernelStep) : Prop :=
  x.act.1.call = some .destroy → ∀ p, x.pre.activeProc = some p → p ≠ idleProc →
    Forgettable (x.pre.entered x.act.1) p

theorem DestroysForgettable.sparesOwner (h : DestroysForgettable x)
    (hx : x.act.1.call = some .destroy) : SparesOwner m x.pre .destroy := by
  intro _ i hact hne hl
  have hown := (h hx i hact hne).owner m
  rw [(entered_sameMutexes x.pre x.act.1).mutexes] at hown
  exact hown hl

/-- When a handler destroys the active process, nothing refers to it afterwards
exactly if it was forgettable; and where a run has destroyed forgettable processes
only, a locked mutex belongs to a live process that has called for it. -/
theorem destroy_forgets
    (h : Trace.Run Start (Trace.Exec kernelContextEnter fun _ _ _ => True) tr k) :
    (∀ e p k', (k.entered e).activeProc = some p → p ≠ idleProc →
      (k.entered e).kprocDestroy (some p) = .ok (0, k') →
      (Forgotten (k.entered e) p k' ↔ Forgettable (k.entered e) p)) ∧
    ((∀ x ∈ tr, DestroysForgettable x) → ∀ m, OwnedByCaller tr k m) := by
  refine ⟨fun e p k' hact hne hd => ?_, fun hx m => ?_⟩
  · have ht := (entered_sameTable k e).tableOk (tableOk_of_run h)
    exact forgotten_iff ht (ht.active_live p hact) hne hd
  · refine (called_of_run h fun x hmem hc => ?_).ownedByCaller
    exact (hx x hmem).sparesOwner hc

instance : Decidable (Forgettable k p) :=
  decidable_of_iff
    ((∀ w ∈ [SchedQueue.run, SchedQueue.sleep], (k.procTable p).schedulerQueue = some w →
        (k.procTable p).pid ∉ unreached (k.procTable p).pid (k.schedQueue w).toList) ∧
      (∀ w ∈ [SchedQueue.run, SchedQueue.sleep], (k.procTable p).schedulerQueue ≠ some w →
        (k.procTable p).pid ∉ (k.schedQueue w).toList) ∧
      (∀ m, (k.procTable p).pid ∉ (k.mutexes m).waitQueue.toList) ∧
      (∀ s, (k.procTable p).pid ∉ (k.semaphores s).waitQueue.toList) ∧
      ∀ m, (k.mutexes m).locks ≠ 0 → (k.mutexes m).owner ≠ some p)
    ⟨fun h => ⟨fun w => h.1 w (by cases w <;> simp), fun w => h.2.1 w (by cases w <;> simp),
        h.2.2.1, h.2.2.2.1, h.2.2.2.2⟩,
      fun h => ⟨fun w _ => h.searched w, fun w _ => h.scheduler w, h.mutexes, h.semaphores,
        h.owner⟩⟩

instance : Decidable (DestroysForgettable x) :=
  inferInstanceAs (Decidable (_ → ∀ _, _ → _ → _))

/-- Process 1 gives its mutex back before it is destroyed, and process 2 takes it and
sleeps: then nothing refers to process 3 when it is destroyed. -/
theorem destroy_forgets_third : ∃ (tr : List KernelStep) (k k' : Kernel) (e : Entry)
    (p i : Fin procMax),
      Trace.Run Start (Trace.Exec kernelContextEnter fun _ _ _ => True) tr k ∧
      (k.procTable p).pid = 3 ∧ Forgotten (k.entered e) p k' ∧
      (k.mutexes ⟨0, by decide⟩).owner = some i ∧ k.Live i ∧ (k.procTable i).pid = 2 ∧
      2 ∈ lockCalls ⟨0, by decide⟩ tr := by
  let e : Entry := Event.entry .destroy
  let p : Fin procMax := ⟨3, by decide⟩
  let i : Fin procMax := ⟨2, by decide⟩
  let calls : List Event := [.mutex .init, .mutex (.lock 0), .mutex (.unlock 0), .destroy,
    .mutex (.lock 0), .sleep 5]
  obtain ⟨tr, k, hrun, hP⟩ := run_of_test (fun _ _ _ => True) (kernelInit Image.blank)
    ((List.replicate 11 Event.tick ++ calls).map Event.entry)
    (fun tr k => match (k.entered e).kprocDestroy (some p) with
      | .error _ => false
      | .ok (rc, _) => decide (rc = 0 ∧ (k.entered e).activeProc = some p ∧
        Forgettable (k.entered e) p ∧ (k.procTable p).pid = 3 ∧ (k.procTable i).pid = 2 ∧
        (k.mutexes ⟨0, by decide⟩).locks ≠ 0 ∧ (k.mutexes ⟨0, by decide⟩).owner = some i ∧
        ∀ x ∈ tr, DestroysForgettable x))
    (fun k hk => (⟨Image.blank, hk⟩ : Start k)) (by decide +kernel)
  obtain ⟨hforgets, howned⟩ := destroy_forgets hrun
  split at hP
  · cases hP
  · rename_i rc k' hd
    obtain ⟨rfl, hact, hf, hp, hi, hlocks, hown, hx⟩ := of_decide_eq_true hP
    obtain ⟨hlive, hcalled⟩ := (howned hx ⟨0, by decide⟩).owner hlocks i hown
    rw [hi] at hcalled
    exact ⟨tr, k, k', e, p, i, hrun, hp, (hforgets e p k' hact (by decide) hd).mpr hf, hown, hlive,
      hi, hcalled⟩

/-- Process 1 is destroyed while it holds the mutex. Its entry stays the owner, and
process 20, the next in this entry, unlocks the mutex, which it has never locked. -/
theorem destroy_keeps_owner : ∃ (tr : List KernelStep) (x : KernelStep) (mid : List KernelStep)
    (k k' : Kernel) (p : Fin procMax),
      Trace.Run Start (Trace.Exec kernelContextEnter fun _ _ _ => True) (tr ++ x :: mid) k ∧
      x.act.1.event = .destroy ∧ (x.pre.entered x.act.1).activeProc = some p ∧
      (x.pre.procTable p).pid = 1 ∧ (x.pre.entered x.act.1).kprocDestroy (some p) = .ok (0, k') ∧
      (k'.mutexes ⟨0, by decide⟩).locks = 1 ∧ (k'.mutexes ⟨0, by decide⟩).owner = some p ∧
      ¬ Forgotten (x.pre.entered x.act.1) p k' ∧
      lockCalls ⟨0, by decide⟩ (tr ++ x :: mid) = [1] ∧
      unlockCalls ⟨0, by decide⟩ (tr ++ x :: mid) = [20] := by
  let p : Fin procMax := ⟨1, by decide⟩
  let events : List Event := List.replicate 11 .tick ++ [.mutex .init, .mutex (.lock 0), .destroy] ++
    List.replicate 10 (.create 7 (some []) .user) ++ List.replicate 18 .destroy ++
    [.mutex (.unlock 0)]
  obtain ⟨tr, k, hrun, hP⟩ := run_of_test (fun _ _ _ => True) (kernelInit Image.blank)
    (events.map Event.entry)
    (fun tr _ => match tr.drop 13 with
      | [] => false
      | x :: _ => match (x.pre.entered x.act.1).kprocDestroy (some p) with
        | .error _ => false
        | .ok (rc, k') => decide (rc = 0 ∧ x.act.1.event = .destroy ∧
          (x.pre.entered x.act.1).activeProc = some p ∧
          (x.pre.procTable p).pid = 1 ∧ (k'.mutexes ⟨0, by decide⟩).locks = 1 ∧
          (k'.mutexes ⟨0, by decide⟩).owner = some p ∧ lockCalls ⟨0, by decide⟩ tr = [1] ∧
          unlockCalls ⟨0, by decide⟩ tr = [20]))
    (fun k hk => (⟨Image.blank, hk⟩ : Start k)) (by decide +kernel)
  split at hP
  · cases hP
  · rename_i x mid hdrop
    have hsplit : tr.take 13 ++ x :: mid = tr := by rw [← hdrop, List.take_append_drop]
    split at hP
    · cases hP
    · rename_i rc k' hd
      obtain ⟨rfl, hev, hact, hpid, hlocks, hown, hL, hU⟩ := of_decide_eq_true hP
      refine ⟨tr.take 13, x, mid, k, k', p, ?_, hev, hact, hpid, hd, hlocks, hown, fun hf => ?_, ?_,
        ?_⟩
      · rw [hsplit]
        exact hrun
      · refine hf.owner ⟨0, by decide⟩ ?_ hown
        rw [hlocks]
        decide
      · rw [hsplit]
        exact hL
      · rw [hsplit]
        exact hU

end Kernel
end UnivOS
