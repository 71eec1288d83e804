import UnivOS.Boot

/-! # Taking a process out of a queue

`scheduler_remove` rotates the queue once and drops the process on the way. The
bound of its loop is the size of the queue, one less after the drop, so the loop
stops one entry early: the last one stays at the front.
-/
namespace UnivOS
namespace Kernel

variable {k k' : Kernel} {i : Fin procMax} {w : SchedQueue} {pid : Int} {l : List Int}

/-! ## The queue that is left -/

/-- The last process of the queue is taken off. -/
theorem removed_last {a : List Int} (ha : pid ∉ a) : removed pid 0 (a ++ [pid]) [] = a := by
  rw [removed_append _ a [] ha, List.nil_append, removed, if_pos (by simp), if_pos rfl, removed]

/-- The last entry comes to the front when another process is taken off. -/
theorem removed_middle {a c : List Int} {last : Int} (ha : pid ∉ a) (hc : pid ∉ c) :
    removed pid 0 (a ++ pid :: (c ++ [last])) [] = last :: (a ++ c) := by
  rw [removed_append _ a [] ha, List.nil_append, removed, if_pos (Nat.succ_pos _), if_pos rfl,
    removed_found c a hc]

/-- Whatever its order, the queue has lost that process and no other. -/
theorem removed_perm (hnd : l.Nodup) : (removed pid 0 l []).Perm (l.erase pid) := by
  by_cases hmem : pid ∈ l
  · obtain ⟨a, b, rfl, ha⟩ := List.eq_append_cons_of_mem hmem
    have hb : pid ∉ b := (List.nodup_cons.mp (List.nodup_append.mp hnd).2.1).1
    rw [List.erase_append_right _ ha, List.erase_cons_head]
    rcases List.eq_nil_or_concat b with rfl | ⟨c, last, rfl⟩
    · rw [removed_last ha, List.append_nil]
    · rw [List.concat_eq_append] at hb ⊢
      rw [removed_middle ha fun hc => hb (by simp [hc]), ← List.append_assoc]
      exact List.perm_append_singleton last (a ++ c) |>.symm
  · rw [removed_of_not_mem l [] hmem, List.nil_append, List.erase_of_not_mem hmem]

/-- The order is kept exactly if the process is not queued, is the last one, or has
at most one other beside it. -/
theorem removed_eq_erase (hnd : l.Nodup) :
    removed pid 0 l [] = l.erase pid ↔ pid ∉ l.dropLast ∨ l.length ≤ 2 := by
  by_cases hmem : pid ∈ l
  · obtain ⟨a, b, rfl, ha⟩ := List.eq_append_cons_of_mem hmem
    have hb : pid ∉ b := (List.nodup_cons.mp (List.nodup_append.mp hnd).2.1).1
    rw [List.erase_append_right _ ha, List.erase_cons_head]
    rcases List.eq_nil_or_concat b with rfl | ⟨c, last, rfl⟩
    · rw [removed_last ha, List.dropLast_concat, List.append_nil]
      exact iff_of_true rfl (.inl ha)
    · rw [List.concat_eq_append] at hnd hb ⊢
      rw [removed_middle ha fun hc => hb (by simp [hc])]
      have hsplit : a ++ pid :: (c ++ [last]) = (a ++ pid :: c) ++ [last] := by simp
      rw [hsplit, List.dropLast_concat]
      constructor
      · intro he
        right
        have hlast : last ∉ a ++ c := by
          intro hl
          rw [hsplit, List.nodup_append] at hnd
          refine hnd.2.2 last ?_ last (List.mem_singleton_self last) rfl
          rcases List.mem_append.mp hl with hl | hl
          · exact List.mem_append_left _ hl
          · exact List.mem_append_right _ (List.mem_cons_of_mem _ hl)
        rw [← List.append_assoc] at he
        -- the front of the queue is the last entry, so there is no other
        cases hac : a ++ c with
        | nil =>
          obtain ⟨rfl, rfl⟩ := List.append_eq_nil_iff.mp hac
          simp
        | cons x rest =>
          rw [hac, List.cons_append, List.cons.injEq] at he
          rw [hac, he.1] at hlast
          exact absurd List.mem_cons_self hlast
      · intro hshort
        have hlen := hshort.resolve_left (not_not_intro (by simp))
        simp only [List.length_append, List.length_cons, List.length_nil] at hlen
        have ha₀ : a = [] := List.length_eq_zero_iff.mp (by omega)
        have hc₀ : c = [] := List.length_eq_zero_iff.mp (by omega)
        rw [ha₀, hc₀]
        rfl
  · rw [removed_of_not_mem l [] hmem, List.nil_append, List.erase_of_not_mem hmem]
    exact iff_of_true rfl (.inl fun hm => hmem (List.mem_of_mem_dropLast hm))

/-! ## What `scheduler_remove` is meant to do -/

/-- What `scheduler_remove` is meant to do to the process in entry `i` and its queue. -/
structure Unscheduled (k : Kernel) (i : Fin procMax) (w : SchedQueue) (k' : Kernel) : Prop where
  queue : (k'.schedQueue w).toList = (k.schedQueue w).toList.erase (k.procTable i).pid
  pointer : (k'.procTable i).schedulerQueue = none
  active : k'.activeProc = if k.activeProc = some i then none else k.activeProc

/-- Processes 5 and 10 of the booted kernel are in the run queue. -/
theorem boot_queued : ∃ k, kernelInit Image.blank = .ok k ∧ Initial k ∧
    (k.procTable ⟨5, by decide⟩).schedulerQueue = some .run ∧
    (k.procTable ⟨10, by decide⟩).schedulerQueue = some .run := by
  have htest : (kernelInit Image.blank).toOption.any (fun k =>
      decide ((k.procTable ⟨5, by decide⟩).schedulerQueue = some .run ∧
        (k.procTable ⟨10, by decide⟩).schedulerQueue = some .run)) = true := by
    decide +kernel
  obtain ⟨k, hk, hP⟩ := Loop.of_any htest
  exact ⟨k, hk, Initial.of_kernelInit hk, of_decide_eq_true hP⟩

/-- **`scheduler_remove` deletes one process and keeps the order of the others
exactly if it is not queued or last in its queue, or the queue has at most two.** -/
theorem scheduler_remove_keeps_order_iff (hw : (k.procTable i).schedulerQueue = some w)
    (hnd : (k.schedQueue w).toList.Nodup) :
    ∃ k', k.schedulerRemove (some i) = .ok k' ∧
      (Unscheduled k i w k' ↔ (k.procTable i).pid ∉ (k.schedQueue w).toList.dropLast ∨
        (k.schedQueue w).toList.length ≤ 2) := by
  obtain ⟨r, s, hr, hs, hk⟩ := k.schedulerRemove_eq i
  refine ⟨_, hk, ?_⟩
  rw [← removed_eq_erase hnd]
  have hqueue : ∀ k₁ : Kernel, k₁.runQueue = r → k₁.sleepQueue = s →
      (k₁.schedQueue w).toList = removed (k.procTable i).pid 0 (k.schedQueue w).toList [] := by
    intro k₁ hrun hsleep
    unfold unscheduled at hr hs
    cases w with
    | run =>
      rw [if_pos hw] at hr
      rw [schedQueue, hrun, hr]
    | sleep =>
      rw [if_pos hw] at hs
      rw [schedQueue, hsleep, hs]
  constructor
  · intro h
    exact (hqueue _ rfl rfl).symm.trans h.queue
  · intro he
    refine ⟨(hqueue _ rfl rfl).trans he, ?_, rfl⟩
    exact congrArg Proc.schedulerQueue
      (modifyProc_self k i fun p => { p with schedulerQueue := none })

/-- Process 10 leaves the run queue of the booted kernel, in which it is the last. -/
theorem scheduler_remove_keeps_order_last : ∃ k k' : Kernel, kernelInit Image.blank = .ok k ∧
    k.runQueue.toList = [0, 1, 2, 3, 4, 5, 6, 7, 8, 9, 10] ∧
    k.schedulerRemove (some ⟨10, by decide⟩) = .ok k' ∧
    Unscheduled k ⟨10, by decide⟩ .run k' := by
  obtain ⟨k, hk, hinit, -, hw⟩ := boot_queued
  have hqueue : k.runQueue.toList = [0, 1, 2, 3, 4, 5, 6, 7, 8, 9, 10] := hinit.run
  have hlast := (hinit.used ⟨10, by decide⟩ (by decide)).1
  have hrun : (k.schedQueue .run).toList = [0, 1, 2, 3, 4, 5, 6, 7, 8, 9, 10] := hqueue
  obtain ⟨k', hk', hiff⟩ := scheduler_remove_keeps_order_iff hw (by rw [hrun]; decide)
  refine ⟨k, k', hk, hqueue, hk', hiff.mpr (.inl ?_)⟩
  rw [hrun, hlast]
  decide

/-- Process 5 leaves the run queue of the booted kernel, and process 10 is its head then. -/
theorem scheduler_remove_rotates : ∃ k k' : Kernel, kernelInit Image.blank = .ok k ∧
    k.runQueue.toList = [0, 1, 2, 3, 4, 5, 6, 7, 8, 9, 10] ∧
    (k.procTable ⟨5, by decide⟩).schedulerQueue = some .run ∧
    k.schedulerRemove (some ⟨5, by decide⟩) = .ok k' ∧
    k'.runQueue.toList = [10, 0, 1, 2, 3, 4, 6, 7, 8, 9] ∧
    ¬ Unscheduled k ⟨5, by decide⟩ .run k' := by
  obtain ⟨k, hk, hinit, hw, -⟩ := boot_queued
  have hqueue : k.runQueue.toList = [0, 1, 2, 3, 4, 5, 6, 7, 8, 9, 10] := hinit.run
  have hpid := (hinit.used ⟨5, by decide⟩ (by decide)).1
  obtain ⟨r, s, hr, _, hk'⟩ := k.schedulerRemove_eq ⟨5, by decide⟩
  have hr' : r.toList = [10, 0, 1, 2, 3, 4, 6, 7, 8, 9] := by
    rw [hr, unscheduled, if_pos hw, hpid, schedQueue, hqueue]
    decide
  refine ⟨k, _, hk, hqueue, hw, hk', hr', fun h => ?_⟩
  have herase := h.queue
  rw [schedQueue, schedQueue, hr', hpid, hqueue] at herase
  exact absurd herase (by decide)

end Kernel
end UnivOS
