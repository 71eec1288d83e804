import UnivOS.Kernel
import UnivOS.Lib.IdPool

/-! # The mutex ids

`mutex_queue` gives out the ids of unused mutexes as long as nobody uses a mutex
whose id is still in it. Destroying or locking one is possible, because
`kmutex_destroy` and `kmutex_lock` do not look at `allocated`.
-/
namespace UnivOS
namespace Kernel
open Word

variable {k k' k₀ : Kernel} {i : Fin procMax} {m : Fin mutexMax} {rc id : Int}

/-! ## Runs of mutex calls -/

/-- A call finds the mutexes as the call before left them, and the rest of the
kernel, the active process with it, as it is at that time. -/
structure MutexUse where
  context : Kernel
  call : MutexCall

def MutexUse.exec (a : MutexUse) (k : Kernel) : Res (Int × Kernel) :=
  { a.context with mutexes := k.mutexes, mutexQueue := k.mutexQueue }.mutexCall a.call

abbrev MutexStep := Trace.Step Kernel (MutexUse × Int)

abbrev MutexRun (allowed : Kernel → MutexUse → Prop) :=
  Trace.Run (fun k => ∃ k₀ : Kernel, k = k₀.kmutexesInit)
    (Trace.Exec MutexUse.exec fun _ k a => allowed k a)

/-- The id has been returned by `kmutex_init` and not been destroyed since. -/
def GivenOut (tr : List MutexStep) (m : Fin mutexMax) : Prop :=
  ∃ tr₁ x tr₂, tr = tr₁ ++ x :: tr₂ ∧ x.act.1.call = .init ∧ x.act.2 = ((m : Nat) : Int) ∧
    ∀ y ∈ tr₂, ¬ (y.act.1.call = .destroy ((m : Nat) : Int) ∧ y.act.2 = 0)

/-- The life of mutex ids: the allocator has each id once and none that is given
out, and what it gives out is not allocated, not locked and has no waiters. -/
structure IdLifecycle (tr : List MutexStep) (k : Kernel) : Prop where
  nodup : k.mutexQueue.toList.Nodup
  givenOut : ∀ m : Fin mutexMax, GivenOut tr m → ((m : Nat) : Int) ∉ k.mutexQueue.toList
  unused : ∀ x ∈ tr, ∀ m : Fin mutexMax, x.act.1.call = .init → x.act.2 = ((m : Nat) : Int) →
    (x.pre.mutexes m).allocated = 0 ∧ (x.pre.mutexes m).locks = 0 ∧
      (x.pre.mutexes m).waitQueue.toList = []

/-- The call does not destroy or lock a mutex whose id is still to be given out. -/
def NotFree (k : Kernel) (a : MutexUse) : Prop :=
  match a.call with
  | .destroy id => id ∉ k.mutexQueue.toList
  | .lock id => id ∉ k.mutexQueue.toList
  | _ => True

instance (k : Kernel) (a : MutexUse) : Decidable (NotFree k a) :=
  match a with
  | ⟨_, .init⟩ => .isTrue trivial
  | ⟨_, .destroy id⟩ => inferInstanceAs (Decidable (id ∉ k.mutexQueue.toList))
  | ⟨_, .lock id⟩ => inferInstanceAs (Decidable (id ∉ k.mutexQueue.toList))
  | ⟨_, .unlock _⟩ => .isTrue trivial

variable {tr : List MutexStep}

/-- What the runs keep: the ids in the allocator are those of cleared mutexes. -/
structure PoolOk (tr : List MutexStep) (k : Kernel) : Prop where
  nodup : k.mutexQueue.toList.Nodup
  range : ∀ id ∈ k.mutexQueue.toList, ∃ m : Fin mutexMax, id = ((m : Nat) : Int)
  cleared : ∀ m : Fin mutexMax, ((m : Nat) : Int) ∈ k.mutexQueue.toList → k.mutexes m = Mutex.zero
  givenOut : ∀ m : Fin mutexMax, GivenOut tr m → ((m : Nat) : Int) ∉ k.mutexQueue.toList

/-- A step gives out an id that `kmutex_init` returns, and takes back one that is
destroyed. -/
theorem givenOut_snoc {x : MutexStep} (h : GivenOut (tr ++ [x]) m) :
    (GivenOut tr m ∧ ¬ (x.act.1.call = .destroy ((m : Nat) : Int) ∧ x.act.2 = 0)) ∨
      x.act.1.call = .init ∧ x.act.2 = ((m : Nat) : Int) := by
  obtain ⟨tr₁, y, tr₂, he, hinit, hres, hlater⟩ := h
  rcases List.eq_nil_or_concat tr₂ with rfl | ⟨tr₃, z, rfl⟩
  · obtain ⟨_, hxy⟩ := List.append_inj' he rfl
    rw [(List.cons.inj hxy).1]
    exact .inr ⟨hinit, hres⟩
  · rw [List.concat_eq_append] at he hlater
    rw [← List.cons_append, ← List.append_assoc] at he
    obtain ⟨htr, hxz⟩ := List.append_inj' he rfl
    rw [(List.cons.inj hxz).1]
    refine .inl ⟨⟨tr₁, y, tr₃, htr, hinit, hres, fun w hw => ?_⟩, ?_⟩
    · exact hlater w (List.mem_append_left _ hw)
    · exact hlater z (by simp)

/-- A call that leaves the allocator and the mutexes in it alone. -/
theorem PoolOk.quiet (h : PoolOk tr k) {x : MutexStep} (hq : k'.mutexQueue = k.mutexQueue)
    (hm : ∀ m : Fin mutexMax, ((m : Nat) : Int) ∈ k.mutexQueue.toList → k'.mutexes m = k.mutexes m)
    (hinit : x.act.1.call ≠ .init) : PoolOk (tr ++ [x]) k' := by
  refine ⟨hq ▸ h.nodup, hq ▸ h.range, fun m hmem => ?_, fun m hout => ?_⟩
  · rw [hq] at hmem
    rw [hm m hmem, h.cleared m hmem]
  · rcases givenOut_snoc hout with ⟨hout, _⟩ | ⟨hcall, _⟩
    · exact hq ▸ h.givenOut m hout
    · exact absurd hcall hinit

theorem PoolOk.init (h : PoolOk tr k) {x : MutexStep} (he : InitEffect k x.act.2 k') :
    PoolOk (tr ++ [x]) k' ∧
      ∀ m : Fin mutexMax, x.act.2 = ((m : Nat) : Int) → k.mutexes m = Mutex.zero := by
  have htakes := he.takes h.nodup h.cleared
  refine ⟨⟨htakes.nodup, fun id hid => h.range id (htakes.subset hid), htakes.cleared,
    fun m hout hm => ?_⟩, fun m hres => h.cleared m (htakes.given m hres).1⟩
  rcases givenOut_snoc hout with ⟨hout, _⟩ | ⟨_, hres⟩
  · exact h.givenOut m hout (htakes.subset hm)
  · exact (htakes.given m hres).2 hm

/-- A destroyed mutex goes back to the allocator, cleared. -/
theorem PoolOk.destroy (h : PoolOk tr k) {x : MutexStep}
    (hc : x.act.1.call = .destroy ((m : Nat) : Int)) (hout : ((m : Nat) : Int) ∉ k.mutexQueue.toList)
    (he : k.kmutexDestroy ((m : Nat) : Int) = (x.act.2, k')) : PoolOk (tr ++ [x]) k' := by
  have hinit : x.act.1.call ≠ .init := by rw [hc]; exact nofun
  rw [kmutexDestroy, index_val] at he
  dsimp only at he
  split at he
  · obtain ⟨_, rfl⟩ := Prod.mk.inj he
    exact h.quiet rfl (fun _ _ => rfl) hinit
  · obtain ⟨hres, rfl⟩ := Prod.mk.inj he
    have hqueue : ∀ id, id ∈ ((k.mutexQueue.queueIn ((m : Nat) : Int)).getD k.mutexQueue).toList →
        id ∈ k.mutexQueue.toList ∨ id = ((m : Nat) : Int) := by
      intro id hid
      cases hq : k.mutexQueue.queueIn ((m : Nat) : Int) with
      | none => rw [hq] at hid; exact .inl hid
      | some q =>
        rw [hq, Option.getD_some, Queue.queueIn_spec hq, List.mem_append, List.mem_singleton] at hid
        exact hid
    refine ⟨?_, fun id hid => ?_, fun n hn => ?_, fun n hn hmem => ?_⟩
    · show ((k.mutexQueue.queueIn ((m : Nat) : Int)).getD k.mutexQueue).toList.Nodup
      cases hq : k.mutexQueue.queueIn ((m : Nat) : Int) with
      | none => exact h.nodup
      | some q =>
        rw [Option.getD_some, Queue.queueIn_spec hq, List.nodup_append]
        refine ⟨h.nodup, List.nodup_singleton _, fun a ha b hb hab => hout ?_⟩
        rw [List.mem_singleton] at hb
        exact hb ▸ hab ▸ ha
    · rcases hqueue id hid with hid | rfl
      · exact h.range id hid
      · exact ⟨m, rfl⟩
    · by_cases hnm : n = m
      · rw [hnm]
        exact Function.update_self ..
      · refine (Function.update_of_ne hnm ..).trans (h.cleared n ?_)
        exact (hqueue _ hn).resolve_right fun he => hnm (IdPool.val_inj.mp he)
    · rcases givenOut_snoc hn with ⟨hn, hdestroyed⟩ | ⟨hcall, _⟩
      · rcases hqueue _ hmem with hmem | he
        · exact h.givenOut n hn hmem
        · exact hdestroyed ⟨by rw [hc, he], hres.symm⟩
      · exact hinit hcall

/-- Locking or unlocking a mutex outside the allocator. -/
theorem PoolOk.only (h : PoolOk tr k) {x : MutexStep} (ho : OnlyMutex k k' m)
    (hout : ((m : Nat) : Int) ∉ k.mutexQueue.toList) (hinit : x.act.1.call ≠ .init) :
    PoolOk (tr ++ [x]) k' :=
  h.quiet ho.mutexQueue (fun n hn => ho.mutexes n fun he => hout (he ▸ hn)) hinit

/-- A call that names no free id keeps the pool, and an id it gives out is that of
a cleared mutex. -/
theorem PoolOk.step (h : PoolOk tr k) {a : MutexUse} (ha : NotFree k a)
    (he : a.exec k = .ok (rc, k')) : PoolOk (tr ++ [⟨k, (a, rc), k'⟩]) k' ∧
      ∀ m : Fin mutexMax, a.call = .init → rc = ((m : Nat) : Int) → k.mutexes m = Mutex.zero := by
  obtain ⟨context, call⟩ := a
  let k₀ : Kernel := { context with mutexes := k.mutexes, mutexQueue := k.mutexQueue }
  have h₀ : PoolOk tr k₀ := ⟨h.nodup, h.range, h.cleared, h.givenOut⟩
  have hcall : k₀.mutexCall call = .ok (rc, k') := he
  have hrefused : k₀.mutexCall call = .ok (-1, k₀) → call ≠ .init →
      PoolOk (tr ++ [⟨k, (⟨context, call⟩, rc), k'⟩]) k' := by
    intro hk hne
    have hk' : k' = k₀ := (Prod.mk.inj (Except.ok.inj (hcall.symm.trans hk))).2
    exact h₀.quiet (by rw [hk']) (fun m _ => by rw [hk']) hne
  cases call with
  | init =>
    obtain ⟨rfl, rfl⟩ := Prod.mk.inj (Except.ok.inj hcall)
    obtain ⟨hpool, hzero⟩ := h₀.init (x := ⟨k, (⟨context, .init⟩, _), _⟩) (kmutexInit_effect k₀)
    exact ⟨hpool, fun m _ hm => hzero m hm⟩
  | destroy id =>
    refine ⟨?_, by simp⟩
    cases hi : index mutexMax id with
    | none => exact hrefused (by rw [mutexCall, kmutexDestroy, hi]) (by simp)
    | some m =>
      obtain rfl := index_eq_some.mp hi
      exact h₀.destroy rfl ha (Except.ok.inj hcall)
  | lock id =>
    refine ⟨?_, by simp⟩
    cases hi : index mutexMax id with
    | none => exact hrefused (by rw [mutexCall, kmutexLock, hi]) (by simp)
    | some m =>
      obtain rfl := index_eq_some.mp hi
      exact h₀.only (kmutexLock_cases hcall).2.onlyMutex ha (by simp)
  | unlock id =>
    refine ⟨?_, by simp⟩
    cases hi : index mutexMax id with
    | none => exact hrefused (by rw [mutexCall, kmutexUnlock, hi]) (by simp)
    | some m =>
      obtain rfl := index_eq_some.mp hi
      have hunlock := kmutexUnlock_cases hcall
      by_cases hm : ((m : Nat) : Int) ∈ k.mutexQueue.toList
      · -- a free mutex is not locked
        have hlocks : (k₀.mutexes m).locks = 0 := by rw [h₀.cleared m hm]; rfl
        have hk' := hunlock.of_free hlocks
        exact h₀.quiet (by rw [hk']) (fun m _ => by rw [hk']) (by simp)
      · exact h₀.only hunlock.onlyMutex hm (by simp)

theorem PoolOk.start (k : Kernel) : PoolOk [] k.kmutexesInit := by
  have hq : k.kmutexesInit.mutexQueue.toList = (List.range mutexMax).map Int.ofNat :=
    Queue.fill_toList (by decide)
  have hex := IdPool.exact_range mutexMax
  rw [← hq] at hex
  refine ⟨hex.nodup, fun id hid => ?_, fun _ _ => rfl, fun m hm => ?_⟩
  · obtain ⟨m, hm, _⟩ := (hex.mem_iff id).mp hid
    exact ⟨m, hm.symm⟩
  · obtain ⟨tr₁, x, tr₂, he, _⟩ := hm
    simp at he

/-- As long as no free id is destroyed or locked, mutex ids live correctly. -/
theorem mutex_ids_of_run (h : MutexRun NotFree tr k) : IdLifecycle tr k := by
  have hinv : PoolOk tr k ∧ ∀ x ∈ tr, ∀ m : Fin mutexMax, x.act.1.call = .init →
      x.act.2 = ((m : Nat) : Int) → x.pre.mutexes m = Mutex.zero := by
    refine h.invariant (P := fun tr k => PoolOk tr k ∧ ∀ x ∈ tr, ∀ m : Fin mutexMax,
      x.act.1.call = .init → x.act.2 = ((m : Nat) : Int) → x.pre.mutexes m = Mutex.zero) ?_ ?_
    · rintro k ⟨k₀, rfl⟩
      exact ⟨PoolOk.start k₀, fun x hx => absurd hx List.not_mem_nil⟩
    · intro tr k a k' _ hn ⟨hpool, hunused⟩
      obtain ⟨hpool', hzero⟩ := hpool.step hn.1 hn.2
      refine ⟨hpool', fun x hx => ?_⟩
      rcases List.mem_append.mp hx with hx | hx
      · exact hunused x hx
      · rw [List.mem_singleton.mp hx]
        exact hzero
  obtain ⟨hpool, hunused⟩ := hinv
  refine ⟨hpool.nodup, hpool.givenOut, fun x hx m hc hm => ?_⟩
  rw [hunused x hx m hc hm]
  exact ⟨rfl, rfl, rfl⟩

/-- A kernel whose second process table entry is active. -/
def secondActive : Kernel := { zero Image.blank with activeProc := some ⟨1, one_lt_procMax⟩ }

theorem mutexRun_of_walk {allowed : Kernel → MutexUse → Prop} [∀ k a, Decidable (allowed k a)]
    {calls : List MutexCall} {P : List MutexStep × Kernel → Bool}
    (h : (Trace.walk MutexUse.exec (fun _ k a => decide (allowed k a))
      (calls.map (⟨secondActive, ·⟩)) [] secondActive.kmutexesInit).any P = true) :
    ∃ r, MutexRun allowed r.1 r.2 ∧ P r = true :=
  Trace.Run.of_walk ⟨secondActive, rfl⟩ h

/-- A mutex is taken, used, given back, and the next one is taken. -/
theorem mutex_ids_of_run_reuse : ∃ (tr : List MutexStep) (k : Kernel),
    tr.map (·.act.1.call) = [.init, .lock 0, .unlock 0, .destroy 0, .init, .destroy 99] ∧
      tr.map (·.act.2) = [0, 1, 0, 0, 1, -1] ∧ IdLifecycle tr k := by
  let calls : List MutexCall := [.init, .lock 0, .unlock 0, .destroy 0, .init, .destroy 99]
  have htest : (Trace.walk MutexUse.exec (fun _ k a => decide (NotFree k a))
      (calls.map (⟨secondActive, ·⟩)) [] secondActive.kmutexesInit).any (fun r =>
        decide (r.1.map (·.act.1.call) = calls ∧ r.1.map (·.act.2) = [0, 1, 0, 0, 1, -1])) = true := by
    decide +kernel
  obtain ⟨⟨tr, k⟩, hrun, hP⟩ := mutexRun_of_walk htest
  obtain ⟨hcalls, hres⟩ := of_decide_eq_true hP
  exact ⟨tr, k, hcalls, hres, mutex_ids_of_run hrun⟩

/-- Destroying mutex 5 before anyone has asked for it puts its id into the
allocator a second time. -/
theorem mutex_destroy_free : ∃ (tr : List MutexStep) (k : Kernel),
    MutexRun (fun _ _ => True) tr k ∧ tr.map (·.act.1.call) = [.destroy 5] ∧
      tr.map (·.act.2) = [0] ∧ k.mutexQueue.toList.count 5 = 2 ∧ ¬ IdLifecycle tr k := by
  have htest : (Trace.walk MutexUse.exec (fun _ _ _ => decide True)
      ([.destroy 5].map (⟨secondActive, ·⟩)) [] secondActive.kmutexesInit).any (fun r =>
        decide (r.1.map (·.act.1.call) = [.destroy 5] ∧ r.1.map (·.act.2) = [0] ∧
          r.2.mutexQueue.toList.count 5 = 2)) = true := by
    decide +kernel
  obtain ⟨⟨tr, k⟩, hrun, hP⟩ := mutexRun_of_walk htest
  obtain ⟨hcalls, hres, hcount⟩ := of_decide_eq_true hP
  refine ⟨tr, k, hrun, hcalls, hres, hcount, fun hlife => ?_⟩
  have hone : k.mutexQueue.toList.count 5 ≤ 1 := List.nodup_iff_count_le_one.mp hlife.nodup 5
  rw [show k.mutexQueue.toList.count 5 = 2 from hcount] at hone
  exact absurd hone (by decide)

end Kernel
end UnivOS
