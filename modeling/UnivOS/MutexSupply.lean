import UnivOS.MutexPool

/-! # The last mutex id

`kmutex_init` tests whether the queue is empty after it has taken an id off it.
The id that empties the queue is therefore neither returned nor kept: a queue of
`n` ids serves `n - 1` calls, and the next one loses the last id.
-/
namespace UnivOS
namespace Kernel
open Word

variable {k : Kernel} {tr : List MutexStep}

/-- `n` calls of `kmutex_init` one after the other, and what they return. -/
def kmutexInits : Nat → Kernel → List Int × Kernel
  | 0, k => ([], k)
  | n + 1, k =>
    let (rc, k) := k.kmutexInit
    let (rcs, k) := kmutexInits n k
    (rc :: rcs, k)

/-- The queued ids are given out in order, by as many calls, and no other. -/
structure UsesEveryId (k : Kernel) : Prop where
  granted : (kmutexInits k.mutexQueue.toList.length k).1 = k.mutexQueue.toList
  exhausted : (kmutexInits k.mutexQueue.toList.length k).2.kmutexInit.1 = -1

/-- A `kmutex_init` that returns -1 has changed nothing. -/
def FailsCleanly (x : MutexStep) : Prop :=
  x.act.1.call = .init → x.act.2 = -1 → SameMutexes x.pre x.post

/-- The call does not ask for a mutex while one id is left. -/
def NotLast (x : MutexStep) : Prop :=
  x.act.1.call = .init → x.pre.mutexQueue.toList.length ≠ 1

instance (x : MutexStep) : Decidable (NotLast x) := inferInstanceAs (Decidable (_ → _ ≠ _))

/-! ## One call -/

/-- The queued ids are those of mutexes. -/
def IdsOk (k : Kernel) : Prop := ∀ id ∈ k.mutexQueue.toList, ∃ m : Fin mutexMax, id = ((m : Nat) : Int)

theorem kmutexInit_nil (h : k.mutexQueue.toList = []) : k.kmutexInit = (-1, k) := by
  rw [kmutexInit, Queue.queueOut_none.mpr h]

/-- The last id is lost. -/
theorem kmutexInit_last {id : Int} (h : k.mutexQueue.toList = [id]) :
    k.kmutexInit.1 = -1 ∧ k.kmutexInit.2.mutexQueue.toList = [] := by
  obtain ⟨q, hq, hl⟩ := Queue.queueOut_cons h
  have hempty : q.queueIsEmpty = true := Queue.queueIsEmpty_iff.mpr hl
  rw [kmutexInit, hq]
  dsimp only
  rw [if_pos hempty]
  exact ⟨rfl, hl⟩

/-- An id with others behind it is given out. -/
theorem kmutexInit_next (hids : IdsOk k) {id id' : Int} {l : List Int}
    (h : k.mutexQueue.toList = id :: id' :: l) :
    k.kmutexInit.1 = id ∧ k.kmutexInit.2.mutexQueue.toList = id' :: l := by
  obtain ⟨q, hq, hl⟩ := Queue.queueOut_cons h
  obtain ⟨m, rfl⟩ := hids id (by rw [h]; exact List.mem_cons_self)
  have hrest : ¬ q.queueIsEmpty = true := by
    rw [Queue.queueIsEmpty_iff, hl]
    exact List.cons_ne_nil id' l
  rw [kmutexInit, hq]
  dsimp only
  rw [if_neg hrest, index_val]
  exact ⟨rfl, hl⟩

theorem IdsOk.kmutexInit (hids : IdsOk k) : IdsOk k.kmutexInit.2 := by
  intro id hid
  refine hids id ?_
  cases kmutexInit_effect k with
  | refused _ _ hused =>
    obtain ⟨used, hused⟩ := hused
    exact hused ▸ List.mem_append_right used hid
  | allocated m _ htaken _ => exact htaken ▸ List.mem_cons_of_mem _ hid

/-- A call fails without a trace unless it takes the last id. -/
theorem kmutexInit_clean_iff (hids : IdsOk k) :
    (k.kmutexInit.1 = -1 → SameMutexes k k.kmutexInit.2) ↔ k.mutexQueue.toList.length ≠ 1 := by
  rcases hl : k.mutexQueue.toList with _ | ⟨id, _ | ⟨id', l⟩⟩
  · rw [kmutexInit_nil hl]
    exact iff_of_true (fun _ => .refl k) nofun
  · obtain ⟨hrc, hlost⟩ := kmutexInit_last hl
    refine iff_of_false (fun h => ?_) fun h => h rfl
    rw [(h hrc).mutexQueue, hl] at hlost
    exact absurd hlost (List.cons_ne_nil id [])
  · obtain ⟨m, rfl⟩ := hids id (by rw [hl]; exact List.mem_cons_self)
    obtain ⟨hrc, _⟩ := kmutexInit_next hids hl
    refine iff_of_true (fun h => ?_) nofun
    rw [hrc] at h
    omega

/-! ## Consecutive calls -/

/-- All ids but the last are given out in order. -/
theorem kmutexInits_take : ∀ (n : Nat) {k : Kernel}, IdsOk k → n < k.mutexQueue.toList.length →
    (kmutexInits n k).1 = k.mutexQueue.toList.take n ∧
      (kmutexInits n k).2.mutexQueue.toList = k.mutexQueue.toList.drop n
  | 0, k, _, _ => ⟨rfl, rfl⟩
  | n + 1, k, hids, hn => by
    rcases hl : k.mutexQueue.toList with _ | ⟨id, _ | ⟨id', l⟩⟩
    · rw [hl] at hn
      exact absurd hn (Nat.not_lt_zero _)
    · rw [hl, List.length_singleton] at hn
      omega
    · obtain ⟨hrc, hrest⟩ := kmutexInit_next hids hl
      rw [hl, List.length_cons] at hn
      obtain ⟨hrcs, hleft⟩ := kmutexInits_take n hids.kmutexInit (by rw [hrest]; omega)
      rw [hrest] at hrcs hleft
      refine ⟨?_, hleft⟩
      show k.kmutexInit.1 :: (kmutexInits n k.kmutexInit.2).1 = _
      rw [hrc, hrcs, List.take_succ_cons]

theorem kmutexInits_succ : ∀ (n : Nat) (k : Kernel), (kmutexInits (n + 1) k).1 =
    (kmutexInits n k).1 ++ [(kmutexInits n k).2.kmutexInit.1]
  | 0, _ => rfl
  | n + 1, k => congrArg (k.kmutexInit.1 :: ·) (kmutexInits_succ n k.kmutexInit.2)

theorem kmutexInits_length : ∀ (n : Nat) (k : Kernel), (kmutexInits n k).1.length = n
  | 0, _ => rfl
  | n + 1, k => congrArg (· + 1) (kmutexInits_length n k.kmutexInit.2)

/-- The first `n` ids are given out by `n` calls exactly if there is another one. -/
theorem kmutexInits_eq_take_iff (hids : IdsOk k) {n : Nat} (hn : n ≤ k.mutexQueue.toList.length) :
    (kmutexInits n k).1 = k.mutexQueue.toList.take n ↔ n < k.mutexQueue.toList.length ∨ n = 0 := by
  constructor
  · intro h
    by_contra hlast
    obtain ⟨j, rfl⟩ := Nat.exists_eq_succ_of_ne_zero (fun h0 => hlast (.inr h0))
    have hj : j < k.mutexQueue.toList.length := by omega
    obtain ⟨_, hleft⟩ := kmutexInits_take j hids hj
    -- one id is left when the last of the calls is made
    have hone : (kmutexInits j k).2.mutexQueue.toList = [k.mutexQueue.toList[j]] := by
      rw [hleft, List.drop_eq_getElem_cons hj, List.drop_eq_nil_of_le (by omega)]
    have hrc := (kmutexInit_last hone).1
    have hmem : (-1 : Int) ∈ k.mutexQueue.toList := by
      refine List.take_subset (j + 1) _ ?_
      rw [← h, kmutexInits_succ, hrc]
      simp
    obtain ⟨m, hm⟩ := hids (-1) hmem
    omega
  · rintro (hlt | rfl)
    · exact (kmutexInits_take n hids hlt).1
    · rfl

theorem usesEveryId_iff (hids : IdsOk k) : UsesEveryId k ↔ k.mutexQueue.toList = [] := by
  constructor
  · intro h
    have hall : (kmutexInits k.mutexQueue.toList.length k).1 =
        k.mutexQueue.toList.take k.mutexQueue.toList.length := by
      rw [List.take_length]
      exact h.granted
    rcases (kmutexInits_eq_take_iff hids le_rfl).mp hall with hlt | hzero
    · exact absurd hlt (Nat.lt_irrefl _)
    · exact List.length_eq_zero_iff.mp hzero
  · intro hnil
    refine ⟨?_, ?_⟩
    · rw [hnil]
      rfl
    · rw [hnil]
      exact congrArg Prod.fst (kmutexInit_nil hnil)

/-! ## Runs -/

theorem kmutexDestroy_idsOk (hids : IdsOk k) (id : Int) : IdsOk (k.kmutexDestroy id).2 := by
  unfold kmutexDestroy
  split
  · exact hids
  · rename_i m hm
    split
    · exact hids
    · intro x hx
      change x ∈ ((k.mutexQueue.queueIn id).getD k.mutexQueue).toList at hx
      cases hq : k.mutexQueue.queueIn id with
      | none =>
        rw [hq] at hx
        exact hids x hx
      | some q =>
        rw [hq, Option.getD_some, Queue.queueIn_spec hq, List.mem_append, List.mem_singleton] at hx
        rcases hx with hx | rfl
        · exact hids x hx
        · exact ⟨m, index_eq_some.mp hm⟩

/-- No mutex call puts anything but a mutex id into the queue. -/
theorem mutexCall_idsOk (hids : IdsOk k) {call : MutexCall} {rc : Int} {k' : Kernel}
    (h : k.mutexCall call = .ok (rc, k')) : IdsOk k' := by
  have hsame : k'.mutexQueue = k.mutexQueue → IdsOk k' := by
    intro hq x hx
    exact hids x (hq ▸ hx)
  cases call with
  | init => exact eq_of_ok h ▸ hids.kmutexInit
  | destroy id => exact eq_of_ok h ▸ kmutexDestroy_idsOk hids id
  | lock id =>
    cases hi : index mutexMax id with
    | none =>
      rw [mutexCall, kmutexLock, hi] at h
      cases h
      exact hids
    | some m =>
      rw [index_eq_some.mp hi] at h
      exact hsame (kmutexLock_cases h).2.onlyMutex.mutexQueue
  | unlock id =>
    cases hi : index mutexMax id with
    | none =>
      rw [mutexCall, kmutexUnlock, hi] at h
      cases h
      exact hids
    | some m =>
      rw [index_eq_some.mp hi] at h
      exact hsame (kmutexUnlock_cases h).onlyMutex.mutexQueue

theorem idsOk_of_run {allowed : Kernel → MutexUse → Prop} (h : MutexRun allowed tr k) : IdsOk k := by
  refine h.state_invariant ?_ ?_
  · rintro k ⟨k₀, rfl⟩
    exact (PoolOk.start k₀).range
  · intro tr k a k' _ hn hids
    refine mutexCall_idsOk ?_ hn.2
    exact hids

theorem MutexUse.exec_init {a : MutexUse} {rc : Int} {k' : Kernel} (hcall : a.call = .init)
    (h : a.exec k = .ok (rc, k')) : ({ a.context with
      mutexes := k.mutexes, mutexQueue := k.mutexQueue } : Kernel).kmutexInit = (rc, k') := by
  rw [MutexUse.exec, hcall] at h
  exact Except.ok.inj h

/-- **`kmutex_init` gives out all the ids it has only when it has none, and fails
cleanly exactly in the runs that never ask for the last one.** -/
theorem kmutex_init_supply_iff (h : MutexRun (fun _ _ => True) tr k) :
    (UsesEveryId k ↔ k.mutexQueue.toList = []) ∧
      (∀ n ≤ k.mutexQueue.toList.length, (kmutexInits n k).1 = k.mutexQueue.toList.take n ↔
        n < k.mutexQueue.toList.length ∨ n = 0) ∧
      ((∀ x ∈ tr, FailsCleanly x) ↔ ∀ x ∈ tr, NotLast x) := by
  have hids := idsOk_of_run h
  refine ⟨usesEveryId_iff hids, fun n hn => kmutexInits_eq_take_iff hids hn, ?_⟩
  have hstep : ∀ x ∈ tr, FailsCleanly x ↔ NotLast x := by
    refine h.invariant (P := fun tr _ => ∀ x ∈ tr, FailsCleanly x ↔ NotLast x) ?_ ?_
    · intro _ _ x hx
      cases hx
    · rintro tr k ⟨a, rc⟩ k' hrun ⟨_, he⟩ ih x hx
      rcases List.mem_append.mp hx with hx | hx
      · exact ih x hx
      · rw [List.mem_singleton.mp hx]
        refine imp_congr_right fun hcall => ?_
        let k₀ : Kernel := { a.context with mutexes := k.mutexes, mutexQueue := k.mutexQueue }
        have hinit : k₀.kmutexInit = (rc, k') := MutexUse.exec_init hcall he
        have hclean := kmutexInit_clean_iff (k := k₀) fun id hid => idsOk_of_run hrun id hid
        have hsame : SameMutexes k₀ k' ↔ SameMutexes k k' :=
          ⟨fun h => ⟨h.mutexes, h.mutexQueue⟩, fun h => ⟨h.mutexes, h.mutexQueue⟩⟩
        rwa [hinit, hsame] at hclean
  exact forall₂_congr hstep

/-- Fifteen mutexes are given out, and the sixteenth call has not been made. -/
theorem kmutex_init_supply_fifteen : ∃ (tr : List MutexStep) (k : Kernel), tr.length = 15 ∧
    k.mutexQueue.toList = [15] ∧ (∀ x ∈ tr, FailsCleanly x) ∧ ¬ UsesEveryId k := by
  have htest : (Trace.walk MutexUse.exec (fun _ _ _ => decide True)
      ((List.replicate 15 MutexCall.init).map (⟨secondActive, ·⟩)) []
      secondActive.kmutexesInit).any (fun r => decide (r.1.length = 15 ∧
        r.2.mutexQueue.toList = [15] ∧ ∀ x ∈ r.1, NotLast x)) = true := by
    decide +kernel
  obtain ⟨⟨tr, k⟩, hrun, hP⟩ := mutexRun_of_walk htest
  obtain ⟨hlen, hqueue, hlast⟩ := of_decide_eq_true hP
  obtain ⟨huses, _, hclean⟩ := kmutex_init_supply_iff hrun
  refine ⟨tr, k, hlen, hqueue, hclean.mpr hlast, fun hall => ?_⟩
  have hnil := huses.mp hall
  rw [hqueue] at hnil
  exact absurd hnil (List.cons_ne_nil _ _)

/-- Of the sixteen ids after `kmutexes_init` the sixteenth call returns none, and
takes the last off the queue. -/
theorem kmutex_init_loses_last : ∃ (tr : List MutexStep) (k : Kernel),
    MutexRun (fun _ _ => True) tr k ∧ tr.map (·.act.1.call) = List.replicate 16 .init ∧
      tr.map (·.act.2) = (List.range 15).map Int.ofNat ++ [-1] ∧ k.mutexQueue.toList = [] ∧
      secondActive.kmutexesInit.mutexQueue.toList = (List.range 16).map Int.ofNat ∧
      ¬ UsesEveryId secondActive.kmutexesInit ∧ ¬ ∀ x ∈ tr, FailsCleanly x := by
  have htest : (Trace.walk MutexUse.exec (fun _ _ _ => decide True)
      ((List.replicate 16 MutexCall.init).map (⟨secondActive, ·⟩)) []
      secondActive.kmutexesInit).any (fun r =>
        decide (r.1.map (·.act.1.call) = List.replicate 16 .init ∧
          r.1.map (·.act.2) = (List.range 15).map Int.ofNat ++ [-1] ∧ r.2.mutexQueue.toList = [] ∧
          ∃ x ∈ r.1, x.act.1.call = .init ∧ x.act.2 = -1 ∧
            x.pre.mutexQueue.toList ≠ x.post.mutexQueue.toList)) = true := by
    decide +kernel
  obtain ⟨⟨tr, k⟩, hrun, hP⟩ := mutexRun_of_walk htest
  obtain ⟨hcalls, hres, hempty, x, hx, hcall, hrc, hlost⟩ := of_decide_eq_true hP
  have hfull : secondActive.kmutexesInit.mutexQueue.toList = (List.range 16).map Int.ofNat :=
    Queue.fill_toList (by decide)
  refine ⟨tr, k, hrun, hcalls, hres, hempty, hfull, fun huses => ?_, fun hclean => ?_⟩
  · have hnil := (usesEveryId_iff (PoolOk.start secondActive).range).mp huses
    rw [hfull] at hnil
    exact absurd hnil (by decide)
  · exact hlost (by rw [(hclean x hx hcall hrc).mutexQueue])

end Kernel
end UnivOS
