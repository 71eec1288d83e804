import UnivOS.Kernel
import UnivOS.Lib.IdPool

/-! # The semaphore ids

Every function of `ksem.c` tests `allocated`, so `sem_queue`, the flags and the
wait queues agree after every call: the queue holds the ids of the semaphores not
in use, and nobody waits for those.
-/
namespace UnivOS

/-- The id that a call names. -/
def SemCall.named : SemCall → Option Int
  | .init _ => none
  | .destroy id => some id
  | .wait id => some id
  | .post id => some id

namespace Kernel
open Word

variable {k k' k₁ : Kernel} {s t : Fin semMax} {rc id : Int}

/-! ## What the calls do to the semaphores -/

/-- At most semaphore `s` has changed, and it is in use as before. -/
structure OnlySem (k k' : Kernel) (s : Fin semMax) : Prop where
  semQueue : k'.semQueue = k.semQueue
  other : ∀ t, t ≠ s → k'.semaphores t = k.semaphores t
  allocated : (k'.semaphores s).allocated = (k.semaphores s).allocated

theorem OnlySem.of_modifySem {f : Sem → Sem} (hq : k₁.semQueue = k.semQueue)
    (hs : k₁.semaphores = k.semaphores) (hf : ∀ x, (f x).allocated = x.allocated) :
    OnlySem k (k₁.modifySem s f) s := by
  refine ⟨hq, fun t ht => ?_, ?_⟩
  · rw [modifySem_ne _ _ ht, hs]
  · rw [modifySem_self, hf, hs]

theorem OnlySem.modifySem {f : Sem → Sem} (h : OnlySem k k₁ s)
    (hf : ∀ x, (f x).allocated = x.allocated) : OnlySem k (k₁.modifySem s f) s := by
  refine ⟨h.semQueue, fun t ht => ?_, ?_⟩
  · rw [modifySem_ne _ _ ht, h.other t ht]
  · rw [modifySem_self, hf, h.allocated]

/-- A wait takes a permit, or blocks where there is none. -/
inductive WaitCases (k : Kernel) (s : Fin semMax) (k' : Kernel) : Prop
  | takes (permit : 0 < (k.semaphores s).count) (only : OnlySem k k' s)
      (count : (k'.semaphores s).count = wrap32 ((k.semaphores s).count - 1))
  | blocks (permit : (k.semaphores s).count ≤ 0) (only : OnlySem k k' s)
      (count : (k'.semaphores s).count = (k.semaphores s).count)

theorem WaitCases.only (h : WaitCases k s k') : OnlySem k k' s := by
  cases h with
  | takes _ only _ => exact only
  | blocks _ only _ => exact only

theorem semBlock_cases (h : k.semBlock s = .ok k') :
    OnlySem k k' s ∧ (k'.semaphores s).count = (k.semaphores s).count := by
  obtain ⟨k₁, h₁, h₂⟩ := Loop.bind_eq_ok.mp h
  have hsame : k₁.semaphores = k.semaphores ∧ k₁.semQueue = k.semQueue := by
    cases hact : k.activeProc with
    | none => rw [hact] at h₁; cases h₁
    | some i =>
      rw [hact] at h₁
      obtain ⟨r, q, _, _, hk⟩ := k.schedulerRemove_eq i
      cases hk.symm.trans h₁
      exact ⟨rfl, rfl⟩
  split at h₂
  · cases h₂
    refine ⟨.of_modifySem hsame.2 hsame.1 fun _ => rfl, ?_⟩
    rw [modifySem_self]
    exact congrArg (fun f => (f s).count) hsame.1
  · cases h₂
    refine ⟨.of_modifySem hsame.2 hsame.1 fun _ => rfl, ?_⟩
    rw [modifySem_self]
    exact congrArg (fun f => (f s).count) hsame.1

theorem ksemWait_cases (halloc : (k.semaphores s).allocated ≠ 0)
    (h : k.ksemWait ((s : Nat) : Int) = .ok (rc, k')) : WaitCases k s k' := by
  rw [ksemWait, index_val] at h
  dsimp only at h
  rw [if_neg halloc] at h
  split at h
  · rename_i hpos
    cases h
    refine .takes hpos (.of_modifySem rfl rfl fun _ => rfl) ?_
    rw [modifySem_self]
  · rename_i hpos
    obtain ⟨k₁, h₁, h₂⟩ := Loop.bind_eq_ok.mp h
    cases h₂
    obtain ⟨honly, hcount⟩ := semBlock_cases h₁
    exact .blocks (Int.not_lt.mp hpos) honly hcount

/-- A post adds a permit, or hands it to a process that waits, which then is runnable. -/
inductive PostCases (k : Kernel) (s : Fin semMax) (k' : Kernel) : Prop
  | adds (run : k'.runQueue = k.runQueue) (only : OnlySem k k' s)
      (count : (k'.semaphores s).count = wrap32 ((k.semaphores s).count + 1))
  | hands (pid : Int) (run : k'.runQueue.toList = k.runQueue.toList ++ [pid]) (only : OnlySem k k' s)
      (count : (k'.semaphores s).count = wrap32 (wrap32 ((k.semaphores s).count + 1) - 1))

theorem PostCases.only (h : PostCases k s k') : OnlySem k k' s := by
  cases h with
  | adds _ only _ => exact only
  | hands _ _ only _ => exact only

theorem ksemPost_cases (halloc : (k.semaphores s).allocated ≠ 0)
    (h : k.ksemPost ((s : Nat) : Int) = .ok (rc, k')) : PostCases k s k' := by
  rw [ksemPost, index_val] at h
  dsimp only at h
  rw [if_neg halloc] at h
  let k₁ := k.modifySem s fun x => { x with count := wrap32 (x.count + 1) }
  have honly₁ : OnlySem k k₁ s := .of_modifySem rfl rfl fun _ => rfl
  have hcount₁ : (k₁.semaphores s).count = wrap32 ((k.semaphores s).count + 1) := by
    rw [modifySem_self]
  split at h
  · cases h
    exact .adds rfl honly₁ hcount₁
  · rename_i pid q _
    let k₂ := k₁.modifySem s fun x => { x with waitQueue := q }
    have honly₂ : OnlySem k k₂ s := honly₁.modifySem fun _ => rfl
    have hcount₂ : (k₂.semaphores s).count = wrap32 ((k.semaphores s).count + 1) := by
      rw [modifySem_self, hcount₁]
    split at h
    · cases h
      exact .adds rfl honly₂ hcount₂
    · rename_i proc _
      split at h
      · cases h
        exact .adds rfl honly₂ hcount₂
      · obtain ⟨k₃, h₃, h₄⟩ := Loop.bind_eq_ok.mp h
        cases h₄
        obtain ⟨r, rfl, hr⟩ := schedulerAdd_eq h₃
        refine .hands _ hr ?_ ?_
        · exact OnlySem.modifySem ⟨honly₂.semQueue, honly₂.other, honly₂.allocated⟩ fun _ => rfl
        · rw [modifySem_self]
          exact congrArg (fun n => wrap32 (n - 1)) hcount₂

/-! ## Runs of semaphore calls -/

/-- The kernel `c` with the semaphores of `k`. -/
def withSems (c k : Kernel) : Kernel :=
  { c with semaphores := k.semaphores, semQueue := k.semQueue }

/-- A call finds the semaphores as the call before left them, and the rest of the
kernel, with the processes and the memory, as it is at that time. -/
structure SemUse where
  context : Kernel
  call : SemCall

def SemUse.exec (a : SemUse) (k : Kernel) : Res (Int × Kernel) :=
  (a.context.withSems k).semCall a.call

abbrev SemStep := Trace.Step Kernel (SemUse × Int)

abbrev SemRun := Trace.Run (fun k => ∃ k₀ : Kernel, k = k₀.ksemaphoresInit)
  (Trace.Exec SemUse.exec fun _ _ _ => True)

/-- No semaphore in use has this id. -/
def Unallocated (k : Kernel) (id : Int) : Prop :=
  ∀ s : Fin semMax, id = ((s : Nat) : Int) → (k.semaphores s).allocated = 0

/-- The three representations agree. -/
structure SemPool (k : Kernel) : Prop where
  ids : IdPool.Exact k.semQueue.toList fun s => (k.semaphores s).allocated = 0
  waiters : ∀ s, (k.semaphores s).allocated = 0 → (k.semaphores s).waitQueue.toList = []

/-- The life of semaphore ids: beside the pool, what the next call does, whenever it is made. -/
structure SemLifecycle (k : Kernel) : Prop extends SemPool k where
  init : ∀ (c : Kernel) (value : Int),
    ((c.withSems k).ksemInit value).1 ≠ -1 ↔ ∃ s, (k.semaphores s).allocated = 0
  fresh : ∀ (c : Kernel) (value : Int), ((c.withSems k).ksemInit value).1 ≠ -1 →
    ∃ s : Fin semMax, ((c.withSems k).ksemInit value).1 = ((s : Nat) : Int) ∧
      (k.semaphores s).allocated = 0
  refuses : ∀ (c : Kernel) (call : SemCall) (id : Int), call.named = some id →
    Unallocated k id → (c.withSems k).semCall call = .ok (-1, c.withSems k)

theorem SemPool.withSems (h : SemPool k) (c : Kernel) : SemPool (c.withSems k) :=
  ⟨h.ids, h.waiters⟩

/-- Every call tests the id it is given. -/
theorem semCall_refuses {call : SemCall} (hid : call.named = some id)
    (hun : Unallocated k id) : k.semCall call = .ok (-1, k) := by
  cases hi : index semMax id with
  | none =>
    cases call with
    | init value => cases hid
    | destroy id' => cases hid; rw [semCall, ksemDestroy, hi]
    | wait id' => cases hid; rw [semCall, ksemWait, hi]
    | post id' => cases hid; rw [semCall, ksemPost, hi]
  | some s =>
    have hfree := hun s (index_eq_some.mp hi)
    cases call with
    | init value => cases hid
    | destroy id' =>
      cases hid
      rw [semCall, ksemDestroy, hi]
      exact congrArg Except.ok (if_pos hfree)
    | wait id' =>
      cases hid
      rw [semCall, ksemWait, hi]
      exact if_pos hfree
    | post id' =>
      cases hid
      rw [semCall, ksemPost, hi]
      exact if_pos hfree

/-- A call that names an id is refused, or the id is that of a semaphore in use. -/
theorem semCall_named {call : SemCall} (hid : call.named = some id)
    (hc : k.semCall call = .ok (rc, k')) :
    (Unallocated k id ∧ rc = -1 ∧ k' = k) ∨
      ∃ s : Fin semMax, id = ((s : Nat) : Int) ∧ (k.semaphores s).allocated ≠ 0 := by
  by_cases hun : Unallocated k id
  · cases (semCall_refuses hid hun).symm.trans hc
    exact .inl ⟨hun, rfl, rfl⟩
  · unfold Unallocated at hun
    push Not at hun
    exact .inr hun

/-- What `ksem_init` does with a pool. -/
theorem SemPool.ksemInit (h : SemPool k) (value : Int) :
    (∃ (s : Fin semMax) (q : Queue), k.semQueue.toList = ((s : Nat) : Int) :: q.toList ∧
      (k.semaphores s).allocated = 0 ∧ k.ksemInit value = (((s : Nat) : Int),
        { k with semQueue := q
                 semaphores := Function.update k.semaphores s ⟨1, value, Queue.empty⟩ })) ∨
    (∀ s, (k.semaphores s).allocated ≠ 0) ∧ k.ksemInit value = (-1, k) := by
  unfold Kernel.ksemInit
  cases hq : k.semQueue.queueOut with
  | none =>
    refine .inr ⟨fun s hs => ?_, rfl⟩
    have hmem := h.ids.mem_val.mpr hs
    rw [Queue.queueOut_none.mp hq] at hmem
    cases hmem
  | some r =>
    obtain ⟨id, q⟩ := r
    have hl := Queue.queueOut_spec hq
    have hids := h.ids
    rw [hl] at hids
    obtain ⟨s, rfl, hs, _⟩ := hids.take
    refine .inl ⟨s, q, hl, hs, ?_⟩
    simp only [index_val]

theorem SemPool.lifecycle (h : SemPool k) : SemLifecycle k := by
  have hneg : ∀ s : Fin semMax, ((s : Nat) : Int) ≠ -1 := by
    intro s
    omega
  refine ⟨h, fun c value => ?_, fun c value hne => ?_, fun c call id hid hun => ?_⟩
  · rcases (h.withSems c).ksemInit value with ⟨s, q, _, hs, he⟩ | ⟨hall, he⟩
    · rw [he]
      exact iff_of_true (hneg s) ⟨s, hs⟩
    · rw [he]
      exact iff_of_false (not_not_intro rfl) fun ⟨s, hs⟩ => hall s hs
  · rcases (h.withSems c).ksemInit value with ⟨s, q, _, hs, he⟩ | ⟨_, he⟩
    · exact ⟨s, congrArg Prod.fst he, hs⟩
    · exact absurd (congrArg Prod.fst he) hne
  · exact semCall_refuses hid hun

/-! ## The calls keep the pool -/

/-- A change to a semaphore in use that leaves it in use. -/
theorem SemPool.only (h : SemPool k) (halloc : (k.semaphores s).allocated ≠ 0)
    (ho : OnlySem k k' s) : SemPool k' := by
  have hflag : ∀ t, (k'.semaphores t).allocated = (k.semaphores t).allocated := by
    intro t
    by_cases ht : t = s
    · rw [ht, ho.allocated]
    · rw [ho.other t ht]
  refine ⟨?_, fun t ht => ?_⟩
  · rw [ho.semQueue]
    exact h.ids.congr fun t => by rw [hflag]
  · rw [hflag] at ht
    have hts : t ≠ s := fun he => halloc (he ▸ ht)
    rw [ho.other t hts]
    exact h.waiters t ht

/-- The head of the pool is in use. -/
theorem SemPool.take (h : SemPool k) {value : Int} {q : Queue}
    (hq : k.semQueue.toList = ((s : Nat) : Int) :: q.toList) :
    SemPool { k with semQueue := q
                     semaphores := Function.update k.semaphores s ⟨1, value, Queue.empty⟩ } := by
  have hids := h.ids
  rw [hq] at hids
  obtain ⟨s', hs', _, hids⟩ := hids.take
  obtain rfl := IdPool.val_inj.mp hs'
  refine ⟨hids.congr fun t => ?_, fun t ht => ?_⟩
  · show _ ↔ (Function.update k.semaphores s _ t).allocated = 0
    by_cases hts : t = s
    · rw [hts, Function.update_self]
      simp
    · rw [Function.update_of_ne hts]
      exact and_iff_left hts
  · change (Function.update k.semaphores s _ t).allocated = 0 at ht
    show (Function.update k.semaphores s _ t).waitQueue.toList = []
    by_cases hts : t = s
    · rw [hts, Function.update_self, Queue.empty_toList]
    · rw [Function.update_of_ne hts] at ht ⊢
      exact h.waiters t ht

/-- A semaphore without waiters goes back to the pool. -/
theorem SemPool.give (h : SemPool k) (halloc : (k.semaphores s).allocated ≠ 0)
    (hnone : (k.semaphores s).waitQueue.toList = []) {q : Queue}
    (hq : q.toList = k.semQueue.toList ++ [((s : Nat) : Int)]) :
    SemPool { k.modifySem s fun x => { x with allocated := 0 } with semQueue := q } := by
  refine ⟨?_, fun t ht => ?_⟩
  · show IdPool.Exact q.toList _
    rw [hq]
    refine (h.ids.give halloc).congr fun t => ?_
    show _ ↔ ((k.modifySem s fun x => { x with allocated := 0 }).semaphores t).allocated = 0
    by_cases hts : t = s
    · rw [hts, modifySem_self]
      simp
    · rw [modifySem_ne _ _ hts]
      exact or_iff_left hts
  · change ((k.modifySem s fun x => { x with allocated := 0 }).semaphores t).allocated = 0 at ht
    show ((k.modifySem s fun x => { x with allocated := 0 }).semaphores t).waitQueue.toList = []
    by_cases hts : t = s
    · rw [hts, modifySem_self]
      exact hnone
    · rw [modifySem_ne _ _ hts] at ht ⊢
      exact h.waiters t ht

theorem SemPool.ksemDestroy (h : SemPool k) (halloc : (k.semaphores s).allocated ≠ 0)
    (hd : k.ksemDestroy ((s : Nat) : Int) = (rc, k')) : SemPool k' := by
  rw [Kernel.ksemDestroy, index_val] at hd
  dsimp only at hd
  rw [if_neg halloc] at hd
  split at hd
  · rename_i hempty
    have hlen : k.semQueue.toList.length < queueSize :=
      Nat.lt_of_lt_of_le (h.ids.length_lt halloc) (by decide)
    obtain ⟨q, hq, hl⟩ := k.semQueue.queueIn_ok ((s : Nat) : Int) hlen
    obtain ⟨_, rfl⟩ := Prod.mk.inj hd
    rw [modifySem_semQueue, hq, Option.getD_some]
    exact h.give halloc (Queue.queueIsEmpty_iff.mp hempty) hl
  · obtain ⟨_, rfl⟩ := Prod.mk.inj hd
    exact h

theorem SemPool.semCall (h : SemPool k) {call : SemCall} (hc : k.semCall call = .ok (rc, k')) :
    SemPool k' := by
  cases call with
  | init value =>
    rcases h.ksemInit value with ⟨s, q, hq, _, he⟩ | ⟨_, he⟩
    · cases (congrArg Except.ok he).symm.trans hc
      exact h.take hq
    · cases (congrArg Except.ok he).symm.trans hc
      exact h
  | destroy id =>
    rcases semCall_named rfl hc with ⟨_, _, rfl⟩ | ⟨s, rfl, halloc⟩
    · exact h
    · exact h.ksemDestroy halloc (Except.ok.inj hc)
  | wait id =>
    rcases semCall_named rfl hc with ⟨_, _, rfl⟩ | ⟨s, rfl, halloc⟩
    · exact h
    · exact h.only halloc (ksemWait_cases halloc hc).only
  | post id =>
    rcases semCall_named rfl hc with ⟨_, _, rfl⟩ | ⟨s, rfl, halloc⟩
    · exact h
    · exact h.only halloc (ksemPost_cases halloc hc).only

theorem SemPool.start (k : Kernel) : SemPool k.ksemaphoresInit := by
  have hq : k.ksemaphoresInit.semQueue.toList = (List.range semMax).map Int.ofNat :=
    Queue.fill_toList (by decide)
  refine ⟨?_, fun _ _ => rfl⟩
  rw [hq]
  exact (IdPool.exact_range semMax).congr fun _ => iff_of_true trivial rfl

theorem semPool_of_run {tr : List SemStep} (h : SemRun tr k) : SemPool k := by
  refine h.state_invariant ?_ ?_
  · rintro k ⟨k₀, rfl⟩
    exact SemPool.start k₀
  · intro tr k a k' _ hn hpool
    exact (hpool.withSems a.1.context).semCall hn.2

/-- **Semaphore ids live correctly**, in every run of semaphore calls. -/
theorem sem_ids_of_run {tr : List SemStep} (h : SemRun tr k) : SemLifecycle k :=
  (semPool_of_run h).lifecycle

theorem semRun_of_walk {caller : Kernel} {calls : List SemCall} {P : List SemStep × Kernel → Bool}
    (h : (Trace.walk SemUse.exec (fun _ _ _ => decide True) (calls.map (⟨caller, ·⟩)) []
      caller.ksemaphoresInit).any P = true) : ∃ r, SemRun r.1 r.2 ∧ P r = true :=
  Trace.Run.of_walk ⟨caller, rfl⟩ h

/-- Two semaphores are made, the first is used and given back, and one that is not in
use is waited for. -/
theorem sem_ids_of_run_reuse : ∃ (tr : List SemStep) (k : Kernel),
    tr.map (·.act.1.call) =
      [.init 1, .init 0, .wait 0, .post 0, .destroy 0, .wait 0, .post 99, .init 5] ∧
    tr.map (·.act.2) = [0, 1, 0, 1, 0, -1, -1, 2] ∧ SemLifecycle k := by
  let calls : List SemCall :=
    [.init 1, .init 0, .wait 0, .post 0, .destroy 0, .wait 0, .post 99, .init 5]
  have htest : (Trace.walk SemUse.exec (fun _ _ _ => decide True)
      (calls.map (⟨zero Image.blank, ·⟩)) [] (zero Image.blank).ksemaphoresInit).any (fun r =>
        decide (r.1.map (·.act.1.call) = calls ∧
          r.1.map (·.act.2) = [0, 1, 0, 1, 0, -1, -1, 2])) = true := by
    decide +kernel
  obtain ⟨⟨tr, k⟩, hrun, hP⟩ := semRun_of_walk htest
  obtain ⟨hcalls, hres⟩ := of_decide_eq_true hP
  exact ⟨tr, k, hcalls, hres, sem_ids_of_run hrun⟩

end Kernel
end UnivOS
