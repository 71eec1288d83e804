import UnivOS.Boot
import Mathlib.Data.Fintype.Basic

/-! # Serving the sleepers

`scheduler_timer` takes each process off the sleep queue once and either puts it
back or makes it runnable. The bound of its loop is the size of the queue, which
a process that is woken does not return to, so the loop can end before the last
sleepers have had their turn.
-/
namespace UnivOS
namespace Kernel
open Word

variable {k t : Kernel} {x : Int} {i : Fin procMax} {served rest : List Int}

/-- The process with this id is woken by the next tick. -/
def expired (k : Kernel) (x : Int) : Bool :=
  (k.pidToProc x).any fun i => decide ((k.procTable i).sleepTime < 0)

/-- The sleep queue names sleeping processes, each once, and the run queue has room
for those the next tick wakes. -/
structure Sleepers (k : Kernel) : Prop where
  nodup : k.sleepQueue.toList.Nodup
  asleep : ∀ x ∈ k.sleepQueue.toList, ∃ i, k.pidToProc x = some i ∧
    (k.procTable i).state = .sleeping ∧ InInt32 (k.procTable i).sleepTime
  room : k.runQueue.toList.length + (k.sleepQueue.toList.filter k.expired).length ≤ queueSize

instance (k : Kernel) : Decidable (Sleepers k) :=
  decidable_of_iff (k.sleepQueue.toList.Nodup ∧
      (∀ x ∈ k.sleepQueue.toList, ∃ i, k.pidToProc x = some i ∧
        (k.procTable i).state = .sleeping ∧ InInt32 (k.procTable i).sleepTime) ∧
      k.runQueue.toList.length + (k.sleepQueue.toList.filter k.expired).length ≤ queueSize)
    ⟨fun h => ⟨h.1, h.2.1, h.2.2⟩, fun h => ⟨h.nodup, h.asleep, h.room⟩⟩

/-- What a tick is meant to do: every sleeper comes one tick closer, and those whose
time was up are runnable, in the order they waited in. -/
structure ServesAll (k k' : Kernel) : Prop where
  decremented : ∀ x ∈ k.sleepQueue.toList, ∀ i, k.pidToProc x = some i →
    (k'.procTable i).sleepTime = (k.procTable i).sleepTime - 1
  woken : k'.runQueue.toList = k.runQueue.toList ++ k.sleepQueue.toList.filter k.expired
  runnable : ∀ x ∈ k.sleepQueue.toList, k.expired x = true → ∀ i, k.pidToProc x = some i →
    (k'.procTable i).state = .idle ∧ (k'.procTable i).schedulerQueue = some .run ∧
      (k'.procTable i).cpuTime = 0
  kept : k'.sleepQueue.toList = k.sleepQueue.toList.filter fun x => !k.expired x
  asleep : ∀ x ∈ k.sleepQueue.toList, k.expired x = false → ∀ i, k.pidToProc x = some i →
    (k'.procTable i).state = .sleeping

/-! ## The rounds of the loop -/

/-- The process after its turn. -/
def tickedProc (p : Proc) : Proc :=
  let p' := { p with sleepTime := wrap32 (p.sleepTime - 1) }
  if p.sleepTime < 0 then { p' with schedulerQueue := some .run, state := .idle, cpuTime := 0 }
  else p'

@[simp] theorem tickedProc_sleepTime (p : Proc) :
    (tickedProc p).sleepTime = wrap32 (p.sleepTime - 1) := by
  unfold tickedProc
  split <;> rfl

@[simp] theorem tickedProc_pid (p : Proc) : (tickedProc p).pid = p.pid := by
  unfold tickedProc
  split <;> rfl

/-- The state of the loop once `served` have had their turn and `rest` have not. -/
structure Ticked (k : Kernel) (served rest : List Int) (t : Kernel) : Prop where
  split : k.sleepQueue.toList = served ++ rest
  pid : ∀ i, (t.procTable i).pid = (k.procTable i).pid
  sleep : t.sleepQueue.toList = rest ++ served.filter fun x => !k.expired x
  run : t.runQueue.toList = k.runQueue.toList ++ served.filter k.expired
  done : ∀ x ∈ served, ∀ i, k.pidToProc x = some i →
    t.procTable i = tickedProc (k.procTable i)
  todo : ∀ x ∈ rest, ∀ i, k.pidToProc x = some i → t.procTable i = k.procTable i

/-- Looking up processes reads their ids only. -/
theorem pidToProc_congr (h : ∀ i, (t.procTable i).pid = (k.procTable i).pid) (x : Int) :
    t.pidToProc x = k.pidToProc x := by
  unfold pidToProc
  simp only [h]

theorem pid_of_pidToProc (h : k.pidToProc x = some i) : (k.procTable i).pid = x := by
  rw [pidToProc, Fin.find?_eq_some_iff] at h
  exact beq_iff_eq.mp h.1

theorem expired_iff (h : k.pidToProc x = some i) :
    k.expired x = true ↔ (k.procTable i).sleepTime < 0 := by
  rw [expired, h, Option.any_some, decide_eq_true_iff]

/-- The bound of the loop counts those left and those put back. -/
theorem Ticked.size (h : Ticked k served rest t) :
    t.sleepQueue.size = rest.length + (served.filter fun x => !k.expired x).length := by
  rw [t.sleepQueue.size_eq, h.sleep, List.length_append]

/-- The turn of one sleeper, given what it leaves of the queues. -/
theorem Ticked.serve (h : Sleepers k) (ht : Ticked k served (x :: rest) t)
    (hi : k.pidToProc x = some i) {t' : Kernel}
    (htable : t'.procTable = Function.update t.procTable i (tickedProc (k.procTable i)))
    (hsleep : t'.sleepQueue.toList = rest ++ (served ++ [x]).filter fun y => !k.expired y)
    (hrun : t'.runQueue.toList = k.runQueue.toList ++ (served ++ [x]).filter k.expired) :
    Ticked k (served ++ [x]) rest t' := by
  have hnd := h.nodup
  rw [ht.split, List.nodup_append] at hnd
  have hne : ∀ y j, k.pidToProc y = some j → y ≠ x → j ≠ i := by
    intro y j hj hyx hji
    rw [← pid_of_pidToProc hj, hji, pid_of_pidToProc hi] at hyx
    exact hyx rfl
  refine ⟨?_, fun j => ?_, hsleep, hrun, fun y hy j hj => ?_, fun y hy j hj => ?_⟩
  · rw [ht.split, List.append_assoc, List.singleton_append]
  · rw [htable]
    by_cases hji : j = i
    · rw [hji, Function.update_self, tickedProc_pid]
    · rw [Function.update_of_ne hji, ht.pid]
  · rw [htable]
    rcases List.mem_append.mp hy with hy | hy
    · have hyx : y ≠ x := hnd.2.2 y hy x List.mem_cons_self
      rw [Function.update_of_ne (hne y j hj hyx), ht.done y hy j hj]
    · rw [List.mem_singleton.mp hy, hi] at hj
      cases hj
      exact Function.update_self ..
  · have hyx : y ≠ x := fun he => (List.nodup_cons.mp hnd.2.1).1 (he ▸ hy)
    rw [htable, Function.update_of_ne (hne y j hj hyx)]
    exact ht.todo y (List.mem_cons_of_mem x hy) j hj

/-- One round of the loop. -/
theorem Ticked.step (h : Sleepers k) (ht : Ticked k served (x :: rest) t) :
    ∃ t', t.timerBody = .ok t' ∧ Ticked k (served ++ [x]) rest t' := by
  obtain ⟨i, hi, hasleep, hint⟩ := h.asleep x (by rw [ht.split]; simp)
  have hexp := expired_iff hi
  have hproc := ht.todo x List.mem_cons_self i hi
  have hroom := t.sleepQueue.length_le
  rw [ht.sleep, List.cons_append, List.length_cons] at hroom
  obtain ⟨q, hq, hql⟩ := Queue.queueOut_cons (ht.sleep.trans (List.cons_append ..))
  have hfind : ({ t with sleepQueue := q } : Kernel).pidToProc x = some i :=
    (pidToProc_congr ht.pid x).trans hi
  rw [timerBody, hq]
  dsimp only
  rw [hfind]
  dsimp only
  rw [hproc]
  by_cases hneg : (k.procTable i).sleepTime < 0
  · have hone := h.room
    rw [ht.split, List.filter_append, List.filter_cons_of_pos (hexp.mpr hneg)] at hone
    simp only [List.length_append, List.length_cons] at hone
    let t₁ := ({ t with sleepQueue := q } : Kernel).modifyProc i fun p =>
      { p with sleepTime := wrap32 ((k.procTable i).sleepTime - 1) }
    obtain ⟨r, hadd, hrl⟩ := t₁.schedulerAdd_ok i (by
      show t.runQueue.toList.length < queueSize
      rw [ht.run, List.length_append]
      omega)
    have hpid : (t₁.procTable i).pid = x := by
      rw [modifyProc_self, ← pid_of_pidToProc hi, ← ht.pid]
    refine ⟨t₁.runnable i r, ?_, ht.serve h hi ?_ ?_ ?_⟩
    · rw [if_neg (Int.not_le.mpr hneg)]
      exact hadd
    · rw [runnable]
      show Function.update t₁.procTable i _ = _
      rw [modifyProc_self, tickedProc, if_pos hneg]
      show Function.update (Function.update t.procTable i _) i _ = _
      rw [Function.update_idem, ← hproc]
    · show q.toList = _
      rw [List.filter_append, List.filter_singleton, hexp.mpr hneg]
      simpa using hql
    · rw [runnable_runQueue, hrl, hpid, List.filter_append, List.filter_singleton, hexp.mpr hneg]
      show t.runQueue.toList ++ [x] = _
      rw [ht.run, List.append_assoc]
      rfl
  · have hkeep : k.expired x = false := by
      rw [← Bool.not_eq_true, hexp]
      exact hneg
    obtain ⟨q', hq', hql'⟩ := q.queueIn_ok x (by rw [hql]; omega)
    refine ⟨_, if_pos (Int.not_lt.mp hneg), ht.serve h hi ?_ ?_ ?_⟩
    · show Function.update t.procTable i _ = _
      rw [tickedProc, if_neg hneg, ← hproc]
    · show ((q.queueIn x).getD q).toList = _
      rw [hq', Option.getD_some, hql', hql, List.filter_append, List.filter_singleton, hkeep,
        List.append_assoc]
      rfl
    · rw [List.filter_append, List.filter_singleton, hkeep]
      simpa using ht.run

/-! ## The accounting of the active process -/

/-- The accounting changes nothing that the loop reads. -/
structure SameSleepers (k t : Kernel) : Prop where
  run : t.runQueue = k.runQueue
  sleep : t.sleepQueue = k.sleepQueue
  pid : ∀ i, (t.procTable i).pid = (k.procTable i).pid
  state : ∀ i, (t.procTable i).state = (k.procTable i).state
  sleepTime : ∀ i, (t.procTable i).sleepTime = (k.procTable i).sleepTime

theorem accountActive_sameSleepers (k : Kernel) : SameSleepers k k.accountActive := by
  have hacc := accountActive_only k
  exact ⟨hacc.frame Kernel.runQueue fun _ _ => rfl, hacc.frame Kernel.sleepQueue fun _ _ => rfl,
    hacc.pid, hacc.state, hacc.sleepTime⟩

theorem SameSleepers.expired (h : SameSleepers k t) : t.expired = k.expired := by
  funext x
  unfold Kernel.expired
  simp only [pidToProc_congr h.pid, h.sleepTime]

theorem SameSleepers.sleepers (h : SameSleepers k t) (hk : Sleepers k) : Sleepers t := by
  refine ⟨?_, ?_, ?_⟩
  · rw [h.sleep]
    exact hk.nodup
  · simpa only [h.sleep, pidToProc_congr h.pid, h.state, h.sleepTime] using hk.asleep
  · rw [h.run, h.sleep, h.expired]
    exact hk.room

theorem SameSleepers.servesAll (h : SameSleepers k t) {k' : Kernel} :
    ServesAll t k' ↔ ServesAll k k' := by
  constructor
  · rintro ⟨hdec, hwoken, hrun, hkept, hasleep⟩
    simp only [h.run, h.sleep, pidToProc_congr h.pid, h.sleepTime, h.expired] at *
    exact ⟨hdec, hwoken, hrun, hkept, hasleep⟩
  · rintro ⟨hdec, hwoken, hrun, hkept, hasleep⟩
    refine ⟨?_, ?_, ?_, ?_, ?_⟩ <;>
    · simp only [h.run, h.sleep, pidToProc_congr h.pid, h.sleepTime, h.expired]
      assumption

/-! ## The whole tick -/

theorem wrap32_pred {n : Int} (h : InInt32 n) : wrap32 (n - 1) = n - 1 ↔ n ≠ -2 ^ 31 := by
  obtain ⟨hl, hu⟩ := h
  constructor
  · rintro he rfl
    exact absurd he (by decide)
  · intro hne
    exact wrap32_of_inInt32 ⟨by omega, by omega⟩

/-- A sleeper for which the next tick has to be a decrement that does not overflow. -/
def Lowest (k : Kernel) (x : Int) : Prop :=
  ∃ i, k.pidToProc x = some i ∧ (k.procTable i).sleepTime = -2 ^ 31

theorem Ticked.servesAll (h : Sleepers k) (ht : Ticked k served [] t) :
    ServesAll k t ↔ ∀ x ∈ k.sleepQueue.toList, ¬ k.Lowest x := by
  have hl : k.sleepQueue.toList = served := ht.split.trans (List.append_nil _)
  constructor
  · rintro hs x hx ⟨i, hi, hlow⟩
    have hdec := hs.decremented x hx i hi
    rw [ht.done x (hl ▸ hx) i hi, tickedProc_sleepTime, hlow] at hdec
    exact absurd hdec (by decide)
  · intro hlow
    refine ⟨fun x hx i hi => ?_, ?_, fun x hx he i hi => ?_, ?_, fun x hx he i hi => ?_⟩
    · obtain ⟨j, hj, _, hint⟩ := h.asleep x hx
      rw [hi] at hj
      cases hj
      rw [ht.done x (hl ▸ hx) i hi, tickedProc_sleepTime]
      exact (wrap32_pred hint).mpr fun he => hlow x hx ⟨i, hi, he⟩
    · rw [hl]
      exact ht.run
    · rw [ht.done x (hl ▸ hx) i hi, tickedProc, if_pos ((expired_iff hi).mp he)]
      exact ⟨rfl, rfl, rfl⟩
    · rw [hl]
      exact ht.sleep
    · obtain ⟨j, hj, hstate, _⟩ := h.asleep x hx
      rw [hi] at hj
      cases hj
      rw [ht.done x (hl ▸ hx) i hi, tickedProc, if_neg]
      · exact hstate
      · rw [← expired_iff hi, he]
        exact Bool.false_ne_true

/-- A sleeper that has not had its turn. -/
theorem Ticked.not_servesAll (h : Sleepers k) (ht : Ticked k served (x :: rest) t) :
    ¬ ServesAll k t := by
  intro hs
  have hx : x ∈ k.sleepQueue.toList := by rw [ht.split]; simp
  obtain ⟨i, hi, _⟩ := h.asleep x hx
  have hdec := hs.decremented x hx i hi
  rw [ht.todo x List.mem_cons_self i hi] at hdec
  omega

/-- The loop ends, and has served everyone exactly if no sleeper but the last was woken. -/
theorem Sleepers.loop (h : Sleepers k) : ∃ served rest t,
    Loop.live (fun k : Kernel => k.sleepQueue.size) timerBody queueSize 0 k = .ok t ∧
      Ticked k served rest t ∧
      (rest = [] ↔ ∀ x ∈ k.sleepQueue.toList.dropLast, k.expired x = false) := by
  have hstart : Ticked k [] k.sleepQueue.toList k :=
    ⟨rfl, fun _ => rfl, (List.append_nil _).symm, (List.append_nil _).symm, nofun,
      fun _ _ _ _ => rfl⟩
  obtain ⟨served, rest, t, _, hloop, ht, hiff⟩ := Loop.live_queue (fun x => !k.expired x) (Ticked k)
    (fun _ _ _ ht => ht.size) (fun _ _ _ _ ht => ht.step h) k.sleepQueue.toList [] queueSize k
    hstart k.sleepQueue.length_le
  refine ⟨served, rest, t, hloop, ht, hiff.trans ?_⟩
  simp only [List.nil_append, Bool.not_eq_true']
  refine or_iff_right_of_imp ?_
  intro hnil
  rw [hnil]
  nofun

/-- **A tick serves every sleeper exactly if no sleeper but the last is woken by it,
and no sleep time is the least `int`, which cannot be decremented.** -/
theorem scheduler_timer_serves_iff (h : Sleepers k) : ∃ k', k.schedulerTimer = .ok k' ∧
    (ServesAll k k' ↔ (∀ x ∈ k.sleepQueue.toList.dropLast, k.expired x = false) ∧
      ∀ x ∈ k.sleepQueue.toList, ¬ k.Lowest x) := by
  have hsame := k.accountActive_sameSleepers
  obtain ⟨served, rest, t, hloop, ht, hiff⟩ := (hsame.sleepers h).loop
  refine ⟨t, hloop, ?_⟩
  have hlow : ∀ x, k.accountActive.Lowest x ↔ k.Lowest x := by
    intro x
    unfold Lowest
    simp only [pidToProc_congr hsame.pid, hsame.sleepTime]
  rw [hsame.sleep, hsame.expired] at hiff
  rw [← hsame.servesAll, ← hiff]
  cases rest with
  | nil =>
    rw [ht.servesAll (hsame.sleepers h), hsame.sleep]
    simp only [hlow, true_and]
  | cons x rest =>
    exact iff_of_false (ht.not_servesAll (hsame.sleepers h)) fun hs => absurd hs.1 (by simp)

/-- Processes 9 and 10 are put to sleep in the booted kernel. -/
def twoSleepers (time₉ time₁₀ : Int) : Res Kernel := do
  let k ← kernelInit Image.blank
  let k ← k.schedulerSleep (some ⟨9, by decide⟩) time₉
  k.schedulerSleep (some ⟨10, by decide⟩) time₁₀

/-- Process 10, the last in the queue, is woken. -/
theorem scheduler_timer_serves_two : ∃ k k' : Kernel, twoSleepers 0 (-1) = .ok k ∧
    k.sleepQueue.toList = [9, 10] ∧ k.schedulerTimer = .ok k' ∧ ServesAll k k' := by
  have htest : (twoSleepers 0 (-1)).toOption.any (fun k =>
      decide (Sleepers k ∧ k.sleepQueue.toList = [9, 10] ∧ k.expired 9 = false ∧
        (∀ i, k.pidToProc 9 = some i → (k.procTable i).sleepTime = 0) ∧
        ∀ i, k.pidToProc 10 = some i → (k.procTable i).sleepTime = -1)) = true := by
    decide +kernel
  obtain ⟨k, hk, hP⟩ := Loop.of_any htest
  obtain ⟨hsleepers, hqueue, hexp, h9, h10⟩ := of_decide_eq_true hP
  obtain ⟨k', hk', hiff⟩ := scheduler_timer_serves_iff hsleepers
  refine ⟨k, k', hk, hqueue, hk', hiff.mpr ⟨?_, ?_⟩⟩
  · rw [hqueue]
    intro x hx
    rw [List.mem_singleton.mp hx]
    exact hexp
  · rw [hqueue]
    rintro x hx ⟨i, hi, hlow⟩
    rcases List.mem_cons.mp hx with rfl | hx
    · rw [h9 i hi] at hlow
      exact absurd hlow (by decide)
    · rw [List.mem_singleton.mp hx] at hi
      rw [h10 i hi] at hlow
      exact absurd hlow (by decide)

/-- Process 9, the first in the queue, is woken, and process 10 is not served. -/
theorem scheduler_timer_skips_last : ∃ k k' : Kernel, twoSleepers (-1) 0 = .ok k ∧
    Sleepers k ∧ k.sleepQueue.toList = [9, 10] ∧ k.schedulerTimer = .ok k' ∧
    k'.sleepQueue.toList = [10] ∧ (k'.procTable ⟨10, by decide⟩).sleepTime = 0 ∧
    ¬ ServesAll k k' := by
  have htest : (twoSleepers (-1) 0 >>= fun k =>
      k.schedulerTimer >>= fun k' => Except.ok (k, k')).toOption.any (fun r =>
        decide (Sleepers r.1 ∧ r.1.sleepQueue.toList = [9, 10] ∧
          r.1.pidToProc 10 = some ⟨10, by decide⟩ ∧ r.2.sleepQueue.toList = [10] ∧
          (r.1.procTable ⟨10, by decide⟩).sleepTime = 0 ∧
          (r.2.procTable ⟨10, by decide⟩).sleepTime = 0)) = true := by
    decide +kernel
  obtain ⟨⟨k, k'⟩, hr, hP⟩ := Loop.of_any htest
  obtain ⟨hsleepers, hqueue, h10, hleft, htime, htime'⟩ := of_decide_eq_true hP
  obtain ⟨k₁, hk, hr⟩ := Loop.bind_eq_ok.mp hr
  obtain ⟨k₂, hk', he⟩ := Loop.bind_eq_ok.mp hr
  cases he
  refine ⟨k, k', hk, hsleepers, hqueue, hk', hleft, htime', fun hs => ?_⟩
  have hdec := hs.decremented 10 (by rw [hqueue]; decide) _ h10
  rw [htime, htime'] at hdec
  exact absurd hdec (by decide)

end Kernel
end UnivOS
