import UnivOS.State
import UnivOS.Lib.Loop
import Mathlib.Data.Fin.Tuple.Basic

/-! # The scheduler

`scheduler.c` and the process lookups of `kproc.c` it uses. A process argument
is a pointer, so `none` is the null pointer the functions test for. The queue a
loop runs over is also the bound of the loop, which therefore moves.
-/
namespace UnivOS
namespace Kernel
open Word

/-! ## Looking up processes -/

def pidToProc (k : Kernel) (pid : Int) : Option (Fin procMax) :=
  Fin.find? fun i => (k.procTable i).pid == pid

def procToEntry (k : Kernel) (proc : Fin procMax) : Option (Fin procMax) :=
  Fin.find? fun i => (k.procTable proc).pid == (k.procTable i).pid

/-! ## Adding and removing processes -/

/-- The process is idle and queued: `q` is the run queue with it. -/
def runnable (k : Kernel) (proc : Fin procMax) (q : Queue) : Kernel :=
  { k.modifyProc proc fun p =>
      { p with schedulerQueue := some .run, state := .idle, cpuTime := 0 } with
    runQueue := q }

def schedulerAdd (k : Kernel) : Option (Fin procMax) → Res Kernel
  | none => .error (.panic "Invalid process!")
  | some proc =>
    match k.runQueue.queueIn (k.procTable proc).pid with
    | none => .error (.panic "Unable to add the process to the scheduler")
    | some q => .ok (k.runnable proc q)

/-- The loop body of `scheduler_remove`. -/
def removeBody (pid : Int) (q : Queue) : Res Queue :=
  match q.queueOut with
  | none => .error (.panic "Unable to queue out the process entry")
  | some (pid', q) =>
    if pid = pid' then .ok q
    else match q.queueIn pid' with
      | none => .error (.panic "Unable to queue process back to the run queue")
      | some q => .ok q

def removeLoop (pid : Int) (q : Queue) : Res Queue :=
  Loop.live (fun q : Queue => q.size) (removeBody pid) queueSize 0 q

/-- Taking a process off the queue its `scheduler_queue` names. -/
def unqueue (k : Kernel) (proc : Fin procMax) : Res Kernel :=
  match (k.procTable proc).schedulerQueue with
  | none => .ok k
  | some w => do
    let q ← removeLoop (k.procTable proc).pid (k.schedQueue w)
    .ok ((k.setSchedQueue q w).modifyProc proc fun p => { p with schedulerQueue := none })

def schedulerRemove (k : Kernel) : Option (Fin procMax) → Res Kernel
  | none => .error (.panic "Invalid process!")
  | some proc => do
    let k ← k.unqueue proc
    .ok (if k.activeProc = some proc then { k with activeProc := none } else k)

def schedulerSleep (k : Kernel) (proc : Option (Fin procMax)) (time : Int) : Res Kernel :=
  match proc with
  | none => .error (.panic "Invalid process")
  | some proc =>
    let k := k.modifyProc proc fun p => { p with sleepTime := time }
    if (k.procTable proc).state = .sleeping then .ok k
    else do
      let k ← k.schedulerRemove (some proc)
      let k := k.modifyProc proc fun p =>
        { p with state := .sleeping, schedulerQueue := some .sleep }
      .ok { k with sleepQueue :=
        (k.sleepQueue.queueIn (k.procTable proc).pid).getD k.sleepQueue }

/-! ## The timer callback -/

/-- The loop body of `scheduler_timer`. -/
def timerBody (k : Kernel) : Res Kernel :=
  match k.sleepQueue.queueOut with
  | none => .ok k
  | some (pid, q) =>
    let k := { k with sleepQueue := q }
    match k.pidToProc pid with
    | none => .ok k
    | some proc =>
      let sleepTime := (k.procTable proc).sleepTime
      let k := k.modifyProc proc fun p => { p with sleepTime := wrap32 (sleepTime - 1) }
      if sleepTime ≥ 0 then
        .ok { k with sleepQueue := (k.sleepQueue.queueIn pid).getD k.sleepQueue }
      else k.schedulerAdd (some proc)

/-- The accounting of the active process. -/
def accountActive (k : Kernel) : Kernel :=
  match k.activeProc with
  | none => k
  | some proc => k.modifyProc proc fun p =>
      { p with runTime := wrap32 (p.runTime + 1), cpuTime := wrap32 (p.cpuTime + 1) }

def schedulerTimer (k : Kernel) : Res Kernel :=
  Loop.live (fun k : Kernel => k.sleepQueue.size) timerBody queueSize 0 k.accountActive

/-! ## Choosing the active process -/

/-- A used-up time slice: the process waits for its turn, the idle task does not. -/
def endSlice (k : Kernel) (proc : Fin procMax) : Res Kernel :=
  if (k.procTable proc).pid ≠ 0 then k.schedulerAdd (some proc)
  else .ok (k.modifyProc proc fun p => { p with state := .idle })

/-- The first half of `scheduler_run`: a process that is not active any more, or
whose time slice is used up, is unscheduled. -/
def scheduleOut (k : Kernel) : Res Kernel :=
  match k.activeProc with
  | none => .ok k
  | some proc =>
    if (k.procTable proc).state ≠ .active then .ok { k with activeProc := none }
    else if (k.procTable proc).cpuTime ≥ schedulerTimeslice then do
      let k ← (k.modifyProc proc fun p => { p with cpuTime := 0 }).endSlice proc
      .ok { k with activeProc := none }
    else .ok k

/-- Where no process is active, the head of the run queue, or process id 0, becomes it. -/
def takeNext (k : Kernel) : Kernel :=
  match k.activeProc with
  | some _ => k
  | none =>
    match k.runQueue.queueOut with
    | none => { k with activeProc := k.pidToProc 0 }
    | some (pid, q) => { k with runQueue := q, activeProc := k.pidToProc pid }

/-- The second half. A process that does not exist is read through a null
pointer for the log before the panic. -/
def scheduleIn (k : Kernel) : Res Kernel :=
  match k.takeNext.activeProc with
  | none => .error (.panic "Unable to schedule a process!")
  | some proc => .ok (k.takeNext.modifyProc proc fun p => { p with state := .active })

def schedulerRun (k : Kernel) : Res Kernel := do
  let k ← k.scheduleOut
  k.scheduleIn

/-! ## Putting a process on the run queue -/

section Runnable

variable (k : Kernel) {i j : Fin procMax} (q : Queue)

@[simp] theorem runnable_state : ((k.runnable i q).procTable i).state = .idle := by
  rw [runnable, modifyProc_self]

@[simp] theorem runnable_pid (j : Fin procMax) :
    ((k.runnable i q).procTable j).pid = (k.procTable j).pid :=
  same_of_update Proc.pid rfl (by rfl) j

@[simp] theorem runnable_cpuTime : ((k.runnable i q).procTable i).cpuTime = 0 := by
  rw [runnable, modifyProc_self]

theorem runnable_ne (h : j ≠ i) : (k.runnable i q).procTable j = k.procTable j :=
  Function.update_of_ne h ..

@[simp] theorem runnable_runQueue : (k.runnable i q).runQueue = q := rfl

@[simp] theorem runnable_sleepQueue : (k.runnable i q).sleepQueue = k.sleepQueue := rfl

@[simp] theorem runnable_activeProc : (k.runnable i q).activeProc = k.activeProc := rfl

@[simp] theorem runnable_mutexes : (k.runnable i q).mutexes = k.mutexes := rfl

@[simp] theorem runnable_mutexQueue : (k.runnable i q).mutexQueue = k.mutexQueue := rfl

/-- `scheduler_add` succeeds where the run queue has room. -/
theorem schedulerAdd_ok (i : Fin procMax) (h : k.runQueue.toList.length < queueSize) :
    ∃ q, k.schedulerAdd (some i) = .ok (k.runnable i q) ∧
      q.toList = k.runQueue.toList ++ [(k.procTable i).pid] := by
  obtain ⟨q, hq, hl⟩ := k.runQueue.queueIn_ok (k.procTable i).pid h
  exact ⟨q, by rw [schedulerAdd, hq], hl⟩

/-- What `scheduler_add` does when it returns. -/
theorem schedulerAdd_eq {k k' : Kernel} {i : Fin procMax} (h : k.schedulerAdd (some i) = .ok k') :
    ∃ q, k' = k.runnable i q ∧ q.toList = k.runQueue.toList ++ [(k.procTable i).pid] := by
  unfold schedulerAdd at h
  dsimp only at h
  split at h
  · cases h
  · rename_i q hq
    cases h
    exact ⟨q, rfl, Queue.queueIn_spec hq⟩

end Runnable

/-! ## What the scheduler can do -/

theorem accountActive_only (k : Kernel) : ActiveOnly k k.accountActive := by
  unfold accountActive
  split
  · exact .refl k
  · rename_i i hact
    exact .of_modifyProc hact (fun _ => rfl) (fun _ => rfl) fun _ => rfl

/-- `scheduler_sleep`, on a process that sleeps already or not. -/
inductive SleepCases (k : Kernel) (i : Fin procMax) (time : Int) : Kernel → Prop
  | again (state : (k.procTable i).state = .sleeping) :
      SleepCases k i time (k.modifyProc i fun p => { p with sleepTime := time })
  | sleeps (k₁ k₂ : Kernel) (state : (k.procTable i).state ≠ .sleeping)
      (removes : (k.modifyProc i fun p => { p with sleepTime := time }).schedulerRemove (some i) =
        .ok k₁)
      (moved : k₂ = k₁.modifyProc i fun p =>
        { p with state := .sleeping, schedulerQueue := some .sleep }) :
      SleepCases k i time { k₂ with
        sleepQueue := (k₂.sleepQueue.queueIn (k₂.procTable i).pid).getD k₂.sleepQueue }

theorem schedulerSleep_cases {k k' : Kernel} {i : Fin procMax} {time : Int}
    (h : k.schedulerSleep (some i) time = .ok k') : SleepCases k i time k' := by
  unfold schedulerSleep at h
  dsimp only at h
  rw [modifyProc_self] at h
  split at h
  · rename_i hstate
    cases h
    exact .again hstate
  · rename_i hstate
    obtain ⟨k₁, h₁, h₂⟩ := Loop.bind_eq_ok.mp h
    cases h₂
    exact .sleeps k₁ _ hstate h₁ rfl

/-- A round of the timer, by what it does with the head of the sleep queue. -/
inductive BodyCases (k : Kernel) : Kernel → Prop
  | empty (queue : k.sleepQueue.toList = []) : BodyCases k k
  | lost (x : Int) (q : Queue) (queue : k.sleepQueue.toList = x :: q.toList)
      (unknown : k.pidToProc x = none) : BodyCases k { k with sleepQueue := q }
  | kept (x : Int) (l : List Int) (q : Queue) (i : Fin procMax)
      (queue : k.sleepQueue.toList = x :: l) (found : k.pidToProc x = some i)
      (left : 0 ≤ (k.procTable i).sleepTime) (back : q.toList = l ++ [x]) :
      BodyCases k { k with
        procTable := Function.update k.procTable i { k.procTable i with
          sleepTime := wrap32 ((k.procTable i).sleepTime - 1) }
        sleepQueue := q }
  | woken (x : Int) (q r : Queue) (i : Fin procMax) (queue : k.sleepQueue.toList = x :: q.toList)
      (found : k.pidToProc x = some i) (expired : (k.procTable i).sleepTime < 0)
      (run : r.toList = k.runQueue.toList ++ [(k.procTable i).pid]) :
      BodyCases k (({ k with sleepQueue := q } : Kernel).modifyProc i (fun p =>
        { p with sleepTime := wrap32 ((k.procTable i).sleepTime - 1) }) |>.runnable i r)

theorem timerBody_cases {k k' : Kernel} (h : k.timerBody = .ok k') : BodyCases k k' := by
  unfold timerBody at h
  split at h
  · rename_i hq
    cases h
    exact .empty (Queue.queueOut_none.mp hq)
  · rename_i x q hq
    have hqueue := Queue.queueOut_spec hq
    have hroom := k.sleepQueue.length_le
    rw [hqueue, List.length_cons] at hroom
    dsimp only at h
    split at h
    · rename_i hnone
      cases h
      exact .lost x q hqueue hnone
    · rename_i i hfound
      split at h
      · rename_i hleft
        cases h
        obtain ⟨q', hin, hback⟩ := q.queueIn_ok x (by omega)
        have hget : (q.queueIn x).getD q = q' := by rw [hin, Option.getD_some]
        rw [← hget] at hback
        exact .kept x q.toList _ i hqueue hfound hleft hback
      · rename_i hleft
        obtain ⟨r, rfl, hr⟩ := schedulerAdd_eq h
        rw [modifyProc_self] at hr
        exact .woken x q r i hqueue hfound (Int.not_le.mp hleft) hr

/-- The first half of `scheduler_run`, by what becomes of the active process. -/
inductive OutCases (k : Kernel) : Kernel → Prop
  | idle (active : k.activeProc = none) : OutCases k k
  | stays (i : Fin procMax) (active : k.activeProc = some i)
      (slice : (k.procTable i).cpuTime < schedulerTimeslice) : OutCases k k
  | leaves (i : Fin procMax) (active : k.activeProc = some i)
      (state : (k.procTable i).state ≠ .active) : OutCases k { k with activeProc := none }
  | queued (i : Fin procMax) (r : Queue) (active : k.activeProc = some i)
      (notIdle : (k.procTable i).pid ≠ 0)
      (run : r.toList = k.runQueue.toList ++ [(k.procTable i).pid]) :
      OutCases k { k with
        procTable := Function.update k.procTable i { k.procTable i with
          schedulerQueue := some .run
          state := .idle
          cpuTime := 0 }
        runQueue := r
        activeProc := none }
  | rests (i : Fin procMax) (active : k.activeProc = some i) (idle : (k.procTable i).pid = 0) :
      OutCases k { k with
        procTable := Function.update k.procTable i { k.procTable i with
          state := .idle
          cpuTime := 0 }
        activeProc := none }

theorem scheduleOut_cases {k k' : Kernel} (h : k.scheduleOut = .ok k') : OutCases k k' := by
  unfold scheduleOut at h
  split at h
  · rename_i hact
    cases h
    exact .idle hact
  · rename_i i hact
    split at h
    · rename_i hstate
      cases h
      exact .leaves i hact hstate
    · split at h
      · obtain ⟨k₁, h₁, h₂⟩ := Loop.bind_eq_ok.mp h
        cases h₂
        have hself : (k.modifyProc i fun p => { p with cpuTime := 0 }).procTable i =
            { k.procTable i with cpuTime := 0 } := modifyProc_self ..
        unfold endSlice at h₁
        rw [hself] at h₁
        split at h₁
        · rename_i hpid
          obtain ⟨r, rfl, hr⟩ := schedulerAdd_eq h₁
          rw [hself] at hr
          have hcase := OutCases.queued i r hact hpid hr
          simpa [runnable, modifyProc] using hcase
        · rename_i hpid
          cases h₁
          have hcase := OutCases.rests i hact (not_not.mp hpid)
          simpa [modifyProc] using hcase
      · rename_i hslice
        cases h
        exact .stays i hact (Int.not_le.mp hslice)

/-- The second half, by whom it makes active. -/
inductive InCases (k : Kernel) : Kernel → Prop
  | stays (i : Fin procMax) (active : k.activeProc = some i) :
      InCases k (k.modifyProc i fun p => { p with state := .active })
  | next (i : Fin procMax) (x : Int) (q : Queue) (active : k.activeProc = none)
      (run : k.runQueue.toList = x :: q.toList) (found : k.pidToProc x = some i) :
      InCases k (({ k with runQueue := q, activeProc := some i } : Kernel).modifyProc i fun p =>
        { p with state := .active })
  | idle (i : Fin procMax) (active : k.activeProc = none) (run : k.runQueue.toList = [])
      (found : k.pidToProc 0 = some i) :
      InCases k (({ k with activeProc := some i } : Kernel).modifyProc i fun p =>
        { p with state := .active })

theorem scheduleIn_cases {k k' : Kernel} (h : k.scheduleIn = .ok k') : InCases k k' := by
  unfold scheduleIn at h
  split at h
  · cases h
  · rename_i i hi
    cases h
    cases hact : k.activeProc with
    | some a =>
      have htake : k.takeNext = k := by rw [takeNext, hact]
      rw [htake] at hi ⊢
      exact .stays i hi
    | none =>
      cases hq : k.runQueue.queueOut with
      | none =>
        have htake : k.takeNext = { k with activeProc := k.pidToProc 0 } := by
          rw [takeNext, hact, hq]
        have hfound : k.pidToProc 0 = some i := by
          rw [htake] at hi
          exact hi
        rw [htake, hfound]
        exact .idle i hact (Queue.queueOut_none.mp hq) hfound
      | some r =>
        obtain ⟨x, q⟩ := r
        have htake : k.takeNext = { k with runQueue := q, activeProc := k.pidToProc x } := by
          rw [takeNext, hact, hq]
        have hfound : k.pidToProc x = some i := by
          rw [htake] at hi
          exact hi
        rw [htake, hfound]
        exact .next i x q hact (Queue.queueOut_spec hq) hfound

/-! ## The removal loop

The bound of the loop shrinks when the process is found, so the last entries are
not looked at. -/

/-- What the loop makes of a queue of which `rest` is still to be looked at and
`kept` has been put back, after dropping the process `d` times. -/
def removed (pid : Int) : Nat → List Int → List Int → List Int
  | _, [], kept => kept
  | d, x :: rest, kept =>
    if d < rest.length + 1 then
      if pid = x then removed pid (d + 1) rest kept else removed pid d rest (kept ++ [x])
    else x :: rest ++ kept

theorem live_removeBody (pid : Int) : ∀ (rest kept : List Int) (d fuel : Nat) (q : Queue),
    q.toList = rest ++ kept → rest.length ≤ fuel →
    ∃ q', Loop.live (fun q : Queue => q.size) (removeBody pid) fuel (d + kept.length) q = .ok q' ∧
      q'.toList = removed pid d rest kept
  | [], kept, d, fuel, q, hq, _ => by
    refine ⟨q, ?_, hq⟩
    cases fuel with
    | zero => rfl
    | succ fuel =>
      rw [Loop.live, if_neg]
      rw [q.size_eq, hq, List.nil_append]
      omega
  | x :: rest, kept, d, 0, q, hq, hf => by simp at hf
  | x :: rest, kept, d, fuel + 1, q, hq, hf => by
    have hlen := q.length_le
    rw [hq, List.cons_append, List.length_cons, List.length_append] at hlen
    rw [List.length_cons] at hf
    have hcond : d + kept.length < q.size ↔ d < rest.length + 1 := by
      rw [q.size_eq, hq, List.length_append, List.length_cons]
      omega
    rw [Loop.live, removed]
    by_cases hd : d < rest.length + 1
    · rw [if_pos (hcond.mpr hd), if_pos hd, removeBody]
      obtain ⟨q₁, hout, hl₁⟩ := Queue.queueOut_cons (hq.trans (List.cons_append ..))
      simp only [hout]
      by_cases hx : pid = x
      · rw [if_pos hx, if_pos hx, Loop.ok_bind, Nat.add_right_comm]
        exact live_removeBody pid rest kept (d + 1) fuel q₁ hl₁ (by omega)
      · obtain ⟨q₂, hin, hl₂⟩ := q₁.queueIn_ok x (by rw [hl₁, List.length_append]; omega)
        rw [if_neg hx, if_neg hx, hin, Loop.ok_bind, Nat.add_assoc,
          ← List.length_singleton (a := x), ← List.length_append]
        refine live_removeBody pid rest (kept ++ [x]) d fuel q₂ ?_ (by omega)
        rw [hl₂, hl₁, List.append_assoc]
    · rw [if_neg (mt hcond.mp hd), if_neg hd]
      exact ⟨q, rfl, hq⟩

/-- `scheduler_remove` never fails on a queue. -/
theorem removeLoop_ok (pid : Int) (q : Queue) :
    ∃ q', removeLoop pid q = .ok q' ∧ q'.toList = removed pid 0 q.toList [] :=
  live_removeBody pid q.toList [] 0 queueSize q (List.append_nil _).symm q.length_le

/-- Until the process is found, entries go from the front to the end. -/
theorem removed_append {pid : Int} (rest : List Int) : ∀ (a kept : List Int), pid ∉ a →
    removed pid 0 (a ++ rest) kept = removed pid 0 rest (kept ++ a)
  | [], kept, _ => by rw [List.nil_append, List.append_nil]
  | x :: a, kept, h => by
    rw [List.mem_cons, not_or] at h
    rw [List.cons_append, removed, if_pos (Nat.succ_pos _), if_neg h.1,
      removed_append rest a _ h.2, List.append_assoc, List.singleton_append]

/-- A process that is not queued: the queue goes round once. -/
theorem removed_of_not_mem {pid : Int} (rest kept : List Int) (h : pid ∉ rest) :
    removed pid 0 rest kept = kept ++ rest := by
  have := removed_append [] rest kept h
  rwa [List.append_nil] at this

/-- After the process has been found, the last entry is not reached. -/
theorem removed_found {pid last : Int} : ∀ (a kept : List Int), pid ∉ a →
    removed pid 1 (a ++ [last]) kept = last :: (kept ++ a)
  | [], kept, _ => by
    rw [List.nil_append, removed, if_neg (by simp), List.append_nil, List.singleton_append]
  | x :: a, kept, h => by
    rw [List.mem_cons, not_or] at h
    rw [List.cons_append, removed, if_pos (by simp), if_neg h.1, removed_found a _ h.2,
      List.append_assoc, List.singleton_append]

/-- Which occurrences of the process survive: those among the entries the loop
does not reach. -/
theorem mem_removed {pid : Int} : ∀ (d : Nat) (rest kept : List Int), pid ∉ kept →
    (pid ∈ removed pid d rest kept ↔
      pid ∈ rest.drop (rest.length + 1 - d - rest.count pid))
  | d, [], kept, h => by simp [removed, h]
  | d, x :: rest, kept, h => by
    have hcount := List.count_pos_iff (a := pid) (l := rest)
    rw [removed, List.length_cons]
    by_cases hd : d < rest.length + 1
    · rw [if_pos hd]
      by_cases hx : pid = x
      · subst hx
        rw [if_pos rfl, mem_removed (d + 1) rest kept h, List.count_cons_self]
        cases hn : rest.length + 1 - d - rest.count pid with
        | zero =>
          have hmem : pid ∈ rest := hcount.mp (by omega)
          rw [show rest.length + 1 - (d + 1) - rest.count pid = 0 by omega,
            show rest.length + 1 + 1 - d - (rest.count pid + 1) = 0 by omega]
          simp [hmem]
        | succ n =>
          rw [show rest.length + 1 - (d + 1) - rest.count pid = n by omega,
            show rest.length + 1 + 1 - d - (rest.count pid + 1) = n + 1 by omega,
            List.drop_succ_cons]
      · rw [if_neg hx, mem_removed d rest (kept ++ [x]) (by simp [h, hx]),
          List.count_cons_of_ne (Ne.symm hx)]
        cases hn : rest.length + 1 + 1 - d - rest.count pid with
        | zero =>
          rw [show rest.length + 1 - d - rest.count pid = 0 by omega]
          simp [hx]
        | succ n =>
          rw [show rest.length + 1 - d - rest.count pid = n by omega, List.drop_succ_cons]
    · rw [if_neg hd]
      by_cases hmem : pid ∈ x :: rest
      · have hpos := List.count_pos_iff.mpr hmem
        rw [show rest.length + 1 + 1 - d - (x :: rest).count pid = 0 by omega, List.drop_zero]
        exact iff_of_true (List.mem_append_left _ hmem) hmem
      · refine iff_of_false ?_ fun hm => hmem (List.mem_of_mem_drop hm)
        rw [List.mem_append, not_or]
        exact ⟨hmem, h⟩

/-- What `scheduler_remove` leaves of a queue. -/
def unscheduled (k : Kernel) (i : Fin procMax) (w : SchedQueue) : List Int :=
  if (k.procTable i).schedulerQueue = some w then
    removed (k.procTable i).pid 0 (k.schedQueue w).toList []
  else (k.schedQueue w).toList

/-- `scheduler_remove` always returns. -/
theorem schedulerRemove_eq (k : Kernel) (i : Fin procMax) :
    ∃ r s : Queue, r.toList = k.unscheduled i .run ∧ s.toList = k.unscheduled i .sleep ∧
      k.schedulerRemove (some i) = .ok
        { k.modifyProc i fun p => { p with schedulerQueue := none } with
          runQueue := r
          sleepQueue := s
          activeProc := if k.activeProc = some i then none else k.activeProc } := by
  have hrem : ∀ k₁, k.unqueue i = .ok k₁ → k₁.activeProc = k.activeProc →
      k.schedulerRemove (some i) = .ok
        { k₁ with activeProc := if k.activeProc = some i then none else k.activeProc } := by
    intro k₁ h₁ hact
    rw [schedulerRemove, h₁, Loop.ok_bind, ← hact]
    split <;> rfl
  unfold unscheduled
  cases hw : (k.procTable i).schedulerQueue with
  | none =>
    refine ⟨k.runQueue, k.sleepQueue, rfl, rfl, ?_⟩
    rw [hrem k (by rw [unqueue, hw]) rfl, modifyProc_eq_self k i _ (by rw [← hw])]
  | some w =>
    obtain ⟨q, hq, hl⟩ := removeLoop_ok (k.procTable i).pid (k.schedQueue w)
    have hk₁ : k.unqueue i =
        .ok ((k.setSchedQueue q w).modifyProc i fun p => { p with schedulerQueue := none }) := by
      rw [unqueue, hw]
      dsimp only
      rw [hq, Loop.ok_bind]
    rw [hrem _ hk₁ (setSchedQueue_activeProc k q w)]
    cases w with
    | run => exact ⟨q, k.sleepQueue, by rw [if_pos rfl, hl], rfl, rfl⟩
    | sleep => exact ⟨k.runQueue, q, rfl, by rw [if_pos rfl, hl], rfl⟩

theorem schedulerRemove_eq_active {k : Kernel} {i : Fin procMax} (hact : k.activeProc = some i) :
    ∃ r s : Queue, r.toList = k.unscheduled i .run ∧ s.toList = k.unscheduled i .sleep ∧
      k.schedulerRemove (some i) = .ok
        { k.modifyProc i fun p => { p with schedulerQueue := none } with
          runQueue := r, sleepQueue := s, activeProc := none } := by
  obtain ⟨r, s, hr, hs, h⟩ := k.schedulerRemove_eq i
  rw [if_pos hact] at h
  exact ⟨r, s, hr, hs, h⟩

/-- `scheduler_remove` on the active process leaves none. -/
theorem schedulerRemove_active {k k' : Kernel} {i : Fin procMax} (hact : k.activeProc = some i)
    (h : k.schedulerRemove (some i) = .ok k') : k'.activeProc = none := by
  obtain ⟨r, s, _, _, hk⟩ := schedulerRemove_eq_active hact
  cases hk.symm.trans h
  rfl

theorem unscheduled_of_not_mem {k : Kernel} {i : Fin procMax} {w : SchedQueue}
    (h : (k.procTable i).pid ∉ (k.schedQueue w).toList) :
    k.unscheduled i w = (k.schedQueue w).toList := by
  unfold unscheduled
  split
  · rw [removed_of_not_mem _ _ h, List.nil_append]
  · rfl

/-- The process unscheduled, where no queue holds it: the active process, say. -/
theorem schedulerRemove_ok {k : Kernel} {i : Fin procMax} (hact : k.activeProc = some i)
    (hout : ∀ w, (k.procTable i).pid ∉ (k.schedQueue w).toList) :
    ∃ r s : Queue, r.toList = k.runQueue.toList ∧ s.toList = k.sleepQueue.toList ∧
      k.schedulerRemove (some i) = .ok
        { k.modifyProc i fun p => { p with schedulerQueue := none } with
          runQueue := r, sleepQueue := s, activeProc := none } := by
  obtain ⟨r, s, hr, hs, h⟩ := schedulerRemove_eq_active hact
  rw [unscheduled_of_not_mem (hout .run)] at hr
  rw [unscheduled_of_not_mem (hout .sleep)] at hs
  exact ⟨r, s, hr, hs, h⟩

end Kernel
end UnivOS
