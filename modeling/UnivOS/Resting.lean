import UnivOS.Results
import UnivOS.Sleepers

/-! # Processes at rest

In the runs without semaphore calls a process id other than the idle task's is
in at most one place (`Apart`), whoever makes the calls and whatever mutex ids
they name. Every operation but the timer then moves a process that is not asleep,
or none, so that it spares the sleepers (`Spares`).
-/
namespace UnivOS
namespace Kernel
open Word

/-- The idle task may be in several places; any other process is in one at most. -/
structure Apart (k : Kernel) : Prop where
  once : ∀ w x, x ≠ 0 → (k.places w).count x ≤ 1
  unique : ∀ w v x, x ≠ 0 → x ∈ k.places w → x ∈ k.places v → w = v
  live : ∀ w x, x ≠ 0 → x ∈ k.places w → ∃ i, k.Live i ∧ (k.procTable i).pid = x

/-- The process `x` is at most in `dst` afterwards, and no other one has come
anywhere. -/
structure Shift (k k' : Kernel) (x : Int) (dst : Option Place) : Prop where
  others : ∀ w y, y ≠ 0 → y ≠ x → (k'.places w).count y ≤ (k.places w).count y
  self : x ≠ 0 → ∀ w, (k'.places w).count x ≤ if dst = some w then 1 else 0
  table : ∀ j, k.Live j → (k.procTable j).pid ≠ x → k'.procTable j = k.procTable j
  live : x ≠ 0 → dst ≠ none → ∃ i, k'.Live i ∧ (k'.procTable i).pid = x

/-- The process is in no place but the sleep queue. -/
structure Rests (k : Kernel) (i : Fin procMax) : Prop where
  live : k.Live i
  notIdle : (k.procTable i).pid ≠ 0
  once : k.sleepQueue.toList.count (k.procTable i).pid ≤ 1
  away : ∀ w, w ≠ .sleep → (k.procTable i).pid ∉ k.places w

/-- The processes at rest have not been touched. -/
structure Spares (k k' : Kernel) : Prop where
  apart : Apart k'
  rests : ∀ i, Rests k i → Rests k' i ∧ k'.procTable i = k.procTable i

variable {k k' k'' : Kernel} {i j a : Fin procMax} {x : Int} {dst : Option Place} {rc : Int}

theorem Spares.trans (h : Spares k k') (h' : Spares k' k'') : Spares k k'' := by
  refine ⟨h'.apart, fun i hi => ?_⟩
  obtain ⟨hi', he⟩ := h.rests i hi
  obtain ⟨hi'', he'⟩ := h'.rests i hi'
  exact ⟨hi'', he'.trans he⟩

theorem Spares.refl (h : Apart k) : Spares k k := ⟨h, fun _ hi => ⟨hi, rfl⟩⟩

/-! ## One process moves -/

theorem Shift.dst_of_mem (hs : Shift k k' x dst) (hx : x ≠ 0) {w : Place} (hw : x ∈ k'.places w) :
    dst = some w := by
  have hcount := hs.self hx w
  have hpos := List.count_pos_iff.mpr hw
  by_contra hne
  rw [if_neg hne] at hcount
  omega

theorem Shift.mem_of_ne (hs : Shift k k' x dst) {y : Int} (hy : y ≠ 0) (hyx : y ≠ x) {w : Place}
    (hw : y ∈ k'.places w) : y ∈ k.places w := by
  have hle := hs.others w y hy hyx
  have hpos := List.count_pos_iff.mpr hw
  exact List.count_pos_iff.mp (by omega)

theorem Apart.shift (h : Apart k) (hs : Shift k k' x dst) : Apart k' := by
  refine ⟨fun w y hy => ?_, fun w v y hy hw hv => ?_, fun w y hy hw => ?_⟩
  · by_cases hyx : y = x
    · subst hyx
      have := hs.self hy w
      split at this <;> omega
    · exact (hs.others w y hy hyx).trans (h.once w y hy)
  · by_cases hyx : y = x
    · subst hyx
      exact Option.some.inj ((hs.dst_of_mem hy hw).symm.trans (hs.dst_of_mem hy hv))
    · exact h.unique w v y hy (hs.mem_of_ne hy hyx hw) (hs.mem_of_ne hy hyx hv)
  · by_cases hyx : y = x
    · subst hyx
      refine hs.live hy ?_
      rw [hs.dst_of_mem hy hw]
      exact nofun
    · obtain ⟨i, hi, rfl⟩ := h.live w y hy (hs.mem_of_ne hy hyx hw)
      have he := hs.table i hi hyx
      exact ⟨i, (live_congr he).mpr hi, by rw [he]⟩

theorem Rests.shift (h : Rests k i) (hs : Shift k k' x dst) (hx : (k.procTable i).pid ≠ x) :
    Rests k' i ∧ k'.procTable i = k.procTable i := by
  have he := hs.table i h.live hx
  refine ⟨⟨(live_congr he).mpr h.live, ?_, ?_, fun w hw hmem => ?_⟩, he⟩
  · rw [he]
    exact h.notIdle
  · rw [he]
    exact (hs.others .sleep _ h.notIdle hx).trans h.once
  · rw [he] at hmem
    exact h.away w hw (hs.mem_of_ne h.notIdle hx hmem)

/-- A process that is not asleep: it is somewhere else, or is the idle task, or new. -/
def Awake (k : Kernel) (x : Int) : Prop :=
  x = 0 ∨ (∃ w, w ≠ .sleep ∧ x ∈ k.places w) ∨ ∀ i, k.Live i → (k.procTable i).pid ≠ x

theorem Shift.spares (hs : Shift k k' x dst) (h : Apart k) (hx : k.Awake x) : Spares k k' := by
  refine ⟨h.shift hs, fun i hi => hi.shift hs ?_⟩
  rintro rfl
  rcases hx with h0 | ⟨w, hw, hmem⟩ | hnew
  · exact hi.notIdle h0
  · exact hi.away w hw hmem
  · exact hnew i hi.live rfl

/-- The head of a place goes to another one. -/
theorem Shift.of_head (w₀ : Place) (h : Apart k) {l : List Int} (hsrc : k.places w₀ = x :: l)
    (hle : ∀ w y, (k'.places w).count y ≤
      ((if w = w₀ then l else k.places w) ++ if dst = some w then [x] else []).count y)
    (htable : ∀ j, k.Live j → (k.procTable j).pid ≠ x → k'.procTable j = k.procTable j)
    (hlive : dst ≠ none → ∃ i, k'.Live i ∧ (k'.procTable i).pid = x) : Shift k k' x dst := by
  refine ⟨fun w y hy hyx => (hle w y).trans ?_, fun hx w => (hle w x).trans ?_, htable,
    fun _ => hlive⟩
  · have hnone : (if dst = some w then [x] else []).count y = 0 := by
      split
      · rw [List.count_singleton, if_neg (by simpa using Ne.symm hyx)]
      · rfl
    rw [List.count_append, hnone, Nat.add_zero]
    split
    · rename_i hw
      rw [hw, hsrc]
      exact List.count_le_count_cons
    · exact le_rfl
  · have hout : (if w = w₀ then l else k.places w).count x = 0 := by
      split
      · have := h.once w₀ x hx
        rw [hsrc, List.count_cons_self] at this
        omega
      · rename_i hw
        refine List.count_eq_zero.mpr fun hmem => hw ?_
        exact h.unique w w₀ x hx hmem (hsrc ▸ List.mem_cons_self)
    rw [List.count_append, hout, Nat.zero_add]
    split
    · rw [List.count_singleton_self]
    · rfl

/-- A process that has gone to sleep is at rest. -/
theorem Shift.rests (hs : Shift k k' x (some .sleep)) (hpid : (k'.procTable i).pid = x)
    (hx : x ≠ 0) (hlive : k'.Live i) : Rests k' i := by
  refine ⟨hlive, ?_, ?_, fun w hw hmem => ?_⟩
  · rw [hpid]
    exact hx
  · rw [hpid]
    exact hs.self hx .sleep
  · rw [hpid] at hmem
    exact hw (Option.some.inj (hs.dst_of_mem hx hmem)).symm

/-- Nobody comes anywhere. -/
theorem Shift.of_le (hle : ∀ w y, y ≠ 0 → (k'.places w).count y ≤ (k.places w).count y)
    (htable : ∀ j, k.Live j → (k.procTable j).pid ≠ 0 → k'.procTable j = k.procTable j) :
    Shift k k' 0 none :=
  ⟨fun w y hy _ => hle w y hy, fun h0 => absurd rfl h0, htable, fun h0 => absurd rfl h0⟩

/-! ## The active process -/

/-- A change of the active process's entry that moves nobody. -/
theorem Spares.of_places (h : Apart k) (hpl : k'.places = k.places)
    (htable : ∀ j, k.activeProc ≠ some j → k'.procTable j = k.procTable j)
    (hpid : ∀ j, (k'.procTable j).pid = (k.procTable j).pid) (hlive : ∀ j, k.Live j → k'.Live j) :
    Spares k k' := by
  refine ⟨⟨?_, ?_, fun w y hy hw => ?_⟩, fun i hi => ?_⟩
  · rw [hpl]
    exact h.once
  · rw [hpl]
    exact h.unique
  · rw [hpl] at hw
    obtain ⟨i, hi, hpi⟩ := h.live w y hy hw
    exact ⟨i, hlive i hi, (hpid i).trans hpi⟩
  · have he := htable i fun hact => hi.away .cpu nofun (mem_cpu.mpr ⟨i, hact, rfl⟩)
    refine ⟨⟨hlive i hi.live, ?_, ?_, ?_⟩, he⟩
    · rw [he]
      exact hi.notIdle
    · rw [he]
      show (k'.places .sleep).count _ ≤ 1
      rw [hpl]
      exact hi.once
    · rw [he, hpl]
      exact hi.away

theorem Spares.of_still (h : Apart k) (hs : Still k k')
    (htable : ∀ j, k.activeProc ≠ some j → k'.procTable j = k.procTable j) : Spares k k' := by
  refine .of_places h hs.places htable hs.pid fun j hj => ?_
  unfold Live
  rw [hs.state]
  exact hj

theorem entered_spares (h : Apart k) (e : Entry) : Spares k (k.entered e) :=
  .of_still h (entered_still k e) (entered_only k e).other

theorem setResult_spares (h : Apart k) (rc : Int) : Spares k (k.setResult rc) :=
  .of_still h (setResult_still k rc) (setResult_only k rc).other

/-- The active process changes, in its own entry, and stays. -/
theorem modifyProc_spares (h : Apart k) (hact : k.activeProc = some a) {f : Proc → Proc}
    (hpid : (f (k.procTable a)).pid = (k.procTable a).pid)
    (hlive : k.Live a → (f (k.procTable a)).state ≠ .none) : Spares k (k.modifyProc a f) := by
  refine .of_places h (places_modifyProc hpid) (fun j hj => ?_)
    (same_of_update Proc.pid rfl hpid) fun j hj => ?_
  · exact modifyProc_ne _ _ fun he => hj (he ▸ hact)
  · unfold Live
    by_cases hja : j = a
    · rw [hja, modifyProc_self]
      exact hlive (hja ▸ hj)
    · rw [modifyProc_ne _ _ hja]
      exact hj

theorem accountActive_spares (h : Apart k) : Spares k k.accountActive := by
  unfold accountActive
  split
  · exact .refl h
  · rename_i a hact
    exact modifyProc_spares h hact rfl id

/-- The active process leaves the processor. -/
theorem Shift.of_active {p : Proc} (h : Apart k) (hact : k.activeProc = some a)
    (hact' : k'.activeProc = none) (htable : k'.procTable = Function.update k.procTable a p)
    (hp : dst ≠ none → p.state ≠ .none ∧ p.pid = (k.procTable a).pid)
    (hle : ∀ w y, w ≠ .cpu → (k'.places w).count y ≤
      (k.places w ++ if dst = some w then [(k.procTable a).pid] else []).count y) :
    Shift k k' (k.procTable a).pid dst := by
  refine .of_head .cpu h (places_cpu_some hact) (fun w y => ?_) (fun j hj hne => ?_) fun hd => ?_
  · by_cases hw : w = .cpu
    · rw [hw, places_cpu_none hact']
      exact Nat.zero_le _
    · rw [if_neg hw]
      exact hle w y hw
  · rw [htable, Function.update_of_ne]
    exact fun he => hne (by rw [he])
  · refine ⟨a, ?_⟩
    unfold Live
    rw [htable, Function.update_self]
    exact hp hd

theorem awake_active (hact : k.activeProc = some a) : k.Awake (k.procTable a).pid :=
  .inr (.inl ⟨.cpu, nofun, mem_cpu.mpr ⟨a, hact, rfl⟩⟩)

theorem Spares.of_active (dst : Option Place) {p : Proc} (h : Apart k) (hact : k.activeProc = some a)
    (hact' : k'.activeProc = none) (htable : k'.procTable = Function.update k.procTable a p)
    (hp : dst ≠ none → p.state ≠ .none ∧ p.pid = (k.procTable a).pid)
    (hle : ∀ w y, w ≠ .cpu → (k'.places w).count y ≤
      (k.places w ++ if dst = some w then [(k.procTable a).pid] else []).count y) : Spares k k' :=
  (Shift.of_active h hact hact' htable hp hle).spares h (awake_active hact)

theorem removed_count_le (pid y : Int) : ∀ (d : Nat) (rest kept : List Int),
    (removed pid d rest kept).count y ≤ (rest ++ kept).count y
  | _, [], kept => by rw [removed, List.nil_append]
  | d, x :: rest, kept => by
    rw [removed, List.cons_append]
    split
    · split
      · exact (removed_count_le pid y (d + 1) rest kept).trans List.count_le_count_cons
      · refine (removed_count_le pid y d rest (kept ++ [x])).trans_eq ?_
        rw [← List.append_assoc, List.count_append, List.count_singleton, List.count_cons]
    · exact le_rfl

theorem unscheduled_count_le (k : Kernel) (i : Fin procMax) (w : SchedQueue) (y : Int) :
    (k.unscheduled i w).count y ≤ (k.schedQueue w).toList.count y := by
  unfold unscheduled
  split
  · refine (removed_count_le _ y 0 _ []).trans_eq ?_
    rw [List.append_nil]
  · exact le_rfl

theorem queueIn_count_le (q : Queue) (x y : Int) :
    ((q.queueIn x).getD q).toList.count y ≤ (q.toList ++ [x]).count y := by
  cases hq : q.queueIn x with
  | none =>
    rw [List.count_append]
    exact Nat.le_add_right _ _
  | some q' =>
    rw [Option.getD_some, Queue.queueIn_spec hq]

/-! ## The operations -/

/-- The active process leaves for a queue, which may be full. -/
theorem schedulerSleep_eq (hact : k.activeProc = some a)
    (hstate : (k.procTable a).state ≠ .sleeping) (time : Int) :
    ∃ r s : Queue, (∀ y, r.toList.count y ≤ k.runQueue.toList.count y) ∧
      (∀ y, s.toList.count y ≤ (k.sleepQueue.toList ++ [(k.procTable a).pid]).count y) ∧
      k.schedulerSleep (some a) time = .ok { k with
        procTable := Function.update k.procTable a { k.procTable a with
          sleepTime := time
          schedulerQueue := some .sleep
          state := .sleeping }
        runQueue := r
        sleepQueue := s
        activeProc := none } := by
  let k₁ := k.modifyProc a fun p => { p with sleepTime := time }
  obtain ⟨r, s, hr, hs, hrem⟩ := schedulerRemove_eq_active (k := k₁) hact
  refine ⟨r, (s.queueIn (k.procTable a).pid).getD s, fun y => ?_, fun y => ?_, ?_⟩
  · rw [hr]
    exact unscheduled_count_le k₁ a .run y
  · refine (queueIn_count_le s _ y).trans ?_
    rw [List.count_append, List.count_append, hs]
    exact Nat.add_le_add_right (unscheduled_count_le k₁ a .sleep y) _
  · rw [schedulerSleep]
    dsimp only
    rw [modifyProc_self, if_neg hstate, hrem, Loop.ok_bind]
    simp [k₁, modifyProc]

theorem mutexBlock_eq (hact : k.activeProc = some a) (m : Fin mutexMax) :
    ∃ r s q : Queue, (∀ y, r.toList.count y ≤ k.runQueue.toList.count y) ∧
      (∀ y, s.toList.count y ≤ k.sleepQueue.toList.count y) ∧
      (∀ y, q.toList.count y ≤
        ((k.mutexes m).waitQueue.toList ++ [(k.procTable a).pid]).count y) ∧
      k.mutexBlock m = .ok { k with
        procTable := Function.update k.procTable a { k.procTable a with
          state := .waiting
          schedulerQueue := none }
        runQueue := r
        sleepQueue := s
        mutexes := Function.update k.mutexes m { k.mutexes m with waitQueue := q }
        activeProc := none } := by
  let q := ((k.mutexes m).waitQueue.queueIn (k.procTable a).pid).getD (k.mutexes m).waitQueue
  let k₁ := (k.modifyMutex m fun x => { x with
    waitQueue := (x.waitQueue.queueIn (k.procTable a).pid).getD x.waitQueue }).modifyProc a
      fun p => { p with state := .waiting }
  obtain ⟨r, s, hr, hs, hrem⟩ := schedulerRemove_eq_active (k := k₁) hact
  refine ⟨r, s, q, fun y => ?_, fun y => ?_, fun y => queueIn_count_le _ _ y, ?_⟩
  · rw [hr]
    exact unscheduled_count_le k₁ a .run y
  · rw [hs]
    exact unscheduled_count_le k₁ a .sleep y
  · rw [mutexBlock, hact]
    refine hrem.trans ?_
    simp [k₁, modifyProc, modifyMutex, q]

theorem schedulerSleep_shift (h : Apart k) (hact : k.activeProc = some a)
    (hstate : (k.procTable a).state ≠ .sleeping) {time : Int}
    (hk : k.schedulerSleep (some a) time = .ok k') :
    Shift k k' (k.procTable a).pid (some .sleep) ∧
      k'.procTable a = { k.procTable a with
        sleepTime := time, schedulerQueue := some .sleep, state := .sleeping } := by
  obtain ⟨r, s, hr, hs, he⟩ := schedulerSleep_eq hact hstate time
  cases he.symm.trans hk
  refine ⟨.of_active h hact rfl rfl (fun _ => ⟨nofun, rfl⟩) fun w y hw => ?_,
    Function.update_self ..⟩
  cases w with
  | cpu => exact absurd rfl hw
  | run =>
    rw [if_neg nofun, List.append_nil]
    exact hr y
  | sleep =>
    rw [if_pos rfl]
    exact hs y
  | wait m => exact Nat.le_of_eq (by rw [if_neg nofun, List.append_nil]; rfl)

theorem schedulerSleep_spares (h : Apart k) (hact : k.activeProc = some a) {time : Int}
    (hk : k.schedulerSleep (some a) time = .ok k') : Spares k k' := by
  by_cases hstate : (k.procTable a).state = .sleeping
  · cases schedulerSleep_cases hk with
    | again _ => exact modifyProc_spares h hact rfl id
    | sleeps _ _ hawake _ _ => exact absurd hstate hawake
  · exact (schedulerSleep_shift h hact hstate hk).1.spares h (awake_active hact)

theorem mutexBlock_shift (h : Apart k) (hact : k.activeProc = some a) {m : Fin mutexMax}
    (hk : k.mutexBlock m = .ok k') : Shift k k' (k.procTable a).pid (some (.wait m)) := by
  obtain ⟨r, s, q, hr, hs, hq, he⟩ := mutexBlock_eq hact m
  cases he.symm.trans hk
  refine .of_active h hact rfl rfl (fun _ => ⟨nofun, rfl⟩) fun w y hw => ?_
  cases w with
  | cpu => exact absurd rfl hw
  | run =>
    rw [if_neg nofun, List.append_nil]
    exact hr y
  | sleep =>
    rw [if_neg nofun, List.append_nil]
    exact hs y
  | wait n =>
    by_cases hn : n = m
    · rw [hn, if_pos rfl]
      simpa [places] using hq y
    · rw [if_neg (by simpa using Ne.symm hn), List.append_nil]
      simp [places, hn]

/-- A mutex that gets no new waiters. -/
theorem Spares.of_mutexes (h : Apart k) {f : Fin mutexMax → Mutex} {q : Queue}
    (hf : ∀ m y, (f m).waitQueue.toList.count y ≤ (k.mutexes m).waitQueue.toList.count y) :
    Spares k { k with mutexes := f, mutexQueue := q } := by
  have hs : Shift k { k with mutexes := f, mutexQueue := q } 0 none := by
    refine .of_le (fun w y _ => ?_) fun _ _ _ => rfl
    cases w with
    | wait m => exact hf m y
    | _ => exact le_rfl
  exact hs.spares h (.inl rfl)

theorem modifyMutex_spares (h : Apart k) {m : Fin mutexMax} {f : Mutex → Mutex}
    (hf : ∀ y, (f (k.mutexes m)).waitQueue.toList.count y ≤ (k.mutexes m).waitQueue.toList.count y) :
    Spares k (k.modifyMutex m f) := by
  refine .of_mutexes (q := k.mutexQueue) h fun n y => ?_
  by_cases hn : n = m
  · rw [hn, Function.update_self]
    exact hf y
  · rw [Function.update_of_ne hn]

theorem kmutexLock_spares (h : Apart k) {id : Int} (hk : k.kmutexLock id = .ok (rc, k')) :
    Spares k k' := by
  unfold kmutexLock at hk
  split at hk
  · cases hk
    exact .refl h
  · rename_i m _
    obtain ⟨k₁, h₁, h₂⟩ := Loop.bind_eq_ok.mp hk
    cases h₂
    have hacq : Spares k k₁ := by
      unfold mutexAcquire at h₁
      split at h₁
      · cases hact : k.activeProc with
        | none =>
          rw [mutexBlock, hact] at h₁
          cases h₁
          exact .refl h
        | some a => exact (mutexBlock_shift h hact h₁).spares h (awake_active hact)
      · cases h₁
        exact modifyMutex_spares h fun _ => le_rfl
    exact hacq.trans (modifyMutex_spares hacq.apart fun _ => le_rfl)

/-- The head of a queue is put on the run queue; `k₁` is the kernel it has been taken
off the queue in. -/
theorem Shift.of_runnable (w₀ : Place) (k₁ : Kernel) {r : Queue} {l : List Int} (h : Apart k)
    (hw₀ : w₀ ≠ .cpu) (hsrc : k.places w₀ = x :: l) (hx : (k.procTable j).pid = x)
    (hpid : (k₁.procTable j).pid = x) (htable : ∀ i, i ≠ j → k₁.procTable i = k.procTable i)
    (hact : k₁.activeProc = k.activeProc) (hrun : r.toList = k.runQueue.toList ++ [x])
    (hwr : w₀ ≠ .run)
    (hplaces : ∀ w, w ≠ .cpu → w ≠ .run → k₁.places w = if w = w₀ then l else k.places w) :
    Shift k (k₁.runnable j r) x (some .run) := by
  refine .of_head w₀ h hsrc (fun w y => Nat.le_of_eq ?_) (fun i _ hne => ?_)
    fun _ => ⟨j, live_runnable k₁ j r, ?_⟩
  · cases w with
    | cpu =>
      have hcpu : (k₁.runnable j r).places .cpu = k.places .cpu := by
        unfold places
        dsimp only
        rw [runnable_activeProc, hact]
        congr 2
        funext i
        rw [runnable_pid]
        by_cases hi : i = j
        · rw [hi, hpid, hx]
        · rw [htable i hi]
      rw [hcpu, if_neg (Ne.symm hw₀), if_neg nofun, List.append_nil]
    | run =>
      rw [if_neg (Ne.symm hwr), if_pos rfl]
      exact congrArg (List.count y) hrun
    | sleep =>
      rw [if_neg (c := some Place.run = some .sleep) nofun, List.append_nil,
        ← hplaces .sleep nofun nofun]
      rfl
    | wait m =>
      rw [if_neg (c := some Place.run = some (.wait m)) nofun, List.append_nil,
        ← hplaces (.wait m) nofun nofun]
      rfl
  · have hij : i ≠ j := fun he => hne (by rw [he, hx])
    rw [runnable_ne _ _ hij, htable i hij]
  · rw [runnable_pid, hpid]

theorem mutexHandOff_spares (h : Apart k) {m : Fin mutexMax} (hk : k.mutexHandOff m = .ok k') :
    Spares k k' := by
  unfold mutexHandOff at hk
  split at hk
  · cases hk
    exact .refl h
  · rename_i pid q hq
    have hwait := Queue.queueOut_spec hq
    dsimp only at hk
    split at hk
    · cases hk
      refine modifyMutex_spares h fun y => ?_
      rw [hwait]
      exact List.count_le_count_cons
    · rename_i j hj
      obtain ⟨k₂, h₂, h₃⟩ := Loop.bind_eq_ok.mp hk
      cases h₃
      obtain ⟨r, rfl, hr⟩ := schedulerAdd_eq h₂
      have hpid : (k.procTable j).pid = pid := pid_of_pidToProc hj
      have hr' : r.toList = k.runQueue.toList ++ [pid] := hr.trans (by rw [← hpid]; rfl)
      have hs := Shift.of_runnable (.wait m) (k.modifyMutex m fun x =>
        { x with waitQueue := q }) h nofun hwait hpid hpid (fun _ _ => rfl) rfl hr' nofun ?_
      · have hwoken := hs.spares h (.inr (.inl ⟨.wait m, nofun, by
          show pid ∈ (k.mutexes m).waitQueue.toList
          rw [hwait]
          exact List.mem_cons_self⟩))
        exact hwoken.trans (modifyMutex_spares hwoken.apart fun _ => le_rfl)
      · intro w hcpu hrun
        cases w with
        | cpu => exact absurd rfl hcpu
        | run => exact absurd rfl hrun
        | sleep => rfl
        | wait n =>
          by_cases hn : n = m
          · rw [hn, if_pos rfl]
            exact congrArg (fun x => x.waitQueue.toList) (modifyMutex_self k m _)
          · rw [if_neg (by simpa using hn)]
            exact congrArg (fun x => x.waitQueue.toList) (modifyMutex_ne k _ hn)

theorem kmutexUnlock_spares (h : Apart k) {id : Int} (hk : k.kmutexUnlock id = .ok (rc, k')) :
    Spares k k' := by
  unfold kmutexUnlock at hk
  split at hk
  · cases hk
    exact .refl h
  · rename_i m _
    split at hk
    · cases hk
      exact .refl h
    · split at hk
      · cases hk
        exact .refl h
      · obtain ⟨k₁, h₁, h₂⟩ := Loop.bind_eq_ok.mp hk
        cases h₂
        have hdec := modifyMutex_spares h (m := m)
          (f := fun x => { x with locks := wrap32 (x.locks - 1) }) fun _ => le_rfl
        refine hdec.trans ?_
        unfold mutexRelease at h₁
        split at h₁
        · cases h₁
          exact modifyMutex_spares hdec.apart fun _ => le_rfl
        · exact mutexHandOff_spares hdec.apart h₁

theorem kmutexInit_spares (h : Apart k) : Spares k k.kmutexInit.2 := by
  have hwait : ∀ n y, (k.kmutexInit.2.mutexes n).waitQueue.toList.count y ≤
      (k.mutexes n).waitQueue.toList.count y := by
    intro n y
    cases kmutexInit_effect k with
    | refused _ hmut _ => rw [hmut]
    | allocated m _ _ hmut =>
      rw [hmut]
      by_cases hn : n = m
      · rw [hn, Function.update_self]
        exact Nat.zero_le _
      · rw [Function.update_of_ne hn]
  obtain ⟨f, q, hk⟩ := kmutexInit_frame k
  rw [hk] at hwait ⊢
  exact .of_mutexes h hwait

theorem kmutexDestroy_spares (h : Apart k) (id : Int) : Spares k (k.kmutexDestroy id).2 := by
  unfold kmutexDestroy
  split
  · exact .refl h
  · rename_i m _
    split
    · exact .refl h
    · refine .of_mutexes h fun n y => ?_
      by_cases hn : n = m
      · rw [hn, Function.update_self]
        exact Nat.zero_le _
      · rw [Function.update_of_ne hn]

theorem mutexCall_spares (h : Apart k) {call : MutexCall} (hk : k.mutexCall call = .ok (rc, k')) :
    Spares k k' := by
  cases call with
  | init => exact eq_of_ok hk ▸ kmutexInit_spares h
  | destroy id => exact eq_of_ok hk ▸ kmutexDestroy_spares h id
  | lock id => exact kmutexLock_spares h hk
  | unlock id => exact kmutexUnlock_spares h hk

theorem kprocCreate_spares (h : Apart k) (ht : TableOk k) {ptr : BitVec 32}
    {name : Option (List Byte)} {type : ProcType} (hk : k.kprocCreate ptr name type = .ok (rc, k')) :
    Spares k k' := by
  rcases kprocCreate_cases ht hk with ⟨_, _, rfl⟩ | ⟨i, q, p, m, hi, _, _, hp, hst, _, hadd⟩
  · exact .refl h
  · obtain ⟨r, rfl, hr⟩ := schedulerAdd_eq hadd
    let k₁ := k.allotProc i p q m
    have hself : k₁.procTable i = p := allotProc_self k p q m
    have hother : ∀ j, k.Live j → (k₁.runnable i r).procTable j = k.procTable j := by
      intro j hj
      have hji : j ≠ i := fun he => hi (he ▸ hj)
      rw [runnable_ne _ _ hji, allotProc_ne k p q m hji]
    have hnew : ∀ j, k.Live j → (k.procTable j).pid ≠ k.nextPid :=
      fun j hj => Int.ne_of_lt (ht.pid_range j hj).2
    have hcpu : (k₁.runnable i r).places .cpu = k.places .cpu := by
      cases hact : k.activeProc with
      | none => rw [places_cpu_none hact, places_cpu_none (by exact hact)]
      | some a =>
        have ha := hother a (ht.active_live a hact)
        rw [places_cpu_some hact, places_cpu_some (k := k₁.runnable i r) (i := a) hact, ha]
    have hrun : (k₁.runnable i r).places .run = k.places .run ++ [k.nextPid] := by
      refine hr.trans ?_
      show k.runQueue.toList ++ [(k₁.procTable i).pid] = _
      rw [hself, hp]
      rfl
    have hout : k.nextPid ≠ 0 → ∀ w, (k.places w).count k.nextPid = 0 := by
      intro hne w
      refine List.count_eq_zero.mpr fun hmem => ?_
      obtain ⟨j, hj, hpj⟩ := h.live w _ hne hmem
      exact hnew j hj hpj
    have hs : Shift k (k₁.runnable i r) k.nextPid (some .run) := by
      refine ⟨fun w y _ hy => ?_, fun hne w => ?_, fun j hj _ => hother j hj,
        fun _ _ => ⟨i, live_runnable k₁ i r, ?_⟩⟩
      · cases w with
        | cpu => rw [hcpu]
        | run =>
          rw [hrun, List.count_append, List.count_singleton, if_neg (by simpa using Ne.symm hy),
            Nat.add_zero]
        | _ => exact le_rfl
      · have h0 := hout hne w
        cases w with
        | cpu => rw [hcpu, h0]; exact Nat.zero_le _
        | run => rw [hrun, List.count_append, h0, List.count_singleton_self, if_pos rfl]
        | sleep => exact (Nat.le_of_eq h0).trans (Nat.zero_le _)
        | wait m => exact (Nat.le_of_eq h0).trans (Nat.zero_le _)
      · rw [runnable_pid, hself, hp]
    exact hs.spares h (.inr (.inr hnew))

theorem kprocDestroy_spares (h : Apart k) (ht : TableOk k) (hact : k.activeProc = some a)
    (hk : k.kprocDestroy (some a) = .ok (rc, k')) : Spares k k' := by
  rcases kprocDestroy_cases ht (ht.active_live a hact) hk with
    ⟨_, _, rfl⟩ | ⟨k₁, q, _, _, hrem, _, rfl⟩
  · exact .refl h
  · obtain ⟨r, s, hr, hs, he⟩ := schedulerRemove_eq_active hact
    cases he.symm.trans hrem
    refine .of_active none (p := Proc.zero) h hact rfl (Function.update_idem ..)
      (fun hn => absurd rfl hn) fun w y hw => ?_
    rw [if_neg nofun, List.append_nil]
    cases w with
    | cpu => exact absurd rfl hw
    | run =>
      show r.toList.count y ≤ _
      rw [hr]
      exact unscheduled_count_le k a .run y
    | sleep =>
      show s.toList.count y ≤ _
      rw [hs]
      exact unscheduled_count_le k a .sleep y
    | wait m => exact le_rfl

/-! ## The scheduler -/

theorem scheduleOut_spares (h : Apart k) (hk : k.scheduleOut = .ok k') : Spares k k' := by
  have hleft : ∀ (a : Fin procMax) (p : Proc), k.activeProc = some a →
      Spares k { k with procTable := Function.update k.procTable a p, activeProc := none } := by
    intro a p hact
    refine .of_active none h hact rfl rfl (fun hn => absurd rfl hn) fun w y hw => ?_
    rw [if_neg nofun, List.append_nil]
    cases w with
    | cpu => exact absurd rfl hw
    | _ => exact le_rfl
  cases scheduleOut_cases hk with
  | idle _ => exact .refl h
  | stays _ _ _ => exact .refl h
  | leaves a hact _ =>
    have := hleft a (k.procTable a) hact
    rwa [Function.update_eq_self] at this
  | rests a hact _ => exact hleft a _ hact
  | queued a r hact _ hr =>
    refine .of_active (some .run) h hact rfl rfl (fun _ => ⟨nofun, rfl⟩) fun w y hw => ?_
    cases w with
    | cpu => exact absurd rfl hw
    | run =>
      rw [if_pos rfl]
      exact Nat.le_of_eq (congrArg (List.count y) hr)
    | _ =>
      rw [if_neg nofun, List.append_nil]
      exact le_rfl

/-- The process becomes the active one. -/
theorem Shift.of_dispatched {r : Queue} (h : Apart k) (hact : k.activeProc = none)
    (hx : (k.procTable i).pid = x)
    (hrun : k.runQueue.toList = x :: r.toList ∨ x = 0 ∧ r = k.runQueue) :
    Shift k (({ k with runQueue := r, activeProc := some i } : Kernel).modifyProc i fun p =>
      { p with state := .active }) x (some .cpu) := by
  let k₁ : Kernel := { k with runQueue := r, activeProc := some i }
  have hself : (k₁.modifyProc i fun p => { p with state := .active }).procTable i =
      { k.procTable i with state := .active } := modifyProc_self ..
  have hcpu : (k₁.modifyProc i fun p => { p with state := .active }).places .cpu = [x] := by
    rw [places_cpu_some (i := i) rfl, hself, ← hx]
  have htable : ∀ j, k.Live j → (k.procTable j).pid ≠ x →
      (k₁.modifyProc i fun p => { p with state := .active }).procTable j = k.procTable j := by
    intro j _ hne
    exact modifyProc_ne k₁ _ fun he => hne (he ▸ hx)
  rcases hrun with hrun | ⟨rfl, rfl⟩
  · refine .of_head .run h hrun (fun w y => ?_) htable
      fun _ => ⟨i, live_of_state (congrArg Proc.state hself) nofun, ?_⟩
    · cases w with
      | cpu =>
        rw [hcpu, if_neg nofun, places_cpu_none hact, if_pos rfl]
        exact le_rfl
      | _ => exact Nat.le_of_eq (by simp [places])
    · rw [hself]
      exact hx
  · refine ⟨fun w y hy _ => ?_, fun h0 => absurd rfl h0, htable, fun h0 => absurd rfl h0⟩
    cases w with
    | cpu =>
      rw [hcpu, List.count_singleton, if_neg (by simpa using Ne.symm hy)]
      exact Nat.zero_le _
    | _ => exact le_rfl

theorem scheduleIn_spares (h : Apart k) (hk : k.scheduleIn = .ok k') : Spares k k' := by
  cases scheduleIn_cases hk with
  | stays i hact => exact modifyProc_spares h hact rfl fun _ => nofun
  | idle i hact _ hfound =>
    exact (Shift.of_dispatched (r := k.runQueue) h hact (pid_of_pidToProc hfound)
      (.inr ⟨rfl, rfl⟩)).spares h (.inl rfl)
  | next i x q hact hrun hfound =>
    refine (Shift.of_dispatched h hact (pid_of_pidToProc hfound) (.inl hrun)).spares h
      (.inr (.inl ⟨.run, nofun, ?_⟩))
    show x ∈ k.runQueue.toList
    rw [hrun]
    exact List.mem_cons_self

theorem schedulerRun_spares (h : Apart k) (hk : k.schedulerRun = .ok k') : Spares k k' := by
  obtain ⟨k₁, h₁, h₂⟩ := Loop.bind_eq_ok.mp hk
  have hout := scheduleOut_spares h h₁
  exact hout.trans (scheduleIn_spares hout.apart h₂)

end Kernel
end UnivOS
