import UnivOS.Kernel
import UnivOS.Lib.IdPool

/-! # The process table

`TableOk`: the allocator holds the free entries, process ids are unique, entry 0
is the idle task and the active process exists. It holds in every state the
kernel reaches, whatever the events. Most operations only move processes between
queues and states (`Keeps`); creation and destruction are treated apart.
-/
namespace UnivOS
namespace Kernel
open Word

def idleProc : Fin procMax := ⟨0, by decide⟩

/-- The entry is in use. -/
def Live (k : Kernel) (i : Fin procMax) : Prop := (k.procTable i).state ≠ .none

instance (k : Kernel) (i : Fin procMax) : Decidable (k.Live i) :=
  inferInstanceAs (Decidable (_ ≠ _))

theorem live_congr {k k' : Kernel} {i : Fin procMax} (h : k'.procTable i = k.procTable i) :
    k'.Live i ↔ k.Live i := by
  unfold Live
  rw [h]

theorem live_of_state {k : Kernel} {i : Fin procMax} {state : ProcState}
    (h : (k.procTable i).state = state) (hs : state ≠ .none) : k.Live i := by
  unfold Live
  rwa [h]

theorem live_runnable (k : Kernel) (i : Fin procMax) (q : Queue) : (k.runnable i q).Live i :=
  live_of_state (runnable_state k q) nofun

structure TableOk (k : Kernel) : Prop where
  alloc : IdPool.Exact k.procAllocator.toList fun i => ¬ k.Live i
  free_pid : ∀ i, ¬ k.Live i → (k.procTable i).pid = 0
  pid_inj : ∀ i j, k.Live i → k.Live j → (k.procTable i).pid = (k.procTable j).pid → i = j
  pid_range : ∀ i, k.Live i → 0 ≤ (k.procTable i).pid ∧ (k.procTable i).pid < k.nextPid
  idle_live : k.Live idleProc
  idle_pid : (k.procTable idleProc).pid = 0
  active_live : ∀ i, k.activeProc = some i → k.Live i

/-- The same processes in the same entries, and no newly active one. -/
structure SameTable (k k' : Kernel) : Prop where
  alloc : k'.procAllocator = k.procAllocator
  nextPid : k'.nextPid = k.nextPid
  pid : ∀ i, (k'.procTable i).pid = (k.procTable i).pid
  live : ∀ i, k'.Live i ↔ k.Live i
  active : ∀ i, k'.activeProc = some i → k.activeProc = some i

/-- Processes are at most moved: what they will resume with is the same too. -/
structure Keeps (k k' : Kernel) : Prop extends SameTable k k' where
  trapframe : ∀ i, (k'.procTable i).trapframe = (k.procTable i).trapframe

variable {k k' k'' : Kernel} {i j : Fin procMax} {pid rc : Int} {f : Proc → Proc}

theorem Keeps.refl (k : Kernel) : Keeps k k :=
  ⟨⟨rfl, rfl, fun _ => rfl, fun _ => Iff.rfl, fun _ => id⟩, fun _ => rfl⟩

theorem SameTable.trans (h : SameTable k k') (h' : SameTable k' k'') : SameTable k k'' where
  alloc := h'.alloc.trans h.alloc
  nextPid := h'.nextPid.trans h.nextPid
  pid i := (h'.pid i).trans (h.pid i)
  live i := (h'.live i).trans (h.live i)
  active i hi := h.active i (h'.active i hi)

theorem Keeps.trans (h : Keeps k k') (h' : Keeps k' k'') : Keeps k k'' :=
  ⟨h.toSameTable.trans h'.toSameTable, fun i => (h'.trapframe i).trans (h.trapframe i)⟩

/-- A change outside the table, or one that clears `active_proc`. -/
theorem Keeps.of_table (hp : k'.procTable = k.procTable) (ha : k'.procAllocator = k.procAllocator)
    (hn : k'.nextPid = k.nextPid) (hact : ∀ i, k'.activeProc = some i → k.activeProc = some i) :
    Keeps k k' := by
  refine ⟨⟨ha, hn, fun i => ?_, fun i => ?_, hact⟩, fun i => ?_⟩
  · rw [hp]
  · exact live_congr (by rw [hp])
  · rw [hp]

/-- A change to one entry that leaves its process id and leaves it in use, and a
change outside the table with it. -/
theorem SameTable.of_update {p : Proc} (hk : k'.procTable = Function.update k.procTable i p)
    (ha : k'.procAllocator = k.procAllocator) (hn : k'.nextPid = k.nextPid)
    (hact : ∀ i, k'.activeProc = some i → k.activeProc = some i)
    (hp : p.pid = (k.procTable i).pid) (hl : p.state ≠ .none ↔ k.Live i) : SameTable k k' where
  alloc := ha
  nextPid := hn
  pid := same_of_update Proc.pid hk hp
  live j := by
    unfold Live
    rw [hk]
    by_cases hj : j = i
    · rw [hj, Function.update_self, hl]; rfl
    · rw [Function.update_of_ne hj]
  active := hact

theorem Keeps.of_update {p : Proc} (hk : k'.procTable = Function.update k.procTable i p)
    (ha : k'.procAllocator = k.procAllocator) (hn : k'.nextPid = k.nextPid)
    (hact : ∀ i, k'.activeProc = some i → k.activeProc = some i)
    (hp : p.pid = (k.procTable i).pid) (hl : p.state ≠ .none ↔ k.Live i)
    (ht : p.trapframe = (k.procTable i).trapframe) : Keeps k k' :=
  ⟨SameTable.of_update hk ha hn hact hp hl, same_of_update Proc.trapframe hk ht⟩

theorem Keeps.of_modifyProc (hp : (f (k.procTable i)).pid = (k.procTable i).pid)
    (hl : (f (k.procTable i)).state ≠ .none ↔ k.Live i)
    (ht : (f (k.procTable i)).trapframe = (k.procTable i).trapframe) :
    Keeps k (k.modifyProc i f) :=
  Keeps.of_update rfl rfl rfl (fun _ => id) hp hl ht

theorem ActiveOnly.sameTable (h : ActiveOnly k k') : SameTable k k' where
  alloc := h.frame Kernel.procAllocator fun _ _ => rfl
  nextPid := h.frame Kernel.nextPid fun _ _ => rfl
  pid := h.pid
  live i := by rw [Live, h.state, Live]
  active _ hi := (h.frame Kernel.activeProc fun _ _ => rfl).symm.trans hi

theorem SameTable.tableOk (h : SameTable k k') (ht : TableOk k) : TableOk k' where
  alloc := by
    rw [h.alloc]
    exact ht.alloc.congr fun i => not_congr (h.live i).symm
  free_pid i hi := by rw [h.pid]; exact ht.free_pid i fun hl => hi ((h.live i).mpr hl)
  pid_inj i j hi hj he := by
    rw [h.pid, h.pid] at he
    exact ht.pid_inj i j ((h.live i).mp hi) ((h.live j).mp hj) he
  pid_range i hi := by
    rw [h.pid, h.nextPid]
    exact ht.pid_range i ((h.live i).mp hi)
  idle_live := (h.live idleProc).mpr ht.idle_live
  idle_pid := by rw [h.pid]; exact ht.idle_pid
  active_live i hi := (h.live i).mpr (ht.active_live i (h.active i hi))

/-! ## Looking up processes -/

theorem TableOk.pid_eq_zero (h : TableOk k) (hi : k.Live i) :
    (k.procTable i).pid = 0 ↔ i = idleProc := by
  constructor
  · intro h0
    exact h.pid_inj i idleProc hi h.idle_live (h0.trans h.idle_pid.symm)
  · rintro rfl; exact h.idle_pid

theorem TableOk.pidToProc_pid (h : TableOk k) (hi : k.Live i) :
    k.pidToProc (k.procTable i).pid = some i := by
  rw [pidToProc, Fin.find?_eq_some_iff]
  refine ⟨beq_self_eq_true _, fun j hj => beq_false_of_ne fun he => ?_⟩
  by_cases hl : k.Live j
  · exact absurd (h.pid_inj j i hl hi he) (Fin.ne_of_lt hj)
  · -- a free entry has process id 0, which the idle task in entry 0 has first
    rw [h.free_pid j hl, eq_comm, h.pid_eq_zero hi] at he
    rw [he] at hj
    exact absurd hj (Nat.not_lt_zero _)

theorem TableOk.of_pidToProc (h : TableOk k) (hp : k.pidToProc pid = some i) :
    k.Live i ∧ (k.procTable i).pid = pid := by
  rw [pidToProc, Fin.find?_eq_some_iff] at hp
  obtain ⟨he, hfirst⟩ := hp
  rw [beq_iff_eq] at he
  refine ⟨?_, he⟩
  by_contra hl
  have h0 := h.free_pid i hl
  have hne : i ≠ idleProc := fun hi => hl (hi ▸ h.idle_live)
  have hlt : idleProc < i := Nat.pos_of_ne_zero fun hv => hne (Fin.ext hv)
  have := hfirst idleProc hlt
  rw [h.idle_pid, ← he, h0] at this
  exact absurd this (by decide)

theorem TableOk.procToEntry_self (h : TableOk k) (hi : k.Live i) : k.procToEntry i = some i := by
  rw [← h.pidToProc_pid hi, procToEntry, pidToProc]
  congr 1
  funext j
  exact Bool.beq_comm

/-! ## The scheduler keeps the table -/

theorem runnable_keeps (hi : k.Live i) (q : Queue) : Keeps k (k.runnable i q) :=
  Keeps.of_update rfl rfl rfl (fun _ => id) rfl (iff_of_true nofun hi) rfl

theorem schedulerAdd_keeps (hi : k.Live i) (h : k.schedulerAdd (some i) = .ok k') :
    Keeps k k' := by
  obtain ⟨q, rfl, _⟩ := schedulerAdd_eq h
  exact runnable_keeps hi q

theorem schedulerRemove_keeps (h : k.schedulerRemove (some i) = .ok k') : Keeps k k' := by
  obtain ⟨r, s, _, _, hk⟩ := k.schedulerRemove_eq i
  cases hk.symm.trans h
  refine Keeps.of_update rfl rfl rfl (fun j hj => ?_) rfl Iff.rfl rfl
  dsimp only at hj
  split at hj
  · cases hj
  · exact hj

theorem schedulerRemove_ne (h : k.schedulerRemove (some i) = .ok k') :
    k'.activeProc ≠ some i := by
  by_cases hact : k.activeProc = some i
  · rw [schedulerRemove_active hact h]
    exact nofun
  · exact fun hi => hact ((schedulerRemove_keeps h).active i hi)

theorem schedulerSleep_keeps (hi : k.Live i) {time : Int}
    (h : k.schedulerSleep (some i) time = .ok k') : Keeps k k' := by
  have h0 : Keeps k (k.modifyProc i fun p => { p with sleepTime := time }) :=
    Keeps.of_modifyProc rfl Iff.rfl rfl
  cases schedulerSleep_cases h with
  | again _ => exact h0
  | sleeps k₁ _ _ hrem hmoved =>
    rw [hmoved]
    have hk := h0.trans (schedulerRemove_keeps hrem)
    have hl : (k₁.procTable i).state ≠ .none := (hk.live i).mpr hi
    exact hk.trans (Keeps.of_update rfl rfl rfl (fun _ => id) rfl (iff_of_true nofun hl) rfl)

theorem timerBody_keeps (ht : TableOk k) (h : k.timerBody = .ok k') : Keeps k k' := by
  cases timerBody_cases h with
  | empty _ => exact Keeps.refl k
  | lost _ _ _ _ => exact Keeps.of_table rfl rfl rfl fun _ => id
  | kept _ _ _ _ _ _ _ _ => exact Keeps.of_update rfl rfl rfl (fun _ => id) rfl Iff.rfl rfl
  | woken x q r i _ hfound _ _ =>
    have hticked : Keeps k (({ k with sleepQueue := q } : Kernel).modifyProc i fun p =>
        { p with sleepTime := wrap32 ((k.procTable i).sleepTime - 1) }) :=
      Keeps.of_update rfl rfl rfl (fun _ => id) rfl Iff.rfl rfl
    exact hticked.trans (runnable_keeps ((hticked.live i).mpr (ht.of_pidToProc hfound).1) r)

theorem accountActive_keeps (k : Kernel) : Keeps k k.accountActive := by
  unfold accountActive
  split
  · exact Keeps.refl k
  · exact Keeps.of_modifyProc rfl Iff.rfl rfl

theorem schedulerTimer_keeps (ht : TableOk k) (h : k.schedulerTimer = .ok k') : Keeps k k' := by
  have h0 := accountActive_keeps k
  refine Loop.live_inv (fun k' => Keeps k k') ?_ _ _ h0 h
  intro s t hs hst
  exact hs.trans (timerBody_keeps (hs.tableOk ht) hst)

theorem scheduleOut_keeps (ht : TableOk k) (h : k.scheduleOut = .ok k') : Keeps k k' := by
  cases scheduleOut_cases h with
  | idle _ => exact Keeps.refl k
  | stays _ _ _ => exact Keeps.refl k
  | leaves _ _ _ => exact Keeps.of_table rfl rfl rfl nofun
  | queued i _ hact _ _ =>
    exact Keeps.of_update rfl rfl rfl nofun rfl (iff_of_true nofun (ht.active_live i hact)) rfl
  | rests i hact _ =>
    exact Keeps.of_update rfl rfl rfl nofun rfl (iff_of_true nofun (ht.active_live i hact)) rfl

/-- The process is made active, which exists. -/
structure Dispatches (i : Fin procMax) (k k' : Kernel) : Prop where
  active : k'.activeProc = some i
  found : k.activeProc = some i ∨ ∃ x, k.pidToProc x = some i
  table : k'.procTable = Function.update k.procTable i { k.procTable i with state := .active }
  alloc : k'.procAllocator = k.procAllocator
  nextPid : k'.nextPid = k.nextPid

theorem scheduleIn_dispatches (h : k.scheduleIn = .ok k') : ∃ i, Dispatches i k k' := by
  cases scheduleIn_cases h with
  | stays i hact => exact ⟨i, hact, .inl hact, rfl, rfl, rfl⟩
  | next i x _ _ _ hfound => exact ⟨i, rfl, .inr ⟨x, hfound⟩, rfl, rfl, rfl⟩
  | idle i _ _ hfound => exact ⟨i, rfl, .inr ⟨0, hfound⟩, rfl, rfl, rfl⟩

theorem Dispatches.keeps (h : Dispatches i k k') (ht : TableOk k) :
    Keeps k { k' with activeProc := none } := by
  have hlive : k.Live i := by
    rcases h.found with hact | ⟨x, hx⟩
    · exact ht.active_live i hact
    · exact (ht.of_pidToProc hx).1
  exact Keeps.of_update h.table h.alloc h.nextPid nofun rfl (iff_of_true nofun hlive) rfl

/-- `scheduler_run` dispatches a process that exists. -/
theorem scheduleIn_tableOk (ht : TableOk k) (h : k.scheduleIn = .ok k') :
    TableOk k' ∧ ∃ i, k'.activeProc = some i ∧ (k'.procTable i).state = .active := by
  obtain ⟨i, hd⟩ := scheduleIn_dispatches h
  have hstate : (k'.procTable i).state = .active := by rw [hd.table, Function.update_self]
  have h₁ := (hd.keeps ht).tableOk ht
  refine ⟨⟨h₁.alloc, h₁.free_pid, h₁.pid_inj, h₁.pid_range, h₁.idle_live, h₁.idle_pid,
    fun j hj => ?_⟩, i, hd.active, hstate⟩
  cases hd.active.symm.trans hj
  exact live_of_state hstate nofun

theorem schedulerRun_tableOk (ht : TableOk k) (h : k.schedulerRun = .ok k') :
    TableOk k' ∧ ∃ i, k'.activeProc = some i ∧ (k'.procTable i).state = .active := by
  obtain ⟨k₁, h₁, h₂⟩ := Loop.bind_eq_ok.mp h
  exact scheduleIn_tableOk ((scheduleOut_keeps ht h₁).tableOk ht) h₂

/-! ## Creation and destruction -/

theorem allotProc_self (k : Kernel) (p : Proc) (q : Queue) (m : Memory) :
    (k.allotProc i p q m).procTable i = p := Function.update_self ..

theorem allotProc_ne (k : Kernel) (p : Proc) (q : Queue) (m : Memory) (h : j ≠ i) :
    (k.allotProc i p q m).procTable j = k.procTable j := Function.update_of_ne h ..

theorem allotProc_live {p : Proc} {q : Queue} {m : Memory} :
    (k.allotProc i p q m).Live j ↔ j ≠ i ∧ k.Live j ∨ j = i ∧ p.state ≠ .none := by
  unfold Live
  by_cases hj : j = i
  · subst hj; simp [allotProc_self]
  · simp [allotProc_ne k p q m hj, hj]

theorem freeProc_self (k : Kernel) (q : Queue) :
    (k.freeProc i q).procTable i = Proc.zero := Function.update_self ..

theorem freeProc_ne (k : Kernel) (q : Queue) (h : j ≠ i) :
    (k.freeProc i q).procTable j = k.procTable j := Function.update_of_ne h ..

theorem freeProc_live {q : Queue} : (k.freeProc i q).Live j ↔ k.Live j ∧ j ≠ i := by
  unfold Live
  by_cases hj : j = i
  · subst hj; simp [freeProc_self, Proc.zero]
  · simp [freeProc_ne k q hj, hj]

/-- What `kproc_create` does when it returns. -/
theorem kprocCreate_ok {ptr : BitVec 32} {name : Option (List Byte)} {type : ProcType}
    (h : k.kprocCreate ptr name type = .ok (rc, k')) :
    (k.procAllocator.toList = [] ∧ rc = -1 ∧ k' = k) ∨
    ∃ (i : Fin procMax) (q : Queue) (name' : List Byte), name = some name' ∧
      k.procAllocator.toList = ((i : Nat) : Int) :: q.toList ∧ InInt32 (k.nextPid + 1) ∧
      rc = k.nextPid ∧
      (k.allotProc i (k.newProc i name' type) q (k.newStack i ptr)).schedulerAdd (some i) =
        .ok k' := by
  unfold kprocCreate at h
  cases name with
  | none => cases h
  | some name' =>
    dsimp only at h
    split at h
    · cases h
    · split at h
      · rename_i hq
        cases h
        exact .inl ⟨Queue.queueOut_none.mp hq, rfl, rfl⟩
      · rename_i entry q hq
        split at h
        · cases h
        · rename_i i hi
          split at h
          · rename_i hin
            obtain ⟨k₁, hadd, h⟩ := Loop.bind_eq_ok.mp h
            cases h
            obtain ⟨r, rfl, _⟩ := schedulerAdd_eq hadd
            refine .inr ⟨i, q, name', rfl, ?_, hin, ?_, hadd⟩
            · rw [Queue.queueOut_spec hq, index_eq_some.mp hi]
            · rw [runnable_pid, allotProc_self]
              rfl
          · cases h

/-- The same where the table is in order: the entry that is filled in was free. -/
theorem kprocCreate_cases (ht : TableOk k) {ptr : BitVec 32} {name : Option (List Byte)}
    {type : ProcType} (h : k.kprocCreate ptr name type = .ok (rc, k')) :
    (k.procAllocator.toList = [] ∧ rc = -1 ∧ k' = k) ∨
    ∃ (i : Fin procMax) (q : Queue) (p : Proc) (m : Memory), ¬ k.Live i ∧
      k.procAllocator.toList = (i : Int) :: q.toList ∧ InInt32 (k.nextPid + 1) ∧
      p.pid = k.nextPid ∧ p.state = .idle ∧ rc = k.nextPid ∧
      (k.allotProc i p q m).schedulerAdd (some i) = .ok k' := by
  rcases kprocCreate_ok h with hnone | ⟨i, q, name', _, hq, hin, hrc, hadd⟩
  · exact .inl hnone
  · have hfree := ht.alloc.mem_val (i := i)
    rw [hq] at hfree
    exact .inr ⟨i, q, k.newProc i name' type, k.newStack i ptr, hfree.mp List.mem_cons_self, hq,
      hin, rfl, rfl, hrc, hadd⟩

/-- A free entry taken from the allocator and filled in. -/
theorem TableOk.allotProc (ht : TableOk k) {q : Queue} {p : Proc} {m : Memory} (hi : ¬ k.Live i)
    (hq : k.procAllocator.toList = (i : Int) :: q.toList) (hp : p.pid = k.nextPid)
    (hs : p.state ≠ .none) : TableOk (k.allotProc i p q m) := by
  have hne : ∀ j, k.Live j → j ≠ i := fun j hj he => hi (he ▸ hj)
  have hlive : ∀ j, (k.allotProc i p q m).Live j ↔ k.Live j ∨ j = i := by
    intro j
    rw [allotProc_live]
    by_cases hj : j = i
    · simp [hj, hs]
    · simp [hj]
  have hother : ∀ j, k.Live j → (k.allotProc i p q m).procTable j = k.procTable j :=
    fun j hj => allotProc_ne k p q m (hne j hj)
  have hnext : (k.allotProc i p q m).nextPid = k.nextPid + 1 := rfl
  have ha := ht.alloc
  rw [hq] at ha
  obtain ⟨i', hi', _, ha⟩ := ha.take
  obtain rfl := IdPool.val_inj.mp hi'
  refine ⟨ha.congr fun j => ?_, fun j hj => ?_, fun j j' hj hj' he => ?_, fun j hj => ?_, ?_, ?_,
    fun j hj => ?_⟩
  · rw [hlive, not_or]
  · rw [hlive, not_or] at hj
    rw [allotProc_ne k p q m hj.2]
    exact ht.free_pid j hj.1
  · -- the new process id is larger than those in use
    rw [hlive] at hj hj'
    rcases hj with hj | rfl
    · rcases hj' with hj' | rfl
      · rw [hother j hj, hother j' hj'] at he
        exact ht.pid_inj j j' hj hj' he
      · rw [hother j hj, allotProc_self, hp] at he
        have := ht.pid_range j hj
        omega
    · rcases hj' with hj' | rfl
      · rw [hother j' hj', allotProc_self, hp] at he
        have := ht.pid_range j' hj'
        omega
      · rfl
  · rw [hlive] at hj
    rcases hj with hj | rfl
    · have := ht.pid_range j hj
      rw [hother j hj]
      omega
    · have := ht.pid_range idleProc ht.idle_live
      rw [allotProc_self, hp]
      omega
  · rw [hlive]; exact .inl ht.idle_live
  · rw [hother idleProc ht.idle_live]
    exact ht.idle_pid
  · rw [hlive]
    exact .inl (ht.active_live j hj)

theorem kprocCreate_tableOk (ht : TableOk k) {ptr : BitVec 32} {name : Option (List Byte)}
    {type : ProcType} (h : k.kprocCreate ptr name type = .ok (rc, k')) : TableOk k' := by
  rcases kprocCreate_cases ht h with ⟨_, _, rfl⟩ | ⟨i, q, p, m, hi, hq, _, hp, hs, _, hadd⟩
  · exact ht
  · have hs' : p.state ≠ .none := by rw [hs]; exact nofun
    refine (schedulerAdd_keeps ?_ hadd).tableOk (ht.allotProc hi hq hp hs')
    exact allotProc_live.mpr (.inr ⟨rfl, hs'⟩)

/-- Where the run queue has room, `kproc_create` returns. -/
theorem kprocCreate_returns (ht : TableOk k) (hroom : k.runQueue.toList.length < queueSize)
    {ptr : BitVec 32} {name : Option (List Byte)} (type : ProcType) (hptr : ptr ≠ 0)
    (hname : name ≠ none) (hnext : InInt32 (k.nextPid + 1)) :
    ∃ rc k', k.kprocCreate ptr name type = .ok (rc, k') := by
  obtain ⟨name, rfl⟩ := Option.ne_none_iff_exists'.mp hname
  cases hq : k.procAllocator.queueOut with
  | none => exact ⟨-1, k, by simp only [kprocCreate, if_neg hptr, hq]⟩
  | some r =>
    obtain ⟨entry, q⟩ := r
    have halloc := ht.alloc
    rw [Queue.queueOut_spec hq] at halloc
    obtain ⟨i, rfl, _⟩ := halloc.take
    let k₁ := k.allotProc i (k.newProc i name type) q (k.newStack i ptr)
    obtain ⟨r, hadd, _⟩ := k₁.schedulerAdd_ok i hroom
    refine ⟨((k₁.runnable i r).procTable i).pid, k₁.runnable i r, ?_⟩
    simp only [kprocCreate, if_neg hptr, hq, index_val, if_pos hnext]
    rw [hadd, Loop.ok_bind]

/-- What `kproc_destroy` does to a process when it returns. -/
theorem kprocDestroy_cases (ht : TableOk k) (hi : k.Live i)
    (h : k.kprocDestroy (some i) = .ok (rc, k')) :
    (i = idleProc ∧ rc = -1 ∧ k' = k) ∨
    ∃ (k₁ : Kernel) (q : Queue), i ≠ idleProc ∧ rc = 0 ∧
      k.schedulerRemove (some i) = .ok k₁ ∧ q.toList = k.procAllocator.toList ++ [(i : Int)] ∧
      k' = k₁.freeProc i q := by
  unfold kprocDestroy at h
  dsimp only at h
  split at h
  · rename_i h0
    cases h
    exact .inl ⟨(ht.pid_eq_zero hi).mp h0, rfl, rfl⟩
  · rename_i h0
    obtain ⟨k₁, h₁, h₂⟩ := Loop.bind_eq_ok.mp h
    have hk := schedulerRemove_keeps h₁
    rw [(hk.tableOk ht).procToEntry_self ((hk.live i).mpr hi)] at h₂
    have hlen : k₁.procAllocator.toList.length < queueSize := by
      rw [hk.alloc]
      exact Nat.lt_of_lt_of_le (ht.alloc.length_lt (not_not_intro hi)) (by decide)
    obtain ⟨q, hq, hl⟩ := k₁.procAllocator.queueIn_ok (i : Nat) hlen
    simp only [hq] at h₂
    cases h₂
    refine .inr ⟨k₁, q, fun he => h0 ((ht.pid_eq_zero hi).mpr he), rfl, h₁, ?_, rfl⟩
    rw [hl, hk.alloc]

/-- An entry cleared and given back to the allocator. -/
theorem TableOk.freeProc (ht : TableOk k) (hi : k.Live i) (hne : i ≠ idleProc)
    (hact : k.activeProc ≠ some i) {q : Queue}
    (hq : q.toList = k.procAllocator.toList ++ [(i : Int)]) : TableOk (k.freeProc i q) := by
  refine ⟨?_, fun j hj => ?_, fun j j' hj hj' he => ?_, fun j hj => ?_, ?_, ?_, fun j hj => ?_⟩
  · show IdPool.Exact q.toList _
    rw [hq]
    refine (ht.alloc.give (not_not_intro hi)).congr fun j => ?_
    rw [freeProc_live, not_and_or, not_not]
  · by_cases hji : j = i
    · subst hji; rw [freeProc_self]; rfl
    · rw [freeProc_ne k q hji]
      exact ht.free_pid j fun hl => hj (freeProc_live.mpr ⟨hl, hji⟩)
  · obtain ⟨hj, hji⟩ := freeProc_live.mp hj
    obtain ⟨hj', hji'⟩ := freeProc_live.mp hj'
    rw [freeProc_ne k q hji, freeProc_ne k q hji'] at he
    exact ht.pid_inj j j' hj hj' he
  · obtain ⟨hj, hji⟩ := freeProc_live.mp hj
    rw [freeProc_ne k q hji]
    exact ht.pid_range j hj
  · exact freeProc_live.mpr ⟨ht.idle_live, hne.symm⟩
  · rw [freeProc_ne k q hne.symm]; exact ht.idle_pid
  · exact freeProc_live.mpr ⟨ht.active_live j hj, fun he => hact (he ▸ hj)⟩

theorem kprocDestroy_tableOk (ht : TableOk k) (hi : k.Live i)
    (h : k.kprocDestroy (some i) = .ok (rc, k')) : TableOk k' := by
  rcases kprocDestroy_cases ht hi h with ⟨_, _, rfl⟩ | ⟨k₁, q, hne, _, h₁, hq, rfl⟩
  · exact ht
  · have hk := schedulerRemove_keeps h₁
    rw [← hk.alloc] at hq
    exact (hk.tableOk ht).freeProc ((hk.live i).mpr hi) hne (schedulerRemove_ne h₁) hq

/-! ## Mutexes and semaphores -/

theorem Keeps.of_mutexes (k : Kernel) (f : Fin mutexMax → Mutex) (q : Queue) :
    Keeps k { k with mutexes := f, mutexQueue := q } := Keeps.of_table rfl rfl rfl fun _ => id

theorem kmutexLock_keeps (ht : TableOk k) {id : Int} (h : k.kmutexLock id = .ok (rc, k')) :
    Keeps k k' := by
  cases hi : index mutexMax id with
  | none =>
    rw [kmutexLock, hi] at h
    cases h
    exact Keeps.refl k
  | some m =>
    rw [index_eq_some.mp hi] at h
    cases (kmutexLock_cases h).2 with
    | acquires _ same => rw [same]; exact Keeps.of_mutexes k _ k.mutexQueue
    | counts _ _ same => rw [same]; exact Keeps.of_mutexes k _ k.mutexQueue
    | blocks i _ _ _ caller same =>
      rw [same]
      exact Keeps.of_update rfl rfl rfl (by simp) rfl
        (iff_of_true (by simp) (ht.active_live i caller)) rfl

theorem kmutexUnlock_keeps (ht : TableOk k) {id : Int} (h : k.kmutexUnlock id = .ok (rc, k')) :
    Keeps k k' := by
  cases hi : index mutexMax id with
  | none =>
    rw [kmutexUnlock, hi] at h
    cases h
    exact Keeps.refl k
  | some m =>
    rw [index_eq_some.mp hi] at h
    cases kmutexUnlock_cases h with
    | refused _ same => rw [same]; exact Keeps.refl k
    | frees _ _ _ same => rw [same]; exact Keeps.of_mutexes k _ k.mutexQueue
    | keeps _ _ _ _ same => rw [same]; exact Keeps.of_mutexes k _ k.mutexQueue
    | handsOff j _ _ r _ _ _ next same =>
      rw [same]
      refine Keeps.trans ?_ (.of_mutexes (k.runnable j r) _ k.mutexQueue)
      exact runnable_keeps (ht.of_pidToProc next).1 r

theorem mutexCall_keeps (ht : TableOk k) {call : MutexCall}
    (h : k.mutexCall call = .ok (rc, k')) : Keeps k k' := by
  cases call with
  | init =>
    obtain ⟨f, q, hk⟩ := kmutexInit_frame k
    rw [eq_of_ok h, hk]
    exact .of_mutexes k f q
  | destroy id =>
    obtain ⟨f, q, hk⟩ := kmutexDestroy_frame k id
    rw [eq_of_ok h, hk]
    exact .of_mutexes k f q
  | lock id => exact kmutexLock_keeps ht h
  | unlock id => exact kmutexUnlock_keeps ht h

theorem Keeps.of_sem (k : Kernel) (f : Fin semMax → Sem) (q : Queue) :
    Keeps k { k with semaphores := f, semQueue := q } := Keeps.of_table rfl rfl rfl fun _ => id

theorem ksemWait_keeps {id : Int} (h : k.ksemWait id = .ok (rc, k')) : Keeps k k' := by
  cases ksemWait_effect h with
  | returns f same _ => rw [same]; exact .of_sem k f k.semQueue
  | blocks _ _ k₁ _ _ _ _ _ _ _ removes same =>
    rw [same]
    exact (schedulerRemove_keeps removes).trans (Keeps.of_table rfl rfl rfl fun _ hi => nomatch hi)

theorem ksemPost_keeps {id : Int} (h : k.ksemPost id = .ok (rc, k')) : Keeps k k' := by
  cases ksemPost_effect h with
  | counts f same => rw [same]; exact .of_sem k f k.semQueue
  | wakes i q f live same =>
    rw [same]
    exact (runnable_keeps live q).trans (.of_sem _ f k.semQueue)

theorem semCall_keeps {call : SemCall} (h : k.semCall call = .ok (rc, k')) : Keeps k k' := by
  cases call with
  | init value =>
    obtain ⟨f, q, hk⟩ := ksemInit_frame k value
    rw [eq_of_ok h, hk]
    exact .of_sem k f q
  | destroy id =>
    obtain ⟨f, q, hk⟩ := ksemDestroy_frame k id
    rw [eq_of_ok h, hk]
    exact .of_sem k f q
  | wait id => exact ksemWait_keeps h
  | post id => exact ksemPost_keeps h

/-! ## Events and system calls -/

theorem tick_keeps (ht : TableOk k) (h : k.tick = .ok k') : Keeps k k' := by
  have h0 : Keeps k { k with timerTicks := wrap32 (k.timerTicks + 1) } :=
    Keeps.of_table rfl rfl rfl fun _ => id
  exact h0.trans (schedulerTimer_keeps (h0.tableOk ht) h)

/-- The events that neither create nor destroy a process, nor go through the dispatcher. -/
def KeepsProcs : Event → Prop
  | .create .. => False
  | .destroy => False
  | .syscall => False
  | _ => True

theorem handle_keeps (ht : TableOk k) {ev : Event} (hev : KeepsProcs ev)
    (h : k.handle ev = .ok (rc, k')) : Keeps k k' := by
  cases ev with
  | tick =>
    obtain ⟨k₁, h₁, h₂⟩ := Loop.bind_eq_ok.mp h
    cases h₂
    exact tick_keeps ht h₁
  | create => exact hev.elim
  | destroy => exact hev.elim
  | sleep time =>
    obtain ⟨k₁, h₁, h₂⟩ := Loop.bind_eq_ok.mp h
    cases h₂
    cases hact : k.activeProc with
    | none => rw [hact] at h₁; cases h₁
    | some a =>
      rw [hact] at h₁
      exact schedulerSleep_keeps (ht.active_live a hact) h₁
  | mutex call => exact mutexCall_keeps ht h
  | sem call => exact semCall_keeps h
  | syscall => exact hev.elim

theorem keepsProcs_of_event {tf : Trapframe} {call : Syscall} {ev : Event} (hne : call ≠ .procExit)
    (h : call.event tf = some ev) : KeepsProcs ev := by
  cases call <;> cases h
  case procExit => exact absurd rfl hne
  all_goals trivial

/-- Every system call but exit keeps the table. -/
theorem ksyscall_keeps (ht : TableOk k) {tf : Trapframe} {call : Syscall} (hne : call ≠ .procExit)
    (h : k.ksyscall tf call = .ok (rc, k')) : Keeps k k' := by
  cases hcall : call.event tf with
  | none =>
    obtain ⟨ttys, mem, rfl⟩ := ksyscall_frame hcall h
    exact Keeps.of_table rfl rfl rfl fun _ => id
  | some ev =>
    rw [ksyscall_event hcall] at h
    exact handle_keeps ht (keepsProcs_of_event hne hcall) h

theorem kprocDestroy_active_tableOk (ht : TableOk k)
    (h : k.kprocDestroy k.activeProc = .ok (rc, k')) : TableOk k' := by
  cases hact : k.activeProc with
  | none => rw [hact] at h; cases h
  | some i =>
    rw [hact] at h
    exact kprocDestroy_tableOk ht (ht.active_live i hact) h

theorem setResult_keeps (k : Kernel) (rc : Int) : Keeps k (k.setResult rc) := by
  obtain ⟨mem, hk⟩ := setResult_frame k rc
  rw [hk]
  exact .of_table rfl rfl rfl fun _ => id

theorem setResult_sameTable (k : Kernel) (rc : Int) : SameTable k (k.setResult rc) :=
  (setResult_keeps k rc).toSameTable

theorem ksyscallIrqHandler_tableOk (ht : TableOk k)
    (h : k.ksyscallIrqHandler = .ok (rc, k')) : TableOk k' := by
  obtain ⟨_, _, call, k₁, _, _, _, h₁, rfl⟩ := ksyscallIrqHandler_call h
  refine (setResult_sameTable k₁ rc).tableOk ?_
  by_cases hexit : call = .procExit
  · subst hexit
    exact kprocDestroy_active_tableOk ht h₁
  · exact (ksyscall_keeps ht hexit h₁).tableOk ht

/-! ## Kernel entries -/

theorem handle_tableOk (ht : TableOk k) {ev : Event} (h : k.handle ev = .ok (rc, k')) :
    TableOk k' := by
  cases ev with
  | create ptr name type => exact kprocCreate_tableOk ht h
  | destroy => exact kprocDestroy_active_tableOk ht h
  | syscall => exact ksyscallIrqHandler_tableOk ht h
  | tick => exact (handle_keeps ht (by trivial) h).tableOk ht
  | sleep time => exact (handle_keeps ht (by trivial) h).tableOk ht
  | mutex call => exact (handle_keeps ht (by trivial) h).tableOk ht
  | sem call => exact (handle_keeps ht (by trivial) h).tableOk ht

/-- The kernel when the handler starts. -/
def entered (k : Kernel) (e : Entry) : Kernel := { k with mem := e.mem }.saveTrapframe e.frame

theorem entered_only (k : Kernel) (e : Entry) : ActiveOnly k (k.entered e) := by
  unfold entered saveTrapframe
  split
  · exact ⟨rfl, fun _ _ => rfl, fun _ => rfl, fun _ => rfl, fun _ => rfl⟩
  · rename_i i hact
    refine ⟨rfl, fun j hj => ?_, same_of_update Proc.pid rfl rfl, same_of_update Proc.state rfl rfl,
      same_of_update Proc.sleepTime rfl rfl⟩
    exact modifyProc_ne { k with mem := e.mem } _ fun he => hj (he ▸ hact)

theorem entered_sameTable (k : Kernel) (e : Entry) : SameTable k (k.entered e) :=
  (entered_only k e).sameTable

/-- An entry that returns: its handler and the scheduler return. -/
theorem kernelContextEnter_ok {e : Entry} (h : kernelContextEnter e k = .ok (rc, k')) :
    ∃ k₁, (k.entered e).handle e.event = .ok (rc, k₁) ∧ k₁.schedulerRun = .ok k' := by
  obtain ⟨⟨rc₁, k₁⟩, h₁, h₂⟩ := Loop.bind_eq_ok.mp h
  obtain ⟨k₂, h₂, h₃⟩ := Loop.bind_eq_ok.mp h₂
  split at h₃
  · cases h₃
  · cases h₃
    exact ⟨k₁, h₁, h₂⟩

theorem kernelContextEnter_tableOk (ht : TableOk k) {e : Entry}
    (h : kernelContextEnter e k = .ok (rc, k')) :
    TableOk k' ∧ ∃ i, k'.activeProc = some i ∧ (k'.procTable i).state = .active := by
  obtain ⟨k₁, h₁, h₂⟩ := kernelContextEnter_ok h
  exact schedulerRun_tableOk (handle_tableOk ((entered_sameTable k e).tableOk ht) h₁) h₂

end Kernel
end UnivOS
