import UnivOS.Boot

/-! # Names and rings of processes

What scheduling leaves alone: the terminals, the tick count, the semaphores, and of every
process its name and the rings it is attached to. A process that is created or destroyed
changes its own entry, and only system calls touch the terminals and the semaphores.
-/
namespace UnivOS
namespace Kernel
open Word

/-- The entry has the same process id, name, rings and time. -/
structure SameEntry (p p' : Proc) : Prop where
  pid : p'.pid = p.pid
  name : p'.name = p.name
  io : p'.io = p.io
  runTime : p'.runTime = p.runTime

/-- The terminals, the tick count, the semaphores and the next process id are the same, and
every process has the name, the rings and the time it had. -/
structure SameFiles (k k' : Kernel) : Prop where
  ttys : k'.ttys = k.ttys
  timerTicks : k'.timerTicks = k.timerTicks
  semaphores : k'.semaphores = k.semaphores
  nextPid : k'.nextPid = k.nextPid
  entry : ∀ i, SameEntry (k.procTable i) (k'.procTable i)

variable {k k' k'' : Kernel} {i : Fin procMax} {rc : Int} {n : Nat}

theorem SameEntry.refl (p : Proc) : SameEntry p p := ⟨rfl, rfl, rfl, rfl⟩

theorem SameEntry.trans {p q r : Proc} (h : SameEntry p q) (h' : SameEntry q r) : SameEntry p r :=
  ⟨h'.pid.trans h.pid, h'.name.trans h.name, h'.io.trans h.io, h'.runTime.trans h.runTime⟩

theorem SameFiles.refl (k : Kernel) : SameFiles k k := ⟨rfl, rfl, rfl, rfl, fun _ => .refl _⟩

theorem SameFiles.trans (h : SameFiles k k') (h' : SameFiles k' k'') : SameFiles k k'' where
  ttys := h'.ttys.trans h.ttys
  timerTicks := h'.timerTicks.trans h.timerTicks
  semaphores := h'.semaphores.trans h.semaphores
  nextPid := h'.nextPid.trans h.nextPid
  entry j := (h.entry j).trans (h'.entry j)

theorem SameFiles.of_table (hp : k'.procTable = k.procTable) (ht : k'.ttys = k.ttys)
    (hticks : k'.timerTicks = k.timerTicks) (hsems : k'.semaphores = k.semaphores)
    (hnext : k'.nextPid = k.nextPid) : SameFiles k k' :=
  ⟨ht, hticks, hsems, hnext, fun j => by rw [hp]; exact .refl _⟩

/-- One entry has changed, but nothing in it that counts. -/
theorem SameFiles.of_update {p : Proc} (hk : k'.procTable = Function.update k.procTable i p)
    (ht : k'.ttys = k.ttys) (hticks : k'.timerTicks = k.timerTicks)
    (hsems : k'.semaphores = k.semaphores) (hnext : k'.nextPid = k.nextPid)
    (hp : SameEntry (k.procTable i) p) : SameFiles k k' := by
  refine ⟨ht, hticks, hsems, hnext, fun j => ?_⟩
  rw [hk]
  by_cases hj : j = i
  · rw [hj, Function.update_self]
    exact hp
  · rw [Function.update_of_ne hj]
    exact .refl _

/-! ## The scheduler -/

theorem schedulerAdd_sameFiles (h : k.schedulerAdd (some i) = .ok k') : SameFiles k k' := by
  obtain ⟨q, rfl, _⟩ := schedulerAdd_eq h
  exact .of_update rfl rfl rfl rfl rfl ⟨rfl, rfl, rfl, rfl⟩

theorem schedulerRemove_sameFiles (h : k.schedulerRemove (some i) = .ok k') : SameFiles k k' := by
  obtain ⟨r, s, _, _, hk⟩ := k.schedulerRemove_eq i
  cases hk.symm.trans h
  exact .of_update rfl rfl rfl rfl rfl ⟨rfl, rfl, rfl, rfl⟩

theorem schedulerSleep_sameFiles {time : Int} (h : k.schedulerSleep (some i) time = .ok k') :
    SameFiles k k' := by
  have htime : SameFiles k (k.modifyProc i fun p => { p with sleepTime := time }) :=
    .of_update rfl rfl rfl rfl rfl ⟨rfl, rfl, rfl, rfl⟩
  cases schedulerSleep_cases h with
  | again _ => exact htime
  | sleeps k₁ k₂ _ hrem hmoved =>
    have hqueued : SameFiles k₁ k₂ := by
      rw [hmoved]
      exact .of_update rfl rfl rfl rfl rfl ⟨rfl, rfl, rfl, rfl⟩
    exact (htime.trans (schedulerRemove_sameFiles hrem)).trans
      (hqueued.trans (.of_table rfl rfl rfl rfl rfl))

theorem timerBody_sameFiles (h : k.timerBody = .ok k') : SameFiles k k' := by
  cases timerBody_cases h with
  | empty _ => exact .refl k
  | lost _ q _ _ => exact .of_table rfl rfl rfl rfl rfl
  | kept _ _ q i _ _ _ _ => exact .of_update rfl rfl rfl rfl rfl ⟨rfl, rfl, rfl, rfl⟩
  | woken _ q r i _ _ _ _ =>
    refine SameFiles.of_update (p := { k.procTable i with
      sleepTime := wrap32 ((k.procTable i).sleepTime - 1)
      schedulerQueue := some .run, state := .idle, cpuTime := 0 }) (i := i) ?_ rfl rfl rfl rfl
      ⟨rfl, rfl, rfl, rfl⟩
    simp [runnable, modifyProc]

/-- A kernel whose active process has run for one more tick. -/
def charged (k : Kernel) : Kernel :=
  { k with procTable := fun i =>
      { k.procTable i with
        runTime := if k.activeProc = some i then wrap32 ((k.procTable i).runTime + 1)
          else (k.procTable i).runTime } }

theorem accountActive_sameFiles (k : Kernel) : SameFiles k.charged k.accountActive := by
  refine ⟨?_, ?_, ?_, ?_, fun i => ?_⟩
  · rw [accountActive]; split <;> rfl
  · rw [accountActive]; split <;> rfl
  · rw [accountActive]; split <;> rfl
  · rw [accountActive]; split <;> rfl
  rw [accountActive]
  cases hact : k.activeProc with
  | none => exact ⟨rfl, rfl, rfl, by simp [charged, hact]⟩
  | some a =>
    by_cases hi : i = a
    · rw [hi]
      dsimp only
      rw [modifyProc_self]
      exact ⟨rfl, rfl, rfl, by simp [charged, hact]⟩
    · dsimp only
      rw [modifyProc_ne k _ hi]
      exact ⟨rfl, rfl, rfl, by simp [charged, hact, Ne.symm hi]⟩

theorem schedulerTimer_sameFiles (h : k.schedulerTimer = .ok k') : SameFiles k.charged k' :=
  Loop.live_inv (fun k' => SameFiles k.charged k')
    (fun _ _ hs hst => hs.trans (timerBody_sameFiles hst)) _ _ (accountActive_sameFiles k) h

theorem schedulerRun_sameFiles (h : k.schedulerRun = .ok k') : SameFiles k k' := by
  obtain ⟨k₁, h₁, h₂⟩ := Loop.bind_eq_ok.mp h
  have hout : SameFiles k k₁ := by
    cases scheduleOut_cases h₁ with
    | idle _ => exact .refl k
    | stays _ _ _ => exact .refl k
    | leaves _ _ _ => exact .of_table rfl rfl rfl rfl rfl
    | queued i _ _ _ _ => exact .of_update rfl rfl rfl rfl rfl ⟨rfl, rfl, rfl, rfl⟩
    | rests i _ _ => exact .of_update rfl rfl rfl rfl rfl ⟨rfl, rfl, rfl, rfl⟩
  have hin : SameFiles k₁ k' := by
    cases scheduleIn_cases h₂ with
    | stays i _ => exact .of_update rfl rfl rfl rfl rfl ⟨rfl, rfl, rfl, rfl⟩
    | next i _ _ _ _ _ => exact .of_update rfl rfl rfl rfl rfl ⟨rfl, rfl, rfl, rfl⟩
    | idle i _ _ _ => exact .of_update rfl rfl rfl rfl rfl ⟨rfl, rfl, rfl, rfl⟩
  exact hout.trans hin

/-! ## Mutexes and semaphores -/

theorem mutexCall_sameFiles {call : MutexCall} (h : k.mutexCall call = .ok (rc, k')) :
    SameFiles k k' := by
  cases call with
  | init =>
    obtain ⟨f, q, hk⟩ := kmutexInit_frame k
    rw [eq_of_ok h, hk]
    exact .of_table rfl rfl rfl rfl rfl
  | destroy id =>
    obtain ⟨f, q, hk⟩ := kmutexDestroy_frame k id
    rw [eq_of_ok h, hk]
    exact .of_table rfl rfl rfl rfl rfl
  | lock id =>
    have h' : k.kmutexLock id = .ok (rc, k') := h
    cases hi : index mutexMax id with
    | none =>
      rw [kmutexLock, hi] at h'
      cases h'
      exact .refl k
    | some m =>
      rw [index_eq_some.mp hi] at h'
      cases (kmutexLock_cases h').2 with
      | acquires _ same => rw [same]; exact .of_table rfl rfl rfl rfl rfl
      | counts _ _ same => rw [same]; exact .of_table rfl rfl rfl rfl rfl
      | blocks i _ _ _ _ same => rw [same]; exact .of_update rfl rfl rfl rfl rfl ⟨rfl, rfl, rfl, rfl⟩
  | unlock id =>
    have h' : k.kmutexUnlock id = .ok (rc, k') := h
    cases hi : index mutexMax id with
    | none =>
      rw [kmutexUnlock, hi] at h'
      cases h'
      exact .refl k
    | some m =>
      rw [index_eq_some.mp hi] at h'
      cases kmutexUnlock_cases h' with
      | refused _ same => rw [same]; exact .refl k
      | frees _ _ _ same => rw [same]; exact .of_table rfl rfl rfl rfl rfl
      | keeps _ _ _ _ same => rw [same]; exact .of_table rfl rfl rfl rfl rfl
      | handsOff j _ _ _ _ _ _ _ same => rw [same]; exact .of_update rfl rfl rfl rfl rfl ⟨rfl, rfl, rfl, rfl⟩

theorem semCall_sameFiles {call : SemCall} (h : k.semCall call = .ok (rc, k')) :
    SameFiles { k with semaphores := k'.semaphores } k' := by
  cases call with
  | init value =>
    obtain ⟨f, q, hk⟩ := ksemInit_frame k value
    rw [eq_of_ok h, hk]
    exact .of_table rfl rfl rfl rfl rfl
  | destroy id =>
    obtain ⟨f, q, hk⟩ := ksemDestroy_frame k id
    rw [eq_of_ok h, hk]
    exact .of_table rfl rfl rfl rfl rfl
  | wait id =>
    cases ksemWait_effect h with
    | returns f same _ => rw [same]; exact .of_table rfl rfl rfl rfl rfl
    | blocks _ i k₁ f mem _ _ _ _ _ removes same =>
      have hsame := schedulerRemove_sameFiles removes
      rw [same]
      exact ⟨hsame.ttys, hsame.timerTicks, rfl, hsame.nextPid, hsame.entry⟩
  | post id =>
    cases ksemPost_effect h with
    | counts f same => rw [same]; exact .of_table rfl rfl rfl rfl rfl
    | wakes i _ f _ same => rw [same]; exact .of_update rfl rfl rfl rfl rfl ⟨rfl, rfl, rfl, rfl⟩

/-! ## Entries of the kernel -/

theorem entered_sameFiles (k : Kernel) (e : Entry) : SameFiles k (k.entered e) := by
  unfold entered saveTrapframe
  split
  · exact .of_table rfl rfl rfl rfl rfl
  · exact .of_update rfl rfl rfl rfl rfl ⟨rfl, rfl, rfl, rfl⟩

theorem setResult_sameFiles (k : Kernel) (rc : Int) : SameFiles k (k.setResult rc) := by
  obtain ⟨mem, hk⟩ := setResult_frame k rc
  rw [hk]
  exact .of_table rfl rfl rfl rfl rfl

/-- A new process has a new name, is attached to nothing and has not run. -/
structure NewEntry (k : Kernel) (name : List Byte) (p : Proc) : Prop where
  pid : p.pid = k.nextPid
  name : p.name = strncpy name procNameLen
  io : p.io = fun _ => none
  runTime : p.runTime = 0

/-- The terminals, the tick count and the semaphores are the same, and so is every entry
but one. -/
structure OtherFiles (k k' : Kernel) (i : Fin procMax) : Prop where
  ttys : k'.ttys = k.ttys
  timerTicks : k'.timerTicks = k.timerTicks
  semaphores : k'.semaphores = k.semaphores
  entry : ∀ j, j ≠ i → SameEntry (k.procTable j) (k'.procTable j)

/-- The events that may change a semaphore. -/
def UsesSems : Event → Prop
  | .sem _ | .syscall => True
  | _ => False

/-- What a handler other than the timer's does: it changes the terminals or semaphores at
most, or it creates or destroys a process. -/
inductive FilesEffect (k : Kernel) : Event → Kernel → Prop
  | same {ev : Event} {k' : Kernel} (ttys : Ttys) (sems : Fin semMax → Sem)
      (untouched : ev ≠ .syscall → ttys = k.ttys) (unused : ¬ UsesSems ev → sems = k.semaphores)
      (same : SameFiles { k with ttys, semaphores := sems } k') : FilesEffect k ev k'
  | created {ptr : BitVec 32} {name : List Byte} {type : ProcType} {k' : Kernel}
      (i : Fin procMax) (next : k'.nextPid = k.nextPid + 1) (other : OtherFiles k k' i)
      (new : NewEntry k name (k'.procTable i)) : FilesEffect k (.create ptr (some name) type) k'
  | destroyed {ev : Event} {k' : Kernel} (i : Fin procMax) (notIdle : i ≠ idleProc)
      (next : k'.nextPid = k.nextPid) (other : OtherFiles k k' i)
      (gone : SameEntry Proc.zero (k'.procTable i)) : FilesEffect k ev k'

theorem OtherFiles.trans_same (h : OtherFiles k k' i) (hs : SameFiles k' k'') :
    OtherFiles k k'' i :=
  ⟨hs.ttys.trans h.ttys, hs.timerTicks.trans h.timerTicks, hs.semaphores.trans h.semaphores,
    fun j hj => (h.entry j hj).trans (hs.entry j)⟩

theorem FilesEffect.timerTicks {ev : Event} (h : FilesEffect k ev k') :
    k'.timerTicks = k.timerTicks := by
  cases h with
  | same ttys sems untouched unused same => exact same.timerTicks
  | created i next other new => exact other.timerTicks
  | destroyed i notIdle next other gone => exact other.timerTicks

theorem FilesEffect.semaphores {ev : Event} (h : FilesEffect k ev k') (hev : ¬ UsesSems ev) :
    k'.semaphores = k.semaphores := by
  cases h with
  | same ttys sems untouched unused same => exact same.semaphores.trans (unused hev)
  | created i next other new => exact other.semaphores
  | destroyed i notIdle next other gone => exact other.semaphores

/-- Only system calls write to terminals and read from them. -/
theorem FilesEffect.ttys {ev : Event} (h : FilesEffect k ev k') (hev : ev ≠ .syscall) :
    k'.ttys = k.ttys := by
  cases h with
  | same ttys sems untouched unused same => exact same.ttys.trans (untouched hev)
  | created i next other new => exact other.ttys
  | destroyed i notIdle next other gone => exact other.ttys

theorem FilesEffect.nextPid_le {ev : Event} (h : FilesEffect k ev k') : k.nextPid ≤ k'.nextPid := by
  cases h with
  | same ttys sems untouched unused same => exact Int.le_of_eq same.nextPid.symm
  | created i next other new =>
    rw [next]
    omega
  | destroyed i notIdle next other gone => exact Int.le_of_eq next.symm

theorem SameFiles.effect {ev : Event} (h : SameFiles k k') : FilesEffect k ev k' :=
  .same k.ttys k.semaphores (fun _ => rfl) (fun _ => rfl) h

theorem kprocCreate_files {ptr : BitVec 32} {name : List Byte} {type : ProcType}
    (h : k.kprocCreate ptr (some name) type = .ok (rc, k')) :
    FilesEffect k (.create ptr (some name) type) k' := by
  rcases kprocCreate_ok h with ⟨_, _, hk⟩ | ⟨i, q, name', hname, _, _, _, hadd⟩
  · rw [hk]
    exact (SameFiles.refl k).effect
  · cases hname
    have hsame := schedulerAdd_sameFiles hadd
    have hnew := hsame.entry i
    rw [allotProc_self] at hnew
    refine .created i hsame.nextPid ⟨hsame.ttys, hsame.timerTicks, hsame.semaphores, fun j hj => ?_⟩
      ⟨hnew.pid, hnew.name, hnew.io, hnew.runTime⟩
    have hother := hsame.entry j
    rwa [allotProc_ne k _ q _ hj] at hother

/-- A process that is destroyed leaves a cleared entry. -/
theorem kprocDestroy_files (ht : TableOk k) {ev : Event}
    (h : k.kprocDestroy k.activeProc = .ok (rc, k')) : FilesEffect k ev k' := by
  cases hact : k.activeProc with
  | none =>
    rw [hact] at h
    cases h
  | some i =>
    rw [hact] at h
    rcases kprocDestroy_cases ht (ht.active_live i hact) h with
      ⟨_, _, hk⟩ | ⟨k₁, q, hidle, _, hrem, _, rfl⟩
    · rw [hk]
      exact (SameFiles.refl k).effect
    · have hsame := schedulerRemove_sameFiles hrem
      refine .destroyed i hidle hsame.nextPid ⟨hsame.ttys, hsame.timerTicks, hsame.semaphores, fun j hj => ?_⟩ ?_
      · rw [freeProc_ne k₁ q hj]
        exact hsame.entry j
      · rw [freeProc_self k₁ q]
        exact .refl _

theorem ksyscall_files (ht : TableOk k) {tf : Trapframe} {call : Syscall}
    (h : k.ksyscall tf call = .ok (rc, k')) : FilesEffect k .syscall k' := by
  cases hcall : call.event tf with
  | none =>
    obtain ⟨ttys, mem, rfl⟩ := ksyscall_frame hcall h
    exact .same ttys k.semaphores (fun hev => absurd rfl hev) (fun _ => rfl)
      (.of_table rfl rfl rfl rfl rfl)
  | some ev =>
    rw [ksyscall_event hcall] at h
    cases ev with
    | sleep time =>
      obtain ⟨k₁, h₁, h₂⟩ := Loop.bind_eq_ok.mp h
      cases h₂
      cases hact : k.activeProc with
      | none =>
        rw [hact] at h₁
        cases h₁
      | some i =>
        rw [hact] at h₁
        exact (schedulerSleep_sameFiles h₁).effect
    | mutex call => exact (mutexCall_sameFiles h).effect
    | sem call =>
      exact .same k.ttys k'.semaphores (fun _ => rfl) (fun hev => absurd trivial hev)
        (semCall_sameFiles h)
    | destroy => exact kprocDestroy_files ht h
    | tick | create | syscall => cases call <;> cases hcall

theorem FilesEffect.trans_same {ev : Event} (h : FilesEffect k ev k') (hs : SameFiles k' k'') :
    FilesEffect k ev k'' := by
  cases h with
  | same ttys sems untouched unused same =>
    exact .same ttys sems untouched unused (same.trans hs)
  | created i next other new =>
    have hentry := hs.entry i
    exact .created i (hs.nextPid.trans next) (other.trans_same hs)
      ⟨hentry.pid.trans new.pid, hentry.name.trans new.name, hentry.io.trans new.io,
        hentry.runTime.trans new.runTime⟩
  | destroyed i notIdle next other gone =>
    exact .destroyed i notIdle (hs.nextPid.trans next) (other.trans_same hs) (gone.trans (hs.entry i))

theorem handle_files (ht : TableOk k) {ev : Event} (hev : ev ≠ .tick)
    (h : k.handle ev = .ok (rc, k')) : FilesEffect k ev k' := by
  cases ev with
  | tick => exact absurd rfl hev
  | create ptr name type =>
    cases name with
    | none => cases h
    | some name => exact kprocCreate_files h
  | destroy => exact kprocDestroy_files ht h
  | sleep time =>
    obtain ⟨k₁, h₁, h₂⟩ := Loop.bind_eq_ok.mp h
    cases h₂
    cases hact : k.activeProc with
    | none =>
      rw [hact] at h₁
      cases h₁
    | some i =>
      rw [hact] at h₁
      exact (schedulerSleep_sameFiles h₁).effect
  | mutex call => exact (mutexCall_sameFiles h).effect
  | sem call =>
    exact .same k.ttys k'.semaphores (fun _ => rfl) (fun hev => absurd trivial hev)
      (semCall_sameFiles h)
  | syscall =>
    obtain ⟨_, _, call, k₁, _, _, _, h₁, rfl⟩ := ksyscallIrqHandler_call h
    exact (ksyscall_files ht h₁).trans_same (setResult_sameFiles k₁ rc)

theorem tick_sameFiles (h : k.tick = .ok k') :
    SameFiles (charged { k with timerTicks := wrap32 (k.timerTicks + 1) }) k' :=
  schedulerTimer_sameFiles h

/-! ## What processes are attached to -/

/-- The terminal of a process: the shells have terminals 1 to 4, ping and pong share the
last two, and processes created later have none. -/
def terminalOf (pid : Int) : Option (Fin ttyMax) :=
  if 1 ≤ pid ∧ pid ≤ 4 then index ttyMax pid
  else if 5 ≤ pid ∧ pid ≤ 10 then index ttyMax (ttyMax - pid.tmod 2 - 1)
  else none

def wiring (pid : Int) : Fin procIoMax → Option IoRing :=
  match terminalOf pid with
  | none => fun _ => none
  | some tty => attachedIo tty fun _ => none

/-- The names of processes, as the table stores them. -/
def procNames : List (List Byte) :=
  ["", "idle", "shell", "ping", "pong", "test"].map fun s => strncpy (cstring s) procNameLen

/-- Every process has one of the names, and the rings of its terminal. -/
structure Attached (k : Kernel) : Prop where
  name : ∀ i, (k.procTable i).name ∈ procNames
  io : ∀ i, (k.procTable i).io = wiring (k.procTable i).pid

theorem Attached.of_entries (h : ∀ i, (k'.procTable i).name ∈ procNames ∧
    (k'.procTable i).io = wiring (k'.procTable i).pid) : Attached k' :=
  ⟨fun i => (h i).1, fun i => (h i).2⟩

theorem SameEntry.attached {p p' : Proc} (h : SameEntry p p')
    (hp : p.name ∈ procNames ∧ p.io = wiring p.pid) :
    p'.name ∈ procNames ∧ p'.io = wiring p'.pid := by
  rw [h.name, h.io, h.pid]
  exact hp

theorem SameFiles.attached (h : SameFiles k k') (ha : Attached k) : Attached k' :=
  .of_entries fun j => (h.entry j).attached ⟨ha.name j, ha.io j⟩

theorem OtherFiles.attached (h : OtherFiles k k' i) (ha : Attached k)
    (hname : (k'.procTable i).name ∈ procNames)
    (hio : (k'.procTable i).io = wiring (k'.procTable i).pid) : Attached k' := by
  refine .of_entries fun j => ?_
  by_cases hj : j = i
  · rw [hj]
    exact ⟨hname, hio⟩
  · exact (h.entry j hj).attached ⟨ha.name j, ha.io j⟩

/-- From the eleventh process on they have no terminal. -/
theorem wiring_later {pid : Int} (h : 11 ≤ pid) : wiring pid = fun _ => none := by
  rw [wiring, terminalOf, if_neg (by omega), if_neg (by omega)]

/-- The processes that are created have one of the names, and no terminal. -/
def Attaches (k : Kernel) : Event → Prop
  | .create _ name _ =>
    (∀ n, name = some n → strncpy n procNameLen ∈ procNames) ∧ wiring k.nextPid = fun _ => none
  | _ => True

theorem FilesEffect.attached {ev : Event} (h : FilesEffect k ev k') (hev : Attaches k ev)
    (ha : Attached k) : Attached k' := by
  cases h with
  | same ttys sems untouched unused same => exact same.attached ⟨ha.name, ha.io⟩
  | created i next other new =>
    refine other.attached ha ?_ ?_
    · rw [new.name]
      exact hev.1 _ rfl
    · rw [new.io, new.pid, hev.2]
  | destroyed i notIdle next other gone =>
    have hzero : Proc.zero.name ∈ procNames ∧ Proc.zero.io = wiring Proc.zero.pid :=
      ⟨by decide, rfl⟩
    exact other.attached ha (gone.attached hzero).1 (gone.attached hzero).2

theorem handle_attached (ht : TableOk k) {ev : Event} (hev : Attaches k ev) (ha : Attached k)
    (h : k.handle ev = .ok (rc, k')) : Attached k' := by
  by_cases htick : ev = .tick
  · subst htick
    obtain ⟨k₁, h₁, h₂⟩ := Loop.bind_eq_ok.mp h
    cases h₂
    exact (tick_sameFiles h₁).attached ⟨ha.name, ha.io⟩
  · exact (handle_files ht htick h).attached hev ha

/-! ## Initialisation attaches them -/

/-- A program whose process, the `n`-th, gets the terminal it is to have. -/
structure AttachesTo (n : Nat) (p : BitVec 32 × String × (Int → Int)) : Prop where
  name : strncpy (cstring p.2.1) procNameLen ∈ procNames
  terminal : ∃ tty, index ttyMax (p.2.2 n) = some tty ∧ terminalOf n = some tty

theorem Booted.startProgram_attached (hb : Booted n k) (hn : n < procMax) (ha : Attached k)
    {p : BitVec 32 × String × (Int → Int)} (hp : Startable p) (hto : AttachesTo n p)
    (h : k.startProgram p = .ok k') : Attached k' := by
  obtain ⟨k₁, h₁, hb₁⟩ := hb.kprocCreate hn hp.1 (cstring p.2.1) .user
  obtain ⟨tty, hindex, hterm⟩ := hto.terminal
  let i : Fin procMax := ⟨n, hn⟩
  have hpid := (hb₁.used i (Nat.lt_succ_self n)).1
  have hfind : k₁.pidToProc (n : Int) = some i := by
    rw [← hpid]
    exact (hb₁.tableOk n.succ_pos).pidToProc_pid ((hb₁.live i).mpr (Nat.lt_succ_self n))
  have hk : k' = k₁.modifyProc i fun p => { p with io := attachedIo tty p.io } := by
    rw [Kernel.startProgram, h₁, Loop.ok_bind] at h
    dsimp only at h
    rw [Kernel.kprocAttachTty, Ttys.ttyGet, hindex, hfind] at h
    cases h
    rfl
  have hpos : n ≠ 0 := by
    intro h0
    rw [h0] at hterm
    cases hterm
  have hfree : (k.procTable i).pid = 0 := by
    rw [hb.free i (le_refl n)]
    rfl
  cases kprocCreate_files h₁ with
  | same ttys sems _ _ hsame =>
    have hentry : (k₁.procTable i).pid = (k.procTable i).pid := (hsame.entry i).pid
    have hzero : (n : Int) = 0 := hpid.symm.trans (hentry.trans hfree)
    omega
  | destroyed j _ _ hother hgone =>
    have hentry : (k₁.procTable i).pid = 0 := by
      by_cases hj : i = j
      · rw [hj]
        exact hgone.pid
      · exact (hother.entry i hj).pid.trans hfree
    have hzero : (n : Int) = 0 := hpid.symm.trans hentry
    omega
  | created j _ hother hnew =>
    have hji : j = i := by
      refine (hb₁.tableOk n.succ_pos).pid_inj j i ?_ ((hb₁.live i).mpr (Nat.lt_succ_self n)) ?_
      · by_contra hfree
        have := (hb₁.tableOk n.succ_pos).free_pid j hfree
        rw [hnew.pid, hb.nextPid] at this
        have h0 : n = 0 := by omega
        rw [h0] at hterm
        cases hterm
      · rw [hnew.pid, hb.nextPid, hpid]
    subst hji
    have hattached : (k'.procTable i).io = wiring (k'.procTable i).pid := by
      rw [hk, modifyProc_self]
      show attachedIo tty (k₁.procTable i).io = wiring (k₁.procTable i).pid
      rw [hnew.io, hpid, wiring]
      show _ = match terminalOf (n : Int) with | none => _ | some tty => _
      rw [hterm]
    have hother' : OtherFiles k k' i := by
      refine ⟨by rw [hk]; exact hother.ttys, by rw [hk]; exact hother.timerTicks,
        by rw [hk]; exact hother.semaphores, fun j hj => ?_⟩
      rw [hk, modifyProc_ne k₁ _ hj]
      exact hother.entry j hj
    refine hother'.attached ha ?_ hattached
    rw [hk, modifyProc_self]
    show (k₁.procTable i).name ∈ procNames
    rw [hnew.name]
    exact hto.name

theorem Booted.startAll_attached : ∀ (l : List (BitVec 32 × String × (Int → Int))) {n : Nat}
    {k k' : Kernel}, Booted n k → Attached k → n + l.length ≤ procMax → (∀ p ∈ l, Startable p) →
    (∀ j p, l[j]? = some p → AttachesTo (n + j) p) →
    l.foldlM Kernel.startProgram k = .ok k' → Attached k'
  | [], _, _, _, _, ha, _, _, _, h => by
    cases h
    exact ha
  | p :: l, n, k, k', hb, ha, hn, hp, hto, h => by
    rw [List.length_cons] at hn
    obtain ⟨k₁, h₁, hb₁⟩ := hb.startProgram (by omega) (hp p List.mem_cons_self)
    have ha₁ := hb.startProgram_attached (by omega) ha (hp p List.mem_cons_self)
      (hto 0 p rfl) h₁
    rw [List.foldlM_cons, h₁, Loop.ok_bind] at h
    refine startAll_attached l hb₁ ha₁ (by omega) (fun x hx => hp x (List.mem_cons_of_mem p hx))
      (fun j x hx => ?_) h
    have hnext := hto (j + 1) x hx
    rwa [show n + (j + 1) = n + 1 + j by omega] at hnext

theorem terminalOf_shell {j : Nat} (hj : j < 4) :
    ∃ tty, index ttyMax ((j : Int) + 1) = some tty ∧ terminalOf ((1 + j : Nat) : Int) = some tty := by
  have hmax : ttyMax = 10 := rfl
  have htty : index ttyMax ((j : Int) + 1) = some ⟨j + 1, by omega⟩ := index_eq_some.mpr rfl
  refine ⟨_, htty, ?_⟩
  rw [terminalOf, if_pos (by omega), Int.natCast_add, Int.add_comm]
  exact htty

theorem terminalOf_pingpong {j : Nat} (hj : 4 ≤ j) (hj' : j < 10) :
    ∃ tty, index ttyMax (ttyMax - ((1 + j : Nat) : Int).tmod 2 - 1) = some tty ∧
      terminalOf ((1 + j : Nat) : Int) = some tty := by
  have hmax : ttyMax = 10 := rfl
  have hmod : ((1 + j : Nat) : Int).tmod 2 = ((1 + j) % 2 : Nat) := by
    rw [Int.tmod_eq_emod_of_nonneg (Int.natCast_nonneg _)]
    omega
  have htty : index ttyMax (ttyMax - ((1 + j : Nat) : Int).tmod 2 - 1) =
      some ⟨9 - (1 + j) % 2, by omega⟩ := by
    refine index_eq_some.mpr ?_
    rw [hmod]
    show (10 : Int) - ((1 + j) % 2 : Nat) - 1 = (9 - (1 + j) % 2 : Nat)
    omega
  refine ⟨_, htty, ?_⟩
  rw [terminalOf, if_neg (by omega), if_pos (by omega)]
  exact htty

theorem startPrograms_attach (img : Image) (j : Nat) (p : BitVec 32 × String × (Int → Int))
    (h : (startPrograms img)[j]? = some p) : AttachesTo (1 + j) p := by
  have hlt : j < 10 := (List.getElem?_eq_some_iff.mp h).1
  rw [startPrograms] at h
  by_cases hshell : j < 4
  · rw [List.append_assoc, List.getElem?_append_left hshell, List.getElem?_map,
      List.getElem?_range hshell] at h
    cases h
    exact ⟨show strncpy (cstring "shell") procNameLen ∈ procNames by decide, terminalOf_shell hshell⟩
  · have hterm := terminalOf_pingpong (Nat.le_of_not_lt hshell) hlt
    rw [List.append_assoc, List.getElem?_append_right (Nat.le_of_not_lt hshell)] at h
    rcases List.mem_append.mp (List.mem_of_getElem? h) with hping | hpong
    · rw [List.eq_of_mem_replicate hping]
      exact ⟨show strncpy (cstring "ping") procNameLen ∈ procNames by decide, hterm⟩
    · rw [List.eq_of_mem_replicate hpong]
      exact ⟨show strncpy (cstring "pong") procNameLen ∈ procNames by decide, hterm⟩

/-- The terminals and the tick count are the same. -/
structure SameDevices (k k' : Kernel) : Prop where
  ttys : k'.ttys = k.ttys
  timerTicks : k'.timerTicks = k.timerTicks

theorem SameDevices.trans (h : SameDevices k k') (h' : SameDevices k' k'') : SameDevices k k'' :=
  ⟨h'.ttys.trans h.ttys, h'.timerTicks.trans h.timerTicks⟩

theorem kprocCreate_sameDevices {ptr : BitVec 32} {name : Option (List Byte)} {type : ProcType}
    (h : k.kprocCreate ptr name type = .ok (rc, k')) : SameDevices k k' := by
  rcases kprocCreate_ok h with ⟨_, _, rfl⟩ | ⟨_, _, _, _, _, _, _, hadd⟩
  · exact ⟨rfl, rfl⟩
  · have hsame := schedulerAdd_sameFiles hadd
    exact ⟨hsame.ttys, hsame.timerTicks⟩

theorem startProgram_sameDevices {p : BitVec 32 × String × (Int → Int)}
    (h : k.startProgram p = .ok k') : SameDevices k k' := by
  obtain ⟨⟨pid, k₁⟩, h₁, h⟩ := Loop.bind_eq_ok.mp h
  obtain ⟨⟨rc, k₂⟩, h₂, h⟩ := Loop.bind_eq_ok.mp h
  cases h
  obtain ⟨tty, _, h₂⟩ := Loop.bind_eq_ok.mp h₂
  refine (kprocCreate_sameDevices h₁).trans ?_
  split at h₂
  · cases h₂
    exact ⟨rfl, rfl⟩
  · cases h₂
    exact ⟨rfl, rfl⟩

/-- The terminals and the tick count are as they were before the processes. -/
theorem kernelInit_devices {img : Image} (h : kernelInit img = .ok k) :
    k.ttys = Ttys.ttyInitial ∧ k.timerTicks = 0 := by
  rw [kernelInit, Ttys.ttyInit_eq, Loop.ok_bind] at h
  obtain ⟨k₁, h₁, h⟩ := Loop.bind_eq_ok.mp h
  cases h
  obtain ⟨⟨rc, k₀⟩, h₀, h₁⟩ := Loop.bind_eq_ok.mp h₁
  have hdevices := Loop.foldlM_inv (fun k₁ => SameDevices k₀ k₁)
    (fun _ _ _ hs h => hs.trans (startProgram_sameDevices h)) _ ⟨rfl, rfl⟩ h₁
  have hall := (kprocCreate_sameDevices h₀).trans hdevices
  exact ⟨hall.ttys, hall.timerTicks⟩

theorem Attached.of_kernelInit {img : Image} (h : kernelInit img = .ok k) : Attached k := by
  have hb₀ := booted_zero img Ttys.ttyInitial
  have ha₀ : Attached { zero img with
      ttys := Ttys.ttyInitial, procAllocator := Queue.fill procMax
      procTable := fun _ => Proc.zero } :=
    ⟨fun _ => show Proc.zero.name ∈ procNames by decide, fun _ => rfl⟩
  have hlen : 0 + 1 + (startPrograms img).length ≤ procMax := show 11 ≤ 20 by decide
  obtain ⟨k₁, h₁, hb₁⟩ := hb₀.kprocCreate (by decide) img.idle_ne (cstring "idle") .kernel
  have hnames : Attaches { zero img with
      ttys := Ttys.ttyInitial, procAllocator := Queue.fill procMax
      procTable := fun _ => Proc.zero } (.create img.kprocIdle (some (cstring "idle")) .kernel) := by
    refine ⟨fun n hn => ?_, rfl⟩
    cases hn
    decide
  have ha₁ := (kprocCreate_files h₁).attached hnames ha₀
  obtain ⟨k₂, h₂, _⟩ := Booted.startAll (startPrograms img) hb₁ hlen
    (startPrograms_startable img)
  have ha₂ := Booted.startAll_attached (startPrograms img) hb₁ ha₁ hlen
    (startPrograms_startable img) (startPrograms_attach img) h₂
  rw [kernelInit, Ttys.ttyInit_eq, Loop.ok_bind, kprocInit] at h
  dsimp only at h
  rw [h₁, Loop.ok_bind, h₂, Loop.ok_bind] at h
  cases h
  exact ⟨ha₂.name, ha₂.io⟩

end Kernel
end UnivOS
