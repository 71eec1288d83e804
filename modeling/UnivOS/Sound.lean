import UnivOS.Runs
import UnivOS.Attached

/-! # Orderly events

A kernel whose processes keep to the rules of the interface: the idle task makes no system
call, only mutexes that are given out are locked and unlocked and none is destroyed, and
nobody waits for a semaphore that has no permit. Then no handler halts, and the scheduler
finds a process to run.
-/
namespace UnivOS
namespace Kernel
open Word

variable {k k' : Kernel} {i : Fin procMax} {rc : Int} {ev : Event}

/-- The mutex is given out. -/
def Allotted (k : Kernel) (id : Int) : Prop :=
  ∃ m : Fin mutexMax, id = ((m : Nat) : Int) ∧ id ∉ k.mutexQueue.toList

/-- A wait for the semaphore would block. -/
def Blocks (k : Kernel) (id : Int) : Prop :=
  ∃ s, index semMax id = some s ∧ (k.semaphores s).allocated ≠ 0 ∧ (k.semaphores s).count ≤ 0

/-- The events that keep to the rules. A system call stands for the event it is. -/
def Lawful (k : Kernel) : Event → Prop
  | .tick => True
  | .create ptr name _ => ptr ≠ 0 ∧ name ≠ none ∧ InInt32 (k.nextPid + 1)
  | .destroy => k.activeProc ≠ none
  | .sleep _ => NonIdle k
  | .mutex .init => NonIdle k
  | .mutex (.destroy _) => False
  | .mutex (.lock id) => NonIdle k ∧ k.Allotted id
  | .mutex (.unlock id) => NonIdle k ∧ k.Allotted id
  | .sem (.wait id) => ¬ k.Blocks id
  | .sem _ => True
  | .syscall => False

/-- A process other than the idle task makes a system call, and a lawful one. -/
def LawfulCall (k : Kernel) : Prop :=
  ∃ i tf call, k.activeProc = some i ∧ (k.procTable i).pid ≠ 0 ∧
    k.registers i = some tf ∧ Syscall.ofNumber tf.eax = some call ∧
    ∀ ev, call.event tf = some ev → k.Lawful ev

def Orderly (k : Kernel) (ev : Event) : Prop := k.Lawful ev ∨ ev = .syscall ∧ k.LawfulCall

/-- The processes, the queues, the mutexes and the semaphores are in order. -/
structure Sound (k : Kernel) : Prop where
  table : TableOk k
  scheduled : Scheduled k
  nodup : k.mutexQueue.toList.Nodup
  fresh : ∀ m : Fin mutexMax, ((m : Nat) : Int) ∈ k.mutexQueue.toList → k.mutexes m = Mutex.zero
  unawaited : ∀ s, (k.semaphores s).waitQueue.toList = []

/-! ## Mutexes -/

/-- A history in which the mutexes that are given out have been. -/
def allocations (k : Kernel) : List KernelStep :=
  ((List.finRange mutexMax).filter fun (m : Fin mutexMax) =>
      ((m : Nat) : Int) ∉ k.mutexQueue.toList).map fun (m : Fin mutexMax) =>
    ⟨k, (Event.entry (.mutex .init), ((m : Nat) : Int)), k⟩

theorem returned_allocations {m : Fin mutexMax} :
    Returned (allocations k) m ↔ ((m : Nat) : Int) ∉ k.mutexQueue.toList := by
  unfold Returned allocations
  constructor
  · rintro ⟨x, hx, _, hm⟩
    obtain ⟨n, hn, rfl⟩ := List.mem_map.mp hx
    obtain rfl := IdPool.val_inj.mp hm
    simpa using (List.mem_filter.mp hn).2
  · intro hm
    refine ⟨_, List.mem_map_of_mem (List.mem_filter.mpr ⟨List.mem_finRange m, by simpa using hm⟩),
      rfl, rfl⟩

theorem Sound.ready (h : Sound k) : Ready (allocations k) k where
  table := h.table
  scheduled := h.scheduled
  mutexIds := ⟨h.nodup, h.fresh, fun _ => returned_allocations.mp⟩

/-- The events that the scheduler and the mutexes serve. -/
theorem Lawful.permitted (h : k.Lawful ev) (hsem : ¬ UsesSems ev) :
    Permitted (allocations k) k ev := by
  cases ev with
  | tick => trivial
  | create => trivial
  | destroy => trivial
  | sleep time => exact h
  | mutex call =>
    cases call with
    | init => exact h
    | destroy id => exact h.elim
    | lock id =>
      obtain ⟨hactive, m, rfl, hm⟩ := h
      exact ⟨hactive, m, rfl, returned_allocations.mpr hm⟩
    | unlock id =>
      obtain ⟨hactive, m, rfl, hm⟩ := h
      exact ⟨hactive, m, rfl, returned_allocations.mpr hm⟩
  | sem call => exact absurd trivial hsem
  | syscall => exact absurd trivial hsem

theorem Lawful.returns (hs : Sound k) (h : k.Lawful ev) (hsem : ¬ UsesSems ev) :
    ∃ rc k', k.handle ev = .ok (rc, k') := by
  have hp := h.permitted hsem
  obtain ⟨loc, hl⟩ := hs.scheduled
  cases ev with
  | tick =>
    obtain ⟨k', hk, _⟩ := tick_handled ⟨loc, hl⟩ hs.table
    exact ⟨0, k', by rw [handle, hk, Loop.ok_bind]⟩
  | create ptr name type => exact kprocCreate_returns hs.table (hl.room .run) type h.1 h.2.1 h.2.2
  | destroy => exact handle_returns hs.ready hp trivial h
  | sleep time =>
    obtain ⟨i, hi, _⟩ := id h
    exact handle_returns hs.ready hp trivial (by rw [hi]; simp)
  | mutex call =>
    have hactive : NonIdle k := by
      cases call with
      | init => exact h
      | destroy id => exact h.elim
      | lock id => exact h.1
      | unlock id => exact h.1
    obtain ⟨i, hi, _⟩ := hactive
    exact handle_returns hs.ready hp trivial (by rw [hi]; simp)
  | sem call => exact absurd trivial hsem
  | syscall => exact absurd trivial hsem

/-- A handler that uses no semaphore. -/
theorem Sound.handle_plain (hs : Sound k) (h : k.Lawful ev) (hsem : ¬ UsesSems ev)
    (hk : k.handle ev = .ok (rc, k')) : Sound k' := by
  have hp := h.permitted hsem
  have hserves := handle_serves hs.ready hp hk
  -- an entry for the event makes it a step of a run
  have hids := hs.ready.mutexIds.step hp hserves.mutexes
    (x := ⟨k, (Event.entry ev, rc), k'⟩) (if_neg fun hsys => by
      have hev : ev = .syscall := hsys
      subst hev
      exact hsem trivial) rfl
  have hsame : k'.semaphores = k.semaphores := by
    by_cases htick : ev = .tick
    · subst htick
      obtain ⟨k₁, h₁, h₂⟩ := Loop.bind_eq_ok.mp hk
      cases h₂
      exact (tick_sameFiles h₁).semaphores
    · exact (handle_files hs.table htick hk).semaphores hsem
  exact ⟨handle_tableOk hs.table hk, hserves.scheduled, hids.nodup, hids.fresh, hsame ▸ hs.unawaited⟩

/-! ## Semaphores -/

theorem Sound.congr (h : Sound k) (hstill : Still k k') (ht : TableOk k')
    (hmut : SameMutexes k k') (hsems : ∀ s, (k'.semaphores s).waitQueue.toList = []) : Sound k' where
  table := ht
  scheduled := by
    obtain ⟨loc, hl⟩ := h.scheduled
    exact ⟨loc, hl.still hstill⟩
  nodup := hmut.mutexQueue ▸ h.nodup
  fresh m hm := by
    rw [hmut.mutexQueue] at hm
    rw [hmut.mutexes]
    exact h.fresh m hm
  unawaited := hsems

theorem Sound.withSems (h : Sound k) {f : Fin semMax → Sem} {q : Queue}
    (hf : ∀ s, (f s).waitQueue.toList = []) : Sound { k with semaphores := f, semQueue := q } :=
  h.congr (.of_waitQueue rfl rfl rfl rfl fun _ => rfl) ((Keeps.of_sem k f q).tableOk h.table)
    ⟨rfl, rfl⟩ hf

/-- A semaphore without waiting processes is changed to one. -/
theorem Sound.modifySem (h : Sound k) (s : Fin semMax) {f : Sem → Sem}
    (hf : (f (k.semaphores s)).waitQueue = (k.semaphores s).waitQueue) :
    Sound (k.modifySem s f) := by
  refine h.withSems (f := Function.update k.semaphores s (f (k.semaphores s))) (q := k.semQueue)
    fun t => ?_
  by_cases ht : t = s
  · rw [ht, Function.update_self, hf]
    exact h.unawaited s
  · rw [Function.update_of_ne ht]
    exact h.unawaited t

theorem Sound.semCall (h : Sound k) {call : SemCall} (ho : k.Lawful (.sem call)) :
    ∃ rc k', k.semCall call = .ok (rc, k') ∧ Sound k' := by
  cases call with
  | init value =>
    refine ⟨_, _, rfl, ?_⟩
    show Sound (k.ksemInit value).2
    unfold ksemInit
    split
    · exact h
    · dsimp only
      split
      · exact h.withSems h.unawaited
      · rename_i s _
        refine h.withSems fun t => ?_
        by_cases ht : t = s
        · rw [ht, Function.update_self]
          rfl
        · rw [Function.update_of_ne ht]
          exact h.unawaited t
  | destroy id =>
    refine ⟨_, _, rfl, ?_⟩
    show Sound (k.ksemDestroy id).2
    unfold ksemDestroy
    split
    · exact h
    · split
      · exact h
      · split
        · exact (h.modifySem _ rfl).withSems (h.modifySem _ rfl).unawaited
        · exact h
  | wait id =>
    show ∃ rc k', k.ksemWait id = .ok (rc, k') ∧ Sound k'
    unfold ksemWait
    split
    · exact ⟨_, _, rfl, h⟩
    · rename_i s hid
      split
      · exact ⟨_, _, rfl, h⟩
      · rename_i halloc
        split
        · exact ⟨_, _, rfl, h.modifySem s rfl⟩
        · rename_i hcount
          exact absurd ⟨s, hid, halloc, Int.not_lt.mp hcount⟩ ho
  | post id =>
    show ∃ rc k', k.ksemPost id = .ok (rc, k') ∧ Sound k'
    unfold ksemPost
    split
    · exact ⟨_, _, rfl, h⟩
    · rename_i s _
      split
      · exact ⟨_, _, rfl, h⟩
      · have hcounted := h.modifySem s (f := fun x => { x with count := wrap32 (x.count + 1) }) rfl
        have hnone := Queue.queueOut_none.mpr (hcounted.unawaited s)
        dsimp only
        rw [hnone]
        exact ⟨_, _, rfl, hcounted⟩

/-! ## System calls -/

/-- The system calls that are no events return. -/
theorem ksyscall_returns {tf : Trapframe} {call : Syscall} (hcall : call.event tf = none)
    (hact : k.activeProc = some i) : ∃ rc k', k.ksyscall tf call = .ok (rc, k') := by
  cases call with
  | ioRead | ioWrite | ioFlush | sysGetTime | sysGetName | procGetPid => exact ⟨_, _, rfl⟩
  | procGetName =>
    show ∃ rc k', k.ksyscallProcGetName tf.ebx = .ok (rc, k')
    unfold ksyscallProcGetName
    rw [hact]
    split <;> exact ⟨_, _, rfl⟩
  | procSleep | procExit | mutexInit | mutexDestroy | mutexLock | mutexUnlock | semInit
  | semDestroy | semPost | semWait => cases hcall

theorem Sound.handle_lawful (h : Sound k) (ho : k.Lawful ev) :
    ∃ rc k', k.handle ev = .ok (rc, k') ∧ Sound k' := by
  by_cases hsem : UsesSems ev
  · cases ev with
    | sem call => exact h.semCall ho
    | syscall => exact ho.elim
    | tick | create | destroy | sleep | mutex => exact hsem.elim
  · obtain ⟨rc, k', hk⟩ := ho.returns h hsem
    exact ⟨rc, k', hk, h.handle_plain ho hsem hk⟩

/-- Changes that concern neither processes nor semaphores. -/
theorem Sound.setResult (h : Sound k) (rc : Int) : Sound (k.setResult rc) := by
  refine h.congr (setResult_still k rc) ((setResult_sameTable k rc).tableOk h.table)
    (setResult_sameMutexes k rc) ?_
  rw [(setResult_sameFiles k rc).semaphores]
  exact h.unawaited

theorem Sound.entered (h : Sound k) (e : Entry) : Sound (k.entered e) := by
  refine h.congr (entered_still k e) ((entered_sameTable k e).tableOk h.table)
    (entered_sameMutexes k e) ?_
  rw [(entered_sameFiles k e).semaphores]
  exact h.unawaited

theorem Sound.withTtys (h : Sound k) (ttys : Ttys) (mem : Memory) :
    Sound { k with ttys := ttys, mem := mem } := by
  have hkeeps : Keeps k { k with ttys := ttys, mem := mem } := .of_table rfl rfl rfl fun _ => id
  exact h.congr (.of_waitQueue rfl rfl rfl rfl fun _ => rfl) (hkeeps.tableOk h.table) ⟨rfl, rfl⟩
    h.unawaited

/-- The dispatcher returns, and nothing is out of order. -/
theorem Sound.handle_syscall (h : Sound k) (ho : k.LawfulCall) :
    ∃ rc k', k.ksyscallIrqHandler = .ok (rc, k') ∧ Sound k' := by
  obtain ⟨i, tf, call, hact, _, htf, hcall, hlawful⟩ := ho
  have hsys : ∃ rc k', k.ksyscall tf call = .ok (rc, k') ∧ Sound k' := by
    cases hev : call.event tf with
    | none =>
      obtain ⟨rc, k', hk⟩ := ksyscall_returns hev hact
      obtain ⟨ttys, mem, rfl⟩ := ksyscall_frame hev hk
      exact ⟨rc, _, hk, h.withTtys ttys mem⟩
    | some ev =>
      rw [ksyscall_event hev]
      exact h.handle_lawful (hlawful ev hev)
  obtain ⟨rc, k', hk, hs⟩ := hsys
  refine ⟨rc, k'.setResult rc, ?_, hs.setResult rc⟩
  obtain ⟨a, ha, rfl⟩ := Option.map_eq_some_iff.mp htf
  unfold ksyscallIrqHandler
  simp only [hact, ha, hcall, hk]
  rfl

/-- No orderly event halts the kernel, and none puts it out of order. -/
theorem Sound.handle (h : Sound k) (ho : k.Orderly ev) :
    ∃ rc k', k.handle ev = .ok (rc, k') ∧ Sound k' := by
  rcases ho with hlawful | ⟨rfl, hcall⟩
  · exact h.handle_lawful hlawful
  · exact h.handle_syscall hcall

/-- The scheduler finds a process to run. -/
theorem Sound.schedulerRun (h : Sound k) :
    ∃ k', k.schedulerRun = .ok k' ∧ Sound k' ∧ k'.activeProc ≠ none := by
  obtain ⟨k', hk, hs, _⟩ := schedulerRun_rescheduled h.scheduled h.table
  obtain ⟨ht, i, hi, _⟩ := schedulerRun_tableOk h.table hk
  have hmut := schedulerRun_sameMutexes hk
  refine ⟨k', hk, ⟨ht, hs, hmut.mutexQueue ▸ h.nodup, fun m hm => ?_, ?_⟩, by rw [hi]; simp⟩
  · rw [hmut.mutexQueue] at hm
    rw [hmut.mutexes]
    exact h.fresh m hm
  · rw [(schedulerRun_sameFiles hk).semaphores]
    exact h.unawaited

theorem Sound.of_kernelInit {img : Image} (h : kernelInit img = .ok k) : Sound k := by
  have hinit := Initial.of_kernelInit h
  have hready := hinit.ready
  refine ⟨hready.table, hready.scheduled, hready.mutexIds.nodup, hready.mutexIds.fresh, ?_⟩
  rw [kernelInit, Ttys.ttyInit_eq, Loop.ok_bind] at h
  obtain ⟨k₁, _, h⟩ := Loop.bind_eq_ok.mp h
  cases h
  exact fun _ => rfl

end Kernel
end UnivOS
