import UnivOS.Kproc

/-! # Semaphores

`ksem.c`. The wait that blocks goes on to use `active_proc` after
`scheduler_remove` has cleared it; the target has memory at address 0, so the
model makes these accesses there.
-/
namespace UnivOS
namespace Kernel
open Word

def ksemaphoresInit (k : Kernel) : Kernel :=
  { k with semaphores := fun _ => ⟨0, 0, Queue.empty⟩, semQueue := Queue.fill semMax }

/-- Returns the semaphore id, or -1. -/
def ksemInit (k : Kernel) (value : Int) : Int × Kernel :=
  match k.semQueue.queueOut with
  | none => (-1, k)
  | some (id, q) =>
    let k := { k with semQueue := q }
    match index semMax id with
    | none => (-1, k)
    | some s =>
      let x := ⟨1, value, Queue.empty⟩
      (id, { k with semaphores := Function.update k.semaphores s x })

def modifySem (k : Kernel) (s : Fin semMax) (f : Sem → Sem) : Kernel :=
  { k with semaphores := Function.update k.semaphores s (f (k.semaphores s)) }

def ksemDestroy (k : Kernel) (id : Int) : Int × Kernel :=
  match index semMax id with
  | none => (-1, k)
  | some s =>
    if (k.semaphores s).allocated = 0 then (-1, k)
    else if (k.semaphores s).waitQueue.queueIsEmpty then
      let k := k.modifySem s fun x => { x with allocated := 0 }
      (0, { k with semQueue := (k.semQueue.queueIn id).getD k.semQueue })
    else (-1, k)

/-- The address of `pid` in the process a null pointer points to, and of `state`. -/
def nullPid : BitVec 32 := 0
def nullState : BitVec 32 := 4

/-- The active process joins the wait queue. -/
def semBlock (k : Kernel) (s : Fin semMax) : Res Kernel := do
  let k ← k.schedulerRemove k.activeProc
  match k.activeProc with
  | some proc =>
    let k := k.modifyProc proc fun p => { p with state := .waiting }
    .ok (k.modifySem s fun x =>
      { x with waitQueue := (x.waitQueue.queueIn (k.procTable proc).pid).getD x.waitQueue })
  | none =>
    let k := { k with mem := k.mem.write nullState [4, 0, 0, 0], nullAccess := true }
    .ok (k.modifySem s fun x =>
      { x with waitQueue := (x.waitQueue.queueIn (k.mem.readInt nullPid)).getD x.waitQueue })

def ksemWait (k : Kernel) (id : Int) : Res (Int × Kernel) :=
  match index semMax id with
  | none => .ok (-1, k)
  | some s =>
    if (k.semaphores s).allocated = 0 then .ok (-1, k)
    else if (k.semaphores s).count > 0 then
      let k := k.modifySem s fun x => { x with count := wrap32 (x.count - 1) }
      .ok ((k.semaphores s).count, k)
    else do
      let k ← k.semBlock s
      .ok (0, k)

/-- `proc_table[pid]` is made runnable, where that is an entry in use. -/
def ksemPost (k : Kernel) (id : Int) : Res (Int × Kernel) :=
  match index semMax id with
  | none => .ok (-1, k)
  | some s =>
    if (k.semaphores s).allocated = 0 then .ok (-1, k)
    else
      let k := k.modifySem s fun x => { x with count := wrap32 (x.count + 1) }
      match (k.semaphores s).waitQueue.queueOut with
      | none => .ok ((k.semaphores s).count, k)
      | some (pid, q) =>
        let k := k.modifySem s fun x => { x with waitQueue := q }
        match index procMax pid with
        | none => .ok (-1, k)
        | some proc =>
          if (k.procTable proc).state = .none then .ok (-1, k)
          else do
            let k ← k.schedulerAdd (some proc)
            let k := k.modifySem s fun x => { x with count := wrap32 (x.count - 1) }
            .ok ((k.semaphores s).count, k)

section ModifySem

variable (k : Kernel) {s t : Fin semMax} (f : Sem → Sem)

@[simp] theorem modifySem_self : (k.modifySem s f).semaphores s = f (k.semaphores s) :=
  Function.update_self ..

theorem modifySem_ne (h : t ≠ s) : (k.modifySem s f).semaphores t = k.semaphores t :=
  Function.update_of_ne h ..

@[simp] theorem modifySem_semQueue : (k.modifySem s f).semQueue = k.semQueue := rfl

@[simp] theorem modifySem_procTable : (k.modifySem s f).procTable = k.procTable := rfl

@[simp] theorem modifySem_runQueue : (k.modifySem s f).runQueue = k.runQueue := rfl

end ModifySem

/-! ## What the calls change -/

variable {k k' : Kernel} {id rc : Int}

theorem ksemInit_frame (k : Kernel) (value : Int) : ∃ (f : Fin semMax → Sem) (q : Queue),
    (k.ksemInit value).2 = { k with semaphores := f, semQueue := q } := by
  unfold ksemInit
  split
  · exact ⟨k.semaphores, k.semQueue, rfl⟩
  · dsimp only
    split <;> exact ⟨_, _, rfl⟩

theorem ksemDestroy_frame (k : Kernel) (id : Int) : ∃ (f : Fin semMax → Sem) (q : Queue),
    (k.ksemDestroy id).2 = { k with semaphores := f, semQueue := q } := by
  unfold ksemDestroy
  split
  · exact ⟨k.semaphores, k.semQueue, rfl⟩
  · split
    · exact ⟨k.semaphores, k.semQueue, rfl⟩
    · split
      · exact ⟨_, _, rfl⟩
      · exact ⟨k.semaphores, k.semQueue, rfl⟩

/-- A wait that blocks takes the caller off the processor, and one that does not
changes the semaphore only. -/
inductive WaitEffect (k : Kernel) (id rc : Int) (k' : Kernel) : Prop
  | returns (f : Fin semMax → Sem) (same : k' = { k with semaphores := f })
      (free : ∀ s : Fin semMax, index semMax id = some s →
        ¬ ((k.semaphores s).allocated ≠ 0 ∧ (k.semaphores s).count ≤ 0))
  | blocks (s : Fin semMax) (i : Fin procMax) (k₁ : Kernel) (f : Fin semMax → Sem) (mem : Memory)
      (named : index semMax id = some s) (allocated : (k.semaphores s).allocated ≠ 0)
      (count : (k.semaphores s).count ≤ 0) (result : rc = 0) (caller : k.activeProc = some i)
      (removes : k.schedulerRemove (some i) = .ok k₁)
      (same : k' = { k₁ with activeProc := none, semaphores := f, mem := mem, nullAccess := true })
      (low : ∀ x : BitVec 32, 8 ≤ x.toNat → mem x = k₁.mem x)

theorem nullState_ne (m : Memory) (x : BitVec 32) (h : 8 ≤ x.toNat) :
    m.write nullState [4, 0, 0, 0] x = m x := by
  refine Memory.write_ne ?_
  show 4 ≤ (x - 4).toNat
  bv_omega

theorem ksemWait_effect (h : k.ksemWait id = .ok (rc, k')) : WaitEffect k id rc k' := by
  unfold ksemWait at h
  split at h
  · rename_i hid
    cases h
    exact .returns _ rfl fun s hs => by rw [hid] at hs; cases hs
  · rename_i s hid
    have hother : ¬ ((k.semaphores s).allocated ≠ 0 ∧ (k.semaphores s).count ≤ 0) →
        ∀ t, index semMax id = some t →
          ¬ ((k.semaphores t).allocated ≠ 0 ∧ (k.semaphores t).count ≤ 0) := by
      intro hn t ht
      rw [hid] at ht
      cases ht
      exact hn
    split at h
    · rename_i halloc
      cases h
      exact .returns _ rfl (hother fun hw => hw.1 halloc)
    · rename_i halloc
      split at h
      · rename_i hcount
        cases h
        exact .returns _ rfl (hother fun hw => Int.not_le.mpr hcount hw.2)
      · rename_i hcount
        obtain ⟨k₂, h₂, h₃⟩ := Loop.bind_eq_ok.mp h
        cases h₃
        obtain ⟨k₁, h₁, h₂⟩ := Loop.bind_eq_ok.mp h₂
        cases hact : k.activeProc with
        | none => rw [hact] at h₁; cases h₁
        | some i =>
          rw [hact] at h₁
          have hnone := schedulerRemove_active hact h₁
          rw [hnone] at h₂
          cases h₂
          exact .blocks s i k₁ _ _ hid halloc (Int.not_lt.mp hcount) rfl hact h₁ rfl
            (nullState_ne k₁.mem)

/-- A post changes the semaphore, and may make a process runnable. -/
inductive PostEffect (k : Kernel) (k' : Kernel) : Prop
  | counts (f : Fin semMax → Sem) (same : k' = { k with semaphores := f })
  | wakes (i : Fin procMax) (q : Queue) (f : Fin semMax → Sem)
      (live : (k.procTable i).state ≠ .none) (same : k' = { k.runnable i q with semaphores := f })

theorem ksemPost_effect (h : k.ksemPost id = .ok (rc, k')) : PostEffect k k' := by
  unfold ksemPost at h
  split at h
  · cases h
    exact .counts _ rfl
  · split at h
    · cases h
      exact .counts _ rfl
    · dsimp only at h
      split at h
      · cases h
        exact .counts _ rfl
      · split at h
        · cases h
          exact .counts _ rfl
        · split at h
          · cases h
            exact .counts _ rfl
          · rename_i hlive
            obtain ⟨k₁, h₁, h₂⟩ := Loop.bind_eq_ok.mp h
            cases h₂
            obtain ⟨r, rfl, _⟩ := schedulerAdd_eq h₁
            exact .wakes _ _ _ hlive rfl

end Kernel
end UnivOS
