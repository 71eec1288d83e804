import UnivOS.Table

/-! # What leaves the mutexes alone

Only the functions of `kmutex.c` write to the mutexes and their allocator.
-/
namespace UnivOS
namespace Kernel
open Word

variable {k k' : Kernel} {i : Fin procMax} {rc : Int} {ev : Event}

theorem timerBody_sameMutexes (h : k.timerBody = .ok k') : SameMutexes k k' := by
  cases timerBody_cases h <;> exact ⟨rfl, rfl⟩

theorem ActiveOnly.sameMutexes (h : ActiveOnly k k') : SameMutexes k k' :=
  ⟨h.frame Kernel.mutexes fun _ _ => rfl, h.frame Kernel.mutexQueue fun _ _ => rfl⟩

theorem tick_sameMutexes (h : k.tick = .ok k') : SameMutexes k k' := by
  have hacc := (accountActive_only { k with timerTicks := wrap32 (k.timerTicks + 1) }).sameMutexes
  refine Loop.live_inv (fun k' => SameMutexes k k') ?_ _ _ ⟨hacc.mutexes, hacc.mutexQueue⟩ h
  intro s t hs hst
  exact hs.trans (timerBody_sameMutexes hst)

theorem schedulerSleep_sameMutexes {time : Int} (h : k.schedulerSleep (some i) time = .ok k') :
    SameMutexes k k' := by
  cases schedulerSleep_cases h with
  | again _ => exact ⟨rfl, rfl⟩
  | sleeps k₁ _ _ hrem hmoved =>
    have hsame := schedulerRemove_sameMutexes hrem
    rw [hmoved]
    exact ⟨hsame.mutexes, hsame.mutexQueue⟩

theorem kprocCreate_sameMutexes (ht : TableOk k) {ptr : BitVec 32} {name : Option (List Byte)}
    {type : ProcType} (h : k.kprocCreate ptr name type = .ok (rc, k')) : SameMutexes k k' := by
  rcases kprocCreate_cases ht h with ⟨_, _, rfl⟩ | ⟨_, _, _, _, _, _, _, _, _, _, hadd⟩
  · exact .refl _
  · have hadd := schedulerAdd_sameMutexes hadd
    exact ⟨hadd.mutexes, hadd.mutexQueue⟩

theorem kprocDestroy_sameMutexes (ht : TableOk k) (hi : k.Live i)
    (h : k.kprocDestroy (some i) = .ok (rc, k')) : SameMutexes k k' := by
  rcases kprocDestroy_cases ht hi h with ⟨_, _, rfl⟩ | ⟨_, _, _, _, hrem, _, rfl⟩
  · exact .refl _
  · have hrem := schedulerRemove_sameMutexes hrem
    exact ⟨hrem.mutexes, hrem.mutexQueue⟩

theorem semCall_sameMutexes {call : SemCall} (h : k.semCall call = .ok (rc, k')) :
    SameMutexes k k' := by
  cases call with
  | init value =>
    obtain ⟨f, q, hk⟩ := ksemInit_frame k value
    rw [eq_of_ok h, hk]
    exact ⟨rfl, rfl⟩
  | destroy id =>
    obtain ⟨f, q, hk⟩ := ksemDestroy_frame k id
    rw [eq_of_ok h, hk]
    exact ⟨rfl, rfl⟩
  | wait id =>
    cases ksemWait_effect h with
    | returns _ same _ => rw [same]; exact ⟨rfl, rfl⟩
    | blocks _ _ _ _ _ _ _ _ _ _ removes same =>
      have hrem := schedulerRemove_sameMutexes removes
      rw [same]
      exact ⟨hrem.mutexes, hrem.mutexQueue⟩
  | post id =>
    cases ksemPost_effect h with
    | counts _ same => rw [same]; exact ⟨rfl, rfl⟩
    | wakes _ _ _ _ same => rw [same]; exact ⟨rfl, rfl⟩

/-- Every event but a mutex call; a system call may be one. -/
theorem handle_sameMutexes (ht : TableOk k) (h : k.handle ev = .ok (rc, k'))
    (hev : ∀ call, ev ≠ .mutex call) (hsys : ev ≠ .syscall) : SameMutexes k k' := by
  cases ev with
  | tick =>
    obtain ⟨k₁, h₁, h₂⟩ := Loop.bind_eq_ok.mp h
    cases h₂
    exact tick_sameMutexes h₁
  | create ptr name type => exact kprocCreate_sameMutexes ht h
  | destroy =>
    cases hact : k.activeProc with
    | none => rw [handle, hact] at h; cases h
    | some i =>
      rw [handle, hact] at h
      exact kprocDestroy_sameMutexes ht (ht.active_live i hact) h
  | sleep time =>
    obtain ⟨k₁, h₁, h₂⟩ := Loop.bind_eq_ok.mp h
    cases h₂
    cases hact : k.activeProc with
    | none => rw [hact] at h₁; cases h₁
    | some i =>
      rw [hact] at h₁
      exact schedulerSleep_sameMutexes h₁
  | mutex call => exact absurd rfl (hev call)
  | sem call => exact semCall_sameMutexes h
  | syscall => exact absurd rfl hsys

theorem schedulerRun_sameMutexes (h : k.schedulerRun = .ok k') : SameMutexes k k' := by
  obtain ⟨k₁, h₁, h₂⟩ := Loop.bind_eq_ok.mp h
  have hout : SameMutexes k k₁ := by
    cases scheduleOut_cases h₁ <;> exact ⟨rfl, rfl⟩
  have hin : SameMutexes k₁ k' := by
    cases scheduleIn_cases h₂ <;> exact ⟨rfl, rfl⟩
  exact hout.trans hin

theorem entered_sameMutexes (k : Kernel) (e : Entry) : SameMutexes k (k.entered e) :=
  (entered_only k e).sameMutexes

theorem setResult_sameMutexes (k : Kernel) (rc : Int) : SameMutexes k (k.setResult rc) :=
  (setResult_only k rc).sameMutexes

end Kernel
end UnivOS
