import UnivOS.Boot

/-! # Processes that are not active

An entry destroys no process but the active one and saves no registers but its
own: any other keeps its process id and its trapframe, whatever the event.
-/
namespace UnivOS
namespace Kernel
open Word

/-- The process is still there, with the registers it will resume with. -/
structure SameProc (k k' : Kernel) (i : Fin procMax) : Prop where
  live : k'.Live i
  pid : (k'.procTable i).pid = (k.procTable i).pid
  trapframe : (k'.procTable i).trapframe = (k.procTable i).trapframe

variable {k k' k'' : Kernel} {i j : Fin procMax} {rc : Int}

theorem SameProc.trans (h : SameProc k k' i) (h' : SameProc k' k'' i) : SameProc k k'' i :=
  ⟨h'.live, h'.pid.trans h.pid, h'.trapframe.trans h.trapframe⟩

theorem SameProc.of_entry (hi : k.Live i) (h : k'.procTable i = k.procTable i) :
    SameProc k k' i :=
  ⟨(live_congr h).mpr hi, by rw [h], by rw [h]⟩

theorem Keeps.sameProc (h : Keeps k k') (hi : k.Live i) : SameProc k k' i :=
  ⟨(h.live i).mpr hi, h.pid i, h.trapframe i⟩

theorem kprocCreate_sameProc (ht : TableOk k) (hi : k.Live i) {ptr : BitVec 32}
    {name : Option (List Byte)} {type : ProcType} (h : k.kprocCreate ptr name type = .ok (rc, k')) :
    SameProc k k' i := by
  rcases kprocCreate_cases ht h with ⟨_, _, rfl⟩ | ⟨j, q, p, m, hj, _, _, _, hs, _, hadd⟩
  · exact .of_entry hi rfl
  · have hne : i ≠ j := fun he => hj (he ▸ hi)
    have hlive : (k.allotProc j p q m).Live j :=
      allotProc_live.mpr (.inr ⟨rfl, by rw [hs]; exact nofun⟩)
    have hi' : (k.allotProc j p q m).Live i := allotProc_live.mpr (.inl ⟨hne, hi⟩)
    exact (SameProc.of_entry hi (allotProc_ne k p q m hne)).trans
      ((schedulerAdd_keeps hlive hadd).sameProc hi')

theorem kprocDestroy_sameProc (ht : TableOk k) (hi : k.Live i) (hj : k.Live j) (hne : i ≠ j)
    (h : k.kprocDestroy (some j) = .ok (rc, k')) : SameProc k k' i := by
  rcases kprocDestroy_cases ht hj h with ⟨_, _, rfl⟩ | ⟨k₁, q, _, _, h₁, _, rfl⟩
  · exact .of_entry hi rfl
  · have h₁ := (schedulerRemove_keeps h₁).sameProc hi
    exact h₁.trans (.of_entry h₁.live (freeProc_ne k₁ q hne))

/-- Destruction makes no process active. -/
theorem kprocDestroy_active (ht : TableOk k) (hj : k.Live j)
    (h : k.kprocDestroy (some j) = .ok (rc, k')) (hi : k'.activeProc = some i) :
    k.activeProc = some i := by
  rcases kprocDestroy_cases ht hj h with ⟨_, _, rfl⟩ | ⟨k₁, q, _, _, h₁, _, rfl⟩
  · exact hi
  · exact (schedulerRemove_keeps h₁).active i hi

theorem setResult_sameProc (hi : k.Live i) (hne : k.activeProc ≠ some i) :
    SameProc k (k.setResult rc) i :=
  .of_entry hi ((setResult_only k rc).other i hne)

/-- A system call does not touch the processes that do not make it. -/
theorem ksyscall_sameProc (ht : TableOk k) (hi : k.Live i) (hne : k.activeProc ≠ some i)
    {tf : Trapframe} {call : Syscall} (h : k.ksyscall tf call = .ok (rc, k')) :
    SameProc k k' i ∧ k'.activeProc ≠ some i := by
  by_cases hexit : call = .procExit
  · subst hexit
    have h' : k.kprocDestroy k.activeProc = .ok (rc, k') := h
    cases hact : k.activeProc with
    | none => rw [hact] at h'; cases h'
    | some a =>
      rw [hact] at h'
      have ha := ht.active_live a hact
      exact ⟨kprocDestroy_sameProc ht hi ha (fun he => hne (he ▸ hact)) h',
        fun hi' => hne (kprocDestroy_active ht ha h' hi')⟩
  · have hk := ksyscall_keeps ht hexit h
    exact ⟨hk.sameProc hi, fun hi' => hne (hk.active i hi')⟩

theorem ksyscallIrqHandler_sameProc (ht : TableOk k) (hi : k.Live i) (hne : k.activeProc ≠ some i)
    (h : k.ksyscallIrqHandler = .ok (rc, k')) : SameProc k k' i := by
  obtain ⟨_, _, _, k₁, _, _, _, h₁, rfl⟩ := ksyscallIrqHandler_call h
  obtain ⟨hs, hne'⟩ := ksyscall_sameProc ht hi hne h₁
  exact hs.trans (setResult_sameProc hs.live hne')

theorem handle_sameProc (ht : TableOk k) (hi : k.Live i) (hne : k.activeProc ≠ some i) {ev : Event}
    (h : k.handle ev = .ok (rc, k')) : SameProc k k' i := by
  cases ev with
  | create ptr name type => exact kprocCreate_sameProc ht hi h
  | destroy =>
    cases hact : k.activeProc with
    | none => rw [handle, hact] at h; cases h
    | some a =>
      rw [handle, hact] at h
      have ha := ht.active_live a hact
      exact kprocDestroy_sameProc ht hi ha (fun he => hne (he ▸ hact)) h
  | syscall => exact ksyscallIrqHandler_sameProc ht hi hne h
  | tick => exact (handle_keeps ht (by trivial) h).sameProc hi
  | sleep time => exact (handle_keeps ht (by trivial) h).sameProc hi
  | mutex call => exact (handle_keeps ht (by trivial) h).sameProc hi
  | sem call => exact (handle_keeps ht (by trivial) h).sameProc hi

/-- A process outlives every event but its own destruction, which the idle task
outlives too. -/
theorem handle_survives (ht : TableOk k) (hi : k.Live i) {ev : Event}
    (hd : ev = .destroy → k.activeProc = some i → i = idleProc) (hsys : ev ≠ .syscall)
    (h : k.handle ev = .ok (rc, k')) :
    k'.Live i ∧ (k'.procTable i).pid = (k.procTable i).pid := by
  have hsame : k.activeProc ≠ some i → k'.Live i ∧ (k'.procTable i).pid = (k.procTable i).pid := by
    intro hne
    have hs := handle_sameProc ht hi hne h
    exact ⟨hs.live, hs.pid⟩
  have hkeeps : KeepsProcs ev → k'.Live i ∧ (k'.procTable i).pid = (k.procTable i).pid := by
    intro hev
    have hk := handle_keeps ht hev h
    exact ⟨(hk.live i).mpr hi, hk.pid i⟩
  cases ev with
  | create ptr name type =>
    have hs := kprocCreate_sameProc ht hi h
    exact ⟨hs.live, hs.pid⟩
  | destroy =>
    by_cases hact : k.activeProc = some i
    · have hidle := hd rfl hact
      rw [handle, hact] at h
      rcases kprocDestroy_cases ht hi h with ⟨_, _, rfl⟩ | ⟨_, _, hne, _⟩
      · exact ⟨hi, rfl⟩
      · exact absurd hidle hne
    · exact hsame hact
  | syscall => exact absurd rfl hsys
  | tick => exact hkeeps trivial
  | sleep => exact hkeeps trivial
  | mutex => exact hkeeps trivial
  | sem => exact hkeeps trivial

theorem entered_sameProc (hi : k.Live i) (hne : k.activeProc ≠ some i) (e : Entry) :
    SameProc k (k.entered e) i :=
  .of_entry hi ((entered_only k e).other i hne)

/-- The scheduler moves processes, and leaves the rest of them alone. -/
theorem schedulerRun_sameProc (ht : TableOk k) (hi : k.Live i) (h : k.schedulerRun = .ok k') :
    SameProc k k' i := by
  obtain ⟨k₁, h₁, h₂⟩ := Loop.bind_eq_ok.mp h
  have hout := scheduleOut_keeps ht h₁
  obtain ⟨a, hd⟩ := scheduleIn_dispatches h₂
  have hin := (hd.keeps (hout.tableOk ht)).sameProc ((hout.live i).mpr hi)
  exact (hout.sameProc hi).trans ⟨hin.live, hin.pid, hin.trapframe⟩

/-- A process that is not active when the kernel is entered is left alone. -/
theorem kernelContextEnter_sameProc (ht : TableOk k) (hi : k.Live i) (hne : k.activeProc ≠ some i)
    {e : Entry} (h : kernelContextEnter e k = .ok (rc, k')) : SameProc k k' i := by
  obtain ⟨k₁, h₁, h₂⟩ := kernelContextEnter_ok h
  have hent := entered_sameTable k e
  have h₀ := entered_sameProc hi hne e
  have h₃ := handle_sameProc (hent.tableOk ht) h₀.live (fun ha => hne (hent.active i ha)) h₁
  have ht₁ := handle_tableOk (hent.tableOk ht) h₁
  exact (h₀.trans h₃).trans (schedulerRun_sameProc ht₁ h₃.live h₂)

/-! ## Process ids are not used again -/

/-- The processes of `k'` are processes of `k`, or have newer process ids. -/
structure Grows (k k' : Kernel) : Prop where
  nextPid : k.nextPid ≤ k'.nextPid
  live : ∀ i, k'.Live i →
    k.Live i ∧ (k'.procTable i).pid = (k.procTable i).pid ∨ k.nextPid ≤ (k'.procTable i).pid

theorem Grows.trans (h : Grows k k') (h' : Grows k' k'') : Grows k k'' := by
  refine ⟨h.nextPid.trans h'.nextPid, fun i hi => ?_⟩
  rcases h'.live i hi with ⟨hi', hpid'⟩ | hnew
  · rcases h.live i hi' with ⟨hi, hpid⟩ | hnew
    · exact .inl ⟨hi, hpid'.trans hpid⟩
    · exact .inr (by rw [hpid']; exact hnew)
  · exact .inr (h.nextPid.trans hnew)

theorem SameTable.grows (h : SameTable k k') : Grows k k' :=
  ⟨Int.le_of_eq h.nextPid.symm, fun i hi => .inl ⟨(h.live i).mp hi, h.pid i⟩⟩

theorem Grows.refl (k : Kernel) : Grows k k := (Keeps.refl k).toSameTable.grows

theorem kprocCreate_grows (ht : TableOk k) {ptr : BitVec 32} {name : Option (List Byte)}
    {type : ProcType} (h : k.kprocCreate ptr name type = .ok (rc, k')) : Grows k k' := by
  rcases kprocCreate_cases ht h with ⟨_, _, rfl⟩ | ⟨j, q, p, m, _, _, _, hp, hs, _, hadd⟩
  · exact .refl _
  · have hallot : Grows k (k.allotProc j p q m) := by
      refine ⟨Int.le_of_lt (Int.lt_succ k.nextPid), fun i hi => ?_⟩
      rcases allotProc_live.mp hi with ⟨hne, hi⟩ | ⟨rfl, _⟩
      · exact .inl ⟨hi, by rw [allotProc_ne k p q m hne]⟩
      · exact .inr (by rw [allotProc_self, hp])
    refine hallot.trans (schedulerAdd_keeps ?_ hadd).toSameTable.grows
    exact allotProc_live.mpr (.inr ⟨rfl, by rw [hs]; exact nofun⟩)

theorem kprocDestroy_grows (ht : TableOk k) (hj : k.Live j)
    (h : k.kprocDestroy (some j) = .ok (rc, k')) : Grows k k' := by
  rcases kprocDestroy_cases ht hj h with ⟨_, _, rfl⟩ | ⟨k₁, q, _, _, h₁, _, rfl⟩
  · exact .refl _
  · refine (schedulerRemove_keeps h₁).toSameTable.grows.trans ⟨Int.le_refl _, fun i hi => ?_⟩
    obtain ⟨hi, hne⟩ := freeProc_live.mp hi
    exact .inl ⟨hi, by rw [freeProc_ne k₁ q hne]⟩

theorem kprocDestroy_active_grows (ht : TableOk k)
    (h : k.kprocDestroy k.activeProc = .ok (rc, k')) : Grows k k' := by
  cases hact : k.activeProc with
  | none => rw [hact] at h; cases h
  | some a =>
    rw [hact] at h
    exact kprocDestroy_grows ht (ht.active_live a hact) h

theorem ksyscallIrqHandler_grows (ht : TableOk k) (h : k.ksyscallIrqHandler = .ok (rc, k')) :
    Grows k k' := by
  obtain ⟨_, _, call, k₁, _, _, _, h₁, rfl⟩ := ksyscallIrqHandler_call h
  refine Grows.trans ?_ (setResult_sameTable k₁ rc).grows
  by_cases hexit : call = .procExit
  · subst hexit
    exact kprocDestroy_active_grows ht h₁
  · exact (ksyscall_keeps ht hexit h₁).toSameTable.grows

theorem handle_grows (ht : TableOk k) {ev : Event} (h : k.handle ev = .ok (rc, k')) :
    Grows k k' := by
  cases ev with
  | create ptr name type => exact kprocCreate_grows ht h
  | destroy => exact kprocDestroy_active_grows ht h
  | syscall => exact ksyscallIrqHandler_grows ht h
  | tick => exact (handle_keeps ht (by trivial) h).toSameTable.grows
  | sleep time => exact (handle_keeps ht (by trivial) h).toSameTable.grows
  | mutex call => exact (handle_keeps ht (by trivial) h).toSameTable.grows
  | sem call => exact (handle_keeps ht (by trivial) h).toSameTable.grows

theorem schedulerRun_grows (ht : TableOk k) (h : k.schedulerRun = .ok k') : Grows k k' := by
  obtain ⟨k₁, h₁, h₂⟩ := Loop.bind_eq_ok.mp h
  have hout := scheduleOut_keeps ht h₁
  obtain ⟨a, hd⟩ := scheduleIn_dispatches h₂
  have hin := (hd.keeps (hout.tableOk ht)).toSameTable.grows
  exact hout.toSameTable.grows.trans ⟨hin.nextPid, hin.live⟩

theorem kernelContextEnter_grows (ht : TableOk k) {e : Entry}
    (h : kernelContextEnter e k = .ok (rc, k')) : Grows k k' := by
  obtain ⟨k₁, h₁, h₂⟩ := kernelContextEnter_ok h
  have hent := entered_sameTable k e
  have ht₀ := hent.tableOk ht
  exact (hent.grows.trans (handle_grows ht₀ h₁)).trans
    (schedulerRun_grows (handle_tableOk ht₀ h₁) h₂)

end Kernel
end UnivOS
