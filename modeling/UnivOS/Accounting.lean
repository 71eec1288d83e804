import UnivOS.Screen

/-! # The time of processes

A tick is charged to the process that is active. So over a whole run the time of a process
is the number of ticks it was active at, whatever its entry in the table has been used for
before. Once a second the list of the processes on the first terminal is in order, and
shows it.
-/
namespace UnivOS
open Word

namespace Kernel

variable {k k' : Kernel} {i : Fin procMax} {time : Int → Int}

/-- The process id of the active process. -/
def activePid (k : Kernel) : Option Int := k.activeProc.map fun i => (k.procTable i).pid

/-- Every process has the time that its process id is to have. -/
def Timed (k : Kernel) (time : Int → Int) : Prop :=
  ∀ i, k.Live i → (k.procTable i).runTime = time (k.procTable i).pid

/-- An entry that keeps its process id is not taken into use. -/
theorem live_of_pid (ht : TableOk k) (ht' : TableOk k') (hi : k'.Live i)
    (hpid : (k'.procTable i).pid = (k.procTable i).pid) : k.Live i := by
  by_contra hfree
  have hzero : (k'.procTable i).pid = (k'.procTable idleProc).pid := by
    rw [hpid, ht.free_pid i hfree, ht'.idle_pid]
  obtain rfl := ht'.pid_inj i idleProc hi ht'.idle_live hzero
  exact hfree ht.idle_live

theorem SameEntry.timed (h : SameEntry (k.procTable i) (k'.procTable i)) (ht : TableOk k)
    (ht' : TableOk k') (hk : k.Timed time) (hi : k'.Live i) :
    (k'.procTable i).runTime = time (k'.procTable i).pid := by
  rw [h.runTime, h.pid]
  exact hk i (live_of_pid ht ht' hi h.pid)

/-- A process that is created has not run. All others keep their time. -/
theorem FilesEffect.timed {ev : Event} (h : FilesEffect k ev k') (ht : TableOk k)
    (ht' : TableOk k') (hfresh : time k.nextPid = 0) (hk : k.Timed time) : k'.Timed time := by
  intro i hi
  cases h with
  | same ttys sems untouched unused same => exact SameEntry.timed (k := k) (same.entry i) ht ht' hk hi
  | created j next other new =>
    by_cases hij : i = j
    · rw [hij, new.runTime, new.pid, hfresh]
    · exact (other.entry i hij).timed ht ht' hk hi
  | destroyed j notIdle next other gone =>
    by_cases hij : i = j
    · have hzero : (k'.procTable i).pid = (k'.procTable idleProc).pid := by
        rw [hij, gone.pid, ht'.idle_pid]
        rfl
      exact absurd (hij.symm.trans (ht'.pid_inj i idleProc hi ht'.idle_live hzero)) notIdle
    · exact (other.entry i hij).timed ht ht' hk hi

theorem activePid_eq (ht : TableOk k) (hi : k.Live i) :
    k.activePid = some (k.procTable i).pid ↔ k.activeProc = some i := by
  constructor
  · intro h
    obtain ⟨j, hj, hpid⟩ := Option.map_eq_some_iff.mp h
    rw [hj, ht.pid_inj j i (ht.active_live j hj) hi hpid]
  · intro h
    rw [activePid, h, Option.map_some]

/-- A tick is charged to the active process. -/
theorem tick_timed (h : k.tick = .ok k') (ht : TableOk k) (ht' : TableOk k') (hk : k.Timed time) :
    k'.Timed fun pid => if k.activePid = some pid then wrap32 (time pid + 1) else time pid := by
  intro i hi
  have hentry := (tick_sameFiles h).entry i
  have hpid : (k'.procTable i).pid = (k.procTable i).pid := hentry.pid
  have hlive := live_of_pid ht ht' hi hpid
  rw [hentry.runTime, hpid]
  show (if k.activeProc = some i then _ else _) = _
  simp only [activePid_eq ht hlive, ← hk i hlive]

theorem SameFiles.timed (h : SameFiles k k') (ht : TableOk k) (ht' : TableOk k')
    (hk : k.Timed time) : k'.Timed time := fun i hi => (h.entry i).timed ht ht' hk hi

/-! ## The first processes -/

theorem kprocCreate_unused {rc : Int} {ptr : BitVec 32} {name : Option (List Byte)}
    {type : ProcType} (hk : ∀ i, (k.procTable i).runTime = 0)
    (h : k.kprocCreate ptr name type = .ok (rc, k')) : ∀ i, (k'.procTable i).runTime = 0 := by
  intro i
  cases name with
  | none => cases h
  | some name =>
    cases kprocCreate_files h with
    | same ttys sems untouched unused same => exact (same.entry i).runTime.trans (hk i)
    | created j next other new =>
      by_cases hij : i = j
      · rw [hij, new.runTime]
      · exact (other.entry i hij).runTime.trans (hk i)
    | destroyed j notIdle next other gone =>
      by_cases hij : i = j
      · rw [hij, gone.runTime]
        rfl
      · exact (other.entry i hij).runTime.trans (hk i)

theorem startProgram_unused {p : BitVec 32 × String × (Int → Int)}
    (hk : ∀ i, (k.procTable i).runTime = 0) (h : k.startProgram p = .ok k') :
    ∀ i, (k'.procTable i).runTime = 0 := by
  obtain ⟨⟨pid, k₁⟩, h₁, h⟩ := Loop.bind_eq_ok.mp h
  obtain ⟨⟨rc, k₂⟩, h₂, h⟩ := Loop.bind_eq_ok.mp h
  cases h
  obtain ⟨tty, _, h₂⟩ := Loop.bind_eq_ok.mp h₂
  have hcreated := kprocCreate_unused hk h₁
  split at h₂
  · cases h₂
    exact hcreated
  · rename_i j _
    cases h₂
    intro i
    by_cases hij : i = j
    · rw [hij, modifyProc_self]
      exact hcreated j
    · rw [modifyProc_ne k₁ _ hij]
      exact hcreated i

/-- No process has run when `main` is done. -/
theorem kernelInit_unused {img : Image} (h : kernelInit img = .ok k) :
    ∀ i, (k.procTable i).runTime = 0 := by
  rw [kernelInit, Ttys.ttyInit_eq, Loop.ok_bind] at h
  obtain ⟨k₁, h₁, h⟩ := Loop.bind_eq_ok.mp h
  cases h
  obtain ⟨⟨rc, k₀⟩, h₀, h₁⟩ := Loop.bind_eq_ok.mp h₁
  exact Loop.foldlM_inv (fun k => ∀ i, (k.procTable i).runTime = 0)
    (fun _ _ _ hs h => startProgram_unused hs h) _ (kprocCreate_unused (fun _ => rfl) h₀) h₁

end Kernel

namespace System

variable {p : Platform} {s t s' : System} {a : Arrival} {rc : Int} {c : Cause} {i : Fin procMax}

/-! ## Over a run -/

/-- The process id of the active process. -/
abbrev activePid (s : System) : Option Int := s.core.kernel.activePid

/-- The ticks at which a process was active. -/
def ticksOf (pid : Int) (tr : List Step) : Nat :=
  tr.countP fun x => x.act.1.trapframe.interrupt = irqTimer ∧ x.pre.activePid = some pid

theorem ticksOf_snoc (pid : Int) (tr : List Step) (x : Step) : ticksOf pid (tr ++ [x]) =
    if x.act.1.trapframe.interrupt = irqTimer ∧ x.pre.activePid = some pid then ticksOf pid tr + 1
    else ticksOf pid tr := by
  rw [ticksOf, List.countP_append, List.countP_singleton, ← ticksOf]
  by_cases hx : x.act.1.trapframe.interrupt = irqTimer ∧ x.pre.activePid = some pid
  · rw [if_pos hx, if_pos (decide_eq_true hx)]
  · rw [if_neg hx, if_neg (by simpa using hx)]
    rfl

/-- The ticks so far make the times of the processes. No process that is still to come
was active. -/
structure Accounts (tr : List Step) (s : System) : Prop where
  timed : s.core.kernel.Timed fun pid => wrap32 (ticksOf pid tr)
  known : ∀ x ∈ tr, ∀ pid, x.pre.activePid = some pid → pid < s.core.kernel.nextPid

theorem Accounts.fresh {tr : List Step} (h : Accounts tr s) :
    ticksOf s.core.kernel.nextPid tr = 0 := by
  refine List.countP_eq_zero.mpr fun x hx hcounted => ?_
  have := h.known x hx _ (of_decide_eq_true hcounted).2
  omega

theorem arrive_activePid (s : System) (a : Arrival) : (s.arrive a).activePid = s.activePid := by
  have hstill := s.arrive_still a
  simp only [activePid, Kernel.activePid, hstill.active, hstill.pid]

/-- What an interrupt's handler does to the times. -/
theorem Acts.timed {k k' : Kernel} {ev : Option Event} {time : Int → Int} (h : Acts k ev k')
    (ht : k.TableOk) (ht' : k'.TableOk) (hk : k.Timed time) (hfresh : time k.nextPid = 0) :
    k'.Timed fun pid => if ev = some .tick ∧ k.activePid = some pid then wrap32 (time pid + 1)
      else time pid := by
  cases h with
  | nothing ttys =>
    simp only [reduceCtorEq, false_and, if_false]
    exact hk
  | @handled ev rc k' before after handles =>
    have hbefore := tableOk_withTtys ht before
    have hafter : k'.TableOk := tableOk_withTtys ht' k'.ttys
    by_cases htick : ev = .tick
    · subst htick
      obtain ⟨k₁, h₁, h₂⟩ := Loop.bind_eq_ok.mp handles
      cases h₂
      have htimed := Kernel.tick_timed h₁ hbefore hafter hk
      simp only [true_and]
      exact htimed
    · have htimed := (Kernel.handle_files hbefore htick handles).timed hbefore hafter hfresh hk
      simp only [Option.some.injEq, htick, false_and, if_false]
      exact htimed

theorem Accounts.step {tr : List Step} (h : Accounts tr s) (hs : Settled p s)
    (hn : kernelContextEnter p a s = .ok (rc, s')) : Accounts (tr ++ [⟨s, (a, rc), s'⟩]) s' := by
  obtain ⟨c, t, k, henters⟩ := hs.kernelContextEnter_ok hn
  have harrive := hs.arrive a
  have hsame := s.arrive_sameFiles a
  have hserved := serve_served henters.serves
  have htable := hserved.acts.tableOk harrive.tableOk
  have hrun := Kernel.schedulerRun_sameFiles henters.schedules
  have hkernel : s'.core.kernel = k := by rw [henters.result]; rfl
  have hfresh : wrap32 (ticksOf (s.arrive a).core.kernel.nextPid tr) = 0 := by
    rw [hsame.nextPid, h.fresh]
    decide
  have htimed := hserved.acts.timed harrive.tableOk htable
    (hsame.timed hs.tableOk harrive.tableOk h.timed) hfresh
  have hnext : s.core.kernel.nextPid ≤ s'.core.kernel.nextPid := by
    rw [hkernel, hrun.nextPid, ← hsame.nextPid]
    exact hserved.acts.nextPid_le harrive.tableOk
  refine ⟨?_, fun x hx pid hpid => ?_⟩
  · have hcount : (fun pid => wrap32 (ticksOf pid (tr ++ [⟨s, (a, rc), s'⟩]))) = fun pid =>
        if (s.arrive a).event p c = some .tick ∧ (s.arrive a).activePid = some pid then
          wrap32 (wrap32 (ticksOf pid tr) + 1) else wrap32 (ticksOf pid tr) := by
      funext pid
      have htimer : a.trapframe.interrupt = irqTimer ↔ c = .tick := by
        rw [henters.cause]
        cases c <;> simp [Cause.irq, irqTimer, irqKeyboard, irqSyscall]
      rw [ticksOf_snoc, arrive_activePid]
      simp only [event_tick, htimer]
      split
      · have hnext : wrap32 (wrap32 (ticksOf pid tr) + 1) = wrap32 ((ticksOf pid tr : Int) + 1) :=
          Int.bmod_add_bmod
        rw [hnext, Int.natCast_succ]
      · rfl
    rw [hcount, hkernel]
    exact hrun.timed htable (hkernel ▸ (hs.step hn).tableOk) htimed
  · rcases List.mem_append.mp hx with hx | hx
    · exact Int.lt_of_lt_of_le (h.known x hx pid hpid) hnext
    · rw [List.mem_singleton.mp hx] at hpid
      obtain ⟨i, hi, rfl⟩ := Option.map_eq_some_iff.mp hpid
      exact Int.lt_of_lt_of_le (hs.tableOk.pid_range i (hs.tableOk.active_live i hi)).2 hnext

theorem accounts_of_run {tr : List Step} (h : Runs p tr s) : Accounts tr s := by
  refine h.invariant (P := Accounts) (fun s hs => ⟨fun i _ => ?_, by simp⟩)
    fun _ _ _ _ hr hn ih => ih.step (settled_of_run hr) hn.2
  rw [Kernel.kernelInit_unused (begun_of_main hs).kernel i]
  show (0 : Int) = wrap32 (0 : Nat)
  decide

/-- **The time of a process is the number of ticks it was active at**, counted from the
start of the system in 32 bits, though an entry of the table serves many processes. -/
theorem run_time_counts_ticks {tr : List Step} (h : ClearRuns p tr s) (hi : s.core.kernel.Live i) :
    (s.core.kernel.procTable i).runTime =
      wrap32 (ticksOf (s.core.kernel.procTable i).pid tr) := (accounts_of_run h.runs).timed i hi

/-- A hundred timer interrupts from the start. -/
theorem hundred_ticks : ∃ tr x s, ClearRuns blank (tr ++ [x]) s ∧
    (∀ y ∈ tr ++ [x], y.act.1 = timerArrival) ∧ tickCount (tr ++ [x]) = 100 := by
  obtain ⟨s, hs, hb⟩ := main_begun blank
  obtain ⟨tr, x, s', hrun, htimer, hticks⟩ := hb.ready.idle_last (.nil hs) (by simp) 99
  have hclear : ClearRuns blank (tr ++ [x]) s' := by
    refine Trace.Run.restrict hrun fun y hy => ?_
    rw [htimer y hy]
    exact clear_of (by decide)
  refine ⟨tr, x, s', hclear, htimer, ?_⟩
  rw [List.nil_append] at hticks
  rw [tickCount_snoc, htimer x (by simp), if_pos (by rfl), hticks]
  rfl

/-- The idle task after a hundred ticks. -/
theorem run_time_counts_ticks_idle : ∃ tr s, ClearRuns blank tr s ∧ tickCount tr = 100 ∧
    (s.core.kernel.procTable Kernel.idleProc).runTime = wrap32 (ticksOf 0 tr) := by
  obtain ⟨tr, x, s, hrun, _, hticks⟩ := hundred_ticks
  have htable := (settled_of_run hrun.runs).tableOk
  have htime := run_time_counts_ticks hrun htable.idle_live
  rw [htable.idle_pid] at htime
  exact ⟨_, s, hrun, hticks, htime⟩

/-! ## The list of the processes -/

/-- On every hundredth tick the first terminal shows the list of the processes. -/
theorem Settled.tick_lists (hs : Settled p s) {core : Core} (h : s.core.tick = .ok core)
    (hhundred : core.kernel.timerTicks.tmod 100 = 0) (hfront : core.kernel.ttys.ttyGetActive = 0) :
    core.vga.ShowsList core.kernel.procTable (Vga.listed core.kernel.procTable procMax) := by
  obtain ⟨ttys, vga, hrefresh, htick, hdraws⟩ := tick_ok h
  have hfiles := Kernel.tick_sameFiles htick
  have hticks : core.kernel.timerTicks = wrap32 (s.core.kernel.timerTicks + 1) := hfiles.timerTicks
  have hscroll : vga.scroll = 0 := by
    rcases hrefresh with ⟨_, hrefresh⟩ | ⟨_, _, rfl⟩
    · exact (hs.terminals.ttyRefresh hs.scroll hrefresh).2
    · exact hs.scroll
  have hattached : core.kernel.Attached := hfiles.attached ⟨hs.attached.name, hs.attached.io⟩
  have hten : core.kernel.timerTicks.tmod 10 = 0 := by
    refine Int.tmod_eq_zero_of_dvd (Int.dvd_trans ?_ (Int.dvd_of_tmod_eq_zero hhundred))
    decide
  -- the list is the last thing that is drawn
  obtain ⟨l, hl⟩ : ∃ l, drawing core.kernel.timerTicks = l ++ [.testProcList] := by
    rw [drawing, if_pos hten, if_pos hten]
    exact ⟨_, rfl⟩
  have hmem : ∀ f ∈ l, f.Draws := by
    intro f hf
    refine drawing_draws (n := core.kernel.timerTicks) ?_
    rw [hl]
    exact List.mem_append_left _ hf
  rw [← hticks, hl, List.foldlM_append] at hdraws
  obtain ⟨c, hc, hdraws⟩ := Loop.bind_eq_ok.mp hdraws
  obtain ⟨c', hc', honly⟩ := draws_return (c := { s.core with kernel := core.kernel, vga }) hmem
    hattached hscroll (hticks ▸ wrap32_inInt32 _)
  cases hc.symm.trans hc'
  have hkernel : c.kernel = core.kernel := honly.kernel
  obtain ⟨w, hw, _, hshows⟩ := Vga.testProcList_shows (v := c.vga)
    (fun i => hattached.plain i) honly.scroll core.kernel.timerTicks
  rw [List.foldlM_cons, Callback.run, hkernel, hfront, hw] at hdraws
  have hvga : core.vga = w := (congrArg Core.vga (Except.ok.inj hdraws)).symm
  rw [hvga]
  exact fun {y} hy h1 => hshows hhundred hy h1

/-- **Once a second the list of the processes is in order.** After every hundredth tick with
the first terminal selected, the rows below the header show the processes there were when
the tick was handled, one each in the order of the table, with the ticks they were active
at, and nothing else. -/
theorem screen_lists_processes {tr : List Step} {x : Step} (h : ClearRuns p (tr ++ [x]) s)
    (hirq : x.act.1.trapframe.interrupt = irqTimer)
    (hhundred : (wrap32 (tickCount (tr ++ [x]))).tmod 100 = 0)
    (hi : s.ttys.activeTty = some Ttys.firstTty) : ∃ k : Kernel,
      k.schedulerRun = .ok s.core.kernel ∧
      s.core.vga.ShowsList k.procTable (Vga.listed k.procTable procMax) ∧
      ∀ i, k.Live i → (k.procTable i).runTime = wrap32 (ticksOf (k.procTable i).pid (tr ++ [x])) := by
  have h := h.runs
  obtain ⟨hr, hn, rfl⟩ := h.snoc_inv
  have hs := settled_of_run h
  obtain ⟨c, t, k, henters⟩ := (settled_of_run hr).kernelContextEnter_ok hn.2
  have harrive := (settled_of_run hr).arrive x.act.1
  obtain rfl : c = .tick := by
    have hcause := henters.cause.symm.trans hirq
    cases c with
    | tick => rfl
    | key | call => cases hcause
  have hkernel : x.post.core.kernel = k := by rw [henters.result]; rfl
  have hvga : x.post.core.vga = t.core.vga := by rw [henters.result]; rfl
  have hrun := hkernel ▸ Kernel.schedulerRun_sameFiles henters.schedules
  have hserves := henters.serves
  obtain ⟨core, hcore, hserves⟩ := Loop.bind_eq_ok.mp hserves
  obtain ⟨_, rfl⟩ := Prod.mk.inj (Except.ok.inj hserves)
  refine ⟨core.kernel, hkernel ▸ henters.schedules, ?_, fun i hlive => ?_⟩
  · rw [hvga]
    refine harrive.tick_lists (orStop_eq_ok.mp hcore) ?_ ?_
    · rw [← hrun.timerTicks, hs.ticks, ticks_of_run h]
      exact hhundred
    · rw [← hrun.ttys, Ttys.ttyGetActive, hi]
      exact hs.terminals.id Ttys.firstTty
  · have htable := (serve_served henters.serves).acts.tableOk harrive.tableOk
    have hentry := hrun.entry i
    have hlive' := Kernel.live_of_pid hs.tableOk htable hlive hentry.pid.symm
    rw [← hentry.runTime, ← hentry.pid]
    exact (accounts_of_run h).timed i hlive'

/-- The list after a hundred ticks. -/
theorem screen_lists_processes_first : ∃ tr s, ∃ k : Kernel, ClearRuns blank tr s ∧
    tickCount tr = 100 ∧ k.schedulerRun = .ok s.core.kernel ∧
      s.core.vga.ShowsList k.procTable (Vga.listed k.procTable procMax) := by
  obtain ⟨tr, x, s, hrun, htimer, hticks⟩ := hundred_ticks
  have hpresses : presses (tr ++ [x]) = [] := by
    refine List.filterMap_eq_nil_iff.mpr fun y hy => ?_
    rw [htimer y hy]
    rfl
  obtain ⟨i, hi, hval⟩ := (follows_of_run hrun.runs).selected
  rw [hpresses] at hval
  obtain rfl : i = Ttys.firstTty := Fin.ext hval
  obtain ⟨k, hk, hshows, _⟩ := screen_lists_processes hrun (by rw [htimer x (by simp)]; rfl)
    (by rw [hticks]; decide) hi
  exact ⟨_, s, k, hrun, hticks, hk, hshows⟩

end System
end UnivOS
