import UnivOS.Devices
import UnivOS.Sound

/-! # Orderly interrupts

Interrupts that keep to the rules: they are of the kinds `main` registers handlers for,
the output to display fits on the lines of the terminal, there is a pid left for a new
process, and a system call is lawful. From one such interrupt to the next the kernel
always gets to a process, or it exits because the keyboard tells it to.
-/
namespace UnivOS
open Word

/-! ## The keyboard's calls -/

namespace Keyboard

variable {k k' : Keyboard} {c : BitVec 32} {d : Decoded}

/-- The number of a digit. -/
theorem digit_toInt {c : BitVec 32} (h : 0x30 ≤ c ∧ c ≤ 0x39) :
    (c - 0x30).toInt = (c - 0x30).toNat ∧ (c - 0x30).toNat < ttyMax := by
  obtain ⟨hlo, hhi⟩ := h
  have hlo' : 48 ≤ c.toNat := hlo
  have hhi' : c.toNat ≤ 57 := hhi
  have hdigit : (c - 0x30).toNat = c.toNat - 48 := by
    rw [BitVec.toNat_sub_of_le hlo]
    rfl
  have hmax : ttyMax = 10 := rfl
  exact ⟨BitVec.toInt_eq_toNat_of_lt (by omega), by omega⟩

/-- The calls a keyboard makes: the terminals it selects exist, and it destroys a process
only with a key held. -/
def Issues (k : Keyboard) : KeyCommand → Prop
  | .ttySelect n => 0 ≤ n ∧ n < ttyMax
  | .kprocDestroy => k.kbdStatus ≠ 0
  | _ => True

theorem control_issues {call : KeyCommand} (h : (k.control c).call = some call) : k.Issues call := by
  have hheld : k.Status (.hold .ctrl) → k.kbdStatus ≠ 0 := by
    intro hs h0
    rw [Status, h0] at hs
    simp at hs
  unfold control at h
  split at h
  · rename_i hctrl
    have hne := hheld hctrl
    repeat' split at h
    all_goals cases h
    all_goals first | exact trivial | exact hne
  · cases h

theorem enter_issues {call : KeyCommand} (h : (k.enter c).1.call = some call) : k.Issues call := by
  unfold enter at h
  split at h
  · rename_i hdigit
    cases h
    obtain ⟨hint, hlt⟩ := digit_toInt hdigit.2
    show 0 ≤ (c - 0x30).toInt ∧ (c - 0x30).toInt < ttyMax
    rw [hint]
    omega
  · split at h
    · dsimp only at h
      split at h
      · cases h
        trivial
      · cases h
    · dsimp only at h
      -- the escape count plays no part in a command
      have hissues := control_issues h
      split at hissues
      · cases call <;> exact hissues
      · exact hissues

theorem decode_issues {call : KeyCommand} (h : keyboardDecode c k = .ok (d, k'))
    (hcall : d.call = some call) : k.Issues call := by
  unfold keyboardDecode at h
  split at h
  · cases h
    cases hcall
  · cases h
    cases hcall
  · split at h
    · obtain ⟨char, _, henter⟩ := Loop.map_eq_ok.mp h
      have hd : d = (k.enter char).1 := by rw [henter]
      subst hd
      exact enter_issues hcall
    · cases h
      cases hcall

end Keyboard

/-- `kernel_exit` returns. -/
theorem Vga.kernelExit_returns {v : Vga} (hs : v.scroll = 0) : ∃ w, v.kernelExit = .ok w := by
  have hcolors : ((v.vgaSetBg vgaColorRed).vgaSetFg vgaColorWhite).scroll = 0 := hs
  have hat : At (((v.vgaSetBg vgaColorRed).vgaSetFg vgaColorWhite).vgaSetXy 0 0) 0 :=
    (vgaSetXy_onScreen _ 0 0).at.1
  have hblanks : Plain (snprintf (vgaWidth * vgaHeight) (padLeft 80 [])) := by decide
  obtain ⟨x, y, hbar, _⟩ := vgaPuts_plain hat hcolors hblanks (by decide)
  have hexit : StaysOn 0 (cString (snprintf (vgaWidth * vgaHeight)
      (cstring ("Exiting " ++ osName ++ "...\n")))) ∧ cursorAfter 0 (cString
        (snprintf (vgaWidth * vgaHeight) (cstring ("Exiting " ++ osName ++ "...\n")))) < vgaSize := by
    decide
  rw [kernelExit, vgaPrintf, hbar, Loop.ok_bind]
  obtain ⟨w, hw, _⟩ := (vgaPuts_iff (vgaSetXy_onScreen _ 0 0) _).mpr (.inr hexit)
  exact ⟨w, hw⟩

/-! ## Progress -/

/-- The output to display fits on the lines of the selected terminal. -/
def Ttys.OutputFits (s : Ttys) : Prop :=
  ∀ i, s.activeTty = some i → (s.ttyTable i).LinesFit (s.ttyTable i).ioOutput.toList

namespace System

variable {p : Platform} {s t s' : System} {a : Arrival} {rc : Int} {c : Cause} {call : KeyCommand}

/-- What an orderly interrupt finds and leaves. -/
structure Ready (p : Platform) (s : System) : Prop extends Settled p s where
  sound : s.core.kernel.Sound
  usable : s.ttys.Usable
  started : s.core.kernel.activeProc = none → s.keyboard.kbdStatus = 0

/-- The interrupts that keep to the rules. -/
def Orderly (s : System) : Cause → Prop
  | .tick => s.Refreshes → s.ttys.OutputFits
  | .key => s.keyCommand = some .kprocCreate → InInt32 (s.core.kernel.nextPid + 1)
  | .call => s.core.kernel.LawfulCall

/-- What serving an orderly interrupt keeps. -/
structure Kept (s : System) : Prop where
  sound : s.core.kernel.Sound
  usable : s.ttys.Usable

theorem Ready.arrive (h : Ready p s) (a : Arrival) : Ready p (s.arrive a) := by
  refine ⟨h.toSettled.arrive a, h.sound.entered ⟨a.frame, a.mem, .tick⟩, ?_, fun hnone => ?_⟩
  · rw [arrive_ttys]
    exact h.usable
  · exact h.started ((s.arrive_still a).active.symm.trans hnone)

theorem Ready.tick (h : Ready p s) (hfits : s.Refreshes → s.ttys.OutputFits) :
    ∃ core, s.core.tick = .ok core ∧ core.kernel.Sound ∧ core.kernel.ttys.Usable := by
  have hrefresh : ∃ r, (if s.Refreshes then s.ttys.ttyRefresh s.core.vga
      else .ok (s.ttys, s.core.vga)) = .ok r ∧ r.1.Usable ∧ r.2.scroll = 0 := by
    by_cases heven : s.Refreshes
    · obtain ⟨i, hi⟩ := Option.ne_none_iff_exists'.mp h.terminals.active
      obtain ⟨ttys, vga, hr, husable⟩ := Ttys.ttyRefresh_usable hi h.usable (hfits heven i hi)
        s.core.vga
      rw [if_pos heven]
      exact ⟨_, hr, husable, (h.terminals.ttyRefresh h.scroll hr).2⟩
    · rw [if_neg heven]
      exact ⟨_, rfl, h.usable, h.scroll⟩
  obtain ⟨⟨ttys, vga⟩, hrefresh, husable, hscroll⟩ := hrefresh
  have hticked := h.sound.withTtys ttys s.core.kernel.mem
  obtain ⟨rc, k, hk, hsound⟩ := hticked.handle_lawful (show Kernel.Lawful _ .tick from trivial)
  obtain ⟨k₁, htick, hk⟩ := Loop.bind_eq_ok.mp hk
  cases hk
  have hfiles := Kernel.tick_sameFiles htick
  obtain ⟨core, hcore, hdraws⟩ := draws_return (c := { s.core with kernel := k, vga })
    (fun f hf => drawing_draws (n := wrap32 (s.core.kernel.timerTicks + 1)) hf)
    (hfiles.attached ⟨h.attached.name, h.attached.io⟩) hscroll
    (hfiles.timerTicks ▸ wrap32_inInt32 _)
  refine ⟨core, ?_, ?_, ?_⟩
  · have hrefreshed : (if (wrap32 (s.core.kernel.timerTicks + 1)).tmod 2 = 0
        then s.ttys.ttyRefresh s.core.vga else .ok (s.ttys, s.core.vga)) = .ok (ttys, vga) := hrefresh
    rw [tick_eq, hrefreshed, Loop.ok_bind, htick, Loop.ok_bind]
    exact hcore
  · rw [hdraws.kernel]
    exact hsound
  · rw [hdraws.kernel, hfiles.ttys]
    exact husable

/-- A command that can be obeyed: the terminal exists, there is a pid, or a process to
destroy. -/
def Obeyable (s : System) : KeyCommand → Prop
  | .ttySelect n => 0 ≤ n ∧ n < ttyMax
  | .kprocCreate => InInt32 (s.core.kernel.nextPid + 1)
  | .kprocDestroy => s.core.kernel.activeProc ≠ none
  | _ => True

/-- A command of the keyboard returns, or it exits. -/
theorem Kept.command (h : s.Kept) (ht : Kernel.TableOk s.core.kernel) (hs : s.core.vga.scroll = 0)
    (ho : s.Obeyable call) : (∃ t, s.command p call = .ok t ∧ t.Kept) ∨
      ∃ v, call = .kernelExit ∧ s.command p call = .error (.exit v) := by
  have hhandle : ∀ ev, s.core.kernel.Lawful ev → ev ≠ .syscall → ev ≠ .tick →
      ∃ rc k, s.core.kernel.handle ev = .ok (rc, k) ∧ (s.withKernel k).Kept := by
    intro ev hlawful hsys htick
    obtain ⟨rc, k, hk, hsound⟩ := h.sound.handle_lawful hlawful
    have httys := (Kernel.handle_files ht htick hk).ttys hsys
    exact ⟨rc, k, hk, hsound, show k.ttys.Usable from httys ▸ h.usable⟩
  cases call with
  | ttySelect n =>
    obtain ⟨ttys, hselect, husable⟩ := h.usable.ttySelect ho
    refine .inl ⟨s.withKernel { s.core.kernel with ttys }, ?_,
      h.sound.withTtys ttys s.core.kernel.mem, husable⟩
    rw [System.command, hselect]
    rfl
  | kernelExit =>
    obtain ⟨v, hv⟩ := Vga.kernelExit_returns hs
    refine .inr ⟨v, rfl, ?_⟩
    rw [System.command, hv]
    rfl
  | setLogLevel change => exact .inl ⟨_, rfl, h.sound, h.usable⟩
  | kprocCreate =>
    obtain ⟨rc, k, hk, hkept⟩ := hhandle (.create p.kprocTest (some (cstring "test")) .user)
      ⟨p.test_ne, by simp, ho⟩ (by simp) (by simp)
    have hcreate : s.core.kernel.kprocCreate p.kprocTest (some (cstring "test")) .user =
        .ok (rc, k) := hk
    refine .inl ⟨s.withKernel k, ?_, hkept⟩
    rw [System.command, hcreate]
    rfl
  | kprocDestroy =>
    obtain ⟨rc, k, hk, hkept⟩ := hhandle .destroy ho (by simp) (by simp)
    refine .inl ⟨s.withKernel k, ?_, hkept⟩
    rw [System.command, show s.core.kernel.kprocDestroy _ = .ok (rc, k) from hk]
    rfl
  | breakpoint => exact .inl ⟨_, rfl, h.sound, h.usable⟩

theorem keyboardPoll_some {d : Decoded} {keyboard : Keyboard} (h : s.decoded = some (d, keyboard)) :
    s.keyboardPoll p = match d.call with
      | none => .ok (d.char, { s with keyboard })
      | some call =>
        ({ s with keyboard } : System).command p call >>= fun t => .ok (d.char, t) := by
  obtain ⟨hstat, hdecode⟩ := decoded_some h
  rw [System.keyboardPoll, if_pos hstat, hdecode]
  rfl

theorem keyboardPoll_none (h : s.decoded = none) : s.keyboardPoll p = .ok (keyNull, s) := by
  rw [System.keyboardPoll, if_neg (decoded_none h)]

theorem Ready.keyboardPoll (h : Ready p s)
    (hpid : s.keyCommand = some .kprocCreate → InInt32 (s.core.kernel.nextPid + 1)) :
    (∃ char t, s.keyboardPoll p = .ok (char, t) ∧ t.Kept) ∨
      ∃ v, s.keyCommand = some .kernelExit ∧ s.keyboardPoll p = .error (.exit v) := by
  cases hd : s.decoded with
  | none => exact .inl ⟨keyNull, s, keyboardPoll_none hd, h.sound, h.usable⟩
  | some r =>
    obtain ⟨d, keyboard⟩ := r
    have hkept : ({ s with keyboard } : System).Kept := ⟨h.sound, h.usable⟩
    have hcommand : s.keyCommand = d.call := by rw [keyCommand, hd, Option.bind_some]
    rw [keyboardPoll_some hd, hcommand]
    cases hcall : d.call with
    | none => exact .inl ⟨_, _, rfl, hkept⟩
    | some call =>
      have hobeyable : ({ s with keyboard } : System).Obeyable call := by
        have hissues := Keyboard.decode_issues (decoded_some hd).2 hcall
        cases call with
        | ttySelect n => exact hissues
        | kprocCreate => exact hpid (hcommand.trans hcall)
        | kprocDestroy => exact fun hnone => hissues (h.started hnone)
        | _ => trivial
      rcases hkept.command (p := p) h.tableOk h.scroll hobeyable with ⟨t, ht, hkept'⟩ | ⟨v, rfl, hv⟩
      · refine .inl ⟨d.char, t, ?_, hkept'⟩
        dsimp only
        rw [ht, Loop.ok_bind]
      · refine .inr ⟨v, rfl, ?_⟩
        dsimp only
        rw [hv]
        rfl

theorem Ready.keyboardIrqHandler (h : Ready p s)
    (hpid : s.keyCommand = some .kprocCreate → InInt32 (s.core.kernel.nextPid + 1)) :
    (∃ t, s.keyboardIrqHandler p = .ok t ∧ t.Kept) ∨
      ∃ v, s.keyCommand = some .kernelExit ∧ s.keyboardIrqHandler p = .error (.exit v) := by
  rw [System.keyboardIrqHandler]
  rcases h.keyboardPoll hpid with ⟨char, t, hpoll, hkept⟩ | ⟨v, hcommand, hpoll⟩
  · left
    rw [hpoll, Loop.ok_bind]
    dsimp only
    split
    · exact ⟨_, rfl, hkept.sound.withTtys _ t.core.kernel.mem, hkept.usable.ttyInput _⟩
    · exact ⟨t, rfl, hkept⟩
  · right
    rw [hpoll]
    exact ⟨v, hcommand, rfl⟩

/-- Serving an orderly interrupt returns, or it exits. -/
theorem Ready.serve (h : Ready p s) (ho : s.Orderly c) :
    (∃ rc t, s.serve p c = .ok (rc, t) ∧ t.Kept) ∨
      ∃ v, c = .key ∧ s.keyCommand = some .kernelExit ∧ s.serve p c = .error (.exit v) := by
  cases c with
  | tick =>
    obtain ⟨core, hcore, hsound, husable⟩ := h.tick ho
    refine .inl ⟨0, { s with
      core, timers := { s.timers with ticks := wrap32 (s.timers.ticks + 1) } }, ?_, hsound, husable⟩
    rw [System.serve, hcore]
    rfl
  | key =>
    rw [System.serve]
    rcases h.keyboardIrqHandler ho with ⟨t, ht, hkept⟩ | ⟨v, hcommand, hv⟩
    · rw [ht]
      exact .inl ⟨0, t, rfl, hkept⟩
    · rw [hv]
      exact .inr ⟨v, rfl, hcommand, rfl⟩
  | call =>
    obtain ⟨rc, k, hk, hsound⟩ := h.sound.handle_syscall ho
    have husable := (Kernel.ksyscallIrqHandler_transfers h.tableOk hk).usable h.usable
    refine .inl ⟨rc, s.withKernel k, ?_, hsound, husable⟩
    rw [System.serve, hk]
    rfl

/-- An orderly interrupt gets to a process and leaves the system ready for the next, or
it exits. -/
theorem Ready.enters (h : Ready p s) (hc : a.trapframe.interrupt = c.irq)
    (ho : (s.arrive a).Orderly c) :
    (∃ rc s', kernelContextEnter p a s = .ok (rc, s') ∧ Ready p s') ∨
      ∃ v, c = .key ∧ (s.arrive a).keyCommand = some .kernelExit ∧
        kernelContextEnter p a s = .error (.exit v) := by
  have harrive := h.arrive a
  have hdispatch : kernelContextEnter p a s =
      (s.arrive a).serve p c >>= fun r => Res.orStop r.2.core.kernel.schedulerRun >>= fun k =>
        if k.activeProc = none then .error (.halt (.panic "No active process!"))
        else .ok (r.1, { r.2.withKernel k with interrupts := r.2.interrupts.dismiss c.irq }) := by
    rw [kernelContextEnter, harrive.interruptsIrqHandler, dispatch, hc, cause_irq]
    dsimp only
    cases System.serve p (s.arrive a) c <;> rfl
  rcases harrive.serve (p := p) ho with ⟨rc, t, hserve, hkept⟩ | ⟨v, rfl, hcommand, hserve⟩
  · obtain ⟨k, hk, hsound, hactive⟩ := hkept.sound.schedulerRun
    have henter : kernelContextEnter p a s =
        .ok (rc, { t.withKernel k with interrupts := t.interrupts.dismiss c.irq }) := by
      rw [hdispatch, hserve, Loop.ok_bind, hk]
      exact if_neg hactive
    refine .inl ⟨rc, _, henter, h.toSettled.step henter, hsound, ?_, fun hnone => absurd hnone hactive⟩
    show k.ttys.Usable
    rw [(Kernel.schedulerRun_sameFiles hk).ttys]
    exact hkept.usable
  · refine .inr ⟨v, rfl, hcommand, ?_⟩
    rw [hdispatch, hserve]
    rfl

theorem Begun.ready (h : Begun p s) : Ready p s := by
  refine ⟨h.settled, .of_kernelInit h.kernel, ?_, fun _ => by rw [h.keyboard]⟩
  show s.core.kernel.ttys.Usable
  rw [(Kernel.kernelInit_devices h.kernel).1]
  exact Ttys.ttyInitial_usable

/-- Runs of orderly interrupts from the end of `main`. -/
abbrev OrderlyRuns (p : Platform) : List Step → System → Prop :=
  Trace.Run (fun s => main p = .ok s) (Trace.Exec (kernelContextEnter p) fun _ s a =>
    ∃ c, a.trapframe.interrupt = c.irq ∧ (s.arrive a).Orderly c)

theorem ready_of_run {tr : List Step} (h : OrderlyRuns p tr s) : Ready p s := by
  refine h.state_invariant (fun _ hs => (begun_of_main hs).ready) ?_
  rintro tr s ⟨a, rc⟩ s' _ ⟨⟨c, hc, ho⟩, hn⟩ hs
  rcases hs.enters hc ho with ⟨rc', s'', henter, hready⟩ | ⟨v, _, _, henter⟩
  · cases henter.symm.trans hn
    exact hready
  · cases henter.symm.trans hn

/-- A timer interrupt, with nothing at the keyboard. -/
def timerArrival : Arrival := .of { Trapframe.zero with interrupt := irqTimer } 0 0

theorem timerArrival_irq : timerArrival.trapframe.interrupt = irqTimer := by
  rw [timerArrival, Arrival.of_trapframe]

end System
end UnivOS
