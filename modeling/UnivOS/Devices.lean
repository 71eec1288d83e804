import UnivOS.Dispatch
import UnivOS.Entries
import UnivOS.Rings
import UnivOS.Terminals

/-! # Screen and terminals over a run

The processes that are listed have names that can be printed, the terminals stay as
`tty_init` set them up, and the screen never scrolls. So every callback that draws returns,
and it is known what an interrupt does to the terminals.
-/
namespace UnivOS
open Word

/-! ## Callbacks that draw -/

theorem procNames_plain : ∀ n ∈ Kernel.procNames, Plain (Vga.cString n) := by decide

theorem Kernel.Attached.plain {k : Kernel} (h : k.Attached) (i : Fin procMax) :
    Plain (Vga.cString (k.procTable i).name) := procNames_plain _ (h.name i)

/-- The cells of the clock, and of the spinner. -/
def InClock (n : Nat) : Prop := 73 ≤ n ∧ n < Vga.clockEnd

/-- What a callback that draws may change: the screen, and with another terminal than the
first only the clock. -/
structure DrawsOnly (c c' : Core) : Prop where
  kernel : c'.kernel = c.kernel
  scroll : c'.vga.scroll = 0
  clock : c.kernel.ttys.ttyGetActive ≠ 0 →
    ∀ k : Fin vgaSize, ¬ InClock k → c'.vga.buf k = c.vga.buf k

theorem DrawsOnly.trans {c₁ c₂ c₃ : Core} (h : DrawsOnly c₁ c₂) (h' : DrawsOnly c₂ c₃) :
    DrawsOnly c₁ c₃ := by
  refine ⟨h'.kernel.trans h.kernel, h'.scroll, fun hactive k hk => ?_⟩
  exact (h'.clock (by rwa [h.kernel]) k hk).trans (h.clock hactive k hk)

/-- A callback that draws returns. -/
theorem Callback.Draws.run {f : Callback} {c : Core} (hf : f.Draws) (hc : c.kernel.Attached)
    (hs : c.vga.scroll = 0) (hticks : InInt32 c.kernel.timerTicks) :
    ∃ c', f.run c = .ok c' ∧ DrawsOnly c c' := by
  cases f with
  | ttyRefresh | schedulerTimer => exact hf.elim
  | testSpinner =>
    obtain ⟨w, hw, hcells, hclock⟩ := Vga.testSpinner_ok hs c.spinCount
    rw [Callback.run, hw]
    refine ⟨_, rfl, rfl, hcells.scroll.trans hs, fun _ k hk => ?_⟩
    exact hclock k fun he => hk (by simp [he, InClock, Vga.clockEnd])
  | testTimer =>
    obtain ⟨w, hw, hframe, _, hclock⟩ := Vga.testTimer_ok hs hticks
    rw [Callback.run, hw]
    refine ⟨_, rfl, rfl, ?_, fun _ k hk => ?_⟩
    · show w.scroll = 0
      rw [hframe]
      exact hs
    · refine hclock k ?_
      unfold InClock at hk
      omega
  | testProcList =>
    by_cases hactive : c.kernel.ttys.ttyGetActive = 0
    · obtain ⟨w, hw, hdrawn, _⟩ := Vga.testProcList_shows hc.plain hs c.kernel.timerTicks
      rw [Callback.run, hactive, hw]
      exact ⟨_, rfl, rfl, hdrawn.scroll.trans hs, fun hne => absurd hactive hne⟩
    · rw [Callback.run, Vga.testProcList_other hactive]
      exact ⟨_, rfl, rfl, hs, fun _ _ _ => rfl⟩

theorem draws_return : ∀ {l : List Callback} {c : Core}, (∀ f ∈ l, f.Draws) → c.kernel.Attached →
    c.vga.scroll = 0 → InInt32 c.kernel.timerTicks →
    ∃ c', l.foldlM Callback.run c = .ok c' ∧ DrawsOnly c c'
  | [], c, _, _, hs, _ => ⟨c, rfl, rfl, hs, fun _ _ _ => rfl⟩
  | f :: l, c, hl, hc, hs, hticks => by
    obtain ⟨c₁, h₁, hdraws⟩ := (hl f List.mem_cons_self).run hc hs hticks
    obtain ⟨c', h', hdraws'⟩ := draws_return (c := c₁) (fun g hg => hl g (List.mem_cons_of_mem f hg))
      (hdraws.kernel ▸ hc) hdraws.scroll (hdraws.kernel ▸ hticks)
    refine ⟨c', ?_, hdraws.trans hdraws'⟩
    rw [List.foldlM_cons, h₁]
    exact h'

/-! ## What an interrupt does to the terminals -/

theorem control_char (k : Keyboard) (c : BitVec 32) (h : (k.control c).call ≠ none) :
    (k.control c).char = keyNull := by
  revert h
  unfold Keyboard.control
  repeat' split
  all_goals simp

/-- A key that is a command enters no character. -/
theorem keyboardDecode_call {b : BitVec 32} {k k' : Keyboard} {d : Decoded}
    (h : keyboardDecode b k = .ok (d, k')) (hcall : d.call ≠ none) : d.char = keyNull := by
  unfold keyboardDecode at h
  split at h
  · cases h
    rfl
  · cases h
    rfl
  · split at h
    · obtain ⟨c, _, henter⟩ := Loop.map_eq_ok.mp h
      have hd : d = (k.enter c).1 := by rw [henter]
      subst hd
      unfold Keyboard.enter at hcall ⊢
      split
      · rfl
      · split
        · rfl
        · rename_i halt hescape
          rw [if_neg halt, if_neg hescape] at hcall
          exact control_char _ _ hcall
    · cases h
      rfl

namespace System

variable {p : Platform} {s t : System} {rc : Int} {c : Cause} {call : KeyCommand}

theorem cause_irq (c : Cause) : cause c.irq = some c := by cases c <;> rfl

/-- The terminals of a system. -/
abbrev ttys (s : System) : Ttys := s.core.kernel.ttys

theorem arrive_still (s : System) (a : Arrival) :
    Kernel.Still s.core.kernel (s.arrive a).core.kernel :=
  Kernel.entered_still s.core.kernel ⟨a.frame, a.mem, .tick⟩

theorem arrive_sameFiles (s : System) (a : Arrival) :
    Kernel.SameFiles s.core.kernel (s.arrive a).core.kernel :=
  Kernel.entered_sameFiles s.core.kernel ⟨a.frame, a.mem, .tick⟩

theorem arrive_ttys (s : System) (a : Arrival) : (s.arrive a).ttys = s.ttys :=
  (s.arrive_sameFiles a).ttys

/-- Every other tick refreshes the terminals. -/
def Refreshes (s : System) : Prop := (wrap32 (s.core.kernel.timerTicks + 1)).tmod 2 = 0

instance (s : System) : Decidable s.Refreshes := inferInstanceAs (Decidable (_ = _))

/-- What the key at the keyboard's port enters. -/
def entry (s : System) : BitVec 32 :=
  match s.decoded with
  | none => keyNull
  | some d => d.1.char

/-- What it tells the kernel. -/
def keyCommand (s : System) : Option KeyCommand := s.decoded.bind fun d => d.1.call

/-- What a served interrupt does to the terminals. -/
inductive TtysStep (s t : System) : Cause → Prop
  | refreshed {vga : Vga} (even : s.Refreshes)
      (refresh : s.ttys.ttyRefresh s.core.vga = .ok (t.ttys, vga)) : TtysStep s t .tick
  | skipped (odd : ¬ s.Refreshes) (same : t.ttys = s.ttys) : TtysStep s t .tick
  | selected {n : Int} (noEntry : s.entry = keyNull)
      (command : s.keyCommand = some (.ttySelect n))
      (select : s.ttys.ttySelect n = .ok t.ttys) : TtysStep s t .key
  | silent (noEntry : s.entry = keyNull) (unselected : ∀ n, s.keyCommand ≠ some (.ttySelect n))
      (same : t.ttys = s.ttys) : TtysStep s t .key
  | entered (entry : s.entry ≠ keyNull) (unselected : ∀ n, s.keyCommand ≠ some (.ttySelect n))
      (input : t.ttys = s.ttys.ttyInput (s.entry.setWidth 8)) : TtysStep s t .key
  | called (transfers : Kernel.Transfers s.core.kernel t.core.kernel) : TtysStep s t .call

theorem decoded_some {d : Decoded × Keyboard} (h : s.decoded = some d) :
    inportb kbdPortStat s.interrupts.ports &&& 1 ≠ 0 ∧
      keyboardDecode s.keyboardScan s.keyboard = .ok d := by
  unfold decoded at h
  split at h
  · rename_i hstat
    cases hd : keyboardDecode s.keyboardScan s.keyboard with
    | error e =>
      rw [hd] at h
      cases h
    | ok r =>
      rw [hd] at h
      cases h
      exact ⟨hstat, rfl⟩
  · cases h

/-- Every byte at the port is decoded. -/
theorem decoded_none (h : s.decoded = none) :
    ¬ inportb kbdPortStat s.interrupts.ports &&& 1 ≠ 0 := by
  intro hstat
  obtain ⟨d, hd⟩ := Keyboard.decode_returns (s.interrupts.ports kbdPortData) s.keyboard
  have hscan : keyboardDecode s.keyboardScan s.keyboard = .ok d := hd
  rw [decoded, if_pos hstat, hscan] at h
  cases h

/-- A command selects a terminal, or changes none. -/
theorem command_ttys (ht : Kernel.TableOk s.core.kernel) (h : s.command p call = .ok t) :
    (∃ n, call = .ttySelect n ∧ s.ttys.ttySelect n = .ok t.ttys) ∨
      (∀ n, call ≠ .ttySelect n) ∧ t.ttys = s.ttys := by
  cases call with
  | ttySelect n =>
    obtain ⟨ttys, hsel, h⟩ := Loop.bind_eq_ok.mp h
    cases h
    exact .inl ⟨n, rfl, orStop_eq_ok.mp hsel⟩
  | kernelExit =>
    obtain ⟨vga, _, h⟩ := Loop.bind_eq_ok.mp h
    cases h
  | setLogLevel | breakpoint =>
    cases h
    exact .inr ⟨by simp, rfl⟩
  | kprocCreate =>
    obtain ⟨⟨pid, k⟩, hk, h⟩ := Loop.bind_eq_ok.mp h
    cases h
    exact .inr ⟨by simp, (Kernel.kprocCreate_files (orStop_eq_ok.mp hk)).ttys (by simp)⟩
  | kprocDestroy =>
    obtain ⟨⟨rc, k⟩, hk, h⟩ := Loop.bind_eq_ok.mp h
    cases h
    have hfiles : Kernel.FilesEffect s.core.kernel .destroy k :=
      Kernel.kprocDestroy_files ht (orStop_eq_ok.mp hk)
    exact .inr ⟨by simp, hfiles.ttys (by simp)⟩

theorem keyboardIrqHandler_ttys (ht : Kernel.TableOk s.core.kernel)
    (h : s.keyboardIrqHandler p = .ok t) : TtysStep s t .key := by
  obtain ⟨char, u, hpoll, rfl⟩ := keyboardIrqHandler_ok h
  rcases keyboardPoll_ok hpoll with ⟨hnone, rfl, rfl⟩ | ⟨d, keyboard, hsome, rfl, hcall⟩
  · rw [if_neg (not_not.mpr (show keyNull = 0 from rfl))]
    exact .silent (by rw [entry, hnone]) (by simp [keyCommand, hnone]) rfl
  · have hentry : s.entry = d.char := by rw [entry, hsome]
    have hkey : s.keyCommand = d.call := by rw [keyCommand, hsome, Option.bind_some]
    rcases hcall with ⟨hcall, rfl⟩ | ⟨call, hcall, hcommand⟩
    · have hnone : ∀ n, s.keyCommand ≠ some (.ttySelect n) := by simp [hkey, hcall]
      split
      · rename_i hchar
        exact .entered (hentry ▸ hchar) hnone (by rw [hentry]; rfl)
      · rename_i hchar
        exact .silent (hentry.trans (not_not.mp hchar)) hnone rfl
    · have hdecode := (decoded_some hsome).2
      have hnull := keyboardDecode_call hdecode (by rw [hcall]; simp)
      rw [if_neg (not_not.mpr (show d.char = 0 from hnull))]
      rcases command_ttys (s := { s with keyboard }) ht hcommand with ⟨n, rfl, hselect⟩ | ⟨hother, hsame⟩
      · exact .selected (hentry.trans hnull) (hkey.trans hcall) hselect
      · refine .silent (hentry.trans hnull) (fun n hn => hother n ?_) hsame
        exact Option.some.inj (hcall.symm.trans (hkey.symm.trans hn))

/-- What a served interrupt does to the terminals. -/
theorem serve_ttys (ht : Kernel.TableOk s.core.kernel) (h : s.serve p c = .ok (rc, t)) :
    TtysStep s t c := by
  cases c with
  | tick =>
    obtain ⟨core, hcore, h⟩ := Loop.bind_eq_ok.mp h
    cases h
    obtain ⟨ttys, vga, hrefresh, htick, _⟩ := tick_ok (orStop_eq_ok.mp hcore)
    have hsame : core.kernel.ttys = ttys := (Kernel.tick_sameFiles htick).ttys
    rcases hrefresh with ⟨heven, hrefresh⟩ | ⟨hodd, hkeep, _⟩
    · exact .refreshed heven (hsame ▸ hrefresh)
    · exact .skipped hodd (hsame.trans hkeep)
  | key =>
    obtain ⟨u, hu, h⟩ := Loop.bind_eq_ok.mp h
    cases h
    exact keyboardIrqHandler_ttys ht hu
  | call =>
    obtain ⟨⟨rc, k⟩, hk, h⟩ := Loop.bind_eq_ok.mp h
    cases h
    exact .called (Kernel.ksyscallIrqHandler_transfers ht (orStop_eq_ok.mp hk))

theorem TtysStep.steady (h : TtysStep s t c) (hs : s.ttys.Steady) (hv : s.core.vga.scroll = 0) :
    t.ttys.Steady := by
  cases h with
  | refreshed even refresh => exact (hs.ttyRefresh hv refresh).1
  | skipped odd same => exact same ▸ hs
  | selected noEntry command select => exact hs.ttySelect select
  | silent noEntry unselected same => exact same ▸ hs
  | entered entry unselected input => exact input ▸ hs.ttyInput _
  | called transfers => exact transfers.steady hs

/-! ## What holds in every reachable state -/

/-- What every interrupt finds and leaves, whatever the processes do. -/
structure Settled (p : Platform) (s : System) : Prop extends Sane p s where
  attached : Kernel.Attached s.core.kernel
  nextPid : 11 ≤ s.core.kernel.nextPid
  terminals : s.ttys.Steady
  scroll : s.core.vga.scroll = 0

/-- The events of an interrupt create processes without a terminal only. -/
theorem event_attaches (hs : Settled p s) {ev : Event} (h : s.event p c = some ev) :
    Kernel.Attaches s.core.kernel ev := by
  cases c with
  | tick | call =>
    cases h
    trivial
  | key =>
    rw [event] at h
    unfold keyEvent at h
    split at h
    · cases h
      refine ⟨fun n hn => ?_, Kernel.wiring_later hs.nextPid⟩
      cases hn
      decide
    · cases h
      trivial
    · cases h

theorem Acts.attached {k k' : Kernel} {ev : Option Event} (h : Acts k ev k') (ht : k.TableOk)
    (hev : ∀ e, ev = some e → k.Attaches e) (ha : k.Attached) : k'.Attached := by
  cases h with
  | nothing ttys => exact ⟨ha.name, ha.io⟩
  | handled before after handles =>
    have hattaches := hev _ rfl
    have hnext := Kernel.handle_attached (tableOk_withTtys ht before) hattaches
      ⟨ha.name, ha.io⟩ handles
    exact ⟨hnext.name, hnext.io⟩

theorem Acts.nextPid_le {k k' : Kernel} {ev : Option Event} (h : Acts k ev k') (ht : k.TableOk) :
    k.nextPid ≤ k'.nextPid := by
  cases h with
  | nothing ttys => exact Int.le_refl _
  | @handled ev rc k' before after handles =>
    by_cases htick : ev = .tick
    · subst htick
      obtain ⟨k₁, h₁, h₂⟩ := Loop.bind_eq_ok.mp handles
      cases h₂
      exact Int.le_of_eq (Kernel.tick_sameFiles h₁).nextPid.symm
    · exact (Kernel.handle_files (tableOk_withTtys ht before) htick handles).nextPid_le

/-- Only a tick draws. -/
theorem serve_vga (h : s.serve p c = .ok (rc, t)) (hc : c ≠ .tick) : t.core.vga = s.core.vga := by
  cases c with
  | tick => exact absurd rfl hc
  | call =>
    obtain ⟨⟨rc, k⟩, _, h⟩ := Loop.bind_eq_ok.mp h
    cases h
    rfl
  | key =>
    obtain ⟨u, hu, h⟩ := Loop.bind_eq_ok.mp h
    cases h
    obtain ⟨char, u, hpoll, rfl⟩ := keyboardIrqHandler_ok hu
    have hpolled : u.core.vga = s.core.vga := by
      rcases keyboardPoll_ok hpoll with ⟨_, _, rfl⟩ | ⟨d, keyboard, _, _, ⟨_, rfl⟩ | ⟨call, _, hcall⟩⟩
      · rfl
      · rfl
      · rw [(command_ok hcall).1]
        rfl
    split
    · exact hpolled
    · exact hpolled

/-- A tick that returns refreshes the terminals and then only draws. -/
theorem Settled.tick (hs : Settled p s) {core : Core} (h : s.core.tick = .ok core) :
    ∃ vga, (s.Refreshes ∧ s.ttys.ttyRefresh s.core.vga = .ok (core.kernel.ttys, vga) ∨
      ¬ s.Refreshes ∧ core.kernel.ttys = s.ttys ∧ vga = s.core.vga) ∧
      DrawsOnly { s.core with kernel := core.kernel, vga } core := by
  obtain ⟨ttys, vga, hrefresh, htick, hdraws⟩ := tick_ok h
  have hfiles := Kernel.tick_sameFiles htick
  have hattached : core.kernel.Attached := hfiles.attached ⟨hs.attached.name, hs.attached.io⟩
  have hscroll : vga.scroll = 0 := by
    rcases hrefresh with ⟨_, hrefresh⟩ | ⟨_, _, rfl⟩
    · exact (hs.terminals.ttyRefresh hs.scroll hrefresh).2
    · exact hs.scroll
  have hticks : InInt32 core.kernel.timerTicks := by
    rw [hfiles.timerTicks]
    exact wrap32_inInt32 _
  obtain ⟨core', hcore, honly⟩ := draws_return
    (c := { s.core with kernel := core.kernel, vga }) (fun f hf => drawing_draws hf) hattached
    hscroll hticks
  cases hdraws.symm.trans hcore
  refine ⟨vga, ?_, honly⟩
  rw [hfiles.ttys]
  exact hrefresh

theorem Settled.scroll_served (hs : Settled p s) (h : s.serve p c = .ok (rc, t)) :
    t.core.vga.scroll = 0 := by
  by_cases hc : c = .tick
  · subst hc
    obtain ⟨core, hcore, h⟩ := Loop.bind_eq_ok.mp h
    cases h
    obtain ⟨_, _, hdraws⟩ := hs.tick (orStop_eq_ok.mp hcore)
    exact hdraws.scroll
  · rw [serve_vga h hc]
    exact hs.scroll

theorem Settled.arrive (hs : Settled p s) (a : Arrival) : Settled p (s.arrive a) := by
  have hsame := s.arrive_sameFiles a
  refine ⟨hs.toSane.arrive a, hsame.attached hs.attached, ?_, ?_, hs.scroll⟩
  · exact hsame.nextPid ▸ hs.nextPid
  · rw [arrive_ttys]
    exact hs.terminals

theorem Settled.step (hs : Settled p s) {a : Arrival} {s' : System}
    (h : kernelContextEnter p a s = .ok (rc, s')) : Settled p s' := by
  obtain ⟨c, t, k, henters⟩ := hs.kernelContextEnter_ok h
  have hsane := hs.toSane.step h
  have harrive := hs.arrive a
  have hacts := (serve_served henters.serves).acts
  have hrun := Kernel.schedulerRun_sameFiles henters.schedules
  have hkernel : s'.core.kernel = k := by rw [henters.result]; rfl
  refine ⟨hsane, ?_, ?_, ?_, ?_⟩
  · rw [hkernel]
    exact hrun.attached (hacts.attached harrive.tableOk (fun e => event_attaches harrive)
      harrive.attached)
  · rw [hkernel, hrun.nextPid]
    exact Int.le_trans harrive.nextPid (hacts.nextPid_le harrive.tableOk)
  · show s'.core.kernel.ttys.Steady
    rw [hkernel, hrun.ttys]
    exact (serve_ttys harrive.tableOk henters.serves).steady harrive.terminals harrive.scroll
  · have hscroll := harrive.scroll_served henters.serves
    rw [henters.result]
    exact hscroll

theorem Begun.settled (h : Begun p s) : Settled p s := by
  obtain ⟨httys, _⟩ := Kernel.kernelInit_devices h.kernel
  refine ⟨h.sane, .of_kernelInit h.kernel, ?_, ?_, ?_⟩
  · rw [(Kernel.Initial.of_kernelInit h.kernel).nextPid]
    decide
  · show s.core.kernel.ttys.Steady
    rw [httys]
    exact Ttys.ttyInitial_usable.toSteady
  · rw [h.vga]

theorem settled_of_run {tr : List Step} (h : Runs p tr s) : Settled p s :=
  h.state_invariant (fun _ hs => (begun_of_main hs).settled) fun _ _ _ _ _ hn hs => hs.step hn.2

end System
end UnivOS
