import UnivOS.Streams

/-! # What is on the screen

A refresh types the output of the selected terminal at it, and draws the terminal if it
has changed. So over a whole run the text of a terminal is what has been typed there, and
between two refreshes the screen is the selected terminal, the clock apart. The first
terminal is left out: the list of the processes is drawn over it.
-/
namespace UnivOS
open Word

/-- Typing a text that fits displays it. -/
theorem Tty.Displays.types {t : Tty} {text : List Byte} (h : t.Displays text) (cs : List Byte)
    (hfit : Tty.Fits (text ++ cs)) : ∃ t', t.types cs = .ok t' ∧ t'.Displays (text ++ cs) := by
  induction cs generalizing t text with
  | nil => exact ⟨t, rfl, by rwa [List.append_nil]⟩
  | cons c cs ih =>
    rw [List.append_cons] at hfit ⊢
    obtain ⟨u, hu, hdisplays⟩ := h.ttyUpdate hfit.of_append
    obtain ⟨t', ht, hdisplays'⟩ := ih hdisplays hfit
    refine ⟨t', ?_, hdisplays'⟩
    rw [Tty.types, List.foldlM_cons, hu]
    exact ht

/-- What is drawn depends on the text only. -/
theorem Tty.SameText.drawn {t u : Tty} (h : Tty.SameText t u) : Ttys.drawn u = Ttys.drawn t := by
  obtain ⟨input, output, refresh, rfl⟩ := h
  rfl

/-- Rings and the refresh flag are no part of the text. -/
theorem Tty.SameText.ring (t : Tty) (input output : Ringbuf) :
    Tty.SameText t { t with ioInput := input, ioOutput := output } := ⟨input, output, t.refresh, rfl⟩

namespace System

variable {p : Platform} {s t s' : System} {a : Arrival} {rc : Int} {c : Cause} {i j : Fin ttyMax}

/-! ## The texts of the terminals -/

/-- What an interrupt types at the terminal `i`. -/
def printed (s : System) (i : Fin ttyMax) : Cause → List Byte
  | .tick => s.displayed (.output i)
  | .key | .call => []

/-- What a step of a run types at the terminal `i`. -/
def shown (i : Fin ttyMax) (x : Step) : List Byte :=
  match cause x.act.1.trapframe.interrupt with
  | none => []
  | some c => (x.pre.arrive x.act.1).printed i c

/-- A system call changes the text of no terminal, and no flag. -/
theorem transfers_text {k k' : Kernel} (h : Kernel.Transfers k k') (i : Fin ttyMax) :
    Tty.SameText (k.ttys.ttyTable i) (k'.ttys.ttyTable i) ∧
      (k'.ttys.ttyTable i).refresh = (k.ttys.ttyTable i).refresh ∧
      k'.ttys.activeTty = k.ttys.activeTty := by
  have hset : ∀ j (t : Tty), Tty.SameText (k.ttys.ttyTable j) t →
      t.refresh = (k.ttys.ttyTable j).refresh →
      Tty.SameText (k.ttys.ttyTable i) ((k.ttys.setTty j t).ttyTable i) ∧
        ((k.ttys.setTty j t).ttyTable i).refresh = (k.ttys.ttyTable i).refresh := by
    intro j t ht hflag
    by_cases hi : i = j
    · subst hi
      rw [Ttys.setTty_self]
      exact ⟨ht, hflag⟩
    · rw [Ttys.setTty_ne hi]
      exact ⟨.refl _, rfl⟩
  cases h with
  | nothing ttys takes puts =>
    rw [ttys]
    exact ⟨.refl _, rfl, rfl⟩
  | moves q b request ttys bytes =>
    rw [ttys]
    cases q.ring with
    | input j =>
      obtain ⟨htext, hflag⟩ := hset j _ (.ring _ b (k.ttys.ttyTable j).ioOutput) rfl
      exact ⟨htext, hflag, rfl⟩
    | output j =>
      obtain ⟨htext, hflag⟩ := hset j _ (.ring _ (k.ttys.ttyTable j).ioInput b) rfl
      exact ⟨htext, hflag, rfl⟩

/-- A key entered at a terminal changes its input ring only. -/
theorem input_text {u : Ttys} (hs : s.ttys.Steady) {char : Byte} (h : u = s.ttys.ttyInput char)
    (i : Fin ttyMax) : Tty.SameText (s.ttys.ttyTable i) (u.ttyTable i) ∧
      (u.ttyTable i).refresh = (s.ttys.ttyTable i).refresh ∧ u.activeTty = s.ttys.activeTty := by
  rcases Ttys.ttyInput_echo_off (fun j => (hs.tty j).echo) char with hin | ⟨j, input, hin⟩
  · rw [h, hin]
    exact ⟨.refl _, rfl, rfl⟩
  · rw [h, hin]
    by_cases hi : i = j
    · subst hi
      rw [Ttys.setTty_self]
      exact ⟨.ring _ input _, rfl, rfl⟩
    · rw [Ttys.setTty_ne hi]
      exact ⟨.refl _, rfl, rfl⟩

/-- A refresh types what is in the output ring of the selected terminal. -/
theorem refresh_text {vga : Vga} (hs : s.ttys.Steady) (hv : s.core.vga.scroll = 0)
    (hj : s.ttys.activeTty = some j) (h : s.ttys.ttyRefresh s.core.vga = .ok (t.ttys, vga)) :
    ∃ w, (s.ttys.ttyTable j).types (s.bytes (.output j)) = .ok w ∧
      Tty.SameText w (t.ttys.ttyTable j) := by
  obtain ⟨u, hdrain, _, _, hcases⟩ := Ttys.ttyRefresh_cases hs hj hv h
  obtain ⟨w, htypes, hu, _⟩ := Ttys.ttyDrain_types hj hdrain
  have htext : Tty.SameText w (u.ttyTable j) := by
    rw [hu, Ttys.setTty_self]
    exact .ring w w.ioInput _
  refine ⟨w, htypes, ?_⟩
  rcases hcases with ⟨_, ht, _⟩ | ⟨_, rfl, ht, _⟩
  · rw [ht, Ttys.setTty_self]
    exact htext.trans ⟨_, _, 0, rfl⟩
  · rwa [ht]

/-- The text of a terminal changes by what is typed there. -/
theorem TtysStep.text (h : TtysStep s t c) (hs : s.ttys.Steady) (hv : s.core.vga.scroll = 0)
    (i : Fin ttyMax) : ∃ w, (s.ttys.ttyTable i).types (s.printed i c) = .ok w ∧
      Tty.SameText w (t.ttys.ttyTable i) := by
  cases h with
  | @refreshed vga even refresh =>
    obtain ⟨j, hj⟩ := Option.ne_none_iff_exists'.mp hs.active
    rw [printed, displayed, hj, Option.map_some]
    by_cases hi : i = j
    · subst hi
      rw [if_pos ⟨even, rfl⟩]
      exact refresh_text hs hv hj refresh
    · rw [if_neg fun he => hi (IoRing.output.inj (Option.some.inj he.2)).symm]
      refine ⟨_, rfl, ?_⟩
      rw [(Ttys.ttyRefresh_only hj refresh).others i hi]
      exact .refl _
  | skipped odd same =>
    rw [printed, displayed, if_neg fun he => odd he.1, same]
    exact ⟨_, rfl, .refl _⟩
  | selected noEntry command select =>
    obtain ⟨j, ht⟩ := Ttys.ttySelect_ok select
    refine ⟨_, rfl, ?_⟩
    rw [ht]
    by_cases hi : i = j
    · subst hi
      show Tty.SameText _ ((s.ttys.setTty i _).ttyTable i)
      rw [Ttys.setTty_self]
      exact ⟨_, _, 1, rfl⟩
    · show Tty.SameText _ ((s.ttys.setTty j _).ttyTable i)
      rw [Ttys.setTty_ne hi]
      exact .refl _
  | silent noEntry unselected same =>
    rw [same]
    exact ⟨_, rfl, .refl _⟩
  | entered entry unselected input => exact ⟨_, rfl, (input_text hs input i).1⟩
  | called transfers => exact ⟨_, rfl, (transfers_text transfers i).1⟩

theorem Settled.text (hs : Settled p s) (h : kernelContextEnter p a s = .ok (rc, s'))
    (i : Fin ttyMax) : ∃ w, (s.ttys.ttyTable i).types (shown i ⟨s, (a, rc), s'⟩) = .ok w ∧
      Tty.SameText w (s'.ttys.ttyTable i) := by
  obtain ⟨c, t, k, henters⟩ := hs.kernelContextEnter_ok h
  have harrive := hs.arrive a
  have hstep := (serve_ttys harrive.tableOk henters.serves).text harrive.terminals harrive.scroll i
  rw [arrive_ttys] at hstep
  simp only [shown, henters.cause, cause_irq]
  rw [henters.ttys]
  exact hstep

/-- In every run the text of a terminal is what has been typed there. -/
theorem text_of_run {tr : List Step} (h : Runs p tr s) (i : Fin ttyMax) :
    ∃ w, (Ttys.ttyZero.ttyTable i).types (tr.flatMap (shown i)) = .ok w ∧
      Tty.SameText w (s.ttys.ttyTable i) := by
  refine h.invariant (P := fun tr s => ∃ w,
    (Ttys.ttyZero.ttyTable i).types (tr.flatMap (shown i)) = .ok w ∧
      Tty.SameText w (s.ttys.ttyTable i)) ?_ ?_
  · intro s hs
    refine ⟨_, rfl, ?_⟩
    rw [ttys, (Kernel.kernelInit_devices (begun_of_main hs).kernel).1, Ttys.ttyInitial_table]
    exact ⟨_, _, _, rfl⟩
  · rintro tr s ⟨a, rc⟩ s' hr hn ⟨w, hw, hsame⟩
    obtain ⟨w', hw', hsame'⟩ := (settled_of_run hr).text hn.2 i
    obtain ⟨u, hu, hsame''⟩ := hsame.symm.types hw'
    refine ⟨u, ?_, hsame''.symm.trans hsame'⟩
    rw [List.flatMap_append, List.flatMap_singleton, Tty.types_append, hw]
    exact hu

/-! ## The screen -/

/-- The screen is the selected terminal, unless that is the first or still to be drawn. -/
def UpToDate (s : System) : Prop :=
  ∀ i, s.ttys.activeTty = some i → (i : Nat) ≠ 0 → (s.ttys.ttyTable i).refresh = 0 →
    ∀ k : Fin vgaSize, ¬ InClock k → s.core.vga.buf k = Ttys.drawn (s.ttys.ttyTable i) k

/-- What does not draw leaves the screen up to date, if the selected terminal keeps its text
or is to be drawn. -/
theorem UpToDate.keep (h : s.UpToDate) (hv : t.core.vga = s.core.vga)
    (ht : ∀ i, t.ttys.activeTty = some i → (t.ttys.ttyTable i).refresh = 0 →
      s.ttys.activeTty = some i ∧ (s.ttys.ttyTable i).refresh = 0 ∧
        Tty.SameText (s.ttys.ttyTable i) (t.ttys.ttyTable i)) : t.UpToDate := by
  intro i hi h0 hflag k hk
  obtain ⟨hi', hflag', htext⟩ := ht i hi hflag
  rw [hv, htext.drawn]
  exact h i hi' h0 hflag' k hk

theorem UpToDate.congr (h : s.UpToDate) (ht : t.ttys = s.ttys) (hv : t.core.vga = s.core.vga) :
    t.UpToDate := by
  refine h.keep hv fun i hi hflag => ?_
  rw [ht] at hi hflag ⊢
  exact ⟨hi, hflag, .refl _⟩

/-- Keys and system calls draw nothing. -/
theorem TtysStep.upToDate (h : TtysStep s t c) (hs : s.ttys.Steady) (hc : c ≠ .tick)
    (hv : t.core.vga = s.core.vga) (hup : s.UpToDate) : t.UpToDate := by
  cases h with
  | refreshed even refresh | skipped odd same => exact absurd rfl hc
  | silent noEntry unselected same => exact hup.congr same hv
  | selected noEntry command select =>
    obtain ⟨j, ht⟩ := Ttys.ttySelect_ok select
    refine hup.keep hv fun i hi hflag => ?_
    rw [ht] at hi hflag
    cases hi
    have hset : ((s.ttys.setTty j { s.ttys.ttyTable j with refresh := 1 }).ttyTable j).refresh = 1 := by
      rw [Ttys.setTty_self]
    exact absurd (hset.symm.trans hflag) (by decide)
  | entered entry unselected input =>
    refine hup.keep hv fun i hi hflag => ?_
    obtain ⟨htext, hsame, hactive⟩ := input_text hs input i
    exact ⟨hactive.symm.trans hi, hsame.symm.trans hflag, htext⟩
  | called transfers =>
    refine hup.keep hv fun i hi hflag => ?_
    obtain ⟨htext, hsame, hactive⟩ := transfers_text transfers i
    exact ⟨hactive.symm.trans hi, hsame.symm.trans hflag, htext⟩

/-- After a refresh the screen is the selected terminal, which has no output left. -/
theorem refresh_draws {u : Ttys} {vga : Vga} (hs : s.ttys.Steady) (hv : s.core.vga.scroll = 0)
    (h : s.ttys.ttyRefresh s.core.vga = .ok (u, vga)) (hup : s.UpToDate) (hi : u.activeTty = some i) :
    (u.ttyTable i).refresh = 0 ∧ ((i : Nat) ≠ 0 → ∀ k : Fin vgaSize, ¬ InClock k →
      vga.buf k = Ttys.drawn (u.ttyTable i) k) := by
  obtain ⟨j, hj⟩ := Option.ne_none_iff_exists'.mp hs.active
  have honly := Ttys.ttyRefresh_only hj h
  obtain rfl : i = j := Option.some.inj (hi.symm.trans (honly.activeTty.trans hj))
  obtain ⟨w, _, _, _, ⟨_, hu, hvga⟩ | ⟨hflag, rfl, hu, hvga⟩⟩ := Ttys.ttyRefresh_cases hs hj hv h
  · rw [hu, Ttys.setTty_self, hvga]
    exact ⟨rfl, fun _ _ _ => rfl⟩
  · rw [hu, hvga]
    exact ⟨hflag, fun h0 k hk => hup i hj h0 hflag k hk⟩

/-- A tick refreshes the screen, and then draws nothing but the clock over it. -/
theorem Settled.tick_upToDate (hs : Settled p s) {core : Core} (h : s.core.tick = .ok core)
    (hup : s.UpToDate) (ht : t.core = core) : t.UpToDate := by
  obtain ⟨vga, hrefresh, hdraws⟩ := hs.tick h
  have hsteady : core.kernel.ttys.Steady := by
    rcases hrefresh with ⟨_, hrefresh⟩ | ⟨_, hsame, _⟩
    · exact (hs.terminals.ttyRefresh hs.scroll hrefresh).1
    · exact hsame ▸ hs.terminals
  subst ht
  intro i hi h0 hflag k hk
  have hfront : t.core.kernel.ttys.ttyGetActive ≠ 0 := by
    rw [Ttys.ttyGetActive, hi]
    dsimp only
    rw [hsteady.id i]
    exact fun he => h0 (Int.ofNat_eq_zero.mp he)
  refine (hdraws.clock hfront k hk).trans ?_
  rcases hrefresh with ⟨_, hrefresh⟩ | ⟨_, hsame, rfl⟩
  · exact (refresh_draws hs.terminals hs.scroll hrefresh hup hi).2 h0 k hk
  · have hi' : s.ttys.activeTty = some i := hsame ▸ hi
    have hflag' : (s.ttys.ttyTable i).refresh = 0 := hsame ▸ hflag
    show s.core.vga.buf k = _
    rw [hup i hi' h0 hflag' k hk]
    exact congrArg (fun u : Ttys => Ttys.drawn (u.ttyTable i) k) hsame.symm

theorem Settled.upToDate (hs : Settled p s) (h : kernelContextEnter p a s = .ok (rc, s'))
    (hup : s.UpToDate) : s'.UpToDate := by
  obtain ⟨c, t, k, henters⟩ := hs.kernelContextEnter_ok h
  have harrive := hs.arrive a
  have hup' : (s.arrive a).UpToDate := hup.congr (arrive_ttys s a) rfl
  have hserved : t.UpToDate := by
    by_cases hc : c = .tick
    · subst hc
      have hserves := henters.serves
      obtain ⟨core, hcore, hserves⟩ := Loop.bind_eq_ok.mp hserves
      cases hserves
      exact harrive.tick_upToDate (orStop_eq_ok.mp hcore) hup' rfl
    · exact (serve_ttys harrive.tableOk henters.serves).upToDate harrive.terminals hc
        (serve_vga henters.serves hc) hup'
  refine hserved.congr henters.ttys ?_
  rw [henters.result]
  rfl

theorem upToDate_of_run {tr : List Step} (h : Runs p tr s) : s.UpToDate := by
  refine h.state_invariant (fun s hs i hi h0 => ?_) fun _ _ _ _ hr hn hup =>
    (settled_of_run hr).upToDate hn.2 hup
  rw [ttys, (Kernel.kernelInit_devices (begun_of_main hs).kernel).1] at hi
  cases hi
  exact absurd rfl h0

/-- After a tick that refreshes, nothing is left to be displayed or drawn. -/
theorem Settled.refreshed (hs : Settled p s) (h : kernelContextEnter p a s = .ok (rc, s'))
    (hirq : a.trapframe.interrupt = irqTimer) (heven : (s.arrive a).Refreshes) (hup : s.UpToDate)
    (hi : s'.ttys.activeTty = some i) :
    (s'.ttys.ttyTable i).refresh = 0 ∧ s'.bytes (.output i) = [] := by
  obtain ⟨c, t, k, henters⟩ := hs.kernelContextEnter_ok h
  obtain rfl : c = .tick := by
    have hcause := henters.cause.symm.trans hirq
    cases c with
    | tick => rfl
    | key | call => cases hcause
  have harrive := hs.arrive a
  rw [henters.ttys] at hi ⊢
  rw [henters.bytes]
  cases serve_ttys harrive.tableOk henters.serves with
  | skipped odd same => exact absurd heven odd
  | refreshed even refresh =>
    obtain ⟨j, hj⟩ := Option.ne_none_iff_exists'.mp harrive.terminals.active
    have hactive := (Ttys.ttyRefresh_only hj refresh).activeTty
    obtain rfl : i = j := Option.some.inj (hi.symm.trans (hactive.trans hj))
    refine ⟨(refresh_draws harrive.terminals harrive.scroll refresh
      (hup.congr (arrive_ttys s a) rfl) hi).1, ?_⟩
    rw [refresh_bytes harrive.terminals harrive.scroll hj refresh, if_pos rfl]

/-! ## What is typed and what is written -/

/-- All that has been typed at the terminal `i`. -/
def typed (i : Fin ttyMax) (tr : List Step) : List Byte := tr.flatMap (shown i)

/-- What comes out of an output ring is typed, or a process has taken it back. -/
theorem outOf_output (i : Fin ttyMax) {x : Step} (h : x.act.1.trapframe.interrupt ≠ irqSyscall) :
    outOf (.output i) x = shown i x := by
  rw [outOf, shown]
  cases hc : cause x.act.1.trapframe.interrupt with
  | none => rfl
  | some c =>
    cases c with
    | tick | key => rfl
    | call => exact absurd (cause_some hc) h

theorem shown_call (i : Fin ttyMax) {x : Step} (h : x.act.1.trapframe.interrupt = irqSyscall) :
    shown i x = [] := by
  rw [shown, h]
  rfl

/-- Only system calls put bytes into an output ring. -/
theorem into_output (i : Fin ttyMax) {x : Step} (h : x.act.1.trapframe.interrupt ≠ irqSyscall) :
    into (.output i) x = [] := by
  rw [into]
  cases hc : cause x.act.1.trapframe.interrupt with
  | none => rfl
  | some c =>
    cases c with
    | tick => rfl
    | key =>
      refine if_neg fun hkeyed => ?_
      obtain ⟨j, _, hj⟩ := Option.map_eq_some_iff.mp hkeyed.2.1
      cases hj
    | call => exact absurd (cause_some hc) h

/-- The screen shows the last lines of a text in light grey, the clock apart. -/
def ShowsText (s : System) (text : List Byte) : Prop :=
  ∀ {y x : Nat} (hy : y < vgaHeight) (hx : x < vgaWidth), ¬ InClock (Vga.cell hy hx) →
    ∃ char, Tty.Shows (Lines.row vgaHeight (text.splitOn Tty.newline) y)[x]? char ∧
      s.core.vga.buf (Vga.cell hy hx) = vgaChar vgaColorBlack vgaColorLightGrey char

theorem showsText_of_displays {w : Tty} {text : List Byte} (h : w.Displays text)
    (hs : w.Steady) (hdrawn : ∀ k : Fin vgaSize, ¬ InClock k → s.core.vga.buf k = Ttys.drawn w k) :
    s.ShowsText text := by
  intro y x hy hx hclock
  have hcell : (Vga.cell hy hx).cast Ttys.vgaSize_eq = Tty.cell hy hx := by
    refine Fin.ext ?_
    show x + y * vgaWidth = ttyWidth * y + x
    rw [Nat.mul_comm, Nat.add_comm]
    rfl
  refine ⟨_, h.cells hy hx, ?_⟩
  rw [hdrawn _ hclock, Ttys.drawn, hcell, hs.colorBg, hs.colorFg]
  rfl

/-- With nothing to display, a timer interrupt is served. -/
theorem Ready.idles (h : Ready p s) (hnil : ∀ i, s.bytes (.output i) = []) :
    ∃ rc s', kernelContextEnter p timerArrival s = .ok (rc, s') ∧ Ready p s' := by
  have horderly : (s.arrive timerArrival).Orderly .tick := by
    intro _ i _
    have hring := arrive_bytes s timerArrival (.output i)
    rw [hnil] at hring
    show Tty.LinesFit _ ((s.arrive timerArrival).bytes (.output i))
    rw [hring]
    trivial
  rcases h.enters (c := .tick) rfl horderly with hserved | ⟨_, hkey, _⟩
  · exact hserved
  · cases hkey

/-- The output rings stay empty as long as no process makes a system call. -/
theorem output_of_run {tr : List Step} (h : Runs p tr s)
    (hnone : ∀ x ∈ tr, x.act.1.trapframe.interrupt ≠ irqSyscall) (i : Fin ttyMax) :
    s.bytes (.output i) = [] := by
  have hstream := stream_of_run h (.output i)
  have hinto : tr.flatMap (into (.output i)) = [] :=
    List.flatMap_eq_nil_iff.mpr fun x hx => into_output i (hnone x hx)
  rw [hinto] at hstream
  exact (List.append_eq_nil_iff.mp hstream).2

/-- Timer interrupts alone are served for ever. -/
theorem Ready.idle {tr : List Step} (h : Ready p s) (hr : Runs p tr s)
    (hnone : ∀ x ∈ tr, x.act.1.trapframe.interrupt ≠ irqSyscall) : ∀ n, ∃ tr' s',
      Runs p (tr ++ tr') s' ∧ Ready p s' ∧ tr'.length = n ∧ ∀ x ∈ tr', x.act.1 = timerArrival
  | 0 => ⟨[], s, by rwa [List.append_nil], h, rfl, by simp⟩
  | n + 1 => by
    obtain ⟨tr', t, hrun, hready, hlen, htimer⟩ := Ready.idle h hr hnone n
    have hquiet : ∀ x ∈ tr ++ tr', x.act.1.trapframe.interrupt ≠ irqSyscall := by
      intro x hx
      rcases List.mem_append.mp hx with hx | hx
      · exact hnone x hx
      · rw [htimer x hx]
        decide
    obtain ⟨rc, t', henter, hready'⟩ := hready.idles (output_of_run hrun hquiet)
    refine ⟨tr' ++ [⟨t, (timerArrival, rc), t'⟩], t', ?_, hready', by simp [hlen], fun x hx => ?_⟩
    · rw [← List.append_assoc]
      exact .snoc hrun ⟨trivial, henter⟩
    · rcases List.mem_append.mp hx with hx | hx
      · exact htimer x hx
      · rw [List.mem_singleton.mp hx]

theorem tickCount_timers {tr : List Step} (h : ∀ x ∈ tr, x.act.1 = timerArrival) :
    tickCount tr = tr.length := by
  rw [tickCount, List.countP_eq_length]
  intro x hx
  rw [h x hx]
  rfl

/-- What a tick makes of the count is told from the ticks before it. -/
theorem ticks_arrive {tr : List Step} (h : Runs p tr s) (a : Arrival) :
    (s.arrive a).core.kernel.timerTicks = wrap32 (tickCount tr) := by
  rw [(s.arrive_sameFiles a).timerTicks]
  exact (sane_of_run h).ticks.trans (ticks_of_run h)

/-- The last of some timer interrupts, and how many there were before. -/
theorem Ready.idle_last {tr : List Step} (h : Ready p s) (hr : Runs p tr s)
    (hnone : ∀ x ∈ tr, x.act.1.trapframe.interrupt ≠ irqSyscall) (n : Nat) :
    ∃ tr' x s', Runs p (tr ++ tr' ++ [x]) s' ∧ (∀ y ∈ tr' ++ [x], y.act.1 = timerArrival) ∧
      tickCount (tr ++ tr') = tickCount tr + n := by
  obtain ⟨l, s', hrun, _, hlen, htimer⟩ := h.idle hr hnone (n + 1)
  obtain rfl | ⟨tr', x, rfl⟩ := List.eq_nil_or_concat' l
  · cases hlen
  rw [← List.append_assoc] at hrun
  refine ⟨tr', x, s', hrun, htimer, ?_⟩
  have hcount := tickCount_timers fun y hy => htimer y (List.mem_append_left [x] hy)
  rw [List.length_append, List.length_singleton, Nat.succ.injEq] at hlen
  rw [tickCount, List.countP_append, ← tickCount, ← tickCount, hcount, hlen]

end System
end UnivOS
