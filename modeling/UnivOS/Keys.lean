import UnivOS.Progress
import UnivOS.Escapes

/-! # The keys of a run

What the key presses of a whole run lead to: the terminal that is selected, and the exit
of the kernel.
-/
namespace UnivOS
open Word

/-- The terminal that is selected after some presses. -/
def selected (l : List Press) : Nat :=
  l.foldl (fun n p => if p.Selects then (p.char - 0x30).toNat else n) 0

theorem selected_snoc (l : List Press) (p : Press) : selected (l ++ [p]) =
    if p.Selects then (p.char - 0x30).toNat else selected l := by
  rw [selected, List.foldl_append]
  rfl

namespace Keyboard

variable {k k' : Keyboard} {c char : BitVec 32} {d : Decoded} {n : Int}

theorem control_selects (k : Keyboard) (char : BitVec 32) (n : Int) :
    (k.control char).call ≠ some (.ttySelect n) := by
  unfold control
  repeat' split
  all_goals simp

/-- A digit with ALT selects its terminal, and nothing else selects one. -/
theorem enter_selects (k : Keyboard) (char : BitVec 32) (n : Int) :
    (k.enter char).1.call = some (.ttySelect n) ↔
      (⟨char, k.Status (.hold .alt)⟩ : Press).Selects ∧ n = (char - 0x30).toInt := by
  have hsel : (⟨char, k.Status (.hold .alt)⟩ : Press).Selects ↔
      k.Status (.hold .alt) ∧ 0x30 ≤ char ∧ char ≤ 0x39 := by simp [Press.Selects]
  rw [hsel]
  unfold enter
  split
  · rename_i hdigit
    rw [and_iff_right hdigit]
    exact ⟨fun h => by cases h; rfl, fun h => by rw [h]⟩
  · rename_i hdigit
    simp only [hdigit, false_and, iff_false]
    split
    · dsimp only
      split <;> simp
    · exact control_selects _ _ n

theorem decode_selects (h : keyboardDecode c k = .ok (d, k')) (n : Int) :
    d.call = some (.ttySelect n) ↔
      ∃ p, k.press c = some p ∧ p.Selects ∧ n = (p.char - 0x30).toInt := by
  cases hs : statusKey (c &&& ~~~0x80) with
  | some s =>
    obtain ⟨hcall, _⟩ := decode_some hs h
    simp [press_of_statusKey hs, hcall]
  | none =>
    obtain ⟨hp, rfl, rfl⟩ | ⟨hp, char, hm, he⟩ := decode_none hs h
    · simp [press, hp]
    · have hselects := k.enter_selects char n
      rw [← he] at hselects
      rw [hselects]
      obtain ⟨rfl, hpress⟩ | ⟨hnull, hpress⟩ := k.press_cases hp hm
      · rw [hpress]
        simp [Press.Selects, keyNull]
      · rw [hpress]
        simp

end Keyboard

namespace System

variable {p : Platform} {s t s' : System} {a : Arrival} {rc : Int} {c : Cause} {n : Int}

/-- The press at the keyboard's port. -/
def pressed (s : System) : Option Press :=
  if inportb kbdPortStat s.interrupts.ports &&& 1 ≠ 0 then s.keyboard.press s.keyboardScan
  else none

/-- The press of an interrupt. -/
def pressAt (s : System) (a : Arrival) : Option Press :=
  if a.trapframe.interrupt = irqKeyboard then (s.arrive a).pressed else none

/-- The presses of a run, oldest first. -/
def presses (tr : List Step) : List Press := tr.filterMap fun x => x.pre.pressAt x.act.1

theorem presses_snoc (tr : List Step) (x : Step) :
    presses (tr ++ [x]) = presses tr ++ (x.pre.pressAt x.act.1).toList := by
  rw [presses, List.filterMap_append, ← presses]
  cases hp : x.pre.pressAt x.act.1 <;> simp [hp]

/-- A byte at the port is decoded. -/
theorem decoded_eq (s : System) : (∃ d, s.decoded = some d ∧
      keyboardDecode s.keyboardScan s.keyboard = .ok d ∧
      s.pressed = s.keyboard.press s.keyboardScan) ∨
    s.decoded = none ∧ s.pressed = none := by
  unfold pressed
  cases hd : s.decoded with
  | none => exact .inr ⟨rfl, if_neg (decoded_none hd)⟩
  | some d =>
    obtain ⟨hstat, hdecode⟩ := decoded_some hd
    exact .inl ⟨d, rfl, hdecode, if_pos hstat⟩

/-- The keyboard after an interrupt. -/
theorem serve_keyboard (h : s.serve p c = .ok (rc, t)) : t.keyboard =
    if c = .key then (s.decoded.map Prod.snd).getD s.keyboard else s.keyboard := by
  cases c with
  | tick =>
    obtain ⟨core, _, h⟩ := Loop.bind_eq_ok.mp h
    cases h
    rfl
  | call =>
    obtain ⟨⟨rc, k⟩, _, h⟩ := Loop.bind_eq_ok.mp h
    cases h
    rfl
  | key =>
    obtain ⟨u, hu, h⟩ := Loop.bind_eq_ok.mp h
    cases h
    obtain ⟨char, u, hpoll, rfl⟩ := keyboardIrqHandler_ok hu
    have hpolled : u.keyboard = (s.decoded.map Prod.snd).getD s.keyboard := by
      rcases keyboardPoll_ok hpoll with ⟨hnone, _, rfl⟩ | ⟨d, k, hsome, _, ⟨_, rfl⟩ | ⟨call, _, hcall⟩⟩
      · rw [hnone]
        rfl
      · rw [hsome]
        rfl
      · rw [hsome, (command_ok hcall).1]
        rfl
    rw [if_pos rfl, ← hpolled]
    split <;> rfl

/-- A key that is served does not exit. -/
theorem serve_key_ne_exit (h : s.serve p .key = .ok (rc, t)) : s.keyCommand ≠ some .kernelExit := by
  intro hexit
  obtain ⟨u, hu, h⟩ := Loop.bind_eq_ok.mp h
  obtain ⟨char, u, hpoll, _⟩ := keyboardIrqHandler_ok hu
  rcases keyboardPoll_ok hpoll with ⟨hnone, _, _⟩ | ⟨d, k, hsome, _, ⟨hcall, _⟩ | ⟨call, hcall, hcommand⟩⟩
  · simp [keyCommand, hnone] at hexit
  · simp [keyCommand, hsome, hcall] at hexit
  · rw [keyCommand, hsome, Option.bind_some, hcall] at hexit
    cases hexit
    obtain ⟨v, _, hcommand⟩ := Loop.bind_eq_ok.mp hcommand
    cases hcommand

/-- What a key makes of the count of escapes, and when it calls `kernel_exit`. -/
theorem key_escapes (hn : s.keyboard.escStatus.toNat ≤ 2) :
    ((s.decoded.map Prod.snd).getD s.keyboard).escStatus.toNat =
        (s.pressed.map (Press.count s.keyboard.escStatus.toNat)).getD s.keyboard.escStatus.toNat ∧
      (s.keyCommand = some .kernelExit ↔
        (∃ pr, s.pressed = some pr ∧ pr.Escape) ∧ s.keyboard.escStatus.toNat = 2) := by
  rcases s.decoded_eq with ⟨⟨d, k⟩, hd, hdecode, hpress⟩ | ⟨hd, hpress⟩
  · rw [keyCommand, hd, hpress]
    exact Keyboard.decode_press hdecode hn
  · simp [keyCommand, hd, hpress]

/-- When a key selects a terminal. -/
theorem key_selects (s : System) (n : Int) : s.keyCommand = some (.ttySelect n) ↔
    ∃ pr, s.pressed = some pr ∧ pr.Selects ∧ n = (pr.char - 0x30).toInt := by
  rcases s.decoded_eq with ⟨⟨d, k⟩, hd, hdecode, hpress⟩ | ⟨hd, hpress⟩
  · rw [keyCommand, hd, hpress]
    exact Keyboard.decode_selects hdecode n
  · simp [keyCommand, hd, hpress]

/-- The selected terminal after an interrupt. -/
theorem TtysStep.active (h : TtysStep s t c) (hs : s.ttys.Steady) :
    (∃ i n, c = .key ∧ s.keyCommand = some (.ttySelect n) ∧ t.ttys.activeTty = some i ∧
      ((i : Nat) : Int) = n) ∨
    ((c = .key → ∀ n, s.keyCommand ≠ some (.ttySelect n)) ∧
      t.ttys.activeTty = s.ttys.activeTty) := by
  obtain ⟨i, hi⟩ := Option.ne_none_iff_exists'.mp hs.active
  cases h with
  | refreshed even refresh => exact .inr ⟨by simp, (Ttys.ttyRefresh_only hi refresh).activeTty⟩
  | skipped odd same => exact .inr ⟨by simp, by rw [same]⟩
  | @selected n noEntry command select =>
    unfold Ttys.ttySelect at select
    split at select
    · cases select
    · rename_i j hj
      refine .inl ⟨j, n, rfl, command, ?_, (index_eq_some.mp hj).symm⟩
      rw [← Except.ok.inj select]
  | silent noEntry unselected same => exact .inr ⟨fun _ => unselected, by rw [same]⟩
  | entered entry unselected input =>
    refine .inr ⟨fun _ => unselected, ?_⟩
    rw [input, Ttys.ttyInput, hi]
    dsimp only
    split <;> exact hi
  | called transfers =>
    refine .inr ⟨by simp, ?_⟩
    cases transfers with
    | nothing ttys _ _ => exact congrArg Ttys.activeTty ttys
    | moves q b _ ttys _ =>
      refine (congrArg Ttys.activeTty ttys).trans ?_
      cases q.ring <;> rfl

/-- What the presses of a run have led to. -/
structure Follows (tr : List Step) (s : System) : Prop where
  selected : ∃ i, s.ttys.activeTty = some i ∧ (i : Nat) = selected (presses tr)
  counted : s.keyboard.escStatus.toNat = escapes (others (presses tr))
  few : s.keyboard.escStatus.toNat ≤ 2

theorem Begun.follows (h : Begun p s) : Follows [] s := by
  refine ⟨⟨Ttys.firstTty, ?_, rfl⟩, by rw [h.keyboard]; rfl, by rw [h.keyboard]; decide⟩
  rw [ttys, (Kernel.kernelInit_devices h.kernel).1]
  rfl

theorem Enters.ttys {k : Kernel} (h : Enters p a s c rc t k s') : s'.ttys = t.ttys := by
  have hkernel : s'.core.kernel = k := by rw [h.result]; rfl
  show s'.core.kernel.ttys = t.core.kernel.ttys
  rw [hkernel, (Kernel.schedulerRun_sameFiles h.schedules).ttys]

theorem pressAt_irq (s : System) (h : a.trapframe.interrupt = c.irq) :
    s.pressAt a = if c = .key then (s.arrive a).pressed else none := by
  rw [pressAt, h]
  cases c <;> rfl

theorem Follows.key {k : Kernel} {tr : List Step} (h : Follows tr s) (hs : Settled p s)
    (henters : Enters p a s .key rc t k s') : Follows (tr ++ [⟨s, (a, rc), s'⟩]) s' := by
  have harrive := hs.arrive a
  obtain ⟨i, hi, hsel⟩ := h.selected
  have hactive := (serve_ttys harrive.tableOk henters.serves).active harrive.terminals
  have hselects := (s.arrive a).key_selects
  obtain ⟨hcount, hexit⟩ := (s.arrive a).key_escapes h.few
  have hstays := serve_key_ne_exit henters.serves
  have hkeyboard : s'.keyboard = t.keyboard := by rw [henters.result]; rfl
  have hserved := serve_keyboard henters.serves
  rw [if_pos rfl] at hserved
  rw [← hserved, ← hkeyboard] at hcount
  rw [ne_eq, hexit, not_and] at hstays
  have hpress : s.pressAt a = (s.arrive a).pressed := (pressAt_irq s henters.cause).trans (if_pos rfl)
  have hpresses : presses (tr ++ [⟨s, (a, rc), s'⟩]) = presses tr ++ (s.arrive a).pressed.toList := by
    rw [presses_snoc, hpress]
  have hsame : (s.arrive a).ttys.activeTty = some i := by
    rw [arrive_ttys, hi]
  have hn : (s.arrive a).keyboard.escStatus.toNat = escapes (others (presses tr)) := h.counted
  have hfew := h.few
  cases hp : (s.arrive a).pressed with
  | none =>
    rw [hp, Option.toList_none, List.append_nil] at hpresses
    rw [hp, Option.map_none, Option.getD_none] at hcount
    refine ⟨⟨i, ?_, by rw [hpresses]; exact hsel⟩, by rw [hpresses, hcount]; exact hn,
      by rw [hcount]; exact h.few⟩
    rcases hactive with ⟨_, n, _, hcommand, _⟩ | ⟨_, hkeep⟩
    · obtain ⟨pr, hpr, _⟩ := (hselects n).mp hcommand
      rw [hp] at hpr
      cases hpr
    · rw [henters.ttys, hkeep, hsame]
  | some pr =>
    rw [hp, Option.toList_some] at hpresses
    rw [hp, Option.map_some, Option.getD_some] at hcount
    refine ⟨?_, ?_, ?_⟩
    · rw [hpresses, selected_snoc, henters.ttys]
      rcases hactive with ⟨j, n, _, hcommand, hj, hjn⟩ | ⟨hnone, hkeep⟩
      · obtain ⟨pr', hpr', hdigit, rfl⟩ := (hselects n).mp hcommand
        cases hp.symm.trans hpr'
        refine ⟨j, hj, ?_⟩
        rw [if_pos hdigit]
        have hint := (Keyboard.digit_toInt hdigit.2).1
        omega
      · have hnot : ¬ pr.Selects := fun hdigit =>
          hnone rfl _ ((hselects _).mpr ⟨pr, hp, hdigit, rfl⟩)
        rw [if_neg hnot]
        exact ⟨i, hkeep.trans hsame, hsel⟩
    · rw [hpresses, escapes_others_snoc, hcount, hn]
    · rw [hcount]
      unfold Press.count
      split
      · exact hfew
      · split
        · rename_i hescape
          have hne := hstays ⟨pr, hp, hescape⟩
          have hle : (s.arrive a).keyboard.escStatus.toNat ≤ 2 := h.few
          omega
        · exact Nat.zero_le 2

theorem Follows.step {tr : List Step} (h : Follows tr s) (hs : Settled p s)
    (henter : kernelContextEnter p a s = .ok (rc, s')) : Follows (tr ++ [⟨s, (a, rc), s'⟩]) s' := by
  obtain ⟨c, t, k, henters⟩ := hs.kernelContextEnter_ok henter
  by_cases hkey : c = .key
  · subst hkey
    exact h.key hs henters
  · have harrive := hs.arrive a
    have hkeyboard : s'.keyboard = s.keyboard := by
      rw [henters.result]
      exact (serve_keyboard henters.serves).trans (if_neg hkey)
    have hpresses : presses (tr ++ [⟨s, (a, rc), s'⟩]) = presses tr := by
      rw [presses_snoc, pressAt_irq s henters.cause, if_neg hkey]
      exact List.append_nil _
    have hactive : s'.ttys.activeTty = s.ttys.activeTty := by
      rw [henters.ttys]
      rcases (serve_ttys harrive.tableOk henters.serves).active harrive.terminals with
        ⟨_, _, hc, _⟩ | ⟨_, hkeep⟩
      · exact absurd hc hkey
      · rw [hkeep, arrive_ttys]
    exact ⟨by rw [hactive, hpresses]; exact h.selected, by rw [hkeyboard, hpresses]; exact h.counted,
      by rw [hkeyboard]; exact h.few⟩

theorem follows_of_run {tr : List Step} (h : Runs p tr s) : Follows tr s :=
  h.invariant (P := Follows) (fun _ hs => (begun_of_main hs).follows)
    fun _ _ _ _ hr hn ih => ih.step (settled_of_run hr) hn.2

/-! ## The exit -/

theorem orStop_ne_exit {α : Type} (x : Res α) (v : Vga) : Res.orStop x ≠ .error (.exit v) := by
  cases x <;> simp [Res.orStop]

/-- Only the keyboard's call exits. -/
theorem serve_exit {v : Vga} (h : s.serve p c = .error (.exit v)) :
    c = .key ∧ s.keyCommand = some .kernelExit := by
  cases c with
  | tick =>
    rcases Loop.bind_eq_error.mp h with h | ⟨_, _, h⟩
    · exact absurd h (orStop_ne_exit _ v)
    · cases h
  | call =>
    rcases Loop.bind_eq_error.mp h with h | ⟨_, _, h⟩
    · exact absurd h (orStop_ne_exit _ v)
    · cases h
  | key =>
    refine ⟨rfl, ?_⟩
    have hpoll : s.keyboardPoll p = .error (.exit v) := by
      rcases Loop.bind_eq_error.mp h with h | ⟨_, _, h⟩
      · rcases Loop.bind_eq_error.mp h with h | ⟨_, _, h⟩
        · exact h
        · dsimp only at h
          split at h <;> cases h
      · cases h
    cases hd : s.decoded with
    | none =>
      rw [keyboardPoll_none hd] at hpoll
      cases hpoll
    | some r =>
      obtain ⟨d, keyboard⟩ := r
      rw [keyboardPoll_some hd] at hpoll
      rw [keyCommand, hd, Option.bind_some]
      cases hcall : d.call with
      | none =>
        rw [hcall] at hpoll
        cases hpoll
      | some call =>
        rw [hcall] at hpoll
        rcases Loop.bind_eq_error.mp hpoll with hcommand | ⟨_, _, h⟩
        · cases call with
          | kernelExit => rfl
          | setLogLevel | breakpoint => cases hcommand
          | ttySelect | kprocCreate | kprocDestroy =>
            rcases Loop.bind_eq_error.mp hcommand with h | ⟨_, _, h⟩
            · exact absurd h (orStop_ne_exit _ v)
            · cases h
        · cases h

theorem Settled.serve_exits (hs : Settled p s) (h : s.keyCommand = some .kernelExit) :
    ∃ v, s.serve p .key = .error (.exit v) := by
  obtain ⟨v, hv⟩ := Vga.kernelExit_returns hs.scroll
  refine ⟨v, ?_⟩
  cases hd : s.decoded with
  | none =>
    rw [keyCommand, hd] at h
    cases h
  | some r =>
    obtain ⟨d, keyboard⟩ := r
    rw [keyCommand, hd, Option.bind_some] at h
    have hcommand : ({ s with keyboard } : System).command p .kernelExit = .error (.exit v) := by
      rw [System.command, hv]
      rfl
    rw [serve, keyboardIrqHandler, keyboardPoll_some hd, h]
    dsimp only
    rw [hcommand]
    rfl

theorem Settled.exits_iff (hs : Settled p s) (a : Arrival) :
    (∃ v, kernelContextEnter p a s = .error (.exit v)) ↔
      a.trapframe.interrupt = irqKeyboard ∧ (s.arrive a).keyCommand = some .kernelExit := by
  have harrive := hs.arrive a
  rw [kernelContextEnter, harrive.interruptsIrqHandler, dispatch]
  constructor
  · rintro ⟨v, h⟩
    rcases Loop.bind_eq_error.mp h with h | ⟨⟨rc, t⟩, _, h⟩
    · split at h
      · cases h
      · rename_i c hc
        rcases Loop.bind_eq_error.mp h with h | ⟨_, _, h⟩
        · obtain ⟨rfl, hcommand⟩ := serve_exit h
          exact ⟨cause_some hc, hcommand⟩
        · cases h
    · rcases Loop.bind_eq_error.mp h with h | ⟨k, _, h⟩
      · exact absurd h (orStop_ne_exit _ v)
      · split at h <;> cases h
  · rintro ⟨hirq, hcommand⟩
    obtain ⟨v, hv⟩ := harrive.serve_exits hcommand
    refine ⟨v, ?_⟩
    rw [hirq, show cause irqKeyboard = some .key from rfl]
    dsimp only
    rw [hv]
    rfl

/-- An interrupt of the keyboard, with a byte to read. -/
def keyArrival (code : Byte) : Arrival := .of { Trapframe.zero with interrupt := irqKeyboard } 1 code

theorem keyArrival_irq (code : Byte) : (keyArrival code).trapframe.interrupt = irqKeyboard := by
  rw [keyArrival, Arrival.of_trapframe]

theorem keyArrival_ports (s : System) (code : Byte) :
    (s.arrive (keyArrival code)).interrupts.ports kbdPortStat = 1 ∧
      (s.arrive (keyArrival code)).interrupts.ports kbdPortData = code := by
  unfold System.arrive
  dsimp only
  rw [Function.update_of_ne (by decide), Function.update_self, Function.update_self]
  exact ⟨rfl, rfl⟩

theorem decoded_keyArrival (s : System) (code : Byte) :
    (s.arrive (keyArrival code)).decoded =
      (keyboardDecode (code.setWidth 32) s.keyboard).toOption := by
  obtain ⟨hstat, hdata⟩ := keyArrival_ports s code
  unfold decoded keyboardScan inportb
  rw [hstat, hdata, if_pos (by decide)]
  rfl

theorem pressAt_keyArrival (s : System) (code : Byte) :
    s.pressAt (keyArrival code) = s.keyboard.press (code.setWidth 32) := by
  obtain ⟨hstat, hdata⟩ := keyArrival_ports s code
  rw [pressAt, if_pos (keyArrival_irq code)]
  unfold pressed keyboardScan inportb
  rw [hstat, hdata, if_pos (by decide)]
  rfl

/-- A key that is no command to exit or to create a process is served. -/
theorem Ready.types (h : Ready p s) (code : Byte) {d : Decoded} {k : Keyboard}
    (hd : keyboardDecode (code.setWidth 32) s.keyboard = .ok (d, k))
    (hexit : d.call ≠ some .kernelExit) (hcreate : d.call ≠ some .kprocCreate) :
    ∃ rc s', kernelContextEnter p (keyArrival code) s = .ok (rc, s') ∧ Ready p s' ∧
      s'.keyboard = k := by
  have hdecoded : (s.arrive (keyArrival code)).decoded = some (d, k) := by
    rw [decoded_keyArrival, hd]
    rfl
  have hcommand : (s.arrive (keyArrival code)).keyCommand = d.call := by
    rw [keyCommand, hdecoded, Option.bind_some]
  have horderly : (s.arrive (keyArrival code)).Orderly .key :=
    fun hc => absurd (hcommand.symm.trans hc) hcreate
  rcases h.enters (c := .key) (keyArrival_irq code) horderly with
    ⟨rc, s', henter, hready⟩ | ⟨v, _, hc, _⟩
  · refine ⟨rc, s', henter, hready, ?_⟩
    obtain ⟨c, t, k', henters⟩ := h.kernelContextEnter_ok henter
    obtain rfl : c = .key := by
      have hirq := (keyArrival_irq code).symm.trans henters.cause
      cases c with
      | tick | call => cases hirq
      | key => rfl
    have hkeyboard := serve_keyboard henters.serves
    rw [if_pos rfl, hdecoded] at hkeyboard
    rw [henters.result]
    exact hkeyboard
  · exact absurd (hcommand.symm.trans hc) hexit

/-- ALT and the digit 1, from the start. -/
theorem alt_one_returns : ∃ tr s, Runs blank tr s ∧ Ready blank s ∧
    tr.map (fun x => x.act.1.kbdData) = [0x38, 0x02] ∧
    (∀ x ∈ tr, ∃ code, x.act.1 = keyArrival code) ∧ presses tr = [⟨0x31, true⟩] := by
  obtain ⟨s₀, h₀, hb⟩ := main_begun blank
  have hk₀ : s₀.keyboard = ⟨0, 0⟩ := hb.keyboard
  obtain ⟨rc₁, s₁, h₁, hr₁, hk₁⟩ := hb.ready.types 0x38 (d := ⟨keyNull, none⟩) (k := ⟨2, 0⟩)
    (by rw [hk₀]; rfl) (by simp) (by simp)
  obtain ⟨rc₂, s₂, h₂, hr₂, hk₂⟩ := hr₁.types 0x02 (d := ⟨keyNull, some (.ttySelect 1)⟩)
    (k := ⟨2, 0⟩) (by rw [hk₁]; rfl) (by simp) (by simp)
  have hrun : Runs blank ([] ++ [⟨s₀, (keyArrival 0x38, rc₁), s₁⟩] ++
      [⟨s₁, (keyArrival 0x02, rc₂), s₂⟩]) s₂ :=
    .snoc (.snoc (.nil h₀) ⟨trivial, h₁⟩) ⟨trivial, h₂⟩
  refine ⟨_, s₂, hrun, hr₂, rfl, fun x hx => ?_, ?_⟩
  · simp only [List.nil_append, List.cons_append, List.mem_cons, List.not_mem_nil, or_false] at hx
    rcases hx with rfl | rfl <;> exact ⟨_, rfl⟩
  · rw [presses_snoc, presses_snoc, pressAt_keyArrival, pressAt_keyArrival, hk₀, hk₁]
    decide

end System
end UnivOS
