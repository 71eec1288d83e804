import UnivOS.System
import UnivOS.TimerTick
import UnivOS.Attached

/-! # What the tables lead to

After `main` neither the handlers nor the timers change any more. So an interrupt is one
of three things, told from its number: a tick, which runs the callbacks that are due in
the order of the timer table; a key; or a system call.
-/
namespace UnivOS
open Word

/-- The callbacks with their intervals, in the order `main` registers them in. -/
def callbacks : List (Callback × Int) :=
  [(.ttyRefresh, 2), (.schedulerTimer, 1), (.testSpinner, 10), (.testTimer, 25),
    (.testProcList, 10)]

/-- The timer table with these callbacks. -/
def timerTable (l : List (Callback × Int)) (i : Fin timersMax) : Timer Callback :=
  match l[(i : Nat)]? with
  | none => ⟨none, 0, 0⟩
  | some c => ⟨some c.1, c.2, -1⟩

/-- The callbacks that run at a tick. -/
def due (ticks : Int) : List Callback :=
  (callbacks.filter fun c => ticks.tmod c.2 = 0).map Prod.fst

/-- The callbacks of `test.h`. -/
def Callback.Draws : Callback → Prop
  | .ttyRefresh | .schedulerTimer => False
  | .testSpinner | .testTimer | .testProcList => True

/-- The handlers `main` registers. -/
def handlerOf (i : Fin irqMax) : Option Handler :=
  if (i : Nat) = 0x20 then some .timerIrqHandler
  else if (i : Nat) = 0x21 then some .keyboardIrqHandler
  else if (i : Nat) = 0x80 then some .ksyscallIrqHandler
  else none

/-- A tick without the timer table. -/
def Core.tick (c : Core) : Res Core :=
  let ticks := wrap32 (c.kernel.timerTicks + 1)
  (due ticks).foldlM Callback.run { c with kernel := { c.kernel with timerTicks := ticks } }

/-- What the interrupts of `main` are. -/
inductive Cause
  | tick
  | key
  | call
deriving DecidableEq, Repr

def Cause.irq : Cause → BitVec 32
  | .tick => irqTimer
  | .key => irqKeyboard
  | .call => irqSyscall

def Cause.handler : Cause → Handler
  | .tick => .timerIrqHandler
  | .key => .keyboardIrqHandler
  | .call => .ksyscallIrqHandler

def cause (irq : BitVec 32) : Option Cause :=
  if irq = irqTimer then some .tick
  else if irq = irqKeyboard then some .key
  else if irq = irqSyscall then some .call
  else none

/-- The message about any other interrupt. -/
def unexpected (irq : BitVec 32) : String :=
  match index irqMax irq.toInt with
  | none => "interrupts: Invalid IRQ " ++ irqText irq
  | some _ => "interrupts: No handler registered for IRQ " ++ irqText irq

namespace System

variable {p : Platform} {s t : System} {a : Arrival} {rc : Int} {irq : BitVec 32}

/-- What an interrupt does, without the tables. -/
def serve (p : Platform) (s : System) : Cause → Except Stop (Int × System)
  | .tick => do
    let core ← Res.orStop s.core.tick
    .ok (0, { s with core, timers := { s.timers with ticks := wrap32 (s.timers.ticks + 1) } })
  | .key => do
    let s ← s.keyboardIrqHandler p
    .ok (0, s)
  | .call => do
    let (rc, k) ← Res.orStop s.core.kernel.ksyscallIrqHandler
    .ok (rc, s.withKernel k)

/-- An interrupt, without the tables. -/
def dispatch (p : Platform) (s : System) (irq : BitVec 32) : Except Stop (Int × System) :=
  match cause irq with
  | none => .error (.halt (.panic (unexpected irq)))
  | some c => do
    let (rc, t) ← s.serve p c
    .ok (rc, { t with interrupts := t.interrupts.dismiss irq })

/-- The tables are as `main` leaves them, and both tick counts are the same. -/
structure Wired (p : Platform) (s : System) : Prop where
  timers : s.timers.table = timerTable callbacks
  ticks : s.core.kernel.timerTicks = s.timers.ticks
  handlers : s.interrupts.irqHandlers = handlerOf
  lines : ∀ irq, masked irq s.interrupts.ports =
    (masked irq p.ports && !decide (SameIrq irqTimer irq) && !decide (SameIrq irqKeyboard irq))

/-! ## The timer table -/

theorem flatMap_finRange_getElem? {α β : Type} (f : Option α → List β) (hf : f none = [])
    (l : List α) (n : Nat) : (List.finRange n).flatMap (fun i : Fin n => f l[(i : Nat)]?) =
      (l.take n).flatMap fun a => f (some a) := by
  have hrange : (List.finRange n).flatMap (fun i : Fin n => f l[(i : Nat)]?) =
      (List.range n).flatMap fun i => f l[i]? := by
    rw [← List.map_coe_finRange_eq_range, List.flatMap_map]
  rw [hrange]
  clear hrange
  induction n with
  | zero => rfl
  | succ n ih =>
    rw [List.range_succ, List.flatMap_append, ih, List.take_add_one, List.flatMap_append]
    cases hl : l[n]? with
    | none => simp [hl, hf]
    | some a => simp [hl]

theorem timerTable_due (i : Fin timersMax) (n : Int) :
    (timerTable callbacks i).due n =
      (match callbacks[(i : Nat)]? with
      | none => []
      | some c => if n.tmod c.2 = 0 then [c.1] else []) := by
  unfold timerTable Timer.due
  cases callbacks[(i : Nat)]? with
  | none => rfl
  | some c => rfl

/-- The callbacks of the table that are due. -/
theorem timerTable_flatMap (n : Int) :
    (List.finRange timersMax).flatMap (fun i => (timerTable callbacks i).due n) = due n := by
  simp only [timerTable_due]
  rw [flatMap_finRange_getElem? (fun o => match o with
    | none => []
    | some c => if n.tmod c.2 = 0 then [c.1] else []) rfl callbacks timersMax,
    show callbacks.take timersMax = callbacks from rfl, due]
  induction callbacks with
  | nil => rfl
  | cons c l ih =>
    rw [List.flatMap_cons, ih, List.filter_cons]
    by_cases hc : n.tmod c.2 = 0
    · simp [hc]
    · simp [hc]

theorem foldl_run (l : List Callback) (c : Res Core) :
    l.foldl (fun core f => core >>= fun c => f.run c) c = c >>= l.foldlM Callback.run := by
  induction l generalizing c with
  | nil => cases c <;> rfl
  | cons f l ih =>
    rw [List.foldl_cons, ih]
    cases c <;> rfl

/-- Timers that never end leave the table as it is. -/
theorem foldlM_timerServe {κ σ : Type} (run : κ → σ → σ) {ts : Timers κ}
    (hts : ∀ i f, (ts.table i).callback = some f →
      (ts.table i).interval ≠ 0 ∧ (ts.table i).repeats < 0) :
    ∀ (l : List (Fin timersMax)) (x : σ), l.foldlM (Timers.timerServe (Timers.apart run)) (ts, x) =
      .ok (ts, (l.flatMap fun i => (ts.table i).due ts.ticks).foldl (fun x f => run f x) x)
  | [], _ => rfl
  | i :: l, x => by
    have hone : Timers.timerServe (Timers.apart run) (ts, x) i =
        .ok (ts, ((ts.table i).due ts.ticks).foldl (fun x f => run f x) x) := by
      rw [Timers.timerServe_apart]
      unfold Timers.timerRepeat Timer.due
      dsimp only
      cases hc : (ts.table i).callback with
      | none => rfl
      | some f =>
        obtain ⟨hinterval, hrepeats⟩ := hts i f hc
        dsimp only
        rw [if_neg hinterval, if_neg (by omega), if_neg (by omega)]
        split <;> rfl
    rw [List.foldlM_cons, hone, Loop.ok_bind, foldlM_timerServe run hts l, List.flatMap_cons,
      List.foldl_append]

theorem timerTable_forever (i : Fin timersMax) (f : Callback)
    (h : (timerTable callbacks i).callback = some f) :
    (timerTable callbacks i).interval ≠ 0 ∧ (timerTable callbacks i).repeats < 0 := by
  unfold timerTable at h ⊢
  cases hc : callbacks[(i : Nat)]? with
  | none => simp [hc] at h
  | some c =>
    have hpos : ∀ c ∈ callbacks, c.2 ≠ 0 := by decide
    exact ⟨hpos c (List.mem_of_getElem? hc), show (-1 : Int) < 0 by decide⟩

/-- With the timers of `main` the handler runs the callbacks that are due. -/
theorem Wired.timerIrqHandler (hw : Wired p s) : s.timerIrqHandler =
    s.core.tick >>= fun core => .ok
      { s with core, timers := { s.timers with ticks := wrap32 (s.timers.ticks + 1) } } := by
  let ts : Timers Callback := { s.timers with ticks := wrap32 (s.timers.ticks + 1) }
  have htable : ts.table = timerTable callbacks := hw.timers
  have hforever : ∀ i f, (ts.table i).callback = some f →
      (ts.table i).interval ≠ 0 ∧ (ts.table i).repeats < 0 := by
    rw [htable]
    exact timerTable_forever
  have hdue := timerTable_flatMap ts.ticks
  rw [← htable] at hdue
  rw [System.timerIrqHandler, Timers.timerIrqHandler]
  rw [foldlM_timerServe _ hforever, hdue, Loop.ok_bind]
  dsimp only
  rw [foldl_run, Loop.ok_bind, Core.tick, hw.ticks]

/-! ## The handlers -/

theorem cause_some {c : Cause} (h : cause irq = some c) : irq = c.irq := by
  unfold cause at h
  split at h
  · cases h
    assumption
  · split at h
    · cases h
      assumption
    · split at h
      · cases h
        assumption
      · cases h

theorem cause_none (h : cause irq = none) :
    irq ≠ irqTimer ∧ irq ≠ irqKeyboard ∧ irq ≠ irqSyscall := by
  unfold cause at h
  split at h
  · cases h
  · split at h
    · cases h
    · split at h
      · cases h
      · exact ⟨by assumption, by assumption, by assumption⟩

theorem Wired.irqHandler_some (hw : Wired p s) (c : Cause) :
    s.interrupts.irqHandler c.irq = .ok c.handler := by
  unfold Interrupts.irqHandler
  rw [hw.handlers]
  cases c <;> rfl

theorem Wired.irqHandler_none (hw : Wired p s) (h : cause irq = none) :
    s.interrupts.irqHandler irq = .error (.panic (unexpected irq)) := by
  obtain ⟨htimer, hkeyboard, hsyscall⟩ := cause_none h
  unfold Interrupts.irqHandler unexpected
  cases hi : index irqMax irq.toInt with
  | none => rfl
  | some i =>
    have hval := index_eq_some.mp hi
    have hne : ∀ (other : BitVec 32) (n : Nat), other.toInt = n → irq ≠ other → (i : Nat) ≠ n :=
      fun other n hn hother he => hother (BitVec.eq_of_toInt_eq (by rw [hval, he, hn]))
    have hnone : s.interrupts.irqHandlers i = none := by
      rw [hw.handlers, handlerOf, if_neg (hne _ 0x20 rfl htimer),
        if_neg (hne _ 0x21 rfl hkeyboard), if_neg (hne _ 0x80 rfl hsyscall)]
    dsimp only
    rw [hnone]

theorem Wired.handle (hw : Wired p s) (c : Cause) : s.handle p c.handler = s.serve p c := by
  cases c with
  | tick =>
    unfold Cause.handler System.handle serve
    dsimp only
    rw [hw.timerIrqHandler]
    cases s.core.tick <;> rfl
  | key => rfl
  | call => rfl

theorem Wired.interruptsIrqHandler (hw : Wired p s) (irq : BitVec 32) :
    s.interruptsIrqHandler p irq = s.dispatch p irq := by
  unfold System.interruptsIrqHandler dispatch
  cases hc : cause irq with
  | none =>
    rw [hw.irqHandler_none hc]
    rfl
  | some c =>
    rw [cause_some hc, hw.irqHandler_some c]
    dsimp only [Res.orStop]
    rw [Loop.ok_bind, hw.handle]

/-! ## What an interrupt does to the kernel -/

theorem orStop_eq_ok {α : Type} {x : Res α} {b : α} : Res.orStop x = .ok b ↔ x = .ok b := by
  cases x <;> simp [Res.orStop]

/-- Terminals apart, an interrupt handles one event of the kernel, or none. -/
inductive Acts (k : Kernel) : Option Event → Kernel → Prop
  | nothing (ttys : Ttys) : Acts k none { k with ttys }
  | handled {ev : Event} {rc : Int} {k' : Kernel} (before after : Ttys)
      (handles : ({ k with ttys := before } : Kernel).handle ev = .ok (rc, k')) :
      Acts k (some ev) { k' with ttys := after }

/-- The event a key press is for the kernel. -/
def keyEvent (p : Platform) : Option KeyCommand → Option Event
  | some .kprocCreate => some (.create p.kprocTest (some (cstring "test")) .user)
  | some .kprocDestroy => some .destroy
  | _ => none

/-- What the decoder makes of the byte at the keyboard's port. -/
def decoded (s : System) : Option (Decoded × Keyboard) :=
  if inportb kbdPortStat s.interrupts.ports &&& 1 ≠ 0 then
    (keyboardDecode s.keyboardScan s.keyboard).toOption
  else none

def event (p : Platform) (s : System) : Cause → Option Event
  | .tick => some .tick
  | .key => keyEvent p (s.decoded.bind fun d => d.1.call)
  | .call => some .syscall

/-- Of the callbacks that run at a tick, those of `test.h`. -/
def drawing (n : Int) : List Callback :=
  (if n.tmod 10 = 0 then [.testSpinner] else []) ++ (if n.tmod 25 = 0 then [.testTimer] else []) ++
    if n.tmod 10 = 0 then [.testProcList] else []

theorem due_eq (n : Int) :
    due n = (if n.tmod 2 = 0 then [.ttyRefresh] else []) ++ .schedulerTimer :: drawing n := by
  have h1 : n.tmod 1 = 0 := Int.tmod_one n
  unfold due callbacks drawing
  simp only [List.filter_cons, List.filter_nil, h1, decide_true]
  by_cases h2 : n.tmod 2 = 0 <;> by_cases h10 : n.tmod 10 = 0 <;> by_cases h25 : n.tmod 25 = 0 <;>
    simp [h2, h10, h25]

theorem drawing_draws {n : Int} {f : Callback} (hf : f ∈ drawing n) : f.Draws := by
  simp only [drawing, List.mem_append, List.mem_ite_nil_right, List.mem_singleton] at hf
  rcases hf with (⟨_, rfl⟩ | ⟨_, rfl⟩) | ⟨_, rfl⟩ <;> trivial

/-- A tick refreshes the terminals, is one for the kernel, and then draws. -/
theorem tick_eq (c : Core) : c.tick =
    (if (wrap32 (c.kernel.timerTicks + 1)).tmod 2 = 0 then c.kernel.ttys.ttyRefresh c.vga
      else .ok (c.kernel.ttys, c.vga)) >>= fun r =>
    ({ c.kernel with ttys := r.1 } : Kernel).tick >>= fun kernel =>
    (drawing (wrap32 (c.kernel.timerTicks + 1))).foldlM Callback.run { c with kernel, vga := r.2 } := by
  have htimer : ∀ (ttys : Ttys) (vga : Vga) (l : List Callback),
      (Callback.schedulerTimer :: l).foldlM Callback.run { c with
        kernel := { c.kernel with timerTicks := wrap32 (c.kernel.timerTicks + 1), ttys }, vga } =
      ({ c.kernel with ttys } : Kernel).tick >>= fun kernel =>
        l.foldlM Callback.run { c with kernel, vga } := by
    intro ttys vga l
    rw [List.foldlM_cons, Callback.run, Kernel.tick]
    cases Kernel.schedulerTimer
      { c.kernel with timerTicks := wrap32 (c.kernel.timerTicks + 1), ttys } <;> rfl
  rw [Core.tick, due_eq, List.foldlM_append]
  split
  · rw [List.foldlM_cons, Callback.run]
    cases c.kernel.ttys.ttyRefresh c.vga with
    | error e => rfl
    | ok r => exact htimer r.1 r.2 _
  · exact htimer c.kernel.ttys c.vga _

theorem foldlM_draws {l : List Callback} (hl : ∀ f ∈ l, f.Draws) {c c' : Core}
    (h : l.foldlM Callback.run c = .ok c') : c'.kernel = c.kernel := by
  induction l generalizing c with
  | nil =>
    cases h
    rfl
  | cons f l ih =>
    rw [List.foldlM_cons] at h
    obtain ⟨c₁, h₁, h₂⟩ := Loop.bind_eq_ok.mp h
    have hf : c₁.kernel = c.kernel := by
      have hdraws := hl f List.mem_cons_self
      cases f with
      | ttyRefresh | schedulerTimer => exact hdraws.elim
      | testSpinner | testTimer | testProcList =>
        obtain ⟨_, _, h₁⟩ := Loop.bind_eq_ok.mp h₁
        cases h₁
        rfl
    exact (ih (fun g hg => hl g (List.mem_cons_of_mem f hg)) h₂).trans hf

/-- A tick taken apart. -/
theorem tick_ok {c c' : Core} (h : c.tick = .ok c') : ∃ ttys vga,
    ((wrap32 (c.kernel.timerTicks + 1)).tmod 2 = 0 ∧ c.kernel.ttys.ttyRefresh c.vga = .ok (ttys, vga) ∨
      (wrap32 (c.kernel.timerTicks + 1)).tmod 2 ≠ 0 ∧ ttys = c.kernel.ttys ∧ vga = c.vga) ∧
    ({ c.kernel with ttys } : Kernel).tick = .ok c'.kernel ∧
    (drawing (wrap32 (c.kernel.timerTicks + 1))).foldlM Callback.run
      { c with kernel := c'.kernel, vga } = .ok c' := by
  rw [tick_eq] at h
  obtain ⟨⟨ttys, vga⟩, hrefresh, h⟩ := Loop.bind_eq_ok.mp h
  obtain ⟨kernel, htick, h⟩ := Loop.bind_eq_ok.mp h
  have hkernel : c'.kernel = kernel := foldlM_draws (fun f hf => drawing_draws hf) h
  rw [hkernel]
  refine ⟨ttys, vga, ?_, htick, h⟩
  split at hrefresh
  · rename_i heven
    exact .inl ⟨heven, hrefresh⟩
  · rename_i hodd
    cases hrefresh
    exact .inr ⟨hodd, rfl, rfl⟩

/-- A command of the keyboard changes the kernel or the log level only. -/
theorem command_ok {call : KeyCommand} (h : s.command p call = .ok t) :
    t = { s.withKernel t.core.kernel with kernelLogLevel := t.kernelLogLevel } ∧
      Acts s.core.kernel (keyEvent p (some call)) t.core.kernel := by
  cases call with
  | ttySelect n =>
    obtain ⟨ttys, _, h⟩ := Loop.bind_eq_ok.mp h
    cases h
    exact ⟨rfl, .nothing ttys⟩
  | kernelExit =>
    obtain ⟨vga, _, h⟩ := Loop.bind_eq_ok.mp h
    cases h
  | setLogLevel change =>
    cases h
    exact ⟨rfl, .nothing s.core.kernel.ttys⟩
  | kprocCreate =>
    obtain ⟨⟨pid, k⟩, hk, h⟩ := Loop.bind_eq_ok.mp h
    cases h
    exact ⟨rfl, .handled s.core.kernel.ttys k.ttys (orStop_eq_ok.mp hk)⟩
  | kprocDestroy =>
    obtain ⟨⟨rc, k⟩, hk, h⟩ := Loop.bind_eq_ok.mp h
    cases h
    exact ⟨rfl, .handled s.core.kernel.ttys k.ttys (orStop_eq_ok.mp hk)⟩
  | breakpoint =>
    cases h
    exact ⟨rfl, .nothing s.core.kernel.ttys⟩

/-- What `keyboard_poll` does to the system: nothing, or it decodes a byte and obeys it. -/
theorem keyboardPoll_ok {char : BitVec 32} (h : s.keyboardPoll p = .ok (char, t)) :
    (s.decoded = none ∧ char = keyNull ∧ t = s) ∨
    ∃ d keyboard, s.decoded = some (d, keyboard) ∧ char = d.char ∧
      ((d.call = none ∧ t = { s with keyboard }) ∨
        ∃ call, d.call = some call ∧ ({ s with keyboard } : System).command p call = .ok t) := by
  unfold keyboardPoll at h
  unfold decoded
  split at h
  · rename_i hstat
    rw [if_pos hstat]
    obtain ⟨⟨d, keyboard⟩, hdecode, h⟩ := Loop.bind_eq_ok.mp h
    rw [orStop_eq_ok.mp hdecode]
    refine .inr ⟨d, keyboard, rfl, ?_⟩
    dsimp only at h
    split at h
    · rename_i hnone
      cases h
      exact ⟨rfl, .inl ⟨hnone, rfl⟩⟩
    · rename_i call hcall
      obtain ⟨u, hu, h⟩ := Loop.bind_eq_ok.mp h
      cases h
      exact ⟨rfl, .inr ⟨call, hcall, hu⟩⟩
  · rename_i hstat
    rw [if_neg hstat]
    cases h
    exact .inl ⟨rfl, rfl, rfl⟩

theorem Acts.withTtys {k k' : Kernel} {ev : Option Event} (h : Acts k ev k') (ttys : Ttys) :
    Acts k ev { k' with ttys } := by
  cases h with
  | nothing before => exact .nothing ttys
  | handled before after handles =>
    have hacts := Acts.handled before ttys handles
    exact hacts

theorem keyboardIrqHandler_ok (h : s.keyboardIrqHandler p = .ok t) :
    ∃ char u, s.keyboardPoll p = .ok (char, u) ∧
      t = if char ≠ 0 then u.withKernel
        { u.core.kernel with ttys := u.core.kernel.ttys.ttyInput (char.setWidth 8) } else u := by
  obtain ⟨⟨char, u⟩, hpoll, h⟩ := Loop.bind_eq_ok.mp h
  refine ⟨char, u, hpoll, ?_⟩
  dsimp only at h
  split at h
  · rename_i hchar
    cases h
    rw [if_pos hchar]
  · rename_i hchar
    cases h
    rw [if_neg hchar]

/-- An interrupt that has been served. -/
structure Served (p : Platform) (s : System) (c : Cause) (t : System) : Prop where
  acts : Acts s.core.kernel (s.event p c) t.core.kernel
  interrupts : t.interrupts = s.interrupts
  table : t.timers.table = s.timers.table
  ticks : t.timers.ticks = if c = .tick then wrap32 (s.timers.ticks + 1) else s.timers.ticks

theorem keyboardIrqHandler_served (h : s.keyboardIrqHandler p = .ok t) : Served p s .key t := by
  obtain ⟨char, u, hpoll, rfl⟩ := keyboardIrqHandler_ok h
  have hu : Served p s .key u := by
    rcases keyboardPoll_ok hpoll with ⟨hnone, _, rfl⟩ | ⟨d, keyboard, hsome, _, hcall⟩
    · refine ⟨?_, rfl, rfl, rfl⟩
      rw [event, hnone]
      exact .nothing u.core.kernel.ttys
    · rcases hcall with ⟨hcall, rfl⟩ | ⟨call, hcall, hcommand⟩
      · refine ⟨?_, rfl, rfl, rfl⟩
        rw [event, hsome, Option.bind_some, hcall]
        exact .nothing s.core.kernel.ttys
      · obtain ⟨hframe, hacts⟩ := command_ok hcommand
        rw [hframe]
        refine ⟨?_, rfl, rfl, rfl⟩
        rw [event, hsome, Option.bind_some, hcall]
        exact hacts
  split
  · exact ⟨hu.acts.withTtys _, hu.interrupts, hu.table, hu.ticks⟩
  · exact hu

theorem serve_served {c : Cause} (h : s.serve p c = .ok (rc, t)) : Served p s c t := by
  cases c with
  | tick =>
    obtain ⟨core, hcore, h⟩ := Loop.bind_eq_ok.mp h
    cases h
    obtain ⟨ttys, _, _, htick, _⟩ := tick_ok (orStop_eq_ok.mp hcore)
    have hhandle : ({ s.core.kernel with ttys } : Kernel).handle .tick = .ok (0, core.kernel) := by
      rw [Kernel.handle, htick]
      rfl
    exact ⟨.handled ttys core.kernel.ttys hhandle, rfl, rfl, rfl⟩
  | key =>
    obtain ⟨u, hu, h⟩ := Loop.bind_eq_ok.mp h
    cases h
    exact keyboardIrqHandler_served hu
  | call =>
    obtain ⟨⟨rc, k⟩, hk, h⟩ := Loop.bind_eq_ok.mp h
    cases h
    exact ⟨.handled s.core.kernel.ttys k.ttys (orStop_eq_ok.mp hk), rfl, rfl, rfl⟩

theorem tableOk_withTtys {k : Kernel} (h : Kernel.TableOk k) (ttys : Ttys) :
    Kernel.TableOk { k with ttys } := by
  have hkeeps : Kernel.Keeps k { k with ttys } := .of_table rfl rfl rfl fun _ => id
  exact hkeeps.tableOk h

theorem Acts.tableOk {k k' : Kernel} {ev : Option Event} (h : Acts k ev k')
    (ht : Kernel.TableOk k) : Kernel.TableOk k' := by
  cases h with
  | nothing ttys => exact tableOk_withTtys ht ttys
  | handled before after handles =>
    exact tableOk_withTtys (Kernel.handle_tableOk (tableOk_withTtys ht before) handles) after

theorem Acts.timerTicks {k k' : Kernel} {ev : Option Event} (h : Acts k ev k')
    (ht : Kernel.TableOk k) : k'.timerTicks =
      if ev = some .tick then wrap32 (k.timerTicks + 1) else k.timerTicks := by
  cases h with
  | nothing ttys => rw [if_neg (by simp)]
  | @handled ev rc k' before after handles =>
    by_cases htick : ev = .tick
    · subst htick
      obtain ⟨k₁, h₁, h₂⟩ := Loop.bind_eq_ok.mp handles
      cases h₂
      rw [if_pos rfl]
      exact (Kernel.tick_sameFiles h₁).timerTicks
    · rw [if_neg (by simpa using htick)]
      exact (Kernel.handle_files (tableOk_withTtys ht before) htick handles).timerTicks

/-! ## The tables stay -/

/-- The other ports have no part in the masks. -/
theorem masked_update {port : Int} (h1 : pic1Data ≠ port) (h2 : pic2Data ≠ port) (irq : BitVec 32)
    (ports : Ports) (b : Byte) : masked irq (Function.update ports port b) = masked irq ports := by
  unfold masked
  rw [picLine_port]
  split
  · rw [Function.update_of_ne h2]
  · rw [Function.update_of_ne h1]

theorem arrive_kernel (s : System) (a : Arrival) (ev : Event) :
    (s.arrive a).core.kernel = s.core.kernel.entered ⟨a.frame, a.mem, ev⟩ := rfl

theorem masked_arrive (s : System) (a : Arrival) (irq : BitVec 32) :
    masked irq (s.arrive a).interrupts.ports = masked irq s.interrupts.ports := by
  unfold System.arrive
  dsimp only
  rw [masked_update (by decide) (by decide), masked_update (by decide) (by decide)]

theorem masked_dismiss {ε η : Type} (s : Interrupts ε η) (irq line : BitVec 32) :
    masked line (s.dismiss irq).ports = masked line s.ports := by
  unfold Interrupts.dismiss Interrupts.picIrqDismiss outportb
  split
  · dsimp only
    rw [masked_update (by decide) (by decide)]
    split
    · rw [masked_update (by decide) (by decide)]
    · rfl
  · rfl

theorem Wired.arrive (hw : Wired p s) (a : Arrival) : Wired p (s.arrive a) where
  timers := hw.timers
  ticks := by
    rw [arrive_kernel s a .tick, (Kernel.entered_sameFiles _ _).timerTicks]
    exact hw.ticks
  handlers := hw.handlers
  lines irq := (masked_arrive s a irq).trans (hw.lines irq)

/-- An interrupt that gets to a process: its cause is served, and the scheduler runs. -/
structure Enters (p : Platform) (a : Arrival) (s : System) (c : Cause) (rc : Int) (t : System)
    (k : Kernel) (s' : System) : Prop where
  cause : a.trapframe.interrupt = c.irq
  serves : (s.arrive a).serve p c = .ok (rc, t)
  schedules : t.core.kernel.schedulerRun = .ok k
  active : k.activeProc ≠ none
  result : s' = { t.withKernel k with interrupts := t.interrupts.dismiss c.irq }

theorem Wired.kernelContextEnter_ok (hw : Wired p s) {s' : System}
    (h : kernelContextEnter p a s = .ok (rc, s')) : ∃ c t k, Enters p a s c rc t k s' := by
  obtain ⟨⟨rc₁, u⟩, hirq, h⟩ := Loop.bind_eq_ok.mp h
  rw [(hw.arrive a).interruptsIrqHandler, dispatch] at hirq
  cases hc : UnivOS.cause a.trapframe.interrupt with
  | none =>
    rw [hc] at hirq
    cases hirq
  | some c =>
    rw [hc] at hirq
    obtain ⟨⟨rc₂, t⟩, hserve, hirq⟩ := Loop.bind_eq_ok.mp hirq
    obtain ⟨k, hk, h⟩ := Loop.bind_eq_ok.mp h
    have hcause := cause_some hc
    cases hirq
    split at h
    · cases h
    · rename_i hactive
      cases h
      refine ⟨c, t, k, hcause, hserve, orStop_eq_ok.mp hk, hactive, ?_⟩
      rw [hcause]
      rfl

/-- The tables and the process table are in order. -/
structure Sane (p : Platform) (s : System) : Prop extends Wired p s where
  tableOk : Kernel.TableOk s.core.kernel

theorem event_tick {c : Cause} : s.event p c = some .tick ↔ c = .tick := by
  cases c with
  | tick => simp [event]
  | call => simp [event]
  | key =>
    simp only [event, reduceCtorEq, iff_false]
    unfold keyEvent
    split <;> simp

theorem Sane.arrive (hs : Sane p s) (a : Arrival) : Sane p (s.arrive a) :=
  ⟨hs.toWired.arrive a, (Kernel.entered_sameTable _ ⟨a.frame, a.mem, .tick⟩).tableOk hs.tableOk⟩

theorem Sane.step (hs : Sane p s) {s' : System} (h : kernelContextEnter p a s = .ok (rc, s')) :
    Sane p s' := by
  obtain ⟨c, t, k, henters⟩ := hs.kernelContextEnter_ok h
  have harrive := hs.arrive a
  have hserved := serve_served henters.serves
  have htable := hserved.acts.tableOk harrive.tableOk
  rw [henters.result]
  refine ⟨⟨hserved.table.trans hs.timers, ?_, ?_, fun irq => ?_⟩,
    (Kernel.schedulerRun_tableOk htable henters.schedules).1⟩
  · show k.timerTicks = t.timers.ticks
    rw [(Kernel.schedulerRun_sameFiles henters.schedules).timerTicks,
      hserved.acts.timerTicks harrive.tableOk, hserved.ticks, harrive.ticks]
    simp only [event_tick]
  · show (t.interrupts.dismiss c.irq).irqHandlers = handlerOf
    rw [hserved.interrupts]
    unfold Interrupts.dismiss
    split <;> exact hs.handlers
  · show masked irq (t.interrupts.dismiss c.irq).ports = _
    rw [masked_dismiss, hserved.interrupts]
    exact harrive.lines irq

/-! ## `main` -/

/-- The first `n` callbacks are registered. -/
structure Registered (n : Nat) (ts : Timers Callback) : Prop where
  ticks : ts.ticks = 0
  table : ts.table = timerTable (callbacks.take n)
  allocator : ts.allocator.toList = (List.range' n (timersMax - n)).map Int.ofNat

theorem registered_timerInit : Registered 0 Timers.timerInit := by
  refine ⟨rfl, rfl, ?_⟩
  rw [Timers.timerInit, Queue.fill_toList (by decide), List.range_eq_range', Nat.sub_zero]

theorem Registered.callback {n : Nat} {ts : Timers Callback} (h : Registered n ts) {f : Callback}
    {interval : Int} (hn : callbacks[n]? = some (f, interval)) :
    ∃ ts', Registered (n + 1) ts' ∧ ∀ s : System, s.timers = ts →
      s.callback f interval = .ok { s with timers := ts' } := by
  have hlen : n < callbacks.length := (List.getElem?_eq_some_iff.mp hn).1
  have hmax : n < timersMax := Nat.lt_of_lt_of_le hlen (by decide)
  have hcons : ts.allocator.toList =
      (n : Int) :: (List.range' (n + 1) (timersMax - (n + 1))).map Int.ofNat := by
    rw [h.allocator, show timersMax - n = timersMax - (n + 1) + 1 by omega, List.range'_succ]
    rfl
  obtain ⟨q, hq, hql⟩ := Queue.queueOut_cons hcons
  have hindex : index timersMax (n : Int) = some ⟨n, hmax⟩ := index_eq_some.mpr rfl
  refine ⟨{ ts with
    allocator := q, table := Function.update ts.table ⟨n, hmax⟩ ⟨some f, interval, -1⟩ },
    ⟨h.ticks, ?_, hql⟩, fun s hs => ?_⟩
  · funext i
    show Function.update ts.table _ _ i = _
    rw [h.table]
    by_cases hi : i = ⟨n, hmax⟩
    · rw [hi, Function.update_self, timerTable, List.take_add_one, hn]
      simp [Nat.min_eq_left (Nat.le_of_lt hlen)]
    · have hin : (i : Nat) ≠ n := fun he => hi (Fin.ext he)
      rw [Function.update_of_ne hi, timerTable, timerTable, List.getElem?_take, List.getElem?_take]
      by_cases hlt : (i : Nat) < n
      · rw [if_pos hlt, if_pos (by omega)]
      · rw [if_neg hlt, if_neg (by omega)]
  · rw [System.callback, hs, Timers.timerCallbackRegister]
    dsimp only
    rw [hq]
    dsimp only
    rw [hindex]
    rfl

theorem register_ok (p : Platform) (isr : Isr) (handler : Handler) :
    ∃ e : Fin irqMax, (e : Nat) = isr.irq.toNat ∧ ∀ s : System,
      s.register p isr handler = .ok { s with interrupts :=
        { idt := Function.update s.interrupts.idt e (some ⟨isr, p.image.cpu.cs⟩)
          irqHandlers := Function.update s.interrupts.irqHandlers e (some handler)
          ports := if Interrupts.FromPic isr.irq then picIrqEnable isr.irq s.interrupts.ports
            else s.interrupts.ports } } := by
  have hindex : ∃ e : Fin irqMax, (e : Nat) = isr.irq.toNat ∧
      index irqMax isr.irq.toInt = some e := by
    cases isr with
    | timer => exact ⟨⟨0x20, by decide⟩, rfl, rfl⟩
    | keyboard => exact ⟨⟨0x21, by decide⟩, rfl, rfl⟩
    | syscall => exact ⟨⟨0x80, by decide⟩, rfl, rfl⟩
  obtain ⟨e, he, hindex⟩ := hindex
  refine ⟨e, he, fun s => ?_⟩
  rw [System.register, Interrupts.interruptsIrqRegister, hindex]
  rfl

/-- A cleared screen. -/
def cleared (v : Vga) : Vga :=
  { v with buf := fun _ => vgaChar v.colorBg v.colorFg 0, posX := 0, posY := 0 }

theorem vgaClear_ok (s : System) :
    s.vgaClear = .ok { s with core := { s.core with vga := cleared s.core.vga } } := by
  rw [System.vgaClear, Vga.vgaClear_ok]
  rfl

theorem vgaInit_ok (s : System) (h : s.core.vga.cursor = 0) :
    s.vgaInit = .ok { s with
      core := { s.core with vga := cleared { s.core.vga with cursor := 0 } }
      interrupts := s.vgaCursorDisable.interrupts } := by
  rw [System.vgaInit, if_neg (not_not.mpr h), vgaClear_ok]
  rfl

/-- The system when `main` waits for the first interrupt. -/
structure Begun (p : Platform) (s : System) : Prop extends Wired p s where
  kernel : Kernel.kernelInit p.image = .ok s.core.kernel
  keyboard : s.keyboard = ⟨0, 0⟩
  kernelLogLevel : s.kernelLogLevel = kernelLogLevelDebug
  vga : s.core.vga = { buf := fun _ => vgaChar vgaColorBlack vgaColorLightGrey 0
                       posX := 0, posY := 0, colorBg := vgaColorBlack
                       colorFg := vgaColorLightGrey, cursor := 0, scroll := 0 }

theorem main_begun (p : Platform) : ∃ s, main p = .ok s ∧ Begun p s := by
  obtain ⟨k, hk, _⟩ := Kernel.kprocInit_ok p.image Ttys.ttyInitial
  have hkproc : ∀ s : System, s.core.kernel = { Kernel.zero p.image with
      ttys := Ttys.ttyInitial } → s.kprocInit p = .ok (s.withKernel k) := by
    intro s hs
    rw [System.kprocInit, hs, hk]
    rfl
  obtain ⟨e₁, he₁, handler₁⟩ := register_ok p .timer .timerIrqHandler
  obtain ⟨e₂, he₂, handler₂⟩ := register_ok p .keyboard .keyboardIrqHandler
  obtain ⟨e₃, he₃, handler₃⟩ := register_ok p .syscall .ksyscallIrqHandler
  obtain ⟨ts₁, hreg₁, call₁⟩ := registered_timerInit.callback (f := .ttyRefresh) rfl
  obtain ⟨ts₂, hreg₂, call₂⟩ := hreg₁.callback (f := .schedulerTimer) rfl
  obtain ⟨ts₃, hreg₃, call₃⟩ := hreg₂.callback (f := .testSpinner) rfl
  obtain ⟨ts₄, hreg₄, call₄⟩ := hreg₃.callback (f := .testTimer) rfl
  obtain ⟨ts₅, hreg₅, call₅⟩ := hreg₄.callback (f := .testProcList) rfl
  unfold main
  dsimp only
  rw [System.timerInit, handler₁, Loop.ok_bind, System.ttyInit, Ttys.ttyInit_eq, Loop.ok_bind,
    call₁, Loop.ok_bind, vgaInit_ok, Loop.ok_bind, System.keyboardInit, handler₂,
    Loop.ok_bind, System.schedulerInit, call₂, Loop.ok_bind, hkproc, Loop.ok_bind,
    System.ksyscallInit, handler₃, Loop.ok_bind, System.testInit, call₃, Loop.ok_bind,
    call₄, Loop.ok_bind, call₅, Loop.ok_bind, vgaClear_ok]
  · have hinit : Kernel.kernelInit p.image = .ok k.ksemaphoresInit.kmutexesInit := by
      rw [Kernel.kernelInit, Ttys.ttyInit_eq, Loop.ok_bind, hk]
      rfl
    refine ⟨_, rfl, ⟨hreg₅.table, ?_, ?_, fun irq => ?_⟩, hinit, rfl, rfl, rfl⟩
    · exact (Kernel.kernelInit_devices hinit).2.trans hreg₅.ticks.symm
    · funext i
      have hval : ∀ e : Fin irqMax, i = e ↔ (i : Nat) = e := fun e => Fin.ext_iff
      show Function.update (Function.update (Function.update (fun _ => none) e₁ _) e₂ _) e₃ _ i = _
      simp only [Function.update_apply, hval, he₁, he₂, he₃, handlerOf]
      rw [show Isr.timer.irq.toNat = 0x20 from rfl, show Isr.keyboard.irq.toNat = 0x21 from rfl,
        show Isr.syscall.irq.toNat = 0x80 from rfl]
      grind
    · show masked irq (picIrqEnable irqKeyboard (outportb vgaPortData _ (outportb vgaPortAddr _
        (picIrqEnable irqTimer p.ports)))) = _
      unfold outportb
      rw [masked_picIrqEnable, masked_update (by decide) (by decide),
        masked_update (by decide) (by decide), masked_picIrqEnable]
  all_goals rfl

/-! ## Every reachable state -/

abbrev Step := Trace.Step System (Arrival × Int)

/-- Runs of interrupts from the end of `main`. -/
abbrev Runs (p : Platform) : List Step → System → Prop :=
  Trace.Run (fun s => main p = .ok s) (Trace.Exec (kernelContextEnter p) fun _ _ _ => True)

theorem begun_of_main (h : main p = .ok s) : Begun p s := by
  obtain ⟨s', hs', hb⟩ := main_begun p
  rw [hs'] at h
  cases h
  exact hb

theorem Begun.sane (h : Begun p s) : Sane p s :=
  ⟨h.toWired, (Kernel.Initial.of_kernelInit h.kernel).tableOk (by decide)⟩

theorem sane_of_run {tr : List Step} (h : Runs p tr s) : Sane p s :=
  h.state_invariant (fun _ hs => (begun_of_main hs).sane) fun _ _ _ _ _ hn hs => hs.step hn.2

/-- The timer interrupts of a run. -/
def tickCount (tr : List Step) : Nat := tr.countP fun x => x.act.1.trapframe.interrupt = irqTimer

theorem tickCount_snoc (tr : List Step) (x : Step) : tickCount (tr ++ [x]) =
    if x.act.1.trapframe.interrupt = irqTimer then tickCount tr + 1 else tickCount tr := by
  rw [tickCount, List.countP_append, List.countP_singleton, ← tickCount]
  by_cases htick : x.act.1.trapframe.interrupt = irqTimer
  · rw [if_pos htick, if_pos (decide_eq_true htick)]
  · rw [if_neg htick, if_neg (by simpa using htick)]
    rfl

theorem Enters.ticks {c : Cause} {k : Kernel} {s' : System} (h : Enters p a s c rc t k s') : s'.timers.ticks =
      if a.trapframe.interrupt = irqTimer then wrap32 (s.timers.ticks + 1) else s.timers.ticks := by
  have hticks := (serve_served h.serves).ticks
  rw [h.result, h.cause]
  refine hticks.trans ?_
  cases c <;> rfl

theorem ticks_of_run {tr : List Step} (h : Runs p tr s) : s.timers.ticks = wrap32 (tickCount tr) := by
  refine h.invariant (P := fun tr s => s.timers.ticks = wrap32 (tickCount tr)) ?_ ?_
  · intro s hs
    have hb := begun_of_main hs
    rw [← hb.ticks, (Kernel.kernelInit_devices hb.kernel).2]
    rfl
  · rintro tr s ⟨a, rc⟩ s' hr hn ih
    have hsane := sane_of_run hr
    obtain ⟨c, t, k, henters⟩ := hsane.kernelContextEnter_ok hn.2
    rw [henters.ticks, ih, tickCount_snoc]
    split
    · exact Int.bmod_add_bmod
    · rfl

/-- A machine to run the model on, with all lines off. -/
def blank : Platform :=
  { image := Image.blank, kprocTest := 5, vgaBuf := fun _ => 0, idt := fun _ => none
    ports := fun _ => 0xff, test_ne := by decide }

end System
end UnivOS
