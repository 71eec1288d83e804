import UnivOS.Base
import UnivOS.Queue
import UnivOS.Lib.Word
import UnivOS.Lib.Trace
import UnivOS.Lib.IdPool
import Mathlib.Data.List.FinRange

/-! # The timer table

`timer.c`. A callback is an element of `κ` (a non-null function pointer). It acts on
the timers, which it may register and unregister, and on the rest of the system, `σ`.
-/
namespace UnivOS
open Word

def timersMax : Nat := 32

/-- `timer_t`; `repeats` is the field `repeat`. -/
structure Timer (κ : Type) where
  callback : Option κ
  interval : Int
  repeats : Int

/-- The globals of `timer.c`. -/
structure Timers (κ : Type) where
  ticks : Int
  table : Fin timersMax → Timer κ
  allocator : Queue

namespace Timers

variable {κ σ : Type}

def timerInit : Timers κ :=
  { ticks := 0, table := fun _ => ⟨none, 0, 0⟩, allocator := Queue.fill timersMax }

/-- Returns the timer id, or -1. -/
def timerCallbackRegister (ts : Timers κ) (func : Option κ) (interval repeats : Int) :
    Res (Int × Timers κ) :=
  match func with
  | none => .ok (-1, ts)
  | some f =>
    match ts.allocator.queueOut with
    | none => .ok (-1, ts)
    | some (id, q) =>
      match index timersMax id with
      | none => .error (.undefined "timers[timer_id]")
      | some i => .ok (id, { ts with
          allocator := q, table := Function.update ts.table i ⟨some f, interval, repeats⟩ })

def timerCallbackUnregister (ts : Timers κ) (id : Int) : Int × Timers κ :=
  match index timersMax id with
  | none => (-1, ts)
  | some i =>
    let ts := { ts with table := Function.update ts.table i ⟨none, 0, 0⟩ }
    match ts.allocator.queueIn id with
    | none => (-1, ts)
    | some q => (0, { ts with allocator := q })

/-- The repeats of entry `i` after its callback, which may have changed them. -/
def timerRepeat (ts : Timers κ) (i : Fin timersMax) : Timers κ :=
  let timer := ts.table i
  if timer.repeats > 0 then
    { ts with table := Function.update ts.table i { timer with repeats := timer.repeats - 1 } }
  else if timer.repeats = 0 then (ts.timerCallbackUnregister i).2
  else ts

/-- The loop body of `timer_irq_handler` for entry `i`. -/
def timerServe (run : κ → Timers κ × σ → Timers κ × σ) (p : Timers κ × σ) (i : Fin timersMax) :
    Res (Timers κ × σ) :=
  let timer := p.1.table i
  match timer.callback with
  | none => .ok p
  | some f =>
    if timer.interval = 0 then .error (.undefined "timer_ticks % 0")
    else
      let (ts, s) := if p.1.ticks.tmod timer.interval = 0 then run f p else p
      .ok (ts.timerRepeat i, s)

def timerIrqHandler (run : κ → Timers κ × σ → Timers κ × σ) (ts : Timers κ) (s : σ) :
    Res (Timers κ × σ) :=
  (List.finRange timersMax).foldlM (timerServe run) ({ ts with ticks := wrap32 (ts.ticks + 1) }, s)

/-- Callbacks that do not touch the timers. -/
def apart (run : κ → σ → σ) (f : κ) (p : Timers κ × σ) : Timers κ × σ := (p.1, run f p.2)

/-! ## The table and the allocator -/

/-- The allocator holds exactly the ids whose entry has no callback, once each. -/
def IdsExact (ts : Timers κ) : Prop :=
  IdPool.Exact ts.allocator.toList fun i => (ts.table i).callback = none

/-- No tick divides by zero. -/
def IntervalsPos (ts : Timers κ) : Prop :=
  ∀ i, (ts.table i).callback ≠ none → 1 ≤ (ts.table i).interval

/-- Every id in the allocator names an entry. -/
def IdsInRange (ts : Timers κ) : Prop :=
  ∀ id ∈ ts.allocator.toList, ∃ i, index timersMax id = some i

/-- The entries without a callback. -/
def freeCount (ts : Timers κ) : Nat :=
  (Finset.univ.filter fun i => (ts.table i).callback.isNone).card

variable {ts ts' : Timers κ} {id : Int}

theorem timerInit_idsExact : (timerInit : Timers κ).IdsExact := by
  unfold IdsExact timerInit
  rw [Queue.fill_toList (by decide)]
  exact (IdPool.exact_range timersMax).congr fun _ => by simp

theorem IdsExact.length_eq (h : ts.IdsExact) : ts.allocator.toList.length = ts.freeCount := by
  have he : IdPool.Exact ts.allocator.toList fun i => (ts.table i).callback.isNone = true :=
    IdPool.Exact.congr h fun i => by simp
  exact he.length_eq

theorem IdsExact.inRange (h : ts.IdsExact) : ts.IdsInRange := by
  intro id hid
  obtain ⟨i, rfl, _⟩ := (h.mem_iff id).mp hid
  exact ⟨i, index_val i⟩

/-- What `timer_callback_register` does with a callback. -/
theorem timerCallbackRegister_cases (hr : ts.IdsInRange) (f : κ) (iv rp : Int) :
    (ts.allocator.toList = [] ∧ ts.timerCallbackRegister (some f) iv rp = .ok (-1, ts)) ∨
    ∃ (i : Fin timersMax) (q : Queue), ts.allocator.toList = (i : Int) :: q.toList ∧
      ts.timerCallbackRegister (some f) iv rp = .ok (i, { ts with
        allocator := q, table := Function.update ts.table i ⟨some f, iv, rp⟩ }) := by
  unfold timerCallbackRegister
  cases hq : ts.allocator.queueOut with
  | none => exact .inl ⟨Queue.queueOut_none.mp hq, rfl⟩
  | some r =>
    obtain ⟨id, q⟩ := r
    have hl := Queue.queueOut_spec hq
    obtain ⟨i, hi⟩ := hr id (by simp [hl])
    obtain rfl := index_eq_some.mp hi
    exact .inr ⟨i, q, hl, by simp [hi]⟩

theorem IdsExact.register (h : ts.IdsExact) {i : Fin timersMax} {q : Queue} {t : Timer κ}
    (hq : ts.allocator.toList = (i : Int) :: q.toList) (ht : t.callback ≠ none) :
    (ts.table i).callback = none ∧
      IdsExact { ts with allocator := q, table := Function.update ts.table i t } := by
  unfold IdsExact at h
  rw [hq] at h
  obtain ⟨j, hj, hf, he⟩ := h.take
  obtain rfl := IdPool.val_inj.mp hj
  refine ⟨hf, he.congr fun k => ?_⟩
  by_cases hk : k = i
  · subst hk; simp [ht]
  · simp [hk]

/-- The unregistrations that keep the allocator exact: the id is out of range,
or its timer is registered, or no timer is (the full allocator then refuses). -/
def CanUnregister (ts : Timers κ) (id : Int) : Prop :=
  ∀ i, index timersMax id = some i →
    (ts.table i).callback ≠ none ∨ ∀ j, (ts.table j).callback = none

instance [DecidableEq κ] (ts : Timers κ) (id : Int) : Decidable (ts.CanUnregister id) :=
  inferInstanceAs (Decidable (∀ i : Fin timersMax, index timersMax id = some i →
    (ts.table i).callback ≠ none ∨ ∀ j, (ts.table j).callback = none))

theorem IdsExact.unregister (h : ts.IdsExact) (hc : ts.CanUnregister id) :
    (ts.timerCallbackUnregister id).2.IdsExact := by
  unfold timerCallbackUnregister
  cases hi : index timersMax id with
  | none => exact h
  | some i =>
    obtain rfl := index_eq_some.mp hi
    rcases hc i hi with hreg | hnone
    · have hlt : ts.allocator.toList.length < queueSize := IdPool.Exact.length_lt h hreg
      obtain ⟨q, hq, hl⟩ := ts.allocator.queueIn_ok i hlt
      simp only [hq]
      unfold IdsExact
      rw [hl]
      refine (IdPool.Exact.give h hreg).congr fun k => ?_
      by_cases hk : k = i
      · subst hk; simp
      · simp [hk]
    · have hfull : ts.allocator.toList.length = queueSize := by
        rw [IdsExact.length_eq h]; simp [freeCount, hnone]; rfl
      simp only [Queue.queueIn_none.mpr hfull]
      refine IdPool.Exact.congr h fun k => ?_
      by_cases hk : k = i
      · subst hk; simp [hnone]
      · simp [hk]

/-- Any other unregistration queues an id that is already in the allocator. -/
theorem IdsExact.unregister_breaks (h : ts.IdsExact) (hc : ¬ ts.CanUnregister id) :
    ¬ (ts.timerCallbackUnregister id).2.IdsExact := by
  unfold CanUnregister at hc
  push Not at hc
  obtain ⟨i, hi, hfree, j, hj⟩ := hc
  obtain rfl := index_eq_some.mp hi
  have hlt : ts.allocator.toList.length < queueSize := IdPool.Exact.length_lt h hj
  obtain ⟨q, hq, hl⟩ := ts.allocator.queueIn_ok i hlt
  intro hb
  apply IdPool.Exact.not_nodup_give h hfree
  rw [← hl]
  simpa [timerCallbackUnregister, hi, hq] using hb.nodup

theorem unregister_intervalsPos (h : ts.IntervalsPos) (id : Int) :
    (ts.timerCallbackUnregister id).2.IntervalsPos := by
  have key : ∀ i, IntervalsPos { ts with table := Function.update ts.table i ⟨none, 0, 0⟩ } := by
    intro i k
    by_cases hk : k = i
    · subst hk; simp
    · simpa [hk] using h k
  unfold timerCallbackUnregister
  cases index timersMax id with
  | none => exact h
  | some i => dsimp only; split <;> exact key i

theorem unregister_inRange (h : ts.IdsInRange) (id : Int) :
    (ts.timerCallbackUnregister id).2.IdsInRange := by
  unfold timerCallbackUnregister
  cases hi : index timersMax id with
  | none => exact h
  | some i =>
    dsimp only
    split
    · exact h
    · rename_i q hq
      intro x hx
      change x ∈ q.toList at hx
      rw [Queue.queueIn_spec hq, List.mem_append, List.mem_singleton] at hx
      rcases hx with hx | rfl
      · exact h x hx
      · exact ⟨i, hi⟩

/-! ## A tick -/

/-- What happens to the repeats of an entry: nothing, a countdown, or the entry's own
unregistration. -/
theorem timerRepeat_cases (ts : Timers κ) (i : Fin timersMax) :
    ts.timerRepeat i = ts ∨
      (∃ n, ts.timerRepeat i =
        { ts with table := Function.update ts.table i { ts.table i with repeats := n } }) ∨
      (ts.table i).repeats = 0 ∧ ts.timerRepeat i = (ts.timerCallbackUnregister i).2 := by
  unfold timerRepeat
  dsimp only
  split
  · exact .inr (.inl ⟨(ts.table i).repeats - 1, rfl⟩)
  · split
    · rename_i hzero
      exact .inr (.inr ⟨hzero, rfl⟩)
    · exact .inl rfl

/-- A turn of which the callback leaves the timers alone. -/
theorem timerServe_apart (run : κ → σ → σ) (ts : Timers κ) (s : σ) (i : Fin timersMax) :
    timerServe (apart run) (ts, s) i =
      match (ts.table i).callback with
      | none => .ok (ts, s)
      | some f =>
        if (ts.table i).interval = 0 then .error (.undefined "timer_ticks % 0")
        else .ok (ts.timerRepeat i,
          if ts.ticks.tmod (ts.table i).interval = 0 then run f s else s) := by
  unfold timerServe apart
  dsimp only
  cases (ts.table i).callback with
  | none => rfl
  | some f =>
    dsimp only
    by_cases hdue : ts.ticks.tmod (ts.table i).interval = 0
    · simp only [hdue, if_true]
    · simp only [hdue, if_false]

/-- What serving an entry can do to the table: nothing, a countdown of an entry
that keeps its callback, or the entry's own unregistration. -/
theorem timerServe_cases (run : κ → σ → σ) (hiv : ts.IntervalsPos) (s : σ) (i : Fin timersMax) :
    ∃ ts' s', timerServe (apart run) (ts, s) i = .ok (ts', s') ∧
      (ts' = ts ∨
        ((ts.table i).callback ≠ none ∧ ∃ n, ts' = { ts with
          table := Function.update ts.table i { ts.table i with repeats := n } }) ∨
        ((ts.table i).callback ≠ none ∧ ts' = (ts.timerCallbackUnregister i).2)) := by
  rw [timerServe_apart]
  cases hc : (ts.table i).callback with
  | none => exact ⟨ts, s, rfl, .inl rfl⟩
  | some f =>
    have hpos := hiv i (by rw [hc]; exact nofun)
    dsimp only
    rw [if_neg (by omega)]
    refine ⟨_, _, rfl, ?_⟩
    rw [← hc]
    have hreg : (ts.table i).callback ≠ none := by rw [hc]; exact nofun
    rcases timerRepeat_cases ts i with he | he | ⟨_, he⟩
    · exact .inl he
    · exact .inr (.inl ⟨hreg, he⟩)
    · exact .inr (.inr ⟨hreg, he⟩)

theorem countdown_idsExact (h : ts.IdsExact) (i : Fin timersMax) (n : Int) :
    IdsExact { ts with table := Function.update ts.table i { ts.table i with repeats := n } } := by
  refine IdPool.Exact.congr h fun k => ?_
  by_cases hk : k = i
  · subst hk; simp
  · simp [hk]

theorem countdown_intervalsPos (h : ts.IntervalsPos) (i : Fin timersMax) (n : Int) :
    IntervalsPos
      { ts with table := Function.update ts.table i { ts.table i with repeats := n } } := by
  intro k
  by_cases hk : k = i
  · subst hk; simpa using h k
  · simpa [hk] using h k

/-- Serving entries never halts and keeps what every run keeps; it keeps the
allocator exact, since an entry expires only while it is registered. -/
theorem timerServe_foldlM (run : κ → σ → σ) : ∀ (l : List (Fin timersMax)) (ts : Timers κ) (s : σ),
    ts.IntervalsPos → ts.IdsInRange →
    ∃ ts' s', l.foldlM (timerServe (apart run)) (ts, s) = .ok (ts', s') ∧
      ts'.IntervalsPos ∧ ts'.IdsInRange ∧ (ts.IdsExact → ts'.IdsExact)
  | [], ts, s, hiv, hr => ⟨ts, s, rfl, hiv, hr, id⟩
  | i :: l, ts, s, hiv, hr => by
    obtain ⟨ts₁, s₁, hs, hcase⟩ := timerServe_cases run hiv s i
    have hstep : ts₁.IntervalsPos ∧ ts₁.IdsInRange ∧ (ts.IdsExact → ts₁.IdsExact) := by
      rcases hcase with rfl | ⟨_, n, rfl⟩ | ⟨hne, rfl⟩
      · exact ⟨hiv, hr, id⟩
      · exact ⟨countdown_intervalsPos hiv i n, hr, fun h => countdown_idsExact h i n⟩
      · refine ⟨unregister_intervalsPos hiv _, unregister_inRange hr _, fun h => h.unregister ?_⟩
        intro k hk
        rw [index_val, Option.some.injEq] at hk
        exact .inl (hk ▸ hne)
    obtain ⟨ts₂, s₂, hl, hiv₂, hr₂, he₂⟩ := timerServe_foldlM run l ts₁ s₁ hstep.1 hstep.2.1
    refine ⟨ts₂, s₂, ?_, hiv₂, hr₂, fun h => he₂ (hstep.2.2 h)⟩
    rw [List.foldlM_cons, hs]
    exact hl

/-! ## Runs -/

inductive TimerOp (κ : Type)
  | register (func : κ) (interval repeats : Int)
  | unregister (id : Int)
  | tick

/-- A call with the value it returns (0 for the handler, which returns none). -/
def TimerOp.exec (run : κ → Timers κ × σ → Timers κ × σ) :
    TimerOp κ → Timers κ × σ → Res (Int × Timers κ × σ)
  | .register f iv rp, (ts, s) =>
    (ts.timerCallbackRegister (some f) iv rp).map fun r => (r.1, r.2, s)
  | .unregister id, (ts, s) =>
    .ok ((ts.timerCallbackUnregister id).1, (ts.timerCallbackUnregister id).2, s)
  | .tick, (ts, s) => (timerIrqHandler run ts s).map fun r => (0, r)

/-- Timers are registered with an interval of at least one tick. -/
def TimerOp.IntervalPos : TimerOp κ → Prop
  | .register _ iv _ => 1 ≤ iv
  | _ => True

abbrev TimerStep (κ σ : Type) := Trace.Step (Timers κ × σ) (TimerOp κ × Int)

/-- A run of timer calls from `timer_init`, each recorded with its result; the
callbacks do not touch the timers. -/
abbrev TimerRun (run : κ → σ → σ) : List (TimerStep κ σ) → Timers κ × σ → Prop :=
  Trace.Run (fun p => p.1 = timerInit)
    (Trace.Exec (fun op p => op.exec (apart run) p) fun _ _ op => op.IntervalPos)

/-- The condition on a call, read in the state before it. -/
def TimerOp.CanRun : TimerOp κ → Timers κ → Prop
  | .unregister id, ts => ts.CanUnregister id
  | .register _ _ _, _ => True
  | .tick, _ => True

instance [DecidableEq κ] (op : TimerOp κ) (ts : Timers κ) : Decidable (op.CanRun ts) :=
  match op with
  | .unregister id => inferInstanceAs (Decidable (ts.CanUnregister id))
  | .register _ _ _ => .isTrue trivial
  | .tick => .isTrue trivial

/-- The condition on the calls of a run. -/
def UnregisterOk (x : TimerStep κ σ) : Prop := x.act.1.CanRun x.pre.1

instance [DecidableEq κ] (x : TimerStep κ σ) : Decidable (UnregisterOk x) :=
  inferInstanceAs (Decidable (x.act.1.CanRun x.pre.1))

theorem TimerOp.exec_spec (run : κ → σ → σ) (op : TimerOp κ) (p : Timers κ × σ)
    (hop : op.IntervalPos) (hiv : p.1.IntervalsPos) (hr : p.1.IdsInRange) :
    ∃ rc p', op.exec (apart run) p = .ok (rc, p') ∧ p'.1.IntervalsPos ∧ p'.1.IdsInRange ∧
      (p.1.IdsExact → op.CanRun p.1 → p'.1.IdsExact) := by
  obtain ⟨ts, s⟩ := p
  cases op with
  | register f iv rp =>
    rcases timerCallbackRegister_cases hr f iv rp with ⟨_, he⟩ | ⟨i, q, hq, he⟩
    · exact ⟨_, _, by rw [exec, he]; rfl, hiv, hr, fun h _ => h⟩
    · refine ⟨_, _, by rw [exec, he]; rfl, ?_, ?_,
        fun h _ => (h.register hq (t := ⟨some f, iv, rp⟩) (by simp)).2⟩
      · intro k
        by_cases hk : k = i
        · subst hk; simpa [TimerOp.IntervalPos] using hop
        · simpa [hk] using hiv k
      · intro x hx
        exact hr x (by rw [hq]; exact List.mem_cons_of_mem _ hx)
  | unregister id =>
    exact ⟨_, _, rfl, unregister_intervalsPos hiv id, unregister_inRange hr id,
      fun h hc => h.unregister hc⟩
  | tick =>
    obtain ⟨ts', s', he, hiv', hr', hx⟩ := timerServe_foldlM run (List.finRange timersMax)
      { ts with ticks := wrap32 (ts.ticks + 1) } s hiv hr
    exact ⟨0, (ts', s'), by rw [exec, timerIrqHandler, he]; rfl, hiv', hr', fun h _ => hx h⟩

/-- In every run, no tick divides by zero and every id in the allocator names an entry. -/
theorem TimerRun.sane {run : κ → σ → σ} {tr : List (TimerStep κ σ)} {p : Timers κ × σ}
    (h : TimerRun run tr p) : p.1.IntervalsPos ∧ p.1.IdsInRange := by
  refine Trace.Run.state_invariant (P := fun p => p.1.IntervalsPos ∧ p.1.IdsInRange) h ?_ ?_
  · intro p hp
    rw [hp]
    exact ⟨fun i hi => absurd rfl hi, timerInit_idsExact.inRange⟩
  · rintro tr p ⟨op, rc⟩ p' _ ⟨hop, he⟩ ⟨hiv, hr⟩
    obtain ⟨rc', q, he', hiv', hr', _⟩ := op.exec_spec run p hop hiv hr
    cases he.symm.trans he'
    exact ⟨hiv', hr'⟩

/-- No call of a run halts. -/
theorem TimerRun.exec_ok {run : κ → σ → σ} {tr : List (TimerStep κ σ)} {p : Timers κ × σ}
    (h : TimerRun run tr p) {op : TimerOp κ} (hop : op.IntervalPos) :
    ∃ rc p', op.exec (apart run) p = .ok (rc, p') := by
  obtain ⟨rc, p', he, _⟩ := op.exec_spec run p hop h.sane.1 h.sane.2
  exact ⟨rc, p', he⟩

/-! ## The life of a timer id -/

/-- Registrations one after the other, and the values they return. -/
def registerAll : Timers κ → List (κ × Int × Int) → Res (List Int × Timers κ)
  | ts, [] => .ok ([], ts)
  | ts, (f, iv, rp) :: rest => do
    let (rc, ts) ← ts.timerCallbackRegister (some f) iv rp
    let (rcs, ts) ← registerAll ts rest
    pure (rc :: rcs, ts)

/-- As many registrations succeed as there are entries without a callback. -/
theorem IdsExact.registerAll : ∀ (regs : List (κ × Int × Int)) {ts : Timers κ}, ts.IdsExact →
    ∃ rcs ts', ts.registerAll regs = .ok (rcs, ts') ∧
      rcs.countP (fun rc => 0 ≤ rc) = min regs.length ts.freeCount
  | [], ts, _ => ⟨[], ts, rfl, by simp⟩
  | (f, iv, rp) :: rest, ts, h => by
    have hlen := h.length_eq
    rcases timerCallbackRegister_cases h.inRange f iv rp with ⟨hnil, he⟩ | ⟨i, q, hq, he⟩
    · obtain ⟨rcs, ts', hr, hc⟩ := IdsExact.registerAll rest h
      rw [hnil, List.length_nil] at hlen
      refine ⟨-1 :: rcs, ts', by simp [Timers.registerAll, he, hr, bind, Except.bind, pure,
        Except.pure], ?_⟩
      rw [List.countP_cons, hc, ← hlen]
      simp
    · have h' := (h.register hq (t := ⟨some f, iv, rp⟩) (by simp)).2
      obtain ⟨rcs, ts', hr, hc⟩ := IdsExact.registerAll rest h'
      rw [hq, List.length_cons] at hlen
      refine ⟨i :: rcs, ts', by simp [Timers.registerAll, he, hr, bind, Except.bind, pure,
        Except.pure], ?_⟩
      rw [List.countP_cons, hc, ← h'.length_eq, ← hlen, List.length_cons]
      simp

/-- What the life of timer ids requires of one call and the state it leaves:
the allocator is exact, a registration takes an entry without a callback, and
later registrations find every such entry. -/
structure IdLife (x : TimerStep κ σ) : Prop where
  exact : x.post.1.IdsExact
  fresh : ∀ f iv rp, x.act.1 = .register f iv rp → 0 ≤ x.act.2 →
    ∃ i, index timersMax x.act.2 = some i ∧ (x.pre.1.table i).callback = none
  served : ∀ regs, ∃ rcs ts', x.post.1.registerAll regs = .ok (rcs, ts') ∧
    rcs.countP (fun rc => 0 ≤ rc) = min regs.length x.post.1.freeCount

theorem IdLife.of_exact {run : κ → Timers κ × σ → Timers κ × σ} {x : TimerStep κ σ} (hpre : x.pre.1.IdsExact)
    (hpost : x.post.1.IdsExact) (he : x.act.1.exec run x.pre = .ok (x.act.2, x.post)) :
    IdLife x := by
  refine ⟨hpost, ?_, fun regs => IdsExact.registerAll regs hpost⟩
  intro f iv rp hop hrc
  obtain ⟨⟨ts, s⟩, ⟨op, rc⟩, p'⟩ := x
  simp only at hop hrc hpre he ⊢
  subst hop
  rcases timerCallbackRegister_cases hpre.inRange f iv rp with ⟨_, hr⟩ | ⟨i, q, hq, hr⟩
  · rw [TimerOp.exec, hr] at he
    cases he
    omega
  · rw [TimerOp.exec, hr] at he
    cases he
    exact ⟨i, index_val i, (hpre.register hq (t := ⟨some f, iv, rp⟩) (by simp)).1⟩

/-- **Timer ids live correctly exactly in the runs that unregister no free id.** -/
theorem timer_ids_iff {run : κ → σ → σ} {tr : List (TimerStep κ σ)} {p : Timers κ × σ}
    (h : TimerRun run tr p) : (∀ x ∈ tr, IdLife x) ↔ ∀ x ∈ tr, UnregisterOk x := by
  have key : ((∀ x ∈ tr, IdLife x) → p.1.IdsExact ∧ ∀ x ∈ tr, UnregisterOk x) ∧
      ((∀ x ∈ tr, UnregisterOk x) → p.1.IdsExact ∧ ∀ x ∈ tr, IdLife x) := by
    refine h.invariant (P := fun tr p =>
      ((∀ x ∈ tr, IdLife x) → p.1.IdsExact ∧ ∀ x ∈ tr, UnregisterOk x) ∧
      ((∀ x ∈ tr, UnregisterOk x) → p.1.IdsExact ∧ ∀ x ∈ tr, IdLife x)) ?_ ?_
    · intro p hp
      rw [hp]
      exact ⟨fun _ => ⟨timerInit_idsExact, by simp⟩, fun _ => ⟨timerInit_idsExact, by simp⟩⟩
    · rintro tr p ⟨op, rc⟩ p' hrun ⟨hop, he⟩ ⟨ihl, ihu⟩
      obtain ⟨hiv, hr⟩ := TimerRun.sane hrun
      obtain ⟨rc', q, he', _, _, hx⟩ := op.exec_spec run p hop hiv hr
      cases he.symm.trans he'
      simp only [List.forall_mem_append, List.forall_mem_singleton]
      constructor
      · rintro ⟨htr, hlast⟩
        obtain ⟨hpre, htr'⟩ := ihl htr
        refine ⟨hlast.exact, htr', ?_⟩
        -- the first bad unregistration is the one that spoils an exact allocator
        cases op with
        | register f iv rp => trivial
        | tick => trivial
        | unregister id =>
          by_contra hc
          obtain ⟨ts, s⟩ := p
          cases he
          exact hpre.unregister_breaks hc hlast.exact
      · rintro ⟨htr, hlast⟩
        obtain ⟨hpre, htr'⟩ := ihu htr
        have hpost := hx hpre hlast
        exact ⟨hpost, htr', IdLife.of_exact hpre hpost he⟩
  exact ⟨fun hl => (key.1 hl).2, fun hu => (key.2 hu).2⟩

theorem TimerRun.of_replay {run : κ → σ → σ} {ops : List (TimerOp κ)} {s : σ}
    {tr : List (TimerStep κ σ)} {p : Timers κ × σ} (hops : ∀ op ∈ ops, op.IntervalPos)
    (h : Trace.replay (fun op p => op.exec (apart run) p) ops (timerInit, s) = .ok (tr, p)) :
    TimerRun run tr p :=
  Trace.Run.of_replay rfl h fun _ hx =>
    hops _ (Trace.replay_acts ops h ▸ List.mem_map_of_mem hx)

/-- Timer 0 registered and unregistered again. -/
theorem timer_ids_iff_registered : ∃ (tr : List (TimerStep Unit Unit)) (p : Timers Unit × Unit),
    tr.map (·.act.1) = [.register () 1 (-1), .unregister 0] ∧ tr.map (·.act.2) = [0, 0] ∧
      TimerRun (fun _ s => s) tr p ∧ ∀ x ∈ tr, IdLife x := by
  have htest : Trace.replayTest (fun op p => TimerOp.exec (apart fun _ s => s) op p)
      [.register () 1 (-1), .unregister 0] ((timerInit : Timers Unit), ())
      (fun tr _ => tr.map (·.act.2) = [0, 0] ∧ ∀ x ∈ tr, UnregisterOk x) = true := by
    decide +kernel
  obtain ⟨tr, p, h, ht⟩ := Trace.of_replayTest htest
  obtain ⟨hrc, hok⟩ := of_decide_eq_true ht
  have hrun := TimerRun.of_replay (by simp [TimerOp.IntervalPos]) h
  exact ⟨tr, p, Trace.replay_acts _ h, hrc, hrun, (timer_ids_iff hrun).mpr hok⟩

/-- Unregistering the free id 5 while timer 0 is registered queues 5 a second time. -/
theorem unregister_free_id : ∃ (tr : List (TimerStep Unit Unit)) (p : Timers Unit × Unit),
    tr.map (·.act.1) = [.register () 1 (-1), .unregister 5] ∧ tr.map (·.act.2) = [0, 0] ∧
      TimerRun (fun _ s => s) tr p ∧ p.1.allocator.toList.count 5 = 2 ∧
      ¬ ∀ x ∈ tr, IdLife x := by
  have htest : Trace.replayTest (fun op p => TimerOp.exec (apart fun _ s => s) op p)
      [.register () 1 (-1), .unregister 5] ((timerInit : Timers Unit), ())
      (fun tr p => tr.map (·.act.2) = [0, 0] ∧ p.1.allocator.toList.count 5 = 2 ∧
        ∃ x ∈ tr, ¬ x.post.1.allocator.toList.Nodup) = true := by
    decide +kernel
  obtain ⟨tr, p, h, ht⟩ := Trace.of_replayTest htest
  obtain ⟨hrc, hcount, x, hx, hdup⟩ := of_decide_eq_true ht
  refine ⟨tr, p, Trace.replay_acts _ h, hrc,
    TimerRun.of_replay (by simp [TimerOp.IntervalPos]) h, hcount, fun hlife => ?_⟩
  exact hdup (hlife x hx).exact.nodup

end Timers
end UnivOS
