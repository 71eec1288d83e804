import UnivOS.TimerTick
import Mathlib.Data.Int.ConditionallyCompleteOrder
import Mathlib.Data.Int.Interval
import Mathlib.Data.Int.SuccPred
import Mathlib.Algebra.Order.Interval.Finset.SuccPred

/-! # How often a timer is called

The calls of one timer over a run. A timer that repeats forever is called at every
tick count that is a multiple of its interval. The repeats of any other are counted
down by every tick, not by every call, so that it is removed by the tick after its
last repeat, however often it has been called.
-/
namespace UnivOS
namespace Timers
open Word

variable {κ σ : Type} {run : κ → Timers κ × σ → Timers κ × σ} {p p' : Timers κ × σ}
  {i : Fin timersMax} {f : κ} {k r t rc m : Int} {n : Nat} {u : Timer κ} {op : TimerOp κ}
  {tr mid : List (TimerStep κ σ)} {x y z : TimerStep κ σ}

/-! ## Counting multiples -/

/-- How many of the `n` tick counts after `t` are multiples of `k`. -/
def multiples (k t : Int) : Nat → Nat
  | 0 => 0
  | n + 1 => multiples k t n + if k ∣ wrap32 (t + n + 1) then 1 else 0

/-- The multiples, where the count does not overflow. -/
theorem multiples_eq_card (k : Int) (hl : -2 ^ 31 ≤ t) (hu : t + n ≤ 2 ^ 31 - 1) :
    multiples k t n = ((Finset.Ioc t (t + n)).filter (k ∣ ·)).card := by
  induction n with
  | zero => simp [multiples]
  | succ n ih =>
    rw [Nat.cast_succ, ← Int.add_assoc] at hu ⊢
    have hwrap : wrap32 (t + n + 1) = t + n + 1 := wrap32_of_inInt32 ⟨by omega, by omega⟩
    rw [multiples, ih (by omega), hwrap,
      ← Finset.insert_Ioc_right_eq_Ioc_add_one (show t ≤ t + n by omega), Finset.filter_insert]
    split
    · rw [Finset.card_insert_of_notMem]
      simp
    · rfl

/-- Two tick counts in a row are not both multiples, even where the count overflows. -/
theorem not_dvd_wrap32_succ (hk : 2 ≤ k) {a : Int} (h : k ∣ wrap32 a) : ¬ k ∣ wrap32 (a + 1) := by
  intro h'
  have hstep : wrap32 (a + 1) = wrap32 a + 1 ∨
      wrap32 a = 2 ^ 31 - 1 ∧ wrap32 (a + 1) = -2 ^ 31 := by
    unfold wrap32
    rw [Int.bmod_def, Int.bmod_def]
    omega
  have hone : k ∣ 1 := by
    rcases hstep with hs | ⟨hs, hs'⟩
    · rw [hs] at h'
      exact (Int.dvd_add_right h).mp h'
    · rw [hs] at h
      rw [hs'] at h'
      have hdiff := Int.dvd_add h h'
      exact Int.dvd_neg.mp hdiff
  have := Int.le_of_dvd (by decide) hone
  omega

theorem multiples_add_two_le (hk : 2 ≤ k) (t : Int) (n : Nat) :
    multiples k t (n + 2) ≤ multiples k t n + 1 := by
  rw [multiples, multiples]
  by_cases hfirst : k ∣ wrap32 (t + n + 1)
  · have hnext := not_dvd_wrap32_succ hk hfirst
    rw [Int.add_assoc t n 1, ← Nat.cast_succ] at hnext
    rw [if_pos hfirst, if_neg hnext]
  · rw [if_neg hfirst]
    split <;> omega

/-- At most every second tick count is a multiple. -/
theorem multiples_le (hk : 2 ≤ k) (t : Int) : ∀ n, multiples k t n ≤ (n + 1) / 2
  | 0 => Nat.zero_le _
  | 1 => by
    rw [multiples, multiples]
    split <;> omega
  | n + 2 => by
    have hrec := multiples_le hk t n
    have hstep := multiples_add_two_le hk t n
    omega

theorem multiples_one (t : Int) (n : Nat) : multiples 1 t n = n := by
  induction n with
  | zero => rfl
  | succ n ih => rw [multiples, ih, if_pos (Int.one_dvd _)]

/-- The timers that are called often enough: the interval is one tick, or one repeat
is asked for and one of the next two tick counts is a multiple of the interval, or two
are and the first and the third are. -/
def EnoughMultiples (k r t : Int) : Prop :=
  k = 1 ∨ r = 1 ∧ (k ∣ wrap32 (t + 1) ∨ k ∣ wrap32 (t + 2)) ∨
    r = 2 ∧ k ∣ wrap32 (t + 1) ∧ k ∣ wrap32 (t + 3)

instance (k r t : Int) : Decidable (EnoughMultiples k r t) :=
  inferInstanceAs (Decidable (_ ∨ _ ∧ _ ∨ _ ∧ _ ∧ _))

/-- Among one tick count more than repeats are asked for there are as many multiples
as repeats in these cases only. -/
theorem multiples_ge_iff (hk : 1 ≤ k) (hn : 1 ≤ n) (t : Int) :
    n ≤ multiples k t (n + 1) ↔ EnoughMultiples k n t := by
  unfold EnoughMultiples
  by_cases hone : k = 1
  · subst hone
    rw [multiples_one]
    exact iff_of_true (Nat.le_succ n) (.inl rfl)
  · have hk2 : 2 ≤ k := by omega
    have hle := multiples_le hk2 t (n + 1)
    match n, hn with
    | 1, _ =>
      simp only [multiples, hone, false_or, Nat.cast_one, true_and, Nat.zero_add]
      rw [show t + ((0 : Nat) : Int) + 1 = t + 1 by simp, show t + 1 + 1 = t + 2 by omega]
      split <;> split <;> simp_all
    | 2, _ =>
      have hnot := not_dvd_wrap32_succ hk2 (a := t + 1)
      have hnot' := not_dvd_wrap32_succ hk2 (a := t + 2)
      simp only [multiples, hone, false_or, Nat.zero_add]
      rw [show t + ((0 : Nat) : Int) + 1 = t + 1 by simp,
        show t + ((1 : Nat) : Int) + 1 = t + 2 by omega,
        show t + ((2 : Nat) : Int) + 1 = t + 3 by omega]
      rw [show t + 1 + 1 = t + 2 by omega] at hnot
      rw [show t + 2 + 1 = t + 3 by omega] at hnot'
      split <;> split <;> split <;> simp_all
    | n + 3, _ =>
      refine iff_of_false (by omega) ?_
      rintro (h | ⟨h, _⟩ | ⟨h, _⟩) <;> omega

/-! ## One call of the timer functions -/

/-- Runs in which only registered timers are unregistered, and callbacks do not touch
the timers. -/
abbrev TimerUse (run : κ → σ → σ) : List (TimerStep κ σ) → Timers κ × σ → Prop :=
  Trace.Run (fun p => p.1 = timerInit)
    (Trace.Exec (fun op p => op.exec (apart run) p) fun _ p op => op.CanRun p.1)

/-- The arguments of a registration are of type `int`. -/
def TimerOp.IntArgs : TimerOp κ → Prop
  | .register _ iv rp => InInt32 iv ∧ InInt32 rp
  | _ => True

instance : DecidablePred (TimerOp.IntArgs (κ := κ)) := fun op =>
  match op with
  | .register _ iv rp => inferInstanceAs (Decidable (InInt32 iv ∧ InInt32 rp))
  | .unregister _ => .isTrue trivial
  | .tick => .isTrue trivial

/-- Any sequence of calls: registrations of any timers, unregistrations of any ids. -/
abbrev TimerCallsRun (run : κ → Timers κ × σ → Timers κ × σ) :
    List (TimerStep κ σ) → Timers κ × σ → Prop :=
  Trace.Run (fun p => p.1 = timerInit)
    (Trace.Exec (fun op p => op.exec run p) fun _ _ op => op.IntArgs)

def TimerOp.isTick : TimerOp κ → Bool
  | .tick => true
  | _ => false

theorem TimerOp.eq_tick (h : op.isTick = true) : op = .tick := by
  cases op with
  | register => cases h
  | unregister => cases h
  | tick => rfl

theorem exec_tick (h : TimerOp.tick.exec run p = .ok (rc, p')) :
    timerIrqHandler run p.1 p.2 = .ok p' := by
  have h' : (timerIrqHandler run p.1 p.2).map (fun r => ((0 : Int), r)) = .ok (rc, p') := h
  cases hr : timerIrqHandler run p.1 p.2 with
  | error e => rw [hr] at h'; cases h'
  | ok q => rw [hr] at h'; cases h'; rfl

theorem exec_register {iv rp : Int} (h : (TimerOp.register f iv rp).exec run p = .ok (rc, p')) :
    p.1.timerCallbackRegister (some f) iv rp = .ok (rc, p'.1) := by
  have h' : (p.1.timerCallbackRegister (some f) iv rp).map (fun r => (r.1, r.2, p.2)) =
      .ok (rc, p') := h
  cases hr : p.1.timerCallbackRegister (some f) iv rp with
  | error e => rw [hr] at h'; cases h'
  | ok q => rw [hr] at h'; cases h'; rfl

/-- A call that is not a tick and does not unregister the timer leaves it in its entry. -/
theorem Held.exec (h : Held i u m p.1) (htick : op.isTick = false)
    (hkeep : op ≠ .unregister ((i : Nat) : Int)) (he : op.exec run p = .ok (rc, p')) :
    Held i u m p'.1 := by
  cases op with
  | register g iv rp => exact h.register (exec_register he)
  | unregister id =>
    cases he
    exact h.unregister fun hid => hkeep (by rw [hid])
  | tick => cases htick

/-- Only a tick changes the count, which stays an `int`. -/
theorem exec_ticks {P : TimerOp κ → Prop} (hrun : CallsOnly P run)
    (he : op.exec run p = .ok (rc, p')) :
    p'.1.ticks = if op.isTick then wrap32 (p.1.ticks + 1) else p.1.ticks := by
  cases op with
  | register g iv rp => exact register_ticks (exec_register he)
  | unregister id =>
    cases he
    exact unregister_ticks p.1 id
  | tick => exact timerIrqHandler_ticks hrun (exec_tick he)

theorem exec_inInt32 {P : TimerOp κ → Prop} (hrun : CallsOnly P run)
    (hint : InInt32 p.1.ticks) (he : op.exec run p = .ok (rc, p')) : InInt32 p'.1.ticks := by
  rw [exec_ticks hrun he]
  split
  · exact wrap32_inInt32 _
  · exact hint

theorem ticks_of_run {P : TimerOp κ → Prop} (hrun : CallsOnly P run)
    {allowed : List (TimerStep κ σ) → Timers κ × σ → TimerOp κ → Prop}
    (h : Trace.Run (fun p : Timers κ × σ => p.1 = timerInit)
      (Trace.Exec (fun op p => op.exec run p) allowed) tr p) : InInt32 p.1.ticks := by
  refine Trace.Run.state_invariant (P := fun p => InInt32 p.1.ticks) h ?_ ?_
  · intro p hp
    rw [hp]
    show InInt32 0
    decide
  · intro tr p a p' _ hn hp
    exact exec_inInt32 hrun hp hn.2

theorem TimerUse.exact {run : κ → σ → σ} (h : TimerUse run tr p) : p.1.IdsExact := by
  refine Trace.Run.state_invariant (P := fun p => p.1.IdsExact) h ?_ ?_
  · intro p hp
    rw [hp]
    exact timerInit_idsExact
  · intro tr p a p' _ hn hexact
    obtain ⟨op, rc⟩ := a
    have hcan : op.CanRun p.1 := hn.1
    have he : op.exec (apart run) p = .ok (rc, p') := hn.2
    cases op with
    | register g iv rp =>
      rcases register_ok (exec_register he) with ⟨_, h⟩ | ⟨j, q, rfl, hq, h⟩
      · rw [h]
        exact hexact
      · rw [h]
        exact (hexact.register hq (t := ⟨some g, iv, rp⟩) (by simp)).2
    | unregister id =>
      cases he
      exact hexact.unregister hcan
    | tick => exact (timerIrqHandler_effect (apart_leavesTimers run) (exec_tick he)).exact hexact

/-! ## One timer over a run -/

/-- The timer registered in entry `i` at the tick count `t`, after `n` more ticks. -/
structure Kept (i : Fin timersMax) (f : κ) (k r t : Int) (n : Nat) (p : Timers κ × σ) : Prop where
  held : Held i ⟨some f, k, if r < 0 then r else r - n⟩ (wrap32 (t + n)) p.1
  within : r < 0 ∨ n ≤ r

theorem wrap32_next (t : Int) (n : Nat) : wrap32 (wrap32 (t + n) + 1) = wrap32 (t + n + 1) :=
  Int.bmod_add_bmod

/-- The timer has repeats left, or repeats for ever. -/
theorem Kept.served (hmore : r < 0 ∨ n < r) :
    (if r < 0 then r else r - n) ≠ 0 ∧
      Timer.served (κ := κ) ⟨some f, k, if r < 0 then r else r - n⟩ =
        ⟨some f, k, if r < 0 then r else r - (n + 1 : Nat)⟩ := by
  unfold Timer.served
  dsimp only
  by_cases hneg : r < 0
  · have hpos : ¬ r > 0 := by omega
    have hzero : ¬ r = 0 := by omega
    simp only [hneg, hpos, hzero, if_true, if_false, ne_eq, not_false_eq_true, and_self]
  · have hpos : r - n > 0 := by omega
    have hzero : ¬ r - n = 0 := by omega
    simp only [hneg, hpos, hzero, if_true, if_false, ne_eq, not_false_eq_true, true_and,
      Nat.cast_succ, Int.sub_sub]

/-- What a tick does for the timer. -/
theorem Kept.turnOf (hrun : CallsOnly (· ≠ .unregister ((i : Nat) : Int)) run)
    (h : Kept i f k r t n p) (ht : timerIrqHandler run p.1 p.2 = .ok p') :
    TurnOf run i ⟨some f, k, if r < 0 then r else r - n⟩ (wrap32 (t + n)) p p' :=
  h.held.tick hrun nofun ht

theorem Kept.callsFor (hrun : CallsOnly (· ≠ .unregister ((i : Nat) : Int)) run)
    (h : Kept i f k r t n p) (ht : timerIrqHandler run p.1 p.2 = .ok p') :
    callsFor run i p = if k ∣ wrap32 (t + n + 1) then [f] else [] := by
  rw [(h.turnOf hrun ht).calls, wrap32_next, Timer.due]
  simp only [Int.dvd_iff_tmod_eq_zero]

/-- The tick that removes the timer is the one after its last repeat. -/
theorem Kept.removes (hrun : CallsOnly (· ≠ .unregister ((i : Nat) : Int)) run)
    (h : Kept i f k r t n p) (ht : timerIrqHandler run p.1 p.2 = .ok p') :
    removes run i p = true ↔ r = n := by
  rw [(h.turnOf hrun ht).removes]
  dsimp only
  have hwithin := h.within
  split <;> omega

theorem Kept.tick (hrun : CallsOnly (· ≠ .unregister ((i : Nat) : Int)) run)
    (h : Kept i f k r t n p) (hmore : r < 0 ∨ n < r)
    (ht : timerIrqHandler run p.1 p.2 = .ok p') : Kept i f k r t (n + 1) p' := by
  obtain ⟨hne, hserved⟩ := Kept.served (f := f) (k := k) hmore
  have hstays := (h.turnOf hrun ht).stays hne
  rw [hserved, wrap32_next, Int.add_assoc] at hstays
  exact ⟨hstays, by omega⟩

/-- A registration that returns an id, which is not in the allocator any more. -/
theorem Kept.register (hint : InInt32 p'.1.ticks) (hr : r < 0 ∨ 0 ≤ r)
    (hfree : ((i : Nat) : Int) ∉ p'.1.allocator.toList)
    (he : (TimerOp.register f k r).exec run p = .ok (((i : Nat) : Int), p')) :
    Kept i f k r p'.1.ticks 0 p' := by
  refine ⟨⟨?_, ?_, hfree⟩, hr⟩
  · rcases register_ok (exec_register he) with ⟨hid, _⟩ | ⟨j, q, hid, _, hp'⟩
    · omega
    · obtain rfl := IdPool.val_inj.mp hid
      rw [hp', Nat.cast_zero, Int.sub_zero, ite_self]
      exact Function.update_self ..
  · rw [Nat.cast_zero, Int.add_zero]
    exact (wrap32_of_inInt32 hint).symm

/-- How many ticks there are in a run. -/
def ticksIn (tr : List (TimerStep κ σ)) : Nat := tr.countP fun z => z.act.1.isTick

/-- The callbacks that are called for entry `i` in a run. -/
def calledFor (run : κ → Timers κ × σ → Timers κ × σ) (i : Fin timersMax)
    (tr : List (TimerStep κ σ)) : List κ :=
  tr.flatMap fun z => if z.act.1.isTick then callsFor run i z.pre else []

/-- Whether the call is a tick that removes the timer it finds in entry `i`. -/
def removedBy (run : κ → Timers κ × σ → Timers κ × σ) (i : Fin timersMax) (z : TimerStep κ σ) :
    Bool :=
  z.act.1.isTick && removes run i z.pre

theorem ticksIn_snoc (tr : List (TimerStep κ σ)) (z : TimerStep κ σ) :
    ticksIn (tr ++ [z]) = ticksIn tr + if z.act.1.isTick then 1 else 0 := by
  rw [ticksIn, List.countP_append, List.countP_singleton]
  rfl

theorem calledFor_snoc (run : κ → Timers κ × σ → Timers κ × σ) (i : Fin timersMax)
    (tr : List (TimerStep κ σ)) (z : TimerStep κ σ) : calledFor run i (tr ++ [z]) =
      calledFor run i tr ++ if z.act.1.isTick then callsFor run i z.pre else [] := by
  rw [calledFor, List.flatMap_append, List.flatMap_singleton]
  rfl

theorem replicate_multiples (f : κ) (k t : Int) (n : Nat) :
    List.replicate (multiples k t (n + 1)) f =
      List.replicate (multiples k t n) f ++ if k ∣ wrap32 (t + n + 1) then [f] else [] := by
  rw [multiples, ← List.replicate_append_replicate]
  split <;> rfl

/-- As long as a timer is registered, it is called at every multiple of its interval. -/
theorem kept_of_run {start : Timers κ × σ → Prop}
    {allowed : List (TimerStep κ σ) → Timers κ × σ → TimerOp κ → Prop}
    (h : Trace.Run start (Trace.Exec (fun op p => op.exec run p) allowed) (tr ++ x :: mid) p)
    (hrun : CallsOnly (· ≠ .unregister ((i : Nat) : Int)) run)
    (hreg : x.act = (.register f k r, ((i : Nat) : Int)))
    (hfree : ((i : Nat) : Int) ∉ x.post.1.allocator.toList) (hint : InInt32 x.post.1.ticks)
    (hkeep : ∀ z ∈ mid, z.act.1 ≠ .unregister ((i : Nat) : Int))
    (halive : r < 0 ∨ 0 ≤ r ∧ ∀ z ∈ mid, removedBy run i z = false) :
    Kept i f k r x.post.1.ticks (ticksIn mid) p ∧
      calledFor run i mid = List.replicate (multiples k x.post.1.ticks (ticksIn mid)) f := by
  refine h.after_history (P := fun mid' p => Kept i f k r x.post.1.ticks (ticksIn mid') p ∧
    calledFor run i mid' = List.replicate (multiples k x.post.1.ticks (ticksIn mid')) f) ?_ ?_
  · have hsplit : tr ++ x :: mid = (tr ++ [x]) ++ mid := by simp
    rw [hsplit] at h
    obtain ⟨s, hs⟩ := h.of_append
    obtain ⟨_, hn, _⟩ := hs.snoc_inv
    have he : x.act.1.exec run x.pre = .ok (x.act.2, x.post) := hn.2
    rw [hreg] at he
    exact ⟨.register hint (halive.imp_right And.left) hfree he, rfl⟩
  · intro mid' z hz _ hn ⟨hk, hcalls⟩
    have hmem : z ∈ mid := hz.subset (by simp)
    have he : z.act.1.exec run z.pre = .ok (z.act.2, z.post) := hn.2
    rw [ticksIn_snoc, calledFor_snoc]
    cases htick : z.act.1.isTick with
    | true =>
      rw [TimerOp.eq_tick htick] at he
      have ht := exec_tick he
      have hwithin := hk.within
      have hmore : r < 0 ∨ (ticksIn mid' : Int) < r := by
        rcases halive with hneg | ⟨_, halive⟩
        · exact .inl hneg
        · -- with no repeats left the tick would have removed the timer
          have hstays := halive z hmem
          rw [removedBy, htick, Bool.true_and] at hstays
          have hne : r ≠ ticksIn mid' := fun hend => by
            rw [(hk.removes hrun ht).mpr hend] at hstays
            cases hstays
          omega
      rw [if_pos rfl, if_pos rfl]
      refine ⟨hk.tick hrun hmore ht, ?_⟩
      rw [hk.callsFor hrun ht, hcalls, replicate_multiples]
    | false =>
      rw [if_neg Bool.false_ne_true, if_neg Bool.false_ne_true, List.append_nil]
      exact ⟨⟨hk.held.exec htick (hkeep z hmem) he, hk.within⟩, hcalls⟩

/-! ## Timers that repeat for ever -/

/-- Where the ids are exact, that of a timer just registered is not free. -/
theorem registered_notFree (hexact : p'.1.IdsExact)
    (he : (TimerOp.register f k r).exec run p = .ok (((i : Nat) : Int), p')) :
    ((i : Nat) : Int) ∉ p'.1.allocator.toList := by
  intro hm
  obtain ⟨j, hij, hnone⟩ := (hexact.mem_iff _).mp hm
  obtain rfl := IdPool.val_inj.mp hij
  rcases register_ok (exec_register he) with ⟨hid, _⟩ | ⟨j, q, hid, _, hp'⟩
  · omega
  · obtain rfl := IdPool.val_inj.mp hid
    rw [hp'] at hnone
    dsimp only at hnone
    rw [Function.update_self] at hnone
    cases hnone

deriving instance DecidableEq for TimerOp

/-- A run on given calls, of timers whose callbacks do nothing. -/
theorem timerUse_of_test (ops : List (TimerOp Bool))
    (P : List (TimerStep Bool Unit) → Timers Bool × Unit → Bool)
    (h : Trace.replayTest (fun op p => op.exec (apart fun _ s => s) p) ops (timerInit, ())
      (fun tr p => decide (∀ z ∈ tr, z.act.1.CanRun z.pre.1) && P tr p) = true) :
    ∃ tr p, TimerUse (fun _ s => s) tr p ∧ P tr p = true := by
  obtain ⟨tr, p, hr, hP⟩ := Trace.of_replayTest h
  rw [Bool.and_eq_true] at hP
  exact ⟨tr, p, Trace.Run.of_replay rfl hr (of_decide_eq_true hP.1), hP.2⟩

/-- An id that is free a second time is given out again while its timer is registered:
enough registrations, with no tick between them, and the entry is overwritten. -/
theorem IdsInRange.given_again {ts : Timers κ} (hr : ts.IdsInRange) (f : κ)
    (hfree : ((i : Nat) : Int) ∈ ts.allocator.toList) :
    ∃ n rcs ts', ts.registerAll (List.replicate n (f, 1, -1)) = .ok (rcs, ts') ∧
      ((i : Nat) : Int) ∈ rcs := by
  obtain ⟨l, hl⟩ : ∃ l, ts.allocator.toList = l := ⟨_, rfl⟩
  rw [hl] at hfree
  induction l generalizing ts with
  | nil => cases hfree
  | cons id l ih =>
    rcases timerCallbackRegister_cases hr f 1 (-1) with ⟨hnil, _⟩ | ⟨j, q, hq, he⟩
    · rw [hl] at hnil
      cases hnil
    · let ts₁ : Timers κ :=
        { ts with allocator := q, table := Function.update ts.table j ⟨some f, 1, -1⟩ }
      have hids := hl.symm.trans hq
      rw [(List.cons.inj hids).1, List.mem_cons] at hfree
      rcases hfree with hij | hlater
      · refine ⟨1, [((j : Nat) : Int)], ts₁, ?_, List.mem_singleton.mpr hij⟩
        simp only [List.replicate_one, registerAll, he, Loop.ok_bind]
        rfl
      · have hr' : ts₁.IdsInRange := by
          intro x hx
          refine hr x ?_
          rw [hq]
          exact List.mem_cons_of_mem _ hx
        obtain ⟨n, rcs, ts', hall, hmem⟩ := ih hr' hlater (List.cons.inj hids).2.symm
        refine ⟨n + 1, ((j : Nat) : Int) :: rcs, ts', ?_, List.mem_cons_of_mem _ hmem⟩
        rw [List.replicate_succ, registerAll, he, Loop.ok_bind]
        dsimp only
        rw [hall]
        rfl

/-- A run of any calls. -/
theorem timerCallsRun_of_test (run : Bool → Timers Bool × Unit → Timers Bool × Unit)
    (ops : List (TimerOp Bool)) (P : List (TimerStep Bool Unit) → Timers Bool × Unit → Bool)
    (hops : ∀ op ∈ ops, op.IntArgs)
    (h : Trace.replayTest (fun op p => op.exec run p) ops (timerInit, ()) P = true) :
    ∃ tr p, tr.map (·.act.1) = ops ∧ TimerCallsRun run tr p ∧ P tr p = true := by
  obtain ⟨tr, p, hr, hP⟩ := Trace.of_replayTest h
  refine ⟨tr, p, Trace.replay_acts ops hr, Trace.Run.of_replay rfl hr fun x hx => ?_, hP⟩
  exact hops _ (Trace.replay_acts ops hr ▸ List.mem_map_of_mem hx)

/-- The callback `false` registers a timer, the callback `true` does nothing. -/
def spawn (f : Bool) (p : Timers Bool × Unit) : Timers Bool × Unit :=
  if f then p
  else match p.1.timerCallbackRegister (some true) 3 (-1) with
    | .ok (_, ts) => (ts, p.2)
    | .error _ => p

theorem spawn_callsOnly {P : TimerOp Bool → Prop} (h : P (.register true 3 (-1))) :
    CallsOnly P spawn := by
  intro f p
  unfold spawn
  split
  · exact .none
  · split
    · rename_i hr
      exact .register .none h hr
    · exact .none

end Timers
end UnivOS
