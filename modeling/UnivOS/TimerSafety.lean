import UnivOS.TimerCalls
import UnivOS.Ksyscall

/-! # The arithmetic of a tick

The handler adds to the count, divides it by the intervals and subtracts from the
repeats. Nothing checks an interval when a timer is registered, and nothing stops
the count at the greatest `int`.
-/
namespace UnivOS
namespace Timers
open Word

variable {κ σ : Type} {run : κ → Timers κ × σ → Timers κ × σ} {p p' : Timers κ × σ} {rc n : Int}
  {op : TimerOp κ} {ts ts' : Timers κ} {tr : List (TimerStep κ σ)} {x : TimerStep κ σ}
  {i : Fin timersMax} {l : List (Fin timersMax)}

def timerGetTicks (ts : Timers κ) : Int := ts.ticks

/-- The state after the callback of entry `i`, if it is due. -/
def called (run : κ → Timers κ × σ → Timers κ × σ) (i : Fin timersMax) (q : Timers κ × σ) :
    Timers κ × σ :=
  ((q.1.table i).due q.1.ticks).foldl (fun p f => run f p) q

/-- No operation of the next tick overflows: the increment, and at the turn of each
entry the remainder (of the least `int` by -1) and the decrement. -/
structure NoOverflow (run : κ → Timers κ × σ → Timers κ × σ) (p : Timers κ × σ) : Prop where
  increment : InInt32 (p.1.ticks + 1)
  remainder : ∀ i q q', turn run i p = .ok (q, q') → (q.1.table i).callback ≠ none →
    ¬ (q.1.ticks = -2 ^ 31 ∧ (q.1.table i).interval = -1)
  decrement : ∀ i q q', turn run i p = .ok (q, q') → (q.1.table i).callback ≠ none →
    0 < ((called run i q).1.table i).repeats → InInt32 (((called run i q).1.table i).repeats - 1)

/-- The call returns, so that it has not divided by zero, has not overflowed either, and
neither the ticks nor the time have gone back. -/
def OpSafe (run : κ → Timers κ × σ → Timers κ × σ) (op : TimerOp κ) (p : Timers κ × σ) : Prop :=
  ∃ rc p', op.exec run p = .ok (rc, p') ∧ (op.isTick = true → NoOverflow run p) ∧
    p.1.timerGetTicks ≤ p'.1.timerGetTicks ∧
    ksyscallSysGetTime p.1.timerGetTicks ≤ ksyscallSysGetTime p'.1.timerGetTicks

/-- No registered timer has interval 0, and the count is not the greatest `int`. -/
def CanTick (ts : Timers κ) : Prop :=
  (∀ i, (ts.table i).callback ≠ none → (ts.table i).interval ≠ 0) ∧ ts.ticks ≠ 2 ^ 31 - 1

instance [DecidableEq κ] (ts : Timers κ) : Decidable ts.CanTick :=
  inferInstanceAs (Decidable (_ ∧ _))

/-- What a call needs: a tick needs the handler to be able to tick. -/
def TimerOp.CanMake (op : TimerOp κ) (ts : Timers κ) : Prop := op.isTick = true → CanTick ts

instance [DecidableEq κ] (op : TimerOp κ) (ts : Timers κ) : Decidable (op.CanMake ts) :=
  inferInstanceAs (Decidable (_ → _))

/-- When the call is safe. -/
structure SafeWhenCanMake (run : κ → Timers κ × σ → Timers κ × σ) (op : TimerOp κ)
    (p : Timers κ × σ) : Prop where
  safe : op.CanMake p.1 → OpSafe run op p
  /-- A callback that unregisters a timer with interval 0 before its turn prevents the
  division; where there is none the condition is exact. -/
  only : LeavesTimers run → OpSafe run op p → op.CanMake p.1

/-- The timers that callbacks register have an interval. -/
def TimerOp.SetsInterval : TimerOp κ → Prop
  | .register _ iv rp => iv ≠ 0 ∧ InInt32 iv ∧ InInt32 rp
  | _ => True

/-! ## What every call keeps -/

/-- The ids in the allocator name entries, and the repeats are ints. -/
structure Sound (ts : Timers κ) : Prop where
  inRange : ts.IdsInRange
  repeats : ∀ i, InInt32 (ts.table i).repeats

def IntervalsSet (ts : Timers κ) : Prop :=
  ∀ i, (ts.table i).callback ≠ none → (ts.table i).interval ≠ 0

theorem zero_inInt32 : InInt32 0 := by decide

/-- One entry is set. -/
theorem Sound.of_update (h : Sound ts) {t : Timer κ} (hr : ts'.IdsInRange)
    (htable : ts'.table = Function.update ts.table i t) (ht : InInt32 t.repeats) : Sound ts' := by
  refine ⟨hr, fun j => ?_⟩
  rw [htable]
  by_cases hj : j = i
  · rw [hj, Function.update_self]
    exact ht
  · rw [Function.update_of_ne hj]
    exact h.repeats j

theorem IntervalsSet.of_update (h : IntervalsSet ts) {t : Timer κ}
    (htable : ts'.table = Function.update ts.table i t)
    (ht : t.callback ≠ none → t.interval ≠ 0) : IntervalsSet ts' := by
  intro j
  rw [htable]
  by_cases hj : j = i
  · rw [hj, Function.update_self]
    exact ht
  · rw [Function.update_of_ne hj]
    exact h j

theorem Sound.register (h : Sound ts) {f : κ} {iv rp : Int} (hrp : InInt32 rp)
    (hr : ts.timerCallbackRegister (some f) iv rp = .ok (rc, ts')) : Sound ts' := by
  rcases register_ok hr with ⟨_, rfl⟩ | ⟨i, q, rfl, hq, rfl⟩
  · exact h
  · refine h.of_update (fun id hid => h.inRange id ?_) rfl hrp
    rw [hq]
    exact List.mem_cons_of_mem _ hid

theorem IntervalsSet.register (h : IntervalsSet ts) {f : κ} {iv rp : Int} (hiv : iv ≠ 0)
    (hr : ts.timerCallbackRegister (some f) iv rp = .ok (rc, ts')) : IntervalsSet ts' := by
  rcases register_ok hr with ⟨_, rfl⟩ | ⟨i, q, rfl, hq, rfl⟩
  · exact h
  · exact h.of_update rfl fun _ => hiv

theorem Sound.unregister (h : Sound ts) (id : Int) : Sound (ts.timerCallbackUnregister id).2 := by
  have hrange := unregister_inRange h.inRange id
  cases hid : index timersMax id with
  | none => rwa [unregister_none hid]
  | some i =>
    obtain rfl := index_eq_some.mp hid
    exact h.of_update hrange (unregister_table ts i).1 zero_inInt32

theorem IntervalsSet.unregister (h : IntervalsSet ts) (id : Int) :
    IntervalsSet (ts.timerCallbackUnregister id).2 := by
  cases hid : index timersMax id with
  | none => rwa [unregister_none hid]
  | some i =>
    obtain rfl := index_eq_some.mp hid
    exact h.of_update (unregister_table ts i).1 fun hn => absurd rfl hn

theorem Sound.timerRepeat (h : Sound ts) (i : Fin timersMax) : Sound (ts.timerRepeat i) := by
  obtain ⟨hl, hu⟩ := h.repeats i
  unfold Timers.timerRepeat
  dsimp only
  split
  · exact h.of_update h.inRange rfl ⟨by dsimp only; omega, by dsimp only; omega⟩
  · split
    · exact h.unregister _
    · exact h

theorem IntervalsSet.timerRepeat (h : IntervalsSet ts) (i : Fin timersMax) :
    IntervalsSet (ts.timerRepeat i) := by
  rcases timerRepeat_cases ts i with he | ⟨m, he⟩ | ⟨_, he⟩
  · rwa [he]
  · rw [he]
    exact h.of_update rfl (h i)
  · rw [he]
    exact h.unregister _

/-- What callbacks keep. -/
theorem Sound.call (hrun : CallsOnly TimerOp.SetsInterval run) (h : Sound p.1) (f : κ) :
    Sound (run f p).1 :=
  (hrun f p).keeps h (fun _ _ _ _ _ _ hset hs hr => hs.register hset.2.2 hr) fun _ id _ hs =>
    hs.unregister id

theorem IntervalsSet.call (hrun : CallsOnly TimerOp.SetsInterval run) (h : IntervalsSet p.1)
    (f : κ) : IntervalsSet (run f p).1 :=
  (hrun f p).keeps h (fun _ _ _ _ _ _ hset hs hr => hs.register hset.1 hr) fun _ id _ hs =>
    hs.unregister id

theorem Sound.exec (hrun : CallsOnly TimerOp.SetsInterval run) (h : Sound p.1) (hop : op.IntArgs)
    (he : op.exec run p = .ok (rc, p')) : Sound p'.1 := by
  cases op with
  | register f iv rp => exact h.register hop.2 (exec_register he)
  | unregister id =>
    cases he
    exact h.unregister id
  | tick =>
    have hstart : Sound { p.1 with ticks := wrap32 (p.1.ticks + 1) } := ⟨h.inRange, h.repeats⟩
    exact foldlM_keeps (Q := Sound) (fun f q hq => hq.call hrun f)
      (fun i _ ts hts => hts.timerRepeat i) hstart (exec_tick he)

theorem TimerCallsRun.sound (hrun : CallsOnly TimerOp.SetsInterval run)
    (h : TimerCallsRun run tr p) : Sound p.1 := by
  refine Trace.Run.state_invariant (P := fun p => Sound p.1) h ?_ ?_
  · intro p hp
    rw [hp]
    exact ⟨timerInit_idsExact.inRange, fun _ => zero_inInt32⟩
  · intro tr p a p' _ ⟨hop, he⟩ hs
    exact hs.exec hrun hop he

/-! ## When a call is safe -/

/-- With the intervals set, every turn returns. -/
theorem foldlM_returns (hrun : CallsOnly TimerOp.SetsInterval run) (h : IntervalsSet p.1)
    (l : List (Fin timersMax)) : ∃ p', l.foldlM (timerServe run) p = .ok p' := by
  induction l generalizing p with
  | nil => exact ⟨p, rfl⟩
  | cons i l ih =>
    obtain ⟨q, hq⟩ := (timerServe_returns_iff run p i).mpr (h i)
    have hset := timerServe_keeps (Q := IntervalsSet) (fun f q hq => hq.call hrun f)
      (fun ts hts => hts.timerRepeat i) h hq
    obtain ⟨p', hp'⟩ := ih hset
    exact ⟨p', by rw [List.foldlM_cons, hq, Loop.ok_bind, hp']⟩

/-- The state before the turn of an entry is what the turns before it have left. -/
theorem turn_foldlM {q q' : Timers κ × σ} (h : turn run i p = .ok (q, q')) :
    ((List.finRange timersMax).take i).foldlM (timerServe run)
      ({ p.1 with ticks := wrap32 (p.1.ticks + 1) }, p.2) = .ok q := by
  obtain ⟨r, hr, h⟩ := Loop.bind_eq_ok.mp h
  obtain ⟨_, _, h⟩ := Loop.bind_eq_ok.mp h
  cases h
  exact hr

theorem noOverflow_of_canTick (hrun : CallsOnly TimerOp.SetsInterval run) (h : Sound p.1)
    (hint : InInt32 p.1.ticks) (hne : p.1.ticks ≠ 2 ^ 31 - 1) : NoOverflow run p := by
  obtain ⟨hl, hu⟩ := hint
  have hinc : InInt32 (p.1.ticks + 1) := ⟨by omega, by omega⟩
  have hstart : Sound { p.1 with ticks := wrap32 (p.1.ticks + 1) } := ⟨h.inRange, h.repeats⟩
  refine ⟨hinc, fun i q q' hq _ hm => ?_, fun i q q' hq _ hpos => ?_⟩
  · -- the count has just been incremented
    have hticks := foldlM_keeps (Q := fun ts => ts.ticks = wrap32 (p.1.ticks + 1))
      (fun f q hq => (hrun f q).keeps hq
        (fun _ _ _ _ _ _ _ hts hr => (register_ticks hr).trans hts)
        fun ts id _ hts => (unregister_ticks ts id).trans hts)
      (fun i _ ts hts => (timerRepeat_ticks ts i).trans hts) rfl (turn_foldlM hq)
    rw [wrap32_of_inInt32 hinc] at hticks
    omega
  · have hs := foldlM_keeps (Q := Sound) (fun f q hq => hq.call hrun f)
      (fun i _ ts hts => hts.timerRepeat i) hstart (turn_foldlM hq)
    have hcalled : Sound (called run i q).1 := by
      unfold called Timer.due
      split
      · exact hs
      · split
        · exact hs.call hrun _
        · exact hs
    obtain ⟨_, hmost⟩ := hcalled.repeats i
    exact ⟨by omega, by omega⟩

/-- A call that is not a tick, or is made where the handler can tick, is safe. -/
theorem opSafe_of_canTick (hrun : CallsOnly TimerOp.SetsInterval run) (h : Sound p.1)
    (hint : InInt32 p.1.ticks) (hcan : op.CanMake p.1) : OpSafe run op p := by
  cases op with
  | register f iv rp =>
    have hno : ¬ (TimerOp.register f iv rp).isTick = true := Bool.false_ne_true
    rcases timerCallbackRegister_cases h.inRange f iv rp with ⟨_, he⟩ | ⟨i, q, _, he⟩
    · refine ⟨-1, p, ?_, fun htick => absurd htick hno, Int.le_refl _, Int.le_refl _⟩
      rw [TimerOp.exec, he]
      rfl
    · let ts : Timers κ :=
        { p.1 with allocator := q, table := Function.update p.1.table i ⟨some f, iv, rp⟩ }
      refine ⟨i, (ts, p.2), ?_, fun htick => absurd htick hno, Int.le_refl _, Int.le_refl _⟩
      rw [TimerOp.exec, he]
      rfl
  | unregister id =>
    have hno : ¬ (TimerOp.unregister (κ := κ) id).isTick = true := Bool.false_ne_true
    refine ⟨_, _, rfl, fun htick => absurd htick hno, ?_, ?_⟩ <;> dsimp only [timerGetTicks] <;>
      rw [unregister_ticks]
  | tick =>
    obtain ⟨hset, hne⟩ := hcan rfl
    have hstart : IntervalsSet { p.1 with ticks := wrap32 (p.1.ticks + 1) } := hset
    obtain ⟨q, hq⟩ := foldlM_returns (p := ({ p.1 with ticks := wrap32 (p.1.ticks + 1) }, p.2))
      hrun hstart (List.finRange timersMax)
    have hok : timerIrqHandler run p.1 p.2 = .ok q := hq
    have hinc : InInt32 (p.1.ticks + 1) := by
      obtain ⟨hl, hu⟩ := hint
      exact ⟨by omega, by omega⟩
    have hmono : p.1.ticks ≤ q.1.ticks := by
      rw [timerIrqHandler_ticks hrun hok, wrap32_of_inInt32 hinc]
      omega
    exact ⟨0, q, by rw [TimerOp.exec, hok]; rfl, fun _ => noOverflow_of_canTick hrun h hint hne,
      hmono, Int.tdiv_le_tdiv (by decide) hmono⟩

/-- Where the callbacks leave the timers alone, a tick is safe only then. -/
theorem canTick_of_opSafe (hrun : LeavesTimers run) (h : OpSafe run .tick p) : CanTick p.1 := by
  obtain ⟨rc, p', he, hno, _, _⟩ := h
  refine ⟨(timerIrqHandler_returns_iff hrun p.1 p.2).mp ⟨_, exec_tick he⟩, fun hmax => ?_⟩
  obtain ⟨_, hinc⟩ := (hno rfl).increment
  omega

/-- **The arithmetic of a tick is safe if no registered timer has interval 0 and the
count is not the greatest `int`.** In every run of calls, of timers whose callbacks may
unregister timers and register others with an interval, each call has been safe under
that condition, and the next one is. -/
theorem timer_arithmetic_safe_iff (hrun : CallsOnly TimerOp.SetsInterval run)
    (h : TimerCallsRun run tr p) :
    (∀ x ∈ tr, SafeWhenCanMake run x.act.1 x.pre) ∧ ∀ op : TimerOp κ, SafeWhenCanMake run op p := by
  have hnext : ∀ {tr : List (TimerStep κ σ)} {p : Timers κ × σ}, TimerCallsRun run tr p →
      ∀ op : TimerOp κ, SafeWhenCanMake run op p := by
    intro tr p h op
    refine ⟨opSafe_of_canTick hrun (h.sound hrun) (ticks_of_run hrun h), fun hleaves hsafe htick => ?_⟩
    obtain rfl := TimerOp.eq_tick htick
    exact canTick_of_opSafe hleaves hsafe
  refine ⟨?_, hnext h⟩
  refine h.invariant (P := fun tr _ => ∀ x ∈ tr, SafeWhenCanMake run x.act.1 x.pre) ?_ ?_
  · intro p _ x hx
    cases hx
  · intro tr p a p' hr _ ih
    rw [List.forall_mem_append, List.forall_mem_singleton]
    exact ⟨ih, hnext hr a.1⟩

/-- The count does get there: with no timer registered every tick returns. -/
theorem count_overflows (hleaves : LeavesTimers run) (s : σ) : ∃ (tr : List (TimerStep κ σ))
    (p : Timers κ × σ), TimerCallsRun run tr p ∧ ¬ NoOverflow run p := by
  have hreach : ∀ n : Nat, (n : Int) ≤ 2 ^ 31 - 1 → ∃ (tr : List (TimerStep κ σ))
      (p : Timers κ × σ), TimerCallsRun run tr p ∧ p.1.ticks = n ∧
        ∀ i, (p.1.table i).callback = none := by
    intro n
    induction n with
    | zero => exact fun _ => ⟨[], (timerInit, s), .nil rfl, rfl, fun _ => rfl⟩
    | succ n ih =>
      intro hn
      obtain ⟨tr, p, hrun, hticks, hnone⟩ := ih (by omega)
      obtain ⟨q, hq⟩ := (timerIrqHandler_returns_iff hleaves p.1 p.2).mpr fun i hi =>
        absurd (hnone i) hi
      have heff := timerIrqHandler_effect hleaves hq
      refine ⟨_, q, hrun.snoc (a := ((.tick : TimerOp κ), (0 : Int))) ⟨trivial, ?_⟩, ?_, fun i => ?_⟩
      · show (timerIrqHandler run p.1 p.2).map (fun r => ((0 : Int), r)) = _
        rw [hq]
        rfl
      · rw [timerIrqHandler_ticks (P := fun _ => True) hleaves.callsOnly hq, hticks]
        exact wrap32_of_inInt32 ⟨by omega, by omega⟩
      · rw [heff.served, Timer.served, hnone]
        exact hnone i
  obtain ⟨tr, p, hrun, hticks, _⟩ := hreach (2 ^ 31 - 1) (by decide)
  refine ⟨tr, p, hrun, fun hno => ?_⟩
  obtain ⟨_, hinc⟩ := hno.increment
  rw [hticks] at hinc
  exact absurd hinc (by decide)

/-- A timer with interval 3 and one whose callback registers others, at its second tick. -/
theorem timer_arithmetic_safe_three : ∃ (tr : List (TimerStep Bool Unit)) (p : Timers Bool × Unit),
    tr.map (·.act.1) = [.register true 3 (-1), .register false 1 (-1), .tick] ∧
      TimerCallsRun spawn tr p ∧ (p.1.table ⟨2, by decide⟩).callback = some true ∧
      (∀ x ∈ tr, OpSafe spawn x.act.1 x.pre) ∧ OpSafe spawn .tick p := by
  obtain ⟨tr, p, hacts, hrun, hP⟩ := timerCallsRun_of_test spawn
    [.register true 3 (-1), .register false 1 (-1), .tick]
    (fun tr p => decide ((∀ x ∈ tr, x.act.1.CanMake x.pre.1) ∧ CanTick p.1 ∧
      (p.1.table ⟨2, by decide⟩).callback = some true)) (by decide) (by decide +kernel)
  obtain ⟨hall, hlast, hspawned⟩ := of_decide_eq_true hP
  have hcalls : CallsOnly TimerOp.SetsInterval spawn :=
    spawn_callsOnly ⟨by decide, by decide, by decide⟩
  obtain ⟨hsteps, hnext⟩ := timer_arithmetic_safe_iff hcalls hrun
  exact ⟨tr, p, hacts, hrun, hspawned, fun x hx => (hsteps x hx).safe (hall x hx),
    (hnext .tick).safe fun _ => hlast⟩

/-- A timer is registered with interval 0, and the next tick divides by it. -/
theorem timer_divides_by_zero : ∃ (tr : List (TimerStep Bool Unit)) (p : Timers Bool × Unit),
    tr.map (·.act) = [(.register true 0 (-1), 0)] ∧ TimerCallsRun (apart fun _ s => s) tr p ∧
      TimerOp.tick.exec (apart fun _ s => s) p = .error (.undefined "timer_ticks % 0") ∧
      ¬ OpSafe (apart fun _ s => s) .tick p := by
  obtain ⟨tr, p, _, hrun, hP⟩ := timerCallsRun_of_test (apart fun _ s => s)
    [.register true 0 (-1)]
    (fun tr p => match TimerOp.tick.exec (apart fun _ s => s) p with
      | .ok _ => false
      | .error e => decide (tr.map (·.act) = [(.register true 0 (-1), 0)] ∧
        e = .undefined "timer_ticks % 0"))
    (by decide) (by decide +kernel)
  split at hP
  · cases hP
  · rename_i e hhalts
    obtain ⟨hacts, rfl⟩ := of_decide_eq_true hP
    refine ⟨tr, p, hacts, hrun, hhalts, ?_⟩
    rintro ⟨rc, p', he, _⟩
    cases hhalts.symm.trans he

end Timers
end UnivOS
