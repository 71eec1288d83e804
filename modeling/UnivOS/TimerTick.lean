import UnivOS.Timer
import UnivOS.Lib.Loop

/-! # One entry in a tick

A tick serves every entry of the timer table once. The callbacks it calls may register
and unregister timers, so that the turn of an entry finds what they have left. A timer
that nobody unregisters, and whose id is not in the allocator a second time, is still
in its entry then.
-/
namespace UnivOS

/-- A timer after its turn. -/
def Timer.served {κ : Type} (t : Timer κ) : Timer κ :=
  match t.callback with
  | none => t
  | some _ =>
    if t.repeats > 0 then { t with repeats := t.repeats - 1 }
    else if t.repeats = 0 then ⟨none, 0, 0⟩
    else t

/-- The callback a timer calls when the tick count is `n`. -/
def Timer.due {κ : Type} (t : Timer κ) (n : Int) : List κ :=
  match t.callback with
  | none => []
  | some f => if n.tmod t.interval = 0 then [f] else []

namespace Timers
open Word

variable {κ σ : Type} {run : κ → Timers κ × σ → Timers κ × σ} {ts ts' : Timers κ}
  {p p' : Timers κ × σ} {i j : Fin timersMax} {t : Timer κ} {n : Int} {P : TimerOp κ → Prop}

/-! ## What callbacks do to the timers -/

/-- `ts'` is what registrations and unregistrations of which `P` holds leave of `ts`. -/
inductive Calls (P : TimerOp κ → Prop) (ts : Timers κ) : Timers κ → Prop
  | none : Calls P ts ts
  | register {ts₁ ts₂ : Timers κ} {f : κ} {iv rp rc : Int} (before : Calls P ts ts₁)
      (made : P (.register f iv rp))
      (returns : ts₁.timerCallbackRegister (some f) iv rp = .ok (rc, ts₂)) : Calls P ts ts₂
  | unregister {ts₁ : Timers κ} {id : Int} (before : Calls P ts ts₁) (made : P (.unregister id)) :
      Calls P ts (ts₁.timerCallbackUnregister id).2

theorem Calls.keeps {Q : Timers κ → Prop} (h : Calls P ts ts') (hts : Q ts)
    (hreg : ∀ ts f iv rp rc ts', P (.register f iv rp) → Q ts →
      ts.timerCallbackRegister (some f) iv rp = .ok (rc, ts') → Q ts')
    (hunreg : ∀ ts id, P (.unregister id) → Q ts → Q (ts.timerCallbackUnregister id).2) :
    Q ts' := by
  induction h with
  | none => exact hts
  | register _ made returns ih => exact hreg _ _ _ _ _ _ made ih returns
  | unregister _ made ih => exact hunreg _ _ made ih

/-- The callbacks act on the timers by such calls only. -/
def CallsOnly (P : TimerOp κ → Prop) (run : κ → Timers κ × σ → Timers κ × σ) : Prop :=
  ∀ f p, Calls P p.1 (run f p).1

def LeavesTimers (run : κ → Timers κ × σ → Timers κ × σ) : Prop := ∀ f p, (run f p).1 = p.1

theorem apart_leavesTimers (run : κ → σ → σ) : LeavesTimers (apart run) := fun _ _ => rfl

theorem LeavesTimers.callsOnly (h : LeavesTimers run) : CallsOnly P run := by
  intro f p
  rw [h f p]
  exact .none

/-! ## The loop -/

/-- The turn of an entry with a timer. -/
theorem timerServe_some {f : κ} (hf : (p.1.table i).callback = some f) :
    timerServe run p i = if (p.1.table i).interval = 0 then .error (.undefined "timer_ticks % 0")
      else
        let q := ((p.1.table i).due p.1.ticks).foldl (fun p f => run f p) p
        .ok (q.1.timerRepeat i, q.2) := by
  unfold timerServe Timer.due
  dsimp only
  rw [hf]
  dsimp only
  by_cases hdue : p.1.ticks.tmod (p.1.table i).interval = 0
  · simp only [hdue, if_true, List.foldl_cons, List.foldl_nil]
  · simp only [hdue, if_false, List.foldl_nil]

theorem timerServe_none (hf : (p.1.table i).callback = none) : timerServe run p i = .ok p := by
  unfold timerServe
  dsimp only
  rw [hf]

/-- An entry halts the handler exactly if it is registered with interval 0. -/
theorem timerServe_returns_iff (run : κ → Timers κ × σ → Timers κ × σ) (p : Timers κ × σ)
    (i : Fin timersMax) : (∃ p', timerServe run p i = .ok p') ↔
      ((p.1.table i).callback ≠ none → (p.1.table i).interval ≠ 0) := by
  cases hf : (p.1.table i).callback with
  | none => exact iff_of_true ⟨p, timerServe_none hf⟩ fun h => absurd rfl h
  | some f =>
    rw [timerServe_some hf]
    by_cases hzero : (p.1.table i).interval = 0
    · rw [if_pos hzero]
      exact iff_of_false nofun fun h => h nofun hzero
    · rw [if_neg hzero]
      exact iff_of_true ⟨_, rfl⟩ fun _ => hzero

/-- What the callbacks and the repeats keep, a turn keeps. -/
theorem timerServe_keeps {Q : Timers κ → Prop} (hcall : ∀ f p, Q p.1 → Q (run f p).1)
    (hrepeat : ∀ ts, Q ts → Q (ts.timerRepeat i)) (hp : Q p.1)
    (h : timerServe run p i = .ok p') : Q p'.1 := by
  cases hf : (p.1.table i).callback with
  | none =>
    rw [timerServe_none hf] at h
    cases h
    exact hp
  | some f =>
    rw [timerServe_some hf] at h
    split at h
    · cases h
    · cases h
      refine hrepeat _ ?_
      unfold Timer.due
      rw [hf]
      dsimp only
      split
      · exact hcall f p hp
      · exact hp

theorem foldlM_keeps {Q : Timers κ → Prop} {l : List (Fin timersMax)}
    (hcall : ∀ f p, Q p.1 → Q (run f p).1)
    (hrepeat : ∀ i ∈ l, ∀ ts, Q ts → Q (ts.timerRepeat i)) (hp : Q p.1)
    (h : l.foldlM (timerServe run) p = .ok p') : Q p'.1 := by
  induction l generalizing p with
  | nil =>
    cases h
    exact hp
  | cons i l ih =>
    rw [List.foldlM_cons] at h
    obtain ⟨q, hq, hrest⟩ := Loop.bind_eq_ok.mp h
    rw [List.forall_mem_cons] at hrepeat
    exact ih hrepeat.2 (timerServe_keeps hcall hrepeat.1 hp hq) hrest

/-- The states before and after the turn of entry `i` in the next tick. -/
def turn (run : κ → Timers κ × σ → Timers κ × σ) (i : Fin timersMax) (p : Timers κ × σ) :
    Res ((Timers κ × σ) × (Timers κ × σ)) := do
  let q ← ((List.finRange timersMax).take i).foldlM (timerServe run)
    ({ p.1 with ticks := wrap32 (p.1.ticks + 1) }, p.2)
  let q' ← timerServe run q i
  .ok (q, q')

/-- The callback the next tick calls at the turn of entry `i`. -/
def callsFor (run : κ → Timers κ × σ → Timers κ × σ) (i : Fin timersMax) (p : Timers κ × σ) :
    List κ :=
  match turn run i p with
  | .ok (q, _) => (q.1.table i).due q.1.ticks
  | .error _ => []

/-- Whether the next tick removes the timer it finds in entry `i`. -/
def removes (run : κ → Timers κ × σ → Timers κ × σ) (i : Fin timersMax) (p : Timers κ × σ) :
    Bool :=
  match turn run i p with
  | .ok (q, q') => (q.1.table i).callback.isSome && (q'.1.table i).callback.isNone
  | .error _ => false

theorem finRange_split (i : Fin timersMax) : List.finRange timersMax =
    (List.finRange timersMax).take i ++ i :: (List.finRange timersMax).drop (i + 1) := by
  have hlt : (i : Nat) < (List.finRange timersMax).length := by
    rw [List.length_finRange]
    exact i.isLt
  conv_lhs => rw [← List.take_append_drop i (List.finRange timersMax),
    List.drop_eq_getElem_cons hlt, List.getElem_finRange]
  rfl

theorem not_mem_take_drop (i : Fin timersMax) : i ∉ (List.finRange timersMax).take i ∧
    i ∉ (List.finRange timersMax).drop (i + 1) := by
  have hnd := List.nodup_finRange timersMax
  rw [finRange_split i, List.nodup_append, List.nodup_cons] at hnd
  exact ⟨fun hm => hnd.2.2 i hm i List.mem_cons_self rfl, hnd.2.1.1⟩

/-- The handler up to the turn of entry `i`, the turn, and the rest. -/
theorem timerIrqHandler_turn (h : timerIrqHandler run p.1 p.2 = .ok p') (i : Fin timersMax) :
    ∃ q q', ((List.finRange timersMax).take i).foldlM (timerServe run)
        ({ p.1 with ticks := wrap32 (p.1.ticks + 1) }, p.2) = .ok q ∧
      timerServe run q i = .ok q' ∧ turn run i p = .ok (q, q') ∧
      ((List.finRange timersMax).drop (i + 1)).foldlM (timerServe run) q' = .ok p' := by
  rw [timerIrqHandler, finRange_split i, List.foldlM_append] at h
  obtain ⟨q, hq, h⟩ := Loop.bind_eq_ok.mp h
  rw [List.foldlM_cons] at h
  obtain ⟨q', hq', hrest⟩ := Loop.bind_eq_ok.mp h
  exact ⟨q, q', hq, hq', by rw [turn, hq, Loop.ok_bind, hq', Loop.ok_bind], hrest⟩

/-! ## Registration, unregistration and the repeats -/

theorem unregister_table (ts : Timers κ) (i : Fin timersMax) :
    (ts.timerCallbackUnregister i).2.table = Function.update ts.table i ⟨none, 0, 0⟩ ∧
      (ts.timerCallbackUnregister i).2.ticks = ts.ticks := by
  unfold timerCallbackUnregister
  rw [index_val]
  dsimp only
  split
  · exact ⟨rfl, rfl⟩
  · exact ⟨rfl, rfl⟩

theorem unregister_none {id : Int} (hid : index timersMax id = none) (ts : Timers κ) :
    (ts.timerCallbackUnregister id).2 = ts := by
  rw [timerCallbackUnregister, hid]

theorem unregister_allocator {x : Int} (ts : Timers κ) (i : Fin timersMax)
    (hx : x ∈ (ts.timerCallbackUnregister i).2.allocator.toList) :
    x ∈ ts.allocator.toList ∨ x = ((i : Nat) : Int) := by
  unfold timerCallbackUnregister at hx
  rw [index_val] at hx
  dsimp only at hx
  split at hx
  · exact .inl hx
  · rename_i q hq
    have hl := Queue.queueIn_spec hq
    rw [hl, List.mem_append, List.mem_singleton] at hx
    exact hx

/-- The repeats of a registered timer. -/
theorem timerRepeat_registered (hreg : (ts.table i).callback ≠ none) :
    (ts.timerRepeat i).table = Function.update ts.table i (ts.table i).served ∧
      (ts.IdsExact → (ts.timerRepeat i).IdsExact) := by
  obtain ⟨f, hf⟩ := Option.ne_none_iff_exists'.mp hreg
  unfold timerRepeat Timer.served
  dsimp only
  rw [hf]
  dsimp only
  by_cases hpos : (ts.table i).repeats > 0
  · rw [if_pos hpos, if_pos hpos]
    refine ⟨rfl, fun he => ?_⟩
    have hcount := countdown_idsExact he i ((ts.table i).repeats - 1)
    dsimp only at hcount
    rwa [hf] at hcount
  · rw [if_neg hpos, if_neg hpos]
    by_cases hzero : (ts.table i).repeats = 0
    · rw [if_pos hzero, if_pos hzero]
      refine ⟨(unregister_table ts i).1, fun he => he.unregister fun k hk => ?_⟩
      -- the entry is registered, so its id is not in the allocator
      rw [index_val, Option.some.injEq] at hk
      exact .inl (hk ▸ hreg)
    · rw [if_neg hzero, if_neg hzero]
      refine ⟨?_, id⟩
      rw [Function.update_eq_self]

/-- A registration that returns. -/
theorem register_ok {f : κ} {iv rp rc : Int}
    (h : ts.timerCallbackRegister (some f) iv rp = .ok (rc, ts')) :
    rc = -1 ∧ ts' = ts ∨ ∃ (i : Fin timersMax) (q : Queue), rc = ((i : Nat) : Int) ∧
      ts.allocator.toList = rc :: q.toList ∧
      ts' = { ts with allocator := q, table := Function.update ts.table i ⟨some f, iv, rp⟩ } := by
  unfold timerCallbackRegister at h
  dsimp only at h
  split at h
  · cases h
    exact .inl ⟨rfl, rfl⟩
  · rename_i id q hq
    split at h
    · cases h
    · rename_i i hi
      cases h
      exact .inr ⟨i, q, index_eq_some.mp hi, Queue.queueOut_spec hq, rfl⟩

/-! ## The tick count -/

theorem unregister_ticks (ts : Timers κ) (id : Int) :
    (ts.timerCallbackUnregister id).2.ticks = ts.ticks := by
  cases hid : index timersMax id with
  | none => rw [unregister_none hid]
  | some j =>
    obtain rfl := index_eq_some.mp hid
    exact (unregister_table ts j).2

theorem register_ticks {f : κ} {iv rp rc : Int}
    (h : ts.timerCallbackRegister (some f) iv rp = .ok (rc, ts')) : ts'.ticks = ts.ticks := by
  rcases register_ok h with ⟨_, rfl⟩ | ⟨_, _, _, _, rfl⟩ <;> rfl

theorem timerRepeat_ticks (ts : Timers κ) (i : Fin timersMax) :
    (ts.timerRepeat i).ticks = ts.ticks := by
  rcases timerRepeat_cases ts i with he | ⟨_, he⟩ | ⟨_, he⟩
  · rw [he]
  · rw [he]
  · rw [he, unregister_ticks]

/-- Callbacks do not count. -/
theorem timerIrqHandler_ticks (hrun : CallsOnly P run) (h : timerIrqHandler run p.1 p.2 = .ok p') :
    p'.1.ticks = wrap32 (p.1.ticks + 1) := by
  refine foldlM_keeps (Q := fun ts => ts.ticks = wrap32 (p.1.ticks + 1)) (fun f q hq => ?_)
    (fun i _ ts hts => (timerRepeat_ticks ts i).trans hts) rfl h
  exact (hrun f q).keeps hq (fun _ _ _ _ _ _ _ hts hr => (register_ticks hr).trans hts)
    fun ts id _ hts => (unregister_ticks ts id).trans hts

/-! ## A timer in its entry -/

/-- The timer `t` is in entry `i`, whose id is not free, at the tick count `n`. -/
structure Held (i : Fin timersMax) (t : Timer κ) (n : Int) (ts : Timers κ) : Prop where
  entry : ts.table i = t
  ticks : ts.ticks = n
  notFree : ((i : Nat) : Int) ∉ ts.allocator.toList

theorem Held.register (h : Held i t n ts) {f : κ} {iv rp rc : Int}
    (hr : ts.timerCallbackRegister (some f) iv rp = .ok (rc, ts')) : Held i t n ts' := by
  rcases register_ok hr with ⟨_, rfl⟩ | ⟨j, q, rfl, hq, rfl⟩
  · exact h
  · have hfree := h.notFree
    rw [hq, List.mem_cons, not_or] at hfree
    have hij : i ≠ j := fun hij => hfree.1 (by rw [hij])
    exact ⟨(Function.update_of_ne hij ..).trans h.entry, h.ticks, hfree.2⟩

theorem Held.unregister (h : Held i t n ts) {id : Int} (hid : id ≠ ((i : Nat) : Int)) :
    Held i t n (ts.timerCallbackUnregister id).2 := by
  cases hidx : index timersMax id with
  | none =>
    rw [unregister_none hidx]
    exact h
  | some j =>
    obtain rfl := index_eq_some.mp hidx
    obtain ⟨htable, hticks⟩ := unregister_table ts j
    have hij : i ≠ j := fun hij => hid (by rw [hij])
    refine ⟨?_, hticks.trans h.ticks, fun hm => ?_⟩
    · rw [htable, Function.update_of_ne hij]
      exact h.entry
    · rcases unregister_allocator ts j hm with hm | he
      · exact h.notFree hm
      · exact hid he.symm

/-- The turns of other entries. -/
theorem Held.timerRepeat (h : Held i t n ts) (hij : i ≠ j) : Held i t n (ts.timerRepeat j) := by
  rcases timerRepeat_cases ts j with he | ⟨m, he⟩ | ⟨_, he⟩
  · rwa [he]
  · rw [he]
    exact ⟨(Function.update_of_ne hij ..).trans h.entry, h.ticks, h.notFree⟩
  · rw [he]
    exact h.unregister fun hji => hij (IdPool.val_inj.mp hji.symm)

/-- The entry's own turn. -/
theorem Held.served (h : Held i t n ts) (ht : t.callback ≠ none) :
    (ts.timerRepeat i).table i = t.served ∧
      (t.repeats ≠ 0 → Held i t.served n (ts.timerRepeat i)) := by
  have hself : (ts.timerRepeat i).table i = t.served := by
    rw [(timerRepeat_registered (by rwa [h.entry])).1, Function.update_self, h.entry]
  refine ⟨hself, fun hne => ⟨hself, ?_, ?_⟩⟩
  · rw [timerRepeat_ticks, h.ticks]
  · rcases timerRepeat_cases ts i with he | ⟨m, he⟩ | ⟨hzero, _⟩
    · rw [he]
      exact h.notFree
    · rw [he]
      exact h.notFree
    · rw [h.entry] at hzero
      exact absurd hzero hne

/-- Callbacks that do not unregister the timer leave it in its entry. -/
theorem Held.call (hrun : CallsOnly (· ≠ .unregister ((i : Nat) : Int)) run) (h : Held i t n p.1)
    (f : κ) : Held i t n (run f p).1 :=
  (hrun f p).keeps h (fun _ _ _ _ _ _ _ h hr => h.register hr) fun _ _ hne h =>
    h.unregister fun he => hne (by rw [he])

theorem Held.foldlM (hrun : CallsOnly (· ≠ .unregister ((i : Nat) : Int)) run)
    {l : List (Fin timersMax)} (hi : i ∉ l) (h : Held i t n p.1)
    (hl : l.foldlM (timerServe run) p = .ok p') : Held i t n p'.1 := by
  refine foldlM_keeps (fun f p hp => hp.call hrun f) (fun j hj ts hts => hts.timerRepeat ?_) h hl
  rintro rfl
  exact hi hj

/-- What a tick does for a timer that is in its entry. -/
structure TurnOf (run : κ → Timers κ × σ → Timers κ × σ) (i : Fin timersMax) (t : Timer κ)
    (n : Int) (p p' : Timers κ × σ) : Prop where
  calls : callsFor run i p = t.due (wrap32 (n + 1))
  removes : removes run i p = true ↔ t.repeats = 0
  stays : t.repeats ≠ 0 → Held i t.served (wrap32 (n + 1)) p'.1

theorem Timer.served_callback {t : Timer κ} (ht : t.callback ≠ none) :
    t.served.callback = none ↔ t.repeats = 0 := by
  obtain ⟨f, hf⟩ := Option.ne_none_iff_exists'.mp ht
  unfold Timer.served
  rw [hf]
  dsimp only
  by_cases hpos : t.repeats > 0
  · rw [if_pos hpos]
    exact iff_of_false nofun (by omega)
  · rw [if_neg hpos]
    by_cases hzero : t.repeats = 0
    · rw [if_pos hzero]
      exact iff_of_true rfl hzero
    · rw [if_neg hzero]
      exact iff_of_false ht hzero

theorem Held.tick (hrun : CallsOnly (· ≠ .unregister ((i : Nat) : Int)) run) (h : Held i t n p.1)
    (ht : t.callback ≠ none) (hok : timerIrqHandler run p.1 p.2 = .ok p') :
    TurnOf run i t n p p' := by
  obtain ⟨hbefore, hafter⟩ := not_mem_take_drop i
  obtain ⟨q, q', hq, hq', hturn, hrest⟩ := timerIrqHandler_turn hok i
  have hstart : Held i t (wrap32 (n + 1))
      ({ p.1 with ticks := wrap32 (p.1.ticks + 1) }, p.2).1 :=
    ⟨h.entry, by rw [← h.ticks], h.notFree⟩
  have hheld := hstart.foldlM hrun hbefore hq
  obtain ⟨f, hf⟩ := Option.ne_none_iff_exists'.mp ht
  have hfq : (q.1.table i).callback = some f := by rw [hheld.entry, hf]
  rw [timerServe_some hfq] at hq'
  have hcalled : Held i t (wrap32 (n + 1))
      (((q.1.table i).due q.1.ticks).foldl (fun p f => run f p) q).1 := by
    unfold Timer.due
    rw [hfq]
    dsimp only
    split
    · exact hheld.call hrun f
    · exact hheld
  obtain ⟨hself, hstays⟩ := hcalled.served ht
  split at hq'
  · cases hq'
  · have hq₁ := congrArg (fun r => r.1) (Except.ok.inj hq')
    dsimp only at hq₁
    refine ⟨?_, ?_, fun hne => ?_⟩
    · rw [callsFor, hturn]
      dsimp only
      rw [hheld.entry, hheld.ticks]
    · rw [Timers.removes, hturn]
      dsimp only
      rw [hfq, ← hq₁, hself, ← Timer.served_callback ht]
      simp
    · refine Held.foldlM hrun hafter ?_ hrest
      rw [← hq₁]
      exact hstays hne

/-! ## Callbacks that leave the timers alone -/

/-- The turn of entry `i`. -/
structure Serves (i : Fin timersMax) (ts ts' : Timers κ) : Prop where
  table : ts'.table = Function.update ts.table i (ts.table i).served
  exact : ts.IdsExact → ts'.IdsExact

theorem timerServe_serves (hrun : LeavesTimers run) (h : timerServe run p i = .ok p') :
    Serves i p.1 p'.1 := by
  cases hf : (p.1.table i).callback with
  | none =>
    rw [timerServe_none hf] at h
    cases h
    have hserved : (p.1.table i).served = p.1.table i := by rw [Timer.served, hf]
    refine ⟨?_, id⟩
    rw [hserved, Function.update_eq_self]
  | some f =>
    have hleft : (((p.1.table i).due p.1.ticks).foldl (fun p f => run f p) p).1 = p.1 := by
      unfold Timer.due
      rw [hf]
      dsimp only
      split
      · exact hrun f p
      · rfl
    have hreg : (p.1.table i).callback ≠ none := by rw [hf]; exact nofun
    rw [timerServe_some hf] at h
    split at h
    · cases h
    · have hp' := congrArg (fun r => r.1) (Except.ok.inj h)
      dsimp only at hp'
      rw [← hp', hleft]
      obtain ⟨htable, hexact⟩ := timerRepeat_registered hreg
      exact ⟨htable, hexact⟩

/-- The turns of the entries `l`. -/
structure ServesAll (l : List (Fin timersMax)) (ts ts' : Timers κ) : Prop where
  served : ∀ i ∈ l, ts'.table i = (ts.table i).served
  others : ∀ i, i ∉ l → ts'.table i = ts.table i
  exact : ts.IdsExact → ts'.IdsExact

theorem foldlM_servesAll (hrun : LeavesTimers run) {l : List (Fin timersMax)} (hl : l.Nodup)
    (h : l.foldlM (timerServe run) p = .ok p') : ServesAll l p.1 p'.1 := by
  induction l generalizing p with
  | nil =>
    cases h
    exact ⟨nofun, fun _ _ => rfl, id⟩
  | cons i l ih =>
    rw [List.foldlM_cons] at h
    obtain ⟨q, hq, hrest⟩ := Loop.bind_eq_ok.mp h
    obtain ⟨hi, hl⟩ := List.nodup_cons.mp hl
    have hone := timerServe_serves hrun hq
    have hall := ih hl hrest
    have hne : ∀ j, j ≠ i → q.1.table j = p.1.table j := by
      intro j hj
      rw [hone.table, Function.update_of_ne hj]
    refine ⟨fun j hj => ?_, fun j hj => ?_,
      fun he => hall.exact (hone.exact he)⟩
    · rcases List.mem_cons.mp hj with rfl | hj
      · rw [hall.others j hi, hone.table, Function.update_self]
      · have hji : j ≠ i := fun he => hi (he ▸ hj)
        rw [hall.served j hj, hne j hji]
    · rw [List.mem_cons, not_or] at hj
      rw [hall.others j hj.2, hne j hj.1]

/-- A tick that returns. -/
structure TickEffect (ts ts' : Timers κ) : Prop where
  served : ∀ i, ts'.table i = (ts.table i).served
  exact : ts.IdsExact → ts'.IdsExact

theorem timerIrqHandler_effect (hrun : LeavesTimers run)
    (h : timerIrqHandler run p.1 p.2 = .ok p') : TickEffect p.1 p'.1 := by
  have hall := foldlM_servesAll hrun (List.nodup_finRange timersMax) h
  exact ⟨fun i => hall.served i (List.mem_finRange i), hall.exact⟩

/-- The handler returns exactly if no registered timer has interval 0. -/
theorem timerIrqHandler_returns_iff (hrun : LeavesTimers run) (ts : Timers κ) (s : σ) :
    (∃ p, timerIrqHandler run ts s = .ok p) ↔
      ∀ i, (ts.table i).callback ≠ none → (ts.table i).interval ≠ 0 := by
  suffices hl : ∀ (l : List (Fin timersMax)) (p : Timers κ × σ), l.Nodup →
      ((∃ p', l.foldlM (timerServe run) p = .ok p') ↔
        ∀ i ∈ l, (p.1.table i).callback ≠ none → (p.1.table i).interval ≠ 0) by
    refine (hl (List.finRange timersMax) _ (List.nodup_finRange timersMax)).trans ?_
    exact ⟨fun h i => h i (List.mem_finRange i), fun h i _ => h i⟩
  intro l
  induction l with
  | nil => exact fun p _ => iff_of_true ⟨_, rfl⟩ nofun
  | cons i l ih =>
    intro p hl
    obtain ⟨hi, hl⟩ := List.nodup_cons.mp hl
    rw [List.foldlM_cons, List.forall_mem_cons, ← timerServe_returns_iff run p i]
    constructor
    · rintro ⟨p', hp'⟩
      obtain ⟨q, hq, hrest⟩ := Loop.bind_eq_ok.mp hp'
      refine ⟨⟨q, hq⟩, fun j hj => ?_⟩
      have hji : j ≠ i := fun he => hi (he ▸ hj)
      have hlater := (ih q hl).mp ⟨p', hrest⟩ j hj
      rwa [(timerServe_serves hrun hq).table, Function.update_of_ne hji] at hlater
    · rintro ⟨⟨q, hq⟩, hlater⟩
      obtain ⟨p', hp'⟩ := (ih q hl).mpr fun j hj => by
        have hji : j ≠ i := fun he => hi (he ▸ hj)
        rw [(timerServe_serves hrun hq).table, Function.update_of_ne hji]
        exact hlater j hj
      exact ⟨p', by rw [hq]; exact hp'⟩

end Timers
end UnivOS
