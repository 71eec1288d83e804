import Mathlib.Data.List.Induction

/-! # Runs of a machine

A run is the list of the steps taken so far, oldest first, with the state each
step started from and the state it left. Whether a step may be taken can depend
on the steps before it, so restrictions on a history are part of the machine.
`Run.invariant` is the only induction over runs; the other rules follow it.
-/
namespace Trace

variable {σ α : Type*} {start : σ → Prop}

structure Step (σ α : Type*) where
  pre : σ
  act : α
  post : σ

/-- `next tr s a t`: after the steps `tr`, action `a` may lead from `s` to `t`. -/
inductive Run (start : σ → Prop) (next : List (Step σ α) → σ → α → σ → Prop) :
    List (Step σ α) → σ → Prop
  | nil {s : σ} : start s → Run start next [] s
  | snoc {tr : List (Step σ α)} {s t : σ} {a : α} :
      Run start next tr s → next tr s a t → Run start next (tr ++ [⟨s, a, t⟩]) t

variable {next : List (Step σ α) → σ → α → σ → Prop} {tr : List (Step σ α)} {s : σ}

theorem Run.invariant {P : List (Step σ α) → σ → Prop} (h : Run start next tr s)
    (init : ∀ s, start s → P [] s)
    (step : ∀ tr s a t, Run start next tr s → next tr s a t → P tr s →
      P (tr ++ [⟨s, a, t⟩]) t) : P tr s := by
  induction h with
  | nil hs => exact init _ hs
  | snoc hr hn ih => exact step _ _ _ _ hr hn ih

/-- A property of states that every step keeps holds at the end of every run. -/
theorem Run.state_invariant {P : σ → Prop} (h : Run start next tr s)
    (init : ∀ s, start s → P s)
    (step : ∀ tr s a t, Run start next tr s → next tr s a t → P s → P t) : P s :=
  h.invariant (P := fun _ s => P s) init step

/-- Items that every step passes through a store in order, a whole run passes through it in
order: what comes out and what is left is what goes in. -/
theorem Run.stream {β : Type*} {content : σ → List β} {into outOf : Step σ α → List β}
    (h : Run start next tr s) (init : ∀ s, start s → content s = [])
    (step : ∀ tr s a t, Run start next tr s → next tr s a t →
      outOf ⟨s, a, t⟩ ++ content t = content s ++ into ⟨s, a, t⟩) :
    tr.flatMap outOf ++ content s = tr.flatMap into := by
  refine h.invariant (P := fun tr s => tr.flatMap outOf ++ content s = tr.flatMap into) ?_ ?_
  · intro s hs
    rw [init s hs]
    rfl
  · intro tr s a t hr hn ih
    rw [List.flatMap_append, List.flatMap_append, List.flatMap_singleton, List.flatMap_singleton,
      List.append_assoc, step tr s a t hr hn, ← List.append_assoc, ih]

/-- A run of a machine is a run of every machine that allows more. -/
theorem Run.mono {next' : List (Step σ α) → σ → α → σ → Prop} (h : Run start next tr s)
    (weaker : ∀ tr s a t, next tr s a t → next' tr s a t) : Run start next' tr s := by
  induction h with
  | nil hs => exact .nil hs
  | snoc _ hn ih => exact .snoc ih (weaker _ _ _ _ hn)

theorem Run.snoc_inv {x : Step σ α} (h : Run start next (tr ++ [x]) s) :
    Run start next tr x.pre ∧ next tr x.pre x.act x.post ∧ s = x.post := by
  generalize hl : tr ++ [x] = l at h
  cases h with
  | nil => simp at hl
  | snoc hr hn =>
    obtain ⟨rfl, hx⟩ := List.append_inj' hl rfl
    obtain rfl : x = _ := List.cons.inj hx |>.1
    exact ⟨hr, hn, rfl⟩

/-- Every prefix of a run is a run. -/
theorem Run.of_append {tr' : List (Step σ α)} :
    ∀ {s : σ}, Run start next (tr ++ tr') s → ∃ s', Run start next tr s' := by
  induction tr' using List.reverseRecOn with
  | nil => intro s h; exact ⟨s, by simpa using h⟩
  | append_singleton tr' x ih =>
    intro s h
    rw [← List.append_assoc] at h
    exact ih h.snoc_inv.1

/-- Every step of a run is one of the machine, from the end of a run. -/
theorem Run.of_mem {x : Step σ α} (h : Run start next tr s) (hx : x ∈ tr) :
    ∃ tr', Run start next tr' x.pre ∧ next tr' x.pre x.act x.post := by
  obtain ⟨before, after, rfl⟩ := List.append_of_mem hx
  rw [List.append_cons] at h
  obtain ⟨_, h⟩ := h.of_append
  exact ⟨before, h.snoc_inv.1, h.snoc_inv.2.1⟩

/-- What holds after step `x`, of the steps behind it and the state, and is kept by
each of them holds at the end. -/
theorem Run.after_history {P : List (Step σ α) → σ → Prop} {x : Step σ α}
    {mid : List (Step σ α)} :
    ∀ {s : σ}, Run start next (tr ++ x :: mid) s → P [] x.post →
    (∀ mid' y, mid' ++ [y] <+: mid → Run start next (tr ++ x :: mid') y.pre →
      next (tr ++ x :: mid') y.pre y.act y.post → P mid' y.pre → P (mid' ++ [y]) y.post) →
    P mid s := by
  induction mid using List.reverseRecOn with
  | nil =>
    intro s h hx _
    rw [h.snoc_inv.2.2]
    exact hx
  | append_singleton mid y ih =>
    intro s h hx step
    rw [← List.cons_append, ← List.append_assoc] at h
    obtain ⟨hr, hn, rfl⟩ := h.snoc_inv
    refine step mid y (List.prefix_refl _) hr hn (ih hr hx fun mid' z hz => step mid' z ?_)
    exact hz.trans (List.prefix_append mid [y])

/-- What holds after step `x` and is kept by the steps behind it holds at the end. -/
theorem Run.after {P : σ → Prop} {x : Step σ α} {mid : List (Step σ α)} {s : σ}
    (h : Run start next (tr ++ x :: mid) s) (hx : P x.post)
    (step : ∀ tr', ∀ y ∈ mid, Run start next tr' y.pre → next tr' y.pre y.act y.post →
      P y.pre → P y.post) : P s := by
  refine h.after_history (P := fun _ s => P s) hx fun mid' y hy => step _ y ?_
  exact hy.subset (by simp)

/-! ## Machines given by a function

`exec a s` is the outcome of action `a` in state `s`: an error that ends the
run, or a result and the next state. -/

section Machine

variable {ι ο ε : Type*} {exec : ι → σ → Except ε (ο × σ)}
  {allowed : List (Step σ (ι × ο)) → σ → ι → Prop}

/-- The steps of a machine whose actions are restricted by `allowed`, each
recorded with its result. -/
def Exec (exec : ι → σ → Except ε (ο × σ)) (allowed : List (Step σ (ι × ο)) → σ → ι → Prop) :
    List (Step σ (ι × ο)) → σ → ι × ο → σ → Prop :=
  fun tr s a t => allowed tr s a.1 ∧ exec a.1 s = .ok (a.2, t)

/-- The steps a list of actions takes. -/
def replay (exec : ι → σ → Except ε (ο × σ)) :
    List ι → σ → Except ε (List (Step σ (ι × ο)) × σ)
  | [], s => .ok ([], s)
  | a :: as, s =>
    match exec a s with
    | .error e => .error e
    | .ok (o, t) => (replay exec as t).map fun r => (⟨s, (a, o), t⟩ :: r.1, r.2)

theorem replay_acts : ∀ (as : List ι) {tr : List (Step σ (ι × ο))} {s t : σ},
    replay exec as s = .ok (tr, t) → tr.map (fun x => x.act.1) = as
  | [], tr, s, t, h => by cases h; rfl
  | a :: as, tr, s, t, h => by
    unfold replay at h
    cases he : exec a s with
    | error e => rw [he] at h; cases h
    | ok r =>
      obtain ⟨o, u⟩ := r
      rw [he] at h
      cases hrec : replay exec as u with
      | error e => simp only [hrec, Except.map] at h; cases h
      | ok r =>
        simp only [hrec, Except.map] at h
        cases h
        rw [List.map_cons, replay_acts as hrec]

/-- A list of actions, each allowed when its turn comes, extends a run. -/
theorem Run.replay : ∀ (as : List ι) {tr tr' : List (Step σ (ι × ο))} {s t : σ},
    Run start (Exec exec allowed) tr s → Trace.replay exec as s = .ok (tr', t) →
    (∀ tr₁ x tr₂, tr' = tr₁ ++ x :: tr₂ → allowed (tr ++ tr₁) x.pre x.act.1) →
    Run start (Exec exec allowed) (tr ++ tr') t
  | [], tr, tr', s, t, h, hr, _ => by
    cases hr
    rwa [List.append_nil]
  | a :: as, tr, tr', s, t, h, hr, hal => by
    unfold Trace.replay at hr
    cases he : exec a s with
    | error e => rw [he] at hr; cases hr
    | ok r =>
      obtain ⟨o, u⟩ := r
      rw [he] at hr
      cases hrec : Trace.replay exec as u with
      | error e => simp only [hrec, Except.map] at hr; cases hr
      | ok r =>
        simp only [hrec, Except.map] at hr
        cases hr
        have hstep : Run start (Exec exec allowed) (tr ++ [⟨s, (a, o), u⟩]) u :=
          .snoc h ⟨by simpa using hal [] _ _ rfl, he⟩
        have hrest := Run.replay as hstep hrec fun tr₁ x tr₂ hx => by
          rw [List.append_assoc]
          exact hal (⟨s, (a, o), u⟩ :: tr₁) x tr₂ (by rw [hx]; rfl)
        simpa using hrest

/-- The run a list of actions takes from a start state, where what is allowed
does not depend on the history. -/
theorem Run.of_replay {ok : σ → ι → Prop} {as : List ι} {tr : List (Step σ (ι × ο))} {s t : σ}
    (hs : start s) (hr : Trace.replay exec as s = .ok (tr, t))
    (hok : ∀ x ∈ tr, ok x.pre x.act.1) :
    Run start (Exec exec fun _ s a => ok s a) tr t := by
  have h0 : Run start (Exec exec fun _ s a => ok s a) [] s := .nil hs
  have h := h0.replay as hr fun tr₁ x tr₂ hx => hok x (by rw [hx]; simp)
  rwa [List.nil_append] at h

/-- A run whose steps are all allowed. -/
theorem Run.restrict {allowed' : List (Step σ (ι × ο)) → σ → ι → Prop} {ok : σ → ι → Prop}
    {tr : List (Step σ (ι × ο))} {s : σ} (h : Run start (Exec exec allowed') tr s)
    (hok : ∀ x ∈ tr, ok x.pre x.act.1) : Run start (Exec exec fun _ s a => ok s a) tr s := by
  induction h with
  | nil hs => exact .nil hs
  | snoc _ hn ih =>
    refine .snoc (ih fun x hx => hok x (List.mem_append_left _ hx)) ⟨?_, hn.2⟩
    exact hok _ (List.mem_append_right _ List.mem_cons_self)

/-- A computable test of the run a list of actions takes. -/
def replayTest (exec : ι → σ → Except ε (ο × σ)) (as : List ι) (s : σ)
    (P : List (Step σ (ι × ο)) → σ → Bool) : Bool :=
  match replay exec as s with
  | .ok r => P r.1 r.2
  | .error _ => false

theorem of_replayTest {as : List ι} {s : σ} {P : List (Step σ (ι × ο)) → σ → Bool}
    (h : replayTest exec as s P = true) :
    ∃ tr t, replay exec as s = .ok (tr, t) ∧ P tr t = true := by
  unfold replayTest at h
  split at h
  · rename_i r hr
    exact ⟨r.1, r.2, hr, h⟩
  · cases h

/-- The steps a list of actions takes from the end of a history, where `ok` lets
each of them. -/
def walk (exec : ι → σ → Except ε (ο × σ)) (ok : List (Step σ (ι × ο)) → σ → ι → Bool) :
    List ι → List (Step σ (ι × ο)) → σ → Option (List (Step σ (ι × ο)) × σ)
  | [], tr, s => some (tr, s)
  | a :: as, tr, s =>
    if ok tr s a then
      match exec a s with
      | .ok (o, t) => walk exec ok as (tr ++ [⟨s, (a, o), t⟩]) t
      | .error _ => none
    else none

theorem Run.walk {ok : List (Step σ (ι × ο)) → σ → ι → Bool}
    (hok : ∀ tr s a, ok tr s a = true → allowed tr s a) :
    ∀ (as : List ι) {tr tr' : List (Step σ (ι × ο))} {s t : σ},
      Run start (Exec exec allowed) tr s → Trace.walk exec ok as tr s = some (tr', t) →
      Run start (Exec exec allowed) tr' t
  | [], tr, tr', s, t, h, hw => by cases hw; exact h
  | a :: as, tr, tr', s, t, h, hw => by
    unfold Trace.walk at hw
    split at hw
    · rename_i ha
      split at hw
      · rename_i o u he
        exact Run.walk hok as (.snoc h ⟨hok _ _ _ ha, he⟩) hw
      · cases hw
    · cases hw

/-- The run a list of actions takes from a start state, where each action is allowed
when its turn comes, with what a test says about it. -/
theorem Run.of_walk [∀ tr s a, Decidable (allowed tr s a)] {as : List ι} {s : σ}
    {P : List (Step σ (ι × ο)) × σ → Bool} (hs : start s)
    (h : (Trace.walk exec (fun tr s a => decide (allowed tr s a)) as [] s).any P = true) :
    ∃ r, Run start (Exec exec allowed) r.1 r.2 ∧ P r = true := by
  rw [Option.any_eq_true] at h
  obtain ⟨r, hw, hP⟩ := h
  exact ⟨r, Run.walk (fun _ _ _ => of_decide_eq_true) as (.nil hs) hw, hP⟩

/-- The steps a list of inputs takes, each an action in the state it meets. -/
def drive {β : Type*} (exec : ι → σ → Except ε (ο × σ)) (action : β → σ → ι) :
    List β → List (Step σ (ι × ο)) → σ → Option (List (Step σ (ι × ο)) × σ)
  | [], tr, s => some (tr, s)
  | b :: bs, tr, s =>
    match exec (action b s) s with
    | .ok (o, t) => drive exec action bs (tr ++ [⟨s, (action b s, o), t⟩]) t
    | .error _ => none

theorem Run.drive {β : Type*} {action : β → σ → ι} :
    ∀ (bs : List β) {tr tr' : List (Step σ (ι × ο))} {s t : σ},
      (∀ b ∈ bs, ∀ tr s, Run start (Exec exec allowed) tr s → allowed tr s (action b s)) →
      Run start (Exec exec allowed) tr s → Trace.drive exec action bs tr s = some (tr', t) →
      Run start (Exec exec allowed) tr' t
  | [], tr, tr', s, t, _, h, hd => by cases hd; exact h
  | b :: bs, tr, tr', s, t, hok, h, hd => by
    unfold Trace.drive at hd
    obtain ⟨hb, hbs⟩ := List.forall_mem_cons.mp hok
    split at hd
    · rename_i o u he
      exact Run.drive bs hbs (.snoc h ⟨hb tr s h, he⟩) hd
    · cases hd

end Machine

end Trace
