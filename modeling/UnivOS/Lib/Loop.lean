import Mathlib.Data.List.Range

/-! # Computations that can halt

`Except` computations taken apart, and the invariant rule of a counted loop
whose body can halt: the body preserves the invariant without halting, so the
loop runs to its end.
-/
namespace Loop

universe u v

variable {ε : Type v} {α β σ : Type u}

theorem bind_eq_ok {x : Except ε α} {f : α → Except ε β} {b : β} :
    (x >>= f) = .ok b ↔ ∃ a, x = .ok a ∧ f a = .ok b := by
  cases x with
  | error e => simp [bind, Except.bind]
  | ok a => simp [bind, Except.bind]

theorem bind_eq_error {x : Except ε α} {f : α → Except ε β} {e : ε} :
    (x >>= f) = .error e ↔ x = .error e ∨ ∃ a, x = .ok a ∧ f a = .error e := by
  cases x with
  | error e => simp [bind, Except.bind]
  | ok a => simp [bind, Except.bind]

theorem map_eq_ok {x : Except ε α} {f : α → β} {b : β} :
    x.map f = .ok b ↔ ∃ a, x = .ok a ∧ f a = b := by
  cases x <;> simp [Except.map]

@[simp] theorem ok_bind (a : α) (f : α → Except ε β) :
    ((Except.ok a : Except ε α) >>= f) = f a := rfl

@[simp] theorem error_bind (e : ε) (f : α → Except ε β) :
    ((Except.error e : Except ε α) >>= f) = .error e := rfl

/-- The outcome of a computation that passes a test. -/
theorem of_any {x : Except ε α} {P : α → Bool} (h : x.toOption.any P = true) :
    ∃ a, x = .ok a ∧ P a = true := by
  cases x with
  | error e => cases h
  | ok a => exact ⟨a, rfl, h⟩

/-- `inv i` holds before round `i` of the loop `for (i = 0; i < n; i++)`. -/
theorem range_ok {f : σ → Nat → Except ε σ} {n : Nat} {s : σ} (inv : Nat → σ → Prop)
    (init : inv 0 s)
    (step : ∀ i, i < n → ∀ s, inv i s → ∃ t, f s i = .ok t ∧ inv (i + 1) t) :
    ∃ t, (List.range n).foldlM f s = .ok t ∧ inv n t := by
  induction n with
  | zero => exact ⟨s, rfl, init⟩
  | succ n ih =>
    obtain ⟨t, ht, hinv⟩ := ih fun i hi => step i (by omega)
    obtain ⟨u, hu, hinv'⟩ := step n (by omega) t hinv
    refine ⟨u, ?_, hinv'⟩
    rw [List.range_succ, List.foldlM_append, ht, ok_bind, List.foldlM_cons, hu, ok_bind]
    rfl

/-- A loop whose rounds never halt does not halt. -/
theorem range_returns {f : σ → Nat → Except ε σ} {n : Nat} (s : σ)
    (step : ∀ i, i < n → ∀ s, ∃ t, f s i = .ok t) : ∃ t, (List.range n).foldlM f s = .ok t := by
  obtain ⟨t, ht, _⟩ := range_ok (f := f) (n := n) (s := s) (fun _ _ => True) trivial
    fun i hi s _ => (step i hi s).imp fun _ h => ⟨h, trivial⟩
  exact ⟨t, ht⟩

/-- What every round that does not halt preserves, a loop over a list that does not
halt preserves. -/
theorem foldlM_inv {α : Type} {f : σ → α → Except ε σ} (inv : σ → Prop)
    (step : ∀ s a t, inv s → f s a = .ok t → inv t) :
    ∀ (l : List α) {s t : σ}, inv s → l.foldlM f s = .ok t → inv t
  | [], s, t, hs, h => by cases h; exact hs
  | a :: l, s, t, hs, h => by
    rw [List.foldlM_cons] at h
    obtain ⟨u, hu, hrest⟩ := bind_eq_ok.mp h
    exact foldlM_inv inv step l (step s a u hs hu) hrest

/-- A loop over a list whose body never halts does not halt. -/
theorem foldlM_returns {α : Type} {f : σ → α → Except ε σ} (h : ∀ s a, ∃ t, f s a = .ok t) :
    ∀ (l : List α) (s : σ), ∃ t, l.foldlM f s = .ok t
  | [], s => ⟨s, rfl⟩
  | a :: l, s => by
    obtain ⟨t, ht⟩ := h s a
    rw [List.foldlM_cons, ht, ok_bind]
    exact foldlM_returns h l t

/-- A body that does what another one does, where that one does not halt. -/
theorem foldlM_mono {α : Type} {f g : σ → α → Except ε σ}
    (h : ∀ s a t, f s a = .ok t → g s a = .ok t) :
    ∀ (l : List α) {s t : σ}, l.foldlM f s = .ok t → l.foldlM g s = .ok t
  | [], _, _, ht => ht
  | a :: l, s, t, ht => by
    rw [List.foldlM_cons] at ht ⊢
    obtain ⟨u, hu, hrest⟩ := bind_eq_ok.mp ht
    rw [h s a u hu, ok_bind]
    exact foldlM_mono h l hrest

/-! ## Loops with a condition -/

/-- `while (cond) body`, with at most `fuel` rounds. -/
def whileM (cond : σ → Bool) (body : σ → Except ε σ) : Nat → σ → Except ε σ
  | 0, s => .ok s
  | fuel + 1, s => if cond s then body s >>= whileM cond body fuel else .ok s

theorem whileM_false {cond : σ → Bool} {body : σ → Except ε σ} {s : σ} (h : cond s = false)
    (fuel : Nat) : whileM cond body fuel s = .ok s := by
  cases fuel with
  | zero => rfl
  | succ fuel =>
    rw [whileM, h]
    rfl

/-- What the body preserves without halting, the loop preserves without halting. -/
theorem whileM_ok {cond : σ → Bool} {body : σ → Except ε σ} (inv : σ → Prop)
    (step : ∀ s, cond s = true → inv s → ∃ t, body s = .ok t ∧ inv t) :
    ∀ (fuel : Nat) (s : σ), inv s → ∃ t, whileM cond body fuel s = .ok t ∧ inv t
  | 0, s, hs => ⟨s, rfl, hs⟩
  | fuel + 1, s, hs => by
    rw [whileM]
    cases hc : cond s with
    | false => exact ⟨s, rfl, hs⟩
    | true =>
      obtain ⟨t, ht, hinv⟩ := step s hc hs
      rw [if_pos rfl, ht, ok_bind]
      exact whileM_ok inv step fuel t hinv

/-- What every round that does not halt preserves, a loop that does not halt preserves. -/
theorem whileM_inv {cond : σ → Bool} {body : σ → Except ε σ} (inv : σ → Prop)
    (step : ∀ s t, cond s = true → inv s → body s = .ok t → inv t) :
    ∀ (fuel : Nat) {s t : σ}, inv s → whileM cond body fuel s = .ok t → inv t
  | 0, s, t, hs, h => by
    cases h
    exact hs
  | fuel + 1, s, t, hs, h => by
    rw [whileM] at h
    split at h
    · rename_i hc
      obtain ⟨u, hu, hrest⟩ := bind_eq_ok.mp h
      exact whileM_inv inv step fuel (step s u hc hs hu) hrest
    · cases h
      exact hs

/-- A loop that does not halt has ended by itself, if its rounds lower a measure and
there is fuel for the measure it starts with. -/
theorem whileM_done {cond : σ → Bool} {body : σ → Except ε σ} (inv : σ → Prop)
    (measure : σ → Nat)
    (step : ∀ s t, cond s = true → inv s → body s = .ok t → inv t ∧ measure t < measure s) :
    ∀ (fuel : Nat) {s t : σ}, inv s → measure s ≤ fuel → whileM cond body fuel s = .ok t →
      inv t ∧ (cond t = true → measure t = 0)
  | 0, s, t, hs, hf, h => by
    cases h
    exact ⟨hs, fun _ => Nat.le_zero.mp hf⟩
  | fuel + 1, s, t, hs, hf, h => by
    rw [whileM] at h
    split at h
    · rename_i hc
      obtain ⟨u, hu, hrest⟩ := bind_eq_ok.mp h
      obtain ⟨hinv, hlt⟩ := step s u hc hs hu
      exact whileM_done inv measure step fuel hinv (by omega) hrest
    · rename_i hc
      cases h
      exact ⟨hs, fun hc' => absurd hc' hc⟩

/-! ## Loops with a moving bound

`for (i = 0; i < bound; i++)` where the body may change the bound. -/

/-- The loop, with at most `fuel` rounds left and the counter at `i`. -/
def live (bound : σ → Nat) (body : σ → Except ε σ) : Nat → Nat → σ → Except ε σ
  | 0, _, s => .ok s
  | fuel + 1, i, s => if i < bound s then body s >>= live bound body fuel (i + 1) else .ok s

theorem live_of_le {bound : σ → Nat} {body : σ → Except ε σ} {i : Nat} {s : σ} (h : bound s ≤ i)
    (fuel : Nat) : live bound body fuel i s = .ok s := by
  cases fuel with
  | zero => rfl
  | succ fuel => rw [live, if_neg (Nat.not_lt.mpr h)]

/-- Where the bound never passes `N`, fuel beyond `N` rounds changes nothing: the
loop has ended by itself. -/
theorem live_fuel {bound : σ → Nat} {body : σ → Except ε σ} {N : Nat} (hN : ∀ s, bound s ≤ N) :
    ∀ (fuel i : Nat) (s : σ), N ≤ fuel + i →
      live bound body (fuel + 1) i s = live bound body fuel i s
  | 0, i, s, h => by
    have := hN s
    exact if_neg (by omega)
  | fuel + 1, i, s, h => by
    rw [live, live]
    congr 2
    funext t
    exact live_fuel hN fuel (i + 1) t (by omega)

/-- What the body preserves, whenever it is run, the loop preserves. -/
theorem live_ok {bound : σ → Nat} {body : σ → Except ε σ} (inv : σ → Prop)
    (step : ∀ s, 0 < bound s → inv s → ∃ t, body s = .ok t ∧ inv t) :
    ∀ (fuel i : Nat) (s : σ), inv s → ∃ t, live bound body fuel i s = .ok t ∧ inv t
  | 0, _, s, h => ⟨s, rfl, h⟩
  | fuel + 1, i, s, h => by
    rw [live]
    by_cases hi : i < bound s
    · obtain ⟨t, ht, hinv⟩ := step s (by omega) h
      rw [if_pos hi, ht, ok_bind]
      exact live_ok inv step fuel (i + 1) t hinv
    · exact ⟨s, by rw [if_neg hi], h⟩

/-- What every round that does not halt preserves, told its number, a loop that does
not halt preserves. -/
theorem live_rounds {bound : σ → Nat} {body : σ → Except ε σ} (inv : Nat → σ → Prop)
    (step : ∀ i s t, i < bound s → inv i s → body s = .ok t → inv (i + 1) t) :
    ∀ (fuel i : Nat) {s t : σ}, inv i s → live bound body fuel i s = .ok t → ∃ n, inv n t
  | 0, i, s, t, hs, h => by cases h; exact ⟨i, hs⟩
  | fuel + 1, i, s, t, hs, h => by
    rw [live] at h
    split at h
    · rename_i hi
      obtain ⟨u, hu, hrest⟩ := bind_eq_ok.mp h
      exact live_rounds inv step fuel (i + 1) (step i s u hi hs hu) hrest
    · cases h; exact ⟨i, hs⟩

theorem live_inv {bound : σ → Nat} {body : σ → Except ε σ} (inv : σ → Prop)
    (step : ∀ s t, inv s → body s = .ok t → inv t) (fuel i : Nat) {s t : σ} (hs : inv s)
    (h : live bound body fuel i s = .ok t) : inv t := by
  obtain ⟨_, ht⟩ := live_rounds (fun _ => inv) (fun _ s t _ => step s t) fuel i hs h
  exact ht

/-- Rounds that serve the items of a list in turn, where the bound counts the items
left and those served ones that are put back: the loop serves the whole list exactly
if every item but the last is put back. -/
theorem live_queue {α : Type} {bound : σ → Nat} {body : σ → Except ε σ} (keep : α → Bool)
    (inv : List α → List α → σ → Prop)
    (hbound : ∀ served rest s, inv served rest s →
      bound s = rest.length + (served.filter keep).length)
    (step : ∀ served x rest s, inv served (x :: rest) s →
      ∃ t, body s = .ok t ∧ inv (served ++ [x]) rest t) :
    ∀ (rest served : List α) (fuel : Nat) (s : σ), inv served rest s → rest.length ≤ fuel →
      ∃ served' rest' t, served ++ rest = served' ++ rest' ∧
        live bound body fuel served.length s = .ok t ∧ inv served' rest' t ∧
        (rest' = [] ↔ rest = [] ∨ ∀ x ∈ served ++ rest.dropLast, keep x = true)
  | [], served, fuel, s, h, _ => by
    have hkept := List.length_filter_le keep served
    have hb := hbound served [] s h
    rw [List.length_nil] at hb
    exact ⟨served, [], s, rfl, live_of_le (by omega) fuel, h, iff_of_true rfl (.inl rfl)⟩
  | x :: rest, served, 0, s, h, hf => absurd hf (Nat.not_succ_le_zero _)
  | x :: rest, served, fuel + 1, s, h, hf => by
    have hkept := List.length_filter_le keep served
    have hall := List.length_filter_eq_length_iff (l := served) (p := keep)
    have hb := hbound served (x :: rest) s h
    rw [List.length_cons] at hb
    rw [live]
    by_cases hi : served.length < bound s
    · obtain ⟨t, ht, hinv⟩ := step served x rest s h
      obtain ⟨served', rest', u, hsplit, hu, hinv', hiff⟩ := live_queue keep inv hbound step
        rest (served ++ [x]) fuel t hinv (Nat.le_of_succ_le_succ hf)
      rw [List.length_append, List.length_singleton] at hu
      refine ⟨served', rest', u, ?_, ?_, hinv', hiff.trans ?_⟩
      · rw [← hsplit, List.append_assoc, List.singleton_append]
      · rw [if_pos hi, ht, ok_bind, hu]
      · cases rest with
        | nil =>
          -- the last item is served only if no earlier one was dropped
          refine iff_of_true (.inl rfl) (.inr ?_)
          rw [List.dropLast_singleton, List.append_nil, ← hall]
          rw [List.length_nil] at hb
          omega
        | cons y rest =>
          simp only [reduceCtorEq, false_or, List.dropLast_cons_cons, List.append_assoc,
            List.singleton_append]
    · refine ⟨served, x :: rest, s, rfl, by rw [if_neg hi], h, ?_⟩
      refine iff_of_false (List.cons_ne_nil x rest) ?_
      rintro (hnil | hkeep)
      · exact List.cons_ne_nil x rest hnil
      · have := hall.mpr fun y hy => hkeep y (List.mem_append_left _ hy)
        omega

end Loop
