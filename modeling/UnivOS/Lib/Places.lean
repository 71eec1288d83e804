import Mathlib.Logic.Function.Basic
import Mathlib.Data.Finset.Card

/-! # Tokens in places

Tokens of a type `α` wait in places of a type `ι`, each place a list. `Exact`:
a token is in at most one place, once, and `loc` says in which. The one step is
`Moved`: a token leaves the place it heads and joins another at its end, where
either of them may be missing.
-/
namespace Places

variable {ι α : Type*} {l l' : ι → List α} {loc : α → Option ι} {i : ι} {x : α}
  {src dst : Option ι}

structure Exact (l : ι → List α) (loc : α → Option ι) : Prop where
  nodup : ∀ i, (l i).Nodup
  mem_iff : ∀ i x, x ∈ l i ↔ loc x = some i

theorem Exact.unique (h : Exact l loc) {j : ι} (hi : x ∈ l i) (hj : x ∈ l j) : i = j := by
  rw [h.mem_iff] at hi hj
  rw [hi] at hj
  exact Option.some.inj hj

/-- A place holds no more tokens than there are. -/
theorem Exact.length_le (h : Exact l loc) (s : Finset α) (hs : ∀ x, loc x ≠ none → x ∈ s) (i : ι) :
    (l i).length ≤ s.card := by
  classical
  rw [← List.toFinset_card_of_nodup (h.nodup i)]
  refine Finset.card_le_card fun x hx => hs x ?_
  rw [(h.mem_iff i x).mp (List.mem_toFinset.mp hx)]
  exact nofun

section Moves

variable [DecidableEq ι]

structure Moved (l l' : ι → List α) (x : α) (src dst : Option ι) : Prop where
  head : ∀ i, src = some i → (l i).head? = some x
  after : ∀ i, l' i =
    (if src = some i then (l i).tail else l i) ++ if dst = some i then [x] else []

/-- What is left when the token has gone. -/
theorem Exact.rest (h : Exact l loc) (hx : loc x = src)
    (hhead : ∀ i, src = some i → (l i).head? = some x) (i : ι) :
    (if src = some i then (l i).tail else l i).Nodup ∧
      ∀ y, y ∈ (if src = some i then (l i).tail else l i) ↔ y ≠ x ∧ loc y = some i := by
  have hnd := h.nodup i
  by_cases hs : src = some i
  · obtain ⟨r, hr⟩ := List.head?_eq_some_iff.mp (hhead i hs)
    rw [hr, List.nodup_cons] at hnd
    rw [if_pos hs, hr, List.tail_cons]
    refine ⟨hnd.2, fun y => ?_⟩
    rw [← h.mem_iff, hr, List.mem_cons]
    constructor
    · intro hy
      exact ⟨fun he => hnd.1 (he ▸ hy), .inr hy⟩
    · intro hy
      exact hy.2.resolve_left hy.1
  · rw [if_neg hs]
    refine ⟨hnd, fun y => ?_⟩
    rw [h.mem_iff]
    constructor
    · intro hy
      refine ⟨fun he => hs ?_, hy⟩
      rw [← hx, ← he, hy]
    · exact And.right

/-- A move takes the token where it goes, and only that one. -/
theorem Exact.moved [DecidableEq α] (h : Exact l loc) (hx : src = none → loc x = none)
    (hm : Moved l l' x src dst) : loc x = src ∧ Exact l' (Function.update loc x dst) := by
  have hloc : loc x = src := by
    cases src with
    | none => exact hx rfl
    | some i =>
      obtain ⟨r, hr⟩ := List.head?_eq_some_iff.mp (hm.head i rfl)
      exact (h.mem_iff i x).mp (hr ▸ List.mem_cons_self)
  refine ⟨hloc, fun i => ?_, fun i y => ?_⟩
  · obtain ⟨hnd, hmem⟩ := h.rest hloc hm.head i
    rw [hm.after, List.nodup_append]
    refine ⟨hnd, by split <;> simp, ?_⟩
    intro a ha b hb he
    split at hb
    · exact ((hmem a).mp ha).1 (he.trans (List.mem_singleton.mp hb))
    · cases hb
  · obtain ⟨_, hmem⟩ := h.rest hloc hm.head i
    rw [hm.after, List.mem_append, hmem]
    by_cases hy : y = x
    · rw [hy, Function.update_self]
      split <;> simp [*]
    · rw [Function.update_of_ne hy]
      split <;> simp [hy]

end Moves

end Places
