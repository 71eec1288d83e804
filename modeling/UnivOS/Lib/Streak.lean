import Mathlib.Data.List.DropRight

/-! # Streaks

How many elements at the end of a list pass a test, one after the other: what a counter
holds that goes up with each element that passes and back to 0 with every other one.
-/
namespace Streak

variable {α : Type*} {p q : α → Prop} [DecidablePred p] [DecidablePred q]

/-- The number of elements behind the last one that fails the test. -/
def streak (p : α → Prop) [DecidablePred p] (l : List α) : Nat :=
  (l.rtakeWhile fun a => decide (p a)).length

@[simp] theorem streak_nil : streak p [] = 0 := rfl

theorem streak_snoc (l : List α) (a : α) :
    streak p (l ++ [a]) = if p a then streak p l + 1 else 0 := by
  by_cases h : p a
  · simp [streak, h]
  · simp [streak, h]

/-- Elements that are left out make no difference. -/
theorem streak_filter_snoc (l : List α) (a : α) :
    streak p ((l ++ [a]).filter q) =
      if q a then (if p a then streak p (l.filter q) + 1 else 0) else streak p (l.filter q) := by
  rw [List.filter_append]
  by_cases h : q a
  · simp [h, streak_snoc]
  · simp [h]

/-- A streak gets no shorter where only elements that fail the test are left out. -/
theorem streak_le_filter (h : ∀ a, p a → q a) (l : List α) :
    streak p l ≤ streak p (l.filter q) := by
  induction l using List.reverseRecOn with
  | nil => simp
  | append_singleton l a ih =>
    rw [streak_snoc, streak_filter_snoc]
    by_cases hp : p a
    · rw [if_pos hp, if_pos (h a hp), if_pos hp]
      omega
    · rw [if_neg hp]
      omega

end Streak
