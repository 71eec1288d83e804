import Mathlib.Logic.Function.Basic
import Mathlib.Data.List.Basic
import Mathlib.Data.Nat.ModEq

/-! # Circular stores

A circular store keeps `size` values in `cap` cells, starting at `head` and
wrapping. `window` reads them off as a list; the lemmas say what writing the
cell at `tail` and advancing an index do to that list. The cells are a function
of the index, so one development serves every element type and capacity, and a
user of it keeps whatever record the indices live in.
-/
namespace Circular

variable {α : Type*} {cap head tail size : Nat}

/-- The index after `i`, back to 0 at the end of the cells. -/
def next (cap i : Nat) : Nat := if i + 1 = cap then 0 else i + 1

theorem next_eq_mod (h : head < cap) : next cap head = (head + 1) % cap := by
  unfold next
  split
  · rename_i he; rw [he, Nat.mod_self]
  · rw [Nat.mod_eq_of_lt (by omega)]

theorem next_lt (h : head < cap) : next cap head < cap := by
  unfold next; split <;> omega

/-- The stored values, oldest first. -/
def window (cells : Nat → α) (cap head size : Nat) : List α :=
  (List.range size).map fun i => cells ((head + i) % cap)

@[simp] theorem window_length (cells : Nat → α) :
    (window cells cap head size).length = size := by simp [window]

@[simp] theorem window_zero (cells : Nat → α) : window cells cap head 0 = [] := rfl

theorem window_congr {cells cells' : Nat → α}
    (h : ∀ i, i < size → cells ((head + i) % cap) = cells' ((head + i) % cap)) :
    window cells cap head size = window cells' cap head size := by
  unfold window
  apply List.map_congr_left
  intro i hi
  exact h i (List.mem_range.mp hi)

/-- The indices of a circular store fit together. -/
structure Valid (cap head tail size : Nat) : Prop where
  head_lt : head < cap
  size_le : size ≤ cap
  tail_eq : tail = (head + size) % cap

theorem Valid.tail_lt (h : Valid cap head tail size) : tail < cap := by
  rw [h.tail_eq]; exact Nat.mod_lt _ (by have := h.head_lt; omega)

theorem Valid.empty (h : 0 < cap) : Valid cap 0 0 0 :=
  ⟨h, Nat.zero_le _, (Nat.zero_mod cap).symm⟩

theorem Valid.push (h : Valid cap head tail size) (hs : size < cap) :
    Valid cap head (next cap tail) (size + 1) := by
  refine ⟨h.head_lt, hs, ?_⟩
  rw [next_eq_mod h.tail_lt, h.tail_eq, Nat.mod_add_mod, Nat.add_assoc]

theorem Valid.pop (h : Valid cap head tail size) (hs : 0 < size) :
    Valid cap (next cap head) tail (size - 1) := by
  refine ⟨next_lt h.head_lt, by have := h.size_le; omega, ?_⟩
  rw [next_eq_mod h.head_lt, Nat.mod_add_mod, h.tail_eq]
  congr 1; omega

/-- Offsets below the capacity address different cells. -/
theorem offset_ne (head : Nat) {i j : Nat} (hi : i < cap) (hj : j < cap) (h : i ≠ j) :
    (head + i) % cap ≠ (head + j) % cap := by
  intro he
  have hm : i % cap = j % cap := Nat.ModEq.add_left_cancel' head he
  rw [Nat.mod_eq_of_lt hi, Nat.mod_eq_of_lt hj] at hm
  exact h hm

/-- Writing the tail cell appends. -/
theorem window_push (cells : Nat → α) (x : α) (h : Valid cap head tail size) (hs : size < cap) :
    window (Function.update cells tail x) cap head (size + 1) =
      window cells cap head size ++ [x] := by
  have hold : window (Function.update cells tail x) cap head size = window cells cap head size := by
    apply window_congr
    intro i hi
    rw [h.tail_eq, Function.update_of_ne (offset_ne head (by omega) hs (by omega))]
  have hnew : window (Function.update cells tail x) cap head (size + 1) =
      window (Function.update cells tail x) cap head size ++ [x] := by
    simp [window, List.range_succ, h.tail_eq]
  rw [hnew, hold]

/-- Advancing the head drops the oldest value. -/
theorem window_pop (cells : Nat → α) (h : Valid cap head tail size) (hs : 0 < size) :
    window cells cap head size = cells head :: window cells cap (next cap head) (size - 1) := by
  obtain ⟨n, rfl⟩ : ∃ n, size = n + 1 := ⟨size - 1, by omega⟩
  simp only [window, List.range_succ_eq_map, List.map_cons, List.map_map, Nat.add_zero,
    Nat.add_sub_cancel, Nat.mod_eq_of_lt h.head_lt]
  congr 1
  apply List.map_congr_left
  intro i _
  simp only [Function.comp, next_eq_mod h.head_lt, Nat.mod_add_mod]
  congr 2; omega

/-- Clearing the cell just dropped is invisible. -/
theorem window_clear (cells : Nat → α) (x : α) (h : Valid cap head tail size) (hs : 0 < size) :
    window (Function.update cells head x) cap (next cap head) (size - 1) =
      window cells cap (next cap head) (size - 1) := by
  apply window_congr
  intro i hi
  have hsz := h.size_le
  rw [next_eq_mod h.head_lt, Nat.mod_add_mod, Nat.add_assoc]
  have hne : (head + (1 + i)) % cap ≠ (head + 0) % cap :=
    offset_ne head (by omega) (by omega) (by omega)
  rw [Nat.add_zero, Nat.mod_eq_of_lt h.head_lt] at hne
  exact Function.update_of_ne hne _ _

end Circular
