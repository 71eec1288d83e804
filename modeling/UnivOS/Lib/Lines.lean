import Mathlib.Data.List.Induction

/-! # Texts as lines

A text is cut into lines by `List.splitOn`; its last line is still open. A
separator closes it, any other character extends it, and no line ever gets
shorter.
-/
namespace Lines

variable {α : Type*}

section Split

variable [DecidableEq α] {sep : α}

theorem splitOn_sep (sep : α) (s : List α) :
    (s ++ [sep]).splitOn sep = s.splitOn sep ++ [[]] := by
  rw [List.splitOn_append_cons_self, List.splitOn_nil]

/-- Text without a separator goes to the end of the open line. -/
theorem splitOn_open (sep : α) (s : List α) : ∃ closed cur,
    ∀ t, sep ∉ t → (s ++ t).splitOn sep = closed ++ [cur ++ t] := by
  induction s using List.reverseRecOn with
  | nil => exact ⟨[], [], fun t ht => List.splitOn_eq_singleton ht⟩
  | append_singleton s x ih =>
    by_cases hx : x = sep
    · subst hx
      refine ⟨s.splitOn x, [], fun t ht => ?_⟩
      rw [List.append_assoc, List.singleton_append, List.splitOn_append_cons_self,
        List.splitOn_eq_singleton ht, List.nil_append]
    · obtain ⟨closed, cur, ih⟩ := ih
      refine ⟨closed, cur ++ [x], fun t ht => ?_⟩
      rw [List.append_assoc, List.append_assoc, ih]
      intro hmem
      rcases List.mem_append.mp hmem with h | h
      · exact hx (List.mem_singleton.mp h).symm
      · exact ht h

/-- No line of the text is longer than `w`. -/
def Within (sep : α) (w : Nat) (s : List α) : Prop := ∀ l ∈ s.splitOn sep, l.length ≤ w

instance (sep : α) (w : Nat) (s : List α) : Decidable (Within sep w s) :=
  inferInstanceAs (Decidable (∀ l ∈ s.splitOn sep, l.length ≤ w))

theorem Within.of_snoc {w : Nat} {s : List α} {x : α} (h : Within sep w (s ++ [x])) :
    Within sep w s := by
  intro l hl
  by_cases hx : x = sep
  · subst hx
    refine h l ?_
    rw [splitOn_sep]
    exact List.mem_append_left _ hl
  · obtain ⟨closed, cur, hopen⟩ := splitOn_open sep s
    have hs := hopen [] List.not_mem_nil
    have hsx := hopen [x] fun hmem => hx (List.mem_singleton.mp hmem).symm
    rw [List.append_nil, List.append_nil] at hs
    rw [hs] at hl
    rcases List.mem_append.mp hl with hl | hl
    · refine h l ?_
      rw [hsx]
      exact List.mem_append_left _ hl
    · have hcur := h (cur ++ [x]) (by rw [hsx]; simp)
      rw [List.mem_singleton.mp hl]
      rw [List.length_append] at hcur
      omega

theorem Within.of_append {w : Nat} {s t : List α} (h : Within sep w (s ++ t)) : Within sep w s := by
  induction t using List.reverseRecOn with
  | nil => rwa [List.append_nil] at h
  | append_singleton t x ih =>
    rw [← List.append_assoc] at h
    exact ih h.of_snoc

end Split

/-! ## A window over the last lines -/

/-- What row `y` of a screen of `h` rows shows: the last lines, from the top. -/
def row (h : Nat) (ls : List (List α)) (y : Nat) : List α := (ls.drop (ls.length - h))[y]?.getD []

theorem row_eq (h : Nat) (ls : List (List α)) (y : Nat) :
    row h ls y = ls[ls.length - h + y]?.getD [] := by
  rw [row, List.getElem?_drop]

/-- An empty last line shows nothing. -/
theorem getD_snoc_nil (ls : List (List α)) (n : Nat) : (ls ++ [[]])[n]?.getD [] = ls[n]?.getD [] := by
  rw [List.getElem?_append]
  split
  · rfl
  · rename_i hn
    rw [List.getElem?_eq_none (Nat.le_of_not_lt hn)]
    cases n - ls.length <;> rfl

/-- While there is room below the last line, a new line moves none. -/
theorem row_snoc_nil_of_lt {h : Nat} {ls : List (List α)} (hlt : ls.length < h) (y : Nat) :
    row h (ls ++ [[]]) y = row h ls y := by
  have htop : (ls ++ [[]]).length - h = ls.length - h := by
    rw [List.length_append, List.length_singleton]
    omega
  rw [row_eq, row_eq, htop, getD_snoc_nil]

/-- On a full screen, a new line moves every line up. -/
theorem row_snoc_nil_of_le {h : Nat} {ls : List (List α)} (hle : h ≤ ls.length) (y : Nat) :
    row h (ls ++ [[]]) y = row h ls (y + 1) := by
  have htop : (ls ++ [[]]).length - h + y = ls.length - h + (y + 1) := by
    rw [List.length_append, List.length_singleton]
    omega
  rw [row_eq, row_eq, htop, getD_snoc_nil]

/-- There is no row below the last line. -/
theorem row_of_le {h : Nat} {ls : List (List α)} {y : Nat} (hle : ls.length ≤ ls.length - h + y) :
    row h ls y = [] := by
  rw [row_eq, List.getElem?_eq_none hle]
  rfl

/-- The open line is on the row of the cursor. -/
theorem row_open {h : Nat} (hh : 0 < h) (closed : List (List α)) (cur : List α) :
    row h (closed ++ [cur]) (min closed.length (h - 1)) = cur := by
  have hidx : (closed ++ [cur]).length - h + min closed.length (h - 1) = closed.length := by
    rw [List.length_append, List.length_singleton]
    omega
  rw [row_eq, hidx, List.getElem?_concat_length]
  rfl

/-- Every other row does not depend on the open line. -/
theorem row_open_ne {h y : Nat} (closed : List (List α)) (cur cur' : List α)
    (hne : y ≠ min closed.length (h - 1)) :
    row h (closed ++ [cur]) y = row h (closed ++ [cur']) y := by
  have hlen : ∀ l : List α, (closed ++ [l]).length - h + y ≠ closed.length := by
    intro l
    rw [List.length_append, List.length_singleton]
    omega
  have hdrop : ∀ l : List α, row h (closed ++ [l]) y =
      closed[closed.length + 1 - h + y]?.getD [] := by
    intro l
    have hl := hlen l
    rw [List.length_append, List.length_singleton] at hl
    rw [row_eq, List.length_append, List.length_singleton, List.getElem?_append]
    split
    · rfl
    · rename_i hn
      rw [List.getElem?_eq_none (Nat.le_of_not_lt hn), List.getElem?_eq_none]
      rw [List.length_singleton]
      omega
  rw [hdrop, hdrop]

end Lines
