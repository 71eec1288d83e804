import Mathlib.Data.Finset.Image
import Mathlib.Data.Fintype.Card
import Mathlib.Data.Int.Basic

/-! # Pools of table ids

An allocator keeps the free indices of a table of `n` entries in a list of
integers. `Exact l free`: the list holds each free index once and nothing else.
The lemmas are the moves of an allocator: the first id is taken, an id is given
back, and the count of ids is the count of free entries.
-/
namespace IdPool

variable {n : Nat} {l : List Int} {free free' : Fin n → Prop} {i : Fin n} {id : Int}

structure Exact (l : List Int) (free : Fin n → Prop) : Prop where
  nodup : l.Nodup
  mem_iff : ∀ id : Int, id ∈ l ↔ ∃ i : Fin n, ((i : Nat) : Int) = id ∧ free i

theorem val_inj {i j : Fin n} : ((i : Nat) : Int) = ((j : Nat) : Int) ↔ i = j := by
  rw [Int.ofNat_inj, Fin.ext_iff]

theorem Exact.mem_val (h : Exact l free) : ((i : Nat) : Int) ∈ l ↔ free i := by
  rw [h.mem_iff]
  constructor
  · rintro ⟨j, hj, hf⟩; exact val_inj.mp hj ▸ hf
  · intro hf; exact ⟨i, rfl, hf⟩

theorem Exact.congr (h : Exact l free) (he : ∀ i, free i ↔ free' i) : Exact l free' :=
  ⟨h.nodup, fun id => by simp only [h.mem_iff, he]⟩

/-- All indices in order. -/
theorem exact_range (n : Nat) :
    Exact ((List.range n).map Int.ofNat) (fun _ : Fin n => True) := by
  refine ⟨List.nodup_range.map fun _ _ => Int.ofNat_inj.mp, fun id => ?_⟩
  simp only [List.mem_map, List.mem_range, and_true]
  constructor
  · rintro ⟨k, hk, rfl⟩; exact ⟨⟨k, hk⟩, rfl⟩
  · rintro ⟨i, rfl⟩; exact ⟨i, i.isLt, rfl⟩

/-- Taking the first id removes one free index. -/
theorem Exact.take (h : Exact (id :: l) free) :
    ∃ i : Fin n, id = ((i : Nat) : Int) ∧ free i ∧ Exact l (fun j => free j ∧ j ≠ i) := by
  obtain ⟨i, hi, hf⟩ := (h.mem_iff id).mp List.mem_cons_self
  subst hi
  obtain ⟨hni, hnd⟩ := List.nodup_cons.mp h.nodup
  refine ⟨i, rfl, hf, hnd, fun x => ⟨fun hx => ?_, ?_⟩⟩
  · obtain ⟨j, rfl, hj⟩ := (h.mem_iff x).mp (List.mem_cons_of_mem _ hx)
    exact ⟨j, rfl, hj, fun he => hni (he ▸ hx)⟩
  · rintro ⟨j, rfl, hj, hne⟩
    rcases List.mem_cons.mp ((h.mem_iff _).mpr ⟨j, rfl, hj⟩) with he | hm
    · exact absurd (val_inj.mp he) hne
    · exact hm

/-- Giving back an index in use adds it to the free ones. -/
theorem Exact.give (h : Exact l free) (hi : ¬ free i) :
    Exact (l ++ [((i : Nat) : Int)]) (fun j => free j ∨ j = i) := by
  refine ⟨?_, fun x => ?_⟩
  · rw [List.nodup_append]
    refine ⟨h.nodup, List.nodup_singleton _, ?_⟩
    rintro a ha b hb rfl
    rw [List.mem_singleton.mp hb, h.mem_val] at ha
    exact hi ha
  · rw [List.mem_append, List.mem_singleton, h.mem_iff]
    constructor
    · rintro (⟨j, rfl, hj⟩ | rfl)
      · exact ⟨j, rfl, .inl hj⟩
      · exact ⟨i, rfl, .inr rfl⟩
    · rintro ⟨j, rfl, hj | rfl⟩
      · exact .inl ⟨j, rfl, hj⟩
      · exact .inr rfl

/-- Giving back a free index spoils the pool. -/
theorem Exact.not_nodup_give (h : Exact l free) (hi : free i) :
    ¬ (l ++ [((i : Nat) : Int)]).Nodup := by
  intro hn
  rw [List.nodup_append] at hn
  exact hn.2.2 _ (h.mem_val.mpr hi) _ (List.mem_singleton.mpr rfl) rfl

theorem Exact.length_eq [DecidablePred free] (h : Exact l free) :
    l.length = (Finset.univ.filter free).card := by
  have himg : l.toFinset = (Finset.univ.filter free).image fun i : Fin n => ((i : Nat) : Int) := by
    ext x
    simp only [List.mem_toFinset, h.mem_iff, Finset.mem_image, Finset.mem_filter,
      Finset.mem_univ, true_and]
    exact ⟨fun ⟨i, hi, hf⟩ => ⟨i, hf, hi⟩, fun ⟨i, hf, hi⟩ => ⟨i, hi, hf⟩⟩
  rw [← List.toFinset_card_of_nodup h.nodup, himg,
    Finset.card_image_of_injective _ fun _ _ he => val_inj.mp he]

theorem Exact.length_le (h : Exact l free) : l.length ≤ n := by
  classical
  rw [h.length_eq]
  exact (Finset.card_le_univ _).trans_eq (Fintype.card_fin n)

/-- An index in use leaves room in a store of `n` ids. -/
theorem Exact.length_lt (h : Exact l free) (hi : ¬ free i) : l.length < n := by
  have := (h.give hi).length_le
  rw [List.length_append, List.length_singleton] at this
  omega

end IdPool
