import Mathlib.Data.List.Basic

/-! # Machines whose actions always return

`run` takes a list of actions and collects their results. One machine implements
another when related states stay related and no result tells them apart; by
induction over the actions the same is true of whole runs. What an action is
allowed to be (`ok`) does not depend on the state.
-/
namespace Machine

variable {ι ο σ τ : Type*} {exec : ι → σ → ο × σ} {spec : ι → τ → ο × τ} {ok : ι → Prop}
  {R : σ → τ → Prop}

/-- The results of the actions, and the state they lead to. -/
def run (exec : ι → σ → ο × σ) : List ι → σ → List ο × σ
  | [], s => ([], s)
  | a :: as, s => ((exec a s).1 :: (run exec as (exec a s).2).1, (run exec as (exec a s).2).2)

/-- `exec` implements `spec`, as far as `R` relates their states. -/
def Implements (exec : ι → σ → ο × σ) (spec : ι → τ → ο × τ) (ok : ι → Prop)
    (R : σ → τ → Prop) : Prop :=
  ∀ a s t, ok a → R s t → (exec a s).1 = (spec a t).1 ∧ R (exec a s).2 (spec a t).2

theorem Implements.run (h : Implements exec spec ok R) (as : List ι) {s : σ} {t : τ}
    (hok : ∀ a ∈ as, ok a) (hR : R s t) :
    (Machine.run exec as s).1 = (Machine.run spec as t).1 ∧
      R (Machine.run exec as s).2 (Machine.run spec as t).2 := by
  induction as generalizing s t with
  | nil => exact ⟨rfl, hR⟩
  | cons a as ih =>
    obtain ⟨hres, hpost⟩ := h a s t (hok a List.mem_cons_self) hR
    obtain ⟨hrest, hend⟩ := ih (fun b hb => hok b (List.mem_cons_of_mem a hb)) hpost
    refine ⟨?_, hend⟩
    rw [Machine.run, Machine.run, hres, hrest]

end Machine
