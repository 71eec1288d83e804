import Mathlib.Data.Fin.Basic
import Mathlib.Logic.Function.Basic

/-! # Halting and table access -/
namespace UnivOS

/-- Why the kernel does not continue: it called `kernel_panic`, or the source
leaves the behaviour undefined at this point. -/
inductive Halt
  | panic (msg : String)
  | undefined (what : String)
deriving DecidableEq, Repr

/-- A kernel step: it halts, or returns with the new state. -/
abbrev Res := Except Halt

/-- The table entry an `int` index addresses; `none` is an index outside. -/
def index (n : Nat) (i : Int) : Option (Fin n) :=
  if h : 0 ≤ i ∧ i < n then some ⟨i.toNat, by omega⟩ else none

theorem index_eq_some {n : Nat} {i : Int} {e : Fin n} : index n i = some e ↔ i = (e : Nat) := by
  have he := e.isLt
  unfold index
  split
  · rw [Option.some.injEq, Fin.ext_iff]; show i.toNat = e.val ↔ _; omega
  · simp only [reduceCtorEq, false_iff]; omega

@[simp] theorem index_val {n : Nat} (e : Fin n) : index n ((e : Nat) : Int) = some e :=
  index_eq_some.mpr rfl

/-- Reading `a[i]`, which is undefined outside the array. -/
def getAt {α : Type} {n : Nat} (a : Fin n → α) (i : Int) (what : String) : Res α :=
  match index n i with
  | none => .error (.undefined what)
  | some e => .ok (a e)

/-- The assignment `a[i] = x`. -/
def setAt {α : Type} {n : Nat} (a : Fin n → α) (i : Int) (x : α) (what : String) :
    Res (Fin n → α) :=
  match index n i with
  | none => .error (.undefined what)
  | some e => .ok (Function.update a e x)

@[simp] theorem getAt_val {α : Type} {n : Nat} (a : Fin n → α) (e : Fin n) (what : String) :
    getAt a ((e : Nat) : Int) what = .ok (a e) := by simp [getAt]

@[simp] theorem setAt_val {α : Type} {n : Nat} (a : Fin n → α) (e : Fin n) (x : α)
    (what : String) : setAt a ((e : Nat) : Int) x what = .ok (Function.update a e x) := by
  simp [setAt]

theorem getAt_nat {α : Type} {n i : Nat} (a : Fin n → α) (h : i < n) (what : String) :
    getAt a (i : Int) what = .ok (a ⟨i, h⟩) := getAt_val a ⟨i, h⟩ what

theorem setAt_nat {α : Type} {n i : Nat} (a : Fin n → α) (h : i < n) (x : α) (what : String) :
    setAt a (i : Int) x what = .ok (Function.update a ⟨i, h⟩ x) := setAt_val a ⟨i, h⟩ x what

end UnivOS
