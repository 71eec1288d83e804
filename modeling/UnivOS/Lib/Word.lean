import Mathlib.Algebra.Group.Int.Defs
import Mathlib.Algebra.Group.Nat.Defs
import Mathlib.Data.Int.Basic

/-! # Fixed-width integers as wrapped `Int`s

A signed machine word is an `Int`; arithmetic on it is the exact operation
followed by `wrap32`. -/
namespace Word

/-- The signed 32-bit value of an integer. -/
def wrap32 (n : Int) : Int := Int.bmod n (2 ^ 32)

/-- The values a signed 32-bit word holds. -/
def InInt32 (n : Int) : Prop := -2 ^ 31 ≤ n ∧ n < 2 ^ 31

instance (n : Int) : Decidable (InInt32 n) := inferInstanceAs (Decidable (_ ∧ _))

/-- `n & m` on signed words. -/
def and32 (n m : Int) : Int := (BitVec.ofInt 32 n &&& BitVec.ofInt 32 m).toInt

theorem wrap32_inInt32 (n : Int) : InInt32 (wrap32 n) := by
  constructor
  · exact Int.le_bmod (by decide)
  · exact Int.bmod_lt (by decide)

theorem wrap32_of_inInt32 {n : Int} (h : InInt32 n) : wrap32 n = n := by
  obtain ⟨hl, hu⟩ := h
  unfold wrap32
  apply Int.bmod_eq_of_le <;> omega

@[simp] theorem wrap32_wrap32 (n : Int) : wrap32 (wrap32 n) = wrap32 n :=
  wrap32_of_inInt32 (wrap32_inInt32 n)

theorem ofInt_wrap32 (n : Int) : BitVec.ofInt 32 (wrap32 n) = BitVec.ofInt 32 n := by
  apply BitVec.eq_of_toInt_eq
  rw [BitVec.toInt_ofInt, BitVec.toInt_ofInt]
  exact Int.bmod_bmod

end Word
