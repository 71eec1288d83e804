import Mathlib.Data.Nat.Basic

/-! # The bits of machine words

Population counts under a shift, and words with a single bit: testing, setting,
clearing and toggling bit `i` through the mask `1 << i`, stated by what they do to
every bit `j`.
-/
namespace Bits

variable {w i : Nat}

/-! ## Counting -/

theorem cpopNatRec_ushiftRight_one (x : BitVec w) (n : Nat) :
    (x >>> 1).cpopNatRec n 0 + (x.getLsbD 0).toNat = x.cpopNatRec (n + 1) 0 := by
  induction n with
  | zero => simp
  | succ n ih =>
    rw [BitVec.cpopNatRec_succ, BitVec.cpopNatRec_eq, BitVec.cpopNatRec_succ,
      BitVec.cpopNatRec_eq (n := n + 1), ← ih, BitVec.getLsbD_ushiftRight, Nat.add_comm 1 n]
    omega

/-- A shift to the right by one place loses the lowest bit. -/
theorem cpop_ushiftRight_one (x : BitVec w) :
    (x >>> 1).cpop.toNat + (x.getLsbD 0).toNat = x.cpop.toNat := by
  have htop : x.getLsbD w = false := BitVec.getLsbD_of_ge x w (Nat.le_refl w)
  rw [BitVec.toNat_cpop, BitVec.toNat_cpop, cpopNatRec_ushiftRight_one,
    BitVec.cpopNatRec_succ, htop]
  simp

/-! ## Single bits -/

theorem twoPow_ne_zero (hi : i < w) : BitVec.twoPow w i ≠ 0#w := by
  intro h
  have hbit := congrArg (BitVec.getLsbD · i) h
  simp [hi] at hbit

/-- `x & (1 << i)` as a condition. -/
theorem and_twoPow_ne_zero (hi : i < w) (x : BitVec w) :
    x &&& BitVec.twoPow w i ≠ 0#w ↔ x.getLsbD i = true := by
  rw [BitVec.and_twoPow]
  cases x.getLsbD i with
  | false => simp
  | true => simpa using twoPow_ne_zero hi

theorem and_one_ne_zero (hw : 0 < w) (x : BitVec w) :
    x &&& 1#w ≠ 0#w ↔ x.getLsbD 0 = true := by
  rw [← BitVec.twoPow_zero]
  exact and_twoPow_ne_zero hw x

/-- `x | (1 << i)`. -/
theorem getLsbD_or_twoPow (hi : i < w) (x : BitVec w) (j : Nat) :
    (x ||| BitVec.twoPow w i).getLsbD j = (x.getLsbD j || decide (i = j)) := by
  simp [hi]

/-- `x & ~(1 << i)`. -/
theorem getLsbD_and_not_twoPow (x : BitVec w) (i j : Nat) :
    (x &&& ~~~ BitVec.twoPow w i).getLsbD j = (x.getLsbD j && !decide (i = j)) := by
  by_cases hj : j < w
  · simp [hj, eq_comm]
  · simp [BitVec.getLsbD_of_ge x j (Nat.not_lt.mp hj)]

/-- `x ^ (1 << i)`. -/
theorem getLsbD_xor_twoPow (hi : i < w) (x : BitVec w) (j : Nat) :
    (x ^^^ BitVec.twoPow w i).getLsbD j = (x.getLsbD j ^^ decide (i = j)) := by
  simp [hi]

end Bits
