import UnivOS.Lib.Bits
import UnivOS.Lib.Word

/-! # The bit count

`bit_count` of `bit_util.c`: a loop that shifts its argument to the right until
nothing is left of it. The shift of a negative `int` fills in ones, so the loop ends
for the other arguments only.
-/
namespace UnivOS

/-- The loop of `bit_count`, and its `return`; `none` once it has gone through `fuel`
rounds without an end. -/
def bitCountLoop : Nat → BitVec 32 → Int → Option Int
  | 0, _, _ => none
  | fuel + 1, value, count =>
    if value ≠ 0#32 then
      bitCountLoop fuel (value.sshiftRight 1)
        (if value &&& 1#32 ≠ 0#32 then Word.wrap32 (count + 1) else count)
    else some count

def bitCount (fuel : Nat) (value : BitVec 32) : Option Int := bitCountLoop fuel value 0

/-- `bit_count(value)` returns `n`. -/
def BitCountReturns (value : BitVec 32) (n : Int) : Prop := ∃ fuel, bitCount fuel value = some n

variable {value : BitVec 32} {count : Int}

/-- The shift of a negative value is negative, so no number of rounds ends the loop. -/
theorem bitCountLoop_of_msb (hv : value.msb = true) (fuel : Nat) (count : Int) :
    bitCountLoop fuel value count = none := by
  induction fuel generalizing value count with
  | zero => rfl
  | succ fuel ih =>
    have hne : value ≠ 0#32 := by
      intro h
      simp [h] at hv
    rw [bitCountLoop, if_pos hne]
    exact ih (by rw [BitVec.msb_sshiftRight, hv]) _

theorem sshiftRight_one (hv : value.msb = false) : value.sshiftRight 1 = value >>> 1 :=
  BitVec.sshiftRight_eq_of_msb_false hv

/-- One round of the loop counts the bit it shifts out. -/
theorem count_bit (hc : 0 ≤ count) (hbound : count + value.cpop.toNat ≤ 32) :
    (if value &&& 1#32 ≠ 0#32 then Word.wrap32 (count + 1) else count) =
      count + (value.getLsbD 0).toNat := by
  have hstep := Bits.cpop_ushiftRight_one value
  cases hbit : value.getLsbD 0 with
  | false =>
    rw [if_neg (by rw [Bits.and_one_ne_zero (by omega), hbit]; simp)]
    simp
  | true =>
    rw [if_pos ((Bits.and_one_ne_zero (by omega) value).mpr hbit)]
    rw [hbit] at hstep
    have hfit : Word.InInt32 (count + 1) := by
      simp only [Word.InInt32, Bool.toNat_true] at hstep ⊢
      omega
    rw [Word.wrap32_of_inInt32 hfit]
    rfl

/-- A value below `2 ^ n` is gone after `n` rounds, which have counted its bits. -/
theorem bitCountLoop_of_lt {n : Nat} (hn : n < 32) (hv : value.toNat < 2 ^ n) (hc : 0 ≤ count)
    (hbound : count + value.cpop.toNat ≤ 32) :
    bitCountLoop (n + 1) value count = some (count + value.cpop.toNat) := by
  induction n generalizing value count with
  | zero =>
    have h0 : value = 0#32 := by
      apply BitVec.eq_of_toNat_eq
      simpa using hv
    subst h0
    simp [bitCountLoop]
  | succ n ih =>
    by_cases h0 : value = 0#32
    · subst h0
      simp [bitCountLoop]
    · have hmsb : value.msb = false := by
        rw [BitVec.msb_eq_false_iff_two_mul_lt]
        have := Nat.pow_le_pow_right (n := 2) (by decide) (Nat.le_of_lt_succ hn)
        omega
      have hhalf : (value >>> 1).toNat < 2 ^ n := by
        rw [BitVec.toNat_ushiftRight, Nat.shiftRight_one]
        omega
      have hstep := Bits.cpop_ushiftRight_one value
      rw [bitCountLoop, if_pos h0, sshiftRight_one hmsb, count_bit hc hbound,
        ih (by omega) hhalf (by omega) (by omega)]
      congr 1
      omega

/-- **`bit_count` returns the number of one bits of exactly the values that are not
negative.** For a negative one it does not return. -/
theorem bit_count_returns_iff (value : BitVec 32) :
    BitCountReturns value value.cpop.toNat ↔ 0 ≤ value.toInt := by
  constructor
  · intro hret
    obtain ⟨fuel, hret⟩ := hret
    rw [← Int.not_lt]
    intro hneg
    have hmsb : value.msb = true := by simpa [BitVec.msb_eq_toInt] using hneg
    rw [bitCount, bitCountLoop_of_msb hmsb] at hret
    cases hret
  · intro hpos
    have hmsb : value.msb = false := by simpa [BitVec.msb_eq_toInt] using hpos
    have hlt : value.toNat < 2 ^ 31 := by
      rw [BitVec.msb_eq_false_iff_two_mul_lt] at hmsb
      omega
    have hbits := BitVec.toNat_cpop_le value
    refine ⟨32, ?_⟩
    rw [bitCount, bitCountLoop_of_lt (by decide) hlt (by decide) (by omega)]
    simp

/-- `bit_count(-1)` does not return. -/
theorem bit_count_minus_one : ¬ ∃ n, BitCountReturns (-1) n := by
  rintro ⟨n, fuel, hret⟩
  rw [bitCount, bitCountLoop_of_msb (by decide)] at hret
  cases hret

example : bitCount 32 0x0F0F00F0#32 = some 12 := by decide

end UnivOS
