import Mathlib.Algebra.Group.Nat.Defs
import Mathlib.Data.List.Basic

/-! # Memory

Bytes at 32-bit addresses, and the C functions that store blocks of them.
-/
namespace UnivOS

/-- A `char` of the source, as its eight bits. -/
abbrev Byte := BitVec 8

abbrev Memory := BitVec 32 → Byte

/-- A pointer that is not null. -/
abbrev Ptr := { a : BitVec 32 // a ≠ 0 }

theorem sample_ne : (0x1000 : BitVec 32) ≠ 0 := by decide

/-- An address for samples. -/
def Ptr.sample : Ptr := ⟨0x1000, sample_ne⟩

namespace Memory

/-- The bytes `data` stored from `addr` on. -/
def write (m : Memory) (addr : BitVec 32) (data : List Byte) : Memory :=
  fun a => (data[(a - addr).toNat]?).getD (m a)

/-- `memset`. -/
def fill (m : Memory) (addr : BitVec 32) (n : Nat) (b : Byte) : Memory :=
  fun a => if (a - addr).toNat < n then b else m a

/-- The `int` at `addr`. -/
def readInt (m : Memory) (addr : BitVec 32) : Int :=
  (m (addr + 3) ++ m (addr + 2) ++ m (addr + 1) ++ m addr : BitVec 32).toInt

/-- The bytes from `addr` on. -/
def bytes (m : Memory) (addr : BitVec 32) (size : Nat) : List Byte :=
  (List.range size).map fun i => m (addr + BitVec.ofNat 32 i)

variable {m : Memory} {addr a : BitVec 32} {data : List Byte} {b : Byte} {n : Nat}

theorem write_ne (h : data.length ≤ (a - addr).toNat) : m.write addr data a = m a := by
  rw [write, List.getElem?_eq_none h, Option.getD_none]

theorem fill_ne (h : n ≤ (a - addr).toNat) : m.fill addr n b a = m a := if_neg (Nat.not_lt.mpr h)

/-- A byte stored in front of others. -/
theorem write_cons (hn : data.length < 2 ^ 32) :
    write (Function.update m addr b) (addr + 1) data = m.write addr (b :: data) := by
  funext a
  by_cases ha : a = addr
  · subst ha
    have hlast : data.length ≤ (a - (a + 1)).toNat := by bv_omega
    have hzero : (a - a).toNat = 0 := by bv_omega
    rw [write_ne hlast, Function.update_self, write, hzero, List.getElem?_cons_zero,
      Option.getD_some]
  · have hoffset : (a - addr).toNat = (a - (addr + 1)).toNat + 1 := by bv_omega
    rw [write, write, hoffset, List.getElem?_cons_succ, Function.update_of_ne ha]

/-- Bytes that are stored can be read back. -/
theorem bytes_write (m : Memory) (addr : BitVec 32) (h : data.length ≤ 2 ^ 32) :
    (m.write addr data).bytes addr data.length = data := by
  refine List.ext_getElem (by simp [bytes]) fun i hi hi' => ?_
  have hoffset : (addr + BitVec.ofNat 32 i - addr).toNat = i := by
    rw [BitVec.add_comm, BitVec.add_sub_cancel, BitVec.toNat_ofNat]
    exact Nat.mod_eq_of_lt (Nat.lt_of_lt_of_le hi' h)
  simp only [bytes, List.getElem_map, List.getElem_range, write, hoffset,
    List.getElem?_eq_getElem hi', Option.getD_some]

end Memory
end UnivOS
