import UnivOS.RingBuf
import UnivOS.Lib.Machine

/-! # The ring as a bounded list of bytes

The functions of `ringbuf.h` on the declared record implement the obvious
operations on a list of at most `RINGBUF_SIZE` bytes. Results are the returned
value and the bytes stored through the caller's pointer.
-/
namespace UnivOS

/-- The calls on a ring. `mem i` is the byte `i` past the pointer that is passed. -/
inductive RingOp
  | init
  | write (byte : Byte)
  | read
  | writeMem (mem : Nat → Byte) (size : Nat)
  | readMem (size : Nat)
  | flush

namespace RingOp

/-- The sizes a caller can pass as an `int` that is not negative. -/
def SizeOk : RingOp → Prop
  | .writeMem _ size => size ≤ 2 ^ 31 - 1
  | .readMem size => size ≤ 2 ^ 31 - 1
  | _ => True

/-- The call on the record. -/
def exec : RingOp → RingbufT → (Int × List Byte) × RingbufT
  | .init, b => ((0, []), b.ringbufInit)
  | .write byte, b =>
    match b.ringbufWrite byte with
    | none => ((-1, []), b)
    | some b => ((0, []), b)
  | .read, b =>
    match b.ringbufRead with
    | none => ((-1, []), b)
    | some (byte, b) => ((0, [byte]), b)
  | .writeMem mem size, b =>
    match b.ringbufWriteMem mem size with
    | none => ((-1, []), b)
    | some b => ((0, []), b)
  | .readMem size, b =>
    let (bytes, b) := b.ringbufReadMem size
    ((bytes.length, bytes), b)
  | .flush, b => ((0, []), b.ringbufFlush)

/-- What the call is for: a list of at most `RINGBUF_SIZE` bytes, the oldest first. -/
def spec : RingOp → List Byte → (Int × List Byte) × List Byte
  | .init, _ => ((0, []), [])
  | .write byte, l =>
    if l.length = ringbufSize then ((-1, []), l) else ((0, []), l ++ [byte])
  | .read, [] => ((-1, []), [])
  | .read, byte :: l => ((0, [byte]), l)
  | .writeMem mem size, l =>
    if l.length + size > ringbufSize then ((-1, []), l)
    else ((0, []), l ++ (List.range size).map mem)
  | .readMem size, l => (((min size l.length : Nat), l.take size), l.drop size)
  | .flush, _ => ((0, []), [])

/-- The record holds the list, its indices fit together. -/
def Holds (b : RingbufT) (l : List Byte) : Prop := b.Valid ∧ b.toList = l

theorem exec_init (b : RingbufT) : Holds (RingOp.init.exec b).2 [] :=
  ⟨b.ringbufInit_valid, rfl⟩

/-- Every call does on the record what it does on the list. -/
theorem exec_implements : Machine.Implements exec spec SizeOk Holds := by
  intro op b l hok ⟨hv, hl⟩
  subst hl
  have hlen := b.toList_length
  cases op with
  | init => exact ⟨rfl, b.ringbufInit_valid, rfl⟩
  | flush => exact ⟨rfl, b.ringbufFlush_valid, rfl⟩
  | write byte =>
    rw [exec, spec, hlen]
    cases hw : b.ringbufWrite byte with
    | none =>
      rw [if_pos (RingbufT.ringbufWrite_none.mp hw)]
      exact ⟨rfl, hv, rfl⟩
    | some b' =>
      have hroom : b.size ≠ ringbufSize := by
        intro he
        rw [RingbufT.ringbufWrite_none.mpr he] at hw
        cases hw
      rw [if_neg hroom]
      exact ⟨rfl, RingbufT.ringbufWrite_spec hv hw⟩
  | read =>
    rw [exec]
    cases hr : b.ringbufRead with
    | none =>
      have hnil : b.toList = [] := by
        rw [← List.length_eq_zero_iff, hlen]
        exact RingbufT.ringbufRead_none.mp hr
      rw [hnil]
      exact ⟨rfl, hv, hnil⟩
    | some r =>
      obtain ⟨byte, b'⟩ := r
      obtain ⟨hv', hcons⟩ := RingbufT.ringbufRead_spec hv hr
      rw [hcons]
      exact ⟨rfl, hv', rfl⟩
  | writeMem mem size =>
    have hsize : size ≤ 2 ^ 31 - 1 := hok
    have hle : b.size ≤ 2048 := hv.size_le
    have hsum : (b.size + size) % 2 ^ 32 = b.size + size := Nat.mod_eq_of_lt (by omega)
    rw [exec, spec, hlen]
    cases hw : b.ringbufWriteMem mem size with
    | none =>
      rw [RingbufT.ringbufWriteMem_none, hsum] at hw
      rw [if_pos hw]
      exact ⟨rfl, hv, rfl⟩
    | some b' =>
      have hfit : ¬ b.size + size > ringbufSize := by
        intro hgt
        rw [← hsum] at hgt
        rw [RingbufT.ringbufWriteMem_none.mpr hgt] at hw
        cases hw
      obtain ⟨hv', hl⟩ := RingbufT.ringbufWriteMem_spec hv hw
      rw [if_neg hfit]
      refine ⟨rfl, hv', hl.trans ?_⟩
      rw [List.take_of_length_le]
      rw [List.length_map, List.length_range]
      omega
  | readMem size =>
    obtain ⟨hv', hbytes, hrest⟩ := RingbufT.readLoop_spec size b hv
    refine ⟨?_, hv', hrest⟩
    show (((b.ringbufReadMem size).1.length : Int), (b.ringbufReadMem size).1) =
      (((min size b.toList.length : Nat) : Int), b.toList.take size)
    rw [RingbufT.ringbufReadMem, hbytes, List.length_take]

end RingOp

/-- **After `ringbuf_init`, the ring is a list of at most `RINGBUF_SIZE` bytes.**
Every sequence of calls returns what it returns on the list, and leaves a record
that holds the list and whose indices fit together. -/
theorem ring_is_fifo (b : RingbufT) (ops : List RingOp) (hok : ∀ op ∈ ops, op.SizeOk) :
    let ring := Machine.run RingOp.exec ops b.ringbufInit
    let list := Machine.run RingOp.spec ops []
    ring.1 = list.1 ∧ ring.2.toList = list.2 ∧ ring.2.Valid ∧ ring.2.tail < ringbufSize ∧
      list.2.length ≤ ringbufSize := by
  obtain ⟨hres, hv, hl⟩ := RingOp.exec_implements.run ops hok (RingOp.exec_init b)
  refine ⟨hres, hl, hv, hv.tail_lt, ?_⟩
  rw [← hl, RingbufT.toList_length]
  exact hv.size_le

/-- A record full of garbage, initialised: a transfer that does not fit leaves the
three bytes there are, which come out in order. -/
theorem ring_is_fifo_three :
    (Machine.run RingOp.exec
      [.write 7, .writeMem (fun i => BitVec.ofNat 8 i) 2, .writeMem (fun _ => 9) 2046, .readMem 5]
      (⟨5, 0, 9, fun _ => 1⟩ : RingbufT).ringbufInit).1 =
        [(0, []), (0, []), (-1, []), (3, [7, 0, 1])] := by
  refine (ring_is_fifo _ _ ?_).1.trans (by decide)
  simp [RingOp.SizeOk]

end UnivOS
