import UnivOS.IoCount

/-! # The size argument of I/O calls

The dispatcher passes the size as an `int`, and `ringbuf_write_mem` and
`ringbuf_read_mem` take it as a `size_t`: a negative size asks for almost four
gigabytes. The capacity test adds it to the fill level modulo `2^32`, so a
negative size down to minus the fill level passes. Wherever the buffer of a read is, a
byte for address 0 is not read.
-/
namespace UnivOS
namespace Kernel

variable {k : Kernel} {io : Int} {buf size : BitVec 32} {r : IoRing}

/-- `ksyscall_io_write` appends exactly `size` bytes and reports success, or refuses
and leaves the ring as it was. -/
def WriteRespects (k : Kernel) (io : Int) (buf size : BitVec 32) (r : IoRing) : Prop :=
  let (rc, k') := k.ksyscallIoWrite io buf size
  (0 ≤ size.toInt ∧ 0 ≤ rc ∧ (k'.ring r).toList =
      (k.ring r).toList ++ (List.range size.toNat).map fun i => k.mem (buf + BitVec.ofNat 32 i)) ∨
    (rc = -1 ∧ k'.ring r = k.ring r)

/-- `ksyscall_io_read` removes and copies out the oldest bytes, at most `size` of
them, none where that is negative: it stores these bytes, whatever memory holds. -/
def ReadRespects (k : Kernel) (io : Int) (buf size : BitVec 32) (r : IoRing) : Prop :=
  let n := min size.toInt.toNat (k.held r)
  ((k.ksyscallIoRead io buf size).2.ring r).toList = (k.ring r).toList.drop n ∧
    ∀ m, ({ k with mem := m }.ksyscallIoRead io buf size).2.mem =
      m.write buf ((k.ring r).toList.take n)

/-- A write respects every size but those the capacity test lets wrap. -/
theorem writeRespects_iff (hr : k.activeRing io = some r) :
    k.WriteRespects io buf size r ↔ ¬ (size.toInt < 0 ∧ -size.toInt ≤ k.held r) := by
  have hheld : k.held r ≤ 2048 := (k.ring r).length_le
  have hmax : ringbufSize = 2048 := rfl
  have hlt := size.isLt
  have hint := size.toInt_eq_toNat_cond
  unfold WriteRespects
  rcases ksyscallIoWrite_ring hr buf size with ⟨hover, hk⟩ | ⟨k', hfits, hk, hl⟩
  · rw [hk]
    refine iff_of_true (.inr ⟨rfl, rfl⟩) ?_
    split at hint <;> omega
  · rw [hk]
    by_cases hneg : size.toInt < 0
    · refine iff_of_false ?_ (not_not_intro ⟨hneg, ?_⟩)
      · rintro (⟨h0, _⟩ | ⟨hrc, _⟩)
        · omega
        · cases hrc
      · split at hint <;> omega
    · refine iff_of_true (.inl ⟨by omega, Int.le_refl 0, ?_⟩) fun h => hneg h.1
      rw [hl, List.take_of_length_le]
      rw [List.length_map, List.length_range]
      split at hint <;> omega

theorem withMem_activeRing (k : Kernel) (m : Memory) (io : Int) :
    activeRing { k with mem := m } io = k.activeRing io := rfl

/-- A read without a byte for address 0 takes and stores the oldest bytes. -/
theorem readRespects_iff_whole (hr : k.activeRing io = some r)
    (hnull : ¬ RingbufT.MeetsNull buf (min size.toNat (k.held r))) :
    k.ReadRespects io buf size r ↔ 0 ≤ size.toInt ∨ k.held r = 0 := by
  have hheld : k.held r ≤ 2048 := (k.ring r).length_le
  have hlt := size.isLt
  have hint := size.toInt_eq_toNat_cond
  have hlen : (k.ring r).toList.length = k.held r := rfl
  obtain ⟨_, hl, _⟩ := ksyscallIoRead_ring hr hnull
  have hmem : ∀ m, ({ k with mem := m }.ksyscallIoRead io buf size).2.mem =
      m.write buf ((k.ring r).toList.take size.toNat) := by
    intro m
    have hring : Kernel.ring { k with mem := m } r = k.ring r := mem_ring k m r
    have hnull' : ¬ RingbufT.MeetsNull buf (min size.toNat (Kernel.held { k with mem := m } r)) := by
      rwa [held, hring]
    obtain ⟨_, _, hread⟩ := ksyscallIoRead_ring (k := { k with mem := m }) hr hnull'
    rwa [hring] at hread
  unfold ReadRespects
  simp only [hl, hmem]
  by_cases hneg : size.toInt < 0
  · have hall : k.held r ≤ size.toNat := by split at hint <;> omega
    have hnone : size.toInt.toNat = 0 := by omega
    rw [hnone, Nat.zero_min, List.drop_zero, List.take_zero, List.drop_of_length_le hall,
      List.take_of_length_le hall]
    constructor
    · intro h
      rw [← hlen, ← h.1]
      exact .inr rfl
    · intro h
      have hnil : (k.ring r).toList = [] := List.length_eq_zero_iff.mp (h.resolve_left (by omega))
      rw [hnil]
      exact ⟨rfl, fun _ => rfl⟩
  · have hsize : size.toInt.toNat = size.toNat := by split at hint <;> omega
    refine iff_of_true ?_ (.inl (by omega))
    rw [hsize, ← hlen]
    refine ⟨?_, fun m => ?_⟩
    · rw [List.drop_eq_drop_min]
    · rw [List.take_eq_take_min]

/-- A read with a byte for address 0 leaves a byte in the ring, or stores nothing there. -/
theorem not_readRespects_of_null (hr : k.activeRing io = some r)
    (hnull : RingbufT.MeetsNull buf (min size.toNat (k.held r)))
    (hsize : 0 ≤ size.toInt ∨ k.held r = 0) : ¬ k.ReadRespects io buf size r := by
  have hpos : 0 < min size.toNat (k.held r) := Nat.lt_of_le_of_lt (Nat.zero_le _) hnull
  have hint := size.toInt_eq_toNat_cond
  have hlen : (k.ring r).toList.length = k.held r := rfl
  have hn : min size.toInt.toNat (k.held r) = min size.toNat (k.held r) := by
    split at hint <;> omega
  rintro ⟨hl, hmem⟩
  rw [hn] at hl hmem
  -- a byte that memory does not hold at address 0
  let i := (-buf).toNat
  have hi : i < ((k.ring r).toList.take (min size.toNat (k.held r))).length := by
    rw [List.length_take, hlen]
    exact Nat.lt_min.mpr ⟨hnull, Nat.lt_of_lt_of_le hnull (Nat.min_le_right ..)⟩
  let c := ((k.ring r).toList.take (min size.toNat (k.held r)))[i]
  have hread := congrFun (hmem fun _ => c + 1) 0
  have hkept : ({ k with mem := fun _ => c + 1 }.ksyscallIoRead io buf size).2.mem 0 = c + 1 := by
    rw [ksyscallIoRead, withMem_activeRing, hr]
    exact Ringbuf.ringbufReadMemTo_null buf fun _ => c + 1
  have hoffset : (0 - buf).toNat = i := congrArg BitVec.toNat (BitVec.zero_sub buf)
  rw [hkept, Memory.write, hoffset, List.getElem?_eq_getElem hi, Option.getD_some] at hread
  have hc : c + 1 ≠ c := by bv_omega
  exact hc hread

/-- A read of a negative size takes all there is, and one with a byte for address 0 does
not store it. -/
theorem readRespects_iff (hr : k.activeRing io = some r) :
    k.ReadRespects io buf size r ↔ (0 ≤ size.toInt ∨ k.held r = 0) ∧
      ¬ RingbufT.MeetsNull buf (min size.toNat (k.held r)) := by
  by_cases hnull : RingbufT.MeetsNull buf (min size.toNat (k.held r))
  · refine iff_of_false (fun h => ?_) fun h => h.2 hnull
    by_cases hsize : 0 ≤ size.toInt ∨ k.held r = 0
    · exact not_readRespects_of_null hr hnull hsize h
    · -- a negative size empties the ring, or all but one byte of it
      have hheld : k.held r ≤ 2048 := (k.ring r).length_le
      have hint := size.toInt_eq_toNat_cond
      have hlt := size.isLt
      obtain ⟨hneg, hpos⟩ := not_or.mp hsize
      have hnone : size.toInt.toNat = 0 := by omega
      have hall : (k.ring r).toList.length ≤ size.toNat - 1 := by
        have : (k.ring r).toList.length ≤ 2048 := (k.ring r).length_le
        split at hint <;> omega
      have hl := h.1
      rw [(ksyscallIoRead_short hr hnull).2, hnone, Nat.zero_min, List.drop_zero,
        List.drop_of_length_le hall] at hl
      exact hpos (List.length_eq_zero_iff.mpr hl.symm)
  · rw [readRespects_iff_whole hr hnull, and_iff_left hnull]

/-- **I/O calls respect every size that is not negative**, but for a read with a byte for
address 0. A write respects a negative size exactly if it is below minus the fill level,
and a read exactly if the ring is empty. The bytes copied are none of the kernel's objects. -/
theorem io_size_respected_iff (hr : k.activeRing io = some r) (buf size : BitVec 32) :
    (k.UserBuffer buf (min size.toNat (ringbufSize - k.held r)) →
        (k.WriteRespects io buf size r ↔ ¬ (size.toInt < 0 ∧ -size.toInt ≤ k.held r))) ∧
      (k.UserBuffer buf (RingbufT.transferred buf size.toNat (k.held r)) →
        (k.ReadRespects io buf size r ↔ (0 ≤ size.toInt ∨ k.held r = 0) ∧
          ¬ RingbufT.MeetsNull buf (min size.toNat (k.held r)))) :=
  ⟨fun _ => writeRespects_iff hr, fun _ => readRespects_iff hr⟩

/-- Process 1 with two bytes in its output ring writes three more, and reads three. -/
theorem io_size_respected_three :
    ((IoCall.sample true 3).caller (IoCall.attached 2)).WriteRespects 1 0x2000 3
        (.output ⟨1, by decide⟩) ∧
      ((IoCall.sample true 3).caller (IoCall.attached 2)).ReadRespects 1 0x2000 3
        (.output ⟨1, by decide⟩) := by
  have hr : ((IoCall.sample true 3).caller (IoCall.attached 2)).activeRing 1 =
      some (.output ⟨1, by decide⟩) := by decide +kernel
  obtain ⟨hwrite, hread⟩ := io_size_respected_iff hr 0x2000 3
  exact ⟨(hwrite (by decide +kernel)).mpr fun h => absurd h.1 (by decide),
    (hread (by decide +kernel)).mpr ⟨.inl (by decide), by decide +kernel⟩⟩

/-- With one byte in the ring, a write of size -1 reports success and fills the ring. -/
theorem io_write_negative_accepted : ∃ (k k' : Kernel) (r : IoRing), k.activeRing 1 = some r ∧
    k.held r = 1 ∧ k.ksyscallIoWrite 1 0x2000 (-1) = (0, k') ∧ k'.held r = ringbufSize ∧
    ¬ k.WriteRespects 1 0x2000 (-1) r := by
  let k := (IoCall.sample true (-1)).caller (IoCall.attached 1)
  have hr : k.activeRing 1 = some (.output ⟨1, by decide⟩) := by decide +kernel
  have hone : k.held (.output ⟨1, by decide⟩) = 1 := by decide +kernel
  have hbytes : ((k.ring (.output ⟨1, by decide⟩)).toList).length = 1 := hone
  have hsize : 2 ^ 31 ≤ (-1 : BitVec 32).toNat := by decide
  rcases ksyscallIoWrite_ring hr 0x2000 (-1) with ⟨hover, _⟩ | ⟨k', _, hk, hl⟩
  · rw [hone] at hover
    exact absurd hover (by decide)
  · have hfull : k'.held (.output ⟨1, by decide⟩) = ringbufSize := by
      rw [held, hl, List.length_append, List.length_take, List.length_map, List.length_range, hone,
        hbytes, ringbufSize]
      omega
    refine ⟨k, k', _, hr, hone, hk, hfull, mt (writeRespects_iff hr).mp (not_not_intro ?_)⟩
    rw [hone]
    decide

end Kernel
end UnivOS
