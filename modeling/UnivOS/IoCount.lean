import UnivOS.Kernel
import Mathlib.Algebra.BigOperators.Group.List.Basic

/-! # Byte counts of I/O calls

What the results of `ksyscall_io_write` and `ksyscall_io_read` say about the
bytes in a ring. `ringbuf_write_mem` returns a status, which `ksyscall_io_write`
returns as its byte count, so the bytes of an accepted write are never reported.
`ringbuf_read_mem` counts a byte that `ringbuf_read` does not read, because it would
go to address 0.
-/
namespace UnivOS

/-- A call on an I/O buffer, by a process that the scheduler has made active and
with the memory it runs in. -/
structure IoCall where
  write : Bool
  proc : Fin procMax
  io : Int
  buf : BitVec 32
  size : BitVec 32
  mem : Memory

namespace IoCall

def caller (c : IoCall) (k : Kernel) : Kernel := { k with activeProc := some c.proc, mem := c.mem }

def exec (c : IoCall) (k : Kernel) : Res (Int × Kernel) :=
  if c.write then .ok ((c.caller k).ksyscallIoWrite c.io c.buf c.size)
  else .ok ((c.caller k).ksyscallIoRead c.io c.buf c.size)

/-- The call is on ring `r`, with a size that is not negative, and a read has a buffer
that is none of the kernel's objects. -/
structure On (c : IoCall) (r : IoRing) (k : Kernel) : Prop where
  ring : (c.caller k).activeRing c.io = some r
  size : c.size.toNat < 2 ^ 31
  buffer : c.write = false →
    k.UserBuffer c.buf (RingbufT.transferred c.buf c.size.toNat (k.held r))

end IoCall

@[simp] theorem Kernel.setRing_ring (k : Kernel) (b : Ringbuf) (r : IoRing) :
    (k.setRing b r).ring r = b := by
  cases r <;> simp [setRing, ring, modifyTty]

theorem IoCall.caller_ring (c : IoCall) (k : Kernel) (r : IoRing) :
    (c.caller k).ring r = k.ring r := by
  cases r <;> rfl

abbrev IoStep := Trace.Step Kernel (IoCall × Int)

/-- Runs of I/O calls on the ring `r` from the state `k₀`. -/
abbrev IoRun (r : IoRing) (k₀ : Kernel) : List IoStep → Kernel → Prop :=
  Trace.Run (· = k₀) (Trace.Exec IoCall.exec fun _ k c => c.On r k)

/-- What a call's result says it added to the ring. -/
def IoStep.reported (x : IoStep) : Int :=
  if x.act.2 < 0 then 0 else if x.act.1.write then x.act.2 else -x.act.2

/-- The write does not change the ring: it has no bytes, or they do not fit. -/
def IoStep.NoBytes (r : IoRing) (x : IoStep) : Prop :=
  x.act.1.write = true → x.act.1.size = 0 ∨ ringbufSize < x.pre.held r + x.act.1.size.toNat

/-- The read has no byte for address 0. -/
def IoStep.NoNull (r : IoRing) (x : IoStep) : Prop :=
  x.act.1.write = false →
    ¬ RingbufT.MeetsNull x.act.1.buf (min x.act.1.size.toNat (x.pre.held r))

/-- The bytes a write puts into the ring without reporting them, or the byte a read reports
without taking it out. -/
def IoStep.unreported (r : IoRing) (x : IoStep) : Nat :=
  if x.act.1.write then
    if x.pre.held r + x.act.1.size.toNat ≤ ringbufSize then x.act.1.size.toNat else 0
  else if RingbufT.MeetsNull x.act.1.buf (min x.act.1.size.toNat (x.pre.held r)) then 1 else 0

theorem IoStep.unreported_eq_zero {r : IoRing} {x : IoStep} :
    x.unreported r = 0 ↔ x.NoBytes r ∧ x.NoNull r := by
  have hz : x.act.1.size = 0 ↔ x.act.1.size.toNat = 0 := by
    rw [← BitVec.toNat_inj]; rfl
  unfold unreported NoBytes NoNull
  cases hw : x.act.1.write with
  | true =>
    rw [if_pos rfl, hz]
    have hbytes : (if x.pre.held r + x.act.1.size.toNat ≤ ringbufSize then x.act.1.size.toNat
        else 0) = 0 ↔
        x.act.1.size.toNat = 0 ∨ ringbufSize < x.pre.held r + x.act.1.size.toNat := by
      split <;> omega
    rw [hbytes]
    exact ⟨fun h => ⟨fun _ => h, nofun⟩, fun h => h.1 rfl⟩
  | false =>
    rw [if_neg Bool.false_ne_true]
    have hnull : (if RingbufT.MeetsNull x.act.1.buf (min x.act.1.size.toNat (x.pre.held r)) then 1
        else 0) = 0 ↔
        ¬ RingbufT.MeetsNull x.act.1.buf (min x.act.1.size.toNat (x.pre.held r)) := by
      split <;> simp_all
    rw [hnull]
    exact ⟨fun h => ⟨nofun, fun _ => h⟩, fun h => h.2 rfl⟩

namespace Kernel

variable {k : Kernel} {io : Int} {buf size : BitVec 32} {r : IoRing}

/-- What a write does: the test wraps, and the copy stops at a full ring. -/
theorem ksyscallIoWrite_ring (hr : k.activeRing io = some r) (buf size : BitVec 32) :
    (ringbufSize < (k.held r + size.toNat) % 2 ^ 32 ∧ k.ksyscallIoWrite io buf size = (-1, k)) ∨
    ∃ k', (k.held r + size.toNat) % 2 ^ 32 ≤ ringbufSize ∧
      k.ksyscallIoWrite io buf size = (0, k') ∧ (k'.ring r).toList = (k.ring r).toList ++
        ((List.range size.toNat).map fun i => k.mem (buf + BitVec.ofNat 32 i)).take
          (ringbufSize - k.held r) := by
  rw [ksyscallIoWrite, hr]
  dsimp only
  cases hb : (k.ring r).ringbufWriteMem (fun i => k.mem (buf + BitVec.ofNat 32 i)) size.toNat with
  | none => exact .inl ⟨Ringbuf.ringbufWriteMem_none.mp hb, rfl⟩
  | some b =>
    have hfits : ¬ ringbufSize < (k.held r + size.toNat) % 2 ^ 32 := by
      intro hlt
      rw [Ringbuf.ringbufWriteMem_none.mpr hlt] at hb
      cases hb
    refine .inr ⟨_, Nat.le_of_not_lt hfits, rfl, ?_⟩
    rw [setRing_ring]
    exact Ringbuf.ringbufWriteMem_take hb

theorem mem_ring (k : Kernel) (m : Memory) (r : IoRing) :
    Kernel.ring { k with mem := m } r = k.ring r := by
  cases r <;> rfl

theorem ksyscallIoRead_ring (hr : k.activeRing io = some r)
    (hnull : ¬ RingbufT.MeetsNull buf (min size.toNat (k.held r))) :
    (k.ksyscallIoRead io buf size).1 = ((k.ring r).toList.take size.toNat).length ∧
      ((k.ksyscallIoRead io buf size).2.ring r).toList = (k.ring r).toList.drop size.toNat ∧
      (k.ksyscallIoRead io buf size).2.mem =
        k.mem.write buf ((k.ring r).toList.take size.toNat) := by
  obtain ⟨hcount, hm, hl⟩ := Ringbuf.ringbufReadMemTo_whole k.mem hnull
  rw [ksyscallIoRead, hr]
  dsimp only
  refine ⟨congrArg Nat.cast hcount, ?_, hm⟩
  rw [mem_ring, setRing_ring, hl]

/-- A read with a byte for address 0. -/
theorem ksyscallIoRead_short (hr : k.activeRing io = some r)
    (hnull : RingbufT.MeetsNull buf (min size.toNat (k.held r))) :
    (k.ksyscallIoRead io buf size).1 = ((k.ring r).toList.take (size.toNat - 1)).length + 1 ∧
      ((k.ksyscallIoRead io buf size).2.ring r).toList =
        (k.ring r).toList.drop (size.toNat - 1) := by
  obtain ⟨hcount, hl⟩ := Ringbuf.ringbufReadMemTo_short k.mem hnull
  rw [ksyscallIoRead, hr]
  dsimp only
  refine ⟨congrArg Nat.cast hcount, ?_⟩
  rw [mem_ring, setRing_ring, hl]

/-- A write is accepted whole, with result 0, or refused. -/
theorem ksyscallIoWrite_held (buf : BitVec 32) (hr : k.activeRing io = some r)
    (hsize : size.toNat < 2 ^ 31) :
    (k.held r + size.toNat ≤ ringbufSize → (k.ksyscallIoWrite io buf size).1 = 0 ∧
      (k.ksyscallIoWrite io buf size).2.held r = k.held r + size.toNat) ∧
    (ringbufSize < k.held r + size.toNat → k.ksyscallIoWrite io buf size = (-1, k)) := by
  have hheld : k.held r ≤ 2048 := (k.ring r).length_le
  have hsum : (k.held r + size.toNat) % 2 ^ 32 = k.held r + size.toNat :=
    Nat.mod_eq_of_lt (by omega)
  rcases ksyscallIoWrite_ring hr buf size with ⟨hover, hk⟩ | ⟨k', hfits, hk, hl⟩
  · rw [hsum] at hover
    exact ⟨fun hfit => absurd hover (Nat.not_lt.mpr hfit), fun _ => hk⟩
  · rw [hsum] at hfits
    refine ⟨fun _ => ?_, fun hover => absurd hfits (Nat.not_le.mpr hover)⟩
    rw [hk, held, hl, List.take_of_length_le]
    · rw [List.length_append, List.length_map, List.length_range]
      exact ⟨rfl, rfl⟩
    · rw [List.length_map, List.length_range]
      omega

/-- A read returns the number of bytes it takes, or one more where a byte is for address 0. -/
theorem ksyscallIoRead_held (buf size : BitVec 32) (hr : k.activeRing io = some r) :
    0 ≤ (k.ksyscallIoRead io buf size).1 ∧
      (k.ksyscallIoRead io buf size).1 + (k.ksyscallIoRead io buf size).2.held r = k.held r +
        if RingbufT.MeetsNull buf (min size.toNat (k.held r)) then 1 else 0 := by
  by_cases hnull : RingbufT.MeetsNull buf (min size.toNat (k.held r))
  · obtain ⟨hrc, hl⟩ := ksyscallIoRead_short hr hnull
    rw [hrc, held, hl, List.length_take, List.length_drop, if_pos hnull, ← held]
    omega
  · obtain ⟨hrc, hl, _⟩ := ksyscallIoRead_ring hr hnull
    rw [hrc, held, hl, List.length_take, List.length_drop, if_neg hnull, ← held]
    omega

end Kernel

/-- One call: what it reports and what it does not report account for the ring. -/
theorem IoCall.exec_held {c : IoCall} {r : IoRing} {k k' : Kernel} {rc : Int} (hon : c.On r k)
    (h : c.exec k = .ok (rc, k')) :
    (k'.held r : Int) = k.held r + IoStep.reported ⟨k, (c, rc), k'⟩ +
      IoStep.unreported r ⟨k, (c, rc), k'⟩ := by
  obtain ⟨hr, hsize, _⟩ := hon
  have hheld : (c.caller k).held r = k.held r := by rw [Kernel.held, caller_ring]; rfl
  unfold IoCall.exec at h
  cases hw : c.write with
  | true =>
    rw [if_pos hw] at h
    obtain ⟨hfits, hfull⟩ := Kernel.ksyscallIoWrite_held c.buf hr hsize
    rw [hheld] at hfits hfull
    by_cases hfit : k.held r + c.size.toNat ≤ ringbufSize
    · obtain ⟨hrc, hk⟩ := hfits hfit
      rw [Except.ok.inj h] at hrc hk
      simp only [IoStep.reported, IoStep.unreported, hw, hk, hfit, if_true]
      omega
    · rw [hfull (by omega)] at h
      cases h
      simp only [IoStep.reported, IoStep.unreported, hw, hfit, if_false, if_true, hheld]
      simp
  | false =>
    rw [if_neg (by simp [hw])] at h
    obtain ⟨hrc, hk⟩ := Kernel.ksyscallIoRead_held c.buf c.size hr
    rw [hheld] at hk
    rw [Except.ok.inj h] at hrc hk
    have hrc' : 0 ≤ rc := hrc
    have hk' : rc + k'.held r = k.held r +
        if RingbufT.MeetsNull c.buf (min c.size.toNat (k.held r)) then 1 else 0 := hk
    simp only [IoStep.reported, IoStep.unreported, hw, Bool.false_eq_true, if_false]
    split at hk' <;> split <;> omega

/-- The ring after a run: the reported bytes and the unreported ones. -/
theorem IoRun.held {r : IoRing} {k₀ k : Kernel} {tr : List IoStep} (h : IoRun r k₀ tr k) :
    (k.held r : Int) = k₀.held r + (tr.map IoStep.reported).sum +
      (tr.map (IoStep.unreported r)).sum := by
  refine h.invariant (P := fun tr k => (k.held r : Int) = k₀.held r +
    (tr.map IoStep.reported).sum + (tr.map (IoStep.unreported r)).sum) ?_ ?_
  · rintro k rfl
    simp
  · rintro tr k ⟨c, rc⟩ k' _ hstep ih
    have hone := IoCall.exec_held hstep.1 hstep.2
    rw [List.map_append, List.map_append, List.sum_append, List.sum_append, hone, ih]
    simp only [List.map_cons, List.map_nil, List.sum_singleton]
    omega

/-- **The results of I/O calls account for the bytes in the ring exactly when no
write puts bytes into it and no read has a byte for address 0.** -/
theorem io_counts_iff {r : IoRing} {k₀ k : Kernel} {tr : List IoStep} (h : IoRun r k₀ tr k) :
    (k.held r : Int) = k₀.held r + (tr.map IoStep.reported).sum ↔
      ∀ x ∈ tr, x.NoBytes r ∧ x.NoNull r := by
  have hheld := IoRun.held h
  have hsum : (tr.map (IoStep.unreported r)).sum = 0 ↔ ∀ x ∈ tr, x.NoBytes r ∧ x.NoNull r := by
    rw [List.sum_eq_zero_iff_forall_eq_nat]
    simp only [List.mem_map, forall_exists_index, and_imp, forall_apply_eq_imp_iff₂,
      IoStep.unreported_eq_zero]
  rw [← hsum]
  omega

namespace IoCall

instance (c : IoCall) (r : IoRing) (k : Kernel) : Decidable (c.On r k) :=
  decidable_of_iff ((c.caller k).activeRing c.io = some r ∧ c.size.toNat < 2 ^ 31 ∧
      (c.write = false →
        k.UserBuffer c.buf (RingbufT.transferred c.buf c.size.toNat (k.held r))))
    ⟨fun h => ⟨h.1, h.2.1, h.2.2⟩, fun h => ⟨h.ring, h.size, h.buffer⟩⟩

/-- A state with process 1 attached to terminal 1, whose output ring holds `n` bytes. -/
def attached (n : Nat) : Kernel :=
  let k := (Kernel.zero Image.blank).modifyProc ⟨1, by decide⟩ fun p =>
    { p with pid := 1, state := .active, io := Kernel.attachedIo ⟨1, by decide⟩ p.io }
  k.setRing ((Ringbuf.empty.ringbufWriteMem (fun _ => 65) n).getD Ringbuf.empty)
    (.output ⟨1, by decide⟩)

def sample (write : Bool) (size : BitVec 32) : IoCall :=
  { write, proc := ⟨1, by decide⟩, io := 1, buf := 0x2000, size, mem := fun _ => 66 }

theorem ioRun_of_test (cs : List IoCall) (k₀ : Kernel) (r : IoRing)
    (P : List IoStep → Kernel → Bool)
    (h : Trace.replayTest IoCall.exec cs k₀
      (fun tr k => P tr k && decide (∀ x ∈ tr, x.act.1.On r x.pre)) = true) :
    ∃ tr k, IoRun r k₀ tr k ∧ P tr k = true := by
  obtain ⟨tr, k, hr, ht⟩ := Trace.of_replayTest h
  obtain ⟨hP, hon⟩ := Bool.and_eq_true_iff.mp ht
  exact ⟨tr, k, Trace.Run.of_replay rfl hr (of_decide_eq_true hon), hP⟩

end IoCall

instance (r : IoRing) (x : IoStep) : Decidable (x.NoBytes r) := inferInstanceAs (Decidable (_ → _))

instance (r : IoRing) (x : IoStep) : Decidable (x.NoNull r) := inferInstanceAs (Decidable (_ → _))

/-- A read of five bytes takes the two there are, and a write of none adds none. -/
theorem io_counts_iff_read : ∃ (tr : List IoStep) (k : Kernel),
    IoRun (.output ⟨1, by decide⟩) (IoCall.attached 2) tr k ∧ tr.map (·.act.2) = [2, 0] ∧
      (k.held (.output ⟨1, by decide⟩) : Int) =
        (IoCall.attached 2).held (.output ⟨1, by decide⟩) + (tr.map IoStep.reported).sum := by
  obtain ⟨tr, k, hrun, ht⟩ := IoCall.ioRun_of_test [IoCall.sample false 5, IoCall.sample true 0]
    (IoCall.attached 2) (.output ⟨1, by decide⟩)
    (fun tr _ => decide (tr.map (·.act.2) = [2, 0]) &&
      decide (∀ x ∈ tr, x.NoBytes (.output ⟨1, by decide⟩) ∧ x.NoNull (.output ⟨1, by decide⟩)))
    (by decide +kernel)
  obtain ⟨hrc, hno⟩ := Bool.and_eq_true_iff.mp ht
  exact ⟨tr, k, hrun, of_decide_eq_true hrc, (io_counts_iff hrun).mpr (of_decide_eq_true hno)⟩

/-- A write of three bytes to an empty ring returns 0, and the ring holds three bytes. -/
theorem io_write_unreported : ∃ (tr : List IoStep) (k : Kernel),
    IoRun (.output ⟨1, by decide⟩) (IoCall.attached 0) tr k ∧ tr.map (·.act.2) = [0] ∧
      (IoCall.attached 0).held (.output ⟨1, by decide⟩) = 0 ∧
      k.held (.output ⟨1, by decide⟩) = 3 ∧
      (k.held (.output ⟨1, by decide⟩) : Int) ≠
        (IoCall.attached 0).held (.output ⟨1, by decide⟩) + (tr.map IoStep.reported).sum := by
  obtain ⟨tr, k, hrun, ht⟩ := IoCall.ioRun_of_test [IoCall.sample true 3]
    (IoCall.attached 0) (.output ⟨1, by decide⟩)
    (fun tr k => decide (tr.map (·.act.2) = [0] ∧ k.held (.output ⟨1, by decide⟩) = 3 ∧
      (tr.map IoStep.reported).sum = 0)) (by decide +kernel)
  obtain ⟨hrc, hk, hsum⟩ := of_decide_eq_true ht
  have h0 : (IoCall.attached 0).held (.output ⟨1, by decide⟩) = 0 := by decide +kernel
  refine ⟨tr, k, hrun, hrc, h0, hk, ?_⟩
  rw [hk, h0, hsum]
  decide

end UnivOS
