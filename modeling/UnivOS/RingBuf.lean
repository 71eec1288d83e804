import UnivOS.Lib.Circular
import UnivOS.Memory
import Mathlib.Data.List.TakeDrop

/-! # The byte ring

`ringbuf.c`, in the layers of `UnivOS.Queue`: the declared record with the
operations as the code computes them, then the ring with its indices known to
fit. The first 12 bytes of the record are its three ints, so the `memset` of
`RINGBUF_SIZE` bytes in `ringbuf_init` and `ringbuf_flush` stops 12 bytes short
of the end of `data`.
-/
namespace UnivOS

def ringbufSize : Nat := 2048

/-- `ringbuf_t`. -/
structure RingbufT where
  head : Nat
  tail : Nat
  size : Nat
  data : Nat → Byte

namespace RingbufT

def ringbufInit (b : RingbufT) : RingbufT :=
  { head := 0, tail := 0, size := 0
    data := fun i => if i < ringbufSize - 12 then 0 else b.data i }

def ringbufFlush (b : RingbufT) : RingbufT :=
  { head := 0, tail := 0, size := 0
    data := fun i => if i < ringbufSize - 12 then 0 else b.data i }

def ringbufIsEmpty (b : RingbufT) : Bool := b.size == 0

def ringbufIsFull (b : RingbufT) : Bool := b.size == ringbufSize

/-- `none` is the error return, which leaves the ring as it was. -/
def ringbufWrite (b : RingbufT) (byte : Byte) : Option RingbufT :=
  if b.size = ringbufSize then none
  else some
    { data := Function.update b.data b.tail byte
      tail := Circular.next ringbufSize b.tail
      head := b.head
      size := b.size + 1 }

def ringbufRead (b : RingbufT) : Option (Byte × RingbufT) :=
  if b.size = 0 then none
  else some (b.data b.head,
    { data := b.data
      head := Circular.next ringbufSize b.head
      tail := b.tail
      size := b.size - 1 })

/-- `ringbuf_read` with the pointer it is given. -/
def ringbufReadTo (b : RingbufT) (byte : BitVec 32) : Option (Byte × RingbufT) :=
  if byte = 0 then none else b.ringbufRead

/-- The copy loop of `ringbuf_write_mem`: `mem i` is the byte `i` past the
pointer, and a failing `ringbuf_write` is ignored as in the source. -/
def writeLoop (mem : Nat → Byte) : Nat → Nat → RingbufT → RingbufT
  | 0, _, b => b
  | size + 1, i, b =>
    if b.ringbufIsFull then b
    else writeLoop mem size (i + 1) ((b.ringbufWrite (mem i)).getD b)

/-- The capacity test adds an `int` to a `size_t`, so it is made modulo `2^32`. -/
def ringbufWriteMem (b : RingbufT) (mem : Nat → Byte) (size : Nat) : Option RingbufT :=
  if (b.size + size) % 2 ^ 32 > ringbufSize then none
  else some (writeLoop mem size 0 b)

/-- The copy loop of `ringbuf_read_mem`. Its test for an empty ring is the one
`ringbuf_read` makes again, so one `match` stands for both. -/
def readLoop : Nat → RingbufT → List Byte × RingbufT
  | 0, b => ([], b)
  | size + 1, b =>
    match b.ringbufRead with
    | none => ([], b)
    | some (byte, b') => (byte :: (readLoop size b').1, (readLoop size b').2)

/-- The bytes copied out (the source returns their number). -/
def ringbufReadMem (b : RingbufT) (size : Nat) : List Byte × RingbufT := readLoop size b

/-- The same loop with the address `mem` it copies to, which `ringbuf_read` tests: at
address 0 it reads nothing, and the loop counts a byte all the same. Returns the count. -/
def readLoopTo : Nat → BitVec 32 → Memory × RingbufT → Nat × Memory × RingbufT
  | 0, _, p => (0, p)
  | size + 1, mem, (m, b) =>
    if b.ringbufIsEmpty then (0, m, b)
    else
      let (count, p) := readLoopTo size (mem + 1) (match b.ringbufReadTo mem with
        | none => (m, b)
        | some (byte, b') => (Function.update m mem byte, b'))
      (count + 1, p)

/-- `ringbuf_read_mem` into memory. -/
def ringbufReadMemTo (b : RingbufT) (mem : BitVec 32) (size : Nat) (m : Memory) :
    Nat × Memory × RingbufT := readLoopTo size mem (m, b)

/-- The stored bytes, oldest first. -/
def toList (b : RingbufT) : List Byte := Circular.window b.data ringbufSize b.head b.size

def Valid (b : RingbufT) : Prop := Circular.Valid ringbufSize b.head b.tail b.size

variable {b b' : RingbufT} {c : Byte}

@[simp] theorem toList_length (b : RingbufT) : b.toList.length = b.size :=
  Circular.window_length _

theorem ringbufInit_valid (b : RingbufT) : b.ringbufInit.Valid := Circular.Valid.empty (by decide)

theorem ringbufFlush_valid (b : RingbufT) : b.ringbufFlush.Valid :=
  Circular.Valid.empty (by decide)

theorem ringbufWrite_none : b.ringbufWrite c = none ↔ b.size = ringbufSize := by
  unfold ringbufWrite; split <;> simp_all

theorem ringbufWrite_spec (hv : b.Valid) (h : b.ringbufWrite c = some b') :
    b'.Valid ∧ b'.toList = b.toList ++ [c] := by
  unfold ringbufWrite at h
  split at h
  · cases h
  · rename_i hs
    cases h
    have hlt : b.size < ringbufSize := Nat.lt_of_le_of_ne hv.size_le hs
    exact ⟨hv.push hlt, Circular.window_push _ _ hv hlt⟩

theorem ringbufRead_none : b.ringbufRead = none ↔ b.size = 0 := by
  unfold ringbufRead; split <;> simp_all

theorem ringbufRead_spec (hv : b.Valid) (h : b.ringbufRead = some (c, b')) :
    b'.Valid ∧ b.toList = c :: b'.toList := by
  unfold ringbufRead at h
  split at h
  · cases h
  · rename_i hs
    cases h
    have hpos : 0 < b.size := Nat.pos_of_ne_zero hs
    exact ⟨hv.pop hpos, Circular.window_pop _ hv hpos⟩

/-- The copy loop appends bytes until they run out or the ring is full. -/
theorem writeLoop_spec (mem : Nat → Byte) : ∀ (size i : Nat) (b : RingbufT), b.Valid →
    (writeLoop mem size i b).Valid ∧ (writeLoop mem size i b).toList =
      b.toList ++ ((List.range' i size).map mem).take (ringbufSize - b.size)
  | 0, _, b, hv => ⟨hv, by simp [writeLoop]⟩
  | size + 1, i, b, hv => by
    cases hw : b.ringbufWrite (mem i) with
    | none =>
      have hs := ringbufWrite_none.mp hw
      simp [writeLoop, ringbufIsFull, hs, hv]
    | some b' =>
      have hs : b.size ≠ ringbufSize := fun he => by
        rw [ringbufWrite_none.mpr he] at hw; cases hw
      obtain ⟨hv', hl⟩ := ringbufWrite_spec hv hw
      obtain ⟨hv'', hl'⟩ := writeLoop_spec mem size (i + 1) b' hv'
      have hsz : b'.size = b.size + 1 := by
        have := congrArg List.length hl
        simpa using this
      have hroom : ringbufSize - b.size = (ringbufSize - b'.size) + 1 := by
        have := hv.size_le; omega
      simp only [writeLoop, ringbufIsFull, beq_iff_eq, hs, if_false, hw, Option.getD_some]
      refine ⟨hv'', ?_⟩
      rw [hl', hl, hroom, List.range'_succ, List.map_cons, List.take_succ_cons]
      simp

/-- The copy loop takes the oldest bytes, as many as there are. -/
theorem readLoop_spec : ∀ (size : Nat) (b : RingbufT), b.Valid →
    (readLoop size b).2.Valid ∧ (readLoop size b).1 = b.toList.take size ∧
      (readLoop size b).2.toList = b.toList.drop size
  | 0, b, hv => ⟨hv, by simp [readLoop]⟩
  | size + 1, b, hv => by
    cases hr : b.ringbufRead with
    | none =>
      have hnil : b.toList = [] := by
        rw [← List.length_eq_zero_iff, toList_length]; exact ringbufRead_none.mp hr
      simp [readLoop, hr, hv, hnil]
    | some r =>
      obtain ⟨c, b'⟩ := r
      obtain ⟨hv', hl⟩ := ringbufRead_spec hv hr
      obtain ⟨hv'', ht, hd⟩ := readLoop_spec size b' hv'
      simp only [readLoop, hr, hl, List.take_succ_cons, List.drop_succ_cons, ht, hd]
      exact ⟨hv'', trivial, trivial⟩

/-- One of the first `n` bytes from `mem` on is at address 0. -/
def MeetsNull (mem : BitVec 32) (n : Nat) : Prop := (-mem).toNat < n

instance (mem : BitVec 32) (n : Nat) : Decidable (MeetsNull mem n) :=
  inferInstanceAs (Decidable (_ < _))

/-- What a transfer of `size` bytes out of `held` counts. -/
def transferred (mem : BitVec 32) (size held : Nat) : Nat :=
  if MeetsNull mem (min size held) then min size (held + 1) else min size held

theorem meetsNull_zero (n : Nat) : MeetsNull 0 n ↔ 0 < n := Iff.rfl

theorem meetsNull_succ {mem : BitVec 32} (h : mem ≠ 0) (n : Nat) :
    MeetsNull mem (n + 1) ↔ MeetsNull (mem + 1) n := by
  have hstep : (-mem).toNat = (-(mem + 1)).toNat + 1 := by bv_omega
  rw [MeetsNull, hstep, Nat.add_lt_add_iff_right, MeetsNull]

/-- What the loop into memory returns and leaves: for a byte that would go to address 0 it
takes none and counts one too many. -/
structure ReadsTo (size : Nat) (mem : BitVec 32) (m : Memory) (b : RingbufT)
    (r : Nat × Memory × RingbufT) : Prop where
  valid : r.2.2.Valid
  whole : ¬ MeetsNull mem (min size b.size) → r.1 = min size b.size ∧
    r.2.1 = m.write mem (b.toList.take size) ∧ r.2.2.toList = b.toList.drop size
  short : MeetsNull mem (min size b.size) → r.1 = min size (b.size + 1) ∧
    r.2.2.toList = b.toList.drop (size - 1)
  null : r.2.1 0 = m 0
  other : ∀ x, r.1 ≤ (x - mem).toNat → r.2.1 x = m x

theorem ReadsTo.nothing {size : Nat} (mem : BitVec 32) (m : Memory) (hv : b.Valid)
    (h : size = 0 ∨ b.toList = []) : ReadsTo size mem m b (0, m, b) := by
  have hnone : min size b.size = 0 := by
    rw [← toList_length]
    rcases h with rfl | h
    · exact Nat.zero_min _
    · rw [h]; exact Nat.min_zero _
  have hbytes : b.toList.take size = [] ∧ b.toList.drop size = b.toList := by
    rcases h with rfl | h
    · exact ⟨rfl, rfl⟩
    · rw [h]; exact ⟨List.take_nil, List.drop_nil⟩
  refine ⟨hv, fun _ => ⟨hnone.symm, ?_, hbytes.2.symm⟩, fun hnull => ?_, rfl, fun _ _ => rfl⟩
  · rw [hbytes.1]
    rfl
  · rw [hnone] at hnull
    exact absurd hnull (Nat.not_lt_zero _)

/-- The byte for address 0: nothing is read, and no other byte is at that address. -/
theorem ReadsTo.skip {size count : Nat} {m : Memory} {p : Memory × RingbufT} (hv : b.Valid)
    (hpos : b.size ≠ 0) (h : ReadsTo size (0 + 1) m b (count, p)) :
    ReadsTo (size + 1) 0 m b (count + 1, p) := by
  have hmax : b.size ≤ 2048 := hv.size_le
  have hfar : ¬ MeetsNull (0 + 1) (min size b.size) := by
    rw [MeetsNull, show (-(0 + 1 : BitVec 32)).toNat = 2 ^ 32 - 1 from rfl]
    omega
  obtain ⟨hcount, _, hl⟩ := h.whole hfar
  refine ⟨h.valid, fun hn => absurd ((meetsNull_zero _).mpr (by omega)) hn, fun _ => ⟨?_, hl⟩,
    h.null, fun x hx => h.other x ?_⟩
  · have hcount' : count = min size b.size := hcount
    show count + 1 = _
    omega
  · have hx' : count + 1 ≤ (x - 0).toNat := hx
    show count ≤ _
    bv_omega

theorem ReadsTo.next {size count : Nat} {mem : BitVec 32} {m : Memory} {p : Memory × RingbufT}
    (hmem : mem ≠ 0) (hv : b.Valid) (hl : b.toList = c :: b'.toList)
    (h : ReadsTo size (mem + 1) (Function.update m mem c) b' (count, p)) :
    ReadsTo (size + 1) mem m b (count + 1, p) := by
  have hmax : b.size ≤ 2048 := hv.size_le
  have hsize : b.size = b'.size + 1 := by
    have := congrArg List.length hl
    simpa using this
  have hmin : min (size + 1) b.size = min size b'.size + 1 := by omega
  refine ⟨h.valid, fun hn => ?_, fun hn => ?_, ?_, fun x hx => ?_⟩
  · rw [hmin, meetsNull_succ hmem] at hn
    obtain ⟨hcount, hm, hd⟩ := h.whole hn
    rw [hmin, hl]
    refine ⟨congrArg Nat.succ hcount, ?_, hd⟩
    rw [hm, List.take_succ_cons]
    refine Memory.write_cons ?_
    rw [List.length_take, toList_length]
    omega
  · rw [hmin, meetsNull_succ hmem] at hn
    obtain ⟨hcount, hd⟩ := h.short hn
    have hpos : 0 < min size b'.size := Nat.lt_of_le_of_lt (Nat.zero_le _) hn
    have hcount' : count = min size (b'.size + 1) := hcount
    refine ⟨?_, ?_⟩
    · show count + 1 = _
      omega
    · obtain ⟨n, rfl⟩ : ∃ n, size = n + 1 := ⟨size - 1, by omega⟩
      rw [hl]
      exact hd
  · rw [h.null, Function.update_of_ne (Ne.symm hmem)]
  · have hx' : count + 1 ≤ (x - mem).toNat := hx
    have hne : x ≠ mem := fun he => by rw [he, BitVec.sub_self] at hx'; exact absurd hx' (by simp)
    have hfar : count ≤ (x - (mem + 1)).toNat := by bv_omega
    rw [h.other x hfar, Function.update_of_ne hne]

theorem readLoopTo_spec : ∀ (size : Nat) (mem : BitVec 32) (m : Memory) (b : RingbufT), b.Valid →
    ReadsTo size mem m b (readLoopTo size mem (m, b))
  | 0, mem, m, b, hv => .nothing mem m hv (.inl rfl)
  | size + 1, mem, m, b, hv => by
    cases hr : b.ringbufRead with
    | none =>
      have hempty := ringbufRead_none.mp hr
      have hnil : b.toList = [] := by
        rw [← List.length_eq_zero_iff, toList_length]; exact hempty
      have hloop : readLoopTo (size + 1) mem (m, b) = (0, m, b) :=
        if_pos (beq_iff_eq.mpr hempty)
      rw [hloop]
      exact .nothing mem m hv (.inr hnil)
    | some r =>
      obtain ⟨c, b'⟩ := r
      obtain ⟨hv', hl⟩ := ringbufRead_spec hv hr
      have hpos : b.size ≠ 0 := fun he => by rw [ringbufRead_none.mpr he] at hr; cases hr
      have hmore : ¬ b.ringbufIsEmpty = true := by rw [ringbufIsEmpty, beq_iff_eq]; exact hpos
      rw [readLoopTo, if_neg hmore]
      by_cases hmem : mem = 0
      · subst hmem
        exact .skip hv hpos (readLoopTo_spec size (0 + 1) m b hv)
      · have hread : b.ringbufReadTo mem = some (c, b') := (if_neg hmem).trans hr
        rw [hread]
        exact .next hmem hv hl (readLoopTo_spec size (mem + 1) (Function.update m mem c) b' hv')

theorem ringbufWriteMem_none {mem : Nat → Byte} {size : Nat} :
    b.ringbufWriteMem mem size = none ↔ ringbufSize < (b.size + size) % 2 ^ 32 := by
  unfold ringbufWriteMem
  split <;> simp_all

/-- An accepted transfer appends what it has, or what there is room for. -/
theorem ringbufWriteMem_spec {mem : Nat → Byte} {size : Nat} (hv : b.Valid)
    (h : b.ringbufWriteMem mem size = some b') :
    b'.Valid ∧
      b'.toList = b.toList ++ ((List.range size).map mem).take (ringbufSize - b.size) := by
  unfold ringbufWriteMem at h
  split at h
  · cases h
  · cases h
    rw [List.range_eq_range']
    exact writeLoop_spec mem size 0 b hv

end RingbufT

/-! ## The ring with its invariant -/

structure Ringbuf extends RingbufT where
  valid : toRingbufT.Valid

namespace Ringbuf

/-- The ring a `memset` of the whole record leaves. -/
def empty : Ringbuf := ⟨⟨0, 0, 0, fun _ => 0⟩, Circular.Valid.empty (by decide)⟩

instance : Inhabited Ringbuf := ⟨empty⟩

def ringbufFlush (b : Ringbuf) : Ringbuf := ⟨b.toRingbufT.ringbufFlush, b.ringbufFlush_valid⟩

def ringbufWrite (b : Ringbuf) (byte : Byte) : Option Ringbuf :=
  (b.toRingbufT.ringbufWrite byte).pmap Ringbuf.mk fun _ h =>
    (RingbufT.ringbufWrite_spec b.valid h).1

def ringbufRead (b : Ringbuf) : Option (Byte × Ringbuf) :=
  b.toRingbufT.ringbufRead.pmap (fun r h => (r.1, ⟨r.2, h⟩)) fun _ h =>
    (RingbufT.ringbufRead_spec b.valid h).1

def ringbufWriteMem (b : Ringbuf) (mem : Nat → Byte) (size : Nat) : Option Ringbuf :=
  (b.toRingbufT.ringbufWriteMem mem size).pmap Ringbuf.mk fun r h => by
    unfold RingbufT.ringbufWriteMem at h
    split at h
    · cases h
    · cases h; exact (RingbufT.writeLoop_spec mem size 0 _ b.valid).1

def ringbufReadMem (b : Ringbuf) (size : Nat) : List Byte × Ringbuf :=
  ((b.toRingbufT.ringbufReadMem size).1,
    ⟨(b.toRingbufT.ringbufReadMem size).2, (RingbufT.readLoop_spec size _ b.valid).1⟩)

def ringbufReadMemTo (b : Ringbuf) (mem : BitVec 32) (size : Nat) (m : Memory) :
    Nat × Memory × Ringbuf :=
  let r := b.toRingbufT.ringbufReadMemTo mem size m
  (r.1, r.2.1, ⟨r.2.2, (RingbufT.readLoopTo_spec size mem m _ b.valid).valid⟩)

variable {b b' : Ringbuf} {mem : Nat → Byte} {size : Nat}

@[simp] theorem empty_toList : empty.toList = [] := rfl

theorem length_le (b : Ringbuf) : b.toList.length ≤ ringbufSize := by
  rw [RingbufT.toList_length]; exact b.valid.size_le

theorem ringbufWriteMem_none :
    b.ringbufWriteMem mem size = none ↔ ringbufSize < (b.toList.length + size) % 2 ^ 32 := by
  rw [ringbufWriteMem, Option.pmap_eq_none_iff, RingbufT.ringbufWriteMem_none,
    RingbufT.toList_length]

theorem ringbufWriteMem_take (h : b.ringbufWriteMem mem size = some b') :
    b'.toList = b.toList ++ ((List.range size).map mem).take (ringbufSize - b.toList.length) := by
  obtain ⟨r, hr, hw, rfl⟩ := Option.pmap_eq_some_iff.mp h
  rw [RingbufT.toList_length]
  exact (RingbufT.ringbufWriteMem_spec b.valid hw).2

theorem ringbufIsEmpty_iff : b.ringbufIsEmpty = true ↔ b.toList = [] := by
  rw [RingbufT.ringbufIsEmpty, beq_iff_eq, ← RingbufT.toList_length, List.length_eq_zero_iff]

theorem ringbufRead_none : b.ringbufRead = none ↔ b.toList = [] := by
  rw [ringbufRead, Option.pmap_eq_none_iff, RingbufT.ringbufRead_none, ← RingbufT.toList_length,
    List.length_eq_zero_iff]

theorem ringbufRead_some {c : Byte} (h : b.ringbufRead = some (c, b')) :
    b.toList = c :: b'.toList := by
  obtain ⟨r, hr, hread, he⟩ := Option.pmap_eq_some_iff.mp h
  obtain ⟨rfl, rfl⟩ := Prod.mk.inj he
  exact (RingbufT.ringbufRead_spec b.valid hread).2

theorem ringbufReadMem_fst : (b.ringbufReadMem size).1 = b.toList.take size :=
  (RingbufT.readLoop_spec size _ b.valid).2.1

theorem ringbufReadMem_snd : (b.ringbufReadMem size).2.toList = b.toList.drop size :=
  (RingbufT.readLoop_spec size _ b.valid).2.2

/-- A transfer to a buffer that is nowhere at address 0. -/
theorem ringbufReadMemTo_whole {addr : BitVec 32} (m : Memory)
    (h : ¬ RingbufT.MeetsNull addr (min size b.toList.length)) :
    (b.ringbufReadMemTo addr size m).1 = (b.toList.take size).length ∧
      (b.ringbufReadMemTo addr size m).2.1 = m.write addr (b.toList.take size) ∧
      (b.ringbufReadMemTo addr size m).2.2.toList = b.toList.drop size := by
  rw [RingbufT.toList_length] at h
  rw [List.length_take, RingbufT.toList_length]
  exact (RingbufT.readLoopTo_spec size addr m _ b.valid).whole h

/-- It is the transfer that returns the bytes. -/
theorem ringbufReadMemTo_eq {addr : BitVec 32} (m : Memory)
    (h : ¬ RingbufT.MeetsNull addr (min size b.toList.length)) :
    (b.ringbufReadMemTo addr size m).1 = (b.ringbufReadMem size).1.length ∧
      (b.ringbufReadMemTo addr size m).2.1 = m.write addr (b.ringbufReadMem size).1 ∧
      (b.ringbufReadMemTo addr size m).2.2.toList = (b.ringbufReadMem size).2.toList := by
  rw [ringbufReadMem_fst, ringbufReadMem_snd]
  exact ringbufReadMemTo_whole m h

/-- A transfer with a byte for address 0. -/
theorem ringbufReadMemTo_short {addr : BitVec 32} (m : Memory)
    (h : RingbufT.MeetsNull addr (min size b.toList.length)) :
    (b.ringbufReadMemTo addr size m).1 = (b.toList.take (size - 1)).length + 1 ∧
      (b.ringbufReadMemTo addr size m).2.2.toList = b.toList.drop (size - 1) := by
  have hpos : 0 < min size b.toList.length := Nat.lt_of_le_of_lt (Nat.zero_le _) h
  rw [RingbufT.toList_length] at h
  obtain ⟨hcount, hl⟩ := (RingbufT.readLoopTo_spec size addr m _ b.valid).short h
  rw [← RingbufT.toList_length] at hcount
  refine ⟨?_, hl⟩
  rw [List.length_take]
  have hcount' : (b.ringbufReadMemTo addr size m).1 = min size (b.toList.length + 1) := hcount
  omega

theorem ringbufReadMemTo_fst (addr : BitVec 32) (m : Memory) :
    (b.ringbufReadMemTo addr size m).1 = RingbufT.transferred addr size b.toList.length := by
  rw [RingbufT.transferred]
  split
  · rename_i h
    have hpos : 0 < min size b.toList.length := Nat.lt_of_le_of_lt (Nat.zero_le _) h
    rw [(ringbufReadMemTo_short m h).1, List.length_take]
    omega
  · rename_i h
    rw [(ringbufReadMemTo_whole m h).1, List.length_take]

/-- Only the buffer is written to. -/
theorem ringbufReadMemTo_other {addr x : BitVec 32} (m : Memory)
    (h : RingbufT.transferred addr size b.toList.length ≤ (x - addr).toNat) :
    (b.ringbufReadMemTo addr size m).2.1 x = m x := by
  rw [← ringbufReadMemTo_fst addr m] at h
  exact (RingbufT.readLoopTo_spec size addr m _ b.valid).other x h

theorem ringbufReadMemTo_null (addr : BitVec 32) (m : Memory) :
    (b.ringbufReadMemTo addr size m).2.1 0 = m 0 :=
  (RingbufT.readLoopTo_spec size addr m _ b.valid).null

end Ringbuf
end UnivOS
