import UnivOS.Lib.Circular

/-! # The circular queue

`queue.c`: the record the code declares and its operations on it, then the same
queue with its indices known to fit (`Queue`), which is what the kernel state
holds. A zeroed queue is a valid empty one, so no kernel path makes a record
outside `Queue`. The null-pointer tests of the source have no counterpart: every
caller passes the address of a static queue.
-/
namespace UnivOS

def queueSize : Nat := 32

/-- `queue_t`. Only the cells below `queueSize` exist; the bounds that keep
every access there are `QueueT.Valid`. -/
structure QueueT where
  head : Nat
  tail : Nat
  size : Nat
  items : Nat → Int

namespace QueueT

def queueIsEmpty (q : QueueT) : Bool := q.size == 0

def queueInit (q : QueueT) : QueueT :=
  { items := fun i => if i < queueSize then 0 else q.items i, head := 0, tail := 0, size := 0 }

/-- `none` is the error return, which leaves the queue as it was. -/
def queueIn (q : QueueT) (item : Int) : Option QueueT :=
  if q.size = queueSize then none
  else some
    { items := Function.update q.items q.tail item
      tail := Circular.next queueSize q.tail
      head := q.head
      size := q.size + 1 }

def queueOut (q : QueueT) : Option (Int × QueueT) :=
  if q.size = 0 then none
  else some (q.items q.head,
    { items := Function.update q.items q.head 0
      head := Circular.next queueSize q.head
      tail := q.tail
      size := q.size - 1 })

/-- The queued items, oldest first. -/
def toList (q : QueueT) : List Int := Circular.window q.items queueSize q.head q.size

def Valid (q : QueueT) : Prop := Circular.Valid queueSize q.head q.tail q.size

variable {q q' : QueueT} {x : Int}

theorem toList_length (q : QueueT) : q.toList.length = q.size :=
  Circular.window_length _

theorem queueInit_valid (q : QueueT) : q.queueInit.Valid := Circular.Valid.empty (by decide)

theorem queueInit_toList (q : QueueT) : q.queueInit.toList = [] := rfl

theorem queueIn_none : q.queueIn x = none ↔ q.size = queueSize := by
  unfold queueIn; split <;> simp_all

theorem queueIn_spec (hv : q.Valid) (h : q.queueIn x = some q') :
    q'.Valid ∧ q'.toList = q.toList ++ [x] := by
  unfold queueIn at h
  split at h
  · cases h
  · rename_i hs
    cases h
    have hlt : q.size < queueSize := Nat.lt_of_le_of_ne hv.size_le hs
    exact ⟨hv.push hlt, Circular.window_push _ _ hv hlt⟩

theorem queueOut_none : q.queueOut = none ↔ q.size = 0 := by
  unfold queueOut; split <;> simp_all

theorem queueOut_spec (hv : q.Valid) (h : q.queueOut = some (x, q')) :
    q'.Valid ∧ q.toList = x :: q'.toList := by
  unfold queueOut at h
  split at h
  · cases h
  · rename_i hs
    cases h
    have hpos : 0 < q.size := Nat.pos_of_ne_zero hs
    refine ⟨hv.pop hpos, ?_⟩
    rw [QueueT.toList, Circular.window_pop _ hv hpos, QueueT.toList,
      Circular.window_clear _ _ hv hpos]

end QueueT

/-! ## The queue with its invariant -/

structure Queue extends QueueT where
  valid : toQueueT.Valid

namespace Queue

/-- The queue `queue_init` and a `memset` to zero leave. -/
def empty : Queue := ⟨⟨0, 0, 0, fun _ => 0⟩, Circular.Valid.empty (by decide)⟩

instance : Inhabited Queue := ⟨empty⟩

def queueIn (q : Queue) (item : Int) : Option Queue :=
  (q.toQueueT.queueIn item).pmap Queue.mk fun _ h => (QueueT.queueIn_spec q.valid h).1

def queueOut (q : Queue) : Option (Int × Queue) :=
  q.toQueueT.queueOut.pmap (fun r h => (r.1, ⟨r.2, h⟩)) fun _ h =>
    (QueueT.queueOut_spec q.valid h).1

variable {q q' : Queue} {x : Int} {l : List Int}

@[simp] theorem empty_toList : empty.toList = [] := rfl

theorem length_le (q : Queue) : q.toList.length ≤ queueSize := by
  rw [QueueT.toList_length]; exact q.valid.size_le

theorem size_eq (q : Queue) : q.size = q.toList.length := (QueueT.toList_length _).symm

@[simp] theorem queueIsEmpty_iff : q.queueIsEmpty = true ↔ q.toList = [] := by
  rw [← List.length_eq_zero_iff, QueueT.toList_length]
  simp [QueueT.queueIsEmpty]

theorem queueIn_spec (h : q.queueIn x = some q') : q'.toList = q.toList ++ [x] := by
  obtain ⟨r, hr, hin, rfl⟩ := Option.pmap_eq_some_iff.mp h
  exact (QueueT.queueIn_spec q.valid hin).2

theorem queueIn_none : q.queueIn x = none ↔ q.toList.length = queueSize := by
  rw [queueIn, Option.pmap_eq_none_iff, QueueT.queueIn_none, ← QueueT.toList_length]

theorem queueIn_ok (x : Int) (h : q.toList.length < queueSize) :
    ∃ q', q.queueIn x = some q' ∧ q'.toList = q.toList ++ [x] := by
  cases he : q.queueIn x with
  | some q' => exact ⟨q', rfl, queueIn_spec he⟩
  | none => rw [queueIn_none] at he; omega

theorem queueOut_spec (h : q.queueOut = some (x, q')) : q.toList = x :: q'.toList := by
  obtain ⟨⟨y, r⟩, hr, hout, he⟩ := Option.pmap_eq_some_iff.mp h
  cases he
  exact (QueueT.queueOut_spec q.valid hout).2

theorem queueOut_none : q.queueOut = none ↔ q.toList = [] := by
  rw [queueOut, Option.pmap_eq_none_iff, QueueT.queueOut_none, ← List.length_eq_zero_iff,
    QueueT.toList_length]

theorem queueOut_cons (h : q.toList = x :: l) :
    ∃ q', q.queueOut = some (x, q') ∧ q'.toList = l := by
  cases he : q.queueOut with
  | none => rw [queueOut_none.mp he] at h; cases h
  | some r =>
    obtain ⟨y, q'⟩ := r
    have hl := queueOut_spec he
    rw [h] at hl
    cases hl
    exact ⟨q', rfl, rfl⟩

/-- The allocator loops of the `*_init` functions: the ids `0 .. n - 1` queued in
order, a failing `queue_in` being at most logged. -/
def fill (n : Nat) : Queue :=
  (List.range n).foldl (fun q (i : Nat) => (q.queueIn i).getD q) empty

theorem foldl_queueIn : ∀ (l : List Nat) (q : Queue), q.toList.length + l.length ≤ queueSize →
    (l.foldl (fun q (i : Nat) => (q.queueIn i).getD q) q).toList = q.toList ++ l.map Int.ofNat
  | [], q, _ => by simp
  | i :: l, q, h => by
    rw [List.length_cons] at h
    obtain ⟨q', hq, hl⟩ := q.queueIn_ok i (by omega)
    rw [List.foldl_cons, hq, Option.getD_some, foldl_queueIn l q' (by rw [hl]; simp; omega), hl]
    simp

theorem fill_toList {n : Nat} (h : n ≤ queueSize) :
    (fill n).toList = (List.range n).map Int.ofNat := by
  rw [fill, foldl_queueIn _ _ (by simpa using h)]
  simp

end Queue
end UnivOS
