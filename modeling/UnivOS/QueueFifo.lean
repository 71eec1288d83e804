import Mathlib.Data.List.Rotate
import UnivOS.Queue
import UnivOS.Lib.Machine

/-! # The circular queue as a bounded list

The functions of `queue.c` on the declared record implement the obvious operations
on a list of at most `QUEUE_SIZE` items. Results are the returned value and the
items stored through the caller's pointer.
-/
namespace UnivOS

/-- The calls on a queue. -/
inductive QueueOp
  | init
  | queueIn (item : Int)
  | queueOut
  | isEmpty

namespace QueueOp

/-- The call on the record. -/
def exec : QueueOp → QueueT → (Int × List Int) × QueueT
  | .init, q => ((0, []), q.queueInit)
  | .queueIn item, q =>
    match q.queueIn item with
    | none => ((-1, []), q)
    | some q => ((0, []), q)
  | .queueOut, q =>
    match q.queueOut with
    | none => ((-1, []), q)
    | some (item, q) => ((0, [item]), q)
  | .isEmpty, q => ((if q.queueIsEmpty then 1 else 0, []), q)

/-- What the call is for: a list of at most `QUEUE_SIZE` items, the oldest first. -/
def spec : QueueOp → List Int → (Int × List Int) × List Int
  | .init, _ => ((0, []), [])
  | .queueIn item, l =>
    if l.length = queueSize then ((-1, []), l) else ((0, []), l ++ [item])
  | .queueOut, [] => ((-1, []), [])
  | .queueOut, item :: l => ((0, [item]), l)
  | .isEmpty, l => ((if l = [] then 1 else 0, []), l)

/-- The record holds the list, its indices fit together. -/
def Holds (q : QueueT) (l : List Int) : Prop := q.Valid ∧ q.toList = l

/-- Every call does on the record what it does on the list. -/
theorem exec_implements : Machine.Implements exec spec (fun _ => True) Holds := by
  intro op q l _ h
  obtain ⟨hv, hl⟩ := h
  subst hl
  cases op with
  | init => exact ⟨rfl, q.queueInit_valid, rfl⟩
  | queueIn item =>
    rw [exec, spec, q.toList_length]
    cases hin : q.queueIn item with
    | none =>
      rw [if_pos (QueueT.queueIn_none.mp hin)]
      exact ⟨rfl, hv, rfl⟩
    | some q' =>
      have hroom : q.size ≠ queueSize := by
        intro he
        rw [QueueT.queueIn_none.mpr he] at hin
        cases hin
      rw [if_neg hroom]
      exact ⟨rfl, QueueT.queueIn_spec hv hin⟩
  | queueOut =>
    rw [exec]
    cases hout : q.queueOut with
    | none =>
      have hnil : q.toList = [] := by
        rw [← List.length_eq_zero_iff, q.toList_length]
        exact QueueT.queueOut_none.mp hout
      rw [hnil]
      exact ⟨rfl, hv, hnil⟩
    | some r =>
      obtain ⟨item, q'⟩ := r
      obtain ⟨hv', hcons⟩ := QueueT.queueOut_spec hv hout
      rw [hcons]
      exact ⟨rfl, hv', rfl⟩
  | isEmpty =>
    have hempty : q.queueIsEmpty = true ↔ q.toList = [] := by
      rw [← List.length_eq_zero_iff, q.toList_length]
      simp [QueueT.queueIsEmpty]
    refine ⟨?_, hv, rfl⟩
    simp only [exec, spec, hempty]

end QueueOp

namespace QueueT

/-- `queue_out(q, &item)`, then `queue_in(q, item)`, `n` times over; `none` once a
call returns `-1`. -/
def rotations : Nat → QueueT → Option QueueT
  | 0, q => some q
  | n + 1, q =>
    q.queueOut.bind fun r => (r.2.queueIn r.1).bind (rotations n)

variable {q : QueueT} {l : List Int}

/-- One rotation of a queue that is not empty takes its oldest item to the end. -/
theorem rotation_spec {x : Int} (hv : q.Valid) (hl : q.toList = x :: l) :
    ∃ r q', q.queueOut = some (x, r) ∧ r.queueIn x = some q' ∧ q'.Valid ∧
      q'.toList = l ++ [x] := by
  have hsize : q.size = l.length + 1 := by rw [← q.toList_length, hl, List.length_cons]
  cases hout : q.queueOut with
  | none =>
    have := queueOut_none.mp hout
    omega
  | some p =>
    obtain ⟨y, r⟩ := p
    obtain ⟨hvr, hcons⟩ := queueOut_spec hv hout
    rw [hl] at hcons
    cases hcons
    have hle := hv.size_le
    cases hin : r.queueIn x with
    | none =>
      have hfull := queueIn_none.mp hin
      rw [← r.toList_length] at hfull
      omega
    | some q' => exact ⟨r, q', rfl, hin, queueIn_spec hvr hin⟩

/-- `n` rotations take the `n` oldest items to the end, one after the other. -/
theorem rotations_spec {n : Nat} (hv : q.Valid) (hl : q.toList = l) (hn : n = 0 ∨ l ≠ []) :
    ∃ q', rotations n q = some q' ∧ q'.Valid ∧ q'.toList = l.rotate n := by
  induction n generalizing q l with
  | zero => exact ⟨q, rfl, hv, by rw [hl, List.rotate_zero]⟩
  | succ n ih =>
    cases l with
    | nil => simp at hn
    | cons x l =>
      obtain ⟨r, q₁, hout, hin, hv₁, hl₁⟩ := rotation_spec hv hl
      obtain ⟨q', hrot, hv', hl'⟩ := ih hv₁ hl₁ (.inr (by simp))
      refine ⟨q', ?_, hv', ?_⟩
      · rw [rotations, hout, Option.bind_some, hin, Option.bind_some, hrot]
      · rw [hl', List.rotate_cons_succ]

/-- As many rotations as there are items bring every item back to its place. -/
theorem rotations_size (hv : q.Valid) :
    ∃ q', rotations q.size q = some q' ∧ q'.Valid ∧ q'.toList = q.toList := by
  have hn : q.size = 0 ∨ q.toList ≠ [] := by
    rw [← q.toList_length, List.length_eq_zero_iff]
    exact Decidable.em _
  obtain ⟨q', hrot, hv', hl'⟩ := rotations_spec hv rfl hn
  rw [← q.toList_length, List.rotate_length] at hl'
  exact ⟨q', hrot, hv', hl'⟩

end QueueT

/-- **After `queue_init`, the queue is a list of at most `QUEUE_SIZE` items.** Every
sequence of calls returns what it returns on the list, and leaves a record that holds
the list, whose indices fit together, and which as many rotations as it has items
leave with the same list. -/
theorem queue_is_fifo (q : QueueT) (ops : List QueueOp) :
    let queue := Machine.run QueueOp.exec ops q.queueInit
    let list := Machine.run QueueOp.spec ops []
    queue.1 = list.1 ∧ queue.2.toList = list.2 ∧ list.2.length ≤ queueSize ∧
      queue.2.head < queueSize ∧ queue.2.tail < queueSize ∧ queue.2.size ≤ queueSize ∧
      queue.2.tail = (queue.2.head + queue.2.size) % queueSize ∧
      ∃ q', QueueT.rotations list.2.length queue.2 = some q' ∧ q'.toList = list.2 := by
  obtain ⟨hres, hv, hl⟩ := QueueOp.exec_implements.run ops (by simp)
    (show QueueOp.Holds q.queueInit [] from ⟨q.queueInit_valid, q.queueInit_toList⟩)
  obtain ⟨q', hrot, _, hl'⟩ := QueueT.rotations_size hv
  have hlen := QueueT.toList_length (Machine.run QueueOp.exec ops q.queueInit).2
  rw [hl] at hlen hl'
  rw [← hlen] at hrot
  refine ⟨hres, hl, ?_, hv.head_lt, hv.tail_lt, hv.size_le, hv.tail_eq, q', hrot, hl'⟩
  rw [hlen]
  exact hv.size_le

/-- Garbage, initialised: what comes out is what went in, in order. -/
example : (Machine.run QueueOp.exec [.queueOut, .queueIn 7, .queueIn (-1), .queueOut, .isEmpty]
    (⟨5, 0, 9, fun _ => 1⟩ : QueueT).queueInit).1 =
      [(-1, []), (0, []), (0, []), (0, [7]), (0, [])] := by decide

end UnivOS
