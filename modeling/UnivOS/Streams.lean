import UnivOS.Keys
import UnivOS.Console

/-! # Bytes on their way

The rings of the terminals over a whole run. Keys and `io_write` put bytes in, `io_read`,
`io_flush` and the refresh take them out, and nothing else does: each ring is a stream
from which every byte comes out once, in order.
-/
namespace UnivOS
open Word

namespace System

variable {p : Platform} {s t s' : System} {a : Arrival} {rc : Int} {c : Cause} {r : IoRing}

/-- The bytes in a ring. -/
def bytes (s : System) (r : IoRing) : List Byte := (s.core.kernel.ring r).toList

/-- The character a key enters into a ring: that of the selected terminal, if it is not
full. -/
def keyed (s : System) (r : IoRing) : List Byte :=
  if s.entry ≠ keyNull ∧ s.ttys.activeTty.map IoRing.input = some r ∧
    (s.bytes r).length < ringbufSize then [s.entry.setWidth 8] else []

/-- The output a tick displays: every other tick, all there is for the selected terminal. -/
def displayed (s : System) (r : IoRing) : List Byte :=
  if s.Refreshes ∧ s.ttys.activeTty.map IoRing.output = some r then s.bytes r else []

/-- What an interrupt puts into a ring. -/
def incoming (s : System) (r : IoRing) : Cause → List Byte
  | .tick => []
  | .key => s.keyed r
  | .call => s.core.kernel.putIn r

/-- What an interrupt takes out of a ring. -/
def outgoing (s : System) (r : IoRing) : Cause → List Byte
  | .tick => s.displayed r
  | .key => []
  | .call => s.core.kernel.takenOut r

/-- The rings of the terminal `i` are the same. -/
def SameRings (s t : System) (i : Fin ttyMax) : Prop :=
  (t.ttys.ttyTable i).ioInput = (s.ttys.ttyTable i).ioInput ∧
    (t.ttys.ttyTable i).ioOutput = (s.ttys.ttyTable i).ioOutput

theorem SameRings.of_eq {i : Fin ttyMax} (h : t.ttys.ttyTable i = s.ttys.ttyTable i) :
    SameRings s t i := ⟨congrArg Tty.ioInput h, congrArg Tty.ioOutput h⟩

theorem SameRings.bytes (h : SameRings s t r.tty) : t.bytes r = s.bytes r := by
  cases r with
  | input i => exact congrArg (fun b : Ringbuf => b.toList) h.1
  | output i => exact congrArg (fun b : Ringbuf => b.toList) h.2

theorem bytes_congr (h : t.ttys = s.ttys) (r : IoRing) : t.bytes r = s.bytes r :=
  (SameRings.of_eq (by rw [h])).bytes

/-- The refresh empties the output ring of the selected terminal, and leaves all others. -/
theorem refresh_bytes {i : Fin ttyMax} {vga : Vga} (hs : s.ttys.Steady)
    (hv : s.core.vga.scroll = 0) (hi : s.ttys.activeTty = some i)
    (h : s.ttys.ttyRefresh s.core.vga = .ok (t.ttys, vga)) (r : IoRing) :
    t.bytes r = if IoRing.output i = r then [] else s.bytes r := by
  obtain ⟨u, hdrain, _, hnil, hcases⟩ := Ttys.ttyRefresh_cases hs hi hv h
  obtain ⟨w, htypes, hu, _⟩ := Ttys.ttyDrain_types hi hdrain
  have hself : (t.ttys.ttyTable i).ioInput = (u.ttyTable i).ioInput ∧
      (t.ttys.ttyTable i).ioOutput = (u.ttyTable i).ioOutput := by
    rcases hcases with ⟨_, ht, _⟩ | ⟨_, rfl, ht, _⟩
    · rw [ht, Ttys.setTty_self]
      exact ⟨rfl, rfl⟩
    · rw [ht]
      exact ⟨rfl, rfl⟩
  have hinput : (u.ttyTable i).ioInput = (s.ttys.ttyTable i).ioInput := by
    rw [hu, Ttys.setTty_self]
    exact (Tty.types_rings htypes).1
  have hothers := (Ttys.ttyRefresh_only hi h).others
  cases r with
  | input j =>
    rw [if_neg (by simp)]
    by_cases hj : j = i
    · rw [hj]
      exact congrArg (fun b : Ringbuf => b.toList) (hself.1.trans hinput)
    · exact (SameRings.of_eq (hothers j hj)).bytes (r := .input j)
  | output j =>
    by_cases hj : j = i
    · rw [hj, if_pos rfl]
      exact (congrArg (fun b : Ringbuf => b.toList) hself.2).trans hnil
    · rw [if_neg (by simpa using Ne.symm hj)]
      exact (SameRings.of_eq (hothers j hj)).bytes (r := .output j)

theorem ringbufWrite_getD (b : Ringbuf) (char : Byte) : ((b.ringbufWrite char).getD b).toList =
    b.toList ++ if b.toList.length < ringbufSize then [char] else [] := by
  have hfull : b.toList.length < ringbufSize ↔ b.size ≠ ringbufSize := by
    rw [RingbufT.toList_length]
    have hle := b.valid.size_le
    exact ⟨fun hlt => Nat.ne_of_lt hlt, fun hne => Nat.lt_of_le_of_ne hle hne⟩
  cases hw : b.ringbufWrite char with
  | none =>
    have hsize := RingbufT.ringbufWrite_none.mp (Option.pmap_eq_none_iff.mp hw)
    rw [if_neg fun hlt => hfull.mp hlt hsize, List.append_nil]
    rfl
  | some b' =>
    obtain ⟨r, hr, hwrite, rfl⟩ := Option.pmap_eq_some_iff.mp hw
    have hroom : b.size ≠ ringbufSize := fun he => by
      rw [RingbufT.ringbufWrite_none.mpr he] at hwrite
      cases hwrite
    rw [if_pos (hfull.mpr hroom)]
    exact (RingbufT.ringbufWrite_spec b.valid hwrite).2

/-- A key at the selected terminal is put into its input ring, if there is room. -/
theorem input_bytes {i : Fin ttyMax} {char : Byte} (hs : s.ttys.Steady)
    (hi : s.ttys.activeTty = some i) (h : t.ttys = s.ttys.ttyInput char) (r : IoRing) :
    t.bytes r = s.bytes r ++
      if IoRing.input i = r ∧ (s.bytes r).length < ringbufSize then [char] else [] := by
  rw [Ttys.ttyInput, hi] at h
  dsimp only at h
  rw [if_neg (not_not.mpr (hs.tty i).echo)] at h
  have hself : t.ttys.ttyTable i = { s.ttys.ttyTable i with
      ioInput := ((s.ttys.ttyTable i).ioInput.ringbufWrite char).getD (s.ttys.ttyTable i).ioInput } := by
    rw [h, Ttys.setTty_self]
  have hothers : ∀ j, j ≠ i → t.ttys.ttyTable j = s.ttys.ttyTable j := by
    intro j hj
    rw [h, Ttys.setTty_ne hj]
  cases r with
  | input j =>
    by_cases hj : j = i
    · subst hj
      simp only [true_and]
      exact (congrArg (fun u : Tty => u.ioInput.toList) hself).trans (ringbufWrite_getD _ char)
    · rw [if_neg fun he => hj (IoRing.input.inj he.1).symm, List.append_nil]
      exact (SameRings.of_eq (hothers j hj)).bytes (r := .input j)
  | output j =>
    rw [if_neg (by simp), List.append_nil]
    by_cases hj : j = i
    · have hring : (t.ttys.ttyTable i).ioOutput = (s.ttys.ttyTable i).ioOutput := by rw [hself]
      rw [hj]
      exact congrArg (fun b : Ringbuf => b.toList) hring
    · exact (SameRings.of_eq (hothers j hj)).bytes (r := .output j)

/-- Selecting a terminal leaves the rings alone. -/
theorem select_bytes {n : Int} (h : s.ttys.ttySelect n = .ok t.ttys) (r : IoRing) :
    t.bytes r = s.bytes r := by
  obtain ⟨i, ht⟩ := Ttys.ttySelect_ok h
  refine SameRings.bytes ?_
  rw [SameRings, ht]
  by_cases htty : r.tty = i
  · rw [htty]
    show (Tty.ioInput ((s.ttys.setTty i _).ttyTable i)) = _ ∧
      (Tty.ioOutput ((s.ttys.setTty i _).ttyTable i)) = _
    rw [Ttys.setTty_self]
    exact ⟨rfl, rfl⟩
  · have hother : (s.ttys.setTty i { s.ttys.ttyTable i with refresh := 1 }).ttyTable r.tty =
        s.ttys.ttyTable r.tty := Ttys.setTty_ne htty
    exact ⟨congrArg Tty.ioInput hother, congrArg Tty.ioOutput hother⟩

theorem TtysStep.stream (h : TtysStep s t c) (hs : s.ttys.Steady) (hv : s.core.vga.scroll = 0)
    (r : IoRing) : s.outgoing r c ++ t.bytes r = s.bytes r ++ s.incoming r c := by
  obtain ⟨i, hi⟩ := Option.ne_none_iff_exists'.mp hs.active
  cases h with
  | refreshed even refresh =>
    rw [refresh_bytes hs hv hi refresh, outgoing, incoming, displayed, hi, Option.map_some,
      List.append_nil]
    by_cases hr : IoRing.output i = r
    · rw [if_pos ⟨even, congrArg some hr⟩, if_pos hr, List.append_nil]
    · rw [if_neg fun he => hr (Option.some.inj he.2), if_neg hr, List.nil_append]
  | skipped odd same =>
    rw [bytes_congr same, outgoing, incoming, displayed, if_neg fun he => odd he.1, List.nil_append,
      List.append_nil]
  | selected noEntry command select =>
    rw [select_bytes select, outgoing, incoming, keyed, if_neg fun he => he.1 noEntry,
      List.nil_append, List.append_nil]
  | silent noEntry unselected same =>
    rw [bytes_congr same, outgoing, incoming, keyed, if_neg fun he => he.1 noEntry, List.nil_append,
      List.append_nil]
  | entered entry unselected input =>
    rw [input_bytes hs hi input, outgoing, incoming, keyed, hi, Option.map_some, List.nil_append]
    simp [entry]
  | called transfers => exact transfers.ring r

/-! ## Over a run -/

/-- What a step of a run puts into a ring. -/
def into (r : IoRing) (x : Step) : List Byte :=
  match cause x.act.1.trapframe.interrupt with
  | none => []
  | some c => (x.pre.arrive x.act.1).incoming r c

/-- What a step of a run takes out of a ring. -/
def outOf (r : IoRing) (x : Step) : List Byte :=
  match cause x.act.1.trapframe.interrupt with
  | none => []
  | some c => (x.pre.arrive x.act.1).outgoing r c

theorem arrive_bytes (s : System) (a : Arrival) (r : IoRing) : (s.arrive a).bytes r = s.bytes r :=
  bytes_congr (arrive_ttys s a) r

theorem Enters.bytes {k : Kernel} (h : Enters p a s c rc t k s') (r : IoRing) :
    s'.bytes r = t.bytes r := bytes_congr h.ttys r

theorem Settled.stream (hs : Settled p s) (h : kernelContextEnter p a s = .ok (rc, s'))
    (r : IoRing) : outOf r ⟨s, (a, rc), s'⟩ ++ s'.bytes r = s.bytes r ++ into r ⟨s, (a, rc), s'⟩ := by
  obtain ⟨c, t, k, henters⟩ := hs.kernelContextEnter_ok h
  have harrive := hs.arrive a
  have hstep := (serve_ttys harrive.tableOk henters.serves).stream harrive.terminals harrive.scroll r
  rw [arrive_bytes] at hstep
  simp only [into, outOf, henters.cause, cause_irq]
  rw [henters.bytes]
  exact hstep

theorem Begun.bytes (h : Begun p s) (r : IoRing) : s.bytes r = [] := by
  have hempty : ∀ i, (s.ttys.ttyTable i).ioInput = Ringbuf.empty ∧
      (s.ttys.ttyTable i).ioOutput = Ringbuf.empty := by
    intro i
    rw [ttys, (Kernel.kernelInit_devices h.kernel).1, Ttys.ttyInitial_table]
    exact ⟨rfl, rfl⟩
  cases r with
  | input i => exact congrArg (fun b : Ringbuf => b.toList) (hempty i).1
  | output i => exact congrArg (fun b : Ringbuf => b.toList) (hempty i).2

/-! ## Who moves the bytes -/

theorem wiring_tty {pid : Int} {io : Fin procIoMax} (h : Kernel.wiring pid io = some r) :
    Kernel.terminalOf pid = some r.tty := by
  cases htty : Kernel.terminalOf pid with
  | none =>
    simp only [Kernel.wiring, htty] at h
    cases h
  | some tty =>
    simp only [Kernel.wiring, htty, Kernel.attachedIo] at h
    split at h
    · cases h
      rfl
    · split at h
      · cases h
        rfl
      · cases h

/-- The interrupt is one for which bytes of the ring may move: a refresh or a key of the
selected terminal, or a system call of a process that is attached to it. -/
def Concerns (r : IoRing) (x : Step) : Prop :=
  (x.act.1.trapframe.interrupt = irqTimer ∧ x.pre.ttys.activeTty.map IoRing.output = some r) ∨
  (x.act.1.trapframe.interrupt = irqKeyboard ∧ x.pre.ttys.activeTty.map IoRing.input = some r) ∨
  (x.act.1.trapframe.interrupt = irqSyscall ∧ ∃ i, x.pre.core.kernel.activeProc = some i ∧
    Kernel.terminalOf (x.pre.core.kernel.procTable i).pid = some r.tty)

/-- The ring of a system call belongs to the terminal of the process. -/
theorem ioRequest_attached (hs : Settled p s) {q : Kernel.IoRequest}
    (h : s.core.kernel.ioRequest = some q) : ∃ i, s.core.kernel.activeProc = some i ∧
      Kernel.terminalOf (s.core.kernel.procTable i).pid = some q.ring.tty := by
  simp only [Kernel.ioRequest, Option.bind_eq_bind, Option.bind_eq_some_iff] at h
  obtain ⟨i, hact, tf, _, call, _, ring, hring, hq⟩ := h
  cases hq
  refine ⟨i, hact, ?_⟩
  simp only [Kernel.activeRing, hact, Option.bind_eq_bind, Option.bind_some,
    Option.bind_eq_some_iff] at hring
  obtain ⟨io, _, hio⟩ := hring
  rw [hs.attached.io i] at hio
  exact wiring_tty hio

/-- No other interrupt moves bytes of a ring. -/
theorem Settled.concerns {x : Step} (hs : Settled p x.pre) (h : into r x ≠ [] ∨ outOf r x ≠ []) :
    Concerns r x := by
  have hstill := arrive_still x.pre x.act.1
  have httys := arrive_ttys x.pre x.act.1
  have hcaller : ∀ q, (x.pre.arrive x.act.1).core.kernel.ioRequest = some q → q.ring = r →
      ∃ i, x.pre.core.kernel.activeProc = some i ∧
        Kernel.terminalOf (x.pre.core.kernel.procTable i).pid = some r.tty := by
    rintro q hq rfl
    obtain ⟨i, hact, htty⟩ := ioRequest_attached (hs.arrive x.act.1) hq
    exact ⟨i, hstill.active.symm.trans hact, by rw [← hstill.pid i, htty]⟩
  unfold into outOf at h
  cases hc : cause x.act.1.trapframe.interrupt with
  | none => simp [hc] at h
  | some c =>
    have hirq := cause_some hc
    simp only [hc] at h
    cases c with
    | tick =>
      rcases h with h | h
      · exact absurd rfl h
      · refine .inl ⟨hirq, ?_⟩
        rw [outgoing, displayed] at h
        rw [← httys]
        exact (ite_ne_right_iff.mp h).1.2
    | key =>
      rcases h with h | h
      · refine .inr (.inl ⟨hirq, ?_⟩)
        rw [incoming, keyed] at h
        rw [← httys]
        exact (ite_ne_right_iff.mp h).1.2.1
      · exact absurd rfl h
    | call =>
      refine .inr (.inr ⟨hirq, ?_⟩)
      simp only [incoming, outgoing, Kernel.putIn, Kernel.takenOut] at h
      cases hq : (x.pre.arrive x.act.1).core.kernel.ioRequest with
      | none => simp [hq] at h
      | some q =>
        simp only [hq] at h
        rcases h with h | h
        · exact hcaller q hq (ite_ne_right_iff.mp h).1
        · exact hcaller q hq (ite_ne_right_iff.mp h).1

/-- The system call of a step. -/
def Step.request (x : Step) : Option Kernel.IoRequest :=
  if x.act.1.trapframe.interrupt = irqSyscall then (x.pre.arrive x.act.1).core.kernel.ioRequest
  else none

/-- A process that reads from a ring has what came out of it in its buffer. -/
theorem Settled.reads (hs : Settled p s) (h : kernelContextEnter p a s = .ok (rc, s'))
    {q : Kernel.IoRequest} (hq : Step.request ⟨s, (a, rc), s'⟩ = some q) (hread : q.call = .ioRead)
    (hapart : q.Apart (s.arrive a).core.kernel) :
    rc = (outOf q.ring ⟨s, (a, rc), s'⟩).length ∧
      s'.core.kernel.mem.bytes q.buf (outOf q.ring ⟨s, (a, rc), s'⟩).length =
        outOf q.ring ⟨s, (a, rc), s'⟩ := by
  obtain ⟨c, t, k, henters⟩ := hs.kernelContextEnter_ok h
  unfold Step.request at hq
  split at hq
  · rename_i hsys
    obtain rfl : c = .call := by
      have hirq := henters.cause.symm.trans hsys
      cases c with
      | tick | key => cases hirq
      | call => rfl
    obtain ⟨⟨rc₁, k₁⟩, hk, hserve⟩ := Loop.bind_eq_ok.mp henters.serves
    cases hserve
    obtain ⟨hresult, hstored⟩ := Kernel.ksyscallIrqHandler_reads hq hread hapart
      (orStop_eq_ok.mp hk)
    have hout : outOf q.ring ⟨s, (a, rc), s'⟩ = q.takes (s.arrive a).core.kernel := by
      simp only [outOf, henters.cause, cause_irq, outgoing, Kernel.takenOut]
      rw [hq]
      exact if_pos rfl
    have hmem : s'.core.kernel.mem = k₁.mem := by
      rw [henters.result]
      exact Kernel.schedulerRun_mem henters.schedules
    rw [hout, hmem]
    exact ⟨hresult, hstored⟩
  · cases hq

/-! ## Runs that leave the kernel's objects to the kernel -/

/-- The bytes a system call copies from a buffer or to one. -/
def copied (k : Kernel) (tf : Trapframe) : Syscall → BitVec 32 × Nat
  | .ioWrite =>
    match k.activeRing tf.ebx.toInt with
    | none => (tf.ecx, 0)
    | some r => (tf.ecx, min tf.edx.toNat (ringbufSize - k.held r))
  | call => k.filled tf call

/-- The trapframe and the buffer of a system call are none of the kernel's objects. -/
structure Clear (p : Platform) (s : System) (a : Arrival) : Prop where
  frame : ∀ n < Trapframe.size, p.image.cpu.kernelData (a.frame + BitVec.ofNat 32 n) = false
  buffer : a.trapframe.interrupt = irqSyscall → ∀ call, Syscall.ofNumber a.trapframe.eax = some call →
    ∀ n < (copied (s.arrive a).core.kernel a.trapframe call).2, p.image.cpu.kernelData
      ((copied (s.arrive a).core.kernel a.trapframe call).1 + BitVec.ofNat 32 n) = false

/-- Runs of interrupts from the end of `main` that leave them alone. -/
abbrev ClearRuns (p : Platform) : List Step → System → Prop :=
  Trace.Run (fun s => main p = .ok s) (Trace.Exec (kernelContextEnter p) fun _ s a => Clear p s a)

theorem ClearRuns.runs {tr : List Step} (h : ClearRuns p tr s) : Runs p tr s :=
  h.mono fun _ _ _ _ hn => ⟨trivial, hn.2⟩

/-- An arrival that is no system call. -/
theorem clear_of {tf : Trapframe} {stat data : Byte} (h : tf.interrupt ≠ irqSyscall) :
    Clear blank s (.of tf stat data) := by
  have hframe : ∀ n < Trapframe.size,
      blank.image.cpu.kernelData (0x1000 + BitVec.ofNat 32 n) = false := by decide
  refine ⟨hframe, fun hsys => ?_⟩
  rw [Arrival.of_trapframe] at hsys
  exact absurd hsys h

/-- What comes out of a ring and what is left is what goes in. -/
theorem stream_of_run {tr : List Step} (h : Runs p tr s) (r : IoRing) :
    tr.flatMap (outOf r) ++ s.bytes r = tr.flatMap (into r) :=
  h.stream (fun _ hs => (begun_of_main hs).bytes r)
    fun _ _ _ _ hr hn => (settled_of_run hr).stream hn.2 r

/-- **Every ring is a stream, whose bytes the processes at its terminal see.** -/
theorem rings_are_streams {tr : List Step} (h : ClearRuns p tr s) (r : IoRing) :
    tr.flatMap (outOf r) ++ s.bytes r = tr.flatMap (into r) ∧
    ∀ x ∈ tr, (into r x ≠ [] ∨ outOf r x ≠ [] → Concerns r x) ∧
      ∀ q, x.request = some q → q.call = .ioRead → q.ring = r →
        q.Apart (x.pre.arrive x.act.1).core.kernel → x.act.2 = (outOf r x).length ∧
          x.post.core.kernel.mem.bytes q.buf (outOf r x).length = outOf r x := by
  refine ⟨stream_of_run h.runs r, fun x hx => ?_⟩
  obtain ⟨tr', hr, hn⟩ := h.runs.of_mem hx
  refine ⟨(settled_of_run hr).concerns, ?_⟩
  rintro q hq hread rfl hapart
  exact (settled_of_run hr).reads hn.2 hq hread hapart

/-- The key a is typed at the first terminal. -/
theorem rings_are_streams_typed : ∃ tr s, ClearRuns blank tr s ∧
    tr.map (fun x => x.act.1.kbdData) = [0x1E] ∧ s.bytes (.input Ttys.firstTty) = [0x61] := by
  obtain ⟨s, hs, hb⟩ := main_begun blank
  have hk : s.keyboard = ⟨0, 0⟩ := hb.keyboard
  have hdecode : keyboardDecode ((0x1E : Byte).setWidth 32) s.keyboard =
      .ok (⟨0x61, none⟩, ⟨0, 0⟩) := by
    rw [hk]
    rfl
  obtain ⟨rc, s', henter, _, _⟩ := hb.ready.types 0x1E hdecode (by simp) (by simp)
  have hrun : ClearRuns blank ([] ++ [⟨s, (keyArrival 0x1E, rc), s'⟩]) s' :=
    .snoc (.nil hs) ⟨clear_of (by decide), henter⟩
  refine ⟨_, s', hrun, rfl, ?_⟩
  have hentry : (s.arrive (keyArrival 0x1E)).entry = 0x61 := by
    rw [entry, decoded_keyArrival, hdecode]
    rfl
  have hactive : (s.arrive (keyArrival 0x1E)).ttys.activeTty = some Ttys.firstTty := by
    rw [arrive_ttys, ttys, (Kernel.kernelInit_devices hb.kernel).1]
    rfl
  have hkey : cause (keyArrival 0x1E).trapframe.interrupt = some .key := by
    rw [keyArrival_irq]
    rfl
  have hout : outOf (.input Ttys.firstTty) ⟨s, (keyArrival 0x1E, rc), s'⟩ = [] := by
    simp only [outOf, hkey]
    rfl
  have hinto : into (.input Ttys.firstTty) ⟨s, (keyArrival 0x1E, rc), s'⟩ = [0x61] := by
    simp only [into, hkey]
    show keyed (s.arrive (keyArrival 0x1E)) _ = _
    rw [keyed, hentry, hactive, arrive_bytes, hb.bytes]
    rfl
  have hstream := (rings_are_streams hrun (.input Ttys.firstTty)).1
  simp only [List.nil_append, List.flatMap_singleton, hinto, hout] at hstream
  exact hstream

end System
end UnivOS
