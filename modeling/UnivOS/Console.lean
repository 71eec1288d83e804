import UnivOS.Display
import UnivOS.IoCount

/-! # Terminal output

Processes write to terminals, the keyboard sends characters to the active one,
another one is selected and the active one is refreshed, in any order. What a
terminal displays and what is left in its output ring always make up the bytes
the ring has accepted, so a refresh displays all of them, and those of no other
terminal.
-/
namespace UnivOS

/-- The terminals and the screen they share. -/
structure Console where
  ttys : Ttys
  vga : Vga

/-- A write is a call of `ksyscall_io_write` in any state of the rest of the
kernel, so by any process, attached to any rings. -/
inductive ConsoleOp
  | write (context : Kernel) (io : Int) (buf size : BitVec 32)
  | select (n : Int)
  | input (c : Byte)
  | refresh

/-- The call, with the result 0 where the source has none. -/
def ConsoleOp.exec : ConsoleOp → Console → Res (Int × Console)
  | .write context io buf size, s =>
    let (rc, k) := Kernel.ksyscallIoWrite { context with ttys := s.ttys } io buf size
    .ok (rc, { s with ttys := k.ttys })
  | .select n, s => do
    let ttys ← s.ttys.ttySelect n
    .ok (0, { s with ttys })
  | .input c, s => .ok (0, { s with ttys := s.ttys.ttyInput c })
  | .refresh, s => do
    let (ttys, vga) ← s.ttys.ttyRefresh s.vga
    .ok (0, ⟨ttys, vga⟩)

abbrev ConsoleStep := Trace.Step Console (ConsoleOp × Int)

/-- Runs from what `tty_init` leaves, with any screen. -/
abbrev ConsoleRun : List ConsoleStep → Console → Prop :=
  Trace.Run (fun s => Ttys.ttyInit = .ok s.ttys)
    (Trace.Exec ConsoleOp.exec fun _ _ _ => True)

/-- The bytes in the output ring of terminal `k`. -/
def Console.output (s : Console) (k : Fin ttyMax) : List Byte :=
  (s.ttys.ttyTable k).ioOutput.toList

/-- The bytes a step adds to the output ring of terminal `k`. -/
def ConsoleStep.accepted (k : Fin ttyMax) (x : ConsoleStep) : List Byte :=
  match x.act.1 with
  | .write .. => (x.post.output k).drop (x.pre.output k).length
  | _ => []

/-- All bytes the output ring of terminal `k` has accepted. -/
def accepted (k : Fin ttyMax) (tr : List ConsoleStep) : List Byte :=
  tr.flatMap (ConsoleStep.accepted k)

theorem accepted_snoc (k : Fin ttyMax) (tr : List ConsoleStep) (x : ConsoleStep) :
    accepted k (tr ++ [x]) = accepted k tr ++ x.accepted k := by
  rw [accepted, List.flatMap_append, List.flatMap_singleton]
  rfl

/-! ## What one call does to a terminal -/

/-- The terminal has taken `data` into its output ring, and displays what it did. -/
structure Tty.Accepts (t t' : Tty) (data : List Byte) : Prop where
  buf : t'.buf = t.buf
  posX : t'.posX = t.posX
  posY : t'.posY = t.posY
  posScroll : t'.posScroll = t.posScroll
  echo : t'.echo = t.echo
  output : t'.ioOutput.toList = t.ioOutput.toList ++ data

theorem Tty.Accepts.rfl {t : Tty} : t.Accepts t [] := by
  constructor <;> simp

theorem Ttys.setTty_accepts {s : Ttys} {i : Fin ttyMax} {t : Tty} {data : List Byte}
    (h : (s.ttyTable i).Accepts t data) (k : Fin ttyMax) :
    (s.ttyTable k).Accepts ((s.setTty i t).ttyTable k) (if k = i then data else []) := by
  by_cases hk : k = i
  · subst hk
    rwa [Ttys.setTty_self, if_pos rfl]
  · rw [Ttys.setTty_ne hk, if_neg hk]
    exact .rfl

theorem Tty.Pending.accepts {t t' : Tty} {text data : List Byte} (h : t.Pending text)
    (ha : t.Accepts t' data) : t'.Pending (text ++ data) := by
  obtain ⟨shown, hd, hring⟩ := h
  refine ⟨shown, ⟨?_, ?_, ?_, fun hy hx => ?_⟩, ?_⟩
  · rw [ha.posScroll, hd.scroll]
  · rw [ha.posX, hd.column]
  · rw [ha.posY, hd.row]
  · rw [ha.buf]
    exact hd.cells hy hx
  · rw [ha.output, ← List.append_assoc, hring]

/-- A write appends to rings, and that is all it does to terminals. -/
theorem Kernel.ksyscallIoWrite_accepts (k : Kernel) (io : Int) (buf size : BitVec 32)
    (j : Fin ttyMax) : ∃ data, (k.ttys.ttyTable j).Accepts
      ((k.ksyscallIoWrite io buf size).2.ttys.ttyTable j) data := by
  unfold ksyscallIoWrite
  split
  · exact ⟨[], .rfl⟩
  rename_i r hr
  split
  · exact ⟨[], .rfl⟩
  rename_i b hb
  have hdata := Ringbuf.ringbufWriteMem_take hb
  cases r with
  | input i =>
    have hacc : (k.ttys.ttyTable i).Accepts { k.ttys.ttyTable i with ioInput := b } [] :=
      ⟨rfl, rfl, rfl, rfl, rfl, (List.append_nil _).symm⟩
    exact ⟨_, Ttys.setTty_accepts hacc j⟩
  | output i =>
    have hacc : (k.ttys.ttyTable i).Accepts { k.ttys.ttyTable i with ioOutput := b } _ :=
      ⟨rfl, rfl, rfl, rfl, rfl, hdata⟩
    exact ⟨_, Ttys.setTty_accepts hacc j⟩

theorem Ttys.ttySelect_ok {s s' : Ttys} {n : Int} (h : s.ttySelect n = .ok s') :
    ∃ i, s' = { (s.setTty i { s.ttyTable i with refresh := 1 }) with activeTty := some i } := by
  unfold ttySelect at h
  split at h
  · cases h
  · rename_i i _
    cases h
    exact ⟨i, rfl⟩

/-- With the echo off, a character goes to the input ring only. -/
theorem Ttys.ttyInput_echo_off {s : Ttys} (he : ∀ i, (s.ttyTable i).echo = 0) (c : Byte) :
    s.ttyInput c = s ∨ ∃ i input, s.ttyInput c = s.setTty i { s.ttyTable i with ioInput := input } := by
  unfold ttyInput
  split
  · exact .inl rfl
  · rename_i i _
    right
    dsimp only
    rw [if_neg (not_not_intro (he i))]
    exact ⟨i, _, rfl⟩

namespace ConsoleOp

variable {op : ConsoleOp} {s t : Console} {rc : Int}

theorem exec_write {context : Kernel} {io : Int} {buf size : BitVec 32}
    (h : (write context io buf size).exec s = .ok (rc, t)) (k : Fin ttyMax) :
    ∃ data, (s.ttys.ttyTable k).Accepts (t.ttys.ttyTable k) data := by
  have ha := Kernel.ksyscallIoWrite_accepts { context with ttys := s.ttys } io buf size k
  cases h
  exact ha

/-- Every call but a refresh leaves what terminals display. -/
theorem exec_accepts (he : ∀ k, (s.ttys.ttyTable k).echo = 0) (h : op.exec s = .ok (rc, t)) :
    op = .refresh ∨ ∀ k, (s.ttys.ttyTable k).Accepts (t.ttys.ttyTable k)
      (ConsoleStep.accepted k ⟨s, (op, rc), t⟩) := by
  cases op with
  | write context io buf size =>
    right
    intro k
    obtain ⟨data, ha⟩ := exec_write h k
    have hdata : ConsoleStep.accepted k ⟨s, (.write context io buf size, rc), t⟩ = data := by
      show (t.output k).drop (s.output k).length = data
      rw [Console.output, Console.output, ha.output, List.drop_left]
    rwa [hdata]
  | select n =>
    right
    intro k
    obtain ⟨ttys, hsel, h⟩ := Loop.bind_eq_ok.mp h
    cases h
    obtain ⟨i, rfl⟩ := Ttys.ttySelect_ok hsel
    have hacc : (s.ttys.ttyTable i).Accepts { s.ttys.ttyTable i with refresh := 1 } [] :=
      ⟨rfl, rfl, rfl, rfl, rfl, (List.append_nil _).symm⟩
    have hset := Ttys.setTty_accepts hacc k
    rwa [ite_self] at hset
  | input c =>
    right
    intro k
    cases h
    show (s.ttys.ttyTable k).Accepts ((s.ttys.ttyInput c).ttyTable k) []
    rcases Ttys.ttyInput_echo_off he c with hin | ⟨i, input, hin⟩
    · rw [hin]
      exact .rfl
    · have hacc : (s.ttys.ttyTable i).Accepts { s.ttys.ttyTable i with ioInput := input } [] :=
        ⟨rfl, rfl, rfl, rfl, rfl, (List.append_nil _).symm⟩
      have hset := Ttys.setTty_accepts hacc k
      rw [ite_self] at hset
      rwa [hin]
  | refresh => exact .inl rfl

/-- A refresh is of the active terminal. -/
theorem exec_refresh (h : refresh.exec s = .ok (rc, t)) :
    ∃ i, s.ttys.activeTty = some i ∧ s.ttys.ttyRefresh s.vga = .ok (t.ttys, t.vga) ∧
      Ttys.OnlyTty i s.ttys t.ttys := by
  obtain ⟨⟨ttys, vga⟩, hr, h⟩ := Loop.bind_eq_ok.mp h
  cases h
  cases hi : s.ttys.activeTty with
  | none =>
    rw [Ttys.ttyRefresh, hi] at hr
    cases hr
  | some i => exact ⟨i, rfl, hr, Ttys.ttyRefresh_only hi hr⟩

end ConsoleOp

/-! ## What holds in every run -/

variable {tr : List ConsoleStep} {s : Console}

/-- `tty_init` leaves cleared terminals, one of them to be drawn. -/
theorem start_table {s : Console} (hs : Ttys.ttyInit = .ok s.ttys) (k : Fin ttyMax) :
    ∃ refresh, s.ttys.ttyTable k = { Ttys.ttyZero.ttyTable k with refresh := refresh } := by
  have hinit : Ttys.ttyInitial = s.ttys := Except.ok.inj (Ttys.ttyInit_eq.symm.trans hs)
  rw [← hinit]
  by_cases hk : k = ⟨0, by decide⟩
  · subst hk
    exact ⟨1, rfl⟩
  · exact ⟨0, Function.update_of_ne hk ..⟩

/-- A cleared terminal displays the empty text. -/
theorem Tty.displays_nil (k : Fin ttyMax) : (Ttys.ttyZero.ttyTable k).Displays [] := by
  refine ⟨rfl, rfl, rfl, fun {y x} _ _ => ?_⟩
  have hrow : Lines.row ttyHeight ([[]] : List (List Byte)) y = [] := by
    rw [← List.nil_append [[]], Lines.row_snoc_nil_of_lt (by decide), Lines.row_of_le (Nat.zero_le _)]
  rw [List.splitOn_nil, hrow]
  exact .inl rfl

/-- No call turns an echo on. -/
theorem ConsoleRun.echo_off (h : ConsoleRun tr s) : ∀ k, (s.ttys.ttyTable k).echo = 0 := by
  refine h.state_invariant (P := fun s => ∀ k, (s.ttys.ttyTable k).echo = 0) ?_ ?_
  · intro s hs k
    obtain ⟨refresh, hk⟩ := start_table hs k
    rw [hk]
    rfl
  · intro tr s a t _ hstep he k
    obtain ⟨op, rc⟩ := a
    rcases ConsoleOp.exec_accepts he hstep.2 with rfl | hacc
    · obtain ⟨i, _, _, honly⟩ := ConsoleOp.exec_refresh hstep.2
      by_cases hk : k = i
      · rw [hk, honly.echo, he]
      · rw [honly.others k hk, he]
    · rw [(hacc k).echo, he]

/-- What a terminal displays and what is in its ring are the bytes it has accepted. -/
theorem ConsoleRun.pending (h : ConsoleRun tr s) (k : Fin ttyMax) :
    Tty.Fits (accepted k tr) → (s.ttys.ttyTable k).Pending (accepted k tr) := by
  refine h.invariant (P := fun tr s =>
    Tty.Fits (accepted k tr) → (s.ttys.ttyTable k).Pending (accepted k tr)) ?_ ?_
  · intro s hs _
    obtain ⟨refresh, hk⟩ := start_table hs k
    have hd := Tty.displays_nil k
    rw [hk]
    exact ⟨[], ⟨hd.scroll, hd.column, hd.row, hd.cells⟩, rfl⟩
  · intro tr s a t hrun hstep ih hfit
    obtain ⟨op, rc⟩ := a
    rw [accepted_snoc] at hfit ⊢
    have hp := ih hfit.of_append
    rcases ConsoleOp.exec_accepts (ConsoleRun.echo_off hrun) hstep.2 with rfl | hacc
    · obtain ⟨i, hi, hr, honly⟩ := ConsoleOp.exec_refresh hstep.2
      -- a refresh accepts nothing
      show (t.ttys.ttyTable k).Pending (accepted k tr ++ [])
      rw [List.append_nil]
      by_cases hk : k = i
      · subst hk
        obtain ⟨ttys, vga, hok, hd, hnil⟩ := Ttys.ttyRefresh_ok hi hp hfit.of_append s.vga
        obtain ⟨rfl, rfl⟩ := Prod.mk.inj (Except.ok.inj (hok.symm.trans hr))
        exact ⟨_, hd, by rw [hnil, List.append_nil]⟩
      · rw [honly.others k hk]
        exact hp
    · exact hp.accepts (hacc k)

/-- **Terminal output is faithful and isolated.** Where the bytes that the active
terminal has accepted fit, a refresh does not halt, and leaves all of them displayed
and no other terminal changed. -/
theorem tty_output_faithful (h : ConsoleRun tr s) {k : Fin ttyMax}
    (hk : s.ttys.activeTty = some k) (hfit : Tty.Fits (accepted k tr)) :
    ∃ t, ConsoleOp.refresh.exec s = .ok (0, t) ∧ (t.ttys.ttyTable k).Displays (accepted k tr) ∧
      t.output k = [] ∧ ∀ j, j ≠ k → t.ttys.ttyTable j = s.ttys.ttyTable j := by
  obtain ⟨ttys, vga, hr, hd, hnil⟩ := Ttys.ttyRefresh_ok hk (ConsoleRun.pending h k hfit) hfit s.vga
  refine ⟨⟨ttys, vga⟩, ?_, hd, hnil, (Ttys.ttyRefresh_only hk hr).others⟩
  rw [ConsoleOp.exec, hr]
  rfl

instance (text : List Byte) : Decidable (Tty.Fits text) :=
  decidable_of_iff ((∀ c ∈ text, c ∉ [Tty.tab, Tty.backspace, Tty.carriageReturn]) ∧
    Lines.Within Tty.newline ttyWidth text) ⟨fun h => ⟨h.1, h.2⟩, fun h => ⟨h.plain, h.lines⟩⟩

theorem consoleRun_of_test (ops : List ConsoleOp) (v : Vga)
    (P : List ConsoleStep → Console → Bool)
    (h : Trace.replayTest ConsoleOp.exec ops ⟨Ttys.ttyInitial, v⟩ P = true) :
    ∃ tr s, ConsoleRun tr s ∧ P tr s = true := by
  obtain ⟨tr, s, hr, ht⟩ := Trace.of_replayTest h
  exact ⟨tr, s, Trace.Run.of_replay Ttys.ttyInit_eq hr fun _ _ => trivial, ht⟩

/-- Process 1 writes the five bytes to terminal 1, which is then selected. -/
def sampleOps (bytes : List Byte) : List ConsoleOp :=
  [.write (({ IoCall.sample true 5 with mem := fun a => bytes.getD a.toNat 0 } : IoCall).caller
      (IoCall.attached 0)) 1 0 5,
    .select 1]

/-- "ab" and "cd" on two lines. -/
theorem tty_output_faithful_two : ∃ (tr : List ConsoleStep) (s t : Console),
    ConsoleRun tr s ∧ accepted ⟨1, by decide⟩ tr = [97, 98, 10, 99, 100] ∧
      ConsoleOp.refresh.exec s = .ok (0, t) ∧
      (t.ttys.ttyTable ⟨1, by decide⟩).Displays [97, 98, 10, 99, 100] := by
  obtain ⟨tr, s, hrun, ht⟩ := consoleRun_of_test (sampleOps [97, 98, 10, 99, 100])
    ⟨fun _ => 0, 0, 0, 0, 7, 0, 0⟩
    (fun tr s => decide (s.ttys.activeTty = some ⟨1, by decide⟩) &&
      decide (accepted ⟨1, by decide⟩ tr = [97, 98, 10, 99, 100])) (by decide +kernel)
  obtain ⟨hact, hacc⟩ := Bool.and_eq_true_iff.mp ht
  have hbytes := of_decide_eq_true hacc
  obtain ⟨t, hrefresh, hd, _⟩ := tty_output_faithful hrun (of_decide_eq_true hact)
    (by rw [hbytes]; decide +kernel)
  exact ⟨tr, s, t, hrun, hbytes, hrefresh, hbytes ▸ hd⟩

end UnivOS
