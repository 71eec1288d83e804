import UnivOS.Vga
import UnivOS.Lib.Lines

/-! # Refreshing a terminal

`tty_refresh` moves the bytes of the active terminal's output ring to its screen
buffer and draws the buffer. A terminal displays a text if its buffer shows the
last lines of the text and its cursor is behind them; each character handled
extends the text that is displayed.
-/
namespace UnivOS
open Word

namespace Ttys

/-- The body of the loop that handles new output. -/
def drainByte (i : Fin ttyMax) (s : Ttys) : Res Ttys :=
  match (s.ttyTable i).ioOutput.ringbufRead with
  | none => .ok s
  | some (c, b) => (s.setTty i { s.ttyTable i with ioOutput := b }).ttyUpdate c

/-- A ring holds at most `RINGBUF_SIZE` bytes, and each round takes one. -/
def ttyDrain (i : Fin ttyMax) (s : Ttys) : Res Ttys :=
  Loop.whileM (fun s => !(s.ttyTable i).ioOutput.ringbufIsEmpty) (drainByte i) ringbufSize s

/-- The body of the drawing loop: its `x` and `y`, and the screen. -/
def drawCell (t : Tty) (d : Int × Int × Vga) (i : Nat) : Res (Int × Int × Vga) := do
  let (x, y, v) := d
  let (x, y) := if x ≥ vgaWidth then (0, y + 1) else (x, y)
  let c ← getAt t.buf (t.posScroll * ttyWidth + i) "tty->buf"
  let v ← v.vgaPutcAt x y t.colorBg t.colorFg c
  .ok (x + 1, y, v)

def ttyRefresh (s : Ttys) (v : Vga) : Res (Ttys × Vga) :=
  match s.activeTty with
  | none => .error (.panic "No TTY is selected!")
  | some i => do
    let s ← s.ttyDrain i
    if (s.ttyTable i).refresh ≠ 0 then
      let (_, _, v) ← (List.range (ttyWidth * ttyHeight)).foldlM (drawCell (s.ttyTable i)) (0, 0, v)
      .ok (s.setTty i { s.ttyTable i with refresh := 0 }, v)
    else .ok (s, v)

end Ttys

namespace Tty

/-! ## What a terminal displays -/

/-- A cell shows the character of a line; behind the line it is blank. -/
def Shows : Option Byte → Byte → Prop
  | some c, b => b = c
  | none, b => b = 0 ∨ b = 32

/-- The buffer shows the last lines of the text, from the top and each from the
left, and the cursor is at the end of the last one. -/
structure Displays (t : Tty) (text : List Byte) : Prop where
  scroll : t.posScroll = 0
  column : t.posX = ((text.splitOn newline).getLastD []).length
  row : t.posY = min ((text.splitOn newline).length - 1) (ttyHeight - 1)
  cells : ∀ {y x : Nat} (hy : y < ttyHeight) (hx : x < ttyWidth),
    Shows (Lines.row ttyHeight (text.splitOn newline) y)[x]? (t.buf (cell hy hx))

/-- The text has no control characters but line ends, and its lines fit. -/
structure Fits (text : List Byte) : Prop where
  plain : ∀ c ∈ text, c ∉ [tab, backspace, carriageReturn]
  lines : Lines.Within newline ttyWidth text

theorem Fits.of_append {text rest : List Byte} (h : Fits (text ++ rest)) : Fits text :=
  ⟨fun c hc => h.plain c (List.mem_append_left _ hc), h.lines.of_append⟩

variable {t t' : Tty} {text : List Byte} {c : Byte}

/-- The cells of different positions are different. -/
theorem cell_ne {y x y' x' : Nat} {hy : y < ttyHeight} {hx : x < ttyWidth} {hy' : y' < ttyHeight}
    {hx' : x' < ttyWidth} (h : y = y' → x ≠ x') : cell hy hx ≠ cell hy' hx' := by
  intro he
  have hval : ttyWidth * y + x = ttyWidth * y' + x' := congrArg Fin.val he
  have hx80 : x < 80 := hx
  have hx80' : x' < 80 := hx'
  simp only [ttyWidth] at hval
  omega

/-- Scrolling moves every row up and blanks the last. -/
theorem ttyScroll_cells (buf : Fin ttyBufSize → Byte) : ∃ buf', ttyScroll buf = .ok buf' ∧
    ∀ {y x : Nat} (hy : y < ttyHeight) (hx : x < ttyWidth),
      buf' (cell hy hx) = if h : y + 1 < ttyHeight then buf (cell h hx) else 32 := by
  refine ⟨_, ttyScroll_ok buf, fun {y x} hy hx => ?_⟩
  have hx80 : x < 80 := hx
  have hy25 : y < 25 := hy
  have hval : (cell hy hx : Nat) + ttyWidth = ttyWidth * (y + 1) + x := by
    simp only [cell, ttyWidth]
    omega
  by_cases hy1 : y + 1 < ttyHeight
  · have hlt : (cell hy hx : Nat) + ttyWidth < ttyBufSize := by
      rw [hval]
      exact (cell hy1 hx).isLt
    rw [dif_pos hlt, dif_pos hy1]
    exact congrArg buf (Fin.ext hval)
  · rw [dif_neg hy1, dif_neg]
    rw [hval]
    simp only [ttyHeight, ttyBufSize, ttyScrollback, ttyWidth] at *
    omega

theorem ttyMove_newline (t : Tty) :
    t.ttyMove newline = .ok { t with posY := wrap32 (t.posY + 1), posX := 0 } := rfl

/-- A line end opens a line: on the next row, or on the last one after a scroll. -/
theorem Displays.newline (h : t.Displays text) :
    ∃ t', t.ttyUpdate Tty.newline = .ok t' ∧ t'.Displays (text ++ [Tty.newline]) := by
  have hpos : 0 < (text.splitOn Tty.newline).length :=
    List.length_pos_iff.mpr (List.splitOn_ne_nil _ _)
  have hh : (ttyHeight : Int) = 25 := rfl
  have hrow := h.row
  have hwrap : wrap32 (t.posY + 1) = t.posY + 1 := wrap32_of_inInt32 ⟨by omega, by omega⟩
  have hsplit := Lines.splitOn_sep Tty.newline text
  have hlen : ((text ++ [Tty.newline]).splitOn Tty.newline).length =
      (text.splitOn Tty.newline).length + 1 := by
    rw [hsplit, List.length_append, List.length_singleton]
  have hlast : (((text ++ [Tty.newline]).splitOn Tty.newline).getLastD []) = [] := by
    rw [hsplit, List.getLastD_concat]
  rw [Tty.ttyUpdate, ttyMove_newline, Loop.ok_bind]
  dsimp only
  rw [hwrap]
  by_cases hfull : ttyHeight ≤ (text.splitOn Tty.newline).length
  · obtain ⟨buf, hscroll, hcells⟩ := ttyScroll_cells t.buf
    rw [if_pos (by omega), hscroll, Loop.ok_bind]
    refine ⟨_, rfl, h.scroll, ?_, ?_, fun {y x} hy hx => ?_⟩
    · rw [hlast]
      rfl
    · rw [hlen]
      show (ttyHeight : Int) - 1 = _
      omega
    · rw [hsplit, Lines.row_snoc_nil_of_le hfull]
      show Shows _ (buf (cell hy hx))
      rw [hcells hy hx]
      split
      · rename_i hy1
        exact h.cells hy1 hx
      · rw [Lines.row_of_le (by omega)]
        exact .inr rfl
  · rw [if_neg (by omega)]
    refine ⟨_, rfl, h.scroll, ?_, ?_, fun {y x} hy hx => ?_⟩
    · rw [hlast]
      rfl
    · rw [hlen]
      show t.posY + 1 = _
      omega
    · rw [hsplit, Lines.row_snoc_nil_of_lt (Nat.lt_of_not_le hfull)]
      exact h.cells hy hx

/-- Any other character goes to the end of the last line. -/
theorem Displays.print (h : t.Displays text) (hfit : Fits (text ++ [c])) (hc : c ≠ Tty.newline) :
    ∃ t', t.ttyUpdate c = .ok t' ∧ t'.Displays (text ++ [c]) := by
  obtain ⟨closed, cur, hopen⟩ := Lines.splitOn_open Tty.newline text
  have hs : text.splitOn Tty.newline = closed ++ [cur] := by
    have := hopen [] List.not_mem_nil
    rwa [List.append_nil, List.append_nil] at this
  have hsc : (text ++ [c]).splitOn Tty.newline = closed ++ [cur ++ [c]] :=
    hopen [c] fun hmem => hc (List.mem_singleton.mp hmem).symm
  have hcur : cur.length < ttyWidth := by
    have hline := hfit.lines (cur ++ [c]) (by rw [hsc]; simp)
    rw [List.length_append, List.length_singleton] at hline
    omega
  have hcol : t.posX = cur.length := by rw [h.column, hs, List.getLastD_concat]
  have hrow : t.posY = (min closed.length (ttyHeight - 1) : Nat) := by
    rw [h.row, hs, List.length_append, List.length_singleton]
    omega
  have hy : min closed.length (ttyHeight - 1) < ttyHeight := by
    simp only [ttyHeight]
    omega
  have hplain : c ∉ [tab, backspace, carriageReturn, Tty.newline] := by
    have := hfit.plain c (List.mem_append_right _ (List.mem_singleton.mpr rfl))
    simp only [List.mem_cons, List.not_mem_nil, or_false, not_or] at this ⊢
    exact ⟨this.1, this.2.1, this.2.2, hc⟩
  have hw : (ttyWidth : Int) = 80 := rfl
  have hwrap : wrap32 (t.posX + 1) = t.posX + 1 := wrap32_of_inInt32 ⟨by omega, by omega⟩
  rw [Tty.ttyUpdate, ttyMove_store hy hcur hrow hcol h.scroll hplain, Loop.ok_bind]
  dsimp only
  rw [if_neg (by omega)]
  refine ⟨_, rfl, h.scroll, ?_, ?_, fun {y x} hy' hx => ?_⟩
  · rw [hsc, List.getLastD_concat, List.length_append, List.length_singleton]
    show wrap32 (t.posX + 1) = _
    omega
  · rw [hsc, List.length_append, List.length_singleton]
    show t.posY = _
    omega
  · have hold := h.cells hy' hx
    rw [hs] at hold
    rw [hsc]
    show Shows _ (Function.update t.buf (cell hy hcur) c (cell hy' hx))
    by_cases hyr : y = min closed.length (ttyHeight - 1)
    · subst hyr
      rw [Lines.row_open (by decide)] at hold ⊢
      by_cases hxc : x = cur.length
      · subst hxc
        rw [List.getElem?_concat_length, Function.update_self]
        rfl
      · rw [Function.update_of_ne (cell_ne fun _ => hxc)]
        rcases Nat.lt_or_gt_of_ne hxc with hlt | hgt
        · rwa [List.getElem?_append_left hlt]
        · rw [List.getElem?_eq_none (by omega)] at hold
          rwa [List.getElem?_eq_none (by rw [List.length_append, List.length_singleton]; omega)]
    · rw [Function.update_of_ne (cell_ne fun he => absurd he hyr),
        Lines.row_open_ne closed (cur ++ [c]) cur hyr]
      exact hold

/-- Each character handled extends the text. -/
theorem Displays.ttyUpdate (h : t.Displays text) (hfit : Fits (text ++ [c])) :
    ∃ t', t.ttyUpdate c = .ok t' ∧ t'.Displays (text ++ [c]) := by
  by_cases hc : c = Tty.newline
  · subst hc
    exact h.newline
  · exact h.print hfit hc

/-- What the terminal is still to display is in its output ring. -/
def Pending (t : Tty) (text : List Byte) : Prop :=
  ∃ shown, t.Displays shown ∧ shown ++ t.ioOutput.toList = text

/-- `tty_update` leaves the rings and the flags but `refresh`. -/
theorem ttyMove_frame (h : t.ttyMove c = .ok t') :
    ∃ buf x y, t' = { t with buf := buf, posX := x, posY := y } := by
  unfold ttyMove at h
  split at h
  · cases h; exact ⟨_, _, _, rfl⟩
  split at h
  · split at h
    · cases h; exact ⟨_, _, _, rfl⟩
    · split at h
      · cases h; exact ⟨_, _, _, rfl⟩
      · cases h; exact ⟨_, _, _, rfl⟩
  split at h
  · cases h; exact ⟨_, _, _, rfl⟩
  split at h
  · cases h; exact ⟨_, _, _, rfl⟩
  obtain ⟨buf, _, h⟩ := Loop.bind_eq_ok.mp h
  cases h
  exact ⟨_, _, _, rfl⟩

theorem ttyUpdate_frame (h : t.ttyUpdate c = .ok t') :
    ∃ buf x y, t' = { t with buf := buf, posX := x, posY := y, refresh := 1 } := by
  obtain ⟨u, hmove, h⟩ := Loop.bind_eq_ok.mp h
  obtain ⟨buf, x, y, rfl⟩ := ttyMove_frame hmove
  split at h
  · obtain ⟨buf', _, h⟩ := Loop.bind_eq_ok.mp h
    cases h
    exact ⟨_, _, _, rfl⟩
  · cases h
    exact ⟨_, _, _, rfl⟩

end Tty

namespace Ttys

variable {s s' : Ttys} {i j : Fin ttyMax} {v v' : Vga} {text : List Byte}

theorem ttyUpdate_active (hi : s.activeTty = some i) (c : Byte) :
    s.ttyUpdate c = (s.ttyTable i).ttyUpdate c >>= fun t => .ok (s.setTty i t) := by
  unfold ttyUpdate
  split
  · rename_i hnone
    rw [hi] at hnone
    cases hnone
  · rename_i k hk
    cases hk.symm.trans hi
    rfl

/-! ## What a refresh leaves alone -/

/-- Nothing has changed but the terminal `i`, and its `echo` flag has not. -/
structure OnlyTty (i : Fin ttyMax) (s s' : Ttys) : Prop where
  activeTty : s'.activeTty = s.activeTty
  others : ∀ j, j ≠ i → s'.ttyTable j = s.ttyTable j
  echo : (s'.ttyTable i).echo = (s.ttyTable i).echo

theorem OnlyTty.trans {s'' : Ttys} (h : OnlyTty i s s') (h' : OnlyTty i s' s'') :
    OnlyTty i s s'' :=
  ⟨h'.activeTty.trans h.activeTty, fun j hj => (h'.others j hj).trans (h.others j hj),
    h'.echo.trans h.echo⟩

theorem OnlyTty.setTty {t : Tty} (h : t.echo = (s.ttyTable i).echo) :
    OnlyTty i s (s.setTty i t) := by
  refine ⟨rfl, fun j hj => setTty_ne hj, ?_⟩
  rw [setTty_self, h]

/-- A round takes the oldest byte out of the ring. -/
theorem drainByte_cases (hi : s.activeTty = some i) (h : drainByte i s = .ok s') :
    ((s.ttyTable i).ioOutput.toList = [] ∧ s' = s) ∨
    ∃ c t, (s.ttyTable i).ioOutput.toList = c :: t.ioOutput.toList ∧
      t.echo = (s.ttyTable i).echo ∧ s' = s.setTty i t := by
  unfold drainByte at h
  split at h
  · rename_i hread
    cases h
    exact .inl ⟨Ringbuf.ringbufRead_none.mp hread, rfl⟩
  · rename_i c b hread
    rw [ttyUpdate_active (by exact hi), setTty_self] at h
    obtain ⟨t, hup, h⟩ := Loop.bind_eq_ok.mp h
    cases h
    obtain ⟨buf, x, y, ht⟩ := Tty.ttyUpdate_frame hup
    refine .inr ⟨c, t, ?_, ?_, setTty_setTty⟩
    · rw [ht]
      exact Ringbuf.ringbufRead_some hread
    · rw [ht]

theorem drainByte_only (hi : s.activeTty = some i) (h : drainByte i s = .ok s') :
    OnlyTty i s s' := by
  rcases drainByte_cases hi h with ⟨_, rfl⟩ | ⟨c, t, _, hecho, rfl⟩
  · exact ⟨rfl, fun _ _ => rfl, rfl⟩
  · exact OnlyTty.setTty hecho

theorem hasOutput_iff : (!(s.ttyTable i).ioOutput.ringbufIsEmpty) = true ↔
    (s.ttyTable i).ioOutput.toList ≠ [] := by
  rw [Bool.not_eq_true', ← Bool.not_eq_true, Ringbuf.ringbufIsEmpty_iff]

/-- The loop ends when the ring is empty, not for want of fuel. -/
theorem ttyDrain_only (hi : s.activeTty = some i) (h : s.ttyDrain i = .ok s') :
    OnlyTty i s s' ∧ (s'.ttyTable i).ioOutput.toList = [] := by
  have round : ∀ u w : Ttys, (!(u.ttyTable i).ioOutput.ringbufIsEmpty) = true → OnlyTty i s u →
      drainByte i u = .ok w → OnlyTty i s w ∧
        (w.ttyTable i).ioOutput.toList.length < (u.ttyTable i).ioOutput.toList.length := by
    intro u w hne hu hw
    have hact := hu.activeTty.trans hi
    refine ⟨hu.trans (drainByte_only hact hw), ?_⟩
    rcases drainByte_cases hact hw with ⟨hnil, _⟩ | ⟨c, t, hcons, _, rfl⟩
    · exact absurd hnil (hasOutput_iff.mp hne)
    · rw [hcons, setTty_self]
      exact Nat.lt_succ_self _
  obtain ⟨honly, hend⟩ := Loop.whileM_done (OnlyTty i s)
    (fun u => (u.ttyTable i).ioOutput.toList.length) round ringbufSize ⟨rfl, fun _ _ => rfl, rfl⟩
    (s.ttyTable i).ioOutput.length_le h
  refine ⟨honly, ?_⟩
  by_contra hne
  exact hne (List.length_eq_zero_iff.mp (hend (hasOutput_iff.mpr hne)))

/-- A refresh changes the active terminal only. -/
theorem ttyRefresh_only (hi : s.activeTty = some i) (h : s.ttyRefresh v = .ok (s', v')) :
    OnlyTty i s s' := by
  rw [ttyRefresh, hi] at h
  obtain ⟨u, hdrain, h⟩ := Loop.bind_eq_ok.mp h
  have hu := (ttyDrain_only hi hdrain).1
  split at h
  · obtain ⟨_, _, h⟩ := Loop.bind_eq_ok.mp h
    cases h
    exact hu.trans (OnlyTty.setTty rfl)
  · cases h
    exact hu

/-! ## What a refresh displays -/

theorem drainByte_ok (hi : s.activeTty = some i) (hp : (s.ttyTable i).Pending text)
    (hfit : Tty.Fits text) (hne : (s.ttyTable i).ioOutput.toList ≠ []) :
    ∃ s', drainByte i s = .ok s' ∧ (s'.ttyTable i).Pending text := by
  obtain ⟨shown, hd, hring⟩ := hp
  cases hread : (s.ttyTable i).ioOutput.ringbufRead with
  | none => exact absurd (Ringbuf.ringbufRead_none.mp hread) hne
  | some r =>
    obtain ⟨c, b⟩ := r
    have hcons := Ringbuf.ringbufRead_some hread
    have htext : (shown ++ [c]) ++ b.toList = text := by
      rw [List.append_assoc, List.singleton_append, ← hcons, hring]
    have hd' : Tty.Displays { s.ttyTable i with ioOutput := b } shown :=
      ⟨hd.scroll, hd.column, hd.row, hd.cells⟩
    obtain ⟨t, hup, hdisp⟩ := hd'.ttyUpdate (c := c) (htext ▸ hfit).of_append
    obtain ⟨buf, x, y, rfl⟩ := Tty.ttyUpdate_frame hup
    rw [drainByte, hread]
    dsimp only
    rw [ttyUpdate_active (by exact hi), setTty_self, hup, Loop.ok_bind]
    refine ⟨_, rfl, shown ++ [c], ?_, ?_⟩
    · rwa [setTty_self]
    · rwa [setTty_self]

/-- The loop ends with the ring empty and everything displayed. -/
theorem ttyDrain_ok (hi : s.activeTty = some i) (hp : (s.ttyTable i).Pending text)
    (hfit : Tty.Fits text) : ∃ s', s.ttyDrain i = .ok s' ∧ (s'.ttyTable i).Displays text ∧
      (s'.ttyTable i).ioOutput.toList = [] := by
  obtain ⟨s', hs', _, hp'⟩ := Loop.whileM_ok
    (fun u => u.activeTty = some i ∧ (u.ttyTable i).Pending text)
    (fun u hne hu => by
      obtain ⟨w, hw, hpw⟩ := drainByte_ok hu.1 hu.2 hfit (hasOutput_iff.mp hne)
      exact ⟨w, hw, (drainByte_only hu.1 hw).activeTty.trans hu.1, hpw⟩)
    ringbufSize s ⟨hi, hp⟩
  have hnil := (ttyDrain_only hi hs').2
  obtain ⟨shown, hd, hring⟩ := hp'
  rw [hnil, List.append_nil] at hring
  exact ⟨s', hs', hring ▸ hd, hnil⟩

theorem drawCell_ok {t : Tty} (hs : t.posScroll = 0) (d : Int × Int × Vga) {i : Nat}
    (hi : i < ttyWidth * ttyHeight) : ∃ d', drawCell t d i = .ok d' := by
  obtain ⟨x, y, v⟩ := d
  have hsrc : t.posScroll * ttyWidth + i = (i : Nat) := by rw [hs]; omega
  unfold drawCell
  dsimp only
  rw [hsrc, getAt_nat t.buf hi, Loop.ok_bind]
  obtain ⟨w, hw⟩ := Vga.vgaPutcAt_ok v (if x ≥ vgaWidth then (0, y + 1) else (x, y)).1
    (if x ≥ vgaWidth then (0, y + 1) else (x, y)).2 t.colorBg t.colorFg (t.buf ⟨i, hi⟩)
  rw [hw]
  exact ⟨_, rfl⟩

/-- A refresh of a terminal whose output fits ends with all of it displayed. -/
theorem ttyRefresh_ok (hi : s.activeTty = some i) (hp : (s.ttyTable i).Pending text)
    (hfit : Tty.Fits text) (v : Vga) : ∃ s' v', s.ttyRefresh v = .ok (s', v') ∧
      (s'.ttyTable i).Displays text ∧ (s'.ttyTable i).ioOutput.toList = [] := by
  obtain ⟨u, hu, hd, hnil⟩ := ttyDrain_ok hi hp hfit
  rw [ttyRefresh, hi]
  dsimp only
  rw [hu, Loop.ok_bind]
  split
  · obtain ⟨d, hdraw⟩ := Loop.range_returns ((0, 0, v) : Int × Int × Vga)
      fun n hn d => drawCell_ok hd.scroll d hn
    rw [hdraw, Loop.ok_bind]
    refine ⟨_, _, rfl, ?_, ?_⟩
    · rw [setTty_self]
      exact ⟨hd.scroll, hd.column, hd.row, hd.cells⟩
    · rw [setTty_self]
      exact hnil
  · exact ⟨u, v, rfl, hd, hnil⟩

end Ttys
end UnivOS
