import UnivOS.Display

/-! # Painting a terminal

A refresh draws the buffer cell by cell. A cell of the screen is a byte below the
colours; `VGA_CHAR` puts the character there as an `int`, so that the sign of a
character from 0x80 on covers the colours.
-/
namespace UnivOS
open Word

/-! ## The two bytes of a cell -/

def lowByte (w : BitVec 16) : Byte := w.setWidth 8

def highByte (w : BitVec 16) : Byte := w.extractLsb' 8 8

theorem vgaAttr_mask (bg fg : BitVec 32) : vgaAttr (bg &&& 0xf) (fg &&& 0xf) = vgaAttr bg fg := by
  rw [vgaAttr, BitVec.and_assoc, BitVec.and_assoc, BitVec.and_self]
  rfl

theorem lowByte_vgaChar (bg fg : Int) (c : Byte) : lowByte (vgaChar bg fg c) = c := by
  apply BitVec.eq_of_getElem_eq
  intro i hi
  simp [lowByte, vgaChar, BitVec.getElem_signExtend, hi, show i < 32 by omega]

/-- The high byte holds the colours, under the sign of the character. -/
theorem highByte_vgaChar (bg fg : Int) (c : Byte) :
    highByte (vgaChar bg fg c) = (vgaAttr (BitVec.ofInt 32 bg) (BitVec.ofInt 32 fg)).setWidth 8 |||
      if c.msb then BitVec.allOnes 8 else 0 := by
  rw [vgaChar, vgaAttr_mask]
  generalize vgaAttr (BitVec.ofInt 32 bg) (BitVec.ofInt 32 fg) = attr
  apply BitVec.eq_of_getElem_eq
  intro i hi
  have hhigh : 8 + i < 16 := by omega
  have hword : 8 + i < 32 := by omega
  cases hc : c.msb with
  | false => simp [highByte, BitVec.getElem_signExtend, hc, hhigh, hword]
  | true => simp [highByte, BitVec.getElem_signExtend, hc, hhigh, hword, -BitVec.reduceAllOnes]

/-! ## One character -/

namespace Vga

variable {v : Vga} {x y bg fg : Int} {c : Byte} {k : Nat}

theorem vgaMove_plain (hk : k < vgaSize) (hpos : v.posX + v.posY * vgaWidth = k)
    (hc : c ∉ [Tty.tab, Tty.backspace, Tty.carriageReturn, Tty.newline]) :
    v.vgaMove c = .ok { v with
      buf := Function.update v.buf ⟨k, hk⟩ (vgaChar v.colorBg v.colorFg c)
      posX := wrap32 (v.posX + 1) } := by
  simp only [List.mem_cons, List.not_mem_nil, or_false, not_or] at hc
  obtain ⟨htab, hback, hreturn, hnewline⟩ := hc
  rw [vgaMove, vgaMoveBy, if_neg hback, if_neg htab, if_neg hreturn, if_neg hnewline, vgaSetcBy,
    checked, hpos,
    setAt_nat _ hk]
  rfl

theorem clamp_of_range {n : Int} {size : Nat} (h0 : 0 ≤ n) (h : n < size) : clamp n size = n := by
  rw [clamp, if_neg (by omega), if_neg (by omega)]

/-- A character printed at a position of the screen changes its cell only. -/
theorem vgaPutcAt_plain (hs : v.scroll = 0) (hx0 : 0 ≤ x) (hx : x < vgaWidth) (hy0 : 0 ≤ y)
    (hy : y < vgaHeight) (hk : k < vgaSize) (hpos : x + y * vgaWidth = k)
    (hc : c ∉ [Tty.tab, Tty.backspace, Tty.carriageReturn, Tty.newline]) :
    v.vgaPutcAt x y bg fg c = .ok { v with
      buf := Function.update v.buf ⟨k, hk⟩ (vgaChar (and32 bg 0x7) (and32 fg 0xf) c) } := by
  rw [vgaPutcAt, clamp_of_range hx0 hx, clamp_of_range hy0 hy, vgaPutc,
    vgaPutcBy, vgaMoveBy_checked, vgaMove_plain hk (by exact hpos) hc, Loop.ok_bind]
  unfold wrapLine
  split
  · dsimp only
    rw [if_neg (by rw [hs]; exact fun h => h.1 rfl)]
    rfl
  · dsimp only
    rw [if_neg (by rw [hs]; exact fun h => h.1 rfl)]
    rfl

theorem cell_lt {y x : Nat} (hy : y < vgaHeight) (hx : x < vgaWidth) :
    x + y * vgaWidth < vgaSize := by
  simp only [vgaHeight, vgaWidth, vgaSize] at *
  omega

/-- The cell in column `x` of row `y`. -/
def cell {y x : Nat} (hy : y < vgaHeight) (hx : x < vgaWidth) : Fin vgaSize :=
  ⟨x + y * vgaWidth, cell_lt hy hx⟩

end Vga

/-! ## The drawing loop -/

namespace Ttys

variable {s : Ttys} {i : Fin ttyMax} {v : Vga} {t : Tty}

/-- The buffer has the cells of the screen. -/
theorem vgaSize_eq : vgaSize = ttyBufSize := rfl

/-- What the loop makes of cell `k`. -/
def drawn (t : Tty) (k : Fin vgaSize) : BitVec 16 :=
  vgaChar (and32 t.colorBg 0x7) (and32 t.colorFg 0xf) (t.buf (k.cast vgaSize_eq))

/-- The screen after `n` rounds of the loop. -/
def drawnTo (t : Tty) (v : Vga) (n : Nat) : Vga :=
  { v with buf := fun k => if (k : Nat) < n then drawn t k else v.buf k }

theorem drawnTo_succ (t : Tty) (v : Vga) {n : Nat} (hn : n < vgaSize) :
    Function.update (drawnTo t v n).buf ⟨n, hn⟩ (drawn t ⟨n, hn⟩) = (drawnTo t v (n + 1)).buf := by
  funext k
  by_cases hk : k = ⟨n, hn⟩
  · subst hk
    rw [Function.update_self]
    exact (if_pos (Nat.lt_succ_self n)).symm
  · have hne : (k : Nat) ≠ n := fun h => hk (Fin.ext h)
    rw [Function.update_of_ne hk]
    exact if_congr (by omega) rfl rfl

theorem drawnTo_all (t : Tty) (v : Vga) : drawnTo t v vgaSize = { v with buf := drawn t } := by
  unfold drawnTo
  congr 1
  funext k
  exact if_pos k.isLt

/-- The loop's own coordinates are behind the last cell drawn. -/
theorem drawCell_step (hbuf : ∀ k, t.buf k ∉ [Tty.tab, Tty.backspace, Tty.carriageReturn,
    Tty.newline]) (hpos : t.posScroll = 0) (hv : v.scroll = 0) {n : Nat} (hn : n < vgaSize)
    {x y : Int} (hx0 : 0 ≤ x) (hx : x ≤ vgaWidth) (hy0 : 0 ≤ y) (hxy : x + y * vgaWidth = n) :
    ∃ x' y' : Int, drawCell t (x, y, drawnTo t v n) n = .ok (x', y', drawnTo t v (n + 1)) ∧
      0 ≤ x' ∧ x' ≤ vgaWidth ∧ 0 ≤ y' ∧ x' + y' * vgaWidth = (n + 1 : Nat) := by
  have hw : (vgaWidth : Int) = 80 := rfl
  have hh : (vgaHeight : Int) = 25 := rfl
  have hn2000 : n < 2000 := hn
  rw [hw] at hx hxy ⊢
  have hsrc : t.posScroll * ttyWidth + n = (n : Nat) := by rw [hpos]; omega
  obtain ⟨x', y', he, hx0', hx', hy0', hy', hxy'⟩ : ∃ x' y' : Int,
      (if x ≥ vgaWidth then (0, y + 1) else (x, y)) = (x', y') ∧ 0 ≤ x' ∧ x' < 80 ∧
        0 ≤ y' ∧ y' < 25 ∧ x' + y' * 80 = n := by
    by_cases hend : x ≥ vgaWidth
    · exact ⟨0, y + 1, if_pos hend, by omega, by omega, by omega, by omega, by omega⟩
    · exact ⟨x, y, if_neg hend, by omega, by omega, by omega, by omega, by omega⟩
  refine ⟨x' + 1, y', ?_, by omega, by omega, hy0', by omega⟩
  unfold drawCell
  dsimp only
  rw [he, hsrc, getAt_nat t.buf (vgaSize_eq ▸ hn), Loop.ok_bind]
  dsimp only
  rw [Vga.vgaPutcAt_plain (by exact hv) hx0' hx' hy0' hy' hn hxy' (hbuf _), Loop.ok_bind]
  refine congrArg (fun buf => Except.ok (x' + 1, y', { v with buf := buf })) ?_
  exact drawnTo_succ t v hn

/-- With an empty output ring there is nothing to handle before the drawing. -/
theorem ttyDrain_empty (hring : (s.ttyTable i).ioOutput.toList = []) : s.ttyDrain i = .ok s := by
  refine Loop.whileM_false ?_ _
  rw [Ringbuf.ringbufIsEmpty_iff.mpr hring]
  rfl

theorem ttyRefresh_draws (hi : s.activeTty = some i) (hbuf : ∀ k, (s.ttyTable i).buf k ∉
    [Tty.tab, Tty.backspace, Tty.carriageReturn, Tty.newline])
    (hpos : (s.ttyTable i).posScroll = 0) (hring : (s.ttyTable i).ioOutput.toList = [])
    (hrefresh : (s.ttyTable i).refresh ≠ 0) (hv : v.scroll = 0) :
    s.ttyRefresh v = .ok (s.setTty i { s.ttyTable i with refresh := 0 },
      { v with buf := drawn (s.ttyTable i) }) := by
  obtain ⟨d, hdraw, x, y, rfl, _⟩ := Loop.range_ok (f := drawCell (s.ttyTable i))
    (n := ttyWidth * ttyHeight) (s := (0, 0, v))
    (fun n d => ∃ x y : Int, d = (x, y, drawnTo (s.ttyTable i) v n) ∧ 0 ≤ x ∧ x ≤ vgaWidth ∧
      0 ≤ y ∧ x + y * vgaWidth = n)
    ⟨0, 0, rfl, le_rfl, by decide, le_rfl, rfl⟩ fun n hn d ⟨x, y, hd, hx0, hx, hy0, hxy⟩ => by
      obtain ⟨x', y', hstep, h⟩ := drawCell_step hbuf hpos hv hn hx0 hx hy0 hxy
      exact ⟨_, hd ▸ hstep, x', y', rfl, h⟩
  have hall : drawnTo (s.ttyTable i) v (ttyWidth * ttyHeight) = _ := drawnTo_all _ v
  rw [ttyRefresh, hi]
  dsimp only
  rw [ttyDrain_empty hring, Loop.ok_bind, if_pos hrefresh, hdraw, Loop.ok_bind, hall]

/-! ## What a refresh paints -/

/-- A terminal to refresh: nothing in it is a control character, its colours are those
of `tty_init`, it is not scrolled back and its output is in the buffer. -/
structure Paintable (t : Tty) : Prop where
  plain : ∀ k, t.buf k ∉ [Tty.tab, Tty.backspace, Tty.carriageReturn, Tty.newline]
  colorBg : t.colorBg = 0
  colorFg : t.colorFg = 7
  posScroll : t.posScroll = 0
  output : t.ioOutput.toList = []
  refresh : t.refresh ≠ 0

/-- Every cell shows its character in the colours of the terminal, and the globals of
the screen are as before. -/
structure Painted (t : Tty) (v v' : Vga) : Prop where
  low : ∀ {y x : Nat} (hy : y < vgaHeight) (hx : x < vgaWidth),
    lowByte (v'.buf (Vga.cell hy hx)) = t.buf (Tty.cell hy hx)
  high : ∀ {y x : Nat} (hy : y < vgaHeight) (hx : x < vgaWidth),
    highByte (v'.buf (Vga.cell hy hx)) = BitVec.ofInt 8 t.colorBg <<< 4 ||| BitVec.ofInt 8 t.colorFg
  posX : v'.posX = v.posX
  posY : v'.posY = v.posY
  colorBg : v'.colorBg = v.colorBg
  colorFg : v'.colorFg = v.colorFg
  cursor : v'.cursor = v.cursor

theorem cell_cast {y x : Nat} (hy : y < vgaHeight) (hx : x < vgaWidth) :
    (Vga.cell hy hx).cast vgaSize_eq = Tty.cell hy hx := by
  refine Fin.ext ?_
  show x + y * vgaWidth = ttyWidth * y + x
  simp only [vgaWidth, ttyWidth]
  omega

theorem msb_eq_false_iff (c : Byte) : c.msb = false ↔ c.toNat < 0x80 := by
  rw [BitVec.msb_eq_false_iff_two_mul_lt]
  omega

theorem highByte_drawn (ht : Paintable t) (k : Fin vgaSize) :
    highByte (drawn t k) = BitVec.ofInt 8 t.colorBg <<< 4 ||| BitVec.ofInt 8 t.colorFg ↔
      (t.buf (k.cast vgaSize_eq)).toNat < 0x80 := by
  rw [drawn, highByte_vgaChar, ht.colorBg, ht.colorFg, ← msb_eq_false_iff]
  cases (t.buf (k.cast vgaSize_eq)).msb <;> decide

theorem painted_iff (ht : Paintable t) (v : Vga) :
    Painted t v { v with buf := drawn t } ↔ ∀ k, (t.buf k).toNat < 0x80 := by
  constructor
  · intro h k
    have hk : (k : Nat) < 2000 := k.isLt
    have hy : (k : Nat) / 80 < vgaHeight := by
      simp only [vgaHeight]
      omega
    have hx : (k : Nat) % 80 < vgaWidth := Nat.mod_lt _ (by decide)
    have hcell : Tty.cell hy hx = k := by
      refine Fin.ext ?_
      show ttyWidth * (k / 80) + k % 80 = (k : Nat)
      simp only [ttyWidth]
      omega
    have hhigh := (highByte_drawn ht (Vga.cell hy hx)).mp (h.high hy hx)
    rwa [cell_cast, hcell] at hhigh
  · intro hlt
    refine ⟨fun hy hx => ?_, fun hy hx => ?_, rfl, rfl, rfl, rfl, rfl⟩
    · show lowByte (drawn t (Vga.cell hy hx)) = _
      rw [drawn, lowByte_vgaChar, cell_cast]
    · exact (highByte_drawn ht _).mpr (hlt _)

/-- **A refresh paints exactly the terminal if every character of its buffer is below
0x80.** -/
theorem ttyRefresh_paints_iff (hi : s.activeTty = some i) (ht : Paintable (s.ttyTable i))
    (hv : v.scroll = 0) :
    (∃ s' v', s.ttyRefresh v = .ok (s', v') ∧ Painted (s.ttyTable i) v v' ∧
      (s'.ttyTable i).refresh = 0) ↔ ∀ k, ((s.ttyTable i).buf k).toNat < 0x80 := by
  have hdraws := ttyRefresh_draws hi ht.plain ht.posScroll ht.output ht.refresh hv
  rw [← painted_iff ht v]
  constructor
  · intro ⟨s', v', hok, hpainted, _⟩
    cases hdraws.symm.trans hok
    exact hpainted
  · intro hpainted
    exact ⟨_, _, hdraws, hpainted, by rw [setTty_self]⟩

theorem ttyMax_pos : 0 < ttyMax := by decide

def firstTty : Fin ttyMax := ⟨0, ttyMax_pos⟩

/-- The terminal `tty_init` selects, with `c` everywhere. -/
def filled (c : Byte) : Ttys :=
  { ttyTable := fun j => { ttyZero.ttyTable j with buf := fun _ => c, refresh := 1 }
    activeTty := some firstTty }

def vgaZero : Vga :=
  { buf := fun _ => 0, posX := 0, posY := 0, colorBg := 0, colorFg := 7, cursor := 0, scroll := 0 }

theorem filled_paintable {c : Byte}
    (hc : c ∉ [Tty.tab, Tty.backspace, Tty.carriageReturn, Tty.newline]) :
    Paintable ((filled c).ttyTable firstTty) :=
  ⟨fun _ => hc, rfl, rfl, rfl, rfl, Int.one_ne_zero⟩

/-- A screen of letters. -/
theorem ttyRefresh_paints_letters : ∃ s' v', (filled 97).ttyRefresh vgaZero = .ok (s', v') ∧
    Painted ((filled 97).ttyTable firstTty) vgaZero v' ∧ (s'.ttyTable firstTty).refresh = 0 :=
  (ttyRefresh_paints_iff rfl (filled_paintable (by decide)) rfl).mpr fun _ =>
    show (97 : Byte).toNat < 0x80 by decide

/-- The up arrow is 0xE2: its cells get white on white for the colours. -/
theorem ttyRefresh_covers_colors : (∃ s' v', (filled 0xE2).ttyRefresh vgaZero = .ok (s', v') ∧
      (∀ k, v'.buf k = 0xFFE2)) ∧ Paintable ((filled 0xE2).ttyTable firstTty) ∧
    ¬ ∃ s' v', (filled 0xE2).ttyRefresh vgaZero = .ok (s', v') ∧
      Painted ((filled 0xE2).ttyTable firstTty) vgaZero v' ∧ (s'.ttyTable firstTty).refresh = 0 := by
  have ht := filled_paintable (c := 0xE2) (by decide)
  have hdraws := ttyRefresh_draws (s := filled 0xE2) (v := vgaZero) rfl ht.plain ht.posScroll
    ht.output ht.refresh rfl
  refine ⟨⟨_, _, hdraws, fun k => ?_⟩, ht, ?_⟩
  · show vgaChar (and32 0 0x7) (and32 7 0xf) 0xE2 = 0xFFE2
    decide
  · intro ⟨s', v', hok, hpainted, _⟩
    cases hdraws.symm.trans hok
    exact absurd ((painted_iff ht vgaZero).mp hpainted ⟨0, by decide⟩) (by decide)

end Ttys
end UnivOS
