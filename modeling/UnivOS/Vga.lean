import UnivOS.Tty

/-! # The text screen

The part of `vga.c` that terminals draw through. A store into the video memory is a
parameter of the functions that make one. That of the model is checked like those into
a terminal's buffer; another lets a string that leaves the screen be printed to its end.
The ports that move the hardware cursor are left out.
-/
namespace UnivOS
open Word

def vgaWidth : Nat := 80
def vgaHeight : Nat := 25
def vgaSize : Nat := vgaWidth * vgaHeight

/-- `VGA_ATTR`. -/
def vgaAttr (bg fg : BitVec 32) : BitVec 32 := ((bg &&& 0xf) <<< 4) ||| (fg &&& 0xf)

/-- `VGA_CHAR`, as a cell holds it; the `char` is signed. -/
def vgaChar (bg fg : Int) (c : Byte) : BitVec 16 :=
  ((vgaAttr (BitVec.ofInt 32 bg &&& 0xf) (BitVec.ofInt 32 fg &&& 0xf) <<< 8) |||
    c.signExtend 32).setWidth 16

/-- The video memory and the globals of `vga.c`. -/
structure Vga where
  buf : Fin vgaSize → BitVec 16
  posX : Int
  posY : Int
  colorBg : Int
  colorFg : Int
  cursor : Int
  scroll : Int

namespace Vga

/-- An assignment to `vga_buf[i]`, and the screen after it. -/
abbrev Store := (Fin vgaSize → BitVec 16) → Int → BitVec 16 → Res (Fin vgaSize → BitVec 16)

/-- Outside the screen it is undefined. -/
def checked : Store := fun buf i x => setAt buf i x "vga_buf"

/-- Outside the screen it changes other memory. -/
def elsewhere : Store := fun buf i x =>
  match index vgaSize i with
  | none => .ok buf
  | some e => .ok (Function.update buf e x)

def vgaSetcBy (store : Store) (v : Vga) (c : Byte) : Res Vga := do
  let buf ← store v.buf (v.posX + v.posY * vgaWidth) (vgaChar v.colorBg v.colorFg c)
  .ok { v with buf }

/-- `vga_setc`; the switch of `vga_putc` makes the same assignment. -/
def vgaSetc (v : Vga) (c : Byte) : Res Vga := vgaSetcBy checked v c

/-- One position back, where there is one. -/
def back (v : Vga) : Vga :=
  if v.posX ≠ 0 then { v with posX := wrap32 (v.posX - 1) }
  else if v.posY ≠ 0 then { v with posY := wrap32 (v.posY - 1), posX := vgaWidth - 1 }
  else v

/-- The `switch` of `vga_putc`. -/
def vgaMoveBy (store : Store) (v : Vga) (c : Byte) : Res Vga :=
  if c = Tty.backspace then vgaSetcBy store v.back 0
  else if c = Tty.tab then .ok { v with posX := wrap32 (v.posX + (4 - v.posX.tmod 4)) }
  else if c = Tty.carriageReturn then .ok { v with posX := 0 }
  else if c = Tty.newline then .ok { v with posX := 0, posY := wrap32 (v.posY + 1) }
  else do
    let v ← vgaSetcBy store v c
    .ok { v with posX := wrap32 (v.posX + 1) }

def vgaMove (v : Vga) (c : Byte) : Res Vga := vgaMoveBy checked v c

/-- The end of a line. -/
def wrapLine (v : Vga) : Vga :=
  if v.posX ≥ vgaWidth then { v with posX := 0, posY := wrap32 (v.posY + 1) } else v

def copyCell (buf : Fin vgaSize → BitVec 16) (i : Nat) : Res (Fin vgaSize → BitVec 16) := do
  let c ← getAt buf (vgaWidth + i : Nat) "vga_buf"
  setAt buf (i : Nat) c "vga_buf"

def clearCell (bg fg : Int) (buf : Fin vgaSize → BitVec 16) (i : Nat) :
    Res (Fin vgaSize → BitVec 16) :=
  setAt buf (i + vgaWidth * (vgaHeight - 1) : Nat) (vgaChar bg fg 32) "vga_buf"

/-- The end of the screen. -/
def scrollUp (v : Vga) : Res Vga := do
  let buf ← (List.range (vgaWidth * (vgaHeight - 1))).foldlM copyCell v.buf
  let buf ← (List.range vgaWidth).foldlM (clearCell v.colorBg v.colorFg) buf
  .ok { v with buf, posY := vgaHeight - 1 }

def vgaPutcBy (store : Store) (v : Vga) (c : Byte) : Res Vga := do
  let v ← vgaMoveBy store v c
  let v := v.wrapLine
  if v.scroll ≠ 0 ∧ v.posY ≥ vgaHeight then v.scrollUp else .ok v

def vgaPutc (v : Vga) (c : Byte) : Res Vga := vgaPutcBy checked v c

/-- A coordinate moved into `0 .. size - 1`. -/
def clamp (n : Int) (size : Nat) : Int := if n < 0 then 0 else if n ≥ size then size - 1 else n

def vgaPutcAt (v : Vga) (x y bg fg : Int) (c : Byte) : Res Vga := do
  let w ← { v with
    posX := clamp x vgaWidth, posY := clamp y vgaHeight
    colorBg := and32 bg 0x7, colorFg := and32 fg 0xf, cursor := 0 }.vgaPutc c
  .ok { w with
    posX := v.posX, posY := v.posY, colorBg := v.colorBg, colorFg := v.colorFg
    cursor := v.cursor }

theorem vgaSetcBy_checked (v : Vga) (c : Byte) : vgaSetcBy checked v c = v.vgaSetc c := rfl

theorem vgaMoveBy_checked (v : Vga) (c : Byte) : vgaMoveBy checked v c = v.vgaMove c := rfl

/-! ## Printing on the screen does not halt -/

/-- The cursor is on the screen. -/
def OnScreen (v : Vga) : Prop :=
  0 ≤ v.posX ∧ v.posX < vgaWidth ∧ 0 ≤ v.posY ∧ v.posY < vgaHeight

theorem vgaSetc_ok {v : Vga} (h : v.OnScreen) (c : Byte) : ∃ buf, v.vgaSetc c = .ok { v with buf } := by
  obtain ⟨hx0, hx, hy0, hy⟩ := h
  obtain ⟨x, hxe⟩ := Int.eq_ofNat_of_zero_le hx0
  obtain ⟨y, hye⟩ := Int.eq_ofNat_of_zero_le hy0
  have hdst : v.posX + v.posY * vgaWidth = (x + y * vgaWidth : Nat) := by
    rw [hxe, hye]
    simp
  have hlt : x + y * vgaWidth < vgaSize := by
    simp only [vgaSize, vgaWidth, vgaHeight] at *
    omega
  rw [vgaSetc, vgaSetcBy, checked, hdst, setAt_nat _ hlt]
  exact ⟨_, rfl⟩

theorem back_onScreen {v : Vga} (h : v.OnScreen) : v.back.OnScreen := by
  obtain ⟨hx0, hx, hy0, hy⟩ := h
  have hw : (vgaWidth : Int) = 80 := rfl
  have hh : (vgaHeight : Int) = 25 := rfl
  unfold back
  by_cases hx1 : v.posX ≠ 0
  · rw [if_pos hx1]
    have hwrap : wrap32 (v.posX - 1) = v.posX - 1 := wrap32_of_inInt32 ⟨by omega, by omega⟩
    refine ⟨?_, ?_, hy0, hy⟩
    · show 0 ≤ wrap32 (v.posX - 1)
      omega
    · show wrap32 (v.posX - 1) < vgaWidth
      omega
  rw [if_neg hx1]
  by_cases hy1 : v.posY ≠ 0
  · rw [if_pos hy1]
    have hwrap : wrap32 (v.posY - 1) = v.posY - 1 := wrap32_of_inInt32 ⟨by omega, by omega⟩
    refine ⟨show (0 : Int) ≤ 79 by decide, show (79 : Int) < 80 by decide, ?_, ?_⟩
    · show 0 ≤ wrap32 (v.posY - 1)
      omega
    · show wrap32 (v.posY - 1) < vgaHeight
      omega
  · rw [if_neg hy1]
    exact ⟨hx0, hx, hy0, hy⟩

theorem vgaMove_ok {v : Vga} (h : v.OnScreen) (c : Byte) : ∃ w, v.vgaMove c = .ok w := by
  unfold vgaMove vgaMoveBy
  rw [vgaSetcBy_checked, vgaSetcBy_checked]
  by_cases hb : c = Tty.backspace
  · obtain ⟨buf, hset⟩ := vgaSetc_ok (back_onScreen h) 0
    exact ⟨_, (if_pos hb).trans hset⟩
  rw [if_neg hb]
  by_cases ht : c = Tty.tab
  · exact ⟨_, if_pos ht⟩
  rw [if_neg ht]
  by_cases hr : c = Tty.carriageReturn
  · exact ⟨_, if_pos hr⟩
  rw [if_neg hr]
  by_cases hn : c = Tty.newline
  · exact ⟨_, if_pos hn⟩
  rw [if_neg hn]
  obtain ⟨buf, hset⟩ := vgaSetc_ok h c
  rw [hset, Loop.ok_bind]
  exact ⟨_, rfl⟩

theorem copyCell_ok (buf : Fin vgaSize → BitVec 16) {i : Nat}
    (h : i < vgaWidth * (vgaHeight - 1)) : ∃ buf', copyCell buf i = .ok buf' := by
  have hlt : vgaWidth + i < vgaSize := by
    simp only [vgaSize, vgaWidth, vgaHeight] at *
    omega
  rw [copyCell, getAt_nat _ hlt, Loop.ok_bind, setAt_nat _ (by omega)]
  exact ⟨_, rfl⟩

theorem clearCell_ok (bg fg : Int) (buf : Fin vgaSize → BitVec 16) {i : Nat} (h : i < vgaWidth) :
    ∃ buf', clearCell bg fg buf i = .ok buf' := by
  have hlt : i + vgaWidth * (vgaHeight - 1) < vgaSize := by
    simp only [vgaSize, vgaWidth, vgaHeight] at *
    omega
  rw [clearCell, setAt_nat _ hlt]
  exact ⟨_, rfl⟩

theorem scrollUp_ok (v : Vga) : ∃ w, v.scrollUp = .ok w := by
  obtain ⟨buf, hcopy⟩ := Loop.range_returns v.buf fun i hi buf => copyCell_ok buf hi
  obtain ⟨buf', hclear⟩ := Loop.range_returns buf fun i hi buf =>
    clearCell_ok v.colorBg v.colorFg buf hi
  rw [scrollUp, hcopy, Loop.ok_bind, hclear, Loop.ok_bind]
  exact ⟨_, rfl⟩

theorem vgaPutc_ok {v : Vga} (h : v.OnScreen) (c : Byte) : ∃ w, v.vgaPutc c = .ok w := by
  obtain ⟨w, hw⟩ := vgaMove_ok h c
  rw [vgaPutc, vgaPutcBy, vgaMoveBy_checked, hw, Loop.ok_bind]
  dsimp only
  split
  · exact scrollUp_ok _
  · exact ⟨_, rfl⟩

theorem clamp_range (n : Int) (size : Nat) (h : 0 < size) :
    0 ≤ clamp n size ∧ clamp n size < size := by
  unfold clamp
  split <;> try split
  all_goals omega

theorem OnScreen.of_clamp {v : Vga} {x y : Int} (hx : v.posX = clamp x vgaWidth)
    (hy : v.posY = clamp y vgaHeight) : v.OnScreen := by
  obtain ⟨hx₀, hx₁⟩ := clamp_range x vgaWidth (by decide)
  obtain ⟨hy₀, hy₁⟩ := clamp_range y vgaHeight (by decide)
  rw [← hx] at hx₀ hx₁
  rw [← hy] at hy₀ hy₁
  exact ⟨hx₀, hx₁, hy₀, hy₁⟩

/-- Coordinates outside the screen are moved onto it, so no character halts. -/
theorem vgaPutcAt_ok (v : Vga) (x y bg fg : Int) (c : Byte) :
    ∃ w, v.vgaPutcAt x y bg fg c = .ok w := by
  have hon : OnScreen { v with
      posX := clamp x vgaWidth, posY := clamp y vgaHeight
      colorBg := and32 bg 0x7, colorFg := and32 fg 0xf, cursor := 0 } := .of_clamp rfl rfl
  obtain ⟨w, hw⟩ := vgaPutc_ok hon c
  rw [vgaPutcAt, hw]
  exact ⟨_, rfl⟩

end Vga
end UnivOS
