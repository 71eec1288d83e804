import UnivOS.Base
import UnivOS.RingBuf
import UnivOS.Lib.Word
import UnivOS.Lib.Loop
import Mathlib.Tactic.IntervalCases

/-! # The virtual terminals

`tty.c`, up to `tty_refresh`, which `UnivOS.Display` adds. The screen buffer is an
array with checked assignments: a store outside it, which the source would make
into the fields behind the buffer, halts the model.
-/
namespace UnivOS
open Word

def ttyMax : Nat := 10
def ttyWidth : Nat := 80
def ttyHeight : Nat := 25
def ttyScrollback : Nat := 0
def ttyBufSize : Nat := ttyWidth * (ttyHeight + ttyScrollback)

/-- `tty_t`. -/
structure Tty where
  id : Int
  buf : Fin ttyBufSize → Byte
  refresh : Int
  colorBg : Int
  colorFg : Int
  posX : Int
  posY : Int
  posScroll : Int
  echo : Int
  ioInput : Ringbuf
  ioOutput : Ringbuf

/-- The globals of `tty.c`. -/
structure Ttys where
  ttyTable : Fin ttyMax → Tty
  activeTty : Option (Fin ttyMax)

namespace Tty

/-- The characters `tty_update` treats apart. -/
def tab : Byte := 9
def backspace : Byte := 8
def carriageReturn : Byte := 13
def newline : Byte := 10

/-- The `switch` of `tty_update`. -/
def ttyMove (t : Tty) (c : Byte) : Res Tty :=
  if c = tab then .ok { t with posX := wrap32 (t.posX + (4 - t.posX.tmod 4)) }
  else if c = backspace then
    if t.posX ≠ 0 then .ok { t with posX := wrap32 (t.posX - 1) }
    else if t.posY ≠ 0 then .ok { t with posY := wrap32 (t.posY - 1), posX := ttyWidth - 1 }
    else .ok t
  else if c = carriageReturn then .ok { t with posX := 0 }
  else if c = newline then .ok { t with posY := wrap32 (t.posY + 1), posX := 0 }
  else do
    let buf ← setAt t.buf (t.posScroll * ttyWidth + (t.posX + t.posY * ttyWidth)) c "tty->buf"
    .ok { t with buf, posX := wrap32 (t.posX + 1) }

/-- The body of the scroll's first loop, for row `y + 1` of the source's `y`. -/
def scrollCell (x : Nat) (buf : Fin ttyBufSize → Byte) (y : Nat) : Res (Fin ttyBufSize → Byte) := do
  let c ← getAt buf (ttyWidth * (y + 1 : Nat) + x) "tty->buf"
  setAt buf (ttyWidth * y + x) c "tty->buf"

def scrollColumn (buf : Fin ttyBufSize → Byte) (x : Nat) : Res (Fin ttyBufSize → Byte) :=
  (List.range (ttyHeight - 1)).foldlM (scrollCell x) buf

/-- The body of the second loop; the first one leaves `y = TTY_HEIGHT`. -/
def blankCell (buf : Fin ttyBufSize → Byte) (x : Nat) : Res (Fin ttyBufSize → Byte) :=
  setAt buf (ttyWidth * (ttyHeight - 1 : Nat) + x) 32 "tty->buf"

def ttyScroll (buf : Fin ttyBufSize → Byte) : Res (Fin ttyBufSize → Byte) := do
  let buf ← (List.range ttyWidth).foldlM scrollColumn buf
  (List.range ttyWidth).foldlM blankCell buf

/-- `tty_update` on the terminal it finds active. -/
def ttyUpdate (t : Tty) (c : Byte) : Res Tty := do
  let t ← t.ttyMove c
  if t.posY ≥ ttyHeight then
    let buf ← ttyScroll t.buf
    .ok { t with buf, posY := ttyHeight - 1, refresh := 1 }
  else .ok { t with refresh := 1 }

end Tty

namespace Ttys

def ttyGet (tty : Int) : Res (Fin ttyMax) :=
  match index ttyMax tty with
  | none => .error (.panic ("Invalid TTY " ++ toString tty))
  | some i => .ok i

def ttySelect (s : Ttys) (n : Int) : Res Ttys :=
  match index ttyMax n with
  | none => .error (.panic ("Invalid TTY " ++ toString n))
  | some i => .ok
    { ttyTable := Function.update s.ttyTable i { s.ttyTable i with refresh := 1 }
      activeTty := some i }

def ttyUpdate (s : Ttys) (c : Byte) : Res Ttys :=
  match s.activeTty with
  | none => .ok s
  | some i => do
    let t ← (s.ttyTable i).ttyUpdate c
    .ok { s with ttyTable := Function.update s.ttyTable i t }

/-- A new value for a terminal. -/
def setTty (s : Ttys) (i : Fin ttyMax) (t : Tty) : Ttys :=
  { s with ttyTable := Function.update s.ttyTable i t }

def ttyInput (s : Ttys) (c : Byte) : Ttys :=
  match s.activeTty with
  | none => s
  | some i =>
    let t := s.ttyTable i
    let t := { t with ioInput := (t.ioInput.ringbufWrite c).getD t.ioInput }
    if t.echo ≠ 0 then s.setTty i { t with ioOutput := (t.ioOutput.ringbufWrite c).getD t.ioOutput }
    else s.setTty i t

/-- The table before `tty_init` selects a terminal. -/
def ttyZero : Ttys :=
  { ttyTable := fun i =>
      { id := (i : Nat), buf := fun _ => 0, refresh := 0, colorBg := 0, colorFg := 7
        posX := 0, posY := 0, posScroll := 0, echo := 0
        ioInput := Ringbuf.empty, ioOutput := Ringbuf.empty }
    activeTty := none }

/-- `tty_init`; the timer it registers is in `UnivOS.Timer`'s table. -/
def ttyInit : Res Ttys := ttyZero.ttySelect 0

end Ttys

namespace Tty

/-! ## Scrolling stays in the buffer -/

/-- The cell in column `x` of row `y`. -/
def cell {y x : Nat} (hy : y < ttyHeight) (hx : x < ttyWidth) : Fin ttyBufSize :=
  ⟨ttyWidth * y + x, by
    simp only [ttyHeight, ttyWidth, ttyBufSize, ttyScrollback] at *; omega⟩

/-- The buffer with the cells of `P` replaced by the cell one row below. -/
def raised (buf : Fin ttyBufSize → Byte) (P : Nat → Prop) [DecidablePred P] :
    Fin ttyBufSize → Byte :=
  fun p => if h : P p ∧ p + ttyWidth < ttyBufSize then buf ⟨p + ttyWidth, h.2⟩ else buf p

theorem raised_congr {buf : Fin ttyBufSize → Byte} {P Q : Nat → Prop} [DecidablePred P]
    [DecidablePred Q] (h : ∀ p, p + ttyWidth < ttyBufSize → (P p ↔ Q p)) :
    raised buf P = raised buf Q := by
  funext p
  unfold raised
  by_cases hlt : p + ttyWidth < ttyBufSize
  · simp only [hlt, and_true, h p hlt]
  · simp only [hlt, and_false, dif_neg, not_false_eq_true]

/-- Raising one more cell, from a cell that has not been raised itself. -/
theorem raised_step (buf : Fin ttyBufSize → Byte) (P : Nat → Prop) [DecidablePred P]
    {p q : Fin ttyBufSize} (hq : (q : Nat) = p + ttyWidth) (hP : ¬ P q) :
    Function.update (raised buf P) p (raised buf P q) = raised buf fun n => P n ∨ n = p := by
  have hqv : raised buf P q = buf q := by unfold raised; simp [hP]
  funext r
  rw [hqv]
  by_cases hr : r = p
  · subst hr
    have hlt : (r : Nat) + ttyWidth < ttyBufSize := hq ▸ q.isLt
    rw [Function.update_self, raised, dif_pos ⟨.inr rfl, hlt⟩]
    congr 1
    exact Fin.ext hq
  · have hne : (r : Nat) ≠ p := fun h => hr (Fin.ext h)
    rw [Function.update_of_ne hr]
    unfold raised
    simp only [hne, or_false]

/-- The rows above `y` of column `x`, and all columns before it, have moved up. -/
def scrolled (buf : Fin ttyBufSize → Byte) (x y : Nat) : Fin ttyBufSize → Byte :=
  raised buf fun p => p % ttyWidth < x ∨ p % ttyWidth = x ∧ p / ttyWidth < y

theorem scrollCell_ok (buf : Fin ttyBufSize → Byte) {x y : Nat} (hx : x < ttyWidth)
    (hy : y < ttyHeight - 1) : scrollCell x (scrolled buf x y) y = .ok (scrolled buf x (y + 1)) := by
  have hy' : y + 1 < ttyHeight := by omega
  have hsrc : (ttyWidth * (y + 1 : Nat) + x : Int) = (cell hy' hx : Nat) := by simp [cell]
  have hdst : (ttyWidth * y + x : Int) = (cell (Nat.lt_of_succ_lt hy') hx : Nat) := by
    simp [cell]
  rw [scrollCell, hsrc, hdst, getAt_val, Loop.ok_bind, setAt_val, scrolled, raised_step]
  · refine congrArg Except.ok (raised_congr fun p hp => ?_)
    simp only [cell, ttyWidth, ttyBufSize] at *
    omega
  · simp only [cell]; rw [Nat.mul_succ]; omega
  · have hx' : x < 80 := hx
    simp only [cell, ttyWidth]
    omega

theorem scrollColumn_ok (buf : Fin ttyBufSize → Byte) {x : Nat} (hx : x < ttyWidth) :
    scrollColumn (scrolled buf x 0) x = .ok (scrolled buf (x + 1) 0) := by
  obtain ⟨b, hb, rfl⟩ := Loop.range_ok (f := scrollCell x) (fun y b => b = scrolled buf x y) rfl
    fun y hy b hb => ⟨_, hb ▸ scrollCell_ok buf hx hy, rfl⟩
  rw [scrollColumn, hb]
  refine congrArg Except.ok (raised_congr fun p hp => ?_)
  simp only [ttyWidth, ttyHeight, ttyBufSize, ttyScrollback] at *
  omega

/-- The buffer after `x` cells of the last row are blanked. -/
def blanked (buf : Fin ttyBufSize → Byte) (x : Nat) : Fin ttyBufSize → Byte :=
  fun p => if ttyWidth * (ttyHeight - 1) ≤ (p : Nat) ∧ (p : Nat) < ttyWidth * (ttyHeight - 1) + x
    then 32 else buf p

theorem blankCell_ok (buf : Fin ttyBufSize → Byte) {x : Nat} (hx : x < ttyWidth) :
    blankCell (blanked buf x) x = .ok (blanked buf (x + 1)) := by
  have hy : ttyHeight - 1 < ttyHeight := by decide
  have hdst : (ttyWidth * (ttyHeight - 1 : Nat) + x : Int) = (cell hy hx : Nat) := by simp [cell]
  rw [blankCell, hdst, setAt_val]
  congr 1
  funext p
  by_cases hp : p = cell hy hx
  · rw [hp, Function.update_self, blanked, if_pos (by simp [cell])]
  · have hne : (p : Nat) ≠ ttyWidth * (ttyHeight - 1) + x := fun h => hp (Fin.ext h)
    rw [Function.update_of_ne hp]
    unfold blanked
    congr 1
    exact propext (by omega)

/-- The scroll: every row moves up, the last one is blank. -/
theorem ttyScroll_ok (buf : Fin ttyBufSize → Byte) :
    ttyScroll buf = .ok fun p => if h : p + ttyWidth < ttyBufSize then buf ⟨p + ttyWidth, h⟩
      else 32 := by
  obtain ⟨b, hb, rfl⟩ := Loop.range_ok (f := scrollColumn) (n := ttyWidth) (s := buf)
    (fun x b => b = scrolled buf x 0) (by funext p; simp [scrolled, raised])
    fun x hx b hb => ⟨_, hb ▸ scrollColumn_ok buf hx, rfl⟩
  obtain ⟨b', hb', rfl⟩ := Loop.range_ok (f := blankCell) (n := ttyWidth)
    (s := scrolled buf ttyWidth 0) (fun x b => b = blanked (scrolled buf ttyWidth 0) x)
    (by funext p; rw [blanked, if_neg (by omega)])
    fun x hx b hb => ⟨_, hb ▸ blankCell_ok _ hx, rfl⟩
  rw [ttyScroll, hb, Loop.ok_bind, hb']
  refine congrArg Except.ok (funext fun p => ?_)
  have hp := p.isLt
  have hmod : p.val % ttyWidth < ttyWidth := Nat.mod_lt _ (by decide)
  by_cases h : p + ttyWidth < ttyBufSize
  · rw [blanked, if_neg (by simp only [ttyWidth, ttyHeight, ttyBufSize, ttyScrollback] at *; omega),
      scrolled, raised, dif_pos ⟨.inl hmod, h⟩, dif_pos h]
  · rw [blanked, if_pos (by simp only [ttyWidth, ttyHeight, ttyBufSize, ttyScrollback] at *; omega),
      dif_neg h]

/-! ## The cursor -/

/-- The cursor is on the screen. -/
def CursorOk (t : Tty) : Prop :=
  0 ≤ t.posX ∧ t.posX < ttyWidth ∧ 0 ≤ t.posY ∧ t.posY < ttyHeight

instance (t : Tty) : Decidable t.CursorOk := inferInstanceAs (Decidable (_ ∧ _))

/-- The line has room for the character in column `x`: a tab needs its stop, and a
printed character the column after it. -/
def RoomAt (x : Int) (c : Byte) : Prop :=
  (c = tab → x < ttyWidth - 4) ∧
  (c ∉ [tab, backspace, carriageReturn, newline] → x < ttyWidth - 1)

instance (x : Int) (c : Byte) : Decidable (RoomAt x c) := inferInstanceAs (Decidable (_ ∧ _))

def HasRoom (t : Tty) (c : Byte) : Prop := RoomAt t.posX c

instance (t : Tty) (c : Byte) : Decidable (t.HasRoom c) := inferInstanceAs (Decidable (RoomAt _ _))

/-- A printed character is stored at the cursor. -/
theorem ttyMove_store {t : Tty} {c : Byte} {y x : Nat} (hy : y < ttyHeight) (hx : x < ttyWidth)
    (hY : t.posY = y) (hX : t.posX = x) (hs : t.posScroll = 0)
    (hc : c ∉ [tab, backspace, carriageReturn, newline]) :
    t.ttyMove c = .ok { t with
      buf := Function.update t.buf (cell hy hx) c, posX := wrap32 (t.posX + 1) } := by
  simp only [List.mem_cons, List.not_mem_nil, or_false, not_or] at hc
  obtain ⟨ht, hb, hr, hn⟩ := hc
  have hdst : t.posScroll * ttyWidth + (t.posX + t.posY * ttyWidth) = (cell hy hx : Nat) := by
    simp only [cell, hs, hX, hY, ttyWidth]
    omega
  rw [ttyMove, if_neg ht, if_neg hb, if_neg hr, if_neg hn, hdst, setAt_val, Loop.ok_bind]

/-- What moves the cursor stays far from the bounds of an `int`. -/
theorem wrap_small {n : Int} (h0 : 0 ≤ n) (h : n ≤ 100) : wrap32 n = n :=
  wrap32_of_inInt32 ⟨by omega, by omega⟩

/-- From a good cursor the `switch` stores inside the buffer, and moves right
off the screen exactly when the line has no room. -/
theorem ttyMove_spec {t : Tty} (c : Byte) (h : t.CursorOk) (hs : t.posScroll = 0) :
    ∃ t', t.ttyMove c = .ok t' ∧ t'.posScroll = 0 ∧ 0 ≤ t'.posX ∧
      0 ≤ t'.posY ∧ t'.posY ≤ ttyHeight ∧ (t'.posX < ttyWidth ↔ t.HasRoom c) := by
  obtain ⟨hx0, hx, hy0, hy⟩ := h
  have hw : (ttyWidth : Int) = 80 := rfl
  have hh : (ttyHeight : Int) = 25 := rfl
  by_cases hprint : c ∉ [tab, backspace, carriageReturn, newline]
  · obtain ⟨x, hxe⟩ := Int.eq_ofNat_of_zero_le hx0
    obtain ⟨y, hye⟩ := Int.eq_ofNat_of_zero_le hy0
    refine ⟨_, ttyMove_store (by omega) (by omega) hye hxe hs hprint, hs, ?_⟩
    simp only [wrap_small (n := t.posX + 1) (by omega) (by omega)]
    refine ⟨by omega, hy0, by omega, fun _ => ⟨fun he => ?_, fun _ => by omega⟩, fun hr => ?_⟩
    · exact absurd (he ▸ List.mem_cons_self) hprint
    · have := hr.2 hprint
      omega
  unfold ttyMove HasRoom RoomAt
  by_cases ht : c = tab
  · subst ht
    have hm : t.posX.tmod 4 = t.posX % 4 := Int.tmod_eq_emod_of_nonneg hx0
    refine ⟨_, if_pos rfl, hs, ?_⟩
    simp only [hm, wrap_small (n := t.posX + (4 - t.posX % 4)) (by omega) (by omega)]
    refine ⟨by omega, hy0, by omega, ?_⟩
    simp only [List.mem_cons, true_or, not_true_eq_false, false_implies, and_true, forall_const]
    omega
  rw [if_neg ht]
  by_cases hb : c = backspace
  · rw [if_pos hb]
    have hroom : (c = tab → t.posX < ttyWidth - 4) ∧
        (c ∉ [tab, backspace, carriageReturn, newline] → t.posX < ttyWidth - 1) :=
      ⟨fun he => absurd he ht, fun he => absurd hb (by simp_all)⟩
    by_cases hx1 : t.posX ≠ 0
    · refine ⟨_, if_pos hx1, hs, ?_⟩
      simp only [wrap_small (n := t.posX - 1) (by omega) (by omega)]
      exact ⟨by omega, hy0, by omega, fun _ => hroom, fun _ => by omega⟩
    · rw [if_neg hx1]
      by_cases hy1 : t.posY ≠ 0
      · refine ⟨_, if_pos hy1, hs, ?_⟩
        simp only [wrap_small (n := t.posY - 1) (by omega) (by omega)]
        exact ⟨by omega, by omega, by omega, fun _ => hroom, fun _ => by omega⟩
      · exact ⟨_, if_neg hy1, hs, hx0, hy0, by omega, fun _ => hroom, fun _ => by omega⟩
  rw [if_neg hb]
  by_cases hr : c = carriageReturn
  · refine ⟨_, if_pos hr, hs, Int.le_refl 0, hy0, Int.le_of_lt hy, fun _ => ?_,
      fun _ => show (0 : Int) < 80 by decide⟩
    exact ⟨fun he => absurd he ht, fun he => absurd hr (by simp_all)⟩
  rw [if_neg hr]
  by_cases hn : c = newline
  · refine ⟨_, if_pos hn, hs, Int.le_refl 0, ?_⟩
    simp only [wrap_small (n := t.posY + 1) (by omega) (by omega)]
    refine ⟨by omega, by omega, fun _ => ?_, fun _ => show (0 : Int) < 80 by decide⟩
    exact ⟨fun he => absurd he ht, fun he => absurd hn (by simp_all)⟩
  exact absurd (by simp only [List.mem_cons, ht, hb, hr, hn, List.not_mem_nil, or_self,
    not_false_eq_true]) hprint

/-- From a good cursor `tty_update` halts on no character, and leaves a good
cursor exactly when the line has room for it. -/
theorem ttyUpdate_spec {t : Tty} (c : Byte) (h : t.CursorOk) (hs : t.posScroll = 0) :
    ∃ t', t.ttyUpdate c = .ok t' ∧ t'.posScroll = 0 ∧ (t'.CursorOk ↔ t.HasRoom c) := by
  obtain ⟨u, hu, hus, hx0, hy0, hy, hroom⟩ := ttyMove_spec c h hs
  unfold ttyUpdate
  rw [hu, Loop.ok_bind]
  by_cases hbot : u.posY ≥ ttyHeight
  · rw [if_pos hbot, ttyScroll_ok, Loop.ok_bind]
    refine ⟨_, rfl, hus, ?_⟩
    rw [← hroom]
    exact ⟨fun hc => hc.2.1, fun hx => ⟨hx0, hx, show (0 : Int) ≤ 24 by decide,
      show (24 : Int) < 25 by decide⟩⟩
  · rw [if_neg hbot]
    refine ⟨_, rfl, hus, ?_⟩
    rw [← hroom]
    exact ⟨fun hc => hc.2.1, fun hx => ⟨hx0, hx, hy0, Int.not_le.mp hbot⟩⟩

/-- The row and the column after a character. -/
def moved (p : Int × Int) (c : Byte) : Int × Int :=
  if c = tab then (p.1, p.2 + (4 - p.2 % 4))
  else if c = backspace then
    if p.2 ≠ 0 then (p.1, p.2 - 1) else if p.1 ≠ 0 then (p.1 - 1, ttyWidth - 1) else p
  else if c = carriageReturn then (p.1, 0)
  else if c = newline then (min (p.1 + 1) (ttyHeight - 1), 0)
  else (p.1, p.2 + 1)

/-- Every character arrives while its line has room for it, from the row and the
column `p` on. -/
def FitsFrom (p : Int × Int) : List Byte → Prop
  | [] => True
  | c :: cs => RoomAt p.2 c ∧ FitsFrom (moved p c) cs

/-- The characters fit on the lines of the terminal. -/
def LinesFit (t : Tty) (cs : List Byte) : Prop := FitsFrom (t.posY, t.posX) cs

/-- The `switch` moves the cursor as the count says, but for a newline on the last row. -/
theorem ttyMove_moved {t u : Tty} {c : Byte} (h : t.CursorOk) (hmove : t.ttyMove c = .ok u) :
    (min u.posY (ttyHeight - 1), u.posX) = moved (t.posY, t.posX) c := by
  obtain ⟨hx0, hx, hy0, hy⟩ := h
  have hw : (ttyWidth : Int) = 80 := rfl
  have hh : (ttyHeight : Int) = 25 := rfl
  have hrow : min t.posY (ttyHeight - 1) = t.posY := Int.min_eq_left (by omega)
  unfold ttyMove at hmove
  unfold moved
  dsimp only
  split at hmove
  · rename_i ht
    cases hmove
    have hm : t.posX.tmod 4 = t.posX % 4 := Int.tmod_eq_emod_of_nonneg hx0
    rw [if_pos ht, hrow, hm, wrap_small (by omega) (by omega)]
  rename_i ht
  rw [if_neg ht]
  split at hmove
  · rename_i hb
    rw [if_pos hb]
    split at hmove
    · rename_i hx1
      cases hmove
      rw [if_pos hx1, hrow, wrap_small (by omega) (by omega)]
    rename_i hx1
    rw [if_neg hx1]
    split at hmove
    · rename_i hy1
      cases hmove
      dsimp only
      rw [if_pos hy1, wrap_small (by omega) (by omega), Int.min_eq_left (by omega)]
    · rename_i hy1
      cases hmove
      rw [if_neg hy1, hrow]
  rename_i hb
  rw [if_neg hb]
  split at hmove
  · rename_i hr
    cases hmove
    rw [if_pos hr, hrow]
  rename_i hr
  rw [if_neg hr]
  split at hmove
  · rename_i hn
    cases hmove
    rw [if_pos hn, wrap_small (by omega) (by omega)]
  · rename_i hn
    obtain ⟨buf, _, hmove⟩ := Loop.bind_eq_ok.mp hmove
    cases hmove
    rw [if_neg hn, hrow, wrap_small (by omega) (by omega)]

/-- `tty_update` moves the cursor as the count says. -/
theorem ttyUpdate_moved {t t' : Tty} {c : Byte} (h : t.CursorOk) (hu : t.ttyUpdate c = .ok t') :
    (t'.posY, t'.posX) = moved (t.posY, t.posX) c := by
  have hh : (ttyHeight : Int) = 25 := rfl
  obtain ⟨u, hmove, hu⟩ := Loop.bind_eq_ok.mp hu
  rw [← ttyMove_moved h hmove]
  -- the scroll moves the cursor back to the last row
  split at hu
  · rename_i hbot
    obtain ⟨buf, _, hu⟩ := Loop.bind_eq_ok.mp hu
    cases hu
    rw [Int.min_eq_right (by omega)]
  · rename_i hbot
    cases hu
    rw [Int.min_eq_left (by omega)]

/-- What is left of characters that fit, fits on what the first one leaves. -/
theorem LinesFit.next {t t' : Tty} {c : Byte} {cs : List Byte} (h : t.LinesFit (c :: cs))
    (hok : t.CursorOk) (hu : t.ttyUpdate c = .ok t') : t'.LinesFit cs := by
  unfold LinesFit
  rw [ttyUpdate_moved hok hu]
  exact h.2

end Tty

namespace Ttys

section SetTty

variable {s : Ttys} {i j : Fin ttyMax} {t t' : Tty}

@[simp] theorem setTty_self : (s.setTty i t).ttyTable i = t := Function.update_self ..

theorem setTty_ne (h : j ≠ i) : (s.setTty i t).ttyTable j = s.ttyTable j :=
  Function.update_of_ne h ..

theorem setTty_setTty : (s.setTty i t).setTty i t' = s.setTty i t' := by
  simp only [setTty, Function.update_idem]

@[simp] theorem setTty_activeTty : (s.setTty i t).activeTty = s.activeTty := rfl

end SetTty

/-! ## Streams of characters -/

/-- The active terminal satisfies `P`. -/
def Active (s : Ttys) (P : Tty → Prop) : Prop :=
  ∃ i, s.activeTty = some i ∧ P (s.ttyTable i)

/-- Every call of `tty_update` on the stream stores inside the buffer (else the
model halts) and leaves the cursor on the screen. -/
def UpdatesSafe (s : Ttys) : List Byte → Prop
  | [] => True
  | c :: cs => ∃ s', s.ttyUpdate c = .ok s' ∧ s'.Active Tty.CursorOk ∧ s'.UpdatesSafe cs

theorem updatesSafe_iff {i : Fin ttyMax} : ∀ (cs : List Byte) {s : Ttys}, s.activeTty = some i →
    (s.ttyTable i).CursorOk → (s.ttyTable i).posScroll = 0 →
    (s.UpdatesSafe cs ↔ (s.ttyTable i).LinesFit cs)
  | [], _, _, _, _ => Iff.rfl
  | c :: cs, s, hi, hc, hs => by
    obtain ⟨t, ht, hts, hroom⟩ := Tty.ttyUpdate_spec c hc hs
    have hu : s.ttyUpdate c =
        .ok { s with ttyTable := Function.update s.ttyTable i t } := by
      rw [ttyUpdate, hi]; simp only [ht, Loop.ok_bind]
    have hact : ∀ P : Tty → Prop,
        Active { s with ttyTable := Function.update s.ttyTable i t } P ↔ P t := by
      intro P
      simp [Active, hi]
    simp only [UpdatesSafe, hu, Except.ok.injEq, exists_eq_left', hact, hroom]
    refine and_congr_right fun hr => ?_
    have hrest := updatesSafe_iff (s := s.setTty i t) (i := i) cs hi
      (by rw [setTty_self]; exact hroom.mpr hr) (by rw [setTty_self]; exact hts)
    rw [setTty_self, Tty.LinesFit, Tty.ttyUpdate_moved hc ht] at hrest
    exact hrest

/-- What `tty_init` leaves. -/
def ttyInitial : Ttys :=
  let i : Fin ttyMax := ⟨0, by decide⟩
  { ttyTable := Function.update ttyZero.ttyTable i { ttyZero.ttyTable i with refresh := 1 }
    activeTty := some i }

theorem ttyInit_eq : ttyInit = .ok ttyInitial := rfl

/-- **Terminal output is safe exactly while every line fits**, from the upper left
corner on. -/
theorem tty_update_safe_iff (cs : List Byte) :
    ∃ s, ttyInit = .ok s ∧ (s.UpdatesSafe cs ↔ Tty.FitsFrom (0, 0) cs) := by
  have hcursor : (ttyInitial.ttyTable ⟨0, by decide⟩).CursorOk := by decide
  exact ⟨ttyInitial, ttyInit_eq, updatesSafe_iff cs rfl hcursor rfl⟩

instance (s : Ttys) (P : Tty → Prop) [DecidablePred P] : Decidable (s.Active P) :=
  inferInstanceAs (Decidable (∃ i, s.activeTty = some i ∧ P (s.ttyTable i)))

instance decUpdatesSafe : (s : Ttys) → (cs : List Byte) → Decidable (s.UpdatesSafe cs)
  | _, [] => .isTrue trivial
  | s, c :: cs =>
    match h : s.ttyUpdate c with
    | .error _ => .isFalse fun ⟨_, h', _⟩ => by rw [h] at h'; cases h'
    | .ok s' =>
      have := decUpdatesSafe s' cs
      decidable_of_iff (s'.Active Tty.CursorOk ∧ s'.UpdatesSafe cs)
        ⟨fun hs => ⟨s', h, hs⟩, fun ⟨_, h', hs⟩ => by cases h.symm.trans h'; exact hs⟩

/-- Eighty letters on one line: the last one leaves the cursor in column 80. -/
theorem tty_update_overruns :
    ∃ s, ttyInit = .ok s ∧ ¬ s.UpdatesSafe (List.replicate 80 97) := by
  refine ⟨ttyInitial, ttyInit_eq, ?_⟩
  decide +kernel

end Ttys
end UnivOS
