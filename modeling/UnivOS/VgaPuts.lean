import UnivOS.Painting

/-! # Printing strings on the screen

`vga_puts` and `vga_puts_at`. The cursor is followed as one number, which counts the
cells in front of it; rows are 32-bit `int`s, so the count starts over after 2^32 of
them. Only scrolling keeps the cursor on the screen.
-/
namespace UnivOS
open Word

namespace Vga

/-- The characters of a string in memory: those before the first 0. -/
def cString (s : List Byte) : List Byte := s.takeWhile (· != 0)

/-- `none` is the null pointer. -/
def vgaPuts (v : Vga) : Option (List Byte) → Res Vga
  | none => .ok v
  | some s => (cString s).foldlM vgaPutc v

/-- What is restored in the end as the cursor flag is the constant 0. -/
def vgaPutsAtBy (store : Store) (v : Vga) (x y bg fg : Int) (s : List Byte) : Res Vga := do
  let w ← (cString s).foldlM (vgaPutcBy store) { v with
    posX := clamp x vgaWidth, posY := clamp y vgaHeight
    colorBg := and32 bg 0x7, colorFg := and32 fg 0xf, cursor := 0 }
  .ok { w with
    posX := v.posX, posY := v.posY, colorBg := v.colorBg, colorFg := v.colorFg
    cursor := 0 }

def vgaPutsAt (v : Vga) (x y bg fg : Int) (s : List Byte) : Res Vga :=
  vgaPutsAtBy checked v x y bg fg s

theorem foldlM_checked (l : List Byte) (v : Vga) :
    l.foldlM (vgaPutcBy checked) v = l.foldlM vgaPutc v := rfl

/-! ## The cursor as one number -/

/-- Where a character moves the cursor, on a screen without an end. -/
def advance (q : Nat) (c : Byte) : Nat :=
  if c = Tty.backspace then q - 1
  else if c = Tty.tab then q + (4 - q % 4)
  else if c = Tty.carriageReturn then q - q % vgaWidth
  else if c = Tty.newline then q - q % vgaWidth + vgaWidth
  else q + 1

/-- The count starts over with the rows. -/
def wrapRows (q : Nat) : Nat := q % (vgaWidth * 2 ^ 32)

/-- Behind the last cell nothing can be printed, and only one position back is a cell. -/
def Allowed (q : Nat) (c : Byte) : Prop :=
  vgaSize ≤ q → c ∈ [Tty.tab, Tty.carriageReturn, Tty.newline] ∨ c = Tty.backspace ∧ q = vgaSize

/-- Every character finds the cursor where it is allowed. -/
def StaysOn : Nat → List Byte → Prop
  | _, [] => True
  | q, c :: s => Allowed q c ∧ StaysOn (wrapRows (advance q c)) s

/-- The cursor after a string. -/
def cursorAfter (q : Nat) (s : List Byte) : Nat := s.foldl (fun q c => wrapRows (advance q c)) q

instance (q : Nat) (c : Byte) : Decidable (Allowed q c) := inferInstanceAs (Decidable (_ → _))

instance staysOnDecidable : ∀ (q : Nat) (s : List Byte), Decidable (StaysOn q s)
  | _, [] => .isTrue trivial
  | q, c :: s =>
    have := staysOnDecidable (wrapRows (advance q c)) s
    inferInstanceAs (Decidable (Allowed q c ∧ StaysOn (wrapRows (advance q c)) s))

/-- The cells in front of the cursor. -/
def position (v : Vga) : Nat := (v.posX + v.posY * vgaWidth).toNat

variable {v w : Vga} {q : Nat} {c : Byte} {s : List Byte}

/-- The cursor is in column `x` of row `r`, or right behind that row. -/
structure Near (v : Vga) (x r : Nat) : Prop where
  posX : v.posX = x
  posY : v.posY = wrap32 r
  le : x ≤ vgaWidth

/-- The cursor is behind `q` cells. -/
structure At (v : Vga) (q : Nat) : Prop where
  posX : v.posX = (q % vgaWidth : Nat)
  posY : v.posY = wrap32 (q / vgaWidth : Nat)
  lt : q < vgaWidth * 2 ^ 32

theorem wrap32_row {r : Nat} (h : r < 2 ^ 32) :
    wrap32 (r : Int) = if r < 2 ^ 31 then (r : Int) else r - 2 ^ 32 := by
  unfold wrap32
  rw [Int.bmod_def]
  split <;> split <;> omega

theorem wrap32_row_mod (r : Nat) : wrap32 ((r % 2 ^ 32 : Nat) : Int) = wrap32 r := by
  unfold wrap32
  rw [Int.bmod_def, Int.bmod_def]
  split <;> split <;> omega

theorem wrap32_row_succ (r : Nat) : wrap32 (wrap32 r + 1) = wrap32 (r + 1 : Nat) := by
  unfold wrap32
  rw [Int.bmod_def, Int.bmod_def, Int.bmod_def]
  split <;> split <;> split <;> omega

theorem wrap32_row_pred {r : Nat} (h : 0 < r) : wrap32 (wrap32 r - 1) = wrap32 (r - 1 : Nat) := by
  unfold wrap32
  rw [Int.bmod_def, Int.bmod_def, Int.bmod_def]
  split <;> split <;> split <;> omega

theorem OnScreen.at (h : v.OnScreen) : At v v.position ∧ v.position < vgaSize := by
  obtain ⟨hx0, hx, hy0, hy⟩ := h
  have hw : vgaWidth = 80 := rfl
  have hh : vgaHeight = 25 := rfl
  have hsize : vgaSize = 2000 := rfl
  rw [hw] at hx
  rw [hh] at hy
  have hpos : v.position = (v.posX + v.posY * 80).toNat := rfl
  have hcol : v.position % 80 = v.posX.toNat := by omega
  have hrow : v.position / 80 = v.posY.toNat := by omega
  refine ⟨⟨?_, ?_, ?_⟩, by omega⟩
  · rw [hw, hcol]
    omega
  · rw [hw, hrow, wrap32_of_inInt32 ⟨by omega, by omega⟩]
    omega
  · rw [hw]
    omega

theorem At.onScreen_iff (h : At v q) : v.OnScreen ↔ q < vgaSize := by
  have hw : vgaWidth = 80 := rfl
  have hh : vgaHeight = 25 := rfl
  have hsize : vgaSize = 2000 := rfl
  have hlt : q < 80 * 2 ^ 32 := h.lt
  have hrow := wrap32_row (r := q / 80) (by omega)
  unfold OnScreen
  rw [h.posX, h.posY, hw, hh, hsize, hrow]
  split <;> omega

theorem Near.wrapLine {x r : Nat} (h : Near v x r) :
    At v.wrapLine (wrapRows (vgaWidth * r + x)) := by
  have hw : vgaWidth = 80 := rfl
  have hx := h.le
  have hposX := h.posX
  unfold Vga.wrapLine wrapRows
  rw [hw] at hx ⊢
  have hlt : (80 * r + x) % (80 * 2 ^ 32) < 80 * 2 ^ 32 := Nat.mod_lt _ (by decide)
  by_cases hend : v.posX ≥ (80 : Nat)
  · have hcol : (80 * r + x) % (80 * 2 ^ 32) % 80 = 0 := by omega
    have hrow : (80 * r + x) % (80 * 2 ^ 32) / 80 = (r + 1) % 2 ^ 32 := by omega
    rw [if_pos hend]
    refine ⟨?_, ?_, hlt⟩
    · rw [hw, hcol]
      rfl
    · rw [hw, hrow, wrap32_row_mod, ← wrap32_row_succ, ← h.posY]
  · have hcol : (80 * r + x) % (80 * 2 ^ 32) % 80 = x := by omega
    have hrow : (80 * r + x) % (80 * 2 ^ 32) / 80 = r % 2 ^ 32 := by omega
    rw [if_neg hend]
    refine ⟨?_, ?_, hlt⟩
    · rw [hw, hcol, hposX]
    · rw [hw, hrow, wrap32_row_mod, h.posY]

theorem At.near (h : At v q) : Near v (q % vgaWidth) (q / vgaWidth) :=
  ⟨h.posX, h.posY, Nat.le_of_lt (Nat.mod_lt _ (by decide))⟩

theorem At.back (h : At v q) : At v.back (q - 1) := by
  have hw : vgaWidth = 80 := rfl
  have hlt : q < 80 * 2 ^ 32 := h.lt
  have hposX : v.posX = (q % 80 : Nat) := h.posX
  have hposY : v.posY = wrap32 (q / 80 : Nat) := h.posY
  have hrow := wrap32_row (r := q / 80) (by omega)
  have hlt' : q - 1 < vgaWidth * 2 ^ 32 := by
    rw [hw]
    omega
  unfold Vga.back
  by_cases hx : v.posX ≠ 0
  · rw [if_pos hx]
    have hcol : (q - 1) % 80 = q % 80 - 1 := by omega
    have hsame : (q - 1) / 80 = q / 80 := by omega
    refine ⟨?_, ?_, hlt'⟩
    · show wrap32 (v.posX - 1) = _
      rw [hw, hcol, wrap32_of_inInt32 ⟨by omega, by omega⟩]
      omega
    · rw [hw, hsame]
      exact hposY
  · rw [if_neg hx]
    by_cases hy : v.posY ≠ 0
    · rw [if_pos hy]
      have hr : 0 < q / 80 := by
        by_contra hr
        refine hy ?_
        rw [hposY, show q / 80 = 0 by omega]
        rfl
      have hcol : (q - 1) % 80 = 79 := by omega
      have hpred : (q - 1) / 80 = q / 80 - 1 := by omega
      refine ⟨?_, ?_, hlt'⟩
      · rw [hw, hcol]
        rfl
      · show wrap32 (v.posY - 1) = _
        rw [hw, hpred, hposY, wrap32_row_pred hr]
    · rw [if_neg hy]
      have hq : q = 0 := by
        have hr : q / 80 = 0 := by
          rw [hposY, hrow] at hy
          split at hy <;> omega
        omega
      rw [hq] at h ⊢
      exact h

theorem At.setc_halts (h : At v q) (hq : ¬ q < vgaSize) (c : Byte) :
    v.vgaSetc c = .error (.undefined "vga_buf") := by
  have hlt : q < 80 * 2 ^ 32 := h.lt
  have hsize : vgaSize = 2000 := rfl
  have hrow := wrap32_row (r := q / 80) (by omega)
  have hposX : v.posX = (q % 80 : Nat) := h.posX
  have hposY : v.posY = wrap32 (q / 80 : Nat) := h.posY
  have hout : index vgaSize (v.posX + v.posY * vgaWidth) = none := by
    unfold index
    rw [dif_neg]
    rw [hposX, hposY, hrow, show (vgaWidth : Int) = 80 from rfl, hsize]
    split <;> omega
  rw [vgaSetc, vgaSetcBy, checked, setAt, hout]
  rfl

theorem At.setc_ok (h : At v q) (hq : q < vgaSize) (c : Byte) :
    ∃ buf, v.vgaSetc c = .ok { v with buf } :=
  vgaSetc_ok (h.onScreen_iff.mpr hq) c

/-- A backspace is allowed one position behind the cells at most. -/
theorem Allowed.back_lt (h : Allowed q Tty.backspace) : q - 1 < vgaSize := by
  by_contra hge
  rcases h (by omega) with hmem | ⟨_, hq⟩
  · exact absurd hmem (by decide)
  · rw [hq] at hge
    exact hge (by decide)

/-- A character that is stored is allowed in the cells only. -/
theorem Allowed.lt (h : Allowed q c) (hb : c ≠ Tty.backspace)
    (hc : c ∉ [Tty.tab, Tty.carriageReturn, Tty.newline]) : q < vgaSize := by
  by_contra hge
  rcases h (by omega) with hmem | ⟨hback, _⟩
  · exact hc hmem
  · exact hb hback

/-- A character moves the cursor as the count says. -/
theorem vgaMove_near (h : At v q) (hc : Allowed q c) : ∃ w x r, v.vgaMove c = .ok w ∧
    Near w x r ∧ vgaWidth * r + x = advance q c ∧ w.scroll = v.scroll := by
  have hw : vgaWidth = 80 := rfl
  have hposX : v.posX = (q % 80 : Nat) := h.posX
  unfold vgaMove vgaMoveBy advance
  rw [vgaSetcBy_checked, vgaSetcBy_checked]
  by_cases hb : c = Tty.backspace
  · rw [if_pos hb, if_pos hb]
    obtain ⟨buf, hset⟩ := h.back.setc_ok (hb ▸ hc).back_lt 0
    refine ⟨_, _, _, hset, ⟨h.back.near.posX, h.back.near.posY, h.back.near.le⟩,
      Nat.div_add_mod .., ?_⟩
    unfold Vga.back
    split
    · rfl
    · split <;> rfl
  rw [if_neg hb, if_neg hb]
  by_cases ht : c = Tty.tab
  · rw [if_pos ht, if_pos ht]
    have htab : v.posX.tmod 4 = (q % 80 % 4 : Nat) := by
      rw [hposX, Int.tmod_eq_emod_of_nonneg (by omega)]
      omega
    refine ⟨_, q % 80 + (4 - q % 80 % 4), q / 80, rfl, ⟨?_, h.posY, ?_⟩, ?_, rfl⟩
    · show wrap32 (v.posX + (4 - v.posX.tmod 4)) = _
      rw [htab, wrap32_of_inInt32 ⟨by omega, by omega⟩]
      omega
    · rw [hw]
      omega
    · rw [hw]
      omega
  rw [if_neg ht, if_neg ht]
  by_cases hr : c = Tty.carriageReturn
  · rw [if_pos hr, if_pos hr]
    refine ⟨_, 0, q / 80, rfl, ⟨rfl, h.posY, Nat.zero_le _⟩, ?_, rfl⟩
    rw [hw]
    omega
  rw [if_neg hr, if_neg hr]
  by_cases hn : c = Tty.newline
  · rw [if_pos hn, if_pos hn]
    refine ⟨_, 0, q / 80 + 1, rfl, ⟨rfl, ?_, Nat.zero_le _⟩, ?_, rfl⟩
    · show wrap32 (v.posY + 1) = _
      rw [h.posY, wrap32_row_succ]
      rfl
    · rw [hw]
      omega
  rw [if_neg hn, if_neg hn]
  obtain ⟨buf, hset⟩ := h.setc_ok (hc.lt hb (by simp [ht, hr, hn])) c
  rw [hset, Loop.ok_bind]
  refine ⟨_, q % 80 + 1, q / 80, rfl, ⟨?_, h.posY, ?_⟩, ?_, rfl⟩
  · show wrap32 (v.posX + 1) = _
    rw [hposX, wrap32_of_inInt32 ⟨by omega, by omega⟩]
    omega
  · rw [hw]
    omega
  · rw [hw]
    omega

theorem vgaMove_halts (h : At v q) (hc : ¬ Allowed q c) : ¬ ∃ w, v.vgaMove c = .ok w := by
  unfold Allowed at hc
  push Not at hc
  obtain ⟨hq, hmem, hback⟩ := hc
  simp only [List.mem_cons, List.not_mem_nil, or_false, not_or] at hmem
  obtain ⟨ht, hr, hn⟩ := hmem
  intro ⟨w, hw⟩
  unfold vgaMove vgaMoveBy at hw
  rw [vgaSetcBy_checked, vgaSetcBy_checked] at hw
  by_cases hb : c = Tty.backspace
  · have hlt : ¬ q - 1 < vgaSize := by
      have := hback hb
      omega
    rw [if_pos hb, h.back.setc_halts hlt] at hw
    cases hw
  · rw [if_neg hb, if_neg ht, if_neg hr, if_neg hn, h.setc_halts (by omega)] at hw
    cases hw

/-! ## One character, then a string -/

theorem wrapLine_scroll (v : Vga) : v.wrapLine.scroll = v.scroll := by
  unfold Vga.wrapLine
  split <;> rfl

theorem scrollUp_frame (h : v.scrollUp = .ok w) :
    ∃ buf, w = { v with buf := buf, posY := vgaHeight - 1 } := by
  obtain ⟨_, _, h⟩ := Loop.bind_eq_ok.mp h
  obtain ⟨buf, _, h⟩ := Loop.bind_eq_ok.mp h
  cases h
  exact ⟨buf, rfl⟩

/-- Without scrolling a character is printed exactly where it is allowed. -/
theorem At.putc (h : At v q) (hs : v.scroll = 0) (hc : Allowed q c) :
    ∃ w, v.vgaPutc c = .ok w ∧ At w (wrapRows (advance q c)) ∧ w.scroll = 0 := by
  obtain ⟨w, x, r, hmove, hnear, hcount, hscroll⟩ := vgaMove_near h hc
  have hend : w.wrapLine.scroll = 0 := by rw [wrapLine_scroll, hscroll, hs]
  refine ⟨w.wrapLine, ?_, hcount ▸ hnear.wrapLine, hend⟩
  rw [vgaPutc, vgaPutcBy, vgaMoveBy_checked, hmove, Loop.ok_bind]
  exact if_neg fun hboth => hboth.1 hend

theorem At.putc_halts (h : At v q) (hc : ¬ Allowed q c) : ¬ ∃ w, v.vgaPutc c = .ok w := by
  intro ⟨w, hw⟩
  obtain ⟨u, hmove, _⟩ := Loop.bind_eq_ok.mp hw
  exact vgaMove_halts h hc ⟨u, hmove⟩

theorem advance_le (hq : q < vgaSize) (c : Byte) : advance q c ≤ vgaSize := by
  have hw : vgaWidth = 80 := rfl
  have hsize : vgaSize = 2000 := rfl
  rw [hsize] at hq ⊢
  unfold advance
  rw [hw]
  split
  · omega
  split
  · omega
  split
  · omega
  split <;> omega

/-- With scrolling every character leaves the cursor on the screen. -/
theorem OnScreen.putc (h : v.OnScreen) (hs : v.scroll ≠ 0) (c : Byte) :
    ∃ w, v.vgaPutc c = .ok w ∧ w.OnScreen ∧ w.scroll ≠ 0 := by
  obtain ⟨hat, hq⟩ := h.at
  obtain ⟨w, x, r, hmove, hnear, hcount, hscroll⟩ := vgaMove_near (c := c) hat
    fun hge => absurd hq (Nat.not_lt.mpr hge)
  have hend := hnear.wrapLine
  rw [hcount] at hend
  have hs' : w.wrapLine.scroll ≠ 0 := by rwa [wrapLine_scroll, hscroll]
  have hle : wrapRows (advance v.position c) ≤ vgaSize :=
    Nat.le_trans (Nat.mod_le _ _) (advance_le hq c)
  rw [show vgaSize = 2000 from rfl] at hle
  generalize wrapRows (advance v.position c) = q at hend hle
  have hposX : w.wrapLine.posX = (q % 80 : Nat) := hend.posX
  rw [vgaPutc, vgaPutcBy, vgaMoveBy_checked, hmove, Loop.ok_bind]
  dsimp only
  by_cases hbottom : w.wrapLine.posY ≥ vgaHeight
  · rw [if_pos ⟨hs', hbottom⟩]
    obtain ⟨u, hu⟩ := scrollUp_ok w.wrapLine
    obtain ⟨buf, rfl⟩ := scrollUp_frame hu
    refine ⟨_, hu, ⟨?_, ?_, show (0 : Int) ≤ 24 by decide, show (24 : Int) < 25 by decide⟩, hs'⟩
    · show 0 ≤ w.wrapLine.posX
      omega
    · show w.wrapLine.posX < 80
      omega
  · rw [if_neg fun hboth => hbottom hboth.2]
    refine ⟨_, rfl, hend.onScreen_iff.mpr ?_, hs'⟩
    have hrow : wrap32 (q / 80 : Nat) = (q / 80 : Nat) :=
      wrap32_of_inInt32 ⟨by omega, by omega⟩
    have hposY : w.wrapLine.posY = wrap32 (q / 80 : Nat) := hend.posY
    rw [hposY, hrow] at hbottom
    have hr : q / 80 < 25 := Int.ofNat_lt.mp (Int.not_le.mp hbottom)
    exact (Nat.div_lt_iff_lt_mul (k := 80) (by decide)).mp hr

theorem OnScreen.puts : ∀ (s : List Byte) {v : Vga}, v.OnScreen → v.scroll ≠ 0 →
    ∃ w, s.foldlM vgaPutc v = .ok w ∧ w.OnScreen
  | [], v, h, _ => ⟨v, rfl, h⟩
  | c :: s, v, h, hs => by
    obtain ⟨w, hw, hon, hs'⟩ := h.putc hs c
    rw [List.foldlM_cons, hw, Loop.ok_bind]
    exact OnScreen.puts s hon hs'

/-- Without scrolling a string is printed exactly if it stays on the screen, and the
cursor is behind it. -/
theorem At.puts : ∀ (s : List Byte) {v : Vga} {q : Nat}, At v q → v.scroll = 0 →
    ((∃ w, s.foldlM vgaPutc v = .ok w) ↔ StaysOn q s) ∧
      ∀ w, s.foldlM vgaPutc v = .ok w → At w (cursorAfter q s)
  | [], v, q, h, _ => by
    refine ⟨iff_of_true ⟨v, rfl⟩ trivial, fun w hw => ?_⟩
    cases hw
    exact h
  | c :: s, v, q, h, hs => by
    rw [List.foldlM_cons]
    by_cases hc : Allowed q c
    · obtain ⟨w, hw, hat, hs'⟩ := h.putc hs hc
      obtain ⟨hiff, hafter⟩ := At.puts s hat hs'
      rw [hw, Loop.ok_bind]
      exact ⟨hiff.trans (and_iff_right hc).symm, hafter⟩
    · have hhalts : ∀ w, v.vgaPutc c >>= (fun w => s.foldlM vgaPutc w) ≠ .ok w := by
        intro w hw
        obtain ⟨u, hu, _⟩ := Loop.bind_eq_ok.mp hw
        exact h.putc_halts hc ⟨u, hu⟩
      refine ⟨iff_of_false (fun ⟨w, hw⟩ => hhalts w hw) fun hstays => hc hstays.1, ?_⟩
      intro w hw
      exact absurd hw (hhalts w)

/-! ## When output stays on the screen -/

/-- Where `vga_puts_at` starts. -/
def startAt (x y : Int) : Nat := (clamp x vgaWidth + clamp y vgaHeight * vgaWidth).toNat

theorem vgaPuts_iff (h : v.OnScreen) (s : List Byte) :
    (∃ w, v.vgaPuts (some s) = .ok w ∧ w.OnScreen) ↔ v.scroll ≠ 0 ∨
      StaysOn v.position (cString s) ∧ cursorAfter v.position (cString s) < vgaSize := by
  by_cases hs : v.scroll = 0
  · obtain ⟨hiff, hafter⟩ := h.at.1.puts (cString s) hs
    constructor
    · intro ⟨w, hw, hon⟩
      exact .inr ⟨hiff.mp ⟨w, hw⟩, (hafter w hw).onScreen_iff.mp hon⟩
    · rintro (hne | ⟨hstays, hlast⟩)
      · exact absurd hs hne
      · obtain ⟨w, hw⟩ := hiff.mpr hstays
        exact ⟨w, hw, (hafter w hw).onScreen_iff.mpr hlast⟩
  · exact iff_of_true (OnScreen.puts (cString s) h hs) (.inl hs)

theorem vgaPutsAt_iff (v : Vga) (x y bg fg : Int) (s : List Byte) :
    (∃ w, v.vgaPutsAt x y bg fg s = .ok w) ↔ v.scroll ≠ 0 ∨ StaysOn (startAt x y) (cString s) := by
  have hon : OnScreen { v with
      posX := clamp x vgaWidth, posY := clamp y vgaHeight
      colorBg := and32 bg 0x7, colorFg := and32 fg 0xf, cursor := 0 } := .of_clamp rfl rfl
  have hloop : (∃ w, v.vgaPutsAt x y bg fg s = .ok w) ↔ ∃ w, (cString s).foldlM vgaPutc { v with
      posX := clamp x vgaWidth, posY := clamp y vgaHeight
      colorBg := and32 bg 0x7, colorFg := and32 fg 0xf, cursor := 0 } = .ok w := by
    constructor
    · intro ⟨w, hw⟩
      obtain ⟨u, hu, _⟩ := Loop.bind_eq_ok.mp hw
      exact ⟨u, hu⟩
    · intro ⟨w, hw⟩
      rw [vgaPutsAt, vgaPutsAtBy, foldlM_checked, hw, Loop.ok_bind]
      exact ⟨_, rfl⟩
  rw [hloop]
  by_cases hs : v.scroll = 0
  · rw [(hon.at.1.puts (cString s) hs).1]
    exact ⟨.inr, fun hor => hor.resolve_left fun hne => hne hs⟩
  · obtain ⟨w, hw, _⟩ := OnScreen.puts (cString s) hon hs
    exact iff_of_true ⟨w, hw⟩ (.inl hs)

/-- **Output stays on the screen exactly if scrolling is on or the string prints nothing
behind the last cell**, where `vga_puts` must not leave the cursor either. -/
theorem vga_output_onScreen_iff (h : v.OnScreen) (x y bg fg : Int) (s : List Byte) :
    ((∃ w, v.vgaPuts (some s) = .ok w ∧ w.OnScreen) ↔ v.scroll ≠ 0 ∨
      StaysOn v.position (cString s) ∧ cursorAfter v.position (cString s) < vgaSize) ∧
    ((∃ w, v.vgaPutsAt x y bg fg s = .ok w) ↔
      v.scroll ≠ 0 ∨ StaysOn (startAt x y) (cString s)) :=
  ⟨vgaPuts_iff h s, vgaPutsAt_iff v x y bg fg s⟩

/-- The cursor in the last cell, without scrolling. -/
def lastCell : Vga :=
  { buf := fun _ => 0, posX := 79, posY := 24, colorBg := 0, colorFg := 7, cursor := 0, scroll := 0 }

/-- A character in the last cell that is taken back. -/
theorem vga_output_onScreen_back :
    (∃ w, lastCell.vgaPuts (some [97, 8]) = .ok w ∧ w.OnScreen) ∧
      ∃ w, lastCell.vgaPutsAt 79 24 0 7 [97, 8] = .ok w := by
  have h := vga_output_onScreen_iff (v := lastCell) ⟨by decide, by decide, by decide, by decide⟩
    79 24 0 7 [97, 8]
  exact ⟨h.1.mpr (.inr (by decide)), h.2.mpr (.inr (by decide))⟩

/-- A second character behind the last cell is stored outside the screen, and a line feed
in the last row leaves it. -/
theorem vga_output_leaves_screen :
    lastCell.OnScreen ∧ (¬ ∃ w, lastCell.vgaPuts (some [97, 98]) = .ok w) ∧
      (¬ ∃ w, lastCell.vgaPutsAt 79 24 0 7 [97, 98] = .ok w) ∧
      ∃ w, lastCell.vgaPuts (some [10]) = .ok w ∧ ¬ w.OnScreen := by
  have hon : lastCell.OnScreen := ⟨by decide, by decide, by decide, by decide⟩
  refine ⟨hon, fun h => ?_, fun h => ?_, ⟨_, rfl, ?_⟩⟩
  · exact absurd ((hon.at.1.puts [97, 98] rfl).1.mp h) (by decide)
  · exact absurd ((vgaPutsAt_iff lastCell 79 24 0 7 [97, 98]).mp h) (by decide)
  · intro ⟨_, _, _, hy⟩
    exact absurd hy (by decide)

end Vga
end UnivOS
