import UnivOS.VgaPuts

/-! # Printing text

The rest of `vga.c`, and the conversions of `printf` that the kernel prints with. A text
without control characters fills the cells from the cursor on, from the end of a row to
the start of the next, and changes no others.
-/
namespace UnivOS
open Word

def vgaColorBlack : Int := 0x0
def vgaColorGreen : Int := 0x2
def vgaColorRed : Int := 0x4
def vgaColorBrown : Int := 0x6
def vgaColorLightGrey : Int := 0x7
def vgaColorDarkGrey : Int := 0x8
def vgaColorYellow : Int := 0xE
def vgaColorWhite : Int := 0xF

/-! ## Conversions -/

def space : Byte := 32

/-- `%d`. -/
def decimal (n : Int) : List Byte :=
  (if n < 0 then [0x2D] else []) ++ (Nat.toDigits 10 n.natAbs).map fun c => BitVec.ofNat 8 c.toNat

/-- A minimal width, as in `%5d`. -/
def padLeft (width : Nat) (s : List Byte) : List Byte :=
  List.replicate (width - s.length) space ++ s

/-- What `snprintf` stores in front of the NUL. -/
def snprintf (size : Nat) (s : List Byte) : List Byte := s.take (size - 1)

namespace Vga

/-- `vga_set_xy`. The hardware cursor follows only where it is enabled. -/
def vgaSetXy (v : Vga) (x y : Int) : Vga :=
  { v with posX := clamp x vgaWidth, posY := clamp y vgaHeight }

def vgaGetX (v : Vga) : Int := v.posX

def vgaGetY (v : Vga) : Int := v.posY

def vgaSetBg (v : Vga) (bg : Int) : Vga := if 0 ≤ bg ∧ bg ≤ 0xF then { v with colorBg := bg } else v

def vgaGetBg (v : Vga) : Int := v.colorBg

def vgaSetFg (v : Vga) (fg : Int) : Vga := if 0 ≤ fg ∧ fg ≤ 0xF then { v with colorFg := fg } else v

def vgaGetFg (v : Vga) : Int := v.colorFg

/-- The loop body of `vga_clear`. -/
def eraseCell (bg fg : Int) (buf : Fin vgaSize → BitVec 16) (i : Nat) :
    Res (Fin vgaSize → BitVec 16) :=
  setAt buf i (vgaChar bg fg 0) "vga_buf"

def vgaClear (v : Vga) : Res Vga := do
  let buf ← (List.range (vgaWidth * vgaHeight)).foldlM (eraseCell v.colorBg v.colorFg) v.buf
  .ok ({ v with buf }.vgaSetXy 0 0)

/-- `vga_printf` with the text its format makes. -/
def vgaPrintf (v : Vga) (s : List Byte) : Res Vga :=
  v.vgaPuts (some (snprintf (vgaWidth * vgaHeight) s))

end Vga

/-! ## Plain text -/

/-- The characters that end no string and only print. -/
def Plain (s : List Byte) : Prop :=
  ∀ c ∈ s, c ∉ [0, Tty.tab, Tty.backspace, Tty.carriageReturn, Tty.newline]

instance (s : List Byte) : Decidable (Plain s) := inferInstanceAs (Decidable (∀ c ∈ s, _))

variable {s t : List Byte}

theorem Plain.append (hs : Plain s) (ht : Plain t) : Plain (s ++ t) := by
  intro c hc
  rcases List.mem_append.mp hc with h | h
  · exact hs c h
  · exact ht c h

theorem Plain.take (hs : Plain s) (n : Nat) : Plain (s.take n) :=
  fun c hc => hs c (List.mem_of_mem_take hc)

theorem plain_blanks (n : Nat) : Plain (List.replicate n space) := by
  intro c hc
  rw [(List.mem_replicate.mp hc).2]
  decide

theorem Plain.padLeft (hs : Plain s) (width : Nat) : Plain (padLeft width s) :=
  (plain_blanks _).append hs

theorem Plain.cString (hs : Plain s) : Vga.cString s = s := by
  have hall : ∀ c ∈ s, (c != 0) = true := by
    intro c hc
    have hne : c ≠ 0 := fun he => hs c hc (he ▸ List.mem_cons_self)
    simpa using hne
  rw [Vga.cString, ← List.append_nil s, List.takeWhile_append_of_pos hall]
  rfl

/-- The control characters come before the space. -/
theorem plain_of_le (h : ∀ c ∈ s, 32 ≤ c.toNat) : Plain s := by
  intro c hc hmem
  have hle := h c hc
  simp only [List.mem_cons, List.not_mem_nil, or_false] at hmem
  rcases hmem with rfl | rfl | rfl | rfl | rfl <;> exact absurd hle (by decide)

theorem toDigits_plain (n : Nat) :
    Plain ((Nat.toDigits 10 n).map fun c => BitVec.ofNat 8 c.toNat) := by
  refine plain_of_le fun b hb => ?_
  obtain ⟨c, hc, rfl⟩ := List.mem_map.mp hb
  have hdigit := Nat.isDigit_of_mem_toDigits (by decide) (by decide) hc
  simp only [Char.isDigit, Bool.and_eq_true, decide_eq_true_eq, UInt32.le_iff_toNat_le] at hdigit
  have hrange : 48 ≤ c.toNat ∧ c.toNat ≤ 57 := hdigit
  rw [BitVec.toNat_ofNat]
  omega

theorem decimal_plain (n : Int) : Plain (decimal n) := by
  refine Plain.append ?_ (toDigits_plain _)
  split
  · decide
  · decide

/-- The numbers of an `int` have at most eleven characters. -/
theorem decimal_length {n : Int} {d : Nat} (hd : 0 < d) (h : n.natAbs < 10 ^ d) :
    (decimal n).length ≤ d + 1 := by
  have hdigits := (Nat.length_toDigits_le_iff (b := 10) (by decide) hd).mpr h
  rw [decimal, List.length_append, List.length_map]
  split
  · rw [List.length_singleton]
    omega
  · rw [List.length_nil]
    omega

/-! ## Printing it -/

namespace Vga

variable {v w : Vga} {q : Nat} {c : Byte}

/-- The screen with a text in the cells from `q` on. -/
def written (buf : Fin vgaSize → BitVec 16) (q : Nat) (bg fg : Int) (s : List Byte) :
    Fin vgaSize → BitVec 16 :=
  fun k => if q ≤ k then ((s[k - q]?).map (vgaChar bg fg)).getD (buf k) else buf k

@[simp] theorem written_nil (buf : Fin vgaSize → BitVec 16) (q : Nat) (bg fg : Int) :
    written buf q bg fg [] = buf := by
  funext k
  simp [written]

/-- The first character, and then the rest of the text. -/
theorem written_cons (buf : Fin vgaSize → BitVec 16) (hq : q < vgaSize) (bg fg : Int) :
    written (Function.update buf ⟨q, hq⟩ (vgaChar bg fg c)) (q + 1) bg fg s =
      written buf q bg fg (c :: s) := by
  funext k
  rcases Nat.lt_trichotomy k q with h | h | h
  · have hne : k ≠ ⟨q, hq⟩ := fun he => Nat.ne_of_lt h (congrArg Fin.val he)
    rw [written, if_neg (by omega), Function.update_of_ne hne, written, if_neg (by omega)]
  · obtain rfl : k = ⟨q, hq⟩ := Fin.ext h
    rw [written, if_neg (by simp), Function.update_self, written, if_pos (le_refl _)]
    simp
  · have hne : k ≠ ⟨q, hq⟩ := fun he => Nat.ne_of_gt h (congrArg Fin.val he)
    obtain ⟨d, hd⟩ := Nat.exists_eq_add_of_lt h
    rw [written, if_pos (by omega), written, if_pos (by omega), Function.update_of_ne hne,
      show (k : Nat) - (q + 1) = d by omega, show (k : Nat) - q = d + 1 by omega,
      List.getElem?_cons_succ]

/-- Outside its cells a text changes nothing. -/
theorem written_of_lt {buf : Fin vgaSize → BitVec 16} {bg fg : Int} {k : Fin vgaSize}
    (h : (k : Nat) < q ∨ q + s.length ≤ k) : written buf q bg fg s k = buf k := by
  unfold written
  split
  · rw [List.getElem?_eq_none (by omega)]
    rfl
  · rfl

theorem written_getElem {buf : Fin vgaSize → BitVec 16} {bg fg : Int} {k : Fin vgaSize} {i : Nat}
    (hk : (k : Nat) = q + i) (hi : i < s.length) :
    written buf q bg fg s k = vgaChar bg fg s[i] := by
  rw [written, if_pos (by omega), show (k : Nat) - q = i by omega, List.getElem?_eq_getElem hi]
  rfl

theorem At.position (h : At v q) (hq : q < vgaSize) : v.posX + v.posY * vgaWidth = q := by
  have hw : vgaWidth = 80 := rfl
  have hsize : vgaSize = 2000 := rfl
  have hposX := h.posX
  have hposY := h.posY
  rw [hw] at hposX hposY ⊢
  rw [hsize] at hq
  rw [wrap32_of_inInt32 ⟨by omega, by omega⟩] at hposY
  omega

theorem wrapLine_frame (v : Vga) :
    v.wrapLine = { v with posX := v.wrapLine.posX, posY := v.wrapLine.posY } := by
  unfold wrapLine
  split <;> rfl

/-- A character that only prints fills the cell under the cursor. -/
theorem At.putc_plain (h : At v q) (hs : v.scroll = 0) (hq : q < vgaSize)
    (hc : c ∉ [Tty.tab, Tty.backspace, Tty.carriageReturn, Tty.newline]) :
    ∃ x y, v.vgaPutc c = .ok { v with
        buf := Function.update v.buf ⟨q, hq⟩ (vgaChar v.colorBg v.colorFg c), posX := x, posY := y } ∧
      At { v with
        buf := Function.update v.buf ⟨q, hq⟩ (vgaChar v.colorBg v.colorFg c)
        posX := x, posY := y } (q + 1) := by
  have hallowed : Allowed q c := fun hge => absurd hq (Nat.not_lt.mpr hge)
  obtain ⟨w, hw, hat, _⟩ := h.putc hs hallowed
  have hadvance : wrapRows (advance q c) = q + 1 := by
    simp only [List.mem_cons, List.not_mem_nil, or_false, not_or] at hc
    obtain ⟨htab, hback, hreturn, hnewline⟩ := hc
    have hsize : vgaSize = 2000 := rfl
    rw [advance, if_neg hback, if_neg htab, if_neg hreturn, if_neg hnewline, wrapRows,
      Nat.mod_eq_of_lt]
    show q + 1 < 80 * 2 ^ 32
    omega
  have hmove := hw
  rw [vgaPutc, vgaPutcBy, vgaMoveBy_checked, vgaMove_plain hq (h.position hq) hc, Loop.ok_bind]
    at hmove
  dsimp only at hmove
  rw [wrapLine_frame, if_neg fun hboth => hboth.1 hs] at hmove
  cases hmove
  rw [hadvance] at hat
  exact ⟨_, _, hw, hat⟩

/-- A plain text fills the cells from the cursor on. -/
theorem At.puts_plain : ∀ {s : List Byte} {v : Vga} {q : Nat}, At v q → v.scroll = 0 → Plain s →
    q + s.length ≤ vgaSize → ∃ x y, s.foldlM vgaPutc v = .ok { v with
        buf := written v.buf q v.colorBg v.colorFg s, posX := x, posY := y } ∧
      At { v with
        buf := written v.buf q v.colorBg v.colorFg s, posX := x, posY := y } (q + s.length)
  | [], v, q, h, _, _, _ => by
    refine ⟨v.posX, v.posY, ?_, ?_⟩
    · rw [written_nil]
      rfl
    · rw [written_nil]
      exact h
  | c :: s, v, q, h, hs, hplain, hle => by
    rw [List.length_cons] at hle
    have hc := hplain c List.mem_cons_self
    rw [List.mem_cons, not_or] at hc
    obtain ⟨x, y, hput, hat⟩ := h.putc_plain hs (by omega) hc.2
    obtain ⟨x', y', hputs, hat'⟩ := At.puts_plain hat hs
      (fun d hd => hplain d (List.mem_cons_of_mem c hd)) (by omega)
    refine ⟨x', y', ?_, ?_⟩
    · rw [List.foldlM_cons, hput, Loop.ok_bind, hputs, written_cons]
    · rw [written_cons] at hat'
      rw [List.length_cons, show q + (s.length + 1) = q + 1 + s.length by omega]
      exact hat'

/-- `vga_puts` from a cursor on the screen. -/
theorem vgaPuts_plain (h : At v q) (hs : v.scroll = 0) (hplain : Plain s)
    (hle : q + s.length ≤ vgaSize) : ∃ x y, v.vgaPuts (some s) = .ok { v with
        buf := written v.buf q v.colorBg v.colorFg s, posX := x, posY := y } ∧
      At { v with
        buf := written v.buf q v.colorBg v.colorFg s, posX := x, posY := y } (q + s.length) := by
  rw [vgaPuts, hplain.cString]
  exact h.puts_plain hs hplain hle

theorem startAt_of_range {x y : Nat} (hx : x < vgaWidth) (hy : y < vgaHeight) :
    startAt x y = x + y * vgaWidth := by
  rw [startAt, clamp_of_range (by omega) (by omega), clamp_of_range (by omega) (by omega)]
  rfl

/-- `vga_puts_at` leaves the position and the colours as they were. -/
theorem vgaPutsAt_plain (hs : v.scroll = 0) (hplain : Plain s) (x y bg fg : Int)
    (hle : startAt x y + s.length ≤ vgaSize) : v.vgaPutsAt x y bg fg s = .ok { v with
        buf := written v.buf (startAt x y) (and32 bg 0x7) (and32 fg 0xf) s, cursor := 0 } := by
  have hon : OnScreen { v with
      posX := clamp x vgaWidth, posY := clamp y vgaHeight
      colorBg := and32 bg 0x7, colorFg := and32 fg 0xf, cursor := 0 } := .of_clamp rfl rfl
  obtain ⟨x', y', hputs, _⟩ := hon.at.1.puts_plain hs hplain hle
  rw [vgaPutsAt, vgaPutsAtBy, hplain.cString, foldlM_checked, hputs]
  rfl

theorem vgaSetXy_onScreen (v : Vga) (x y : Int) : (v.vgaSetXy x y).OnScreen :=
  .of_clamp (x := x) (y := y) rfl rfl

/-! ## Clearing the screen -/

theorem vgaClear_ok (v : Vga) : v.vgaClear = .ok { v with
    buf := fun _ => vgaChar v.colorBg v.colorFg 0, posX := 0, posY := 0 } := by
  obtain ⟨buf, hbuf, hall⟩ := Loop.range_ok (f := eraseCell v.colorBg v.colorFg) (n := vgaSize)
    (s := v.buf) (fun n buf => ∀ k : Fin vgaSize, (k : Nat) < n →
      buf k = vgaChar v.colorBg v.colorFg 0) (fun k hk => absurd hk (Nat.not_lt_zero _))
    fun n hn buf hbuf => by
      refine ⟨_, setAt_nat buf hn _ _, fun k hk => ?_⟩
      by_cases hkn : k = ⟨n, hn⟩
      · rw [hkn, Function.update_self]
      · have hne : (k : Nat) ≠ n := fun he => hkn (Fin.ext he)
        rw [Function.update_of_ne hkn]
        exact hbuf k (by omega)
  have hcells : buf = fun _ => vgaChar v.colorBg v.colorFg 0 := funext fun k => hall k k.isLt
  rw [vgaClear, show vgaWidth * vgaHeight = vgaSize from rfl, hbuf, Loop.ok_bind, hcells]
  rfl

end Vga
end UnivOS
