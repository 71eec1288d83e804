import UnivOS.VgaPuts

/-! # What positioned printing leaves

A string without an end on the screen is stored to other memory from there on, where
the store of the model halts. With the store that then leaves the screen and the
globals alone every string is printed to its end.
-/
namespace UnivOS
open Word

namespace Vga

/-- The position, the colours and the cursor flag are the same. -/
structure SameState (v w : Vga) : Prop where
  posX : w.posX = v.posX
  posY : w.posY = v.posY
  colorBg : w.colorBg = v.colorBg
  colorFg : w.colorFg = v.colorFg
  cursor : w.cursor = v.cursor

variable {v w : Vga} {store : Store} {x y bg fg : Int} {c : Byte} {s : List Byte}

/-! ## The two stores -/

theorem elsewhere_of_checked {buf buf' : Fin vgaSize → BitVec 16} {i : Int} {a : BitVec 16}
    (h : checked buf i a = .ok buf') : elsewhere buf i a = .ok buf' := by
  unfold checked setAt at h
  unfold elsewhere
  split at h
  · cases h
  · rename_i e he
    rw [he]
    exact h

theorem elsewhere_returns (buf : Fin vgaSize → BitVec 16) (i : Int) (a : BitVec 16) :
    ∃ buf', elsewhere buf i a = .ok buf' := by
  unfold elsewhere
  split
  · exact ⟨_, rfl⟩
  · exact ⟨_, rfl⟩

theorem vgaSetcBy_elsewhere (h : vgaSetcBy checked v c = .ok w) :
    vgaSetcBy elsewhere v c = .ok w := by
  obtain ⟨buf, hbuf, h⟩ := Loop.bind_eq_ok.mp h
  rw [vgaSetcBy, elsewhere_of_checked hbuf]
  exact h

theorem vgaSetcBy_returns (v : Vga) (c : Byte) : ∃ w, vgaSetcBy elsewhere v c = .ok w := by
  obtain ⟨buf, hbuf⟩ :=
    elsewhere_returns v.buf (v.posX + v.posY * vgaWidth) (vgaChar v.colorBg v.colorFg c)
  rw [vgaSetcBy, hbuf]
  exact ⟨_, rfl⟩

theorem vgaMoveBy_elsewhere (h : vgaMoveBy checked v c = .ok w) :
    vgaMoveBy elsewhere v c = .ok w := by
  unfold vgaMoveBy at h ⊢
  split
  · rename_i hb
    rw [if_pos hb] at h
    exact vgaSetcBy_elsewhere h
  rename_i hb
  rw [if_neg hb] at h
  split
  · rename_i ht
    rwa [if_pos ht] at h
  rename_i ht
  rw [if_neg ht] at h
  split
  · rename_i hr
    rwa [if_pos hr] at h
  rename_i hr
  rw [if_neg hr] at h
  split
  · rename_i hn
    rwa [if_pos hn] at h
  · rename_i hn
    rw [if_neg hn] at h
    obtain ⟨u, hu, h⟩ := Loop.bind_eq_ok.mp h
    rw [vgaSetcBy_elsewhere hu]
    exact h

theorem vgaMoveBy_returns (v : Vga) (c : Byte) : ∃ w, vgaMoveBy elsewhere v c = .ok w := by
  unfold vgaMoveBy
  split
  · exact vgaSetcBy_returns v.back 0
  split
  · exact ⟨_, rfl⟩
  split
  · exact ⟨_, rfl⟩
  split
  · exact ⟨_, rfl⟩
  · obtain ⟨w, hw⟩ := vgaSetcBy_returns v c
    rw [hw]
    exact ⟨_, rfl⟩

theorem vgaPutcBy_elsewhere (h : vgaPutcBy checked v c = .ok w) :
    vgaPutcBy elsewhere v c = .ok w := by
  obtain ⟨u, hu, h⟩ := Loop.bind_eq_ok.mp h
  rw [vgaPutcBy, vgaMoveBy_elsewhere hu]
  exact h

theorem vgaPutcBy_returns (v : Vga) (c : Byte) : ∃ w, vgaPutcBy elsewhere v c = .ok w := by
  obtain ⟨w, hw⟩ := vgaMoveBy_returns v c
  rw [vgaPutcBy, hw, Loop.ok_bind]
  dsimp only
  split
  · exact scrollUp_ok _
  · exact ⟨_, rfl⟩

/-- What the model prints without halting is printed the same here. -/
theorem vgaPutsAtBy_elsewhere (h : v.vgaPutsAt x y bg fg s = .ok w) :
    vgaPutsAtBy elsewhere v x y bg fg s = .ok w := by
  obtain ⟨u, hu, h⟩ := Loop.bind_eq_ok.mp h
  rw [vgaPutsAtBy, Loop.foldlM_mono (fun _ _ _ => vgaPutcBy_elsewhere) _ hu]
  exact h

/-! ## The globals afterwards -/

theorem vgaPutcAt_sameState (h : v.vgaPutcAt x y bg fg c = .ok w) : SameState v w := by
  obtain ⟨u, _, h⟩ := Loop.bind_eq_ok.mp h
  cases h
  exact ⟨rfl, rfl, rfl, rfl, rfl⟩

/-- Whatever the stores do, the flag is off afterwards and the other globals are back. -/
theorem vgaPutsAtBy_sameState_iff (h : vgaPutsAtBy store v x y bg fg s = .ok w) :
    SameState v w ↔ v.cursor = 0 := by
  obtain ⟨u, _, h⟩ := Loop.bind_eq_ok.mp h
  cases h
  constructor
  · intro hsame
    exact hsame.cursor.symm
  · intro hoff
    exact ⟨rfl, rfl, rfl, rfl, hoff.symm⟩

/-- **Printing a character at a position leaves the state of the terminal alone, printing
a string does exactly if the cursor was disabled.** -/
theorem positioned_printing_iff (v : Vga) (x y bg fg : Int) (c : Byte) (s : List Byte) :
    (∃ w, v.vgaPutcAt x y bg fg c = .ok w ∧ SameState v w) ∧
      ((∃ w, vgaPutsAtBy elsewhere v x y bg fg s = .ok w ∧ SameState v w) ↔ v.cursor = 0) := by
  obtain ⟨w, hw⟩ := vgaPutcAt_ok v x y bg fg c
  refine ⟨⟨w, hw, vgaPutcAt_sameState hw⟩, ?_⟩
  obtain ⟨u, hu⟩ := Loop.foldlM_returns vgaPutcBy_returns (cString s) { v with
    posX := clamp x vgaWidth, posY := clamp y vgaHeight
    colorBg := and32 bg 0x7, colorFg := and32 fg 0xf, cursor := 0 }
  have hreturns : ∃ w, vgaPutsAtBy elsewhere v x y bg fg s = .ok w := by
    rw [vgaPutsAtBy, hu, Loop.ok_bind]
    exact ⟨_, rfl⟩
  obtain ⟨w', hw'⟩ := hreturns
  constructor
  · rintro ⟨t, ht, hsame⟩
    exact (vgaPutsAtBy_sameState_iff ht).mp hsame
  · intro hoff
    exact ⟨w', hw', (vgaPutsAtBy_sameState_iff hw').mpr hoff⟩

/-- With the cursor enabled, even the empty string disables it. -/
theorem positioned_printing_disables_cursor :
    ∃ w, { lastCell with cursor := 1 }.vgaPutsAt 0 0 0 7 [] = .ok w ∧ w.cursor = 0 ∧
      ¬ SameState { lastCell with cursor := 1 } w := by
  refine ⟨_, rfl, rfl, fun hsame => ?_⟩
  exact absurd hsame.cursor (by decide)

end Vga
end UnivOS
