import UnivOS.Painting

/-! # Terminals in use

What holds of every terminal as long as the system runs: its buffer holds no control
character, and scroll position, colours and echo are as `tty_init` set them. So a refresh
draws the buffer and nothing else, and what it does is told from the output ring and the
refresh flag. A terminal whose output fits on its lines keeps its cursor on the screen.
-/
namespace UnivOS
open Word

namespace Tty

variable {t t' : Tty} {c : Byte}

/-- What the functions of `tty.c` keep of a terminal. -/
structure Steady (t : Tty) : Prop where
  plain : ∀ k, t.buf k ∉ [tab, backspace, carriageReturn, newline]
  posScroll : t.posScroll = 0
  colorBg : t.colorBg = 0
  colorFg : t.colorFg = 7
  echo : t.echo = 0

/-- Only characters that are printed get into the buffer. -/
theorem ttyMove_plain (h : ∀ k, t.buf k ∉ [tab, backspace, carriageReturn, newline])
    (hm : t.ttyMove c = .ok t') : ∀ k, t'.buf k ∉ [tab, backspace, carriageReturn, newline] := by
  unfold ttyMove at hm
  split at hm
  · cases hm
    exact h
  · rename_i htab
    split at hm
    · split at hm
      · cases hm
        exact h
      · split at hm
        · cases hm
          exact h
        · cases hm
          exact h
    · rename_i hback
      split at hm
      · cases hm
        exact h
      · rename_i hreturn
        split at hm
        · cases hm
          exact h
        · rename_i hnewline
          obtain ⟨buf, hset, hm⟩ := Loop.bind_eq_ok.mp hm
          cases hm
          unfold setAt at hset
          split at hset
          · cases hset
          · rename_i e _
            cases hset
            intro k
            show Function.update t.buf e c k ∉ _
            by_cases hk : k = e
            · rw [hk, Function.update_self]
              simp [htab, hback, hreturn, hnewline]
            · rw [Function.update_of_ne hk]
              exact h k

theorem ttyScroll_plain {buf buf' : Fin ttyBufSize → Byte}
    (h : ∀ k, buf k ∉ [tab, backspace, carriageReturn, newline])
    (hs : ttyScroll buf = .ok buf') : ∀ k, buf' k ∉ [tab, backspace, carriageReturn, newline] := by
  rw [ttyScroll_ok] at hs
  cases hs
  intro k
  dsimp only
  split
  · exact h _
  · decide

theorem Steady.ttyUpdate (h : t.Steady) (hu : t.ttyUpdate c = .ok t') : t'.Steady := by
  have hframe := ttyUpdate_frame hu
  obtain ⟨u, hmove, hu⟩ := Loop.bind_eq_ok.mp hu
  have hplain : ∀ k, t'.buf k ∉ [tab, backspace, carriageReturn, newline] := by
    have hmoved := ttyMove_plain h.plain hmove
    split at hu
    · obtain ⟨buf, hscroll, hu⟩ := Loop.bind_eq_ok.mp hu
      cases hu
      exact ttyScroll_plain hmoved hscroll
    · cases hu
      exact hmoved
  obtain ⟨buf, x, y, rfl⟩ := hframe
  exact ⟨hplain, h.posScroll, h.colorBg, h.colorFg, h.echo⟩

/-- The rings are not looked at. -/
theorem Steady.withRings (h : t.Steady) (input output : Ringbuf) :
    Tty.Steady { t with ioInput := input, ioOutput := output } :=
  ⟨h.plain, h.posScroll, h.colorBg, h.colorFg, h.echo⟩

theorem Steady.withRefresh (h : t.Steady) (refresh : Int) : Tty.Steady { t with refresh } :=
  ⟨h.plain, h.posScroll, h.colorBg, h.colorFg, h.echo⟩

/-- Two terminals that differ in their rings and the refresh flag at most. -/
def SameText (t u : Tty) : Prop :=
  ∃ (input output : Ringbuf) (refresh : Int),
    u = { t with ioInput := input, ioOutput := output, refresh }

theorem SameText.refl (t : Tty) : SameText t t := ⟨t.ioInput, t.ioOutput, t.refresh, rfl⟩

theorem SameText.symm {u : Tty} (h : SameText t u) : SameText u t := by
  obtain ⟨input, output, refresh, rfl⟩ := h
  exact ⟨t.ioInput, t.ioOutput, t.refresh, rfl⟩

theorem SameText.trans {u w : Tty} (h : SameText t u) (h' : SameText u w) : SameText t w := by
  obtain ⟨input, output, refresh, rfl⟩ := h
  obtain ⟨input', output', refresh', rfl⟩ := h'
  exact ⟨input', output', refresh', rfl⟩

theorem ttyMove_with (t : Tty) (c : Byte) (input output : Ringbuf) (refresh : Int) :
    ttyMove { t with ioInput := input, ioOutput := output, refresh } c =
      (t.ttyMove c).map fun u => { u with ioInput := input, ioOutput := output, refresh } := by
  unfold ttyMove
  split
  · rfl
  · split
    · dsimp only
      split
      · rfl
      · split <;> rfl
    · split
      · rfl
      · split
        · rfl
        · dsimp only
          cases setAt t.buf (t.posScroll * ttyWidth + (t.posX + t.posY * ttyWidth)) c "tty->buf" <;>
            rfl

/-- A character has the same effect whatever is in the rings. -/
theorem ttyUpdate_with (t : Tty) (c : Byte) (input output : Ringbuf) (refresh : Int) :
    Tty.ttyUpdate { t with ioInput := input, ioOutput := output, refresh } c =
      (t.ttyUpdate c).map fun u => { u with ioInput := input, ioOutput := output } := by
  unfold Tty.ttyUpdate
  rw [ttyMove_with]
  cases t.ttyMove c with
  | error e => rfl
  | ok u =>
    show (if u.posY ≥ ttyHeight then _ else _) = _
    by_cases hbottom : u.posY ≥ ttyHeight
    · simp only [Loop.ok_bind, if_pos hbottom]
      cases ttyScroll u.buf <;> rfl
    · simp only [Loop.ok_bind, if_neg hbottom]
      rfl

theorem ttyUpdate_output (t : Tty) (c : Byte) (b : Ringbuf) :
    Tty.ttyUpdate { t with ioOutput := b } c =
      (t.ttyUpdate c).map fun u => { u with ioOutput := b } := by
  have hwith := ttyUpdate_with t c t.ioInput b t.refresh
  refine hwith.trans ?_
  cases hu : t.ttyUpdate c with
  | error e => rfl
  | ok u =>
    obtain ⟨buf, x, y, rfl⟩ := ttyUpdate_frame hu
    rfl

theorem SameText.ttyUpdate {u : Tty} (h : SameText t u) (hu : t.ttyUpdate c = .ok t') :
    ∃ u', u.ttyUpdate c = .ok u' ∧ SameText t' u' := by
  obtain ⟨input, output, refresh, rfl⟩ := h
  refine ⟨_, by rw [ttyUpdate_with, hu]; rfl, input, output, t'.refresh, rfl⟩

/-- Characters typed at a terminal. -/
def types (t : Tty) (cs : List Byte) : Res Tty := cs.foldlM Tty.ttyUpdate t

theorem types_append (t : Tty) (cs ds : List Byte) :
    t.types (cs ++ ds) = t.types cs >>= fun u => u.types ds := List.foldlM_append

theorem SameText.types {u : Tty} {cs : List Byte} (h : SameText t u) (ht : t.types cs = .ok t') :
    ∃ u', u.types cs = .ok u' ∧ SameText t' u' := by
  induction cs generalizing t u with
  | nil =>
    cases ht
    exact ⟨u, rfl, h⟩
  | cons c cs ih =>
    rw [Tty.types, List.foldlM_cons] at ht
    obtain ⟨t₁, h₁, ht⟩ := Loop.bind_eq_ok.mp ht
    obtain ⟨u₁, hu₁, hsame⟩ := h.ttyUpdate h₁
    obtain ⟨u', hu, hsame'⟩ := ih hsame ht
    refine ⟨u', ?_, hsame'⟩
    rw [Tty.types, List.foldlM_cons, hu₁]
    exact hu

/-- Typing leaves the rings alone. -/
theorem types_rings {cs : List Byte} (h : t.types cs = .ok t') :
    t'.ioInput = t.ioInput ∧ t'.ioOutput = t.ioOutput := by
  refine Loop.foldlM_inv (fun u => u.ioInput = t.ioInput ∧ u.ioOutput = t.ioOutput)
    (fun u c u' hu hup => ?_) cs ⟨rfl, rfl⟩ h
  obtain ⟨buf, x, y, rfl⟩ := ttyUpdate_frame hup
  exact hu

end Tty

namespace Ttys

variable {s s' u : Ttys} {i j : Fin ttyMax} {v v' : Vga} {c : Byte}

structure Steady (s : Ttys) : Prop where
  tty : ∀ i, (s.ttyTable i).Steady
  id : ∀ i, (s.ttyTable i).id = (i : Nat)
  active : s.activeTty ≠ none

theorem Steady.setTty (h : s.Steady) {t : Tty} (ht : t.Steady) (hid : t.id = (s.ttyTable i).id) :
    (s.setTty i t).Steady := by
  refine ⟨fun j => ?_, fun j => ?_, h.active⟩
  · by_cases hj : j = i
    · rw [hj, setTty_self]
      exact ht
    · rw [setTty_ne hj]
      exact h.tty j
  · by_cases hj : j = i
    · rw [hj, setTty_self, hid, h.id]
    · rw [setTty_ne hj, h.id]

theorem drainByte_steady (hi : s.activeTty = some i) (h : s.Steady)
    (hd : drainByte i s = .ok s') : s'.Steady := by
  unfold drainByte at hd
  split at hd
  · cases hd
    exact h
  · rename_i c b _
    rw [ttyUpdate_active (by exact hi), setTty_self] at hd
    obtain ⟨t, hup, hd⟩ := Loop.bind_eq_ok.mp hd
    cases hd
    have hring := (h.tty i).withRings (s.ttyTable i).ioInput b
    obtain ⟨_, _, _, hframe⟩ := Tty.ttyUpdate_frame hup
    rw [setTty_setTty]
    exact h.setTty (hring.ttyUpdate hup) (by rw [hframe])

theorem drainByte_refresh (hi : s.activeTty = some i)
    (hne : (!(s.ttyTable i).ioOutput.ringbufIsEmpty) = true) (hd : drainByte i s = .ok s') :
    (s'.ttyTable i).refresh = 1 := by
  unfold drainByte at hd
  split at hd
  · rename_i hread
    exact absurd (Ringbuf.ringbufRead_none.mp hread) (hasOutput_iff.mp hne)
  · rw [ttyUpdate_active (by exact hi), setTty_self] at hd
    obtain ⟨t, hup, hd⟩ := Loop.bind_eq_ok.mp hd
    cases hd
    obtain ⟨_, _, _, hframe⟩ := Tty.ttyUpdate_frame hup
    rw [setTty_self, hframe]

theorem ttyDrain_steady (hi : s.activeTty = some i) (h : s.Steady)
    (hd : s.ttyDrain i = .ok s') : s'.Steady := by
  exact (Loop.whileM_inv (fun u => u.activeTty = some i ∧ u.Steady)
    (fun u w _ hu hw => ⟨(drainByte_only hu.1 hw).activeTty.trans hu.1,
      drainByte_steady hu.1 hu.2 hw⟩) ringbufSize ⟨hi, h⟩ hd).2

theorem setTty_same (s : Ttys) (i : Fin ttyMax) : s.setTty i (s.ttyTable i) = s := by
  rw [setTty, Function.update_eq_self]

/-- Handling the output is typing it. -/
theorem ttyDrain_types (hi : s.activeTty = some i) (hd : s.ttyDrain i = .ok u) :
    ∃ t, (s.ttyTable i).types (s.ttyTable i).ioOutput.toList = .ok t ∧
      u = s.setTty i { t with ioOutput := (u.ttyTable i).ioOutput } ∧
      (u.ttyTable i).ioOutput.toList = [] := by
  have hnil := (ttyDrain_only hi hd).2
  -- what has been handled so far, and the terminal it makes
  have hinv := Loop.whileM_inv (fun w => w.activeTty = some i ∧ ∃ cs t,
      (s.ttyTable i).ioOutput.toList = cs ++ (w.ttyTable i).ioOutput.toList ∧
      (s.ttyTable i).types cs = .ok t ∧ w = s.setTty i { t with ioOutput := (w.ttyTable i).ioOutput })
    (fun w w' hne ⟨hact, cs, t, hcs, ht, hw⟩ hbyte => by
      refine ⟨(drainByte_only hact hbyte).activeTty.trans hact, ?_⟩
      unfold drainByte at hbyte
      split at hbyte
      · rename_i hread
        exact absurd (Ringbuf.ringbufRead_none.mp hread) (hasOutput_iff.mp hne)
      · rename_i c b hread
        have hcons := Ringbuf.ringbufRead_some hread
        have hentry : { w.ttyTable i with ioOutput := b } = { t with ioOutput := b } := by
          rw [hw, setTty_self]
        rw [ttyUpdate_active (by exact hact), setTty_self, hentry, Tty.ttyUpdate_output] at hbyte
        obtain ⟨t', hup, hbyte⟩ := Loop.bind_eq_ok.mp hbyte
        obtain ⟨t₁, h₁, rfl⟩ := Loop.map_eq_ok.mp hup
        cases hbyte
        refine ⟨cs ++ [c], t₁, ?_, ?_, ?_⟩
        · rw [hcs, hcons, setTty_setTty, setTty_self, List.append_assoc]
          rfl
        · rw [Tty.types_append, ht, Loop.ok_bind, Tty.types, List.foldlM_cons, h₁]
          rfl
        · rw [setTty_setTty, setTty_self, hw, setTty_setTty])
    ringbufSize ⟨hi, [], s.ttyTable i, rfl, rfl, (setTty_same s i).symm⟩ hd
  obtain ⟨_, cs, t, hcs, ht, hu⟩ := hinv
  rw [hnil, List.append_nil] at hcs
  exact ⟨t, hcs ▸ ht, hu, hnil⟩

/-- The flag of a terminal is set by the output it handles. -/
theorem ttyDrain_idle (hi : s.activeTty = some i) (hd : s.ttyDrain i = .ok u)
    (hidle : (u.ttyTable i).refresh = 0) : u = s := by
  have hinv := Loop.whileM_inv (fun u => u.activeTty = some i ∧ (u = s ∨ (u.ttyTable i).refresh = 1))
    (fun u w hne hu hw => ⟨(drainByte_only hu.1 hw).activeTty.trans hu.1,
      .inr (drainByte_refresh hu.1 hne hw)⟩) ringbufSize ⟨hi, .inl rfl⟩ hd
  rcases hinv.2 with heq | hset
  · exact heq
  · rw [hset] at hidle
    cases hidle

/-- What a refresh does: it handles the output, and draws the terminal if it has changed. -/
theorem ttyRefresh_cases (h : s.Steady) (hi : s.activeTty = some i) (hv : v.scroll = 0)
    (hr : s.ttyRefresh v = .ok (s', v')) : ∃ u, s.ttyDrain i = .ok u ∧ u.Steady ∧
      (u.ttyTable i).ioOutput.toList = [] ∧
      (((u.ttyTable i).refresh ≠ 0 ∧ s' = u.setTty i { u.ttyTable i with refresh := 0 } ∧
          v' = { v with buf := drawn (u.ttyTable i) }) ∨
        ((u.ttyTable i).refresh = 0 ∧ u = s ∧ s' = s ∧ v' = v)) := by
  have hrefresh := hr
  rw [Ttys.ttyRefresh, hi] at hr
  obtain ⟨u, hdrain, hr⟩ := Loop.bind_eq_ok.mp hr
  obtain ⟨honly, hnil⟩ := ttyDrain_only hi hdrain
  have hsteady := ttyDrain_steady hi h hdrain
  refine ⟨u, hdrain, hsteady, hnil, ?_⟩
  by_cases hflag : (u.ttyTable i).refresh = 0
  · rw [if_neg (not_not.mpr hflag)] at hr
    cases hr
    have heq := ttyDrain_idle hi hdrain hflag
    exact .inr ⟨hflag, heq, heq, rfl⟩
  · have hactive := honly.activeTty.trans hi
    have hdraws := ttyRefresh_draws hactive (hsteady.tty i).plain (hsteady.tty i).posScroll hnil
      hflag hv
    rw [Ttys.ttyRefresh, hactive] at hdraws
    dsimp only at hdraws
    rw [ttyDrain_empty hnil, Loop.ok_bind] at hdraws
    cases hdraws.symm.trans hr
    exact .inl ⟨hflag, rfl, rfl⟩

theorem Steady.ttyRefresh (h : s.Steady) (hv : v.scroll = 0)
    (hr : s.ttyRefresh v = .ok (s', v')) : s'.Steady ∧ v'.scroll = 0 := by
  cases hi : s.activeTty with
  | none => exact absurd hi h.active
  | some i =>
    obtain ⟨u, _, hu, _, ⟨_, rfl, rfl⟩ | ⟨_, rfl, rfl, rfl⟩⟩ := ttyRefresh_cases h hi hv hr
    · exact ⟨hu.setTty ((hu.tty i).withRefresh 0) rfl, hv⟩
    · exact ⟨h, hv⟩

theorem Steady.ttySelect (h : s.Steady) {n : Int} (hs : s.ttySelect n = .ok s') : s'.Steady := by
  unfold Ttys.ttySelect at hs
  split at hs
  · cases hs
  · rename_i i _
    cases hs
    have hset := h.setTty (i := i) ((h.tty i).withRefresh 1) rfl
    exact ⟨hset.tty, hset.id, by simp⟩

theorem Steady.ttyInput (h : s.Steady) (c : Byte) : (s.ttyInput c).Steady := by
  unfold Ttys.ttyInput
  split
  · exact h
  · rename_i i _
    dsimp only
    rw [if_neg (not_not.mpr (h.tty i).echo)]
    exact h.setTty ((h.tty i).withRings _ _) rfl

/-! ## Output that fits -/

/-- Steady terminals with their cursors on the screen. -/
structure Usable (s : Ttys) : Prop extends Steady s where
  cursor : ∀ i, (s.ttyTable i).CursorOk

theorem Usable.setTty (h : s.Usable) {t : Tty} (ht : t.Steady) (hid : t.id = (s.ttyTable i).id)
    (hcursor : t.CursorOk) : (s.setTty i t).Usable := by
  refine ⟨h.toSteady.setTty ht hid, fun j => ?_⟩
  by_cases hj : j = i
  · rw [hj, setTty_self]
    exact hcursor
  · rw [setTty_ne hj]
    exact h.cursor j

/-- The terminals that `tty_init` leaves are usable. -/
theorem ttyInitial_usable : ttyInitial.Usable := by
  have hplain : ∀ i, (ttyZero.ttyTable i).Steady :=
    fun _ => ⟨fun _ => show (0 : Byte) ∉ _ by decide, rfl, rfl, rfl, rfl⟩
  have hcursor : ∀ i, (ttyZero.ttyTable i).CursorOk := by decide
  have hzero : ({ ttyZero with activeTty := some firstTty } : Ttys).Usable :=
    ⟨⟨hplain, fun _ => rfl, by simp⟩, hcursor⟩
  exact hzero.setTty ((hplain firstTty).withRefresh 1) rfl (hcursor firstTty)

theorem ttyInitial_table (i : Fin ttyMax) : ttyInitial.ttyTable i =
    { ttyZero.ttyTable i with refresh := if i = firstTty then 1 else 0 } := by
  show Function.update ttyZero.ttyTable firstTty _ i = _
  by_cases hi : i = firstTty
  · rw [hi, Function.update_self, if_pos rfl]
    rfl
  · rw [Function.update_of_ne hi, if_neg hi]
    rfl

theorem drainByte_usable (hi : s.activeTty = some i) (h : s.Usable)
    (hfit : (s.ttyTable i).LinesFit (s.ttyTable i).ioOutput.toList) :
    ∃ s', drainByte i s = .ok s' ∧ s'.Usable ∧
      (s'.ttyTable i).LinesFit (s'.ttyTable i).ioOutput.toList := by
  unfold drainByte
  cases hread : (s.ttyTable i).ioOutput.ringbufRead with
  | none => exact ⟨s, rfl, h, hfit⟩
  | some r =>
    obtain ⟨c, b⟩ := r
    rw [Ringbuf.ringbufRead_some hread] at hfit
    obtain ⟨t, hup, _, hcursor⟩ := Tty.ttyUpdate_spec c (h.cursor i) (h.tty i).posScroll
    obtain ⟨_, _, _, hframe⟩ := Tty.ttyUpdate_frame hup
    have hsteady := (h.tty i).ttyUpdate hup
    have hid : t.id = (s.ttyTable i).id := by rw [hframe]
    dsimp only
    rw [ttyUpdate_active (by exact hi), setTty_self, Tty.ttyUpdate_output, hup]
    refine ⟨_, rfl, ?_, ?_⟩
    · rw [setTty_setTty]
      exact h.setTty (hsteady.withRings t.ioInput b) hid (hcursor.mpr hfit.1)
    · rw [setTty_setTty, setTty_self]
      -- the rings have no part in what fits on the lines
      have hrest : t.LinesFit b.toList := hfit.next (h.cursor i) hup
      exact hrest

theorem ttyDrain_usable (hi : s.activeTty = some i) (h : s.Usable)
    (hfit : (s.ttyTable i).LinesFit (s.ttyTable i).ioOutput.toList) :
    ∃ u, s.ttyDrain i = .ok u ∧ u.Usable := by
  obtain ⟨u, hu, _, husable, _⟩ := Loop.whileM_ok
    (fun u => u.activeTty = some i ∧ u.Usable ∧
      (u.ttyTable i).LinesFit (u.ttyTable i).ioOutput.toList)
    (fun u _ ⟨hact, hus, hf⟩ => by
      obtain ⟨w, hw, hus', hf'⟩ := drainByte_usable hact hus hf
      exact ⟨w, hw, (drainByte_only hact hw).activeTty.trans hact, hus', hf'⟩)
    ringbufSize s ⟨hi, h, hfit⟩
  exact ⟨u, hu, husable⟩

/-- A refresh of a terminal whose output fits returns. -/
theorem ttyRefresh_usable (hi : s.activeTty = some i) (h : s.Usable)
    (hfit : (s.ttyTable i).LinesFit (s.ttyTable i).ioOutput.toList) (v : Vga) :
    ∃ s' v', s.ttyRefresh v = .ok (s', v') ∧ s'.Usable := by
  obtain ⟨u, hdrain, hu⟩ := ttyDrain_usable hi h hfit
  rw [ttyRefresh, hi]
  dsimp only
  rw [hdrain, Loop.ok_bind]
  split
  · obtain ⟨d, hdraw⟩ := Loop.range_returns ((0, 0, v) : Int × Int × Vga)
      fun n hn d => drawCell_ok (hu.tty i).posScroll d hn
    rw [hdraw, Loop.ok_bind]
    exact ⟨_, _, rfl, hu.setTty ((hu.tty i).withRefresh 0) rfl (hu.cursor i)⟩
  · exact ⟨u, v, rfl, hu⟩

theorem Usable.ttySelect (h : s.Usable) {n : Int} (hn : 0 ≤ n ∧ n < ttyMax) :
    ∃ s', s.ttySelect n = .ok s' ∧ s'.Usable := by
  obtain ⟨k, rfl⟩ := Int.eq_ofNat_of_zero_le hn.1
  let i : Fin ttyMax := ⟨k, Int.ofNat_lt.mp hn.2⟩
  have hi : index ttyMax (k : Int) = some i := index_val i
  have hsel : s.ttySelect k = .ok
      { ttyTable := Function.update s.ttyTable i { s.ttyTable i with refresh := 1 }
        activeTty := some i } := by
    rw [Ttys.ttySelect, hi]
  have hset := h.setTty ((h.tty i).withRefresh 1) rfl (h.cursor i)
  exact ⟨_, hsel, h.toSteady.ttySelect hsel, hset.cursor⟩

theorem Usable.ttyInput (h : s.Usable) (c : Byte) : (s.ttyInput c).Usable := by
  refine ⟨h.toSteady.ttyInput c, ?_⟩
  unfold Ttys.ttyInput
  split
  · exact h.cursor
  · rename_i i _
    dsimp only
    rw [if_neg (not_not.mpr (h.tty i).echo)]
    have hring := (h.tty i).withRings
      (((s.ttyTable i).ioInput.ringbufWrite c).getD (s.ttyTable i).ioInput) (s.ttyTable i).ioOutput
    exact (h.setTty hring rfl (h.cursor i)).cursor

end Ttys
end UnivOS
