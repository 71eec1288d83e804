import UnivOS.Lib.Streak
import UnivOS.Lib.Trace
import UnivOS.Keyboard

/-! # Three escapes

`kernel_exit` is called at a press of ESC, told from the number of presses of ESC behind
each other that the decoder has counted. The history of a run is the list of its key
presses that map to a character; the decoder counts in it, but passes over digits that
are pressed with ALT.
-/
namespace UnivOS

/-- A key press that maps to a character, and whether ALT was on. -/
structure Press where
  char : BitVec 32
  alt : Bool
deriving DecidableEq, Repr

namespace Press

def Escape (p : Press) : Prop := p.char = keyEscape

instance (p : Press) : Decidable p.Escape := inferInstanceAs (Decidable (_ = _))

/-- A digit with ALT, which selects a terminal. -/
def Selects (p : Press) : Prop := p.alt = true ∧ 0x30 ≤ p.char ∧ p.char ≤ 0x39

instance (p : Press) : Decidable p.Selects := inferInstanceAs (Decidable (_ ∧ _))

/-- What the press makes of a count of escapes. -/
def count (n : Nat) (p : Press) : Nat :=
  if p.Selects then n else if p.Escape then n + 1 else 0

end Press

/-- How many presses of ESC the list ends with. -/
def escapes (l : List Press) : Nat := Streak.streak Press.Escape l

/-- The presses that select no terminal. -/
def others (l : List Press) : List Press := l.filter fun p => ¬ p.Selects

theorem escapes_others_snoc (l : List Press) (p : Press) :
    escapes (others (l ++ [p])) = p.count (escapes (others l)) := by
  have hsnoc := Streak.streak_filter_snoc (p := Press.Escape) (q := fun p => ¬ p.Selects) l p
  rwa [ite_not] at hsnoc

theorem escape_not_selects (p : Press) (h : p.Escape) : ¬ p.Selects := by
  intro hsel
  have hdigit := hsel.2.1
  rw [show p.char = keyEscape from h] at hdigit
  exact absurd hdigit (by decide)

/-- Leaving presses out cannot part the escapes at the end. -/
theorem escapes_le_others (l : List Press) : escapes l ≤ escapes (others l) :=
  Streak.streak_le_filter escape_not_selects l

/-! ## One code -/

namespace Keyboard

/-- The press a scan code is, if it maps to a character other than `KEY_NULL`. -/
def press (k : Keyboard) (c : BitVec 32) : Option Press :=
  if KeyPressed c then
    match k.mapped c with
    | .ok char => if char ≠ keyNull then some ⟨char, k.Status (.hold .alt)⟩ else none
    | .error _ => none
  else none

variable {k k' : Keyboard} {c char : BitVec 32} {d : Decoded} {s : StatusKey}

/-- The code of a press is the number of its key. -/
theorem code_of_pressed (hp : KeyPressed c) : c &&& ~~~0x80 = c := by
  apply BitVec.eq_of_getLsbD_eq
  intro i hi
  have hbit : (c &&& 0x80).getLsbD i = false := by
    rw [show c &&& 0x80 = 0#32 from hp, BitVec.getLsbD_zero]
  rw [BitVec.getLsbD_and] at hbit
  rw [BitVec.getLsbD_and, BitVec.getLsbD_not]
  cases hc : c.getLsbD i with
  | false => simp
  | true =>
    rw [hc, Bool.true_and] at hbit
    rw [hbit]
    simp [hi]

/-- Status keys map to no character. -/
theorem mapped_of_statusKey (hs : statusKey c = some s) (hm : k.mapped c = .ok char) :
    char = keyNull := by
  have hlt : c.toNat < 128 := by
    obtain he | he := k.mapped_eq c
    · exact mapChar_lt (he.symm.trans hm)
    · exact mapChar_lt (he.symm.trans hm)
  have hctrl : c ≠ 0xE01D#32 := by
    rintro rfl
    exact absurd hlt (by decide)
  have halt : c ≠ 0xE038#32 := by
    rintro rfl
    exact absurd hlt (by decide)
  have hcode : c ∈ [0x1D#32, 0x38#32, 0x2A#32, 0x36#32, 0x3A#32, 0x45#32] := by
    by_contra hne
    simp only [List.mem_cons, List.not_mem_nil, or_false, not_or] at hne
    simp [statusKey, hctrl, halt, hne] at hs
  have hnull : ∀ c ∈ [0x1D#32, 0x38#32, 0x2A#32, 0x36#32, 0x3A#32, 0x45#32],
      mapChar keyboardMapPrimary c = .ok keyNull ∧ mapChar keyboardMapSecondary c = .ok keyNull := by
    intro c hc
    simp only [List.mem_cons, List.not_mem_nil, or_false] at hc
    rcases hc with rfl | rfl | rfl | rfl | rfl | rfl <;> exact ⟨rfl, rfl⟩
  obtain he | he := k.mapped_eq c
  · rw [he, (hnull c hcode).1] at hm
    exact (Except.ok.inj hm).symm
  · rw [he, (hnull c hcode).2] at hm
    exact (Except.ok.inj hm).symm

theorem press_of_statusKey (hs : statusKey (c &&& ~~~0x80) = some s) : k.press c = none := by
  unfold press
  split
  · rename_i hp
    rw [code_of_pressed hp] at hs
    cases hm : k.mapped c with
    | error e => rfl
    | ok char => simp [mapped_of_statusKey hs hm]
  · rfl

theorem press_of_mapped (hp : KeyPressed c) (hm : k.mapped c = .ok char) :
    k.press c = if char ≠ keyNull then some ⟨char, k.Status (.hold .alt)⟩ else none := by
  rw [press, if_pos hp, hm]

/-- Only a press of ESC that makes three is a call of `kernel_exit`. -/
theorem enter_spec (k : Keyboard) (char : BitVec 32) :
    let p : Press := ⟨char, k.Status (.hold .alt)⟩
    (k.enter char).2.escStatus =
        (if p.Selects then k.escStatus else if p.Escape then k.escStatus + 1
        else if char = keyNull then k.escStatus else 0) ∧
      ((k.enter char).1.call = some .kernelExit ↔ p.Escape ∧ k.escStatus + 1 = 3) := by
  intro p
  have hsel : p.Selects ↔ k.Status (.hold .alt) ∧ 0x30 ≤ char ∧ char ≤ 0x39 := by
    simp [p, Press.Selects]
  by_cases hdigit : p.Selects
  · have hesc : ¬ p.Escape := by
      intro he
      exact escape_not_selects p he hdigit
    rw [enter, if_pos (hsel.mp hdigit), if_pos hdigit]
    simp [hesc]
  · rw [enter, if_neg (hsel.not.mp hdigit), if_neg hdigit]
    by_cases hesc : char = keyEscape
    · have hp : p.Escape := hesc
      simp [hesc, hp]
    · have hp : ¬ p.Escape := hesc
      rw [if_neg hesc, if_neg hp]
      by_cases hnull : char = keyNull
      · simp [hnull, hp, control_call]
      · simp [hnull, hp, control_call]

theorem press_cases (k : Keyboard) (hp : KeyPressed c) (hm : k.mapped c = .ok char) :
    (char = keyNull ∧ k.press c = none) ∨
      (char ≠ keyNull ∧ k.press c = some ⟨char, k.Status (.hold .alt)⟩) := by
  by_cases hnull : char = keyNull
  · exact .inl ⟨hnull, by rw [press_of_mapped hp hm, if_neg (not_not.mpr hnull)]⟩
  · exact .inr ⟨hnull, by rw [press_of_mapped hp hm, if_pos hnull]⟩

/-- The count after a call, and the call that counts to three. -/
theorem decode_press (h : keyboardDecode c k = .ok (d, k')) (hn : k.escStatus.toNat ≤ 2) :
    k'.escStatus.toNat =
        ((k.press c).map (Press.count k.escStatus.toNat)).getD k.escStatus.toNat ∧
      (d.call = some .kernelExit ↔
        (∃ p, k.press c = some p ∧ p.Escape) ∧ k.escStatus.toNat = 2) := by
  cases hs : statusKey (c &&& ~~~0x80) with
  | some s =>
    obtain ⟨hcall, hesc⟩ := decode_some hs h
    simp [press_of_statusKey hs, hcall, hesc]
  | none =>
    obtain ⟨hp, rfl, rfl⟩ | ⟨hp, char, hm, he⟩ := decode_none hs h
    · simp [press, hp]
    · obtain ⟨hcount, hcall⟩ := k.enter_spec char
      rw [← he] at hcount hcall
      have hsucc : (k.escStatus + 1).toNat = k.escStatus.toNat + 1 := by
        rw [BitVec.toNat_add, show (1 : BitVec 32).toNat = 1 from rfl]
        omega
      have hthree : k.escStatus + 1 = 3 ↔ k.escStatus.toNat = 2 := by
        rw [← BitVec.toNat_inj, hsucc, show (3 : BitVec 32).toNat = 3 from rfl]
        omega
      obtain ⟨rfl, hpress⟩ | ⟨hnull, hpress⟩ := k.press_cases hp hm
      · have hesc : ¬ (⟨keyNull, k.Status (.hold .alt)⟩ : Press).Escape := by
          simp [Press.Escape, keyNull, keyEscape]
        have hsame : k'.escStatus = k.escStatus := by simpa [hesc] using hcount
        simp [hsame, hcall, hpress, hesc]
      · refine ⟨?_, ?_⟩
        · rw [hcount, hpress, Option.map_some, Option.getD_some, Press.count, if_neg hnull]
          split
          · rfl
          · split
            · exact hsucc
            · rfl
        · rw [hcall, hthree, hpress]
          simp

end Keyboard

/-! ## Runs -/

abbrev KeyStep := Trace.Step Keyboard (BitVec 32 × Decoded)

/-- Runs from the words as they are declared. Nothing follows a call of `kernel_exit`. -/
abbrev KeyRun : List KeyStep → Keyboard → Prop :=
  Trace.Run (· = ⟨0, 0⟩)
    (Trace.Exec keyboardDecode fun tr _ _ => ∀ y ∈ tr, y.act.2.call ≠ some .kernelExit)

/-- The presses that map to a character, oldest first. -/
def presses (tr : List KeyStep) : List Press := tr.filterMap fun x => x.pre.press x.act.1

/-- The step calls `kernel_exit`. -/
def KeyStep.Exits (x : KeyStep) : Prop := x.act.2.call = some .kernelExit

/-- The step is a press of ESC. -/
def KeyStep.Escape (x : KeyStep) : Prop := ∃ p, x.pre.press x.act.1 = some p ∧ p.Escape

variable {tr : List KeyStep} {x : KeyStep} {k : Keyboard}

theorem presses_snoc (tr : List KeyStep) (x : KeyStep) :
    presses (tr ++ [x]) = presses tr ++ (x.pre.press x.act.1).toList := by
  rw [presses, List.filterMap_append, presses]
  cases hp : x.pre.press x.act.1 with
  | none => simp [hp]
  | some p => simp [hp]

/-- The decoder has counted the escapes at the end, without the digits with ALT. -/
theorem counted_of_run (h : KeyRun tr k) (hno : ∀ y ∈ tr, y.act.2.call ≠ some .kernelExit) :
    k.escStatus.toNat = escapes (others (presses tr)) ∧ k.escStatus.toNat ≤ 2 := by
  induction h with
  | nil hs =>
    subst hs
    simp [presses, others, escapes]
  | @snoc tr k k' a hr hn ih =>
    obtain ⟨hcount, hle⟩ := ih hn.1
    obtain ⟨hpost, hcall⟩ := Keyboard.decode_press hn.2 hle
    have hlast := hno _ (List.mem_append_right _ List.mem_cons_self)
    rw [ne_eq, hcall] at hlast
    rw [presses_snoc]
    cases hp : k.press a.1 with
    | none =>
      rw [hp, Option.map_none, Option.getD_none] at hpost
      rw [hpost, Option.toList_none, List.append_nil]
      exact ⟨hcount, hle⟩
    | some p =>
      rw [hp, Option.map_some, Option.getD_some] at hpost
      rw [hpost, Option.toList_some, escapes_others_snoc, ← hcount]
      refine ⟨rfl, ?_⟩
      by_cases hesc : p.Escape
      · have htwo : k.escStatus.toNat ≠ 2 := by
          intro he
          exact hlast ⟨⟨p, hp, hesc⟩, he⟩
        rw [Press.count, if_pos hesc]
        split
        · exact hle
        · omega
      · rw [Press.count, if_neg hesc]
        split
        · exact hle
        · omega

/-- **`kernel_exit` is called at the third press of ESC in a row, except where a digit
pressed with ALT is among the last two presses** and the two before it, without such
digits, are of ESC: then it is called although the three are not in a row. -/
theorem kernel_exit_iff (h : KeyRun (tr ++ [x]) k) :
    (x.Exits ↔ x.Escape ∧ 2 ≤ escapes (presses tr)) ↔
      ¬ (x.Escape ∧ 2 ≤ escapes (others (presses tr)) ∧ escapes (presses tr) < 2) := by
  obtain ⟨hr, hn, -⟩ := h.snoc_inv
  obtain ⟨hcount, hle⟩ := counted_of_run hr hn.1
  have hothers := escapes_le_others (presses tr)
  have hexits : x.Exits ↔ x.Escape ∧ 2 ≤ escapes (others (presses tr)) := by
    rw [KeyStep.Exits, (Keyboard.decode_press hn.2 hle).2, ← hcount, KeyStep.Escape]
    exact and_congr_right fun _ => by omega
  rw [hexits, and_congr_right_iff]
  constructor
  · intro heq hbad
    have := (heq hbad.1).mp hbad.2.1
    omega
  · intro hgood hesc
    constructor
    · intro htwo
      by_contra hlt
      exact hgood ⟨hesc, htwo, by omega⟩
    · intro htwo
      omega

instance (x : KeyStep) : Decidable x.Exits := inferInstanceAs (Decidable (_ = _))

instance (x : KeyStep) : Decidable x.Escape :=
  decidable_of_iff ((x.pre.press x.act.1).any fun p => p.Escape)
    (by simp [KeyStep.Escape, Option.any_eq_true])

/-- The run of the codes from the words as they are declared, its last step apart. -/
theorem keyRun_of_walk (codes : List (BitVec 32)) {P : List KeyStep → KeyStep → Bool}
    (h : (Trace.walk keyboardDecode (fun tr _ _ =>
        decide (∀ y ∈ tr, y.act.2.call ≠ some .kernelExit)) codes [] ⟨0, 0⟩).any
      (fun r => r.1.getLast?.any (P r.1.dropLast)) = true) :
    ∃ tr x k, KeyRun (tr ++ [x]) k ∧ P tr x = true := by
  have hfound : ∃ r : List KeyStep × Keyboard, KeyRun r.1 r.2 ∧ _ := Trace.Run.of_walk rfl h
  obtain ⟨r, hrun, hlast⟩ := hfound
  rw [Option.any_eq_true] at hlast
  obtain ⟨x, hx, hP⟩ := hlast
  rw [← List.dropLast_append_getLast? x hx] at hrun
  exact ⟨r.1.dropLast, x, r.2, hrun, hP⟩

/-- ESC pressed three times, with SHIFT in between. -/
theorem kernel_exit_three : ∃ tr x k, KeyRun (tr ++ [x]) k ∧
    (tr ++ [x]).map (fun y => y.act.1) = [0x01, 0x81, 0x2A, 0x01, 0xAA, 0x81, 0x01] ∧ x.Exits := by
  obtain ⟨tr, x, k, hrun, htest⟩ := keyRun_of_walk [0x01, 0x81, 0x2A, 0x01, 0xAA, 0x81, 0x01]
    (P := fun tr x => decide
      ((tr ++ [x]).map (fun y => y.act.1) = [0x01, 0x81, 0x2A, 0x01, 0xAA, 0x81, 0x01] ∧
        x.Escape ∧ 2 ≤ escapes (presses tr))) (by decide)
  obtain ⟨hcodes, hesc, htwo⟩ := of_decide_eq_true htest
  have hiff := (kernel_exit_iff hrun).mpr (by omega)
  exact ⟨tr, x, k, hrun, hcodes, hiff.mpr ⟨hesc, htwo⟩⟩

/-- ESC pressed twice, then 1 with ALT, then ESC: the kernel exits, although the three
are not in a row. -/
theorem kernel_exit_between : ∃ tr x k, KeyRun (tr ++ [x]) k ∧
    (tr ++ [x]).map (fun y => y.act.1) = [0x01, 0x81, 0x01, 0x81, 0x38, 0x02, 0x82, 0xB8, 0x01] ∧
      x.Exits ∧ ¬ (x.Escape ∧ 2 ≤ escapes (presses tr)) := by
  obtain ⟨tr, x, k, hrun, htest⟩ := keyRun_of_walk
    [0x01, 0x81, 0x01, 0x81, 0x38, 0x02, 0x82, 0xB8, 0x01] (P := fun tr x => decide
      ((tr ++ [x]).map (fun y => y.act.1) =
          [0x01, 0x81, 0x01, 0x81, 0x38, 0x02, 0x82, 0xB8, 0x01] ∧
        x.Exits ∧ ¬ (x.Escape ∧ 2 ≤ escapes (presses tr)))) (by decide)
  exact ⟨tr, x, k, hrun, of_decide_eq_true htest⟩

end UnivOS
