import Mathlib.Data.Finset.Basic
import UnivOS.Lib.Trace
import UnivOS.Keyboard

/-! # Status bits and the keys held

Keys send a make code when pressed, again while they are held, and a break code when
released; right CTRL and right ALT send 0xE0 first. The typist's side of this is a
machine of its own that runs next to the decoder. `Tracks` relates the two, and one
step keeps it exactly where `Typing.Clean` holds.
-/
namespace UnivOS

/-- A physical key: whether it sends 0xE0 first, and the low bits of its codes. -/
structure Key where
  extended : Bool
  code : Byte
deriving DecidableEq, Repr

theorem Modifier.forall_iff {p : Modifier → Prop} : (∀ m, p m) ↔ p .ctrl ∧ p .alt ∧ p .shift := by
  constructor
  · intro h
    exact ⟨h .ctrl, h .alt, h .shift⟩
  · intro h m
    cases m with
    | ctrl => exact h.1
    | alt => exact h.2.1
    | shift => exact h.2.2

theorem Lock.forall_iff {p : Lock → Prop} : (∀ l, p l) ↔ p .caps ∧ p .numlock := by
  constructor
  · intro h
    exact ⟨h .caps, h .numlock⟩
  · intro h l
    cases l with
    | caps => exact h.1
    | numlock => exact h.2

instance {p : Modifier → Prop} [DecidablePred p] : Decidable (∀ m, p m) :=
  decidable_of_iff _ Modifier.forall_iff.symm

instance {p : Lock → Prop} [DecidablePred p] : Decidable (∀ l, p l) :=
  decidable_of_iff _ Lock.forall_iff.symm

def Modifier.left : Modifier → Key
  | .ctrl => ⟨false, 0x1D⟩
  | .alt => ⟨false, 0x38⟩
  | .shift => ⟨false, 0x2A⟩

def Modifier.right : Modifier → Key
  | .ctrl => ⟨true, 0x1D⟩
  | .alt => ⟨true, 0x38⟩
  | .shift => ⟨false, 0x36⟩

def Lock.key : Lock → Key
  | .caps => ⟨false, 0x3A⟩
  | .numlock => ⟨false, 0x45⟩

/-- The low bits of the byte are those of one of the two keys. -/
def Modifier.HasCode (m : Modifier) (b : Byte) : Prop :=
  b &&& 0x7F#8 = m.left.code ∨ b &&& 0x7F#8 = m.right.code

instance (m : Modifier) (b : Byte) : Decidable (m.HasCode b) :=
  inferInstanceAs (Decidable (_ ∨ _))

def Lock.HasCode (l : Lock) (b : Byte) : Prop := b &&& 0x7F#8 = l.key.code

instance (l : Lock) (b : Byte) : Decidable (l.HasCode b) := inferInstanceAs (Decidable (_ = _))

/-- What has been typed: whether the last byte was 0xE0, the keys held, and how many
make codes each lock key has sent. -/
structure Typing where
  extended : Bool
  held : Finset Key
  makes : Lock → Nat

namespace Typing

/-- No key held. -/
def start : Typing := ⟨false, ∅, fun _ => 0⟩

/-- The key that sends the byte. -/
def key (t : Typing) (b : Byte) : Key := ⟨t.extended, b &&& 0x7F#8⟩

/-- The byte is a make code. -/
def Pressed (b : Byte) : Prop := b &&& 0x80#8 = 0#8

instance (b : Byte) : Decidable (Pressed b) := inferInstanceAs (Decidable (_ = _))

def next (t : Typing) (b : Byte) : Typing :=
  if b = 0xE0#8 then { t with extended := true }
  else if Pressed b then
    { extended := false
      held := insert (t.key b) t.held
      makes := fun l => if t.key b = l.key then t.makes l + 1 else t.makes l }
  else { t with extended := false, held := t.held.erase (t.key b) }

/-- Each break code comes after the make code of its key. -/
def Allowed (t : Typing) (b : Byte) : Prop := b = 0xE0#8 ∨ Pressed b ∨ t.key b ∈ t.held

instance (t : Typing) (b : Byte) : Decidable (t.Allowed b) :=
  inferInstanceAs (Decidable (_ ∨ _))

/-- One of the two keys is held. -/
def Holds (t : Typing) (m : Modifier) : Prop := m.left ∈ t.held ∨ m.right ∈ t.held

instance (t : Typing) (m : Modifier) : Decidable (t.Holds m) :=
  inferInstanceAs (Decidable (_ ∨ _))

/-- The byte does not mislead the decoder, which takes no account of 0xE0 and keeps one
bit for two keys. -/
structure Clean (t : Typing) (b : Byte) : Prop where
  /-- A break code of a modifier leaves neither of its keys held, a make code leaves one
  held. -/
  hold : ∀ m : Modifier, m.HasCode b → (Pressed b ↔ (t.next b).Holds m)
  /-- No other key sends the make code of a lock key. -/
  flip : ∀ l : Lock, l.HasCode b → Pressed b → t.key b = l.key

instance (t : Typing) (b : Byte) : Decidable (t.Clean b) :=
  decidable_of_iff (_ ∧ _) ⟨fun h => ⟨h.1, h.2⟩, fun h => ⟨h.hold, h.flip⟩⟩

end Typing

/-- The status bits of the decoder say which keys are held. -/
structure Tracks (t : Typing) (k : Keyboard) : Prop where
  hold : ∀ m, k.Status (.hold m) ↔ t.Holds m
  flip : ∀ l, k.Status (.flip l) ↔ t.makes l % 2 = 1

/-! ## Codes and keys -/

variable {t : Typing} {k k' : Keyboard} {b : Byte} {d : Decoded} {m : Modifier} {l : Lock}

theorem keyPressed_setWidth (b : Byte) : KeyPressed (b.setWidth 32) ↔ Typing.Pressed b := by
  revert b
  decide

theorem statusKey_hold (b : Byte) (m : Modifier) :
    statusKey (b.setWidth 32 &&& ~~~0x80) = some (.hold m) ↔ m.HasCode b := by
  revert b
  cases m <;> decide

theorem statusKey_flip (b : Byte) (l : Lock) :
    statusKey (b.setWidth 32 &&& ~~~0x80) = some (.flip l) ↔ l.HasCode b := by
  revert b
  cases l <;> decide

/-- 0xE0 is none of the codes the decoder looks at. -/
theorem not_hasCode_prefix (l : Lock) : ¬ l.HasCode 0xE0#8 := by
  cases l <;> decide

namespace Typing

theorem mem_next {key : Key} (hb : b ≠ 0xE0#8) :
    key ∈ (t.next b).held ↔
      if Pressed b then key = t.key b ∨ key ∈ t.held else key ≠ t.key b ∧ key ∈ t.held := by
  unfold next
  rw [if_neg hb]
  split
  · simp
  · simp

/-- A byte with another code changes nothing about the keys of a modifier. -/
theorem holds_next (h : ¬ m.HasCode b) :
    (t.next b).Holds m ↔ t.Holds m := by
  by_cases hb : b = 0xE0#8
  · simp [next, hb, Holds]
  · have hleft : m.left ≠ t.key b := by
      intro he
      exact h (.inl (congrArg Key.code he).symm)
    have hright : m.right ≠ t.key b := by
      intro he
      exact h (.inr (congrArg Key.code he).symm)
    rw [Holds, Holds, mem_next hb, mem_next hb]
    split
    · simp [hleft, hright]
    · simp [hleft, hright]

theorem makes_next (t : Typing) (b : Byte) (l : Lock) :
    (t.next b).makes l =
      if b ≠ 0xE0#8 ∧ Pressed b ∧ t.key b = l.key then t.makes l + 1 else t.makes l := by
  unfold next
  split
  · rename_i hb
    simp [hb]
  · rename_i hb
    split
    · rename_i hp
      simp [hb, hp]
    · rename_i hp
      simp [hp]

end Typing

/-! ## One byte -/

theorem hold_iff_clean (h : Tracks t k) (hd : keyboardDecode (b.setWidth 32) k = .ok (d, k'))
    (m : Modifier) :
    (k'.Status (.hold m) ↔ (t.next b).Holds m) ↔
      (m.HasCode b → (Typing.Pressed b ↔ (t.next b).Holds m)) := by
  by_cases hcode : m.HasCode b
  · rw [Keyboard.decode_hold ((statusKey_hold b m).mpr hcode) hd, if_pos rfl, keyPressed_setWidth]
    simp [hcode]
  · have hs : statusKey (b.setWidth 32 &&& ~~~0x80) ≠ some (.hold m) := by
      rwa [ne_eq, statusKey_hold]
    rw [Keyboard.decode_frame hs hd, Typing.holds_next hcode]
    simp [hcode, h.hold m]

theorem flip_iff_clean (h : Tracks t k) (hd : keyboardDecode (b.setWidth 32) k = .ok (d, k'))
    (l : Lock) :
    (k'.Status (.flip l) ↔ (t.next b).makes l % 2 = 1) ↔
      (l.HasCode b → Typing.Pressed b → t.key b = l.key) := by
  by_cases hcode : l.HasCode b
  · have hb : b ≠ 0xE0#8 := by
      rintro rfl
      exact not_hasCode_prefix l hcode
    have hstatus := Keyboard.decode_flip ((statusKey_flip b l).mpr hcode) hd (.flip l)
    simp only [true_and, keyPressed_setWidth] at hstatus
    have hflip := h.flip l
    rw [Typing.makes_next, hstatus]
    by_cases hp : Typing.Pressed b
    · by_cases hkey : t.key b = l.key
      · have hparity : (t.makes l + 1) % 2 = 1 ↔ ¬ t.makes l % 2 = 1 := by omega
        simp [hb, hp, hkey, hflip, hparity]
      · simp only [hcode, hp, hkey, hflip, and_false, if_true, if_false, forall_const, iff_false]
        exact not_iff_self
    · simp [hp, hflip]
  · have hs : statusKey (b.setWidth 32 &&& ~~~0x80) ≠ some (.flip l) := by
      rwa [ne_eq, statusKey_flip]
    have hkey : t.key b ≠ l.key := by
      intro he
      exact hcode (congrArg Key.code he)
    rw [Keyboard.decode_frame hs hd, Typing.makes_next]
    simp [hcode, hkey, h.flip l]

/-- A byte leaves the status bits right exactly if it is clean. -/
theorem tracks_iff_clean (h : Tracks t k) (hd : keyboardDecode (b.setWidth 32) k = .ok (d, k')) :
    Tracks (t.next b) k' ↔ t.Clean b := by
  constructor
  · intro ht
    exact ⟨fun m => (hold_iff_clean h hd m).mp (ht.hold m),
      fun l => (flip_iff_clean h hd l).mp (ht.flip l)⟩
  · intro hc
    exact ⟨fun m => (hold_iff_clean h hd m).mpr (hc.hold m),
      fun l => (flip_iff_clean h hd l).mpr (hc.flip l)⟩

/-! ## Runs -/

/-- One code of a typist: what has been typed, and the decoder's call. -/
def Typing.exec (b : Byte) (s : Typing × Keyboard) : Res (Decoded × Typing × Keyboard) := do
  let (d, k) ← keyboardDecode (b.setWidth 32) s.2
  .ok (d, s.1.next b, k)

abbrev TypingStep := Trace.Step (Typing × Keyboard) (Byte × Decoded)

/-- Runs from `keyboard_init`, with no key held. -/
abbrev TypingRun : List TypingStep → Typing × Keyboard → Prop :=
  Trace.Run (fun s => ∃ k, s = (Typing.start, keyboardInit k))
    (Trace.Exec Typing.exec fun _ s b => s.1.Allowed b)

/-- No code stops the decoder. -/
theorem Typing.exec_returns (b : Byte) (s : Typing × Keyboard) : ∃ r, Typing.exec b s = .ok r := by
  obtain ⟨r, hr⟩ := Keyboard.decode_returns b s.2
  refine ⟨(r.1, s.1.next b, r.2), ?_⟩
  rw [Typing.exec, hr]
  rfl

theorem tracks_start (k : Keyboard) : Tracks Typing.start (keyboardInit k) := by
  constructor
  · intro m
    simp [Keyboard.Status, keyboardInit, Typing.Holds, Typing.start]
  · intro l
    simp [Keyboard.Status, keyboardInit, Typing.start]

theorem step_tracks_iff {b : Byte} {d : Decoded} {s s' : Typing × Keyboard}
    (h : Tracks s.1 s.2) (hs : Typing.exec b s = .ok (d, s')) :
    Tracks s'.1 s'.2 ↔ s.1.Clean b := by
  obtain ⟨⟨d', k⟩, hd, he⟩ := Loop.bind_eq_ok.mp hs
  cases he
  exact tracks_iff_clean h hd

/-- A run whose steps all left the bits right ends with them right. -/
theorem tracks_of_run {tr : List TypingStep} {s : Typing × Keyboard} (h : TypingRun tr s) :
    (∀ x ∈ tr, Tracks x.post.1 x.post.2) → Tracks s.1 s.2 := by
  induction h with
  | nil hs =>
    intro _
    obtain ⟨k, rfl⟩ := hs
    exact tracks_start k
  | snoc _ _ _ =>
    intro hall
    exact hall _ (List.mem_append_right _ List.mem_cons_self)

/-- **The status bits say which keys are held after every code exactly if every code is
clean**: a break code with the number of CTRL, ALT or SHIFT leaves neither of the two
keys held and a make code leaves one of them held, and a make code with the number of
CAPS or NUMLOCK does not come behind 0xE0. -/
theorem status_tracks_held_iff {tr : List TypingStep} {s : Typing × Keyboard}
    (h : TypingRun tr s) :
    (∀ x ∈ tr, Tracks x.post.1 x.post.2) ↔ ∀ x ∈ tr, x.pre.1.Clean x.act.1 := by
  induction h with
  | nil _ => simp
  | @snoc tr s s' a hr hn ih =>
    have hstep : (∀ x ∈ tr, Tracks x.post.1 x.post.2) →
        (Tracks s'.1 s'.2 ↔ s.1.Clean a.1) := by
      intro hall
      exact step_tracks_iff (tracks_of_run hr hall) hn.2
    simp only [List.forall_mem_append, List.forall_mem_singleton, ← ih]
    exact and_congr_right hstep

theorem typingRun_of_walk {codes : List Byte} {P : List TypingStep × Typing × Keyboard → Bool}
    (h : (Trace.walk Typing.exec (fun _ s b => decide (s.1.Allowed b)) codes []
      (Typing.start, keyboardInit ⟨0, 0⟩)).any P = true) :
    ∃ r, TypingRun r.1 r.2 ∧ P r = true :=
  Trace.Run.of_walk ⟨⟨0, 0⟩, rfl⟩ h

/-- A capital letter, then right CTRL, then CAPS. -/
theorem status_tracks_typing :
    ∃ tr s, TypingRun tr s ∧
      tr.map (fun x => x.act.1) = [0x2A, 0x1E, 0x9E, 0xAA, 0xE0, 0x1D, 0xE0, 0x9D, 0x3A] ∧
      ∀ x ∈ tr, Tracks x.post.1 x.post.2 := by
  let codes : List Byte := [0x2A, 0x1E, 0x9E, 0xAA, 0xE0, 0x1D, 0xE0, 0x9D, 0x3A]
  have htest : (Trace.walk Typing.exec (fun _ s b => decide (s.1.Allowed b)) codes []
      (Typing.start, keyboardInit ⟨0, 0⟩)).any (fun r =>
        decide (r.1.map (fun x => x.act.1) = codes ∧ ∀ x ∈ r.1, x.pre.1.Clean x.act.1)) = true := by
    decide
  obtain ⟨⟨tr, s⟩, hrun, hP⟩ := typingRun_of_walk htest
  obtain ⟨hcodes, hclean⟩ := of_decide_eq_true hP
  exact ⟨tr, s, hrun, hcodes, (status_tracks_held_iff hrun).mpr hclean⟩

/-- Left SHIFT pressed, right SHIFT pressed, left SHIFT released: right SHIFT is held,
and the bit is off. -/
theorem shift_released_early :
    ∃ tr s, TypingRun tr s ∧ tr.map (fun x => x.act.1) = [0x2A, 0x36, 0xAA] ∧
      ¬ ∀ x ∈ tr, Tracks x.post.1 x.post.2 := by
  have htest : (Trace.walk Typing.exec (fun _ s b => decide (s.1.Allowed b)) [0x2A, 0x36, 0xAA] []
      (Typing.start, keyboardInit ⟨0, 0⟩)).any (fun r =>
        decide (r.1.map (fun x => x.act.1) = [0x2A, 0x36, 0xAA] ∧
          ∃ x ∈ r.1, x.post.1.Holds .shift ∧ ¬ x.post.2.Status (.hold .shift))) = true := by
    decide
  obtain ⟨⟨tr, s⟩, hrun, hP⟩ := typingRun_of_walk htest
  obtain ⟨hcodes, x, hx, hheld, hoff⟩ := of_decide_eq_true hP
  exact ⟨tr, s, hrun, hcodes, fun hall => hoff (((hall x hx).hold .shift).mpr hheld)⟩

end UnivOS
