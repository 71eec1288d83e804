import UnivOS.Lib.Bits
import UnivOS.Lib.Loop
import UnivOS.Base
import UnivOS.RingBuf

/-! # The keyboard decoder

`keyboard_decode` of `keyboard.c` with the two words it keeps between calls. A scan
code has the number of its key in the low seven bits; the bit above is set in the
code of a release. What the decoder asks of the rest of the kernel is recorded with
the character it returns.
-/
namespace UnivOS

/-- `kbd_status` and `esc_status`. -/
structure Keyboard where
  kbdStatus : BitVec 32
  escStatus : BitVec 32
deriving DecidableEq, Repr

def keyNull : BitVec 32 := 0x00
def keyEscape : BitVec 32 := 0x1B

/-- The keys that set a bit of `kbd_status` while they are held. -/
inductive Modifier
  | ctrl
  | alt
  | shift
deriving DecidableEq, Repr

/-- The keys that flip a bit of `kbd_status`. -/
inductive Lock
  | caps
  | numlock
deriving DecidableEq, Repr

inductive StatusKey
  | hold (m : Modifier)
  | flip (l : Lock)
deriving DecidableEq, Repr

/-- `KEY_STATUS_CTRL` and its siblings, the bits of `kbd_status`. -/
def StatusKey.mask : StatusKey → BitVec 32
  | .hold .ctrl => 0x01
  | .hold .alt => 0x02
  | .hold .shift => 0x04
  | .flip .caps => 0x08
  | .flip .numlock => 0x10

/-- The cases of the decoder's `switch`; `none` is its default. -/
def statusKey (code : BitVec 32) : Option StatusKey :=
  if code = 0x1D ∨ code = 0xE01D then some (.hold .ctrl)
  else if code = 0x38 ∨ code = 0xE038 then some (.hold .alt)
  else if code = 0x2A ∨ code = 0x36 then some (.hold .shift)
  else if code = 0x3A then some (.flip .caps)
  else if code = 0x45 then some (.flip .numlock)
  else none

def keyboardMapPrimary : List Byte :=
  [0x00, 0x1B, 0x31, 0x32, 0x33, 0x34, 0x35, 0x36, -- null escape 1 2 3 4 5 6
   0x37, 0x38, 0x39, 0x30, 0x2D, 0x3D, 0x08, 0x09, -- 7 8 9 0 - = backspace tab
   0x71, 0x77, 0x65, 0x72, 0x74, 0x79, 0x75, 0x69, -- q w e r t y u i
   0x6F, 0x70, 0x5B, 0x5D, 0x0A, 0x00, 0x61, 0x73, -- o p [ ] enter null a s
   0x64, 0x66, 0x67, 0x68, 0x6A, 0x6B, 0x6C, 0x3B, -- d f g h j k l ;
   0x27, 0x60, 0x00, 0x5C, 0x7A, 0x78, 0x63, 0x76, -- apostrophe backquote null backslash z x c v
   0x62, 0x6E, 0x6D, 0x2C, 0x2E, 0x2F, 0x00, 0x00, -- b n m , . / null null
   0x00, 0x20, 0x00, 0xF1, 0xF2, 0xF3, 0xF4, 0xF5, -- null space null f1 f2 f3 f4 f5
   0xF6, 0xF7, 0xF8, 0xF9, 0xFA, 0x00, 0x00, 0x37, -- f6 f7 f8 f9 f10 null null 7
   0xE2, 0x39, 0x2D, 0xE4, 0x35, 0xE5, 0x2B, 0x31, -- up 9 - left 5 right + 1
   0xE3, 0x33, 0xE8, 0xE9, 0x00, 0x00, 0x00, 0xFB, -- down 3 insert delete null null null f11
   0xFC, 0x00, 0x00, 0x00, 0x00, 0x00, 0x00, 0x00] -- f12 null null null null null null null
    ++ List.replicate 0x20 0x00

def keyboardMapSecondary : List Byte :=
  [0x00, 0x1B, 0x21, 0x40, 0x23, 0x24, 0x25, 0x5E, -- null escape ! @ # $ % ^
   0x26, 0x2A, 0x28, 0x29, 0x5F, 0x2B, 0x08, 0x09, -- & * ( ) _ + backspace tab
   0x51, 0x57, 0x45, 0x52, 0x54, 0x59, 0x55, 0x49, -- Q W E R T Y U I
   0x4F, 0x50, 0x7B, 0x7D, 0x0A, 0x00, 0x41, 0x53, -- O P brace brace enter null A S
   0x44, 0x46, 0x47, 0x48, 0x4A, 0x4B, 0x4C, 0x3A, -- D F G H J K L :
   0x22, 0x7E, 0x00, 0x7C, 0x5A, 0x58, 0x43, 0x56, -- quote ~ null | Z X C V
   0x42, 0x4E, 0x4D, 0x3C, 0x3E, 0x3F, 0x00, 0x00, -- B N M < > ? null null
   0x00, 0x20, 0x00, 0xF1, 0xF2, 0xF3, 0xF4, 0xF5, -- null space null f1 f2 f3 f4 f5
   0xF6, 0xF7, 0xF8, 0xF9, 0xFA, 0x00, 0x00, 0xE0, -- f6 f7 f8 f9 f10 null null home
   0xE2, 0xE6, 0x2D, 0xE4, 0x00, 0xE5, 0x2B, 0xE1, -- up pgup - left null right + end
   0xE3, 0xE7, 0xE8, 0xE9, 0x00, 0x00, 0x00, 0xFB, -- down pgdown insert delete null null null f11
   0xFC, 0x00, 0x00, 0x00, 0x00, 0x00, 0x00, 0x00] -- f12 null null null null null null null
    ++ List.replicate 0x20 0x00

/-- Reading a map; a `char` keeps its sign in the `unsigned int` it is assigned to. -/
def mapChar (map : List Byte) (c : BitVec 32) : Res (BitVec 32) :=
  match map[c.toNat]? with
  | some char => .ok (char.signExtend 32)
  | none => .error (.undefined "keyboard map")

def KeyPressed (c : BitVec 32) : Prop := c &&& 0x80 = 0

instance (c : BitVec 32) : Decidable (KeyPressed c) := inferInstanceAs (Decidable (_ = _))

/-- `kbd_status & KEY_STATUS_*` as a condition. -/
def Keyboard.Status (k : Keyboard) (s : StatusKey) : Prop := k.kbdStatus &&& s.mask ≠ 0

instance (k : Keyboard) (s : StatusKey) : Decidable (k.Status s) :=
  inferInstanceAs (Decidable (_ ≠ _))

/-- What the decoder has the kernel do. -/
inductive KeyCommand
  | ttySelect (n : Int)
  | kernelExit
  | setLogLevel (change : Int)
  | kprocCreate
  | kprocDestroy
  | breakpoint
deriving DecidableEq, Repr

/-- The returned character, and the call made on the way. `kernel_exit` does not come
back, so the character next to that call is returned to nobody. -/
structure Decoded where
  char : BitVec 32
  call : Option KeyCommand
deriving DecidableEq, Repr

namespace Keyboard

/-- The character of a key that is no status key. -/
def mapped (k : Keyboard) (c : BitVec 32) : Res (BitVec 32) :=
  if 0x47 ≤ c ∧ c ≤ 0x53 then
    if k.Status (.flip .numlock) then mapChar keyboardMapSecondary c
    else mapChar keyboardMapPrimary c
  else if decide (k.Status (.hold .shift)) ^^ decide (k.Status (.flip .caps)) then
    mapChar keyboardMapSecondary c
  else mapChar keyboardMapPrimary c

/-- The commands behind CTRL, else the character. -/
def control (k : Keyboard) (c : BitVec 32) : Decoded :=
  if k.Status (.hold .ctrl) then
    if c = 0x2B ∨ c = 0x3D then ⟨keyNull, some (.setLogLevel 1)⟩ -- + =
    else if c = 0x2D ∨ c = 0x5F then ⟨keyNull, some (.setLogLevel (-1))⟩ -- - _
    else if c = 0x6E ∨ c = 0x4E then ⟨keyNull, some .kprocCreate⟩ -- n N
    else if c = 0x71 ∨ c = 0x51 then ⟨keyNull, some .kprocDestroy⟩ -- q Q
    else if c = 0x62 ∨ c = 0x42 then ⟨keyNull, some .breakpoint⟩ -- b B
    else ⟨c, none⟩
  else ⟨c, none⟩

/-- The rest of the default case, with the mapped character. -/
def enter (k : Keyboard) (c : BitVec 32) : Decoded × Keyboard :=
  if k.Status (.hold .alt) ∧ 0x30 ≤ c ∧ c ≤ 0x39 then
    -- an early return: the escape count stays as it is
    (⟨keyNull, some (.ttySelect (c - 0x30).toInt)⟩, k)
  else if c = keyEscape then
    let k := { k with escStatus := k.escStatus + 1 }
    (⟨keyNull, if k.escStatus = 3 then some .kernelExit else none⟩, k)
  else
    let k := if c ≠ keyNull then { k with escStatus := 0 } else k
    (k.control c, k)

end Keyboard

def keyboardDecode (c : BitVec 32) (k : Keyboard) : Res (Decoded × Keyboard) :=
  match statusKey (c &&& ~~~0x80) with
  | some (.hold m) =>
    let kbdStatus := if KeyPressed c then k.kbdStatus ||| (StatusKey.hold m).mask
      else k.kbdStatus &&& ~~~(StatusKey.hold m).mask
    .ok (⟨keyNull, none⟩, { k with kbdStatus })
  | some (.flip l) =>
    let kbdStatus := if KeyPressed c then k.kbdStatus ^^^ (StatusKey.flip l).mask else k.kbdStatus
    .ok (⟨keyNull, none⟩, { k with kbdStatus })
  | none =>
    if KeyPressed c then (k.mapped c).map k.enter
    else .ok (⟨keyNull, none⟩, k)

/-- `keyboard_init`, as far as the decoder is concerned: the escape count stays. -/
def keyboardInit (k : Keyboard) : Keyboard := { k with kbdStatus := 0 }

/-! ## Status bits -/

def StatusKey.bit : StatusKey → Nat
  | .hold .ctrl => 0
  | .hold .alt => 1
  | .hold .shift => 2
  | .flip .caps => 3
  | .flip .numlock => 4

theorem StatusKey.bit_lt (s : StatusKey) : s.bit < 32 := by
  cases s with
  | hold m => cases m <;> simp [bit]
  | flip l => cases l <;> simp [bit]

theorem StatusKey.mask_eq (s : StatusKey) : s.mask = BitVec.twoPow 32 s.bit := by
  cases s with
  | hold m => cases m <;> rfl
  | flip l => cases l <;> rfl

theorem StatusKey.bit_inj {s s' : StatusKey} : s.bit = s'.bit ↔ s = s' := by
  rcases s with (_ | _ | _) | (_ | _) <;> rcases s' with (_ | _ | _) | (_ | _) <;> simp [bit]

namespace Keyboard

variable {k k' : Keyboard} {c char : BitVec 32} {d : Decoded} {s s' : StatusKey}

theorem status_iff (k : Keyboard) (s : StatusKey) :
    k.Status s ↔ k.kbdStatus.getLsbD s.bit = true := by
  rw [Status, s.mask_eq]
  exact Bits.and_twoPow_ne_zero s.bit_lt k.kbdStatus

theorem status_or (k : Keyboard) (s s' : StatusKey) :
    { k with kbdStatus := k.kbdStatus ||| s.mask }.Status s' ↔ k.Status s' ∨ s = s' := by
  rw [status_iff, status_iff, s.mask_eq, Bits.getLsbD_or_twoPow s.bit_lt, ← StatusKey.bit_inj]
  simp

theorem status_and_not (k : Keyboard) (s s' : StatusKey) :
    { k with kbdStatus := k.kbdStatus &&& ~~~s.mask }.Status s' ↔ k.Status s' ∧ s ≠ s' := by
  rw [status_iff, status_iff, s.mask_eq, Bits.getLsbD_and_not_twoPow, ne_eq, ← StatusKey.bit_inj]
  simp

theorem status_xor (k : Keyboard) (s s' : StatusKey) :
    { k with kbdStatus := k.kbdStatus ^^^ s.mask }.Status s' ↔ (k.Status s' ↔ s ≠ s') := by
  rw [status_iff, status_iff, s.mask_eq, Bits.getLsbD_xor_twoPow s.bit_lt, ne_eq,
    ← StatusKey.bit_inj]
  cases k.kbdStatus.getLsbD s'.bit with
  | false => simp
  | true => simp

/-! ## What a call does -/

@[simp] theorem enter_kbdStatus (k : Keyboard) (char : BitVec 32) :
    (k.enter char).2.kbdStatus = k.kbdStatus := by
  unfold enter
  split
  · rfl
  · split
    · rfl
    · simp only
      split
      · rfl
      · rfl

theorem control_call (k : Keyboard) (char : BitVec 32) :
    (k.control char).call ≠ some .kernelExit := by
  unfold control
  repeat' split
  all_goals simp

theorem mapChar_returns (map : List Byte) (hmap : map.length = 128) (hc : c.toNat < 128) :
    ∃ char, mapChar map c = .ok char := by
  unfold mapChar
  rw [List.getElem?_eq_getElem (by omega)]
  exact ⟨_, rfl⟩

theorem mapChar_lt {map : List Byte} (h : mapChar map c = .ok char) : c.toNat < map.length := by
  unfold mapChar at h
  split at h
  · rename_i hchar
    exact (List.getElem?_eq_some_iff.mp hchar).1
  · cases h

theorem mapped_eq (k : Keyboard) (c : BitVec 32) :
    k.mapped c = mapChar keyboardMapPrimary c ∨ k.mapped c = mapChar keyboardMapSecondary c := by
  unfold mapped
  repeat' split
  all_goals simp

/-- The maps have an entry for every code of a press. -/
theorem mapped_returns (k : Keyboard) (hc : c.toNat < 128) : ∃ char, k.mapped c = .ok char := by
  obtain he | he := k.mapped_eq c
  · rw [he]
    exact mapChar_returns keyboardMapPrimary rfl hc
  · rw [he]
    exact mapChar_returns keyboardMapSecondary rfl hc

/-- CTRL, ALT and SHIFT: a press sets the key's own bit, a release clears it. -/
theorem decode_hold {m : Modifier} (hs : statusKey (c &&& ~~~0x80) = some (.hold m))
    (h : keyboardDecode c k = .ok (d, k')) (s : StatusKey) :
    k'.Status s ↔ if s = .hold m then KeyPressed c else k.Status s := by
  simp only [keyboardDecode, hs, Except.ok.injEq, Prod.mk.injEq] at h
  obtain ⟨-, rfl⟩ := h
  by_cases hp : KeyPressed c
  · simp only [if_pos hp, status_or]
    by_cases he : s = .hold m
    · simp [he, hp]
    · simp [he, eq_comm]
  · simp only [if_neg hp, status_and_not]
    by_cases he : s = .hold m
    · simp [he, hp]
    · simp [he, Ne.symm he]

/-- CAPS and NUMLOCK: a press flips the key's own bit. -/
theorem decode_flip {l : Lock} (hs : statusKey (c &&& ~~~0x80) = some (.flip l))
    (h : keyboardDecode c k = .ok (d, k')) (s : StatusKey) :
    k'.Status s ↔ if s = .flip l ∧ KeyPressed c then ¬ k.Status s else k.Status s := by
  simp only [keyboardDecode, hs, Except.ok.injEq, Prod.mk.injEq] at h
  obtain ⟨-, rfl⟩ := h
  by_cases hp : KeyPressed c
  · simp only [if_pos hp, status_xor]
    by_cases he : s = .flip l
    · simp [he, hp]
    · simp [he, Ne.symm he]
  · simp [hp, Status]

/-- The default case: a release does nothing, a press enters its character. -/
theorem decode_none (hs : statusKey (c &&& ~~~0x80) = none)
    (h : keyboardDecode c k = .ok (d, k')) :
    (¬ KeyPressed c ∧ d = ⟨keyNull, none⟩ ∧ k' = k) ∨
      (KeyPressed c ∧ ∃ char, k.mapped c = .ok char ∧ (d, k') = k.enter char) := by
  simp only [keyboardDecode, hs] at h
  split at h
  · rename_i hp
    cases hm : k.mapped c with
    | error e =>
      rw [hm] at h
      cases h
    | ok char =>
      rw [hm] at h
      exact .inr ⟨hp, char, rfl, (Except.ok.inj h).symm⟩
  · rename_i hp
    cases h
    exact .inl ⟨hp, rfl, rfl⟩

/-- Every other key leaves the bits alone. -/
theorem decode_other (hs : statusKey (c &&& ~~~0x80) = none)
    (h : keyboardDecode c k = .ok (d, k')) : k'.kbdStatus = k.kbdStatus := by
  obtain ⟨_, _, rfl⟩ | ⟨_, char, _, he⟩ := decode_none hs h
  · rfl
  · rw [← enter_kbdStatus k char, ← he]

/-- A status bit changes only with a code of its own key. -/
theorem decode_frame (hs : statusKey (c &&& ~~~0x80) ≠ some s)
    (h : keyboardDecode c k = .ok (d, k')) : k'.Status s ↔ k.Status s := by
  cases hc : statusKey (c &&& ~~~0x80) with
  | none => rw [Status, Status, decode_other hc h]
  | some s' =>
    rw [hc, ne_eq, Option.some.injEq] at hs
    cases s' with
    | hold m => rw [decode_hold hc h, if_neg (Ne.symm hs)]
    | flip l => rw [decode_flip hc h, if_neg (by simp [Ne.symm hs])]

/-- A status key leaves the escape count alone and calls nothing. -/
theorem decode_some (hs : statusKey (c &&& ~~~0x80) = some s)
    (h : keyboardDecode c k = .ok (d, k')) : d.call = none ∧ k'.escStatus = k.escStatus := by
  cases s with
  | hold m =>
    simp only [keyboardDecode, hs] at h
    cases h
    exact ⟨rfl, rfl⟩
  | flip l =>
    simp only [keyboardDecode, hs] at h
    cases h
    exact ⟨rfl, rfl⟩

theorem keyPressed_lt (b : Byte) : KeyPressed (b.setWidth 32) → (b.setWidth 32).toNat < 128 := by
  revert b
  decide

/-- No scan code is read past the end of a map. -/
theorem decode_returns (b : Byte) (k : Keyboard) :
    ∃ r, keyboardDecode (b.setWidth 32) k = .ok r := by
  unfold keyboardDecode
  split
  · exact ⟨_, rfl⟩
  · exact ⟨_, rfl⟩
  · split
    · rename_i hp
      obtain ⟨char, hchar⟩ := k.mapped_returns (keyPressed_lt b hp)
      exact ⟨k.enter char, by rw [hchar]; rfl⟩
    · exact ⟨_, rfl⟩

end Keyboard

end UnivOS
