import UnivOS.Lib.Bits
import UnivOS.Lib.Streak
import UnivOS.RingBuf

/-! # The masks of the interrupt controllers

The `pic_irq_*` functions of `interrupts.c`. A set bit in the mask of a controller
keeps its line off; `pic_irq_disable` flips the bit where `pic_irq_enable` clears it.
-/
namespace UnivOS

/-- The I/O ports, each with the byte it reads back. -/
abbrev Ports := Int → Byte

def inportb (port : Int) (ports : Ports) : BitVec 32 := (ports port).setWidth 32

def outportb (port : Int) (value : BitVec 32) (ports : Ports) : Ports :=
  Function.update ports port (value.setWidth 8)

def pic1Data : Int := 0x21
def pic2Data : Int := 0xa1

/-- The start of all three functions: the data port of the controller that serves the
irq, and the irq as that controller counts it. -/
def picLine (irq : BitVec 32) : Int × BitVec 32 :=
  let irq := irq &&& 0xf#32
  if BitVec.sle 8#32 irq then (pic2Data, irq - 8#32) else (pic1Data, irq)

def picIrqEnable (irq : BitVec 32) (ports : Ports) : Ports :=
  let (port, irq) := picLine irq
  let mask := inportb port ports
  outportb port (mask &&& ~~~(1#32 <<< irq)) ports

def picIrqDisable (irq : BitVec 32) (ports : Ports) : Ports :=
  let (port, irq) := picLine irq
  let mask := inportb port ports
  -- the source announces an OR here
  outportb port (0xff#32 &&& (mask ^^^ (1#32 <<< irq))) ports

def picIrqEnabled (irq : BitVec 32) (ports : Ports) : Int :=
  let (port, irq) := picLine irq
  let mask := inportb port ports
  if mask &&& (1#32 <<< irq) ≠ 0#32 then 0 else 1

/-- Two `int`s that name one line. -/
def SameIrq (i j : BitVec 32) : Prop := i.toInt % 16 = j.toInt % 16

instance (i j : BitVec 32) : Decidable (SameIrq i j) := inferInstanceAs (Decidable (_ = _))

variable {i j : BitVec 32} {ports : Ports}

/-! ## One line -/

theorem toNat_and_fifteen (i : BitVec 32) : (i &&& 0xf#32).toNat = i.toNat % 16 := by
  rw [BitVec.toNat_and]
  exact Nat.and_two_pow_sub_one_eq_mod i.toNat 4

/-- The upper half of the lines belongs to the second controller. -/
theorem sle_eight (i : BitVec 32) :
    BitVec.sle 8#32 (i &&& 0xf#32) = true ↔ 8 ≤ i.toNat % 16 := by
  have hlow := toNat_and_fifteen i
  have hint : (i &&& 0xf#32).toInt = ((i.toNat % 16 : Nat) : Int) := by
    rw [BitVec.toInt_eq_toNat_cond, if_pos (by omega), hlow]
  have height : (8#32).toInt = 8 := rfl
  rw [BitVec.sle_iff_toInt_le, hint, height]
  omega

theorem picLine_port (i : BitVec 32) :
    (picLine i).1 = if 8 ≤ i.toNat % 16 then pic2Data else pic1Data := by
  simp only [picLine, sle_eight]
  split <;> rfl

theorem picLine_bit (i : BitVec 32) : (picLine i).2.toNat = i.toNat % 8 := by
  have hlow := toNat_and_fifteen i
  simp only [picLine, sle_eight]
  split
  · rw [BitVec.toNat_sub_of_le (by rw [BitVec.le_def, hlow]; simpa), hlow]
    simp only [BitVec.toNat_ofNat]
    omega
  · rw [hlow]
    omega

theorem sameIrq_iff : SameIrq i j ↔ i.toNat % 16 = j.toNat % 16 := by
  rw [SameIrq, BitVec.toInt_eq_toNat_cond, BitVec.toInt_eq_toNat_cond]
  split <;> split <;> omega

theorem sameIrq_iff_picLine :
    SameIrq i j ↔ (picLine i).1 = (picLine j).1 ∧ (picLine i).2.toNat = (picLine j).2.toNat := by
  have hne : pic1Data ≠ pic2Data := by decide
  rw [sameIrq_iff, picLine_port, picLine_port, picLine_bit, picLine_bit]
  split <;> split <;> simp [hne, hne.symm] <;> omega

/-- The mask bit of the line of an irq. -/
def masked (i : BitVec 32) (ports : Ports) : Bool :=
  (ports (picLine i).1).getLsbD (picLine i).2.toNat

theorem shiftLeft_picLine (i : BitVec 32) :
    1#32 <<< (picLine i).2 = BitVec.twoPow 32 (i.toNat % 8) := by
  rw [BitVec.twoPow_eq, ← picLine_bit]
  rfl

theorem inportb_bit (i : BitVec 32) (ports : Ports) :
    (inportb (picLine i).1 ports).getLsbD (picLine i).2.toNat = masked i ports := by
  simp only [inportb, masked, picLine_bit, BitVec.getLsbD_setWidth]
  simp [show i.toNat % 8 < 32 by omega]

theorem picIrqEnabled_eq (i : BitVec 32) (ports : Ports) :
    picIrqEnabled i ports = if masked i ports then 0 else 1 := by
  have hbit := Bits.and_twoPow_ne_zero (show i.toNat % 8 < 32 by omega)
    (inportb (picLine i).1 ports)
  rw [← picLine_bit, inportb_bit, picLine_bit] at hbit
  simp only [picIrqEnabled, shiftLeft_picLine, hbit]

theorem picIrqEnabled_one : picIrqEnabled i ports = 1 ↔ masked i ports = false := by
  rw [picIrqEnabled_eq]
  cases masked i ports with
  | true => simp
  | false => simp

theorem picIrqEnabled_cases (i : BitVec 32) (ports : Ports) :
    picIrqEnabled i ports = 0 ∨ picIrqEnabled i ports = 1 := by
  rw [picIrqEnabled_eq]
  cases masked i ports with
  | true => exact .inl rfl
  | false => exact .inr rfl

/-- What a call that writes `value` to the mask of one line does to every line. -/
theorem masked_outportb (i j : BitVec 32) (value : BitVec 32) (ports : Ports) :
    masked j (outportb (picLine i).1 value ports) =
      if (picLine i).1 = (picLine j).1 then value.getLsbD (picLine j).2.toNat
      else masked j ports := by
  have hlt : j.toNat % 8 < 8 := by omega
  simp only [masked, outportb, Function.update_apply, eq_comm (a := (picLine j).1)]
  split
  · simp [picLine_bit, hlt]
  · rfl

theorem masked_picIrqEnable (i j : BitVec 32) (ports : Ports) :
    masked j (picIrqEnable i ports) = (masked j ports && !decide (SameIrq i j)) := by
  simp only [picIrqEnable, masked_outportb, shiftLeft_picLine, Bits.getLsbD_and_not_twoPow,
    sameIrq_iff_picLine]
  by_cases hport : (picLine i).1 = (picLine j).1
  · rw [if_pos hport, hport, inportb_bit, ← picLine_bit]
    simp
  · simp [hport]

/-- A call disables the line only if it was enabled. -/
theorem masked_picIrqDisable (i j : BitVec 32) (ports : Ports) :
    masked j (picIrqDisable i ports) = (masked j ports ^^ decide (SameIrq i j)) := by
  have hlow : (0xff#32).getLsbD (picLine j).2.toNat = true := by
    rw [picLine_bit, BitVec.getLsbD_ofNat, show 0xff = 2 ^ 8 - 1 from rfl,
      Nat.testBit_two_pow_sub_one]
    simp only [Bool.and_eq_true, decide_eq_true_eq]
    omega
  simp only [picIrqDisable, masked_outportb, shiftLeft_picLine, BitVec.getLsbD_and,
    Bits.getLsbD_xor_twoPow (show i.toNat % 8 < 32 by omega), hlow, sameIrq_iff_picLine]
  by_cases hport : (picLine i).1 = (picLine j).1
  · rw [if_pos hport, hport, inportb_bit, ← picLine_bit]
    simp
  · simp [hport]

/-! ## Sequences of calls -/

/-- A call of `pic_irq_enable`, or of `pic_irq_disable`. -/
structure PicCall where
  enable : Bool
  irq : BitVec 32

def PicCall.exec (ports : Ports) (c : PicCall) : Ports :=
  if c.enable then picIrqEnable c.irq ports else picIrqDisable c.irq ports

/-- What the calls ask for one line, in order. -/
def requests (irq : BitVec 32) (calls : List PicCall) : List Bool :=
  (calls.filter fun c => SameIrq c.irq irq).map PicCall.enable

/-- What the last request asks for, or the initial value if there is none. -/
def lastRequest (reqs : List Bool) (initially : Int) : Int :=
  match reqs.getLast? with
  | none => initially
  | some req => if req then 1 else 0

/-- The number of requests to disable behind the last one to enable. -/
def disables (reqs : List Bool) : Nat := Streak.streak (· = false) reqs

/-- One request: an enabling one enables, a disabling one flips. -/
def request (enabled req : Bool) : Bool := req || !enabled

theorem request_exec (i : BitVec 32) (ports : Ports) (c : PicCall) :
    (!masked i (c.exec ports)) =
      if SameIrq c.irq i then request (!masked i ports) c.enable else !masked i ports := by
  unfold PicCall.exec request
  cases c.enable with
  | true =>
    rw [if_pos rfl, masked_picIrqEnable]
    split <;> simp_all
  | false =>
    rw [if_neg (by decide), masked_picIrqDisable]
    split <;> simp_all

/-- The calls change the line of an irq as the requests for it do. -/
theorem requests_exec (i : BitVec 32) (ports : Ports) (calls : List PicCall) :
    (!masked i (calls.foldl PicCall.exec ports)) =
      (requests i calls).foldl request (!masked i ports) := by
  induction calls generalizing ports with
  | nil => rfl
  | cons c calls ih =>
    rw [List.foldl_cons, ih, request_exec]
    by_cases h : SameIrq c.irq i
    · simp [requests, h]
    · simp [requests, h]

theorem disables_snoc (reqs : List Bool) (req : Bool) :
    disables (reqs ++ [req]) = if req then 0 else disables reqs + 1 := by
  rw [disables, Streak.streak_snoc]
  cases req with
  | true => simp
  | false => simp [disables]

/-- The disabling requests behind the last enabling one flip what it left. -/
theorem foldl_request (reqs : List Bool) (enabled : Bool) :
    reqs.foldl request enabled = true ↔
      (disables reqs % 2 = 1 ↔ ¬ (true ∈ reqs ∨ enabled = true)) := by
  induction reqs using List.reverseRecOn with
  | nil => simp [disables]
  | append_singleton reqs req ih =>
    rw [List.foldl_append, disables_snoc]
    cases req with
    | true => simp [request]
    | false =>
      have hflip : [false].foldl request (reqs.foldl request enabled) = true ↔
          ¬ reqs.foldl request enabled = true := by simp [request]
      have hodd : (disables reqs + 1) % 2 = 1 ↔ ¬ disables reqs % 2 = 1 := by omega
      rw [hflip, ih, if_neg (by decide), hodd]
      simp only [List.mem_append, List.mem_singleton, Bool.true_eq_false, or_false]
      exact not_iff

/-- The last request, told from the number of disabling ones at the end. -/
theorem lastRequest_of_disables (reqs : List Bool) (initially : Int) :
    lastRequest reqs initially =
      if disables reqs = 0 then (if true ∈ reqs then 1 else initially) else 0 := by
  induction reqs using List.reverseRecOn with
  | nil => simp [lastRequest, disables]
  | append_singleton reqs req ih =>
    rw [disables_snoc]
    cases req with
    | true => simp [lastRequest]
    | false => simp [lastRequest]

/-- **The mask of a line obeys the last request for it exactly if that request does not
flip the wrong way**: there was none to disable since the last to enable, or an odd
number while the line was enabled, or an even number while it was not. -/
theorem pic_obeys_last_request_iff (ports : Ports) (calls : List PicCall) (irq : BitVec 32) :
    let reqs := requests irq calls
    picIrqEnabled irq (calls.foldl PicCall.exec ports) =
        lastRequest reqs (picIrqEnabled irq ports) ↔
      disables reqs = 0 ∨
        (disables reqs % 2 = 1 ↔ (true ∈ reqs ∨ picIrqEnabled irq ports = 1)) := by
  intro reqs
  have hend : picIrqEnabled irq (calls.foldl PicCall.exec ports) = 1 ↔
      (disables reqs % 2 = 1 ↔ ¬ (true ∈ reqs ∨ picIrqEnabled irq ports = 1)) := by
    rw [picIrqEnabled_one, picIrqEnabled_one, ← Bool.not_eq_true', ← Bool.not_eq_true',
      requests_exec, foldl_request]
  have hbefore := picIrqEnabled_cases irq ports
  have hafter := picIrqEnabled_cases irq (calls.foldl PicCall.exec ports)
  rw [lastRequest_of_disables]
  by_cases hn : disables reqs = 0
  · refine iff_of_true ?_ (.inl hn)
    rw [if_pos hn]
    simp only [hn, Nat.zero_mod, Nat.zero_ne_one, false_iff, not_not] at hend
    by_cases hmem : true ∈ reqs
    · rw [if_pos hmem]
      exact hend.mpr (.inl hmem)
    · rw [if_neg hmem]
      rw [or_iff_right hmem] at hend
      omega
  · have hzero : picIrqEnabled irq (calls.foldl PicCall.exec ports) = 0 ↔
        ¬ picIrqEnabled irq (calls.foldl PicCall.exec ports) = 1 := by omega
    rw [if_neg hn, or_iff_right hn, hzero, hend, not_iff, not_iff_not]

/-- Disabled twice, the timer is enabled. -/
theorem pic_disable_twice :
    let calls : List PicCall := [⟨false, 0x20⟩, ⟨false, 0x20⟩]
    let ports : Ports := fun _ => 0
    picIrqEnabled 0x20 (calls.foldl PicCall.exec ports) = 1 ∧
      lastRequest (requests 0x20 calls) (picIrqEnabled 0x20 ports) = 0 := by decide

end UnivOS
