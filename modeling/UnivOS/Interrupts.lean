import UnivOS.Base
import UnivOS.Pic

/-! # Interrupt handlers

`interrupts.c` without the masks, which are in `UnivOS.Pic`: the two tables an interrupt
goes through, and the command that tells a controller that it has been handled. An entry
(`ε`) and a handler (`η`) are function pointers that are not null.
-/
namespace UnivOS

def irqMax : Nat := 0xf0

def irqTimer : BitVec 32 := 0x20
def irqKeyboard : BitVec 32 := 0x21
def irqSyscall : BitVec 32 := 0x80

def pic1Cmd : Int := 0x20
def pic2Cmd : Int := 0xa0
def picEoi : BitVec 32 := 0x20

/-- What `fill_gate` makes of an entry. -/
structure Gate (ε : Type) where
  entry : ε
  cs : BitVec 16
deriving DecidableEq

/-- The globals of `interrupts.c`, and the ports of the machine. -/
structure Interrupts (ε η : Type) where
  idt : Fin irqMax → Option (Gate ε)
  irqHandlers : Fin irqMax → Option η
  ports : Ports

/-- `0x%02x`. -/
def hexByte (n : BitVec 32) : String :=
  let digits := Nat.toDigits 16 n.toNat
  "0x" ++ String.ofList (List.replicate (2 - digits.length) '0' ++ digits)

/-- The end of the messages about an interrupt. -/
def irqText (irq : BitVec 32) : String := toString irq.toInt ++ " (" ++ hexByte irq ++ ")"

namespace Interrupts

variable {ε η : Type}

/-- The interrupts that come from the controllers. -/
def FromPic (irq : BitVec 32) : Prop := 0x20 ≤ irq.toInt ∧ irq.toInt ≤ 0x2f

instance (irq : BitVec 32) : Decidable (FromPic irq) := inferInstanceAs (Decidable (_ ∧ _))

def picIrqDismiss (irq : BitVec 32) (ports : Ports) : Ports :=
  let irq := irq &&& 0xf#32
  let ports := if BitVec.sle 8#32 irq then outportb pic2Cmd picEoi ports else ports
  outportb pic1Cmd picEoi ports

/-- The handler `interrupts_irq_handler` calls, where it calls one. -/
def irqHandler (s : Interrupts ε η) (irq : BitVec 32) : Res η :=
  match index irqMax irq.toInt with
  | none => .error (.panic ("interrupts: Invalid IRQ " ++ irqText irq))
  | some i =>
    match s.irqHandlers i with
    | none => .error (.panic ("interrupts: No handler registered for IRQ " ++ irqText irq))
    | some handler => .ok handler

/-- The end of `interrupts_irq_handler`. -/
def dismiss (s : Interrupts ε η) (irq : BitVec 32) : Interrupts ε η :=
  if FromPic irq then { s with ports := picIrqDismiss (irq - 0x20) s.ports } else s

def interruptsIrqRegister (s : Interrupts ε η) (cs : BitVec 16) (irq : BitVec 32)
    (entry : Option ε) (handler : Option η) : Res (Interrupts ε η) :=
  match index irqMax irq.toInt with
  | none => .error (.panic ("interrupts: Invalid IRQ " ++ irqText irq))
  | some i =>
    match entry, handler with
    | none, _ => .error (.panic ("interrupts: Invalid IDT entry for IRQ " ++ irqText irq))
    | some _, none => .error (.panic ("interrupts: Invalid handler for IRQ " ++ irqText irq))
    | some entry, some handler => .ok
      { idt := Function.update s.idt i (some ⟨entry, cs⟩)
        irqHandlers := Function.update s.irqHandlers i (some handler)
        ports := if FromPic irq then picIrqEnable irq s.ports else s.ports }

/-- The table of the processor stays as the boot loader left it. -/
def interruptsInit (s : Interrupts ε η) : Interrupts ε η := { s with irqHandlers := fun _ => none }

end Interrupts
end UnivOS
