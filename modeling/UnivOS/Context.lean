import UnivOS.Lib.Ia32
import UnivOS.Ksyscall

/-! # Context switches

`context.S` as code for the processor. An interrupt leaves the registers of a process in
a trapframe on its stack, and `kernel_context_exit` takes them from there; as long as the
trapframe is left alone, the process does not see that it has been interrupted.
-/
namespace UnivOS
open Ia32

def kdataSeg : BitVec 16 := 0x10

/-- The interrupts with an entry in `context.S`. -/
inductive Isr
  | timer
  | keyboard
  | syscall
deriving DecidableEq, Repr

/-- `IRQ_TIMER` and its siblings. -/
def Isr.irq : Isr → Word
  | .timer => 0x20
  | .keyboard => 0x21
  | .syscall => 0x80

/-- `isr_entry_timer` and its siblings, up to the jump to `kernel_enter`. -/
def isrEntry (isr : Isr) : List Instr := [.pushImm isr.irq]

/-- `kstack` is the end of the kernel stack, `ret` the address behind the call. -/
def kernelEnter (kstack ret : Word) : List Instr :=
  [.pusha, .pushSeg .ds, .pushSeg .es, .pushSeg .fs, .pushSeg .gs,
    .movReg .edx .esp, .cld, .movImm16 .eax kdataSeg, .movSeg .ds .eax, .movSeg .es .eax,
    .lea .esp kstack, .pushReg .edx, .call ret]

def kernelContextExit : List Instr :=
  [.movMem .eax .esp 4, .movReg .esp .eax, .popSeg .gs, .popSeg .fs, .popSeg .es, .popSeg .ds,
    .popa, .addImm .esp 4, .iret]

namespace Trapframe

/-- The trapframe is in memory at `a`. -/
def At (m : Mem) (a : Word) (tf : Trapframe) : Prop := ofWords (words m a 16) = some tf

theorem At.congr {m m' : Mem} {a : Word} {tf : Trapframe} (h : At m a tf)
    (hm : ∀ i < 64, m' (a + BitVec.ofNat 32 i) = m (a + BitVec.ofNat 32 i)) : At m' a tf := by
  rw [At, words_congr hm]
  exact h

/-- The trapframe in memory is the one that is read there. -/
theorem At.read {m : Mem} {a : Word} {tf : Trapframe} (h : At m a tf) :
    Trapframe.read m a = tf := by
  rw [At] at h
  rw [Trapframe.read, h, Option.getD_some]

theorem at_read (m : Mem) (a : Word) : At m a (Trapframe.read m a) := rfl

def reg (tf : Trapframe) : Reg → Word
  | .eax => tf.eax
  | .ecx => tf.ecx
  | .edx => tf.edx
  | .ebx => tf.ebx
  | .esp => tf.esp
  | .ebp => tf.ebp
  | .esi => tf.esi
  | .edi => tf.edi

def seg (tf : Trapframe) : Seg → BitVec 16
  | .cs => tf.cs.setWidth 16
  | .ds => tf.ds
  | .es => tf.es
  | .fs => tf.fs
  | .gs => tf.gs

/-- The registers of `s` and the number of an interrupt. The stack pointer is not among
them: where the trapframe is says what it was. -/
structure Saves (s : State) (irq : Word) (tf : Trapframe) : Prop where
  reg : ∀ r, r ≠ .esp → tf.reg r = s.reg r
  seg : ∀ g, tf.seg g = s.seg g
  eip : tf.eip = s.eip
  eflags : tf.eflags = s.eflags
  interrupt : tf.interrupt = irq

end Trapframe

variable {p : Model} {s t : State} {isr : Isr} {gate : BitVec 16 × Word} {kstack ret a : Word}
  {tf : Trapframe}

/-- The state in which `kernel_context_enter` is called for a process interrupted in `s`. -/
def enterContext (p : Model) (gate : BitVec 16 × Word) (isr : Isr) (kstack ret : Word)
    (s : State) : State :=
  run p (isrEntry isr ++ kernelEnter kstack ret) (interrupt p gate s)

/-- The state a call of `kernel_context_exit` ends in. -/
def exitContext (p : Model) (t : State) : State := run p kernelContextExit t

/-- The trapframe below the stack of `s` does not reach the words pushed on the kernel
stack. -/
def Room (kstack : Word) (s : State) : Prop :=
  Trapframe.size ≤ (kstack - 8 - (s.esp - Trapframe.size)).toNat ∧
    (kstack - 8 - (s.esp - Trapframe.size)).toNat + 8 ≤ 2 ^ 32

/-! ## Into the kernel -/

/-- What `kernel_context_enter` is called with for a process interrupted in `s`. -/
structure Entered (s e : State) (isr : Isr) (kstack : Word) : Prop where
  frame : ∃ tf, Trapframe.At e.mem (s.esp - 64) tf ∧ tf.Saves s isr.irq
  argument : load e.mem (e.esp + 4) = s.esp - 64
  esp : e.esp = kstack - 8
  data : e.seg .ds = kdataSeg ∧ e.seg .es = kdataSeg
  masked : e.eflags &&& flagIf = 0
  other : ∀ x, 64 ≤ (x - (s.esp - 64)).toNat → 8 ≤ (x - (kstack - 8)).toNat → e.mem x = s.mem x

/-- `pusha` and the pushes of the segment registers complete the trapframe. -/
def pushTrapframe (p : Model) (gate : BitVec 16 × Word) (isr : Isr) (s : State) : State :=
  pushSeg p .gs (pushSeg p .fs (pushSeg p .es (pushSeg p .ds
    (pusha ((interrupt p gate s).push isr.irq)))))

theorem enterContext_eq (p : Model) (gate : BitVec 16 × Word) (isr : Isr) (s : State) :
    enterContext p gate isr kstack ret s =
      run p ((kernelEnter kstack ret).drop 5) (pushTrapframe p gate isr s) := by
  rw [enterContext, isrEntry, kernelEnter, List.cons_append, List.nil_append]
  simp only [run_cons, exec, List.drop, pushTrapframe]

/-- The processor and `context.S` push the words of a trapframe. -/
theorem pushTrapframe_saves (p : Model) (gate : BitVec 16 × Word) (isr : Isr) (s : State) :
    ∃ ws tf, State.Pushed s (pushTrapframe p gate isr s) ws ∧ ws.length = 16 ∧
      Trapframe.ofWords ws = some tf ∧ tf.Saves s isr.irq := by
  let i := interrupt p gate s
  have hcs := segWord_setWidth p (s.push s.eflags) .cs
  have h3 : State.Pushed s i [s.eip, segWord p (s.push s.eflags) .cs, s.eflags] :=
    ((((State.Pushed.refl s).push (by simp) s.eflags).push (by simp) _).push (by simp)
      s.eip).congr rfl rfl
  let u := pusha (i.push isr.irq)
  have h12 : State.Pushed s u _ := pusha_pushed (h3.push (by simp) isr.irq) (by simp)
  let ds := u.push (segWord p u .ds)
  let es := ds.push (segWord p ds .es)
  let fs := es.push (segWord p es .fs)
  have h13 : State.Pushed s ds _ := h12.push (by simp) (segWord p u .ds)
  have h14 : State.Pushed s es _ := h13.push (by simp) (segWord p ds .es)
  have h15 : State.Pushed s fs _ := h14.push (by simp) (segWord p es .fs)
  have h16 := h15.push (by simp) (segWord p fs .gs)
  refine ⟨_, _, h16, rfl, rfl, fun r hr => ?_, fun g => ?_, rfl, rfl, rfl⟩
  · cases r with
    | esp => exact absurd rfl hr
    | _ => rfl
  · cases g with
    | cs => exact hcs
    | ds => exact segWord_setWidth p u .ds
    | es => exact segWord_setWidth p ds .es
    | fs => exact segWord_setWidth p es .fs
    | gs => exact segWord_setWidth p fs .gs

theorem pushTrapframe_eflags (p : Model) (gate : BitVec 16 × Word) (isr : Isr) (s : State) :
    (pushTrapframe p gate isr s).eflags = s.eflags &&& ~~~gateFlags := rfl

/-- The rest of `kernel_enter`: the kernel stack, with the address of the trapframe on it. -/
theorem run_kernelStack (p : Model) (kstack ret : Word) (t : State) :
    let e := run p ((kernelEnter kstack ret).drop 5) t
    e.mem = store (store t.mem (kstack - 4) t.esp) (kstack - 4 - 4) ret ∧
      e.esp = kstack - 4 - 4 ∧ e.seg .ds = kdataSeg ∧ e.seg .es = kdataSeg ∧
      e.eflags = t.eflags &&& ~~~flagDf := by
  simp only [kernelEnter, List.drop, run_cons, run_nil, exec]
  have hdata : (BitVec.extractLsb' 16 16 (t.reg .eax) ++ kdataSeg).setWidth 16 = kdataSeg :=
    BitVec.setWidth_append_eq_right
  exact ⟨rfl, rfl, hdata, hdata, rfl⟩

/-- The words pushed on the kernel stack leave the trapframe alone. -/
theorem Room.frame_kept (h : Room kstack s) (m : Mem) (w w' : Word) {i : Nat} (hi : i < 64) :
    store (store m (kstack - 4) w) (kstack - 4 - 4) w' (s.esp - 64 + BitVec.ofNat 32 i) =
      m (s.esp - 64 + BitVec.ofNat 32 i) := by
  obtain ⟨hlow, hhigh⟩ := h
  have hsize : (64 : Nat) ≤ (kstack - 8 - (s.esp - 64)).toNat := hlow
  have hend : (kstack - 8 - (s.esp - 64)).toNat + 8 ≤ 2 ^ 32 := hhigh
  generalize s.esp - 64 = a at *
  rw [store_ne _ _ (by bv_omega), store_ne _ _ (by bv_omega)]

/-- `kernel_context_enter` is called with the address of the trapframe. -/
theorem enterContext_argument (p : Model) (gate : BitVec 16 × Word) (isr : Isr)
    (kstack ret : Word) (s : State) :
    load (enterContext p gate isr kstack ret s).mem ((enterContext p gate isr kstack ret s).esp + 4) =
      s.esp - 64 := by
  obtain ⟨ws, tf, hp, hlen, _, _⟩ := pushTrapframe_saves p gate isr s
  rw [enterContext_eq]
  obtain ⟨hmem, hesp, _⟩ := run_kernelStack p kstack ret (pushTrapframe p gate isr s)
  have harg : kstack - 4 - 4 + 4 = kstack - 4 := BitVec.sub_add_cancel ..
  rw [hesp, hmem, harg, load_store_below, load_store_self, hp.esp, hlen]
  rfl

theorem enterContext_entered (p : Model) (gate : BitVec 16 × Word) (isr : Isr) (ret : Word)
    (hroom : Room kstack s) : Entered s (enterContext p gate isr kstack ret s) isr kstack := by
  obtain ⟨ws, tf, hp, hlen, hws, hsaves⟩ := pushTrapframe_saves p gate isr s
  have hflags := pushTrapframe_eflags p gate isr s
  have harg := enterContext_argument p gate isr kstack ret s
  rw [enterContext_eq] at harg ⊢
  obtain ⟨hmem, hesp, hds, hes, heflags⟩ := run_kernelStack p kstack ret (pushTrapframe p gate isr s)
  generalize pushTrapframe p gate isr s = t at *
  generalize run p _ t = e at *
  have ha : t.esp = s.esp - 64 := by rw [hp.esp, hlen]; rfl
  have hback : kstack - 4 - 4 = kstack - 8 := by bv_omega
  rw [ha] at hmem
  refine ⟨⟨tf, ?_, hsaves⟩, harg, hesp.trans hback, ⟨hds, hes⟩, ?_, fun x hx hk => ?_⟩
  · rw [Trapframe.At, hmem, words_congr fun i hi => hroom.frame_kept t.mem _ _ hi]
    rw [← ha, ← hlen, hp.stack.1, hws]
  · rw [heflags, hflags, BitVec.and_assoc, BitVec.and_assoc]
    exact BitVec.and_zero
  · rw [hmem, store_ne _ _ (by bv_omega), store_ne _ _ (by bv_omega), hp.other x]
    rw [hlen, ha]
    exact hx

/-! ## Out of the kernel -/

/-- The registers of a trapframe at `a`, as `kernel_context_exit` loads them. -/
def Trapframe.resume (tf : Trapframe) (a : Word) (m : Mem) : State :=
  { reg := fun r => if r = .esp then a + 64 else tf.reg r, seg := tf.seg, eip := tf.eip,
    eflags := tf.eflags, mem := m }

theorem exitContext_resumes (p : Model) (harg : load t.mem (t.esp + 4) = a)
    (hframe : Trapframe.At t.mem a tf) : exitContext p t = tf.resume a t.mem := by
  have hesp : load t.mem (t.reg .esp + 4) = a := harg
  simp only [Trapframe.At, words, Trapframe.ofWords, Option.some.injEq] at hframe
  subst hframe
  simp only [exitContext, kernelContextExit, run_cons, run_nil, exec, hesp]
  apply State.ext
  · funext r
    cases r with
    | esp =>
      show a + 4 + 4 + 4 + 4 + 4 + 4 + 4 + 4 + 4 + 4 + 4 + 4 + 4 + 4 + 4 + 4 = a + 64
      bv_omega
    | _ => rfl
  · funext g
    cases g <;> rfl
  · rfl
  · rfl
  · rfl

/-- A trapframe that holds the registers of `s` brings back `s`. -/
theorem Trapframe.Saves.resume {irq : Word} (h : tf.Saves s irq) (m : Mem) :
    tf.resume (s.esp - 64) m = { s with mem := m } := by
  apply State.ext
  · funext r
    by_cases hr : r = .esp
    · rw [hr]
      exact BitVec.sub_add_cancel ..
    · exact (if_neg hr).trans (h.reg r hr)
  · exact funext h.seg
  · exact h.eip
  · exact h.eflags
  · rfl

/-- The trapframe with a result in it brings back `s` with the result in `eax`. -/
theorem Trapframe.Saves.resume_setResult {irq : Word} (h : tf.Saves s irq) (rc : Int) (m : Mem) :
    (tf.setResult rc).resume (s.esp - 64) m =
      { s.setReg .eax (BitVec.ofInt 32 rc) with mem := m } := by
  apply State.ext
  · funext r
    cases r with
    | eax => rfl
    | esp => exact BitVec.sub_add_cancel ..
    | ecx => exact h.reg .ecx nofun
    | edx => exact h.reg .edx nofun
    | ebx => exact h.reg .ebx nofun
    | ebp => exact h.reg .ebp nofun
    | esi => exact h.reg .esi nofun
    | edi => exact h.reg .edi nofun
  · exact funext h.seg
  · exact h.eip
  · exact h.eflags
  · rfl

/-! ## The round trip -/

/-- What the kernel leaves of an entry `e` for `kernel_context_exit`, called in `t`: it
passes the trapframe it was given, which is as it was. -/
structure LeftAlone (e t : State) : Prop where
  argument : load t.mem (t.esp + 4) = load e.mem (e.esp + 4)
  frame : ∀ i < 64, t.mem (load e.mem (e.esp + 4) + BitVec.ofNat 32 i) =
    e.mem (load e.mem (e.esp + 4) + BitVec.ofNat 32 i)

/-- A process that is interrupted and resumed has its registers, its segments, its flags
and its place in the code back, whatever the kernel did to the processor in between. -/
theorem context_round_trip (p : Model) (gate : BitVec 16 × Word) (isr : Isr) (ret : Word)
    (hroom : Room kstack s) (h : LeftAlone (enterContext p gate isr kstack ret s) t) :
    Entered s (enterContext p gate isr kstack ret s) isr kstack ∧
      exitContext p t = { s with mem := t.mem } := by
  have he := enterContext_entered p gate isr ret hroom
  obtain ⟨tf, hat, hsaves⟩ := he.frame
  obtain ⟨harg, hkept⟩ := h
  rw [he.argument] at harg hkept
  refine ⟨he, ?_⟩
  rw [exitContext_resumes p harg (hat.congr hkept), hsaves.resume]

/-- A processor that pushes segment registers with zeros above them. -/
def plainModel : Model := ⟨fun _ _ => 0, fun flags _ _ => flags⟩

/-- A process that has its stack at `0x10000`. -/
def plainState : State :=
  { reg := fun r => if r = .esp then 0x10000 else 7, seg := fun _ => 16, eip := 0x1000
    eflags := 0x202, mem := fun _ => 0 }

/-- The kernel stack may be at `0x20000`. -/
theorem plainState_room : Room 0x20000 plainState := by
  constructor <;> decide

/-- A kernel that does nothing but return. -/
theorem context_round_trip_plain :
    let e := enterContext plainModel (8, 0x4000) .timer 0x20000 0x5000 plainState
    exitContext plainModel e = { plainState with mem := e.mem } :=
  (context_round_trip plainModel (8, 0x4000) .timer 0x5000 plainState_room ⟨rfl, fun _ _ => rfl⟩).2

end UnivOS
