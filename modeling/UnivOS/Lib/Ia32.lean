import Mathlib.Algebra.Group.Nat.Defs
import Mathlib.Data.List.Basic

/-! # A 32-bit processor and its stack

Byte memory read and written in words, the registers, and the instructions a context
switch is made of. Code is a straight line of instructions: what it jumps to or calls
is the next list. A word pushed is a word on top of the stack (`Stack`), and popping it
gives it back; everything else follows from these two.
-/
namespace Ia32

abbrev Word := BitVec 32

abbrev Mem := Word → BitVec 8

inductive Reg
  | eax
  | ecx
  | edx
  | ebx
  | esp
  | ebp
  | esi
  | edi
deriving DecidableEq, Repr

inductive Seg
  | cs
  | ds
  | es
  | fs
  | gs
deriving DecidableEq, Repr

/-- `eip` is that of the code which is interrupted, or returned to. -/
@[ext] structure State where
  reg : Reg → Word
  seg : Seg → BitVec 16
  eip : Word
  eflags : Word
  mem : Mem

/-- What processors differ in: the upper half of a segment register pushed as a word,
and the flags an addition leaves. -/
structure Model where
  upper : Mem → Word → BitVec 16
  addFlags : Word → Word → Word → Word

/-! ## Words in memory -/

/-- The word at an address, lowest byte first. -/
def load (m : Mem) (a : Word) : Word := m (a + 3) ++ m (a + 2) ++ m (a + 1) ++ m a

def store (m : Mem) (a w : Word) : Mem := fun x =>
  if (x - a).toNat < 4 then (w >>> (8 * (x - a).toNat)).setWidth 8 else m x

/-- The words from an address on. -/
def words (m : Mem) : Word → Nat → List Word
  | _, 0 => []
  | a, n + 1 => load m a :: words m (a + 4) n

/-- Words stored from an address on. -/
def storeWords (m : Mem) : Word → List Word → Mem
  | _, [] => m
  | a, w :: ws => store (storeWords m (a + 4) ws) a w

variable {m m' : Mem} {a b w x : Word} {n : Nat} {ws : List Word}

theorem store_self (m : Mem) (a w : Word) (i : Nat) (hi : i < 4) :
    store m a w (a + BitVec.ofNat 32 i) = (w >>> (8 * i)).setWidth 8 := by
  have hsub : (a + BitVec.ofNat 32 i - a).toNat = i := by bv_omega
  rw [store, hsub, if_pos hi]

theorem store_ne (m : Mem) (w : Word) (h : 4 ≤ (x - a).toNat) : store m a w x = m x :=
  if_neg (Nat.not_lt.mpr h)

theorem load_store_self (m : Mem) (a w : Word) : load (store m a w) a = w := by
  have h0 := store_self m a w 0 (by decide)
  have h1 := store_self m a w 1 (by decide)
  have h2 := store_self m a w 2 (by decide)
  have h3 := store_self m a w 3 (by decide)
  rw [BitVec.add_zero] at h0
  unfold load
  rw [h0]
  show store m a w (a + BitVec.ofNat 32 3) ++ store m a w (a + BitVec.ofNat 32 2) ++
    store m a w (a + BitVec.ofNat 32 1) ++ _ = w
  rw [h1, h2, h3]
  apply BitVec.eq_of_getLsbD_eq
  intro i hi
  show (_ ++ _ : BitVec (8 + 8 + 8 + 8)).getLsbD i = _
  simp only [BitVec.getLsbD_append, BitVec.getLsbD_setWidth, BitVec.getLsbD_ushiftRight]
  split
  · simp [*]
  · split
    · simp only [decide_true, Bool.true_and, show i - 8 < 8 by omega]
      congr 1
      omega
    · split
      · simp only [decide_true, Bool.true_and, show i - 8 - 8 < 8 by omega]
        congr 1
        omega
      · simp only [decide_true, Bool.true_and, show i - 8 - 8 - 8 < 8 by omega]
        congr 1
        omega

/-- A word depends on its four bytes only. -/
theorem load_congr (h : ∀ i < 4, m' (a + BitVec.ofNat 32 i) = m (a + BitVec.ofNat 32 i)) :
    load m' a = load m a := by
  have h0 := h 0 (by decide)
  have h1 := h 1 (by decide)
  have h2 := h 2 (by decide)
  have h3 := h 3 (by decide)
  rw [BitVec.add_zero] at h0
  unfold load
  rw [h0]
  congr 1
  congr 1
  congr 1

/-- The words of a block depend on the bytes of the block only. -/
theorem words_congr (h : ∀ i < 4 * n, m' (a + BitVec.ofNat 32 i) = m (a + BitVec.ofNat 32 i)) :
    words m' a n = words m a n := by
  induction n generalizing a with
  | zero => rfl
  | succ n ih =>
    rw [words, words, load_congr fun i hi => h i (by omega), ih]
    intro i hi
    have hi' := h (i + 4) (by omega)
    have ha : a + 4 + BitVec.ofNat 32 i = a + BitVec.ofNat 32 (i + 4) := by bv_omega
    rw [ha]
    exact hi'

theorem words_length (m : Mem) (a : Word) (n : Nat) : (words m a n).length = n := by
  induction n generalizing a with
  | zero => rfl
  | succ n ih => rw [words, List.length_cons, ih]

/-- A store in front of a block, as long as they do not meet at the other end. -/
theorem words_store (m : Mem) (a w : Word) (hn : 4 * n + 4 ≤ 2 ^ 32) :
    words (store m a w) (a + 4) n = words m (a + 4) n := by
  refine words_congr fun i hi => store_ne m w ?_
  have hsub : (a + 4 + BitVec.ofNat 32 i - a).toNat = 4 + i := by bv_omega
  omega

/-- A store into a block. -/
theorem words_store_at (m : Mem) (w : Word) : ∀ {n i : Nat} {a : Word}, i < n → 4 * n ≤ 2 ^ 32 →
    words (store m (a + BitVec.ofNat 32 (4 * i)) w) a n = (words m a n).set i w
  | n + 1, 0, a, _, hn => by
    have ha : a + BitVec.ofNat 32 (4 * 0) = a := BitVec.add_zero a
    rw [ha, words, words, load_store_self, words_store _ _ _ (by omega), List.set_cons_zero]
  | n + 1, i + 1, a, hi, hn => by
    have ha : a + BitVec.ofNat 32 (4 * (i + 1)) = a + 4 + BitVec.ofNat 32 (4 * i) := by bv_omega
    have hhead : load (store m (a + BitVec.ofNat 32 (4 * (i + 1))) w) a = load m a :=
      load_congr fun j hj => store_ne m w (by bv_omega)
    rw [words, words, hhead, ha, words_store_at m w (by omega) (by omega), List.set_cons_succ]

/-- Words that are stored can be read back. -/
theorem words_storeWords (m : Mem) : ∀ (a : Word) (ws : List Word), 4 * ws.length ≤ 2 ^ 32 →
    words (storeWords m a ws) a ws.length = ws
  | _, [], _ => rfl
  | a, w :: ws, h => by
    rw [List.length_cons] at h
    rw [List.length_cons, words, storeWords, load_store_self, words_store _ _ _ (by omega),
      words_storeWords m (a + 4) ws (by omega)]

theorem storeWords_ne (m : Mem) : ∀ (a : Word) (ws : List Word), 4 * ws.length ≤ (x - a).toNat →
    storeWords m a ws x = m x
  | _, [], _ => rfl
  | a, w :: ws, h => by
    rw [List.length_cons] at h
    rw [storeWords, store_ne _ _ (by omega)]
    refine storeWords_ne m (a + 4) ws ?_
    bv_omega

theorem load_store_below (m : Mem) (a w : Word) : load (store m (a - 4) w) a = load m a := by
  have h := words_store (n := 1) m (a - 4) w (by simp)
  rw [BitVec.sub_add_cancel] at h
  exact (List.cons.inj h).1

/-! ## The stack -/

namespace State

variable {s t : State} {r : Reg} {g : Seg}

def setReg (s : State) (r : Reg) (w : Word) : State :=
  { s with reg := fun r' => if r' = r then w else s.reg r' }

def setSeg (s : State) (g : Seg) (v : BitVec 16) : State :=
  { s with seg := fun g' => if g' = g then v else s.seg g' }

def esp (s : State) : Word := s.reg .esp

def push (w : Word) (s : State) : State :=
  { s.setReg .esp (s.esp - 4) with mem := store s.mem (s.esp - 4) w }

/-- The word on top of the stack. -/
def top (s : State) : Word := load s.mem s.esp

/-- The stack without it. -/
def drop (s : State) : State := s.setReg .esp (s.esp + 4)

/-- The words on top of the stack. -/
def Stack (s : State) (ws : List Word) : Prop :=
  words s.mem s.esp ws.length = ws ∧ 4 * ws.length ≤ 2 ^ 32

/-- Memory is the same outside the `n` bytes from `a` on. -/
def SameBut (a : Word) (n : Nat) (s t : State) : Prop :=
  ∀ x, n ≤ (x - a).toNat → t.mem x = s.mem x

@[simp] theorem setReg_self : (s.setReg r w).reg r = w := if_pos rfl

theorem setReg_ne {r' : Reg} (h : r' ≠ r) : (s.setReg r w).reg r' = s.reg r' := if_neg h

@[simp] theorem setReg_mem : (s.setReg r w).mem = s.mem := rfl

@[simp] theorem push_esp : (s.push w).esp = s.esp - 4 := rfl

theorem push_reg (h : r ≠ .esp) : (s.push w).reg r = s.reg r := setReg_ne h

@[simp] theorem push_seg : (s.push w).seg = s.seg := rfl

@[simp] theorem push_eip : (s.push w).eip = s.eip := rfl

@[simp] theorem push_eflags : (s.push w).eflags = s.eflags := rfl

@[simp] theorem drop_esp : s.drop.esp = s.esp + 4 := setReg_self

theorem drop_reg (h : r ≠ .esp) : s.drop.reg r = s.reg r := setReg_ne h

@[simp] theorem drop_mem : s.drop.mem = s.mem := rfl

theorem Stack.nil (s : State) : s.Stack [] := ⟨rfl, by simp⟩

theorem Stack.push (h : s.Stack ws) (hn : 4 * ws.length + 4 ≤ 2 ^ 32) (w : Word) :
    (s.push w).Stack (w :: ws) := by
  refine ⟨?_, by rw [List.length_cons]; omega⟩
  have hback : s.esp - 4 + 4 = s.esp := by bv_omega
  have hmem : (s.push w).mem = store s.mem (s.esp - 4) w := rfl
  rw [List.length_cons, push_esp, words, hmem, load_store_self, words_store _ _ _ hn, hback, h.1]

theorem Stack.top (h : s.Stack (w :: ws)) : s.top = w := by
  have hw := h.1
  rw [List.length_cons, words] at hw
  exact (List.cons.inj hw).1

theorem Stack.drop (h : s.Stack (w :: ws)) : s.drop.Stack ws := by
  obtain ⟨hw, hn⟩ := h
  rw [List.length_cons] at hn
  rw [List.length_cons, words] at hw
  refine ⟨?_, by omega⟩
  rw [drop_esp, drop_mem]
  exact (List.cons.inj hw).2

/-- What is not about memory or the stack pointer does not matter to the stack. -/
theorem Stack.congr (h : s.Stack ws) (hmem : t.mem = s.mem) (hesp : t.esp = s.esp) :
    t.Stack ws := by
  unfold Stack
  rw [hmem, hesp]
  exact h

/-- A push below a block makes the block longer by a word. -/
theorem SameBut.push (h : SameBut t.esp n s t) (hn : n + 4 ≤ 2 ^ 32) (w : Word) :
    SameBut (t.push w).esp (n + 4) s (t.push w) := by
  intro x hx
  rw [push_esp] at hx
  have hmem : (t.push w).mem = store t.mem (t.esp - 4) w := rfl
  rw [hmem, store_ne t.mem w (by omega)]
  refine h x ?_
  bv_omega

/-- `t` has these words on top of the stack of `s`, and the memory of `s` elsewhere. -/
structure Pushed (s t : State) (ws : List Word) : Prop where
  stack : t.Stack ws
  esp : t.esp = s.esp - BitVec.ofNat 32 (4 * ws.length)
  other : SameBut t.esp (4 * ws.length) s t

theorem Pushed.refl (s : State) : Pushed s s [] :=
  ⟨.nil s, (BitVec.sub_zero _).symm, fun _ _ => rfl⟩

theorem Pushed.push (h : Pushed s t ws) (hn : 4 * ws.length + 4 ≤ 2 ^ 32) (w : Word) :
    Pushed s (t.push w) (w :: ws) := by
  refine ⟨h.stack.push hn w, ?_, h.other.push hn w⟩
  rw [push_esp, h.esp, List.length_cons]
  bv_omega

theorem Pushed.congr {t' : State} (h : Pushed s t ws) (hmem : t'.mem = t.mem)
    (hesp : t'.esp = t.esp) : Pushed s t' ws := by
  refine ⟨h.stack.congr hmem hesp, hesp.trans h.esp, fun x hx => ?_⟩
  rw [hesp] at hx
  rw [hmem, h.other x hx]

end State

/-! ## Instructions -/

/-- What a compiler puts in place of a value. -/
inductive Operand
  | imm (w : Word)
  | reg (r : Reg)
  | mem (base : Reg) (disp : Word)

def Operand.value (o : Operand) (s : State) : Word :=
  match o with
  | .imm w => w
  | .reg r => s.reg r
  | .mem base disp => load s.mem (s.reg base + disp)

/-- The operand does not depend on the registers `rs`. -/
def Operand.Avoids (rs : List Reg) : Operand → Prop
  | .imm _ => True
  | .reg r => r ∉ rs
  | .mem base _ => base ∉ rs

theorem Operand.value_congr {o : Operand} {rs : List Reg} {s t : State} (ho : o.Avoids rs)
    (hreg : ∀ r, r ∉ rs → t.reg r = s.reg r) (hmem : t.mem = s.mem) : o.value t = o.value s := by
  cases o with
  | imm w => rfl
  | reg r => exact hreg r ho
  | mem base disp =>
    show load t.mem (t.reg base + disp) = load s.mem (s.reg base + disp)
    rw [hmem, hreg base ho]

inductive Instr
  | pushImm (w : Word)
  | pushReg (r : Reg)
  | pushSeg (g : Seg)
  | pusha
  | popSeg (g : Seg)
  | popa
  | movReg (dst src : Reg)
  /-- Into the lower half of a register. -/
  | movImm16 (dst : Reg) (v : BitVec 16)
  | mov (dst : Reg) (src : Operand)
  | movSeg (dst : Seg) (src : Reg)
  | movMem (dst base : Reg) (disp : Word)
  | lea (dst : Reg) (addr : Word)
  | addImm (dst : Reg) (w : Word)
  | cld
  /-- With the return address pushed. -/
  | call (ret : Word)
  | iret

/-- A segment register as a word. -/
def segWord (p : Model) (s : State) (g : Seg) : Word := p.upper s.mem (s.esp - 4) ++ s.seg g

theorem segWord_setWidth (p : Model) (s : State) (g : Seg) :
    (segWord p s g).setWidth 16 = s.seg g := BitVec.setWidth_append_eq_right

def pushSeg (p : Model) (g : Seg) (s : State) : State := s.push (segWord p s g)

/-- `esp` is pushed as it was before, and skipped when it is popped. -/
def pusha (s : State) : State :=
  (((((((s.push (s.reg .eax)).push (s.reg .ecx)).push (s.reg .edx)).push (s.reg .ebx)).push
    (s.reg .esp)).push (s.reg .ebp)).push (s.reg .esi)).push (s.reg .edi)

theorem pusha_pushed {s t : State} {ws : List Word} (h : State.Pushed s t ws)
    (hn : 4 * ws.length + 32 ≤ 2 ^ 32) :
    State.Pushed s (pusha t) (t.reg .edi :: t.reg .esi :: t.reg .ebp :: t.reg .esp ::
      t.reg .ebx :: t.reg .edx :: t.reg .ecx :: t.reg .eax :: ws) := by
  have hlen : ∀ (w : Word) (l : List Word), (w :: l).length = l.length + 1 := fun _ _ => rfl
  have h1 := h.push (by omega) (t.reg .eax)
  have h2 := h1.push (by simp only [hlen]; omega) (t.reg .ecx)
  have h3 := h2.push (by simp only [hlen]; omega) (t.reg .edx)
  have h4 := h3.push (by simp only [hlen]; omega) (t.reg .ebx)
  have h5 := h4.push (by simp only [hlen]; omega) (t.reg .esp)
  have h6 := h5.push (by simp only [hlen]; omega) (t.reg .ebp)
  have h7 := h6.push (by simp only [hlen]; omega) (t.reg .esi)
  exact h7.push (by simp only [hlen]; omega) (t.reg .edi)

def popReg (r : Reg) (s : State) : State := s.drop.setReg r s.top

def popSeg (g : Seg) (s : State) : State := s.drop.setSeg g (s.top.setWidth 16)

def popa (s : State) : State :=
  popReg .eax (popReg .ecx (popReg .edx (popReg .ebx (State.drop (popReg .ebp (popReg .esi
    (popReg .edi s)))))))

/-- The direction flag and the interrupt flag; and those an interrupt gate clears,
which the last of the two is one of. -/
def flagDf : Word := 0x400
def flagIf : Word := 0x200
def gateFlags : Word := 0x34300

def popFlags (s : State) : State := { s.drop with eflags := s.top }

def popEip (s : State) : State := { s.drop with eip := s.top }

def exec (p : Model) (s : State) : Instr → State
  | .pushImm w => s.push w
  | .pushReg r => s.push (s.reg r)
  | .pushSeg g => pushSeg p g s
  | .pusha => pusha s
  | .popSeg g => popSeg g s
  | .popa => popa s
  | .movReg dst src => s.setReg dst (s.reg src)
  | .movImm16 dst v => s.setReg dst ((s.reg dst).extractLsb' 16 16 ++ v)
  | .mov dst src => s.setReg dst (src.value s)
  | .movSeg dst src => s.setSeg dst ((s.reg src).setWidth 16)
  | .movMem dst base disp => s.setReg dst (load s.mem (s.reg base + disp))
  | .lea dst addr => s.setReg dst addr
  | .addImm dst w =>
    { s.setReg dst (s.reg dst + w) with eflags := p.addFlags s.eflags (s.reg dst) w }
  | .cld => { s with eflags := s.eflags &&& ~~~flagDf }
  | .call ret => s.push ret
  | .iret => popFlags (popSeg .cs (popEip s))

def run (p : Model) (code : List Instr) (s : State) : State := code.foldl (exec p) s

@[simp] theorem run_nil (p : Model) (s : State) : run p [] s = s := rfl

@[simp] theorem run_cons (p : Model) (i : Instr) (code : List Instr) (s : State) :
    run p (i :: code) s = run p code (exec p s i) := rfl

/-- Values moved into registers. -/
def moves (l : List (Reg × Operand)) : List Instr := l.map fun x => .mov x.1 x.2

/-- Where no operand depends on a register that is written, each register gets the value
its operand had at the start, and nothing else changes. -/
theorem run_moves {rs : List Reg} (p : Model) : ∀ {l : List (Reg × Operand)} (s : State),
    (l.map Prod.fst).Nodup → (∀ x ∈ l, x.1 ∈ rs ∧ x.2.Avoids rs) →
    (∀ x ∈ l, (run p (moves l) s).reg x.1 = x.2.value s) ∧
      (∀ r, r ∉ l.map Prod.fst → (run p (moves l) s).reg r = s.reg r) ∧
      run p (moves l) s = { s with reg := (run p (moves l) s).reg }
  | [], s, _, _ => ⟨nofun, fun _ _ => rfl, rfl⟩
  | x :: l, s, hnodup, hl => by
    obtain ⟨hx, hnodup⟩ := List.nodup_cons.mp hnodup
    obtain ⟨hmem, hl⟩ := List.forall_mem_cons.mp hl
    obtain ⟨hvalue, hother, hframe⟩ := run_moves p (s.setReg x.1 (x.2.value s)) hnodup hl
    have hrun : run p (moves (x :: l)) s = run p (moves l) (s.setReg x.1 (x.2.value s)) := rfl
    rw [hrun]
    refine ⟨List.forall_mem_cons.mpr ⟨?_, fun y hy => ?_⟩, fun r hr => ?_, hframe⟩
    · rw [hother x.1 hx, State.setReg_self]
    · rw [hvalue y hy]
      refine Operand.value_congr (hl y hy).2 (fun r hr => State.setReg_ne ?_) rfl
      rintro rfl
      exact hr hmem.1
    · rw [List.map_cons, List.mem_cons, not_or] at hr
      rw [hother r hr.2, State.setReg_ne hr.1]

/-- An interrupt through a gate, without a change of privilege: the flags, `cs` and `eip`
are pushed and interrupts are off. -/
def interrupt (p : Model) (gate : BitVec 16 × Word) (s : State) : State :=
  let t := pushSeg p .cs (s.push s.eflags)
  { (t.push s.eip).setSeg .cs gate.1 with
    eip := gate.2, eflags := s.eflags &&& ~~~gateFlags }

end Ia32
