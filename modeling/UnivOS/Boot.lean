import UnivOS.Table
import Mathlib.Data.List.Range

/-! # Initialisation

`kernelInit` always succeeds. `Booted n` is the state after `n` processes have
been created in the fresh table: the processes `0 .. n - 1` fill the first
entries and wait in the run queue in order.
-/
namespace UnivOS
namespace Kernel
open Word

structure Booted (n : Nat) (k : Kernel) : Prop where
  alloc : k.procAllocator.toList = (List.range' n (procMax - n)).map Int.ofNat
  run : k.runQueue.toList = (List.range n).map Int.ofNat
  sleep : k.sleepQueue.toList = []
  nextPid : k.nextPid = n
  active : k.activeProc = none
  used : ∀ i : Fin procMax, (i : Nat) < n → (k.procTable i).pid = (i : Nat) ∧
    (k.procTable i).state = .idle ∧ (k.procTable i).cpuTime = 0
  free : ∀ i : Fin procMax, n ≤ (i : Nat) → k.procTable i = Proc.zero

variable {k : Kernel} {n : Nat}

/-- A process created during initialisation gets the next entry and process id. -/
theorem Booted.kprocCreate (h : Booted n k) (hn : n < procMax) {ptr : BitVec 32} (hptr : ptr ≠ 0)
    (name : List Byte) (type : ProcType) :
    ∃ k', k.kprocCreate ptr (some name) type = .ok ((n : Int), k') ∧ Booted (n + 1) k' := by
  have hcons : k.procAllocator.toList =
      (n : Int) :: (List.range' (n + 1) (procMax - (n + 1))).map Int.ofNat := by
    rw [h.alloc, show procMax - n = procMax - (n + 1) + 1 by omega, List.range'_succ]
    rfl
  obtain ⟨q, hq, hql⟩ := Queue.queueOut_cons hcons
  have hmax : procMax = 20 := rfl
  have hin : InInt32 (k.nextPid + 1) := by
    rw [h.nextPid]; exact ⟨by omega, by omega⟩
  have hroom : k.runQueue.toList.length < queueSize := by
    rw [h.run, List.length_map, List.length_range]
    exact Nat.lt_trans hn (by decide)
  let i : Fin procMax := ⟨n, hn⟩
  have hindex : index procMax (n : Int) = some i := index_val i
  let p := k.newProc i name type
  let m := k.newStack i ptr
  obtain ⟨q', hadd, hql'⟩ := (k.allotProc i p q m).schedulerAdd_ok i hroom
  have hpid : (k.allotProc i p q m).procTable i = p := allotProc_self k p q m
  refine ⟨(k.allotProc i p q m).runnable i q', ?_, ?_⟩
  · rw [Kernel.kprocCreate]
    rw [if_neg hptr, hq]
    simp only [hindex]
    rw [if_pos hin, hadd, Loop.ok_bind, runnable_pid, hpid, show p.pid = k.nextPid from rfl, h.nextPid]
  have hother : ∀ j : Fin procMax, (j : Nat) ≠ n →
      ((k.allotProc i p q m).runnable i q').procTable j = k.procTable j := by
    intro j hj
    have hji : j ≠ i := fun he => hj (congrArg Fin.val he)
    rw [runnable_ne _ _ hji, allotProc_ne k p q m hji]
  refine ⟨hql, ?_, h.sleep, ?_, h.active, fun j hj => ?_, fun j hj => ?_⟩
  · rw [runnable_runQueue, hql', hpid, show p.pid = k.nextPid from rfl, h.nextPid,
      show (k.allotProc i p q m).runQueue = k.runQueue from rfl, h.run, List.range_succ,
      List.map_append]
    rfl
  · show k.nextPid + 1 = _
    rw [h.nextPid]
    rfl
  · by_cases hjn : (j : Nat) = n
    · obtain rfl : j = i := Fin.ext hjn
      rw [runnable_pid, hpid, runnable_state, runnable_cpuTime]
      exact ⟨h.nextPid, rfl, rfl⟩
    · rw [hother j hjn]
      exact h.used j (by omega)
  · rw [hother j (by omega)]
    exact h.free j (by omega)

theorem Booted.live (h : Booted n k) (i : Fin procMax) : k.Live i ↔ (i : Nat) < n := by
  unfold Live
  by_cases hi : (i : Nat) < n
  · rw [(h.used i hi).2.1]; simp [hi]
  · rw [h.free i (by omega)]; simp [Proc.zero, hi]

theorem Booted.tableOk (h : Booted n k) (h0 : 0 < n) : TableOk k where
  alloc := by
    rw [h.alloc]
    refine ⟨(List.nodup_range' (h := Nat.one_pos)).map fun _ _ => Int.ofNat_inj.mp, fun x => ?_⟩
    rw [List.mem_map]
    constructor
    · rintro ⟨m, hm, rfl⟩
      rw [List.mem_range'_1] at hm
      refine ⟨⟨m, by omega⟩, rfl, ?_⟩
      rw [h.live]
      exact Nat.not_lt.mpr hm.1
    · rintro ⟨i, rfl, hi⟩
      rw [h.live] at hi
      exact ⟨i, by rw [List.mem_range'_1]; omega, rfl⟩
  free_pid i hi := by
    rw [h.live] at hi
    rw [h.free i (Nat.le_of_not_lt hi)]
    rfl
  pid_inj i j hi hj he := by
    rw [h.live] at hi hj
    rw [(h.used i hi).1, (h.used j hj).1] at he
    exact IdPool.val_inj.mp he
  pid_range i hi := by
    rw [h.live] at hi
    rw [(h.used i hi).1, h.nextPid]
    omega
  idle_live := (h.live idleProc).mpr h0
  idle_pid := (h.used idleProc h0).1
  active_live i hi := by
    rw [h.active] at hi
    cases hi

/-- Attaching a terminal changes nothing else. -/
theorem Booted.kprocAttachTty (h : Booted (n + 1) k) (hn : n < procMax) {t : Int}
    (ht : ∃ tty, Ttys.ttyGet t = .ok tty) :
    ∃ k', k.kprocAttachTty (n : Int) t = .ok (0, k') ∧ Booted (n + 1) k' := by
  obtain ⟨tty, htty⟩ := ht
  let i : Fin procMax := ⟨n, hn⟩
  have hpid := (h.used i (Nat.lt_succ_self n)).1
  have hfind : k.pidToProc (n : Int) = some i := by
    rw [← hpid]
    exact (h.tableOk n.succ_pos).pidToProc_pid ((h.live i).mpr (Nat.lt_succ_self n))
  refine ⟨k.modifyProc i fun p => { p with io := attachedIo tty p.io }, ?_, ?_⟩
  · rw [Kernel.kprocAttachTty, htty, hfind]
    rfl
  · refine ⟨h.alloc, h.run, h.sleep, h.nextPid, h.active, fun j hj => ?_, fun j hj => ?_⟩
    · by_cases hji : j = i
      · rw [hji, modifyProc_self]; exact h.used i (Nat.lt_succ_self n)
      · rw [modifyProc_ne k _ hji]; exact h.used j hj
    · have hji : j ≠ i := fun he => by rw [he] at hj; exact absurd hj (Nat.not_succ_le_self n)
      rw [modifyProc_ne k _ hji]
      exact h.free j hj

/-- A program that can be started: it has an address and, for every process id, a terminal. -/
def Startable (p : BitVec 32 × String × (Int → Int)) : Prop :=
  p.1 ≠ 0 ∧ ∀ pid : Nat, ∃ tty, Ttys.ttyGet (p.2.2 pid) = .ok tty

theorem Booted.startProgram (h : Booted n k) (hn : n < procMax)
    {p : BitVec 32 × String × (Int → Int)} (hp : Startable p) :
    ∃ k', k.startProgram p = .ok k' ∧ Booted (n + 1) k' := by
  obtain ⟨k₁, h₁, hb₁⟩ := h.kprocCreate hn hp.1 (cstring p.2.1) .user
  obtain ⟨k₂, h₂, hb₂⟩ := hb₁.kprocAttachTty hn (hp.2 n)
  exact ⟨k₂, by rw [Kernel.startProgram, h₁, Loop.ok_bind]; dsimp only; rw [h₂]; rfl, hb₂⟩

theorem Booted.startAll : ∀ (l : List (BitVec 32 × String × (Int → Int))) {n : Nat} {k : Kernel},
    Booted n k → n + l.length ≤ procMax → (∀ p ∈ l, Startable p) →
    ∃ k', l.foldlM Kernel.startProgram k = .ok k' ∧ Booted (n + l.length) k'
  | [], n, k, h, _, _ => ⟨k, rfl, h⟩
  | p :: l, n, k, h, hn, hp => by
    rw [List.length_cons] at hn
    obtain ⟨k₁, h₁, hb₁⟩ := h.startProgram (by omega) (hp p List.mem_cons_self)
    obtain ⟨k₂, h₂, hb₂⟩ := startAll l hb₁ (by omega) fun x hx => hp x (List.mem_cons_of_mem p hx)
    refine ⟨k₂, ?_, ?_⟩
    · rw [List.foldlM_cons, h₁, Loop.ok_bind, h₂]
    · rw [List.length_cons, ← Nat.add_assoc, Nat.add_right_comm]; exact hb₂

theorem ttyGet_ok {t : Int} (h : 0 ≤ t ∧ t < ttyMax) : ∃ tty, Ttys.ttyGet t = .ok tty := by
  unfold Ttys.ttyGet
  rw [index, dif_pos h]
  exact ⟨_, rfl⟩

theorem startPrograms_startable (img : Image) : ∀ p ∈ startPrograms img, Startable p := by
  have hmax : (ttyMax : Int) = 10 := rfl
  have hpong : ∀ pid : Nat, ∃ tty, Ttys.ttyGet (ttyMax - (pid : Int).tmod 2 - 1) = .ok tty := by
    intro pid
    apply ttyGet_ok
    rw [Int.tmod_eq_emod_of_nonneg (Int.natCast_nonneg pid)]
    omega
  intro p hp
  rw [startPrograms, List.mem_append, List.mem_append, List.mem_map] at hp
  rcases hp with (⟨i, hi, rfl⟩ | hp) | hp
  · rw [List.mem_range] at hi
    exact ⟨img.shell_ne, fun _ => ttyGet_ok ⟨by dsimp only; omega, by dsimp only; omega⟩⟩
  · rw [List.eq_of_mem_replicate hp]
    exact ⟨img.ping_ne, hpong⟩
  · rw [List.eq_of_mem_replicate hp]
    exact ⟨img.pong_ne, hpong⟩

/-- The state `main` starts with: eleven processes wait to run, no mutex or
semaphore is in use. -/
structure Initial (k : Kernel) : Prop extends Booted 11 k where
  mutexes : ∀ m, k.mutexes m = Mutex.zero
  mutexQueue : k.mutexQueue.toList = (List.range mutexMax).map Int.ofNat

/-- The fresh table `kproc_init` starts from. -/
theorem booted_zero (img : Image) (ttys : Ttys) : Booted 0 { zero img with
    ttys := ttys, procAllocator := Queue.fill procMax, procTable := fun _ => Proc.zero } := by
  refine ⟨?_, rfl, rfl, rfl, rfl, fun i hi => absurd hi (Nat.not_lt_zero _), fun _ _ => rfl⟩
  rw [Queue.fill_toList (by decide), List.range_eq_range', Nat.sub_zero]

/-- `kproc_init` starts the first eleven processes. -/
theorem kprocInit_ok (img : Image) (ttys : Ttys) :
    ∃ k, ({ zero img with ttys } : Kernel).kprocInit img = .ok k ∧ Booted 11 k := by
  have hb₀ := booted_zero img ttys
  obtain ⟨k₁, h₁, hb₁⟩ := hb₀.kprocCreate (by decide) img.idle_ne (cstring "idle") .kernel
  have hlen : (startPrograms img).length = 10 := rfl
  obtain ⟨k₂, h₂, hb₂⟩ := Booted.startAll (startPrograms img) hb₁ (by rw [hlen]; decide)
    (startPrograms_startable img)
  refine ⟨k₂, ?_, hb₂⟩
  rw [Kernel.kprocInit]
  dsimp only
  rw [h₁, Loop.ok_bind, h₂]

theorem kernelInit_ok (img : Image) : ∃ k, kernelInit img = .ok k ∧ Initial k := by
  obtain ⟨k, hk, hb⟩ := kprocInit_ok img Ttys.ttyInitial
  have hinit : kernelInit img = .ok k.ksemaphoresInit.kmutexesInit := by
    rw [kernelInit, Ttys.ttyInit_eq, Loop.ok_bind, hk, Loop.ok_bind]
  refine ⟨_, hinit, ⟨hb.alloc, hb.run, hb.sleep, hb.nextPid, hb.active, hb.used, hb.free⟩,
    fun _ => rfl, ?_⟩
  exact Queue.fill_toList (by decide)

theorem Initial.of_kernelInit {img : Image} (h : kernelInit img = .ok k) : Initial k := by
  obtain ⟨k', h', hi⟩ := kernelInit_ok img
  rw [h'] at h
  cases h
  exact hi

/-- The start of the runs of kernel entries. -/
def Start (k : Kernel) : Prop := ∃ img, kernelInit img = .ok k

/-- Every state a kernel entry can find has its process table in order. -/
theorem tableOk_of_run {allowed : List KernelStep → Kernel → Entry → Prop}
    {tr : List KernelStep} (h : Trace.Run Start (Trace.Exec kernelContextEnter allowed) tr k) :
    TableOk k := by
  refine h.state_invariant ?_ ?_
  · rintro k ⟨img, hk⟩
    exact (Initial.of_kernelInit hk).tableOk (by decide)
  · intro tr k a k' _ hn ht
    exact (kernelContextEnter_tableOk ht hn.2).1

end Kernel
end UnivOS
