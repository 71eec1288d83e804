import UnivOS.Boot
import UnivOS.Lib.Places

/-! # Where the processes are

The processor, the two scheduler queues and the wait queues of the mutexes are
places, and process ids move between them. `Located k loc`: each process is in
the one place that its state names. Every operation that schedules is a move of
one process (`Moved`), and a move keeps `Located`.
-/
namespace UnivOS

inductive Place
  | cpu
  | run
  | sleep
  | wait (m : Fin mutexMax)
deriving DecidableEq

/-- The state of a process in this place. -/
def Place.state : Place → ProcState
  | .cpu => .active
  | .run => .idle
  | .sleep => .sleeping
  | .wait _ => .waiting

/-- Only the idle task can be nowhere; it rests there. -/
def stateAt : Option Place → ProcState
  | none => .idle
  | some w => w.state

theorem stateAt_ne_none (w : Option Place) : stateAt w ≠ .none := by
  rcases w with _ | (_ | _ | _ | m) <;> exact nofun

theorem stateAt_eq_active {w : Option Place} : stateAt w = .active ↔ w = some .cpu := by
  rcases w with _ | (_ | _ | _ | m) <;> simp [stateAt, Place.state]

namespace Kernel
open Word

/-- The process ids in a place. -/
def places (k : Kernel) : Place → List Int
  | .cpu => (k.activeProc.map fun i => (k.procTable i).pid).toList
  | .run => k.runQueue.toList
  | .sleep => k.sleepQueue.toList
  | .wait m => (k.mutexes m).waitQueue.toList

structure Located (k : Kernel) (loc : Int → Option Place) : Prop where
  exact : Places.Exact k.places loc
  state : ∀ i, k.Live i → (k.procTable i).state = stateAt (loc (k.procTable i).pid)
  placed : ∀ i, k.Live i → i ≠ idleProc → loc (k.procTable i).pid ≠ none
  live : ∀ x, loc x ≠ none → ∃ i, k.Live i ∧ (k.procTable i).pid = x
  idle : loc 0 = none ∨ loc 0 = some .cpu ∨ loc 0 = some .run
  /-- A process that is not running has a full time slice before it. -/
  slice : ∀ i, k.Live i → (k.procTable i).state = .idle → (k.procTable i).cpuTime = 0

def Scheduled (k : Kernel) : Prop := ∃ loc, Located k loc

/-- A process goes from one place to another, and the rest of the table stays. -/
structure Moved (k k' : Kernel) (i : Fin procMax) (src dst : Option Place) : Prop where
  lists : Places.Moved k.places k'.places (k.procTable i).pid src dst
  pid : (k'.procTable i).pid = (k.procTable i).pid
  state : (k'.procTable i).state = stateAt dst
  other : ∀ j, j ≠ i → k'.procTable j = k.procTable j
  slice : stateAt dst = .idle → (k'.procTable i).cpuTime = 0
  active : k'.activeProc =
    if dst = some .cpu then some i else if src = some .cpu then none else k.activeProc

variable {k k' : Kernel} {loc : Int → Option Place} {i j : Fin procMax} {src dst : Option Place}

theorem Moved.pid_eq (h : Moved k k' i src dst) (j : Fin procMax) :
    (k'.procTable j).pid = (k.procTable j).pid := by
  by_cases hj : j = i
  · rw [hj, h.pid]
  · rw [h.other j hj]

theorem Moved.live_iff (h : Moved k k' i src dst) (hi : k.Live i) (j : Fin procMax) :
    k'.Live j ↔ k.Live j := by
  unfold Live
  by_cases hj : j = i
  · rw [hj, h.state]
    exact iff_of_true (stateAt_ne_none dst) hi
  · rw [h.other j hj]

/-! ## What the places say about the table -/

theorem Located.of_mem (h : Located k loc) {w : Place} {x : Int} (hx : x ∈ k.places w) :
    ∃ i, k.Live i ∧ (k.procTable i).pid = x ∧ (k.procTable i).state = w.state := by
  have hw := (h.exact.mem_iff w x).mp hx
  obtain ⟨i, hi, rfl⟩ := h.live x (by rw [hw]; exact nofun)
  refine ⟨i, hi, rfl, ?_⟩
  rw [h.state i hi, hw]
  rfl

theorem mem_cpu {x : Int} :
    x ∈ k.places .cpu ↔ ∃ i, k.activeProc = some i ∧ (k.procTable i).pid = x := by
  simp [places]

theorem places_cpu_some (h : k.activeProc = some i) : k.places .cpu = [(k.procTable i).pid] := by
  simp [places, h]

theorem places_cpu_none (h : k.activeProc = none) : k.places .cpu = [] := by
  simp [places, h]

theorem Located.active (h : Located k loc) (ht : TableOk k) (hi : k.activeProc = some i) :
    (k.procTable i).state = .active ∧ loc (k.procTable i).pid = some .cpu := by
  have hloc := (h.exact.mem_iff .cpu _).mp (mem_cpu.mpr ⟨i, hi, rfl⟩)
  refine ⟨?_, hloc⟩
  rw [h.state i (ht.active_live i hi), hloc]
  rfl

theorem Located.of_active (h : Located k loc) (ht : TableOk k)
    (hs : (k.procTable i).state = .active) : k.activeProc = some i := by
  have hi : k.Live i := live_of_state hs nofun
  rw [h.state i hi, stateAt_eq_active] at hs
  obtain ⟨j, hj, hpid⟩ := mem_cpu.mp ((h.exact.mem_iff .cpu _).mpr hs)
  rw [hj, ht.pid_inj j i (ht.active_live j hj) hi hpid]

/-- Every place has room for every process. -/
theorem Located.length_le (h : Located k loc) (w : Place) : (k.places w).length ≤ procMax := by
  let s := Finset.univ.image fun i : Fin procMax => (k.procTable i).pid
  have hs : ∀ x, loc x ≠ none → x ∈ s := by
    intro x hx
    obtain ⟨i, _, rfl⟩ := h.live x hx
    exact Finset.mem_image_of_mem _ (Finset.mem_univ i)
  calc (k.places w).length ≤ s.card := h.exact.length_le s hs w
    _ ≤ (Finset.univ : Finset (Fin procMax)).card := Finset.card_image_le
    _ = procMax := by simp

theorem Located.room (h : Located k loc) (w : Place) : (k.places w).length < queueSize :=
  Nat.lt_of_le_of_lt (h.length_le w) (by decide)

theorem Located.not_queued (h : Located k loc) (hact : k.activeProc = some i) (w : SchedQueue) :
    (k.procTable i).pid ∉ (k.schedQueue w).toList := by
  intro hw
  have hcpu := mem_cpu.mpr ⟨i, hact, rfl⟩
  cases w with
  | run => cases h.exact.unique hcpu (i := .cpu) (j := .run) hw
  | sleep => cases h.exact.unique hcpu (i := .cpu) (j := .sleep) hw

theorem Located.pidToProc (h : Located k loc) (ht : TableOk k) {w : Place} {x : Int}
    (hx : x ∈ k.places w) :
    ∃ i, k.pidToProc x = some i ∧ k.Live i ∧ (k.procTable i).pid = x := by
  obtain ⟨i, hi, rfl, _⟩ := h.of_mem hx
  exact ⟨i, ht.pidToProc_pid hi, hi, rfl⟩

/-- The idle task does not wait. -/
theorem Located.ne_idle (h : Located k loc) (ht : TableOk k) {w : Place}
    (hx : (k.procTable i).pid ∈ k.places w) (hw : w ≠ .cpu) (hwr : w ≠ .run) : i ≠ idleProc := by
  rintro rfl
  rw [ht.idle_pid, h.exact.mem_iff] at hx
  rcases h.idle with h0 | h0 | h0 <;> rw [hx] at h0
  · cases h0
  · exact hw (Option.some.inj h0)
  · exact hwr (Option.some.inj h0)

/-- The idle task rests when there is nothing else to run. -/
theorem Located.idle_rests (h : Located k loc) (hact : k.activeProc = none)
    (hrun : k.runQueue.toList = []) : loc 0 = none := by
  rcases h.idle with h0 | h0 | h0
  · exact h0
  · have := (h.exact.mem_iff .cpu 0).mpr h0
    rw [places_cpu_none hact] at this
    cases this
  · have := (h.exact.mem_iff .run 0).mpr h0
    rw [places, hrun] at this
    cases this

/-! ## Moves -/

/-- A move takes the process to the place its new state names. The idle task is
the only one that may rest, and it does not wait for anything but the processor. -/
theorem Located.moved (h : Located k loc) (ht : TableOk k) (hi : k.Live i)
    (hm : Moved k k' i src dst) (hsrc : src = none → loc (k.procTable i).pid = none)
    (hrest : dst = none → i = idleProc)
    (hidle : i = idleProc → dst = none ∨ dst = some .cpu ∨ dst = some .run) :
    Located k' (Function.update loc (k.procTable i).pid dst) := by
  have hne : ∀ j, k.Live j → j ≠ i → (k.procTable j).pid ≠ (k.procTable i).pid :=
    fun j hj hji he => hji (ht.pid_inj j i hj hi he)
  refine ⟨(h.exact.moved hsrc hm.lists).2, fun j hj => ?_, fun j hj hj0 => ?_, fun x hx => ?_, ?_,
    fun j hj hs => ?_⟩
  · rw [hm.live_iff hi] at hj
    rw [hm.pid_eq]
    by_cases hji : j = i
    · rw [hji, Function.update_self, hm.state]
    · rw [Function.update_of_ne (hne j hj hji), hm.other j hji]
      exact h.state j hj
  · rw [hm.live_iff hi] at hj
    rw [hm.pid_eq]
    by_cases hji : j = i
    · rw [hji, Function.update_self]
      exact fun hd => hj0 (hji.trans (hrest hd))
    · rw [Function.update_of_ne (hne j hj hji)]
      exact h.placed j hj hj0
  · by_cases hxi : x = (k.procTable i).pid
    · exact ⟨i, (hm.live_iff hi i).mpr hi, by rw [hm.pid, hxi]⟩
    · rw [Function.update_of_ne hxi] at hx
      obtain ⟨j, hj, hjx⟩ := h.live x hx
      exact ⟨j, (hm.live_iff hi j).mpr hj, by rw [hm.pid_eq, hjx]⟩
  · by_cases h0 : 0 = (k.procTable i).pid
    · rw [h0, Function.update_self]
      exact hidle ((ht.pid_eq_zero hi).mp h0.symm)
    · rw [Function.update_of_ne h0]
      exact h.idle
  · rw [hm.live_iff hi] at hj
    by_cases hji : j = i
    · rw [hji] at hs ⊢
      exact hm.slice (hm.state ▸ hs)
    · rw [hm.other j hji] at hs ⊢
      exact h.slice j hj hs

/-- A move is known from the places and from the one entry that changes. -/
theorem Moved.of_update {p : Proc} (hk : k'.procTable = Function.update k.procTable i p)
    (hpid : p.pid = (k.procTable i).pid) (hstate : p.state = stateAt dst)
    (hslice : stateAt dst = .idle → p.cpuTime = 0)
    (hlists : Places.Moved k.places k'.places (k.procTable i).pid src dst)
    (hact : k'.activeProc =
      if dst = some .cpu then some i else if src = some .cpu then none else k.activeProc) :
    Moved k k' i src dst := by
  have hself : k'.procTable i = p := by rw [hk, Function.update_self]
  refine ⟨hlists, by rw [hself, hpid], by rw [hself, hstate], fun j hj => ?_, fun h => ?_, hact⟩
  · rw [hk, Function.update_of_ne hj]
  · rw [hself, hslice h]

theorem places_cpu_congr {p : Proc} (hact : k'.activeProc = k.activeProc)
    (hk : k'.procTable = Function.update k.procTable i p) (hpid : p.pid = (k.procTable i).pid) :
    k'.places .cpu = k.places .cpu := by
  unfold places
  dsimp only
  rw [hact]
  congr 2
  funext j
  exact same_of_update Proc.pid hk hpid j

theorem places_modifyProc {f : Proc → Proc} (hpid : (f (k.procTable i)).pid = (k.procTable i).pid) :
    (k.modifyProc i f).places = k.places := by
  funext w
  cases w with
  | cpu => exact places_cpu_congr rfl rfl hpid
  | _ => rfl

/-- The active process joins another place at its end. -/
theorem Moved.of_cpu {w : Place} {p : Proc} (hact : k.activeProc = some i)
    (hact' : k'.activeProc = none) (hk : k'.procTable = Function.update k.procTable i p)
    (hpid : p.pid = (k.procTable i).pid) (hstate : p.state = w.state)
    (hslice : w.state = .idle → p.cpuTime = 0) (hw : w ≠ .cpu)
    (hjoin : k'.places w = k.places w ++ [(k.procTable i).pid])
    (hstay : ∀ v, v ≠ .cpu → v ≠ w → k'.places v = k.places v) :
    Moved k k' i (some .cpu) (some w) := by
  refine .of_update hk hpid hstate hslice ⟨fun v hv => ?_, fun v => ?_⟩ ?_
  · rw [← Option.some.inj hv, places_cpu_some hact]
    rfl
  · by_cases hv : v = .cpu
    · rw [hv, if_pos rfl, if_neg (by simpa using hw), places_cpu_some hact, places_cpu_none hact']
      rfl
    · rw [if_neg (by simpa using Ne.symm hv)]
      by_cases hvw : v = w
      · rw [hvw, if_pos rfl, hjoin]
      · rw [if_neg (by simpa using Ne.symm hvw), List.append_nil, hstay v hv hvw]
  · rw [if_neg (by simpa using hw), if_pos rfl, hact']

/-- The first process of a place becomes runnable. -/
theorem Moved.of_wake {w : Place} {p : Proc} {l : List Int} (hact : k'.activeProc = k.activeProc)
    (hk : k'.procTable = Function.update k.procTable i p) (hpid : p.pid = (k.procTable i).pid)
    (hstate : p.state = .idle) (hslice : p.cpuTime = 0) (hw : w ≠ .cpu) (hwr : w ≠ .run)
    (hhead : k.places w = (k.procTable i).pid :: l) (hrest : k'.places w = l)
    (hjoin : k'.runQueue.toList = k.runQueue.toList ++ [(k.procTable i).pid])
    (hstay : ∀ v, v ≠ w → v ≠ .run → v ≠ .cpu → k'.places v = k.places v) :
    Moved k k' i (some w) (some .run) := by
  refine .of_update hk hpid hstate (fun _ => hslice) ⟨fun v hv => ?_, fun v => ?_⟩ ?_
  · rw [← Option.some.inj hv, hhead]
    rfl
  · by_cases hv : v = w
    · rw [hv, if_pos rfl, if_neg (by simpa using Ne.symm hwr), hhead, hrest, List.append_nil]
      rfl
    · rw [if_neg (by simpa using Ne.symm hv)]
      by_cases hvr : v = .run
      · rw [hvr, if_pos rfl]
        exact hjoin
      · rw [if_neg (by simpa using Ne.symm hvr), List.append_nil]
        by_cases hcpu : v = .cpu
        · rw [hcpu, places_cpu_congr hact hk hpid]
        · exact hstay v hv hvr hcpu
  · rw [if_neg nofun, if_neg (by simpa using hw), hact]

end Kernel
end UnivOS
