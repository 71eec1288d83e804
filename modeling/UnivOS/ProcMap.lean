import UnivOS.Bystander
import UnivOS.Removal

/-! # The process table as a map

Process ids grow while table entries are used again, and a free entry looks like
process 0. Looking up a process is a scan for the first match all the same, and it
always finds the right one, however processes have been created and destroyed.
-/
namespace UnivOS
namespace Kernel
open Word

variable {k k' : Kernel} {i j : Fin procMax} {rc : Int}

/-- The calls that change which processes there are. -/
inductive TableCall
  | create (procPtr : BitVec 32) (procName : Option (List Byte)) (procType : ProcType)
  | destroy (proc : Fin procMax)

def TableCall.exec : TableCall → Kernel → Res (Int × Kernel)
  | .create procPtr procName procType, k => k.kprocCreate procPtr procName procType
  | .destroy proc, k => k.kprocDestroy (some proc)

/-- A process that is destroyed exists. -/
def TableCall.Allowed (k : Kernel) : TableCall → Prop
  | .create .. => True
  | .destroy proc => k.Live proc

instance TableCall.decAllowed (k : Kernel) (c : TableCall) : Decidable (TableCall.Allowed k c) :=
  match c with
  | .create .. => .isTrue trivial
  | .destroy proc => inferInstanceAs (Decidable (k.Live proc))

abbrev TableStep := Trace.Step Kernel (TableCall × Int)

abbrev TableRun := Trace.Run
  (fun k => ∃ (img : Image) (ttys : Ttys), ({ zero img with ttys } : Kernel).kprocInit img = .ok k)
  (Trace.Exec TableCall.exec fun _ k c => TableCall.Allowed k c)

/-- The step creates a process. -/
def Creates (x : TableStep) : Prop :=
  match x.act.1 with
  | .create .. => x.act.2 ≠ -1
  | .destroy _ => False

instance (x : TableStep) : Decidable (Creates x) := by
  unfold Creates
  split <;> infer_instance

/-- The processes created, beside the eleven `kproc_init` starts. -/
def created (tr : List TableStep) : Nat := tr.countP fun x => decide (Creates x)

/-- What is in the process table, and what the next creation does. -/
structure ProcMap (tr : List TableStep) (k : Kernel) : Prop where
  allocator : IdPool.Exact k.procAllocator.toList fun i => (k.procTable i).state = .none
  distinct : ∀ i j, k.Live i → k.Live j → (k.procTable i).pid = (k.procTable j).pid → i = j
  idle : k.Live idleProc ∧ (k.procTable idleProc).pid = 0 ∧
    (k.procTable idleProc).type = .kernel ∧
    (k.procTable idleProc).name = strncpy (cstring "idle") procNameLen
  lookup : ∀ i, k.Live i →
    k.pidToProc (k.procTable i).pid = some i ∧ k.procToEntry i = some i
  gone : ∀ x ∈ tr, ∀ i, x.act.1 = .destroy i → x.act.2 = 0 →
    k.pidToProc (x.pre.procTable i).pid = none
  creation : ∀ (ptr : BitVec 32) (name : List Byte) (type : ProcType), ptr ≠ 0 →
    11 + created tr + 1 < 2 ^ 31 → ∃ rc k', k.kprocCreate ptr (some name) type = .ok (rc, k') ∧
      (rc = -1 ↔ ∀ i, k.Live i) ∧ (rc = -1 → k' = k)

/-! ## What the calls keep -/

/-- The process table is in order, and each process is at most once in the run queue,
which is the one it would be removed from. -/
structure Mapped (k : Kernel) : Prop where
  table : TableOk k
  nodup : k.runQueue.toList.Nodup
  queued : ∀ x ∈ k.runQueue.toList, ∃ i, k.Live i ∧ (k.procTable i).pid = x
  pointer : ∀ i, k.Live i → (k.procTable i).schedulerQueue = some .run
  idleType : (k.procTable idleProc).type = .kernel
  idleName : (k.procTable idleProc).name = strncpy (cstring "idle") procNameLen

/-- What `kproc_create` fills in, with the run queue it leaves. -/
theorem kprocCreate_form {ptr : BitVec 32} {name : Option (List Byte)} {type : ProcType}
    (h : k.kprocCreate ptr name type = .ok (rc, k')) :
    (k.procAllocator.toList = [] ∧ rc = -1 ∧ k' = k) ∨
    ∃ (i : Fin procMax) (q r : Queue) (name' : List Byte), name = some name' ∧
      k.procAllocator.toList = ((i : Nat) : Int) :: q.toList ∧
      r.toList = k.runQueue.toList ++ [k.nextPid] ∧ rc = k.nextPid ∧
      k' = (k.allotProc i (k.newProc i name' type) q (k.newStack i ptr)).runnable i r := by
  rcases kprocCreate_ok h with hnone | ⟨i, q, name', hname, hq, _, hrc, hadd⟩
  · exact .inl hnone
  · obtain ⟨r, hk, hr⟩ := schedulerAdd_eq hadd
    rw [allotProc_self] at hr
    exact .inr ⟨i, q, r, name', hname, hq, hr, hrc, hk⟩

theorem Mapped.length_le (h : Mapped k) : k.runQueue.toList.length ≤ procMax := by
  have hsub : k.runQueue.toList ⊆ (List.finRange procMax).map fun i => (k.procTable i).pid := by
    intro x hx
    obtain ⟨i, _, rfl⟩ := h.queued x hx
    exact List.mem_map_of_mem (List.mem_finRange i)
  have hlen := (h.nodup.subperm hsub).length_le
  rwa [List.length_map, List.length_finRange] at hlen

/-- A created process is in the run queue, and the others are untouched. -/
theorem Mapped.create (h : Mapped k) {ptr : BitVec 32} {name : Option (List Byte)}
    {type : ProcType} (hk : k.kprocCreate ptr name type = .ok (rc, k')) :
    Mapped k' ∧ k'.nextPid = k.nextPid + if rc = -1 then 0 else 1 := by
  have ht' := kprocCreate_tableOk h.table hk
  rcases kprocCreate_form hk with ⟨_, rfl, rfl⟩ | ⟨i, q, r, name', _, hq, hr, rfl, rfl⟩
  · exact ⟨h, (Int.add_zero _).symm⟩
  · let p := k.newProc i name' type
    let m := k.newStack i ptr
    have hfree : ¬ k.Live i := by
      have hmem := h.table.alloc.mem_val (i := i)
      rw [hq] at hmem
      exact hmem.mp List.mem_cons_self
    have hself : ((k.allotProc i p q m).runnable i r).procTable i =
        { p with schedulerQueue := some .run, state := .idle, cpuTime := 0 } := by
      rw [runnable, modifyProc_self, allotProc_self]
    have hother : ∀ j, j ≠ i → ((k.allotProc i p q m).runnable i r).procTable j = k.procTable j :=
      fun j hj => (runnable_ne _ _ hj).trans (allotProc_ne k p q m hj)
    have hlive : ∀ j, k.Live j → j ≠ i := fun j hj he => hfree (he ▸ hj)
    have hnext : k.nextPid ≠ -1 := by
      have := h.table.pid_range idleProc h.table.idle_live
      omega
    have hidle := hother idleProc (hlive _ h.table.idle_live)
    refine ⟨⟨ht', ?_, fun x hx => ?_, fun j hj => ?_, ?_, ?_⟩, ?_⟩
    · rw [runnable_runQueue, hr, List.nodup_append]
      refine ⟨h.nodup, List.nodup_singleton _, ?_⟩
      rintro x hx y hy rfl
      obtain ⟨j, hj, hpid⟩ := h.queued x hx
      have := (h.table.pid_range j hj).2
      rw [hpid, List.mem_singleton.mp hy] at this
      omega
    · rw [runnable_runQueue, hr, List.mem_append, List.mem_singleton] at hx
      rcases hx with hx | rfl
      · obtain ⟨j, hj, hpid⟩ := h.queued x hx
        have hsame := hother j (hlive j hj)
        exact ⟨j, (live_congr hsame).mpr hj, by rw [hsame, hpid]⟩
      · refine ⟨i, live_runnable _ i _, ?_⟩
        rw [hself]
        rfl
    · by_cases hji : j = i
      · rw [hji, hself]
      · have hj' := (live_congr (hother j hji)).mp hj
        rw [hother j hji]
        exact h.pointer j hj'
    · rw [hidle, h.idleType]
    · rw [hidle, h.idleName]
    · rw [if_neg hnext]
      rfl

/-- A destroyed process leaves the run queue, and the others are untouched. -/
theorem Mapped.destroy (h : Mapped k) (hi : k.Live i)
    (hk : k.kprocDestroy (some i) = .ok (rc, k')) : Mapped k' ∧ k'.nextPid = k.nextPid := by
  have ht' := kprocDestroy_tableOk h.table hi hk
  rcases kprocDestroy_cases h.table hi hk with ⟨_, _, rfl⟩ | ⟨k₁, q, hne, _, h₁, _, rfl⟩
  · exact ⟨h, rfl⟩
  · obtain ⟨r, s, hr, _, hremove⟩ := k.schedulerRemove_eq i
    cases hremove.symm.trans h₁
    rw [unscheduled, if_pos (h.pointer i hi)] at hr
    have hperm : r.toList.Perm (k.runQueue.toList.erase (k.procTable i).pid) :=
      hr ▸ removed_perm h.nodup
    have hother : ∀ j, j ≠ i → Function.update (Function.update k.procTable i
        { k.procTable i with schedulerQueue := none }) i Proc.zero j = k.procTable j := by
      intro j hj
      rw [Function.update_of_ne hj, Function.update_of_ne hj]
    have hlive : ∀ j, j ≠ i → k.Live j → (Function.update (Function.update k.procTable i
        { k.procTable i with schedulerQueue := none }) i Proc.zero j).state ≠ .none := by
      intro j hji hj
      rw [hother j hji]
      exact hj
    refine ⟨⟨ht', ?_, fun x hx => ?_, fun j hj => ?_, ?_, ?_⟩, rfl⟩
    · exact hperm.nodup_iff.mpr (h.nodup.erase _)
    · have hx' := hperm.mem_iff.mp hx
      obtain ⟨hxi, hx'⟩ := h.nodup.mem_erase_iff.mp hx'
      obtain ⟨j, hj, rfl⟩ := h.queued x hx'
      have hji : j ≠ i := by
        rintro rfl
        exact hxi rfl
      exact ⟨j, hlive j hji hj, congrArg Proc.pid (hother j hji)⟩
    · obtain ⟨hj, hji⟩ := freeProc_live.mp hj
      have hj' : k.Live j := ((schedulerRemove_keeps h₁).live j).mp hj
      exact (congrArg Proc.schedulerQueue (hother j hji)).trans (h.pointer j hj')
    · exact (congrArg Proc.type (hother idleProc hne.symm)).trans h.idleType
    · exact (congrArg Proc.name (hother idleProc hne.symm)).trans h.idleName

/-- Attaching a terminal changes the `io` pointers only. -/
theorem Mapped.attach (h : Mapped k) {pid t : Int}
    (hk : k.kprocAttachTty pid t = .ok (rc, k')) : Mapped k' := by
  obtain ⟨tty, _, hk⟩ := Loop.bind_eq_ok.mp hk
  split at hk
  · cases hk
    exact h
  · rename_i proc _
    cases hk
    let f : Proc → Proc := fun p => { p with io := attachedIo tty p.io }
    have hkeeps : Keeps k (k.modifyProc proc f) := Keeps.of_modifyProc rfl Iff.rfl rfl
    have hsame : ∀ {α : Type} (field : Proc → α), (∀ p, field (f p) = field p) →
        ∀ j, field ((k.modifyProc proc f).procTable j) = field (k.procTable j) := by
      intro α field hf j
      by_cases hj : j = proc
      · rw [hj, modifyProc_self, hf]
      · rw [modifyProc_ne k f hj]
    refine ⟨hkeeps.tableOk h.table, h.nodup, fun x hx => ?_, fun j hj => ?_, ?_, ?_⟩
    · obtain ⟨j, hj, rfl⟩ := h.queued x hx
      exact ⟨j, (hkeeps.live j).mpr hj, hkeeps.pid j⟩
    · exact (hsame Proc.schedulerQueue (fun _ => rfl) j).trans
        (h.pointer j ((hkeeps.live j).mp hj))
    · exact (hsame Proc.type (fun _ => rfl) idleProc).trans h.idleType
    · exact (hsame Proc.name (fun _ => rfl) idleProc).trans h.idleName

/-- The idle task is created in an empty table. -/
theorem Mapped.first {k₀ : Kernel} (hb₀ : Booted 0 k₀) {ptr : BitVec 32}
    (hk : k₀.kprocCreate ptr (some (cstring "idle")) .kernel = .ok (rc, k)) (hb : Booted 1 k) :
    Mapped k := by
  have hlive : ∀ i, k.Live i → i = idleProc := by
    intro i hi
    rw [hb.live] at hi
    exact Fin.ext (Nat.lt_one_iff.mp hi)
  rcases kprocCreate_form hk with ⟨hq, _⟩ | ⟨i, q, r, name, hname, hq, _, _, rfl⟩
  · rw [hb₀.alloc] at hq
    cases hq
  · cases hname
    have hi : i = idleProc := by
      rw [hb₀.alloc] at hq
      exact IdPool.val_inj.mp (List.cons.inj hq).1.symm
    subst hi
    have hself : ∀ p m, ((k₀.allotProc idleProc p q m).runnable idleProc r).procTable idleProc =
        { p with schedulerQueue := some .run, state := .idle, cpuTime := 0 } := by
      intro p m
      rw [runnable, modifyProc_self, allotProc_self]
    refine ⟨hb.tableOk Nat.one_pos, ?_, fun x hx => ?_, fun j hj => ?_, ?_, ?_⟩
    · rw [hb.run]
      decide
    · rw [hb.run] at hx
      refine ⟨idleProc, (hb.live idleProc).mpr Nat.one_pos, ?_⟩
      rw [(hb.used idleProc Nat.one_pos).1, List.mem_singleton.mp hx]
      rfl
    · rw [hlive j hj, hself]
    · rw [hself]
      rfl
    · rw [hself]
      rfl

theorem Mapped.startProgram (h : Mapped k) {p : BitVec 32 × String × (Int → Int)}
    (hk : k.startProgram p = .ok k') : Mapped k' := by
  obtain ⟨⟨pid, k₁⟩, h₁, hk⟩ := Loop.bind_eq_ok.mp hk
  obtain ⟨⟨rc, k₂⟩, h₂, hk⟩ := Loop.bind_eq_ok.mp hk
  cases hk
  exact (h.create h₁).1.attach h₂

theorem kprocInit_mapped {img : Image} {ttys : Ttys}
    (h : ({ zero img with ttys } : Kernel).kprocInit img = .ok k) : Mapped k ∧ k.nextPid = 11 := by
  obtain ⟨k₁, h₁, hb⟩ := kprocInit_ok img ttys
  rw [h₁] at h
  cases h
  refine ⟨?_, hb.nextPid⟩
  have hb₀ := booted_zero img ttys
  obtain ⟨⟨rc, k₀⟩, hfirst, hrest⟩ := Loop.bind_eq_ok.mp h₁
  obtain ⟨k₂, hfirst', hb₁⟩ := hb₀.kprocCreate (by decide) img.idle_ne (cstring "idle") .kernel
  cases hfirst'.symm.trans hfirst
  exact Loop.foldlM_inv Mapped (fun _ _ _ hs ht => hs.startProgram ht) (startPrograms img)
    (Mapped.first hb₀ hfirst' hb₁) hrest

/-! ## Runs -/

variable {tr : List TableStep}

theorem created_snoc (tr : List TableStep) (x : TableStep) :
    (created (tr ++ [x]) : Int) = created tr + if Creates x then 1 else 0 := by
  rw [created, List.countP_append, List.countP_singleton]
  by_cases h : Creates x <;> simp [created, h]

theorem Mapped.exec (h : Mapped k) {c : TableCall} (ha : TableCall.Allowed k c)
    (hk : c.exec k = .ok (rc, k')) :
    Mapped k' ∧ k'.nextPid = k.nextPid + if Creates ⟨k, (c, rc), k'⟩ then 1 else 0 := by
  cases c with
  | create ptr name type =>
    obtain ⟨h', hnext⟩ := h.create hk
    refine ⟨h', hnext.trans ?_⟩
    by_cases hrc : rc = -1 <;> simp [Creates, hrc]
  | destroy i =>
    obtain ⟨h', hnext⟩ := h.destroy ha hk
    refine ⟨h', hnext.trans ?_⟩
    rw [if_neg (show ¬ Creates ⟨k, (.destroy i, rc), k'⟩ from id), Int.add_zero]

theorem mapped_of_run (h : TableRun tr k) : Mapped k ∧ k.nextPid = 11 + created tr := by
  refine h.invariant (P := fun tr k => Mapped k ∧ k.nextPid = 11 + created tr) ?_ ?_
  · rintro k ⟨img, ttys, hk⟩
    exact kprocInit_mapped hk
  · intro tr k a k' _ hn ⟨hm, hnext⟩
    obtain ⟨hm', hnext'⟩ := hm.exec hn.1 hn.2
    refine ⟨hm', ?_⟩
    rw [created_snoc, hnext', hnext, Int.add_assoc]

theorem exec_grows (h : Mapped k) {c : TableCall} (ha : TableCall.Allowed k c)
    (hk : c.exec k = .ok (rc, k')) : Grows k k' := by
  cases c with
  | create ptr name type => exact kprocCreate_grows h.table hk
  | destroy i => exact kprocDestroy_grows h.table ha hk

/-- No process has this id any more, and none will be given it. -/
structure Gone (k : Kernel) (pid : Int) : Prop where
  past : pid < k.nextPid
  free : ∀ i, k.Live i → (k.procTable i).pid ≠ pid

theorem Gone.of_grows {pid : Int} (h : Gone k pid) (hg : Grows k k') : Gone k' pid := by
  refine ⟨Int.lt_of_lt_of_le h.past hg.nextPid, fun i hi => ?_⟩
  rcases hg.live i hi with ⟨hi, hpid⟩ | hnew
  · rw [hpid]
    exact h.free i hi
  · have := h.past
    omega

theorem Mapped.gone (h : Mapped k) (hi : k.Live i) (hk : k.kprocDestroy (some i) = .ok (0, k')) :
    Gone k' (k.procTable i).pid := by
  rcases kprocDestroy_cases h.table hi hk with ⟨_, hrc, _⟩ | ⟨k₁, q, _, _, h₁, _, rfl⟩
  · cases hrc
  · have hkeeps := schedulerRemove_keeps h₁
    refine ⟨?_, fun j hj he => ?_⟩
    · show _ < k₁.nextPid
      rw [hkeeps.nextPid]
      exact (h.table.pid_range i hi).2
    · obtain ⟨hj, hji⟩ := freeProc_live.mp hj
      rw [freeProc_ne k₁ q hji, hkeeps.pid] at he
      exact hji (h.table.pid_inj j i ((hkeeps.live j).mp hj) hi he)

theorem gone_of_run (h : TableRun tr k) {x : TableStep} (hx : x ∈ tr)
    (hcall : x.act.1 = .destroy i) (hrc : x.act.2 = 0) : Gone k (x.pre.procTable i).pid := by
  obtain ⟨tr₁, tr₂, rfl⟩ := List.append_of_mem hx
  refine h.after (P := fun k => Gone k (x.pre.procTable i).pid) ?_ fun tr' y _ hr hn hgone => ?_
  · have hsplit : tr₁ ++ x :: tr₂ = (tr₁ ++ [x]) ++ tr₂ := by rw [List.append_assoc]; rfl
    rw [hsplit] at h
    obtain ⟨k₁, h₁⟩ := h.of_append
    obtain ⟨hr, hn, _⟩ := h₁.snoc_inv
    obtain ⟨hallowed, hexec⟩ := hn
    rw [hcall] at hallowed hexec
    rw [hrc] at hexec
    exact (mapped_of_run hr).1.gone hallowed hexec
  · exact hgone.of_grows (exec_grows (mapped_of_run hr).1 hn.1 hn.2)

theorem Gone.pidToProc {pid : Int} (h : Gone k pid) (ht : TableOk k) : k.pidToProc pid = none := by
  cases hp : k.pidToProc pid with
  | none => rfl
  | some i =>
    obtain ⟨hi, hpid⟩ := ht.of_pidToProc hp
    exact absurd hpid (h.free i hi)

/-- **The process table is a map from ids to processes**, in every run of creations
and destructions. -/
theorem process_table_of_run (h : TableRun tr k) : ProcMap tr k := by
  obtain ⟨hm, hnext⟩ := mapped_of_run h
  have ht := hm.table
  refine ⟨ht.alloc.congr fun i => not_not, ht.pid_inj,
    ⟨ht.idle_live, ht.idle_pid, hm.idleType, hm.idleName⟩,
    fun i hi => ⟨ht.pidToProc_pid hi, ht.procToEntry_self hi⟩,
    fun x hx i hcall hrc => (gone_of_run h hx hcall hrc).pidToProc ht,
    fun ptr name type hptr hroom => ?_⟩
  have hlen : k.runQueue.toList.length < queueSize :=
    Nat.lt_of_le_of_lt hm.length_le (by decide)
  have hin : InInt32 (k.nextPid + 1) := by
    rw [hnext]
    exact ⟨by omega, by omega⟩
  obtain ⟨rc, k', hk⟩ :=
    kprocCreate_returns ht hlen type hptr (Option.some_ne_none name) hin
  refine ⟨rc, k', hk, ?_, ?_⟩
  · have hempty : k.procAllocator.toList = [] ↔ ∀ i, k.Live i := by
      constructor
      · intro hnil i
        by_contra hi
        have hmem := ht.alloc.mem_val.mpr hi
        rw [hnil] at hmem
        cases hmem
      · intro hall
        rw [List.eq_nil_iff_forall_not_mem]
        intro x hx
        obtain ⟨i, _, hi⟩ := (ht.alloc.mem_iff x).mp hx
        exact hi (hall i)
    rw [← hempty]
    rcases kprocCreate_form hk with ⟨hnil, rfl, _⟩ | ⟨i, q, _, _, _, hq, _, rfl, _⟩
    · exact iff_of_true rfl hnil
    · rw [hq]
      refine iff_of_false ?_ (List.cons_ne_nil _ _)
      omega
  · intro hrc
    rcases kprocCreate_form hk with ⟨_, _, hk'⟩ | ⟨_, _, _, _, _, _, _, hres, _⟩
    · exact hk'
    · omega

/-- The table is filled up, one creation fails, and process 3 makes room for process 20. -/
theorem process_table_of_run_full : ∃ (tr : List TableStep) (k : Kernel),
    tr.map (·.act.2) = [11, 12, 13, 14, 15, 16, 17, 18, 19, -1, 0, 20] ∧
    (k.procTable ⟨3, by decide⟩).pid = 20 ∧ ProcMap tr k := by
  let new : TableCall := .create 7 (some []) .user
  let calls : List TableCall := List.replicate 10 new ++ [.destroy ⟨3, by decide⟩, new]
  have htest : (({ zero Image.blank with ttys := Ttys.ttyZero } : Kernel).kprocInit
      Image.blank).toOption.any (fun k =>
        (Trace.walk TableCall.exec (fun _ k c => decide (TableCall.Allowed k c)) calls [] k).any
          fun r => decide (r.1.map (·.act.2) = [11, 12, 13, 14, 15, 16, 17, 18, 19, -1, 0, 20] ∧
            (r.2.procTable ⟨3, by decide⟩).pid = 20)) = true := by
    decide +kernel
  obtain ⟨k₀, hk₀, hP⟩ := Loop.of_any htest
  have hfound : ∃ r : List TableStep × Kernel, TableRun r.1 r.2 ∧ _ :=
    Trace.Run.of_walk ⟨_, _, hk₀⟩ hP
  obtain ⟨⟨tr, k⟩, hrun, hP⟩ := hfound
  obtain ⟨hres, hpid⟩ := of_decide_eq_true hP
  exact ⟨tr, k, hres, hpid, process_table_of_run hrun⟩

end Kernel
end UnivOS
