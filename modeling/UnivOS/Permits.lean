import UnivOS.SemPool

/-! # The permits of a semaphore

The count of a semaphore is its initial value and one permit for every post, less
those that waits have taken and those that posts have handed to a process in the
wait queue. It never gets negative, so no more processes are let past the semaphore
than it has had permits.
-/
namespace UnivOS
namespace Kernel
open Word

variable {k k' : Kernel} {s : Fin semMax} {v rc : Int} {tr mid : List SemStep} {x y : SemStep}

/-- A post passes the test of the id and of `allocated`. -/
def Passes (s : Fin semMax) (y : SemStep) : Prop :=
  y.act.1.call = .post ((s : Nat) : Int) ∧ (y.pre.semaphores s).allocated ≠ 0

/-- A wait goes through the branch that decrements. -/
def Takes (s : Fin semMax) (y : SemStep) : Prop :=
  y.act.1.call = .wait ((s : Nat) : Int) ∧ (y.pre.semaphores s).allocated ≠ 0 ∧
    0 < (y.pre.semaphores s).count

/-- A post puts a process on the run queue. -/
def Hands (s : Fin semMax) (y : SemStep) : Prop :=
  y.act.1.call = .post ((s : Nat) : Int) ∧
    y.act.1.context.runQueue.toList.length < y.post.runQueue.toList.length

instance (s : Fin semMax) (y : SemStep) : Decidable (Passes s y) :=
  inferInstanceAs (Decidable (_ ∧ _))

instance (s : Fin semMax) (y : SemStep) : Decidable (Takes s y) :=
  inferInstanceAs (Decidable (_ ∧ _))

instance (s : Fin semMax) (y : SemStep) : Decidable (Hands s y) :=
  inferInstanceAs (Decidable (_ ∧ _))

def posts (s : Fin semMax) (tr : List SemStep) : Nat :=
  tr.countP fun y => decide (y.act.1.call = .post ((s : Nat) : Int))

def passed (s : Fin semMax) (tr : List SemStep) : Nat := tr.countP fun y => decide (Passes s y)

def taken (s : Fin semMax) (tr : List SemStep) : Nat := tr.countP fun y => decide (Takes s y)

def handed (s : Fin semMax) (tr : List SemStep) : Nat := tr.countP fun y => decide (Hands s y)

/-- The account of a semaphore that was made with `v` permits, after the calls `mid`. -/
structure Balanced (s : Fin semMax) (v : Int) (mid : List SemStep) (k : Kernel) : Prop where
  nonneg : 0 ≤ (k.semaphores s).count
  balance : (k.semaphores s).count = v + passed s mid - taken s mid - handed s mid
  bounded : (taken s mid : Int) + handed s mid ≤ v + posts s mid

/-! ## One call -/

/-- What a step adds to a count of steps. -/
def one (P : Prop) [Decidable P] : Int := if P then 1 else 0

theorem countP_snoc (P : SemStep → Prop) [DecidablePred P] (tr : List SemStep) (y : SemStep) :
    (((tr ++ [y]).countP fun y => decide (P y) : Nat) : Int) =
      (tr.countP fun y => decide (P y) : Nat) + one (P y) := by
  rw [List.countP_append, List.countP_singleton, one]
  by_cases h : P y <;> simp [h]

/-- The semaphore is in use, and its count has changed by what the call took and gave. -/
structure Accounted (s : Fin semMax) (y : SemStep) : Prop where
  allocated : (y.post.semaphores s).allocated ≠ 0
  nonneg : 0 ≤ (y.post.semaphores s).count
  count : (y.post.semaphores s).count =
    (y.pre.semaphores s).count + one (Passes s y) - one (Takes s y) - one (Hands s y)

/-- A call that leaves the semaphore as it is, being no wait for it or post of it. -/
theorem Accounted.quiet (halloc : (y.pre.semaphores s).allocated ≠ 0)
    (hpos : 0 ≤ (y.pre.semaphores s).count) (hsame : y.post.semaphores s = y.pre.semaphores s)
    (hwait : y.act.1.call ≠ .wait ((s : Nat) : Int))
    (hpost : y.act.1.call ≠ .post ((s : Nat) : Int)) : Accounted s y := by
  have hpasses : ¬ Passes s y := fun h => hpost h.1
  have htakes : ¬ Takes s y := fun h => hwait h.1
  have hhands : ¬ Hands s y := fun h => hpost h.1
  refine ⟨by rw [hsame]; exact halloc, by rw [hsame]; exact hpos, ?_⟩
  rw [hsame, one, one, one, if_neg hpasses, if_neg htakes, if_neg hhands]
  omega

theorem Accounted.wait (halloc : (y.pre.semaphores s).allocated ≠ 0)
    (hpos : 0 ≤ (y.pre.semaphores s).count) (hint : (y.pre.semaphores s).count < 2 ^ 31)
    (hcall : y.act.1.call = .wait ((s : Nat) : Int))
    (h : WaitCases (y.act.1.context.withSems y.pre) s y.post) : Accounted s y := by
  have hpasses : ¬ Passes s y := by
    rintro ⟨hp, _⟩
    rw [hcall] at hp
    cases hp
  have hhands : ¬ Hands s y := by
    rintro ⟨hp, _⟩
    rw [hcall] at hp
    cases hp
  cases h with
  | takes permit only count =>
    have hwrap : wrap32 ((y.pre.semaphores s).count - 1) = (y.pre.semaphores s).count - 1 :=
      wrap32_of_inInt32 ⟨by omega, by omega⟩
    change (y.post.semaphores s).count = wrap32 ((y.pre.semaphores s).count - 1) at count
    change 0 < (y.pre.semaphores s).count at permit
    have htakes : Takes s y := ⟨hcall, halloc, permit⟩
    refine ⟨by rw [only.allocated]; exact halloc, ?_, ?_⟩
    · rw [count, hwrap]
      omega
    · rw [count, hwrap, one, one, one, if_neg hpasses, if_pos htakes, if_neg hhands]
      omega
  | blocks permit only count =>
    change (y.post.semaphores s).count = (y.pre.semaphores s).count at count
    have htakes : ¬ Takes s y := fun ht => absurd ht.2.2 (Int.not_lt.mpr permit)
    refine ⟨by rw [only.allocated]; exact halloc, by rw [count]; exact hpos, ?_⟩
    rw [count, one, one, one, if_neg hpasses, if_neg htakes, if_neg hhands]
    omega

theorem Accounted.post (halloc : (y.pre.semaphores s).allocated ≠ 0)
    (hpos : 0 ≤ (y.pre.semaphores s).count) (hint : (y.pre.semaphores s).count + 1 < 2 ^ 31)
    (hcall : y.act.1.call = .post ((s : Nat) : Int))
    (h : PostCases (y.act.1.context.withSems y.pre) s y.post) : Accounted s y := by
  have hpasses : Passes s y := ⟨hcall, halloc⟩
  have htakes : ¬ Takes s y := by
    rintro ⟨ht, _⟩
    rw [hcall] at ht
    cases ht
  have hwrap : wrap32 ((y.pre.semaphores s).count + 1) = (y.pre.semaphores s).count + 1 :=
    wrap32_of_inInt32 ⟨by omega, by omega⟩
  cases h with
  | adds run only count =>
    change (y.post.semaphores s).count = wrap32 ((y.pre.semaphores s).count + 1) at count
    have hhands : ¬ Hands s y := by
      rintro ⟨_, hlt⟩
      rw [run] at hlt
      exact absurd hlt (Nat.lt_irrefl _)
    refine ⟨by rw [only.allocated]; exact halloc, ?_, ?_⟩
    · rw [count, hwrap]
      omega
    · rw [count, hwrap, one, one, one, if_pos hpasses, if_neg htakes, if_neg hhands]
      omega
  | hands pid run only count =>
    change (y.post.semaphores s).count = wrap32 (wrap32 ((y.pre.semaphores s).count + 1) - 1) at count
    have hwrap' : wrap32 ((y.pre.semaphores s).count + 1 - 1) = (y.pre.semaphores s).count + 1 - 1 :=
      wrap32_of_inInt32 ⟨by omega, by omega⟩
    have hhands : Hands s y := by
      refine ⟨hcall, ?_⟩
      rw [run, List.length_append]
      exact Nat.lt_succ_self _
    refine ⟨by rw [only.allocated]; exact halloc, ?_, ?_⟩
    · rw [count, hwrap, hwrap']
      omega
    · rw [count, hwrap, hwrap', one, one, one, if_pos hpasses, if_neg htakes, if_pos hhands]
      omega

theorem ksemDestroy_semaphores {t : Fin semMax} (hd : k.ksemDestroy ((t : Nat) : Int) = (rc, k'))
    (hs : t = s → rc ≠ 0) : k'.semaphores s = k.semaphores s := by
  rw [ksemDestroy, index_val] at hd
  dsimp only at hd
  split at hd
  · obtain ⟨_, rfl⟩ := Prod.mk.inj hd
    rfl
  · split at hd
    · obtain ⟨rfl, rfl⟩ := Prod.mk.inj hd
      exact Function.update_of_ne (fun hst => hs hst.symm rfl) ..
    · obtain ⟨_, rfl⟩ := Prod.mk.inj hd
      rfl

/-- Every call but the one that destroys the semaphore keeps the account. -/
theorem Accounted.of_exec (hpool : SemPool y.pre) (halloc : (y.pre.semaphores s).allocated ≠ 0)
    (hpos : 0 ≤ (y.pre.semaphores s).count) (hint : (y.pre.semaphores s).count < 2 ^ 31)
    (hroom : y.act.1.call = .post ((s : Nat) : Int) → (y.pre.semaphores s).count + 1 < 2 ^ 31)
    (hlive : ¬ (y.act.1.call = .destroy ((s : Nat) : Int) ∧ y.act.2 = 0))
    (h : y.act.1.exec y.pre = .ok (y.act.2, y.post)) : Accounted s y := by
  obtain ⟨pre, ⟨⟨context, call⟩, rc⟩, post⟩ := y
  dsimp only at hpool halloc hpos hint hroom hlive
  have hcall : (context.withSems pre).semCall call = .ok (rc, post) := h
  have hused : ((context.withSems pre).semaphores s).allocated ≠ 0 := halloc
  cases call with
  | init value =>
    refine .quiet halloc hpos ?_ nofun nofun
    rcases (hpool.withSems context).ksemInit value with ⟨t, q, _, hfree, he⟩ | ⟨_, he⟩
    · have hst : s ≠ t := by
        rintro rfl
        exact hused hfree
      cases (congrArg Except.ok he).symm.trans hcall
      exact Function.update_of_ne hst ..
    · cases (congrArg Except.ok he).symm.trans hcall
      rfl
  | destroy id =>
    refine .quiet halloc hpos ?_ nofun nofun
    show post.semaphores s = (context.withSems pre).semaphores s
    rcases semCall_named rfl hcall with ⟨_, _, hpost⟩ | ⟨t, rfl, _⟩
    · exact congrArg (fun k => k.semaphores s) hpost
    · have hd : (context.withSems pre).ksemDestroy ((t : Nat) : Int) = (rc, post) :=
        Except.ok.inj hcall
      refine ksemDestroy_semaphores hd ?_
      rintro rfl hrc
      exact hlive ⟨rfl, hrc⟩
  | wait id =>
    by_cases hid : id = ((s : Nat) : Int)
    · subst hid
      exact .wait halloc hpos hint rfl (ksemWait_cases hused hcall)
    · refine .quiet halloc hpos ?_ (fun he => hid (SemCall.wait.inj he)) nofun
      rcases semCall_named rfl hcall with ⟨_, _, hpost⟩ | ⟨t, rfl, htused⟩
      · exact congrArg (fun k => k.semaphores s) hpost
      · exact (ksemWait_cases htused hcall).only.other s fun he => hid (by rw [he])
  | post id =>
    by_cases hid : id = ((s : Nat) : Int)
    · subst hid
      exact .post halloc hpos (hroom rfl) rfl (ksemPost_cases hused hcall)
    · refine .quiet halloc hpos ?_ nofun fun he => hid (SemCall.post.inj he)
      rcases semCall_named rfl hcall with ⟨_, _, hpost⟩ | ⟨t, rfl, htused⟩
      · exact congrArg (fun k => k.semaphores s) hpost
      · exact (ksemPost_cases htused hcall).only.other s fun he => hid (by rw [he])

/-! ## Runs -/

/-- The semaphore is in use, and its account is right so far. -/
structure Account (s : Fin semMax) (v : Int) (mid : List SemStep) (k : Kernel) : Prop where
  allocated : (k.semaphores s).allocated ≠ 0
  nonneg : 0 ≤ (k.semaphores s).count
  balance : (k.semaphores s).count = v + passed s mid - taken s mid - handed s mid

theorem passed_le_posts (s : Fin semMax) (tr : List SemStep) : passed s tr ≤ posts s tr := by
  refine List.countP_mono_left fun y _ hy => ?_
  exact decide_eq_true (of_decide_eq_true hy).1

theorem Account.balanced (h : Account s v mid k) : Balanced s v mid k := by
  refine ⟨h.nonneg, h.balance, ?_⟩
  have hle := passed_le_posts s mid
  have hpos := h.nonneg
  rw [h.balance] at hpos
  omega

/-- A new semaphore has the permits it was asked for. -/
theorem Account.start (hpool : SemPool x.pre) (hinit : x.act.1.call = .init v)
    (hid : x.act.2 = ((s : Nat) : Int)) (hv : 0 ≤ v)
    (h : x.act.1.exec x.pre = .ok (x.act.2, x.post)) : Account s v [] x.post := by
  have hcall : (x.act.1.context.withSems x.pre).semCall x.act.1.call = .ok (x.act.2, x.post) := h
  rw [hinit, semCall] at hcall
  have hres := Except.ok.inj hcall
  rcases (hpool.withSems x.act.1.context).ksemInit v with ⟨t, q, _, _, he⟩ | ⟨_, he⟩
  · obtain ⟨hrc, hpost⟩ := Prod.mk.inj (he.symm.trans hres)
    rw [hid] at hrc
    obtain rfl := IdPool.val_inj.mp hrc
    have hsem : x.post.semaphores t = ⟨1, v, Queue.empty⟩ := by
      rw [← hpost]
      exact Function.update_self ..
    refine ⟨by rw [hsem]; exact Int.one_ne_zero, by rw [hsem]; exact hv, ?_⟩
    rw [hsem]
    show v = v + ((0 : Nat) : Int) - ((0 : Nat) : Int) - ((0 : Nat) : Int)
    omega
  · have hrc := (Prod.mk.inj (he.symm.trans hres)).1
    rw [hid] at hrc
    omega

/-- **Permits are conserved**: from the call that makes a semaphore until it is
destroyed, its count is not negative and balances the calls made on it, and no more
processes are let past it than it has had permits. -/
theorem sem_permits_conserved (h : SemRun (tr ++ x :: mid) k) (hinit : x.act.1.call = .init v)
    (hid : x.act.2 = ((s : Nat) : Int)) (hv : 0 ≤ v)
    (hlive : ∀ y ∈ mid, ¬ (y.act.1.call = .destroy ((s : Nat) : Int) ∧ y.act.2 = 0))
    (hmax : v + posts s mid ≤ 2 ^ 31 - 1) : Balanced s v mid k := by
  have hstart : Account s v [] x.post := by
    have hx : tr ++ x :: mid = (tr ++ [x]) ++ mid := by rw [List.append_assoc]; rfl
    rw [hx] at h
    obtain ⟨k₁, h₁⟩ := h.of_append
    obtain ⟨hr, hn, _⟩ := h₁.snoc_inv
    exact Account.start (semPool_of_run hr) hinit hid hv hn.2
  refine (h.after_history hstart fun mid' y hpre hr hn hacc => ?_).balanced
  have hposts : posts s (mid' ++ [y]) ≤ posts s mid := hpre.sublist.countP_le
  have hpostsy : (posts s (mid' ++ [y]) : Int) =
      posts s mid' + one (y.act.1.call = .post ((s : Nat) : Int)) :=
    countP_snoc (fun y => y.act.1.call = .post ((s : Nat) : Int)) mid' y
  have hpassed := passed_le_posts s mid'
  have hbal := hacc.balance
  have hmem : y ∈ mid := hpre.subset (by simp)
  have hone : 0 ≤ one (y.act.1.call = .post ((s : Nat) : Int)) := by
    unfold one
    split <;> omega
  have hstep : Accounted s y := by
    refine .of_exec (semPool_of_run hr) hacc.allocated hacc.nonneg (by omega) (fun hpost => ?_)
      (hlive y hmem) hn.2
    rw [one, if_pos hpost] at hpostsy
    omega
  refine ⟨hstep.allocated, hstep.nonneg, ?_⟩
  have hp : (passed s (mid' ++ [y]) : Int) = passed s mid' + one (Passes s y) :=
    countP_snoc (Passes s) mid' y
  have ht : (taken s (mid' ++ [y]) : Int) = taken s mid' + one (Takes s y) :=
    countP_snoc (Takes s) mid' y
  have hh : (handed s (mid' ++ [y]) : Int) = handed s mid' + one (Hands s y) :=
    countP_snoc (Hands s) mid' y
  rw [hstep.count, hbal, hp, ht, hh]
  omega

/-- Process 1 calls, with 5 at address 0, which is the id of another process. -/
def permitCaller : Kernel :=
  { zero Image.blank with
    activeProc := some ⟨1, one_lt_procMax⟩
    procTable := fun i => { Proc.zero with pid := (i : Nat), state := .idle }
    mem := fun a => if a = 0 then 5 else 0 }

/-- The one permit is taken, a second wait blocks, and a post hands its permit on. -/
theorem sem_permits_conserved_handed : ∃ (x : SemStep) (mid : List SemStep) (k : Kernel),
    x.act.1.call = .init 1 ∧ mid.map (·.act.1.call) = [.wait 0, .wait 0, .post 0] ∧
    taken ⟨0, by decide⟩ mid = 1 ∧ handed ⟨0, by decide⟩ mid = 1 ∧
    Balanced ⟨0, by decide⟩ 1 mid k := by
  let calls : List SemCall := [.init 1, .wait 0, .wait 0, .post 0]
  have htest : (Trace.walk SemUse.exec (fun _ _ _ => decide True)
      (calls.map (⟨permitCaller, ·⟩)) [] permitCaller.ksemaphoresInit).any (fun r =>
        r.1.head?.any (fun x => decide (x.act.1.call = .init 1 ∧ x.act.2 = 0)) &&
          decide (r.1.tail.map (·.act.1.call) = [.wait 0, .wait 0, .post 0] ∧
            posts ⟨0, by decide⟩ r.1.tail = 1 ∧ taken ⟨0, by decide⟩ r.1.tail = 1 ∧
            handed ⟨0, by decide⟩ r.1.tail = 1)) = true := by
    decide +kernel
  obtain ⟨⟨tr, k⟩, hrun, hP⟩ := semRun_of_walk htest
  rw [Bool.and_eq_true] at hP
  cases tr with
  | nil => cases hP.1
  | cons x mid =>
    obtain ⟨hinit, hid⟩ := of_decide_eq_true hP.1
    obtain ⟨hcalls, hposts, htaken, hhanded⟩ := of_decide_eq_true hP.2
    dsimp only [List.tail_cons] at hcalls hposts htaken hhanded
    refine ⟨x, mid, k, hinit, hcalls, htaken, hhanded, ?_⟩
    have hrun' : SemRun ([] ++ x :: mid) k := hrun
    refine sem_permits_conserved hrun' hinit hid (by decide) ?_ (by rw [hposts]; decide)
    rintro y hy ⟨hdestroy, _⟩
    have hmem := List.mem_map_of_mem (f := fun y : SemStep => y.act.1.call) hy
    rw [hcalls, hdestroy] at hmem
    exact absurd hmem (by decide)

end Kernel
end UnivOS
