import Yasched.System

/-!
# The zone's list and the control operations

Creations, deletions and control calls on `ya_sched_zone`, each under the
lock of the zone, in any order. The ids on `job_list` increase from head to
tail, so the first job that `search_job_by_id` meets is the only one with that
id.
-/

namespace Yasched

/-- What is done to the zone under its lock. A deletion is of any listed job;
`keep` is as in `Event.wakeUp`. -/
inductive ZoneEvent
  | newJob (t : Nat) (junk : TaskState)
  | delJob (p : Nat)
  | control (op : JobOp) (keep : List Nat) (zid jid : Nat)
  deriving DecidableEq, Repr

def zoneStep (h : Hooks) (s : Sys) : ZoneEvent → Option Sys
  | .newJob t junk => some (yaInitJob s t junk)
  | .delJob p => if p ∈ s.jobList then some (yaDelJob s p) else none
  | .control op keep zid jid => some (jobOp op h keep s zid jid).2

def Sys.Live (s : Sys) (p : Nat) : Prop := p < s.njobs ∧ (s.jobs p).freed = 0

instance (s : Sys) (p : Nat) : Decidable (s.Live p) := inferInstanceAs (Decidable (_ ∧ _))

/-- The counter gives the `p`-th job the id `p`, as long as it does not wrap,
and the list holds the live jobs in the order of their creation. -/
structure Numbered (s : Sys) : Prop where
  next : incJid s.maxJid = s.njobs % jidBound
  id : ∀ p < s.njobs, (s.jobs p).id = p % jidBound
  sorted : s.jobList.Pairwise (· < ·)
  listed : ∀ p, p ∈ s.jobList ↔ s.Live p

-- ---------------------------------------------------------------------------
-- What the operations do to the jobs
-- ---------------------------------------------------------------------------

@[simp] theorem wakeUp_jobs : (wakeUp h keep s).jobs = s.jobs := by
  unfold wakeUp
  split <;> rfl
@[simp] theorem wakeUp_njobs : (wakeUp h keep s).njobs = s.njobs := by
  unfold wakeUp
  split <;> rfl
@[simp] theorem wakeUp_jobList : (wakeUp h keep s).jobList = s.jobList := by
  unfold wakeUp
  split <;> rfl
@[simp] theorem wakeUp_maxJid : (wakeUp h keep s).maxJid = s.maxJid := by
  unfold wakeUp
  split <;> rfl

theorem searchJobById_some (h : searchJobById s jid = some p) :
    p ∈ s.jobList ∧ (s.jobs p).id = jid :=
  ⟨List.mem_of_find?_eq_some h, by simpa using List.find?_some h⟩

theorem searchJobById_none : searchJobById s jid = none ↔ ∀ p ∈ s.jobList, (s.jobs p).id ≠ jid := by
  simp [searchJobById]

/-- A control call finds a job and writes its state, or changes nothing. -/
inductive ControlStep (op : JobOp) (s : Sys) (zid jid : Nat) : Int → Sys → Prop
  | found : zid = 0 → searchJobById s jid = some p → s'.njobs = s.njobs →
      s'.jobList = s.jobList → s'.maxJid = s.maxJid →
      s'.jobs = Function.update s.jobs p
        { s.jobs p with state := (op.write (s.jobs p).state).1 } →
      ControlStep op s zid jid 0 s'
  | unknown : zid ≠ 0 ∨ searchJobById s jid = none → ControlStep op s zid jid (-einval) s

theorem control_cases (op : JobOp) (h : Hooks) (keep : List Nat) (s : Sys) (zid jid : Nat) :
    ControlStep op s zid jid (jobOp op h keep s zid jid).1 (jobOp op h keep s zid jid).2 := by
  unfold jobOp searchZoneById
  by_cases hz : zid = 0
  · simp only [hz, if_true]
    cases hp : searchJobById s jid with
    | none => exact .unknown (.inr hp)
    | some p =>
      exact .found rfl hp (wakeUp_njobs.trans rfl) (wakeUp_jobList.trans rfl)
        (wakeUp_maxJid.trans rfl) (wakeUp_jobs.trans rfl)
  · simp only [hz, if_false]
    exact .unknown (.inl hz)

-- ---------------------------------------------------------------------------
-- The numbering
-- ---------------------------------------------------------------------------

theorem incJid_mod (n : Nat) : incJid (n % jidBound) = (n + 1) % jidBound := by
  simp [incJid, Nat.mod_add_mod]

theorem init_numbered (n : Nat) : Numbered (init n) := by
  refine ⟨by simp [init, incJid, jidBound], ?_, .nil, ?_⟩
  · intro p hp
    exact absurd hp (Nat.not_lt_zero p)
  · intro p
    simp [init, Sys.Live]

theorem Numbered.congr (hn : Numbered s) (hnjobs : s'.njobs = s.njobs)
    (hlist : s'.jobList = s.jobList) (hmax : s'.maxJid = s.maxJid)
    (hjob : ∀ q, (s'.jobs q).id = (s.jobs q).id ∧ (s'.jobs q).freed = (s.jobs q).freed) :
    Numbered s' := by
  refine ⟨by rw [hmax, hnjobs, hn.next], ?_, hlist ▸ hn.sorted, ?_⟩
  · intro q hq
    rw [(hjob q).1]
    exact hn.id q (hnjobs ▸ hq)
  · intro q
    rw [hlist, hn.listed, Sys.Live, Sys.Live, hnjobs, (hjob q).2]

theorem Numbered.newJob (hn : Numbered s) : Numbered (yaInitJob s t junk) := by
  have hnext : (yaInitJob s t junk).maxJid = s.njobs % jidBound := hn.next
  refine ⟨?_, ?_, ?_, ?_⟩
  · rw [hnext, incJid_mod]
    rfl
  · intro p hp
    by_cases hnew : p = s.njobs
    · subst hnew
      simpa [yaInitJob] using hn.next
    · have hlt : p < s.njobs := Nat.lt_of_le_of_ne (Nat.le_of_lt_succ hp) hnew
      simpa [yaInitJob, hnew] using hn.id p hlt
  · refine List.pairwise_append.mpr ⟨hn.sorted, List.pairwise_singleton _ _, ?_⟩
    intro p hp q hq
    rw [List.mem_singleton.mp hq]
    exact ((hn.listed p).mp hp).1
  · intro p
    have hold := hn.listed p
    unfold Sys.Live at hold ⊢
    by_cases hnew : p = s.njobs
    · subst hnew
      simp [yaInitJob]
    · have hlt : p < s.njobs + 1 ↔ p < s.njobs := by omega
      simp [yaInitJob, hnew, hold, hlt]

theorem Numbered.delJob (hn : Numbered s) : Numbered (yaDelJob s p) := by
  have hnodup : s.jobList.Nodup := hn.sorted.imp Nat.ne_of_lt
  refine ⟨hn.next, ?_, hn.sorted.sublist List.erase_sublist, ?_⟩
  · intro q hq
    by_cases hqp : q = p
    · subst hqp
      simpa [yaDelJob] using hn.id q hq
    · simpa [yaDelJob, hqp] using hn.id q hq
  · intro q
    have hold := hn.listed q
    unfold Sys.Live at hold ⊢
    simp only [yaDelJob, hnodup.mem_erase_iff, hold]
    by_cases hqp : q = p
    · simp [hqp]
    · simp [hqp]

theorem Numbered.control (hn : Numbered s) (hs : ControlStep op s zid jid ret s') :
    Numbered s' := by
  cases hs with
  | unknown _ => exact hn
  | @found p s' _ _ hnjobs hlist hmax hjobs =>
    refine hn.congr hnjobs hlist hmax fun q => ?_
    rw [hjobs]
    by_cases hqp : q = p
    · subst hqp; simp
    · simp [hqp]

theorem step_numbered (hn : Numbered s) (hs : zoneStep h s e = some s') : Numbered s' := by
  cases e with
  | newJob t junk =>
    cases hs
    exact hn.newJob
  | delJob p =>
    simp only [zoneStep] at hs
    split at hs <;> cases hs
    exact hn.delJob
  | control op keep zid jid =>
    cases hs
    exact hn.control (control_cases op h keep s zid jid)

-- ---------------------------------------------------------------------------
-- Control calls
-- ---------------------------------------------------------------------------

/-- The call returns 0 and writes the state of the one live job with the id,
or returns `-EINVAL` and leaves every job as it is. -/
structure Hits (op : JobOp) (s : Sys) (zid jid : Nat) (ret : Int) (s' : Sys) : Prop where
  found : ∀ p, s.Live p → zid = 0 → (s.jobs p).id = jid → ret = 0 ∧
    s'.jobs = Function.update s.jobs p { s.jobs p with state := (op.write (s.jobs p).state).1 }
  unknown : zid ≠ 0 ∨ (∀ p, s.Live p → (s.jobs p).id ≠ jid) → ret = -einval ∧ s'.jobs = s.jobs

theorem Numbered.id_inj (hn : Numbered s) (hb : s.njobs ≤ jidBound) (hp : p < s.njobs)
    (hq : q < s.njobs) (hid : (s.jobs p).id = (s.jobs q).id) : p = q := by
  rwa [hn.id p hp, hn.id q hq, Nat.mod_eq_of_lt (by omega), Nat.mod_eq_of_lt (by omega)] at hid

theorem Numbered.increasing (hn : Numbered s) (hb : s.njobs ≤ jidBound) :
    (s.jobList.map fun p => (s.jobs p).id).Pairwise (· < ·) := by
  rw [List.pairwise_map]
  refine hn.sorted.imp_of_mem fun {p q} hp hq hlt => ?_
  have hp := ((hn.listed p).mp hp).1
  have hq := ((hn.listed q).mp hq).1
  rwa [hn.id p hp, hn.id q hq, Nat.mod_eq_of_lt (by omega), Nat.mod_eq_of_lt (by omega)]

theorem Numbered.hits (hn : Numbered s) (hb : s.njobs ≤ jidBound)
    (hs : ControlStep op s zid jid ret s') : Hits op s zid jid ret s' := by
  cases hs with
  | @found q s' hzid hq _ _ _ hjobs =>
    obtain ⟨hmem, hid⟩ := searchJobById_some hq
    have hlive := (hn.listed q).mp hmem
    constructor
    · rintro p hp - hpid
      obtain rfl := hn.id_inj hb hlive.1 hp.1 (hid.trans hpid.symm)
      exact ⟨rfl, hjobs⟩
    · rintro (hne | hnone)
      · exact absurd hzid hne
      · exact absurd hid (hnone q hlive)
  | unknown hno =>
    constructor
    · intro p hp hzid hpid
      rcases hno with hne | hnone
      · exact absurd hzid hne
      · exact absurd hpid (searchJobById_none.mp hnone p ((hn.listed p).mpr hp))
    · exact fun _ => ⟨rfl, rfl⟩

/-- With fewer than 2^64 creations, the ids on the list increase, no id is
given twice, and every control call hits the job it addresses and no other. -/
theorem control_hits (hr : Runs.run (zoneStep h) (init n) es = some s) (hb : s.njobs < jidBound) :
    (s.jobList.map fun p => (s.jobs p).id).Pairwise (· < ·) ∧
    (∀ p q, p < s.njobs → q < s.njobs → (s.jobs p).id = (s.jobs q).id → p = q) ∧
    ∀ op keep zid jid, Hits op s zid jid (jobOp op h keep s zid jid).1
      (jobOp op h keep s zid jid).2 := by
  have hn : Numbered s := Runs.invariant (fun _ _ _ hn hs => step_numbered hn hs)
    (init_numbered n) hr
  have hb := Nat.le_of_lt hb
  exact ⟨hn.increasing hb, fun _ _ hp hq hid => hn.id_inj hb hp hq hid,
    fun op keep zid jid => hn.hits hb (control_cases op h keep s zid jid)⟩

/-- Three jobs, of which the second is deleted; a call for the last. -/
theorem control_hits_last : ∃ s, Runs.run (zoneStep .all) (init 1)
    [.newJob 0 .running, .newJob 0 .running, .newJob 0 .running, .delJob 1] = some s ∧
    Hits .suspend s 0 2 (jobOp .suspend .all [] s 0 2).1 (jobOp .suspend .all [] s 0 2).2 := by
  obtain ⟨s, hs, hn⟩ : ∃ s, Runs.run (zoneStep .all) (init 1)
      [.newJob 0 .running, .newJob 0 .running, .newJob 0 .running, .delJob 1] = some s ∧
      s.njobs = 3 := ⟨_, rfl, rfl⟩
  exact ⟨s, hs, (control_hits hs (by rw [hn]; decide)).2.2 .suspend [] 0 2⟩

end Yasched
