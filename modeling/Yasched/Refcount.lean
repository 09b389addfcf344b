import Yasched.Steps
import Mathlib.Algebra.BigOperators.Ring.Finset

/-!
# The reference count of a job

`alive_proc` should be the number of tasks of the job that have not run
`enter_exit_hook`, plus the number of its forks in progress. It is exactly as
long as no task exits without a thread entry: the count that `do_fork_agent`
takes for a child is put by the child's exit only through the entry, and
`schedule_tail_agent` may give up on allocating one.
-/

namespace Yasched

open Finset

def jobTasks (s : Sys) (p : Nat) : Finset Nat :=
  {t ∈ range s.ntasks | (s.tasks t).job = some p ∧ (s.tasks t).life ≠ .exited}

/-- The forks that have taken `get_thread` for the job and have neither
created a child nor failed. -/
def forksInProgress (s : Sys) (p : Nat) : Finset Nat :=
  {t ∈ range s.ntasks | (s.tasks t).life = .forking (some p)}

def references (s : Sys) (p : Nat) : Nat := #(jobTasks s p) + #(forksInProgress s p)

/-- Every job's count is right, and the job has been handed to `ya_del_job`
once if nothing refers to it any more, else not at all. -/
def Counted (s : Sys) : Prop :=
  ∀ p < s.njobs, (s.jobs p).aliveProc = references s p ∧
    (s.jobs p).freed = if references s p = 0 then 1 else 0

instance (s : Sys) : Decidable (Counted s) := inferInstanceAs (Decidable (∀ p < s.njobs, _))

def PutsOnExit (s : Sys) (e : Event) : Prop :=
  ∀ t, e = .exit t → (s.tasks t).job ≠ none → (s.tasks t).thread ≠ none

-- ---------------------------------------------------------------------------
-- References as a sum over the tasks
-- ---------------------------------------------------------------------------

/-- The references that one task holds. -/
def Task.references (k : Task) (p : Nat) : Nat :=
  (if k.job = some p ∧ k.life ≠ .exited then 1 else 0) +
    (if k.life = .forking (some p) then 1 else 0)

theorem Task.references_exited (k : Task) (hk : k.life = .exited) : k.references p = 0 := by
  simp [Task.references, hk]

theorem Task.references_forking (k : Task) (hk : k.life = .forking (some q)) :
    k.references p = (if k.job = some p then 1 else 0) + if p = q then 1 else 0 := by
  simp [Task.references, hk, eq_comm]

theorem Task.references_own (k : Task) (hk : k.life ≠ .exited)
    (hf : ∀ q, k.life ≠ .forking (some q)) :
    k.references p = if k.job = some p then 1 else 0 := by
  simp [Task.references, hk, hf p]

theorem references_eq_sum (s : Sys) (p : Nat) :
    references s p = ∑ t ∈ range s.ntasks, (s.tasks t).references p := by
  simp only [references, jobTasks, forksInProgress, Task.references, card_filter, sum_add_distrib]

theorem references_setTask (s : Sys) (ht : t < s.ntasks) :
    references (s.setTask t k) p + (s.tasks t).references p = references s p + k.references p := by
  simp only [references_eq_sum, Sys.setTask_tasks, Sys.setTask_ntasks]
  exact Runs.sum_update (w := fun _ k => Task.references k p) ht

theorem references_pos (ht : t < s.ntasks) (hk : 0 < (s.tasks t).references p) :
    0 < references s p := by
  rw [references_eq_sum, ← add_sum_erase _ _ (mem_range.mpr ht)]
  omega

theorem references_congr (hn : s'.ntasks = s.ntasks)
    (hk : ∀ t, (s'.tasks t).references p = (s.tasks t).references p) :
    references s' p = references s p := by
  simp only [references_eq_sum, hn, hk]

@[simp] theorem references_setJob (s : Sys) : references (s.setJob q job) p = references s p := rfl

theorem SameLife.references (hs : SameLife k k') : k'.references p = k.references p := by
  simp [Task.references, hs.job, hs.life]

theorem Quiet.references (hq : Quiet s s') : references s' p = references s p :=
  references_congr hq.ntasks fun t => (hq.tasks t).references

theorem Quiet.counted (hq : Quiet s s') : Counted s' ↔ Counted s := by
  simp only [Counted, hq.njobs, hq.count, hq.references]

theorem references_setTask_eq (ht : t < s.ntasks)
    (hk : ∀ q, k.references q = (s.tasks t).references q) (q : Nat) :
    references (s.setTask t k) q = references s q := by
  have h := references_setTask (k := k) (p := q) s ht
  rw [hk q] at h
  omega

theorem references_addTask (s : Sys) (k : Task) :
    references (s.addTask k) p = references s p + k.references p := by
  simp only [references_eq_sum, Sys.addTask, sum_range_succ, Function.update_self]
  congr 1
  refine sum_congr rfl fun i hi => ?_
  rw [Function.update_of_ne (Nat.ne_of_lt (mem_range.mp hi))]

theorem references_fresh (hl : Linked s) (hp : s.njobs ≤ p) : references s p = 0 := by
  rw [references_eq_sum, sum_eq_zero]
  intro t _
  have hj : (s.tasks t).job ≠ some p := fun h =>
    absurd ((hl.task t).job p h) (Nat.not_lt_of_le hp)
  have hf : (s.tasks t).life ≠ .forking (some p) := fun h => hj ((hl.task t).forking _ h).symm
  simp [Task.references, hj, hf]

-- ---------------------------------------------------------------------------
-- What taking and putting a reference does to the counts
-- ---------------------------------------------------------------------------

@[simp] theorem references_getThread : references (getThread s p) q = references s q := rfl

@[simp] theorem references_putThread : references (putThread s p) q = references s q :=
  references_congr (by simp) (by simp)

theorem putThread_jobs : (putThread s p).jobs = Function.update s.jobs p
    { s.jobs p with
      aliveProc := (s.jobs p).aliveProc - 1
      freed := (s.jobs p).freed + if (s.jobs p).aliveProc - 1 = 0 then 1 else 0 } := by
  unfold putThread
  dsimp only
  split <;> rename_i hz <;> simp [yaDelJob, hz]

theorem Counted.take (hc : Counted s) (hpos : 0 < references s p)
    (hr : ∀ q, references s' q = references s q + if q = p then 1 else 0)
    (hj : s'.jobs = (getThread s p).jobs) (hn : s'.njobs = s.njobs) : Counted s' := by
  intro q hq
  obtain ⟨ha, hf⟩ := hc q (hn ▸ hq)
  rw [hj, hr q]
  by_cases hqp : q = p
  · subst hqp
    rw [if_neg (by omega)] at hf
    simp [getThread, ha, hf]
  · simp [getThread, hqp, ha, hf]

theorem Counted.put (hc : Counted s)
    (hr : ∀ q, references s' q + (if q = p then 1 else 0) = references s q)
    (hj : s'.jobs = (putThread s p).jobs) (hn : s'.njobs = s.njobs) : Counted s' := by
  intro q hq
  obtain ⟨ha, hf⟩ := hc q (hn ▸ hq)
  have hrq := hr q
  rw [hj, putThread_jobs]
  by_cases hqp : q = p
  · subst hqp
    simp only [if_true] at hrq
    rw [if_neg (by omega)] at hf
    simp only [Function.update_self, ha, hf]
    constructor
    · omega
    · split <;> split <;> omega
  · simp only [hqp, if_false, Nat.add_zero] at hrq
    simp [hqp, ha, hf, hrq]

theorem Counted.keep (hc : Counted s) (hr : ∀ q, references s' q = references s q)
    (hj : s'.jobs = s.jobs) (hn : s'.njobs = s.njobs) : Counted s' := by
  simpa only [Counted, hr, hj, hn] using hc

-- ---------------------------------------------------------------------------
-- The events of a task's life
-- ---------------------------------------------------------------------------

theorem newJob_counted (hl : Linked s) (hc : Counted s) (hr : (s.tasks t).Ready)
    (hj : (s.tasks t).job = none) : Counted (yaInitJob s t junk) := by
  have ht : t < s.ntasks := hl.lt (by simp [hr.1])
  have href (q) : references (yaInitJob s t junk) q =
      references s q + if q = s.njobs then 1 else 0 := by
    have h := references_setTask (k := { s.tasks t with
      job := some s.njobs, thread := some (initThread s.njobs junk) }) (p := q) s ht
    have hnew : references (yaInitJob s t junk) q = references (s.setTask t { s.tasks t with
        job := some s.njobs, thread := some (initThread s.njobs junk) }) q := rfl
    rw [hnew]
    simpa [Task.references, hj, hr.1, eq_comm] using h
  intro q hq
  rw [href q]
  by_cases hqp : q = s.njobs
  · subst hqp
    simp [yaInitJob, references_fresh hl (Nat.le_refl _)]
  · have hlt : q < s.njobs := Nat.lt_of_le_of_ne (Nat.le_of_lt_succ hq) hqp
    obtain ⟨ha, hf⟩ := hc q hlt
    simp [yaInitJob, hqp, ha, hf]

/-- The references that a fork takes for its child are the child's own. -/
theorem child_references (hl : Linked s) (hf : (s.tasks t).life = .forking o) :
    references ((s.setTask t { s.tasks t with life := .live }).addTask
      { job := (s.tasks t).job, life := .born }) q = references s q := by
  have ht : t < s.ntasks := hl.lt (by simp [hf])
  have ho : o = (s.tasks t).job := (hl.task t).forking o hf
  have h := references_setTask (k := { s.tasks t with life := .live }) (p := q) s ht
  rw [Task.references_own { s.tasks t with life := .live } (by simp) (by simp)] at h
  rw [references_addTask,
    Task.references_own { job := (s.tasks t).job, life := .born } (by simp) (by simp)]
  obtain hj | ⟨p, hj⟩ := Option.eq_none_or_eq_some (s.tasks t).job
  · rw [Task.references_own (s.tasks t) (by simp [hf]) (by simp [hf, ho, hj])] at h
    simp only [hj] at h ⊢
    simpa using h
  · rw [Task.references_forking (s.tasks t) (by rw [hf, ho, hj])] at h
    simp only [hj, Option.some.injEq, eq_comm (a := q)] at h ⊢
    omega

theorem live_references (hl : Linked s) (hold : (s.tasks t).life ≠ .unborn)
    (hex : (s.tasks t).life ≠ .exited) (hf : ∀ o, (s.tasks t).life ≠ .forking o)
    (hjob : k.job = (s.tasks t).job) (hex' : k.life ≠ .exited) (hf' : ∀ o, k.life ≠ .forking o) :
    references (s.setTask t k) q = references s q := by
  refine references_setTask_eq (hl.lt hold) (fun q => ?_) q
  rw [k.references_own hex' fun q => hf' _, (s.tasks t).references_own hex fun q => hf _, hjob]

theorem exit_references (hl : Linked s) (hr : (s.tasks t).Ready) (hk : k.life = .exited) :
    references (s.setTask t k) q + (if (s.tasks t).job = some q then 1 else 0) =
      references s q := by
  have h := references_setTask (k := k) (p := q) s (hl.lt (t := t) (by simp [hr.1]))
  rw [k.references_exited hk, (s.tasks t).references_own (by simp [hr.1]) (by simp [hr.1])] at h
  omega

theorem LifeStep.counted (hs : LifeStep s e s') (hl : Linked s) (hc : Counted s)
    (hput : PutsOnExit s e) : Counted s' := by
  cases hs with
  | execve => exact hc
  | newJob hr hj => exact newJob_counted hl hc hr hj
  | @fork t p hr hj =>
    have ht : t < s.ntasks := hl.lt (by simp [hr.1])
    have hpos : 0 < references s p := references_pos ht (by simp [Task.references, hj, hr.1])
    refine hc.take hpos (fun q => ?_) rfl rfl
    have h := references_setTask (k := { s.tasks t with life := .forking (some p) }) (p := q) s ht
    rw [(s.tasks t).references_own (by simp [hr.1]) (by simp [hr.1]),
      Task.references_forking _ rfl] at h
    rw [references_getThread]
    dsimp only at h ⊢
    omega
  | @forkPlain t hr hj =>
    have ht : t < s.ntasks := hl.lt (by simp [hr.1])
    refine hc.keep (references_setTask_eq ht fun q => ?_) rfl rfl
    simp [Task.references, hj, hr.1]
  | child hf hpc => exact hc.keep (fun q => child_references hl hf) rfl rfl
  | @forkFail t p hf hpc =>
    have ht : t < s.ntasks := hl.lt (by simp [hf])
    refine hc.put (p := p) (fun q => ?_) (by rw [putThread_jobs, putThread_jobs]; rfl) (by simp)
    have h := references_setTask (k := { s.tasks t with life := .live }) (p := q) s ht
    rw [Task.references_own { s.tasks t with life := .live } (by simp) (by simp),
      Task.references_forking (s.tasks t) hf] at h
    rw [references_putThread]
    dsimp only at h ⊢
    omega
  | @forkFailPlain t hf hpc =>
    have ht : t < s.ntasks := hl.lt (by simp [hf])
    have ho := (hl.task t).forking _ hf
    refine hc.keep (references_setTask_eq ht fun q => ?_) rfl rfl
    simp [Task.references, hf, ← ho]
  | scheduleTail hb hpc =>
    refine hc.keep (fun q => live_references hl (by simp [hb]) (by simp [hb]) (by simp [hb]) rfl
      ?_ fun o => ?_) rfl rfl
    all_goals dsimp only; split <;> simp
  | attach hlife hpc hj =>
    exact hc.keep (fun q => live_references hl (by simp [hlife]) (by simp [hlife])
      (by simp [hlife]) rfl (by simp) (by simp)) rfl rfl
  | retry hlife hpc =>
    refine hc.keep (fun q => live_references hl (by simp [hlife]) (by simp [hlife])
      (by simp [hlife]) rfl ?_ fun o => ?_) rfl rfl
    all_goals dsimp only; split <;> simp
  | @exit t thread hr hth =>
    refine hc.put (p := thread.job) (fun q => ?_) (by rw [putThread_jobs, putThread_jobs]; rfl)
      (by simp)
    have h := exit_references (q := q) (k := { s.tasks t with thread := none, life := .exited })
      hl hr rfl
    simpa [(hl.task t).thread thread hth, eq_comm] using h
  | @exitPlain t hr hth =>
    have hj : (s.tasks t).job = none := by
      by_contra hj
      exact hput t rfl hj hth
    refine hc.keep (fun q => ?_) rfl rfl
    have h := exit_references (q := q) (k := { s.tasks t with life := .exited }) hl hr rfl
    simpa [hj] using h

/-- The count still stands for a task that has gone without an entry. -/
theorem LifeStep.puts (hs : LifeStep s e s') (hl : Linked s) (hc : Counted s) (hc' : Counted s') :
    PutsOnExit s e := by
  rintro t rfl hj hth
  cases hs with
  | exit hr hsome => simp [hth] at hsome
  | exitPlain hr _ =>
    obtain ⟨p, hj⟩ := Option.ne_none_iff_exists'.mp hj
    have hp := (hl.task t).job p hj
    have hold := (hc p hp).1
    have hnew : (s.jobs p).aliveProc = _ := (hc' p hp).1
    have h := exit_references (q := p) (k := { s.tasks t with life := .exited }) hl hr rfl
    rw [if_pos hj] at h
    omega

-- ---------------------------------------------------------------------------
-- Whole runs
-- ---------------------------------------------------------------------------

theorem init_counted (n : Nat) : Counted (init n) := by
  intro p hp
  exact absurd hp (Nat.not_lt_zero p)

theorem step_counted (hl : Linked s) (hc : Counted s) (hs : step .all s e = some s') :
    Counted s' ↔ PutsOnExit s e := by
  by_cases he : e.OfLife
  · have hlife := life_cases he hs
    exact ⟨hlife.puts hl hc, hlife.counted hl hc⟩
  · refine iff_of_true ((step_quiet he hs).counted.mpr hc) ?_
    rintro t rfl
    exact absurd trivial he

/-- In a run from any number of ordinary tasks, the counts are right in every
state reached exactly when no task of a job exits without a thread entry. -/
theorem counted_iff_puts (n : Nat) (es : List Event) :
    Runs.Always (step .all) Counted (init n) es ↔
      Runs.Along (step .all) PutsOnExit (init n) es :=
  Runs.always_iff_along (fun _ _ _ hl hs => step_linked hl hs)
    (fun _ _ _ hl hc hs => step_counted hl hc hs) (init_linked n) (init_counted n)

/-- One job of two tasks. The child's nine allocations fail, it goes on
without an entry and exits, and its reference is never put. -/
theorem counted_fails :
    ¬ ∀ n es s, Runs.run (step .all) (init n) es = some s → Counted s := by
  intro h
  have hrun : (Runs.run (step .all) (init 1)
      ([.execve 0 .running [true, true], .fork 0, .child 0, .scheduleTail 1] ++
        List.replicate 9 (.tryThread 1 .running false) ++ [.exit 1])).map
      (fun s => decide (Counted s)) = some false := by
    decide
  obtain ⟨s, hs, hc⟩ := Option.map_eq_some_iff.mp hrun
  exact of_decide_eq_false hc (h _ _ _ hs)

end Yasched
