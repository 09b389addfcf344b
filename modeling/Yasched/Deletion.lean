import Yasched.StoreLaws

/-!
# Deleting a thread

In every store that the system reaches, the count of a job covers its entries
and the forks and children that are to get one. So `ya_del_thread` finds every
object it needs, up to the last line of `ya_del_job`: that one reads the job it
has just freed. The deletion is safe for a thread whose job it leaves alive.
-/

namespace Yasched.Objects

open Cells

/-- What a count of job `j` was taken for: an entry, or a task. -/
def Holder (s : Store) (j : Nat) : Nat ⊕ Nat → Prop
  | .inl b => ∃ thread, s.threads b = some thread ∧ thread.job = j
  | .inr t => (s.tasks t).Pending j

structure Counts (s : Store) : Prop where
  null : s.jobs 0 = none
  live : ∀ j x, Holder s j x → ∃ job, s.jobs j = some job
  count : ∀ j job, s.jobs j = some job → AtMost (Holder s j) job.aliveProc

/-- A fork keeps the job of its task; numbers that are not given out yet belong
to no task. -/
structure Forks (s : Store) : Prop where
  forking : ∀ t o, (s.tasks t).life = .forking o → (s.tasks t).job = o
  unborn : ∀ t, s.ntasks ≤ t → s.tasks t = {}

theorem Counts.held (hc : Counts s) : Held s where
  null := hc.null
  thread b thread hb := hc.live thread.job (.inl b) ⟨thread, hb, rfl⟩
  task t j hp := hc.live j (.inr t) hp

-- ---------------------------------------------------------------------------
-- What keeps the counts
-- ---------------------------------------------------------------------------

theorem Counts.shrink (hc : Counts s) (hjobs : s'.jobs = s.jobs)
    (hh : ∀ j x, Holder s' j x → Holder s j x) : Counts s' where
  null := hjobs ▸ hc.null
  live j x hx := hjobs ▸ hc.live j x (hh j x hx)
  count j job hj := (hc.count j job (hjobs ▸ hj)).mono le_rfl (hh j)

theorem Counts.set {job : Job} (hc : Counts s) (hj : j ≠ 0)
    (hjobs : s'.jobs = Function.update s.jobs j (some job))
    (hh : ∀ i x, i ≠ j → Holder s' i x → Holder s i x)
    (hcount : AtMost (Holder s' j) job.aliveProc) : Counts s' where
  null := by rw [hjobs, Function.update_of_ne (Ne.symm hj), hc.null]
  live i x hx := by
    rw [hjobs]
    rcases eq_or_ne i j with rfl | hne
    · exact ⟨job, Function.update_self ..⟩
    · rw [Function.update_of_ne hne]
      exact hc.live i x (hh i x hne hx)
  count i job' hi := by
    rw [hjobs] at hi
    rcases eq_or_ne i j with rfl | hne
    · rw [Function.update_self] at hi
      cases hi
      exact hcount
    · rw [Function.update_of_ne hne] at hi
      exact (hc.count i job' hi).mono le_rfl fun x => hh i x hne

theorem Counts.free (hc : Counts s) (hjobs : s'.jobs = Function.update s.jobs j none)
    (hh : ∀ i x, i ≠ j → Holder s' i x → Holder s i x) (hnone : ∀ x, ¬Holder s' j x) :
    Counts s' where
  null := by
    rw [hjobs]
    rcases eq_or_ne 0 j with rfl | hne
    · exact Function.update_self ..
    · rw [Function.update_of_ne hne, hc.null]
  live i x hx := by
    rcases eq_or_ne i j with rfl | hne
    · exact absurd hx (hnone x)
    · rw [hjobs, Function.update_of_ne hne]
      exact hc.live i x (hh i x hne hx)
  count i job hi := by
    rcases eq_or_ne i j with rfl | hne
    · simp [hjobs] at hi
    · rw [hjobs, Function.update_of_ne hne] at hi
      exact (hc.count i job hi).mono le_rfl fun x => hh i x hne

@[simp] theorem put_threads (s : Store) : (s.put j job).threads = s.threads := by
  unfold Store.put
  split <;> rfl

@[simp] theorem put_tasks (s : Store) : (s.put j job).tasks = s.tasks := by
  unfold Store.put
  split <;> rfl

@[simp] theorem put_ntasks (s : Store) : (s.put j job).ntasks = s.ntasks := by
  unfold Store.put
  split <;> rfl

/-- `put_thread` in the store `m` that `s` is without one holder of job `j`. -/
theorem Counts.put {m : Store} {job job' : Job} (hc : Counts s) (hj : s.jobs j = some job)
    (hjobs : ∀ o, Function.update m.jobs j o = Function.update s.jobs j o) (hx : Holder s j x)
    (hh : ∀ i y, Holder m i y → Holder s i y ∧ (i = j → y ≠ x))
    (halive : job'.aliveProc = job.aliveProc) : Counts (m.put j job') := by
  have hcount : AtMost (Holder m j) (job.aliveProc - 1) :=
    (hc.count j job hj).lose hx fun y hy => ⟨(hh j y hy).1, (hh j y hy).2 rfl⟩
  have hothers : ∀ i y, i ≠ j → Holder m i y → Holder s i y := fun i y _ hy => (hh i y hy).1
  unfold Store.put
  split
  · rename_i h1
    have hzero : AtMost (Holder m j) 0 := hcount.mono (by omega) fun _ hy => hy
    exact hc.free (hjobs none) hothers hzero.none
  · refine hc.set (hc.held.ne_zero hj) (hjobs _) hothers ?_
    exact hcount.mono (by simp [Job.put, halive]) fun _ hy => hy

-- ---------------------------------------------------------------------------
-- The steps
-- ---------------------------------------------------------------------------

namespace Holder

variable {s s' : Store} {b t : Nat}

theorem congr (hk : s'.tasks = s.tasks) (ht : s'.threads = s.threads) :
    Holder s' j x ↔ Holder s j x := by
  cases x <;> simp [Holder, ht, hk]

theorem thread {thread : Thread} (hx : Holder s' j x) (hk : s'.tasks = s.tasks)
    (ht : s'.threads = Function.update s.threads b (some thread)) :
    Holder s j x ∨ x = .inl b ∧ thread.job = j := by
  rcases x with i | i
  · obtain ⟨other, hi, hjob⟩ := hx
    rw [ht] at hi
    rcases eq_or_ne i b with rfl | hne
    · rw [Function.update_self] at hi
      cases hi
      exact .inr ⟨rfl, hjob⟩
    · rw [Function.update_of_ne hne] at hi
      exact .inl ⟨other, hi, hjob⟩
  · exact .inl (by simpa [Holder, hk] using hx)

theorem freed (hx : Holder s' j x) (hk : s'.tasks = s.tasks)
    (ht : s'.threads = Function.update s.threads b none) : Holder s j x ∧ x ≠ .inl b := by
  rcases x with i | i
  · obtain ⟨other, hi, hjob⟩ := hx
    rw [ht] at hi
    rcases eq_or_ne i b with rfl | hne
    · simp at hi
    · rw [Function.update_of_ne hne] at hi
      exact ⟨⟨other, hi, hjob⟩, by simpa using hne⟩
  · exact ⟨by simpa [Holder, hk] using hx, by simp⟩

theorem task {k : Task} (hx : Holder (s.setTask t k) j x) :
    Holder s j x ∧ x ≠ .inr t ∨ x = .inr t ∧ k.Pending j := by
  rcases x with i | i
  · exact .inl ⟨hx, by simp⟩
  · have hi : (Function.update s.tasks t k i).Pending j := hx
    rcases eq_or_ne i t with rfl | hne
    · exact .inr ⟨rfl, by simpa using hi⟩
    · rw [Function.update_of_ne hne] at hi
      exact .inl ⟨hi, by simpa using hne⟩

theorem idle {k : Task} (hp : ∀ j, ¬k.Pending j) (hx : Holder (s.setTask t k) j x) :
    Holder s j x ∧ x ≠ .inr t :=
  hx.task.resolve_right fun h => hp j h.2

end Holder

theorem newJob_counts (hc : Counts s) (ha : s.jobs a = none) (ha0 : a ≠ 0) :
    Counts ((s.newJob size t a b dir entry dirFails fileFails).setLife t (.execing tsi)) := by
  obtain ⟨dir', entry', hjobs, hthreads⟩ := s.newJob_objects size t a b dir entry dirFails
    fileFails
  have hholder : ∀ j x, Holder ((s.newJob size t a b dir entry dirFails fileFails).setLife t
      (.execing tsi)) j x → Holder s j x ∨ x = .inl b ∧ a = j := by
    intro j x hx
    have hx := (Holder.idle (by simp [Task.Pending]) hx).1
    exact hx.thread (s := s) rfl hthreads
  refine hc.set ha0 hjobs ?_ ?_
  · intro i x hne hx
    exact (hholder i x hx).resolve_right fun h => hne h.2.symm
  · have hempty : AtMost (Holder s a) 0 := by
      intro H hH
      have hnone : H = ∅ := Finset.eq_empty_of_forall_notMem fun x hx => by
        obtain ⟨job, hjob⟩ := hc.live a x (hH x hx)
        cases ha.symm.trans hjob
      simp [hnone]
    exact hempty.gain fun x hx => (hholder a x hx).imp_right And.left

theorem fork_counts {job : Job} (hc : Counts s) (hjob : s.jobs j = some job) :
    Counts ((s.setJob j (some job.get)).setLife t (.forking (some j))) := by
  refine hc.set (hc.held.ne_zero hjob) rfl ?_ ?_
  · intro i x hne hx
    rcases Holder.task hx with ⟨hx, -⟩ | ⟨-, hp⟩
    · exact hx
    · exact absurd hp (by simp [Task.Pending, Ne.symm hne])
  · refine (hc.count j job hjob).gain (a := .inr t) fun x hx => ?_
    exact (Holder.task hx).imp And.left And.left

theorem Forks.lt (hf : Forks s) (hl : (s.tasks t).life ≠ .unborn) : t < s.ntasks := by
  rcases Nat.lt_or_ge t s.ntasks with ht | ht
  · exact ht
  · exact absurd (by rw [hf.unborn t ht]) hl

theorem child_counts (hf : Forks s) (hc : Counts s) (hl : (s.tasks t).life = .forking o) :
    Counts (forkChild s t pid grouped) := by
  have hjob := hf.forking t o hl
  have hholder : ∀ j x, Holder (forkChild s t pid grouped) j x →
      (Holder s j x ∧ x ≠ .inr t) ∨ x = .inr s.ntasks ∧ o = some j := by
    intro j x hx
    have hx : Holder ((s.setLife t .live).setTask s.ntasks _) j x := (Holder.congr rfl rfl).mp hx
    rcases hx.task with ⟨hx, -⟩ | ⟨rfl, hp⟩
    · exact .inl (Holder.idle (by simp [Task.Pending]) hx)
    · exact .inr ⟨rfl, by simpa [Task.Pending, hjob] using hp⟩
  cases o with
  | none =>
    refine hc.shrink rfl fun j x hx => ?_
    exact ((hholder j x hx).resolve_right fun h => nomatch h.2).1
  | some j =>
    obtain ⟨job, hj⟩ := hc.live j (.inr t) (.inl hl)
    refine hc.set (hc.held.ne_zero hj) (by rw [← hj, Function.update_eq_self]; rfl) ?_ ?_
    · intro i x hne hx
      exact ((hholder i x hx).resolve_right fun h => hne (Option.some.inj h.2).symm).1
    · refine (hc.count j job hj).move (a := .inr t) (b := .inr s.ntasks) (.inl hl) fun x hx => ?_
      exact (hholder j x hx).imp_right And.left

theorem forkFail_counts {job : Job} (hc : Counts s) (hl : (s.tasks t).life = .forking (some j))
    (hjob : s.jobs j = some job) : Counts ((s.setLife t .live).put j job) := by
  refine hc.put (x := .inr t) hjob (fun _ => rfl) (.inl hl) (fun i y hy => ?_) rfl
  obtain ⟨hy, hne⟩ := Holder.idle (by simp [Task.Pending]) hy
  exact ⟨hy, fun _ => hne⟩

theorem exit_counts {thread : Thread} {job : Job} (hc : Counts s)
    (hb : s.threads b = some thread) (hjob : s.jobs thread.job = some job) :
    Counts (((s.setLife t .exited).delThread b thread job).put thread.job (job.detach b)) := by
  refine hc.put (x := .inl b) hjob (fun o => ?_) ⟨thread, hb, rfl⟩ (fun i y hy => ?_) rfl
  · simp [Store.delThread]
  · have hy' : Holder (s.setLife t .exited) i y ∧ y ≠ .inl b :=
      hy.freed Store.delThread_tasks Store.delThread_threads
    exact ⟨(Holder.idle (by simp [Task.Pending]) hy'.1).1, fun _ => hy'.2⟩

theorem attach_counts {job : Job} (hc : Counts s) (hl : (s.tasks t).life = .born)
    (hj : (s.tasks t).job = some j) (hjob : s.jobs j = some job) :
    Counts (((s.setLife t .live).attach size t b j job entry).addThreadFile b
      { task := t, job := j, entry } job' fileFails) := by
  have hholder : ∀ i x, Holder (((s.setLife t .live).attach size t b j job entry).addThreadFile b
      { task := t, job := j, entry } job' fileFails) i x →
      (Holder s i x ∧ x ≠ .inr t) ∨ x = .inl b ∧ j = i := by
    intro i x hx
    rcases hx.thread (s := s.setLife t .live) rfl (Function.update_idem ..) with hx | hx
    · exact .inl (Holder.idle (by simp [Task.Pending]) hx)
    · exact .inr hx
  refine hc.set (hc.held.ne_zero hjob) rfl ?_ ?_
  · intro i x hne hx
    exact ((hholder i x hx).resolve_right fun h => hne h.2.symm).1
  · refine (hc.count j job hjob).move (a := .inr t) (b := .inl b) (.inr ⟨hl, hj⟩) fun x hx => ?_
    exact (hholder j x hx).imp_right And.left

theorem step_counts (hf : Forks s) (hc : Counts s) (hs : step size s e = some s') : Counts s' := by
  cases step_effect hc.held hs with
  | newJob hl hj ha ha0 hb hb0 hz => exact newJob_counts hc ha ha0
  | fork hl hj hjob => exact fork_counts hc hjob
  | forkFaults hl hj hjob => exact hc
  | child hl => exact child_counts hf hc hl
  | forkFail hl hjob => exact forkFail_counts hc hl hjob
  | attach hl hj hjob hb hb0 => exact attach_counts hc hl hj hjob
  | exit hl hb ht hjob => exact exit_counts hc hb hjob
  | execve | execveReturn | forkPlain | forkFailPlain | tail | exitPlain =>
    refine hc.shrink rfl fun j x hx => (Holder.idle ?_ hx).1
    simp [Task.Pending, Store.returned]

theorem Forks.set {k : Task} (hf : Forks s) (hl : (s.tasks t).life ≠ .unborn)
    (hn : s'.ntasks = s.ntasks) (hk : s'.tasks = Function.update s.tasks t k)
    (hfork : ∀ o, k.life = .forking o → k.job = o) : Forks s' where
  forking i o hi := by
    rw [hk] at hi ⊢
    rcases eq_or_ne i t with rfl | hne
    · rw [Function.update_self] at hi ⊢
      exact hfork o hi
    · rw [Function.update_of_ne hne] at hi ⊢
      exact hf.forking i o hi
  unborn i hi := by
    rw [hn] at hi
    have hne : i ≠ t := (Nat.lt_of_lt_of_le (hf.lt hl) hi).ne'
    rw [hk, Function.update_of_ne hne, hf.unborn i hi]

theorem child_forks (hf : Forks s) (hl : (s.tasks t).life ≠ .unborn) :
    Forks (forkChild s t pid grouped) := by
  have hlive : Forks (s.setLife t .live) := hf.set hl rfl rfl (by simp)
  constructor
  · intro i o hi
    rcases eq_or_ne i s.ntasks with rfl | hne
    · simp [forkChild, Store.setTask] at hi
    · have htask : (forkChild s t pid grouped).tasks i = (s.setLife t .live).tasks i :=
        Function.update_of_ne hne ..
      rw [htask] at hi ⊢
      exact hlive.forking i o hi
  · intro i (hi : s.ntasks + 1 ≤ i)
    have hne : i ≠ s.ntasks := by omega
    exact (Function.update_of_ne hne ..).trans (hlive.unborn i (by exact Nat.le_of_succ_le hi))

theorem step_forks (hf : Forks s) (hc : Counts s) (hs : step size s e = some s') : Forks s' := by
  cases step_effect hc.held hs with
  | forkFaults => exact hf
  | child hl => exact child_forks hf (by simp [hl])
  | fork hl hj | forkPlain hl hj =>
    refine hf.set (by simp [hl]) rfl rfl ?_
    rintro o ⟨⟩
    exact hj
  | forkFail hl =>
    exact hf.set (by simp [hl]) (put_ntasks _) (put_tasks _) (by simp)
  | exit hl =>
    exact hf.set (by simp [hl]) ((put_ntasks _).trans Store.delThread_ntasks)
      ((put_tasks _).trans Store.delThread_tasks) (by simp)
  | execve hl | newJob hl | execveReturn hl | forkFailPlain hl | attach hl | tail hl
  | exitPlain hl =>
    exact hf.set (by simp [hl]) rfl rfl (by simp [Store.returned])

theorem init_forks : Forks (init n pid leader dirFails rootdir dir proc) where
  forking t o ht := by
    simp only [init] at ht
    split at ht <;> cases ht
  unborn t ht := if_neg (Nat.not_lt.mpr ht)

theorem init_counts : Counts (init n pid leader dirFails rootdir dir proc) where
  null := rfl
  live j x hx := by
    rcases x with b | t
    · obtain ⟨thread, hb, -⟩ := hx
      cases hb
    · simp only [Holder, init, Task.Pending] at hx
      split at hx <;> simp at hx
  count j job hj := nomatch hj

-- ---------------------------------------------------------------------------
-- ya_del_thread
-- ---------------------------------------------------------------------------

/-- What a deletion of the thread at `b` is to leave: the thread is freed, and
so is its job, out of the zone's list, if this was the last one counted. All
other objects stay as they are. -/
structure Deleted (s : Store) (b : Nat) (thread : Thread) (job : Job) (s' : Store) : Prop where
  threads : s'.threads = Function.update s.threads b none
  last : job.aliveProc = 1 →
    s'.jobs = Function.update s.jobs thread.job none ∧ s'.jobList = s.jobList.erase thread.job
  others : job.aliveProc ≠ 1 →
    s'.jobs = Function.update s.jobs thread.job (some (job.detach b).put) ∧ s'.jobList = s.jobList

/-- The function runs to its end, without a lookup that fails. -/
def DeletesSafely (s : Store) (b : Nat) (thread : Thread) (job : Job) : Prop :=
  ∃ s', exec (yaDelThread b) s = (.ok (), s') ∧ Deleted s b thread job s'

theorem delThread_deleted (hn : job.aliveProc ≠ 1) : Deleted s b thread job
    ((s.delThread b thread job).setJob thread.job (some (job.detach b).put)) where
  threads := Store.delThread_threads
  last h1 := absurd h1 hn
  others _ := ⟨by simp [Store.delThread], Store.delThread_jobList⟩

/-- The last thread leaves all it is to leave, and then the message faults. -/
theorem delThread_last {thread : Thread} {job : Job} (hb : s.threads b = some thread)
    (hjob : s.jobs thread.job = some job) (hj : thread.job ≠ 0) (h1 : job.aliveProc = 1) :
    ∃ s', exec (yaDelThread b) s = (.error (.freed thread.job), s') ∧
      Deleted s b thread job s' := by
  refine ⟨_, exec_yaDelThread_last hb hjob hj h1, Store.delThread_threads, fun _ => ⟨?_, ?_⟩,
    fun hn => absurd h1 hn⟩
  · simp [Store.delJob, Store.delThread]
  · exact congrArg (·.erase thread.job) Store.delThread_jobList

theorem counts_of_run
    (hr : Runs.run (step size) (init n pid leader dirFails rootdir dir proc) es = some s) :
    Counts s ∧ Forks s :=
  Runs.invariant (I := fun s => Counts s ∧ Forks s)
    (fun _ _ _ ⟨hc, hf⟩ hs => ⟨step_counts hf hc hs, step_forks hf hc hs⟩)
    ⟨init_counts, init_forks⟩ hr

/-- Deleting a thread is safe exactly when its job outlives it. -/
theorem delThread_safe_iff
    (hr : Runs.run (step size) (init n pid leader dirFails rootdir dir proc) es = some s)
    (hb : s.threads b = some thread) :
    ∃ job, s.jobs thread.job = some job ∧
      (DeletesSafely s b thread job ↔ job.aliveProc ≠ 1) := by
  obtain ⟨hc, -⟩ := counts_of_run hr
  obtain ⟨job, hjob⟩ := hc.held.thread b thread hb
  refine ⟨job, hjob, ?_⟩
  constructor
  · rintro ⟨s', hexec, -⟩ h1
    rw [exec_yaDelThread_last hb hjob (hc.held.ne_zero hjob) h1] at hexec
    cases hexec
  · intro hn
    exact ⟨_, exec_yaDelThread_ok hb hjob hn, delThread_deleted hn⟩

def unwritten : DirEntry := { name := .other "", entry := none, written := false }

def sampleInit (n : Nat) : Store :=
  init n (fun t => t + 1) (fun t => t) false (some [.yasched]) unwritten {[.yasched]}

def sampleJob : List Event :=
  [.execve 0 (some .yaSchedZone) (some (0x1000, unwritten)) (some (0x2000, unwritten)) false false,
    .execveReturn 0 true]

theorem delThread_safe_iff_forked : ∃ s thread job,
    Runs.run (step 64) (sampleInit 1) (sampleJob ++ [.fork 0]) = some s ∧
      s.threads 0x2000 = some thread ∧ s.jobs thread.job = some job ∧
      DeletesSafely s 0x2000 thread job := by
  obtain ⟨s, thread, hs, hb, hcount⟩ : ∃ s thread,
      Runs.run (step 64) (sampleInit 1) (sampleJob ++ [.fork 0]) = some s ∧
        s.threads 0x2000 = some thread ∧ (s.jobs thread.job).map Job.aliveProc = some 2 :=
    ⟨_, _, rfl, rfl, rfl⟩
  obtain ⟨job, hjob, hiff⟩ := delThread_safe_iff hs hb
  rw [hjob, Option.map_some, Option.some.injEq] at hcount
  exact ⟨s, thread, job, hs, hb, hjob, hiff.mpr (by omega)⟩

/-- The only thread of the only job. -/
theorem delThread_safe_fails : ¬ ∀ size n pid leader dirFails rootdir dir proc es s b thread job,
    Runs.run (step size) (init n pid leader dirFails rootdir dir proc) es = some s →
    s.threads b = some thread → s.jobs thread.job = some job → DeletesSafely s b thread job := by
  intro h
  obtain ⟨s, thread, job, hs, hb, hjob, hj, h1⟩ : ∃ s thread job,
      Runs.run (step 64) (sampleInit 1) sampleJob = some s ∧ s.threads 0x2000 = some thread ∧
        s.jobs thread.job = some job ∧ thread.job ≠ 0 ∧ job.aliveProc = 1 :=
    ⟨_, _, _, rfl, rfl, rfl, by decide, rfl⟩
  obtain ⟨s', hexec, -⟩ := h 64 _ _ _ _ _ _ _ _ s 0x2000 thread job hs hb hjob
  rw [exec_yaDelThread_last hb hjob hj h1] at hexec
  cases hexec

end Yasched.Objects
