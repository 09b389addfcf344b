import Yasched.Store

/-!
# What the functions do to the store

One law for each function: where the objects that it reads are allocated, it
answers and leaves one store, and where one is not, it faults. `StepEffect`
puts the laws together as what a step of the system can do.
-/

namespace Yasched.Objects

open Cells

section
variable {s : Store} {job : Job} {thread : Thread}

-- ---------------------------------------------------------------------------
-- Lookups
-- ---------------------------------------------------------------------------

theorem exec_loadJob (h : s.jobs a = some job) : exec (loadJob a) s = (.ok job, s) := exec_load h

theorem exec_loadThread (h : s.threads b = some thread) :
    exec (loadThread b) s = (.ok thread, s) := exec_load h

theorem exec_loadJob_freed (h : s.jobs a = none) (ha : a ≠ 0) :
    exec (loadJob a) s = (.error (.freed a), s) := exec_load_freed h ha

theorem loadJob_faults (h : s.jobs a = none) : ∃ e, exec (loadJob a) s = (.error e, s) := by
  by_cases ha : a = 0
  · subst ha
    exact ⟨_, exec_load_null h⟩
  · exact ⟨_, exec_load_freed h ha⟩

namespace Store

@[simp] theorem setJob_jobs : (s.setJob a o).jobs = Function.update s.jobs a o := rfl
@[simp] theorem setJob_threads : (s.setJob a o).threads = s.threads := rfl
@[simp] theorem setJob_tasks : (s.setJob a o).tasks = s.tasks := rfl
@[simp] theorem setThread_jobs : (s.setThread b o).jobs = s.jobs := rfl
@[simp] theorem setThread_threads : (s.setThread b o).threads = Function.update s.threads b o := rfl
@[simp] theorem setThread_tasks : (s.setThread b o).tasks = s.tasks := rfl
@[simp] theorem setTask_jobs : (s.setTask t k).jobs = s.jobs := rfl
@[simp] theorem setTask_threads : (s.setTask t k).threads = s.threads := rfl
@[simp] theorem setTask_tasks : (s.setTask t k).tasks = Function.update s.tasks t k := rfl

end Store

-- ---------------------------------------------------------------------------
-- Attaching and detaching
-- ---------------------------------------------------------------------------

namespace Job

def attach (job : Job) (i b : Nat) : Job :=
  { job with threadTable := Function.update job.threadTable i (job.threadTable i ++ [b]) }

def detach (job : Job) (b : Nat) : Job :=
  { job with threadTable := fun i => (job.threadTable i).erase b }

def get (job : Job) : Job := { job with aliveProc := job.aliveProc + 1 }

def put (job : Job) : Job := { job with aliveProc := job.aliveProc - 1 }

end Job

def Store.attach (size : Nat) (s : Store) (t b j : Nat) (job : Job) (entry : DirEntry) : Store :=
  (s.setThread b (some { task := t, job := j, entry })).setJob j
    (some (job.attach (s.slot size t) b))

theorem exec_getThread (h : s.jobs j = some job) :
    exec (getThread j) s = (.ok (), s.setJob j (some job.get)) := by
  simp [getThread, exec_bind, exec_loadJob h, Job.get]

theorem exec_yaNewThread (h : s.jobs j = some job) :
    exec (yaNewThread size t j (some (b, entry))) s =
      (.ok (some b), s.attach size t b j job entry) := by
  simp [yaNewThread, attachToJob, exec_bind, exec_map, exec_loadJob, exec_loadThread, h,
    Store.attach, Store.setThread, Store.setJob, Store.slot, Job.attach]

/-- What `__detach_from_job` and the removal of its entry leave of a thread. -/
def Store.delEntry (s : Store) (thread : Thread) (job : Job) : Store :=
  if thread.entry.entry ≠ none then
    { s with
      proc := delThreadProcfsEntry thread.entry job.dir s.proc
      calls := s.calls ++ [.delThread thread.entry, .delThreadBelow job.dir] }
  else { s with calls := s.calls ++ [.delThread thread.entry] }

theorem exec_delThreadEntry (hb : s.threads b = some thread) (h : s.jobs thread.job = some job) :
    exec (delThreadEntry b) s = (.ok (), s.delEntry thread job) := by
  by_cases he : thread.entry.entry = none
  · simp [delThreadEntry, exec_bind, exec_loadThread hb, Store.delEntry, he]
  · simp [delThreadEntry, exec_bind, exec_loadThread hb, exec_loadJob, h, Store.delEntry, he]

def Store.delJob (s : Store) (j : Nat) (job : Job) : Store :=
  { s.setJob j none with
    jobList := s.jobList.erase j
    proc := delJobProcfsEntry job.dir s.zoneDir s.proc
    calls := s.calls ++ [.delJob job.dir] }

/-- The job is gone when the final message reads its id. -/
theorem exec_yaDelJob (h : s.jobs j = some job) (hj : j ≠ 0) :
    exec (yaDelJob j) s = (.error (.freed j), s.delJob j job) := by
  simp [yaDelJob, delJobEntry, freeJob, exec_bind, exec_loadJob, exec_loadJob_freed, h, hj,
    Store.setJob, Store.delJob]

theorem exec_putThread (h : s.jobs j = some job) (hn : job.aliveProc ≠ 1) :
    exec (putThread j) s = (.ok (), s.setJob j (some job.put)) := by
  have hne : job.aliveProc - 1 ≠ 0 := by omega
  simp [putThread, exec_bind, exec_loadJob h, Job.put, hne]

theorem exec_putThread_last (h : s.jobs j = some job) (hj : j ≠ 0) (h1 : job.aliveProc = 1) :
    exec (putThread j) s = (.error (.freed j), s.delJob j job) := by
  have hdel := exec_yaDelJob (s := s.setJob j (some job.put)) (Function.update_self ..) hj
  have hstate : (s.setJob j (some job.put)).delJob j job.put = s.delJob j job := by
    simp [Store.delJob, Store.setJob, Job.put]
  have hzero : job.aliveProc - 1 = 0 := by omega
  unfold putThread
  rw [exec_bind_ok (exec_loadJob h), exec_bind_ok (exec_modify ..), if_pos hzero]
  exact hdel.trans (by rw [hstate])

@[simp] theorem Store.delEntry_jobs : (s.delEntry thread job).jobs = s.jobs := by
  unfold Store.delEntry
  split <;> rfl
@[simp] theorem Store.delEntry_threads : (s.delEntry thread job).threads = s.threads := by
  unfold Store.delEntry
  split <;> rfl
@[simp] theorem Store.delEntry_tasks : (s.delEntry thread job).tasks = s.tasks := by
  unfold Store.delEntry
  split <;> rfl
@[simp] theorem Store.delEntry_ntasks : (s.delEntry thread job).ntasks = s.ntasks := by
  unfold Store.delEntry
  split <;> rfl
@[simp] theorem Store.delEntry_jobList : (s.delEntry thread job).jobList = s.jobList := by
  unfold Store.delEntry
  split <;> rfl
@[simp] theorem Store.delEntry_zoneDir : (s.delEntry thread job).zoneDir = s.zoneDir := by
  unfold Store.delEntry
  split <;> rfl

/-- The store without the thread entry, before `put_thread`. -/
def Store.delThread (s : Store) (b : Nat) (thread : Thread) (job : Job) : Store :=
  ((s.setJob thread.job (some (job.detach b))).delEntry thread (job.detach b)).setThread b none

theorem Store.delThread_job :
    (s.delThread b thread job).jobs thread.job = some (job.detach b) := by
  simp [Store.delThread]

@[simp] theorem Store.delThread_threads :
    (s.delThread b thread job).threads = Function.update s.threads b none := by
  simp [Store.delThread]
@[simp] theorem Store.delThread_tasks : (s.delThread b thread job).tasks = s.tasks := by
  simp [Store.delThread]
@[simp] theorem Store.delThread_ntasks : (s.delThread b thread job).ntasks = s.ntasks := by
  simp [Store.delThread, Store.setThread, Store.setJob]
@[simp] theorem Store.delThread_jobList : (s.delThread b thread job).jobList = s.jobList := by
  simp [Store.delThread, Store.setThread, Store.setJob]

/-- `ya_del_thread` is the removal of the entry and `put_thread`. -/
theorem exec_yaDelThread (hb : s.threads b = some thread) (h : s.jobs thread.job = some job) :
    exec (yaDelThread b) s = exec (putThread thread.job) (s.delThread b thread job) := by
  have hdetach : exec (detachFromJob b) s =
      (.ok (), s.setJob thread.job (some (job.detach b))) := by
    simp [detachFromJob, exec_bind, exec_loadThread hb, exec_loadJob h, Job.detach]
  have hentry := exec_delThreadEntry (s := s.setJob thread.job (some (job.detach b))) hb
    (Function.update_self ..)
  have hfree : exec (freeThread b) ((s.setJob thread.job (some (job.detach b))).delEntry thread
      (job.detach b)) = (.ok (), s.delThread b thread job) := by
    simp [freeThread, exec_bind, exec_loadThread, hb, Store.delThread]
  unfold yaDelThread finiThread
  rw [exec_bind_ok hdetach, exec_bind_ok (exec_loadThread (by exact hb)), exec_bind_ok hentry,
    exec_bind_ok hfree]

theorem exec_yaDelThread_ok (hb : s.threads b = some thread) (h : s.jobs thread.job = some job)
    (hn : job.aliveProc ≠ 1) : exec (yaDelThread b) s =
      (.ok (), (s.delThread b thread job).setJob thread.job (some (job.detach b).put)) := by
  rw [exec_yaDelThread hb h]
  exact exec_putThread Store.delThread_job hn

theorem exec_yaDelThread_last (hb : s.threads b = some thread) (h : s.jobs thread.job = some job)
    (hj : thread.job ≠ 0) (h1 : job.aliveProc = 1) : exec (yaDelThread b) s =
      (.error (.freed thread.job),
        (s.delThread b thread job).delJob thread.job (job.detach b)) := by
  rw [exec_yaDelThread hb h]
  exact exec_putThread_last Store.delThread_job hj h1

-- ---------------------------------------------------------------------------
-- New jobs
-- ---------------------------------------------------------------------------

def Store.addJobDir (s : Store) (a : Nat) (job : Job) (fails : Bool) : Store :=
  let added := addJobProcfsEntry fails job.id s.zoneDir job.dir s.proc
  { s.setJob a (some { job with dir := added.dir }) with
    proc := added.proc
    calls := s.calls ++ [.addJob added.ret added.made s.zoneDir] }

def Store.addThreadFile (s : Store) (b : Nat) (thread : Thread) (job : Job) (fails : Bool) :
    Store :=
  let added := addThreadProcfsEntry fails (s.tasks thread.task).pid job.dir s.proc
  { s.setThread b (some { thread with entry := added.dir }) with
    proc := added.proc
    calls := s.calls ++ [.addThread added.ret added.made job.dir] }

theorem exec_addJobEntry (h : s.jobs a = some job) :
    exec (addJobEntry a fails) s = (.ok (), s.addJobDir a job fails) := by
  simp [addJobEntry, exec_bind, exec_loadJob h, Store.addJobDir]

theorem exec_addThreadEntry (hb : s.threads b = some thread) (h : s.jobs thread.job = some job) :
    exec (addThreadEntry b fails) s = (.ok (), s.addThreadFile b thread job fails) := by
  simp [addThreadEntry, exec_bind, exec_loadThread hb, exec_loadJob h, Store.addThreadFile]

def Store.freshJob (size : Nat) (s : Store) (t b : Nat) (dir : DirEntry) : Job where
  id := incJid s.maxJid
  aliveProc := 1
  threadTable := Function.update (fun _ => []) (s.slot size t) [b]
  dir

def Store.linkJob (s : Store) (a t b : Nat) (job : Job) (entry : DirEntry) : Store :=
  { (s.setJob a (some job)).setThread b (some { task := t, job := a, entry }) with
    maxJid := job.id
    jobList := s.jobList ++ [a] }

def Store.withDir (s : Store) (job : Job) (fails : Bool) : Job :=
  { job with dir := (addJobProcfsEntry fails job.id s.zoneDir job.dir s.proc).dir }

/-- What `ya_new_job` leaves when both its allocations succeed. -/
def Store.newJob (size : Nat) (s : Store) (t a b : Nat) (dir entry : DirEntry)
    (dirFails fileFails : Bool) : Store :=
  let job := s.freshJob size t b dir
  ((s.linkJob a t b job entry).addJobDir a job dirFails).addThreadFile b
    { task := t, job := a, entry } (s.withDir job dirFails) fileFails

theorem exec_linkJob : exec (linkJob a) ((s.setJob a (some (allocJob dir))).attach size t b a
      (allocJob dir) entry) =
    (.ok (), s.linkJob a t b (s.freshJob size t b dir) entry) := by
  simp [linkJob, exec_bind, exec_loadJob, Store.attach, Store.linkJob, Store.freshJob,
    Store.setJob, Store.setThread, Store.slot, Job.attach, allocJob]

theorem exec_yaNewJob :
    exec (yaNewJob size t (some (a, dir)) (some (b, entry)) dirFails fileFails) s =
      (.ok (some a), s.newJob size t a b dir entry dirFails fileFails) := by
  have hthread : exec (yaNewThread size t a (some (b, entry))) (s.setJob a (some (allocJob dir))) =
      (.ok (some b), (s.setJob a (some (allocJob dir))).attach size t b a (allocJob dir) entry) :=
    exec_yaNewThread (Function.update_self ..)
  unfold yaNewJob yaInitJob
  dsimp only
  rw [exec_bind_ok (exec_modify ..), exec_bind_ok hthread]
  dsimp only
  rw [exec_bind_ok exec_linkJob, exec_bind_ok (exec_addJobEntry (by exact Function.update_self ..)),
    exec_bind_ok (exec_addThreadEntry (by exact Function.update_self ..)
      (by exact Function.update_self ..))]
  rfl

/-- Without an entry for its first thread there is no job either. -/
theorem exec_yaNewJob_freed (ha : s.jobs a = none) :
    exec (yaNewJob size t (some (a, dir)) none dirFails fileFails) s = (.ok none, s) := by
  have hfreed (job : Job) : (s.setJob a (some job)).setJob a none = s := by
    simp [Store.setJob, ← ha]
  simp [yaNewJob, yaInitJob, yaNewThread, freeJob, exec_bind, exec_map, exec_loadJob, hfreed]

theorem Store.newJob_objects (s : Store) (size t a b : Nat) (dir entry : DirEntry)
    (dirFails fileFails : Bool) : ∃ dir' entry',
    (s.newJob size t a b dir entry dirFails fileFails).jobs =
      Function.update s.jobs a (some { s.freshJob size t b dir with dir := dir' }) ∧
    (s.newJob size t a b dir entry dirFails fileFails).threads =
      Function.update s.threads b (some { task := t, job := a, entry := entry' }) := by
  have hjobs : (s.newJob size t a b dir entry dirFails fileFails).jobs =
      Function.update s.jobs a (some (s.withDir (s.freshJob size t b dir) dirFails)) :=
    Function.update_idem ..
  exact ⟨_, _, hjobs, Function.update_idem ..⟩

@[simp] theorem Store.newJob_tasks :
    (s.newJob size t a b dir entry dirFails fileFails).tasks = s.tasks := rfl

-- ---------------------------------------------------------------------------
-- What a step can do
-- ---------------------------------------------------------------------------

def Store.put (s : Store) (j : Nat) (job : Job) : Store :=
  if job.aliveProc = 1 then s.delJob j job else s.setJob j (some job.put)

theorem putThread_state (h : s.jobs j = some job) (hj : j ≠ 0) :
    (exec (putThread j) s).2 = s.put j job := by
  unfold Store.put
  split
  · rename_i h1
    rw [exec_putThread_last h hj h1]
  · rename_i hn
    rw [exec_putThread h hn]

end

def Task.Pending (k : Task) (j : Nat) : Prop :=
  k.life = .forking (some j) ∨ k.life = .born ∧ k.job = some j

structure Held (s : Store) : Prop where
  null : s.jobs 0 = none
  thread : ∀ b thread, s.threads b = some thread → ∃ job, s.jobs thread.job = some job
  task : ∀ t j, (s.tasks t).Pending j → ∃ job, s.jobs j = some job

theorem Held.ne_zero (hh : Held s) (h : s.jobs j = some job) : j ≠ 0 := by
  rintro rfl
  cases hh.null.symm.trans h

section
variable (s : Store)

@[simp] theorem Store.setLife_jobs : (s.setLife t life).jobs = s.jobs := rfl
@[simp] theorem Store.setLife_threads : (s.setLife t life).threads = s.threads := rfl
@[simp] theorem Store.setLife_tasks :
    (s.setLife t life).tasks = Function.update s.tasks t { s.tasks t with life } := rfl

end

inductive StepEffect (size : Nat) (s : Store) : Event → Store → Prop
  | execve : (s.tasks t).life = .live → ¬CreatesJob s t zone o o' →
      StepEffect size s (.execve t zone o o' dirFails fileFails)
        (s.setLife t (.execing (s.tasks t).job))
  | newJob : (s.tasks t).life = .live → (s.tasks t).job = none → s.jobs a = none → a ≠ 0 →
      s.threads b = none → b ≠ 0 → zone ≠ none → dir.written = false →
      entry.written = false →
      StepEffect size s (.execve t zone (some (a, dir)) (some (b, entry)) dirFails fileFails)
        ((s.newJob size t a b dir entry dirFails fileFails).setLife t (.execing (some a)))
  | execveReturn : (s.tasks t).life = .execing tsi →
      StepEffect size s (.execveReturn t ok) (s.setTask t (s.returned t tsi ok))
  | fork {job : Job} : (s.tasks t).life = .live → (s.tasks t).job = some j → s.jobs j = some job →
      StepEffect size s (.fork t) ((s.setJob j (some job.get)).setLife t (.forking (some j)))
  | forkFaults : (s.tasks t).life = .live → (s.tasks t).job = some j → s.jobs j = none →
      StepEffect size s (.fork t) s
  | forkPlain : (s.tasks t).life = .live → (s.tasks t).job = none →
      StepEffect size s (.fork t) (s.setLife t (.forking none))
  | child : (s.tasks t).life = .forking o →
      StepEffect size s (.child t pid grouped) (forkChild s t pid grouped)
  | forkFail {job : Job} : (s.tasks t).life = .forking (some j) → s.jobs j = some job →
      StepEffect size s (.forkFail t) ((s.setLife t .live).put j job)
  | forkFailPlain : (s.tasks t).life = .forking none →
      StepEffect size s (.forkFail t) (s.setLife t .live)
  | attach {job : Job} : (s.tasks t).life = .born → (s.tasks t).job = some j → s.jobs j = some job →
      s.threads b = none → b ≠ 0 → entry.written = false →
      StepEffect size s (.scheduleTail t (some (b, entry)) fileFails)
        (((s.setLife t .live).attach size t b j job entry).addThreadFile b
          { task := t, job := j, entry } (job.attach (s.slot size t) b) fileFails)
  | tail : (s.tasks t).life = .born → (s.tasks t).job = none ∨ alloc = none →
      StepEffect size s (.scheduleTail t alloc fileFails) (s.setLife t .live)
  | exit {thread : Thread} {job : Job} : (s.tasks t).life = .live → s.threads b = some thread →
      thread.task = t → s.jobs thread.job = some job →
      StepEffect size s (.exit t)
        (((s.setLife t .exited).delThread b thread job).put thread.job (job.detach b))
  | exitPlain : (s.tasks t).life = .live → searchThreadByTask size s t = none →
      StepEffect size s (.exit t) (s.setLife t .exited)

theorem searchThreadByTask_some (h : searchThreadByTask size s t = some b) :
    ∃ thread, s.threads b = some thread ∧ thread.task = t := by
  unfold searchThreadByTask at h
  split at h
  · cases h
  · have hany := List.find?_some h
    cases hb : s.threads b with
    | none => simp [hb] at hany
    | some thread => exact ⟨thread, rfl, by simpa [hb] using hany⟩

theorem execveCall_after (h : exec (tryNewJob size t zone o o' dirFails fileFails) s =
    (.ok (status, tsi), s₁)) :
    (exec (execveCall size t zone o o' dirFails fileFails) s).2 = s₁.setLife t (.execing tsi) := by
  unfold execveCall
  rw [exec_bind_ok h]
  rfl

theorem execve_effect (hl : (s.tasks t).life = .live) (ha : Fresh s.jobs o)
    (hb : Fresh s.threads o') : StepEffect size s (.execve t zone o o' dirFails fileFails)
      (exec (execveCall size t zone o o' dirFails fileFails) s).2 := by
  cases hj : (s.tasks t).job with
  | some j =>
    have hmember : exec (tryNewJob size t zone o o' dirFails fileFails) s =
        (.ok (.existingJob, some j), s) := by
      simp [tryNewJob, exec_bind, hj]
    rw [execveCall_after hmember, ← hj]
    exact .execve hl fun h => nomatch hj.symm.trans h.1
  | none =>
    by_cases hz : zone = none
    · have hplain : exec (tryNewJob size t zone o o' dirFails fileFails) s =
          (.ok (.nonJob, none), s) := by
        simp [tryNewJob, exec_bind, hj, hz]
      rw [execveCall_after hplain, ← hj]
      exact .execve hl fun h => h.2.1 hz
    · have hnew (h : exec (yaNewJob size t o o' dirFails fileFails) s = (.ok none, s)) :
          exec (tryNewJob size t zone o o' dirFails fileFails) s = (.ok (.nonJob, none), s) := by
        simp [tryNewJob, exec_bind, hj, hz, h]
      rcases o with _ | ⟨a, dir⟩
      · rw [execveCall_after (hnew rfl), ← hj]
        exact .execve hl fun h => h.2.2.1 rfl
      · rcases o' with _ | ⟨b, entry⟩
        · rw [execveCall_after (hnew (exec_yaNewJob_freed (ha a dir rfl).2.1)), ← hj]
          exact .execve hl fun h => h.2.2.2 rfl
        · have hjob : exec (tryNewJob size t zone (some (a, dir)) (some (b, entry)) dirFails
              fileFails) s = (.ok (.newJob, some a),
                s.newJob size t a b dir entry dirFails fileFails) := by
            simp [tryNewJob, exec_bind, hj, hz, exec_yaNewJob]
          rw [execveCall_after hjob]
          obtain ⟨ha0, ha, hdir⟩ := ha a dir rfl
          obtain ⟨hb0, hb, hentry⟩ := hb b entry rfl
          exact .newJob hl hj ha ha0 hb hb0 hz hdir hentry

theorem fork_effect (hl : (s.tasks t).life = .live) :
    StepEffect size s (.fork t) (exec (doForkAgent t) s).2 := by
  cases hj : (s.tasks t).job with
  | none =>
    have hplain : (exec (doForkAgent t) s).2 = s.setLife t (.forking none) := by
      simp [doForkAgent, exec_bind, hj, Store.setLife]
    rw [hplain]
    exact .forkPlain hl hj
  | some j =>
    cases hjob : s.jobs j with
    | none =>
      obtain ⟨e, he⟩ := loadJob_faults hjob
      have hfault : (exec (doForkAgent t) s).2 = s := by
        simp [doForkAgent, getThread, exec_bind, hj, he]
      rw [hfault]
      exact .forkFaults hl hj hjob
    | some job =>
      have hfork : (exec (doForkAgent t) s).2 =
          (s.setJob j (some job.get)).setLife t (.forking (some j)) := by
        simp [doForkAgent, exec_bind, hj, exec_getThread hjob, Store.setLife]
      rw [hfork]
      exact .fork hl hj hjob

theorem forkFail_effect (hh : Held s) (hl : (s.tasks t).life = .forking o) :
    StepEffect size s (.forkFail t) (exec (forkFail t o) s).2 := by
  cases o with
  | none => exact .forkFailPlain hl
  | some j =>
    obtain ⟨job, hjob⟩ := hh.task t j (.inl hl)
    have hput : (exec (forkFail t (some j)) s).2 = (s.setLife t .live).put j job := by
      rw [← putThread_state (s := s.setLife t .live) hjob (hh.ne_zero hjob)]
      simp [forkFail, exec_bind, Store.setLife]
    rw [hput]
    exact .forkFail hl hjob

theorem tail_effect (hh : Held s) (hl : (s.tasks t).life = .born) (hb : Fresh s.threads alloc) :
    StepEffect size s (.scheduleTail t alloc fileFails)
      (exec (scheduleTailAgent size t alloc fileFails) s).2 := by
  cases hj : (s.tasks t).job with
  | none =>
    have hplain : (exec (scheduleTailAgent size t alloc fileFails) s).2 = s.setLife t .live := by
      simp [scheduleTailAgent, exec_bind, hj, Store.setLife]
    rw [hplain]
    exact .tail hl (.inl hj)
  | some j =>
    obtain ⟨job, hjob⟩ := hh.task t j (.inr ⟨hl, hj⟩)
    rcases alloc with _ | ⟨b, entry⟩
    · have hnone : (exec (scheduleTailAgent size t none fileFails) s).2 = s.setLife t .live := by
        simp [scheduleTailAgent, yaNewThread, exec_bind, hj, Store.setLife]
      rw [hnone]
      exact .tail hl (.inr rfl)
    · have hnew : exec (yaNewThread size t j (some (b, entry))) (s.setLife t .live) =
          (.ok (some b), (s.setLife t .live).attach size t b j job entry) :=
        exec_yaNewThread hjob
      have hslot : (s.setLife t .live).slot size t = s.slot size t := by simp [Store.slot]
      have hfile : exec (addThreadEntry b fileFails)
          ((s.setLife t .live).attach size t b j job entry) =
            (.ok (), ((s.setLife t .live).attach size t b j job entry).addThreadFile b
              { task := t, job := j, entry } (job.attach (s.slot size t) b) fileFails) :=
        exec_addThreadEntry (Function.update_self ..) (by simp [Store.attach, hslot])
      have htask : ((s.setLife t .live).tasks t).job = some j := by simp [hj]
      have hattach : (exec (scheduleTailAgent size t (some (b, entry)) fileFails) s).2 =
          ((s.setLife t .live).attach size t b j job entry).addThreadFile b
            { task := t, job := j, entry } (job.attach (s.slot size t) b) fileFails := by
        simp only [scheduleTailAgent, exec_bind, exec_modify, exec_get, htask, hnew, hfile]
      rw [hattach]
      obtain ⟨hb0, hb, hentry⟩ := hb b entry rfl
      exact .attach hl hj hjob hb hb0 hentry

theorem exit_effect (hh : Held s) (hl : (s.tasks t).life = .live) :
    StepEffect size s (.exit t) (exec (enterExitHook size t) s).2 := by
  have hsearch : searchThreadByTask size (s.setLife t .exited) t = searchThreadByTask size s t := by
    simp [searchThreadByTask, Store.slot]
  cases hb : searchThreadByTask size s t with
  | none =>
    have hplain : (exec (enterExitHook size t) s).2 = s.setLife t .exited := by
      simp only [enterExitHook, exec_bind, exec_modify, exec_get, hsearch, hb, exec_pure]
    rw [hplain]
    exact .exitPlain hl hb
  | some b =>
    obtain ⟨thread, hthread, htask⟩ := searchThreadByTask_some hb
    obtain ⟨job, hjob⟩ := hh.thread b thread hthread
    have hexit : exec (enterExitHook size t) s = exec (yaDelThread b) (s.setLife t .exited) := by
      simp only [enterExitHook, exec_bind, exec_modify, exec_get, hsearch, hb]
    have hdel := exec_yaDelThread (s := s.setLife t .exited) hthread hjob
    rw [hexit, hdel, putThread_state Store.delThread_job (hh.ne_zero hjob)]
    exact .exit hl hthread htask hjob

theorem step_effect (hh : Held s) (hs : step size s e = some s') : StepEffect size s e s' := by
  cases e with
  | execve t zone o o' dirFails fileFails =>
    simp only [step] at hs
    split at hs
    · rename_i hg
      cases hs
      exact execve_effect hg.1 hg.2.1 hg.2.2
    · cases hs
  | execveReturn t ok =>
    simp only [step] at hs
    split at hs
    · rename_i hl
      cases hs
      exact .execveReturn hl
    · cases hs
  | fork t =>
    simp only [step] at hs
    split at hs
    · rename_i hl
      cases hs
      exact fork_effect hl
    · cases hs
  | child t pid grouped =>
    simp only [step] at hs
    split at hs
    · rename_i hl
      cases hs
      exact .child hl
    · cases hs
  | forkFail t =>
    simp only [step] at hs
    split at hs
    · rename_i hl
      cases hs
      exact forkFail_effect hh hl
    · cases hs
  | scheduleTail t alloc fileFails =>
    simp only [step] at hs
    split at hs
    · rename_i hg
      cases hs
      exact tail_effect hh hg.1 hg.2
    · cases hs
  | exit t =>
    simp only [step] at hs
    split at hs
    · rename_i hl
      cases hs
      exact exit_effect hh hl
    · cases hs

end Yasched.Objects
