import Yasched.Jobs
import Yasched.StoreLaws

/-!
# All of a new job, or nothing

`ya_new_job` with every field of the two objects, for any zone, and with its
retry loops turn by turn. What the allocator gives holds whatever was left
there; the thread is attached to its job before the other fields of the job are
written.

`mgmt/job.h` is not at hand: of the attributes only the zone is looked at, the
rest is a type.
-/

namespace Yasched.Creation

open Cells

variable {β : Type} {size : Nat}

-- ---------------------------------------------------------------------------
-- The objects
-- ---------------------------------------------------------------------------

/-- `ya_job_attr_t`, with the address of its zone. -/
structure JobAttr (β : Type) where
  zone : Nat
  rest : β
  deriving DecidableEq, Repr

/-- `ya_job_t`. The lists hold addresses of thread entries. -/
structure Job (β : Type) (size : Nat) where
  jobAttribute : JobAttr β
  state : YaJobState
  aliveProc : Int
  suspendedThreads : List Nat
  id : UInt64
  threadTable : Fin size → List Nat
  dir : DirEntry

/-- `ya_thread_t`; `listed` is whether its `list` is on a slot. -/
structure Thread where
  task : Nat
  job : Nat
  state : YaThreadState
  listed : Bool
  suspendWait : Bool
  taskState : TaskState
  entry : DirEntry
  deriving DecidableEq, Repr

structure Zone where
  jobList : List Nat
  maxJid : UInt64
  dir : DirEntry
  deriving DecidableEq, Repr

structure Store (β : Type) (size : Nat) where
  jobs : Nat → Option (Job β size)
  threads : Nat → Option Thread
  zones : Nat → Option Zone
  pid : Nat → Nat
  proc : Finset Path

namespace Store

def setJob (s : Store β size) (a : Nat) (job : Option (Job β size)) : Store β size :=
  { s with jobs := Function.update s.jobs a job }

def setThread (s : Store β size) (b : Nat) (thread : Option Thread) : Store β size :=
  { s with threads := Function.update s.threads b thread }

def setZone (s : Store β size) (z : Nat) (zone : Zone) : Store β size :=
  { s with zones := Function.update s.zones z (some zone) }

end Store

abbrev M (β : Type) (size : Nat) := HeapM (Store β size)

def loadJob (a : Nat) : M β size (Job β size) := load Store.jobs a

def loadThread (b : Nat) : M β size Thread := load Store.threads b

/-- `BUG_ON(!zone)` is the fault of the null address. -/
def loadZone (z : Nat) : M β size Zone := load Store.zones z

def modifyJob (a : Nat) (f : Job β size → Job β size) : M β size Unit := do
  let job ← loadJob a
  modify (·.setJob a (some (f job)))

def modifyThread (b : Nat) (f : Thread → Thread) : M β size Unit := do
  let thread ← loadThread b
  modify (·.setThread b (some (f thread)))

-- ---------------------------------------------------------------------------
-- Allocation
-- ---------------------------------------------------------------------------

/-- What `kmem_cache_alloc` answers to the attempts, by number: nothing, or an
address at which nothing is allocated and what is left there. -/
structure KmemCache (heap : Nat → Option α) where
  answer : Nat → Option (Nat × α)
  fresh : ∀ {i a x}, answer i = some (a, x) → a ≠ 0 ∧ heap a = none

/-- `while (tries++ < ALLOC_TRIES)`, with `left` turns to go: the answer it ends
with and the number of attempts. Between two attempts the task sleeps. -/
def allocLoop (answer : Nat → Option α) : (left tries : Nat) → Option α × Nat
  | 0, tries => (none, tries)
  | left + 1, tries =>
    match answer tries with
    | some x => (some x, tries + 1)
    | none => allocLoop answer left (tries + 1)

def allocate (answer : Nat → Option α) : Option α := (allocLoop answer allocTries 0).1

def attempts (answer : Nat → Option α) : Nat := (allocLoop answer allocTries 0).2

def freeJob (a : Nat) : M β size Unit := do
  let _ ← loadJob a
  modify (·.setJob a none)

-- ---------------------------------------------------------------------------
-- sched.c
-- ---------------------------------------------------------------------------

/-- `__init_thread`; it leaves `job`, `task_state` and the procfs entry as they
are. -/
def initThread (t b : Nat) : M β size Unit :=
  modifyThread b fun thread =>
    { thread with task := t, state := .alive, listed := false, suspendWait := false }

section

variable [NeZero size]

def attachToJob (b a : Nat) : M β size Unit := do
  modifyThread b fun thread => { thread with job := a }
  let thread ← loadThread b
  let s ← get
  let slot := Fin.ofNat size (s.pid thread.task)
  if thread.listed = false then
    modifyJob thread.job fun job =>
      { job with
        threadTable := Function.update job.threadTable slot (job.threadTable slot ++ [b]) }
    modifyThread b fun thread => { thread with listed := true }

def yaNewThread (t : Nat) (answer : Nat → Option (Nat × Thread)) (a : Nat) :
    M β size (Option Nat) := do
  match allocate answer with
  | none => return none
  | some (b, left) =>
    modify (·.setThread b (some left))
    initThread t b
    attachToJob b a
    return some b

def addJobEntry (a : Nat) (fails : Bool) : M β size Unit := do
  let job ← loadJob a
  let zone ← loadZone job.jobAttribute.zone
  let s ← get
  let added := addJobProcfsEntry fails job.id.toNat zone.dir job.dir s.proc
  modifyJob a fun job => { job with dir := added.dir }
  modify fun s => { s with proc := added.proc }

def addThreadEntry (b : Nat) (fails : Bool) : M β size Unit := do
  let thread ← loadThread b
  let job ← loadJob thread.job
  let s ← get
  let added := addThreadProcfsEntry fails (s.pid thread.task) job.dir s.proc
  modifyThread b fun thread => { thread with entry := added.dir }
  modify fun s => { s with proc := added.proc }

def linkJob (a z : Nat) : M β size Unit := do
  modifyJob a fun job => { job with jobAttribute := { job.jobAttribute with zone := z } }
  let zone ← loadZone z
  let zone := { zone with maxJid := zone.maxJid + 1 }
  modifyJob a fun job => { job with id := zone.maxJid }
  modify (·.setZone z { zone with jobList := zone.jobList ++ [a] })

def yaInitJob (t a : Nat) (attr : JobAttr β) (answer : Nat → Option (Nat × Thread))
    (dirFails fileFails : Bool) : M β size (Option Nat) := do
  modifyJob a fun job => { job with threadTable := fun _ => [] }
  match ← yaNewThread t answer a with
  | none =>
    freeJob a
    return none
  | some b =>
    modifyJob a fun job => { job with jobAttribute := attr }
    modifyJob a fun job => { job with state := .running }
    modifyJob a fun job => { job with aliveProc := 1 }
    modifyJob a fun job => { job with suspendedThreads := [] }
    let _ ← loadZone attr.zone
    linkJob a attr.zone
    addJobEntry a dirFails
    addThreadEntry b fileFails
    return some a

def yaNewJob (t : Nat) (attr : JobAttr β) (jobAnswer : Nat → Option (Nat × Job β size))
    (threadAnswer : Nat → Option (Nat × Thread)) (dirFails fileFails : Bool) :
    M β size (Option Nat) := do
  match allocate jobAnswer with
  | none => return none
  | some (a, left) =>
    modify (·.setJob a (some left))
    yaInitJob t a attr threadAnswer dirFails fileFails

end

-- ---------------------------------------------------------------------------
-- Running the functions
-- ---------------------------------------------------------------------------

def Store.hold (s : Store β size) (a b : Nat) (job : Job β size) (thread : Thread) :
    Store β size :=
  (s.setJob a (some job)).setThread b (some thread)

section

variable {s : Store β size} {a b t : Nat} {job : Job β size} {thread : Thread}

@[simp] theorem Store.hold_jobs : (s.hold a b job thread).jobs a = some job :=
  Function.update_self ..

@[simp] theorem Store.hold_threads : (s.hold a b job thread).threads b = some thread :=
  Function.update_self ..

@[simp] theorem Store.hold_zones : (s.hold a b job thread).zones = s.zones := rfl

@[simp] theorem Store.hold_pid : (s.hold a b job thread).pid = s.pid := rfl

@[simp] theorem Store.hold_setJob (job' : Job β size) :
    (s.hold a b job thread).setJob a (some job') = s.hold a b job' thread := by
  simp [hold, setJob, setThread]

@[simp] theorem Store.hold_setThread (thread' : Thread) :
    (s.hold a b job thread).setThread b (some thread') = s.hold a b job thread' := by
  simp [hold, setJob, setThread]

theorem exec_loadJob (h : s.jobs a = some job) : exec (loadJob a) s = (.ok job, s) := exec_load h

theorem exec_loadThread (h : s.threads b = some thread) : exec (loadThread b) s = (.ok thread, s) :=
  exec_load h

theorem exec_loadZone {zone : Zone} (h : s.zones z = some zone) :
    exec (loadZone z) s = (.ok zone, s) :=
  exec_load h

theorem exec_modifyJob (h : s.jobs a = some job) (f : Job β size → Job β size) :
    exec (modifyJob a f) s = (.ok (), s.setJob a (some (f job))) := by
  rw [modifyJob, exec_bind_ok (exec_loadJob h), exec_modify]

theorem exec_modifyThread (h : s.threads b = some thread) (f : Thread → Thread) :
    exec (modifyThread b f) s = (.ok (), s.setThread b (some (f thread))) := by
  rw [modifyThread, exec_bind_ok (exec_loadThread h), exec_modify]

theorem exec_holdJob (f : Job β size → Job β size) :
    exec (modifyJob a f) (s.hold a b job thread) = (.ok (), s.hold a b (f job) thread) := by
  rw [exec_modifyJob Store.hold_jobs, Store.hold_setJob]

theorem exec_holdThread (f : Thread → Thread) :
    exec (modifyThread b f) (s.hold a b job thread) = (.ok (), s.hold a b job (f thread)) := by
  rw [exec_modifyThread Store.hold_threads, Store.hold_setThread]

def Zone.link (zone : Zone) (a : Nat) : Zone :=
  { zone with maxJid := zone.maxJid + 1, jobList := zone.jobList ++ [a] }

theorem exec_linkJob {zone : Zone} (hz : s.zones z = some zone) :
    exec (linkJob a z) (s.hold a b job thread) = (.ok (),
      (s.setZone z (zone.link a)).hold a b
        { job with
          jobAttribute := { job.jobAttribute with zone := z }, id := zone.maxJid + 1 }
        thread) := by
  unfold linkJob
  rw [exec_bind_ok (exec_holdJob _), exec_bind_ok (exec_loadZone (by exact hz)),
    exec_bind_ok (exec_holdJob _), exec_modify]
  rfl

theorem exec_addJobEntry {zone : Zone} (hz : s.zones job.jobAttribute.zone = some zone) :
    exec (addJobEntry a fails) (s.hold a b job thread) = (.ok (),
      let added := addJobProcfsEntry fails job.id.toNat zone.dir job.dir s.proc
      { s with proc := added.proc }.hold a b { job with dir := added.dir } thread) := by
  unfold addJobEntry
  rw [exec_bind_ok (exec_loadJob Store.hold_jobs), exec_bind_ok (exec_loadZone (by exact hz)),
    exec_bind_ok (exec_get _)]
  dsimp only
  rw [exec_bind_ok (exec_holdJob _), exec_modify]
  rfl

theorem exec_addThreadEntry (hj : thread.job = a) :
    exec (addThreadEntry b fails) (s.hold a b job thread) = (.ok (),
      let added := addThreadProcfsEntry fails (s.pid thread.task) job.dir s.proc
      { s with proc := added.proc }.hold a b job { thread with entry := added.dir }) := by
  subst hj
  unfold addThreadEntry
  rw [exec_bind_ok (exec_loadThread Store.hold_threads),
    exec_bind_ok (exec_loadJob Store.hold_jobs), exec_bind_ok (exec_get _)]
  dsimp only
  rw [exec_bind_ok (exec_holdThread _), exec_modify]
  rfl

theorem setJob_setJob (job job' : Option (Job β size)) :
    (s.setJob a job).setJob a job' = s.setJob a job' := by
  simp [Store.setJob]

theorem exec_initSlots (left : Job β size) :
    exec (modifyJob a fun job => { job with threadTable := fun _ => [] })
      (s.setJob a (some left)) =
        (.ok (), s.setJob a (some { left with threadTable := fun _ => [] })) := by
  rw [exec_modifyJob (Function.update_self ..), setJob_setJob]

end

theorem allocLoop_attempts (answer : Nat → Option α) (left tries : Nat) :
    (allocLoop answer left tries).2 ≤ tries + left := by
  induction left generalizing tries with
  | zero => exact Nat.le_refl tries
  | succ left ih =>
    rw [allocLoop]
    split
    · exact Nat.add_le_add_left (Nat.succ_le_succ (Nat.zero_le left)) tries
    · have hle := ih (tries + 1)
      omega

theorem attempts_le (answer : Nat → Option α) : attempts answer ≤ allocTries :=
  (allocLoop_attempts answer allocTries 0).trans_eq (Nat.zero_add allocTries)

theorem allocLoop_answer {answer : Nat → Option α} {left tries : Nat}
    (h : (allocLoop answer left tries).1 = some x) : ∃ i, answer i = some x := by
  induction left generalizing tries with
  | zero => cases h
  | succ left ih =>
    rw [allocLoop] at h
    split at h
    next heq =>
      cases h
      exact ⟨tries, heq⟩
    next => exact ih h

theorem KmemCache.allocated {heap : Nat → Option α} (cache : KmemCache heap)
    (h : allocate cache.answer = some (a, x)) : a ≠ 0 ∧ heap a = none := by
  obtain ⟨i, hi⟩ := allocLoop_answer h
  exact cache.fresh hi

section

variable [NeZero size] {s : Store β size} {a b t : Nat} {job : Job β size} {thread : Thread}

def freshThread (left : Thread) (t a : Nat) : Thread :=
  { left with task := t, job := a, state := .alive, listed := true, suspendWait := false }

def Job.attach (job : Job β size) (pid b : Nat) : Job β size :=
  { job with
    threadTable := Function.update job.threadTable (Fin.ofNat size pid)
      (job.threadTable (Fin.ofNat size pid) ++ [b]) }

theorem exec_attachToJob (h : thread.listed = false) :
    exec (attachToJob b a) (s.hold a b job thread) = (.ok (),
      s.hold a b (job.attach (s.pid thread.task) b) { thread with job := a, listed := true }) := by
  unfold attachToJob
  rw [exec_bind_ok (exec_holdThread _), exec_bind_ok (exec_loadThread Store.hold_threads),
    exec_bind_ok (exec_get _)]
  dsimp only
  rw [if_pos h, exec_bind_ok (exec_holdJob _), exec_holdThread]
  rfl

theorem exec_yaNewThread {left : Thread} (h : allocate answer = some (b, left)) :
    exec (yaNewThread t answer a) (s.setJob a (some job)) =
      (.ok (some b), s.hold a b (job.attach (s.pid t) b) (freshThread left t a)) := by
  have hinit : exec (initThread t b) (s.hold a b job left) = (.ok (), s.hold a b job
      { left with task := t, state := .alive, listed := false, suspendWait := false }) :=
    exec_holdThread _
  have halloc : exec (modify (·.setThread b (some left))) (s.setJob a (some job)) =
      (.ok (), s.hold a b job left) := rfl
  unfold yaNewThread
  rw [h]
  dsimp only
  rw [exec_bind_ok halloc, exec_bind_ok hinit, exec_bind_ok (exec_attachToJob rfl)]
  rfl

theorem exec_yaNewThread_none (h : allocate answer = none) :
    exec (yaNewThread t answer a) s = (.ok none, s) := by
  unfold yaNewThread
  rw [h]
  rfl

-- ---------------------------------------------------------------------------
-- A job that is created
-- ---------------------------------------------------------------------------

/-- The job when it is linked, whatever the allocator had left in it. -/
def freshJob (left : Job β size) (pid b : Nat) (attr : JobAttr β) (zone : Zone) : Job β size where
  jobAttribute := attr
  state := .running
  aliveProc := 1
  suspendedThreads := []
  id := zone.maxJid + 1
  threadTable := Function.update (fun _ => []) (Fin.ofNat size pid) [b]
  dir := left.dir

def Store.jobDir (s : Store β size) (job : Job β size) (zone : Zone) (fails : Bool) : Added :=
  addJobProcfsEntry fails job.id.toNat zone.dir job.dir s.proc

def Store.created (s : Store β size) (t a b : Nat) (left : Job β size) (leftThread : Thread)
    (attr : JobAttr β) (zone : Zone) (dirFails fileFails : Bool) : Store β size :=
  let job := freshJob left (s.pid t) b attr zone
  let dir := s.jobDir job zone dirFails
  let file := addThreadProcfsEntry fileFails (s.pid t) dir.dir dir.proc
  { s.setZone attr.zone (zone.link a) with proc := file.proc }.hold a b
    { job with dir := dir.dir } { freshThread leftThread t a with entry := file.dir }

theorem exec_yaNewJob {zone : Zone} (hz : s.zones attr.zone = some zone)
    (ha : allocate jobAnswer = some (a, left)) (hb : allocate threadAnswer = some (b, leftThread)) :
    exec (yaNewJob t attr jobAnswer threadAnswer dirFails fileFails) s =
      (.ok (some a), s.created t a b left leftThread attr zone dirFails fileFails) := by
  have hlink : exec (linkJob a attr.zone) (s.hold a b
      { ({ left with threadTable := fun _ => [] } : Job β size).attach (s.pid t) b with
        jobAttribute := attr, state := .running, aliveProc := 1, suspendedThreads := [] }
      (freshThread leftThread t a)) = (.ok (), (s.setZone attr.zone (zone.link a)).hold a b
        (freshJob left (s.pid t) b attr zone) (freshThread leftThread t a)) := exec_linkJob hz
  unfold yaNewJob yaInitJob
  rw [ha]
  dsimp only
  rw [exec_bind_ok (exec_modify ..), exec_bind_ok (exec_initSlots left),
    exec_bind_ok (exec_yaNewThread hb)]
  dsimp only
  rw [exec_bind_ok (exec_holdJob _), exec_bind_ok (exec_holdJob _), exec_bind_ok (exec_holdJob _),
    exec_bind_ok (exec_holdJob _), exec_bind_ok (exec_loadZone (by exact hz))]
  have hlinked : (s.setZone attr.zone (zone.link a)).zones attr.zone = some (zone.link a) :=
    Function.update_self ..
  refine (exec_bind_ok hlink).trans ?_
  refine (exec_bind_ok (exec_addJobEntry hlinked)).trans ?_
  exact exec_bind_ok (exec_addThreadEntry rfl)

/-- Without a thread the job is freed again. -/
theorem exec_yaNewJob_freed (hfree : s.jobs a = none) (ha : allocate jobAnswer = some (a, left))
    (hb : allocate threadAnswer = none) :
    exec (yaNewJob t attr jobAnswer threadAnswer dirFails fileFails) s = (.ok none, s) := by
  have hback : s.setJob a none = s := by
    simp [Store.setJob, ← hfree]
  have hfreed : exec (freeJob a) (s.setJob a (some { left with threadTable := fun _ => [] })) =
      (.ok (), s) := by
    rw [freeJob, exec_bind_ok (exec_loadJob (Function.update_self ..)), exec_modify, setJob_setJob,
      hback]
  unfold yaNewJob yaInitJob
  rw [ha]
  dsimp only
  rw [exec_bind_ok (exec_modify ..), exec_bind_ok (exec_initSlots left),
    exec_bind_ok (exec_yaNewThread_none hb)]
  exact exec_bind_ok hfreed

theorem exec_yaNewJob_none (ha : allocate jobAnswer = none) :
    exec (yaNewJob t attr jobAnswer threadAnswer dirFails fileFails) s = (.ok none, s) := by
  unfold yaNewJob
  rw [ha]
  rfl

end

-- ---------------------------------------------------------------------------
-- Main theorem
-- ---------------------------------------------------------------------------

def Store.Listed (s : Store β size) : Prop :=
  ∀ z zone, s.zones z = some zone → ∀ a ∈ zone.jobList, s.jobs a ≠ none

/-- The ids on the list are below the next one, so that the counter has not come
round to any of them. -/
def Store.Numbered (s : Store β size) (zone : Zone) : Prop :=
  ∀ a ∈ zone.jobList, ∀ job, s.jobs a = some job → job.id < zone.maxJid + 1

/-- The job at `a` and the thread at `b` are what a call for task `t` created;
`cond` is what a fresh id takes. -/
structure IsNew [NeZero size] (cond : Prop) (s s' : Store β size) (t : Nat) (attr : JobAttr β)
    (zone : Zone) (a b : Nat) (job : Job β size) (thread : Thread) : Prop where
  nonNull : a ≠ 0 ∧ b ≠ 0
  objects : s'.jobs a = some job ∧ s'.threads b = some thread
  list : s'.zones attr.zone = some (zone.link a)
  once : (zone.link a).jobList.count a = 1
  id : job.id = (zone.link a).maxJid
  fresh : cond → ∀ a' ∈ zone.jobList, ∀ job', s.jobs a' = some job' → job'.id ≠ job.id
  state : job.state = .running
  aliveProc : job.aliveProc = 1
  jobAttribute : job.jobAttribute = attr
  suspendedThreads : job.suspendedThreads = []
  threadTable : ∀ i, job.threadTable i = if i = Fin.ofNat size (s.pid t) then [b] else []
  caller : thread.task = t ∧ thread.job = a
  thread : thread.state = .alive ∧ thread.listed = true ∧ thread.suspendWait = false
  otherJobs : ∀ a' ≠ a, s'.jobs a' = s.jobs a'
  otherThreads : ∀ b' ≠ b, s'.threads b' = s.threads b'
  otherZones : ∀ z ≠ attr.zone, s'.zones z = s.zones z

/-- With `NULL` everything is as it was: what was allocated is free again. -/
inductive Outcome [NeZero size] (cond : Prop) (s : Store β size) (t : Nat) (attr : JobAttr β)
    (zone : Zone) : Except Fault (Option Nat) × Store β size → Prop
  | created : IsNew cond s s' t attr zone a b job thread →
      Outcome cond s t attr zone (.ok (some a), s')
  | nothing : Outcome cond s t attr zone (.ok none, s)

section

variable [NeZero size] {s : Store β size} {zone : Zone}

theorem created_isNew (t : Nat) (attr : JobAttr β) (left : Job β size) (leftThread : Thread)
    (dirFails fileFails : Bool) (ha : a ≠ 0 ∧ s.jobs a = none) (hb : b ≠ 0 ∧ s.threads b = none)
    (hunlisted : a ∉ zone.jobList) :
    ∃ job thread, IsNew (s.Numbered zone) s
      (s.created t a b left leftThread attr zone dirFails fileFails) t attr zone a b job
      thread := by
  refine ⟨_, _, ⟨ha.1, hb.1⟩, ⟨Store.hold_jobs, Store.hold_threads⟩, Function.update_self .., ?_,
    rfl, ?_, rfl, rfl, rfl, rfl, ?_, ⟨rfl, rfl⟩, ⟨rfl, rfl, rfl⟩, ?_, ?_, ?_⟩
  · simp [Zone.link, List.count_eq_zero_of_not_mem hunlisted]
  · intro hn a' ha' job' hjob'
    exact UInt64.ne_of_lt (hn a' ha' job' hjob')
  · exact fun i => Function.update_apply (fun _ => []) _ _ i
  · exact fun a' hne => Function.update_of_ne hne ..
  · exact fun b' hne => Function.update_of_ne hne ..
  · exact fun z hne => Function.update_of_ne hne ..

theorem newJob_outcome {attr : JobAttr β} (hs : s.Listed) (hz : s.zones attr.zone = some zone)
    (t : Nat) (jobCache : KmemCache s.jobs) (threadCache : KmemCache s.threads)
    (dirFails fileFails : Bool) :
    Outcome (s.Numbered zone) s t attr zone
        (exec (yaNewJob t attr jobCache.answer threadCache.answer dirFails fileFails) s) ∧
      ((exec (yaNewJob t attr jobCache.answer threadCache.answer dirFails fileFails) s).1 =
          .ok none ↔ allocate jobCache.answer = none ∨ allocate threadCache.answer = none) ∧
      attempts jobCache.answer ≤ allocTries ∧ attempts threadCache.answer ≤ allocTries := by
  rw [← and_assoc]
  refine ⟨?_, attempts_le _, attempts_le _⟩
  cases ha : allocate jobCache.answer with
  | none =>
    rw [exec_yaNewJob_none ha]
    exact ⟨.nothing, iff_of_true rfl (.inl rfl)⟩
  | some x =>
    obtain ⟨a, left⟩ := x
    have hfree := jobCache.allocated ha
    cases hb : allocate threadCache.answer with
    | none =>
      rw [exec_yaNewJob_freed hfree.2 ha hb]
      exact ⟨.nothing, iff_of_true rfl (.inr rfl)⟩
    | some y =>
      obtain ⟨b, leftThread⟩ := y
      have hunlisted : a ∉ zone.jobList := fun hmem => hs _ _ hz a hmem hfree.2
      obtain ⟨job, thread, hnew⟩ := created_isNew t attr left leftThread dirFails fileFails hfree
        (threadCache.allocated hb) hunlisted
      rw [exec_yaNewJob hz ha hb]
      exact ⟨.created hnew, iff_of_false (by simp) (by simp)⟩

/-- Until the counter comes round, the next job's id will be fresh as well. -/
theorem IsNew.numbered {cond : Prop} {attr : JobAttr β} {job : Job β size} {thread : Thread}
    (h : IsNew cond s s' t attr zone a b job thread) (hn : s.Numbered zone)
    (hroom : zone.maxJid + 1 < zone.maxJid + 1 + 1) : s'.Numbered (zone.link a) := by
  intro a' ha' job' hjob'
  rcases eq_or_ne a' a with rfl | hne
  · cases h.objects.1.symm.trans hjob'
    rw [h.id]
    exact hroom
  · have hold : a' ∈ zone.jobList := by
      rcases List.mem_append.mp ha' with hold | hnew
      · exact hold
      · exact absurd (List.mem_singleton.mp hnew) hne
    rw [h.otherJobs a' hne] at hjob'
    exact UInt64.lt_trans (hn a' hold job' hjob') hroom

end

-- ---------------------------------------------------------------------------
-- The same call on the objects of the whole system
-- ---------------------------------------------------------------------------

def Job.object (job : Job β size) : Objects.Job where
  id := job.id.toNat
  aliveProc := job.aliveProc
  threadTable i := if h : i < size then job.threadTable ⟨i, h⟩ else []
  dir := job.dir

def Thread.object (thread : Thread) : Objects.Thread where
  task := thread.task
  job := thread.job
  entry := thread.entry

/-- The two stores agree on the zone at `z` and on the objects, as far as both
have them. -/
structure Matches (z : Nat) (s : Store β size) (o : Objects.Store) : Prop where
  jobs : ∀ a, (s.jobs a).map Job.object = o.jobs a
  threads : ∀ b, (s.threads b).map Thread.object = o.threads b
  zone : ∃ zone, s.zones z = some zone ∧ zone.jobList = o.jobList ∧
    zone.maxJid.toNat = o.maxJid ∧ zone.dir = o.zoneDir
  pid : ∀ t, s.pid t = (o.tasks t).pid
  proc : s.proc = o.proc

section

variable [NeZero size] {s : Store β size} {o : Objects.Store} {attr : JobAttr β} {zone : Zone}

theorem table_object (pid b i : Nat) :
    (if h : i < size then Function.update (fun _ => []) (Fin.ofNat size pid) [b] ⟨i, h⟩ else []) =
      Function.update (fun _ => []) (pid % size) [b] i := by
  split
  case isTrue h =>
    rcases eq_or_ne i (pid % size) with rfl | hne
    · rw [Function.update_self]
      exact Function.update_self ..
    · have hslot : (⟨i, h⟩ : Fin size) ≠ Fin.ofNat size pid :=
        fun heq => hne (congrArg Fin.val heq)
      rw [Function.update_of_ne hslot, Function.update_of_ne hne]
  case isFalse h =>
    have hlt : pid % size < size := Nat.mod_lt _ (Nat.pos_of_neZero size)
    rw [Function.update_of_ne (by omega)]

theorem next_toNat (n : UInt64) : (n + 1).toNat = incJid n.toNat := UInt64.toNat_add ..

theorem freshJob_object (hm : Matches attr.zone s o) (hz : s.zones attr.zone = some zone)
    (left : Job β size) (t b : Nat) :
    (freshJob left (s.pid t) b attr zone).object = o.freshJob size t b left.dir := by
  obtain ⟨zone', hz', -, hmax, -⟩ := hm.zone
  cases hz.symm.trans hz'
  simp only [Job.object, freshJob, Objects.Store.freshJob, next_toNat, hmax, table_object,
    Objects.Store.slot, hm.pid]

theorem created_matches (hm : Matches attr.zone s o) (hz : s.zones attr.zone = some zone)
    (left : Job β size) (leftThread : Thread) (t a b : Nat) (dirFails fileFails : Bool) :
    Matches attr.zone (s.created t a b left leftThread attr zone dirFails fileFails)
      (o.newJob size t a b left.dir leftThread.entry dirFails fileFails) := by
  have hjob := freshJob_object hm hz left t b
  obtain ⟨zone', hz', hlist, hmax, hdir⟩ := hm.zone
  cases hz.symm.trans hz'
  have hid : (zone.maxJid + 1).toNat = incJid o.maxJid := by rw [next_toNat, hmax]
  have hadded : s.jobDir (freshJob left (s.pid t) b attr zone) zone dirFails =
      addJobProcfsEntry dirFails (o.freshJob size t b left.dir).id o.zoneDir left.dir o.proc := by
    rw [Store.jobDir, hdir, hm.proc]
    exact congrArg (addJobProcfsEntry dirFails · _ _ _) hid
  have hwith : Job.object { freshJob left (s.pid t) b attr zone with
      dir := (s.jobDir (freshJob left (s.pid t) b attr zone) zone dirFails).dir } =
        o.withDir (o.freshJob size t b left.dir) dirFails := by
    rw [hadded, Objects.Store.withDir, ← hjob]
    rfl
  have hfile : addThreadProcfsEntry fileFails (s.pid t)
      (s.jobDir (freshJob left (s.pid t) b attr zone) zone dirFails).dir
      (s.jobDir (freshJob left (s.pid t) b attr zone) zone dirFails).proc =
        addThreadProcfsEntry fileFails (o.tasks t).pid
          (o.withDir (o.freshJob size t b left.dir) dirFails).dir
          (o.addJobDir a (o.freshJob size t b left.dir) dirFails).proc := by
    rw [hadded, hm.pid]
    rfl
  refine ⟨fun a' => ?_, fun b' => ?_, ⟨_, Function.update_self .., ?_, hid, hdir⟩, hm.pid, ?_⟩
  · have hjobs : (o.newJob size t a b left.dir leftThread.entry dirFails fileFails).jobs =
        Function.update o.jobs a (some (o.withDir (o.freshJob size t b left.dir) dirFails)) :=
      Function.update_idem ..
    rw [hjobs, ← hwith, ← funext hm.jobs]
    exact congrFun (map_update s.jobs Job.object a _) a'
  · have hthreads : (o.newJob size t a b left.dir leftThread.entry dirFails fileFails).threads =
        Function.update o.threads b (some { task := t, job := a, entry := (addThreadProcfsEntry
          fileFails (o.tasks t).pid (o.withDir (o.freshJob size t b left.dir) dirFails).dir
          (o.addJobDir a (o.freshJob size t b left.dir) dirFails).proc).dir }) :=
      Function.update_idem ..
    rw [hthreads, ← hfile, ← funext hm.threads]
    exact congrFun (map_update s.threads Thread.object b _) b'
  · exact congrArg (· ++ [a]) hlist
  · exact congrArg Added.proc hfile

theorem newJob_matches (hm : Matches attr.zone s o) (t : Nat) (jobCache : KmemCache s.jobs)
    (threadCache : KmemCache s.threads) (dirFails fileFails : Bool) : ∃ ret s' o',
    exec (yaNewJob t attr jobCache.answer threadCache.answer dirFails fileFails) s = (ret, s') ∧
    exec (Objects.yaNewJob size t ((allocate jobCache.answer).map (Prod.map id Job.dir))
      ((allocate threadCache.answer).map (Prod.map id Thread.entry)) dirFails fileFails) o =
        (ret, o') ∧
    Matches attr.zone s' o' := by
  obtain ⟨zone, hz, -⟩ := hm.zone
  cases ha : allocate jobCache.answer with
  | none => exact ⟨_, _, _, exec_yaNewJob_none ha, rfl, hm⟩
  | some x =>
    obtain ⟨a, left⟩ := x
    have hfree := (jobCache.allocated ha).2
    cases hb : allocate threadCache.answer with
    | none =>
      have hgone : o.jobs a = none := by rw [← hm.jobs, hfree, Option.map_none]
      exact ⟨_, _, _, exec_yaNewJob_freed hfree ha hb, Objects.exec_yaNewJob_freed hgone, hm⟩
    | some y =>
      obtain ⟨b, leftThread⟩ := y
      exact ⟨_, _, _, exec_yaNewJob hz ha hb, Objects.exec_yaNewJob,
        created_matches hm hz left leftThread t a b dirFails fileFails⟩

end

-- ---------------------------------------------------------------------------
-- A counter that has come round
-- ---------------------------------------------------------------------------

def sampleZone (maxJid : UInt64) : Zone :=
  { jobList := [0x1000], maxJid, dir := ⟨.zone 0, none, true⟩ }

def sampleStore (maxJid : UInt64) : Store Unit 64 where
  jobs := Function.update (fun _ => none) 0x1000 (some
    { jobAttribute := ⟨0x100, ()⟩, state := .suspended, aliveProc := 1, suspendedThreads := []
      id := 0, threadTable := fun _ => [], dir := ⟨.job 0, none, true⟩ })
  threads _ := none
  zones := Function.update (fun _ => none) 0x100 (some (sampleZone maxJid))
  pid t := t + 300
  proc := ∅

def sampleCache {heap : Nat → Option α} (n a : Nat) (x : α) (ha : a ≠ 0 ∧ heap a = none) :
    KmemCache heap where
  answer i := if i < n then none else some (a, x)
  fresh := by
    intro i a' x' h
    split at h <;> cases h
    exact ha

def sampleJobCache (n : Nat) (maxJid : UInt64) : KmemCache (sampleStore maxJid).jobs :=
  sampleCache n 0x2000
    { jobAttribute := ⟨0, ()⟩, state := .killed, aliveProc := 7, suspendedThreads := [1]
      id := 5, threadTable := fun _ => [2], dir := ⟨.yasched, none, false⟩ }
    ⟨by decide, rfl⟩

def sampleThreadCache (n : Nat) (maxJid : UInt64) : KmemCache (sampleStore maxJid).threads :=
  sampleCache n 0x3000 ⟨0, 0, .dead, true, true, .running, ⟨.yasched, none, false⟩⟩
    ⟨by decide, rfl⟩

theorem sampleStore_listed (maxJid : UInt64) : (sampleStore maxJid).Listed := by
  intro z zone hz a ha
  rcases eq_or_ne z 0x100 with rfl | hne
  · cases hz
    cases List.mem_singleton.mp ha
    exact Option.some_ne_none _
  · simp [sampleStore, hne] at hz

/-- The third attempt for the thread succeeds. -/
theorem newJob_outcome_thirdTry :
    Outcome ((sampleStore 0).Numbered (sampleZone 0)) (sampleStore 0) 7 ⟨0x100, ()⟩ (sampleZone 0)
        (exec (yaNewJob 7 ⟨0x100, ()⟩ (sampleJobCache 0 0).answer (sampleThreadCache 2 0).answer
          false false) (sampleStore 0)) ∧
      ((exec (yaNewJob 7 ⟨0x100, ()⟩ (sampleJobCache 0 0).answer (sampleThreadCache 2 0).answer
          false false) (sampleStore 0)).1 = .ok none ↔
        allocate (sampleJobCache 0 0).answer = none ∨
          allocate (sampleThreadCache 2 0).answer = none) ∧
      attempts (sampleJobCache 0 0).answer ≤ allocTries ∧
      attempts (sampleThreadCache 2 0).answer ≤ allocTries :=
  newJob_outcome (sampleStore_listed 0) rfl 7 (sampleJobCache 0 0) (sampleThreadCache 2 0) false
    false

/-- The next id is 0 again, and the first job is still there. -/
theorem newJob_outcome_fails :
    ¬ ∀ (s : Store Unit 64) (attr : JobAttr Unit) (zone : Zone), s.Listed →
      s.zones attr.zone = some zone → ∀ (t : Nat) (jobCache : KmemCache s.jobs)
        (threadCache : KmemCache s.threads) (dirFails fileFails : Bool),
      Outcome True s t attr zone
        (exec (yaNewJob t attr jobCache.answer threadCache.answer dirFails fileFails) s) := by
  intro h
  have hz : (sampleStore 0xffffffffffffffff).zones 0x100 =
      some (sampleZone 0xffffffffffffffff) := rfl
  have hout := h (sampleStore 0xffffffffffffffff) ⟨0x100, ()⟩ _ (sampleStore_listed _) hz 7
    (sampleJobCache 0 _) (sampleThreadCache 0 _) false false
  rw [exec_yaNewJob hz rfl rfl] at hout
  cases hout with
  | created hnew =>
    have hid := hnew.fresh trivial 0x1000 (List.mem_singleton_self _) _ rfl
    rw [hnew.id] at hid
    exact hid (by decide)

end Yasched.Creation
