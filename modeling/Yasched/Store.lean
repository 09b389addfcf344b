import Yasched.Cells
import Yasched.Execve
import Yasched.Setup

/-!
# Jobs and threads by address

The functions of `sched/sched.c` and `hook/` once more, this time with the
objects of the two caches where they are: behind pointers, on the slot lists of
a job, with entries in procfs. Every read of a field goes through the address
of its object.

A task runs one of the agents at a time. An agent that faults ends there, and
the rest of the system goes on from what it left. `size` is
`THREAD_TABLE_SIZE`.
-/

namespace Yasched.Objects

open Cells

-- ---------------------------------------------------------------------------
-- The objects
-- ---------------------------------------------------------------------------

/-- `ya_job_t`. The slots hold the addresses of thread entries; the state word
and the wait queue are those of `YaJob`. -/
structure Job where
  id : Nat
  aliveProc : Int
  threadTable : Nat → List Nat
  dir : DirEntry

/-- `ya_thread_t`, with the address of its job. -/
structure Thread where
  task : Nat
  job : Nat
  entry : DirEntry
  deriving DecidableEq, Repr

/-- `forking` holds the local `job` of `do_fork_agent`, `execing` the job in
the local `tsi` of `execve_agent`, unless the status is `NON_JOB`. -/
inductive Life
  | unborn
  | born
  | live
  | forking (job : Option Nat)
  | execing (tsi : Option Nat)
  | exited
  deriving DecidableEq, Repr

/-- `job` is the membership that `init_job` records and a child inherits. -/
structure Task where
  pid : Nat := 0
  leader : Nat := 0
  job : Option Nat := none
  life : Life := .unborn
  deriving DecidableEq, Repr

/-- A call of `procfs.c`: the result of an `add_*` and the entry it made, or
what a `del_*` read; with the entry of the object above. -/
inductive ProcCall
  | addZone (ret : Int) (made : Option Path)
  | addJob (ret : Int) (made : Option Path) (zoneDir : DirEntry)
  | addThread (ret : Int) (made : Option Path) (jobDir : DirEntry)
  | delJob (dir : DirEntry)
  | delThread (entry : DirEntry)
  | delThreadBelow (jobDir : DirEntry)
  deriving DecidableEq, Repr

/-- `calls` is the record of what was asked of `procfs.c`. -/
structure Store where
  jobs : Nat → Option Job
  threads : Nat → Option Thread
  tasks : Nat → Task
  ntasks : Nat
  jobList : List Nat
  maxJid : Nat
  zoneDir : DirEntry
  proc : Finset Path
  calls : List ProcCall

namespace Store

def setJob (s : Store) (a : Nat) (job : Option Job) : Store :=
  { s with jobs := Function.update s.jobs a job }

def setThread (s : Store) (b : Nat) (thread : Option Thread) : Store :=
  { s with threads := Function.update s.threads b thread }

def setTask (s : Store) (t : Nat) (k : Task) : Store :=
  { s with tasks := Function.update s.tasks t k }

def setLife (s : Store) (t : Nat) (life : Life) : Store := s.setTask t { s.tasks t with life }

def slot (size : Nat) (s : Store) (t : Nat) : Nat := (s.tasks t).pid % size

end Store

abbrev M := HeapM Store

def loadJob (a : Nat) : M Job := load Store.jobs a

def loadThread (b : Nat) : M Thread := load Store.threads b

/-- What `kmem_cache_alloc` gives in the end: an address with what was there
before, as far as it is read. -/
abbrev Alloc := Option (Nat × DirEntry)

def freeJob (a : Nat) : M Unit := do
  let _ ← loadJob a
  modify (·.setJob a none)

def freeThread (b : Nat) : M Unit := do
  let _ ← loadThread b
  modify (·.setThread b none)

-- ---------------------------------------------------------------------------
-- Entries
-- ---------------------------------------------------------------------------

def addJobEntry (a : Nat) (fails : Bool) : M Unit := do
  let job ← loadJob a
  let s ← get
  let added := addJobProcfsEntry fails job.id s.zoneDir job.dir s.proc
  modify fun s => { s.setJob a (some { job with dir := added.dir }) with
    proc := added.proc
    calls := s.calls ++ [.addJob added.ret added.made s.zoneDir] }

def addThreadEntry (b : Nat) (fails : Bool) : M Unit := do
  let thread ← loadThread b
  let job ← loadJob thread.job
  let s ← get
  let added := addThreadProcfsEntry fails (s.tasks thread.task).pid job.dir s.proc
  modify fun s => { s.setThread b (some { thread with entry := added.dir }) with
    proc := added.proc
    calls := s.calls ++ [.addThread added.ret added.made job.dir] }

def delJobEntry (a : Nat) : M Unit := do
  let job ← loadJob a
  modify fun s => { s with
    proc := delJobProcfsEntry job.dir s.zoneDir s.proc
    calls := s.calls ++ [.delJob job.dir] }

def delThreadEntry (b : Nat) : M Unit := do
  let thread ← loadThread b
  modify fun s => { s with calls := s.calls ++ [.delThread thread.entry] }
  if thread.entry.entry ≠ none then
    let job ← loadJob thread.job
    modify fun s => { s with
      proc := delThreadProcfsEntry thread.entry job.dir s.proc
      calls := s.calls ++ [.delThreadBelow job.dir] }

-- ---------------------------------------------------------------------------
-- sched.c
-- ---------------------------------------------------------------------------

def getThread (j : Nat) : M Unit := do
  let job ← loadJob j
  modify (·.setJob j (some { job with aliveProc := job.aliveProc + 1 }))

def attachToJob (size t b j : Nat) : M Unit := do
  let thread ← loadThread b
  modify (·.setThread b (some { thread with job := j }))
  let job ← loadJob j
  let s ← get
  let i := s.slot size t
  modify (·.setJob j (some { job with
    threadTable := Function.update job.threadTable i (job.threadTable i ++ [b]) }))

def yaNewThread (size t j : Nat) (alloc : Alloc) : M (Option Nat) := do
  match alloc with
  | none => return none
  | some (b, entry) =>
    modify (·.setThread b (some { task := t, job := 0, entry }))
    attachToJob size t b j
    return some b

/-- `list_del_init` takes the entry out of the list that it is on, under the
lock of the slot of the current task. -/
def detachFromJob (b : Nat) : M Unit := do
  let thread ← loadThread b
  let job ← loadJob thread.job
  modify (·.setJob thread.job (some { job with
    threadTable := fun i => (job.threadTable i).erase b }))

/-- The final message reads the id of the job, and that of `dummy_job`. -/
def yaDelJob (j : Nat) : M Unit := do
  let _ ← loadJob j
  modify fun s => { s with jobList := s.jobList.erase j }
  delJobEntry j
  freeJob j
  let _ ← loadJob j
  let _ ← loadJob 0

def putThread (j : Nat) : M Unit := do
  let job ← loadJob j
  modify (·.setJob j (some { job with aliveProc := job.aliveProc - 1 }))
  if job.aliveProc - 1 = 0 then yaDelJob j

def finiThread (b : Nat) : M Unit := do
  let thread ← loadThread b
  delThreadEntry b
  freeThread b
  putThread thread.job

def yaDelThread (b : Nat) : M Unit := do
  detachFromJob b
  finiThread b

def linkJob (a : Nat) : M Unit := do
  let job ← loadJob a
  let s ← get
  let jid := incJid s.maxJid
  modify fun s => { s.setJob a (some { job with aliveProc := 1, id := jid }) with
    maxJid := jid
    jobList := s.jobList ++ [a] }

/-- `__ya_init_job` on the fresh object at `a`, for the current task `t`. -/
def yaInitJob (size t a : Nat) (thread : Alloc) (dirFails fileFails : Bool) : M (Option Nat) := do
  match ← yaNewThread size t a thread with
  | none =>
    freeJob a
    return none
  | some b =>
    linkJob a
    addJobEntry a dirFails
    addThreadEntry b fileFails
    return some a

def allocJob (dir : DirEntry) : Job := { id := 0, aliveProc := 0, threadTable := fun _ => [], dir }

def yaNewJob (size t : Nat) (job thread : Alloc) (dirFails fileFails : Bool) :
    M (Option Nat) := do
  match job with
  | none => return none
  | some (a, dir) =>
    modify (·.setJob a (some (allocJob dir)))
    yaInitJob size t a thread dirFails fileFails

-- ---------------------------------------------------------------------------
-- The agents
-- ---------------------------------------------------------------------------

/-- The entry of task `t` on the slot of its job that `pid` gives. -/
def searchThreadByTask (size : Nat) (s : Store) (t : Nat) : Option Nat :=
  match (s.tasks t).job.bind s.jobs with
  | none => none
  | some job => (job.threadTable (s.slot size t)).find? fun b => (s.threads b).any (·.task = t)

/-- `zone` is what the scan of `new_job` finds in the environment. -/
def tryNewJob (size t : Nat) (zone : Option Zone) (job thread : Alloc)
    (dirFails fileFails : Bool) : M (JobStatus × Option Nat) := do
  let s ← get
  match (s.tasks t).job with
  | some j => return (.existingJob, some j)
  | none =>
    if zone = none then return (.nonJob, none)
    else
      match ← yaNewJob size t job thread dirFails fileFails with
      | none => return (.nonJob, none)
      | some a => return (.newJob, some a)

def execveCall (size t : Nat) (zone : Option Zone) (job thread : Alloc)
    (dirFails fileFails : Bool) : M Unit := do
  let (_, tsi) ← tryNewJob size t zone job thread dirFails fileFails
  modify (·.setLife t (.execing tsi))

/-- What makes `execve_agent` create a job: the caller is in none, the scan of
its environment finds a zone, and both objects can be had. -/
def CreatesJob (s : Store) (t : Nat) (zone : Option Zone) (job thread : Alloc) : Prop :=
  (s.tasks t).job = none ∧ zone ≠ none ∧ job ≠ none ∧ thread ≠ none

instance (s : Store) (t : Nat) (zone : Option Zone) (job thread : Alloc) :
    Decidable (CreatesJob s t zone job thread) :=
  inferInstanceAs (Decidable (_ ∧ _ ∧ _ ∧ _))

/-- The task when `do_execve` and `init_job` have returned. One that is not the
leader of its group takes the place and the pid of the leader when it succeeds;
the membership is what `tsi` says. -/
def Store.returned (s : Store) (t : Nat) (tsi : Option Nat) (ok : Bool) : Task :=
  let k := s.tasks t
  let k := if ok then { k with pid := (s.tasks k.leader).pid, leader := t } else k
  { k with job := tsi.or k.job, life := .live }

def execveReturn (t : Nat) (tsi : Option Nat) (ok : Bool) : M Unit :=
  modify fun s => s.setTask t (s.returned t tsi ok)

def doForkAgent (t : Nat) : M Unit := do
  let s ← get
  match (s.tasks t).job with
  | some j =>
    getThread j
    modify (·.setLife t (.forking (some j)))
  | none => modify (·.setLife t (.forking none))

def forkFail (t : Nat) (job : Option Nat) : M Unit := do
  modify (·.setLife t .live)
  match job with
  | some j => putThread j
  | none => return ()

def scheduleTailAgent (size t : Nat) (thread : Alloc) (fileFails : Bool) : M Unit := do
  modify (·.setLife t .live)
  let s ← get
  match (s.tasks t).job with
  | none => return ()
  | some j =>
    match ← yaNewThread size t j thread with
    | none => return ()
    | some b => addThreadEntry b fileFails

def enterExitHook (size t : Nat) : M Unit := do
  modify (·.setLife t .exited)
  let s ← get
  match searchThreadByTask size s t with
  | none => return ()
  | some b => yaDelThread b

-- ---------------------------------------------------------------------------
-- The system
-- ---------------------------------------------------------------------------

inductive Event
  | execve (t : Nat) (zone : Option Zone) (job thread : Alloc) (dirFails fileFails : Bool)
  | execveReturn (t : Nat) (ok : Bool)
  | fork (t : Nat)
  | child (t pid : Nat) (thread : Bool)
  | forkFail (t : Nat)
  | scheduleTail (t : Nat) (thread : Alloc) (fileFails : Bool)
  | exit (t : Nat)
  deriving DecidableEq, Repr

/-- An allocation gives an address that is free, and nobody has written the
entry of the object there. -/
def Fresh (heap : Nat → Option α) (alloc : Alloc) : Prop :=
  ∀ a dir, alloc = some (a, dir) → a ≠ 0 ∧ heap a = none ∧ dir.written = false

instance (heap : Nat → Option α) (alloc : Alloc) : Decidable (Fresh heap alloc) :=
  match alloc with
  | none => .isTrue fun _ _ h => nomatch h
  | some (a, dir) =>
    decidable_of_iff (a ≠ 0 ∧ (heap a).isNone = true ∧ dir.written = false) (by simp [Fresh])

def forkChild (s : Store) (t pid : Nat) (thread : Bool) : Store :=
  let k := s.tasks t
  let child := { pid, leader := if thread then k.leader else s.ntasks, job := k.job, life := .born }
  { (s.setLife t .live).setTask s.ntasks child with ntasks := s.ntasks + 1 }

def after (x : M Unit) (s : Store) : Option Store := some (exec x s).2

def step (size : Nat) (s : Store) : Event → Option Store
  | .execve t zone job thread dirFails fileFails =>
    if (s.tasks t).life = .live ∧ Fresh s.jobs job ∧ Fresh s.threads thread then
      after (execveCall size t zone job thread dirFails fileFails) s
    else none
  | .execveReturn t ok =>
    match (s.tasks t).life with
    | .execing tsi => after (execveReturn t tsi ok) s
    | _ => none
  | .fork t => if (s.tasks t).life = .live then after (doForkAgent t) s else none
  | .child t pid thread =>
    match (s.tasks t).life with
    | .forking _ => some (forkChild s t pid thread)
    | _ => none
  | .forkFail t =>
    match (s.tasks t).life with
    | .forking job => after (forkFail t job) s
    | _ => none
  | .scheduleTail t thread fileFails =>
    if (s.tasks t).life = .born ∧ Fresh s.threads thread then
      after (scheduleTailAgent size t thread fileFails) s
    else none
  | .exit t => if (s.tasks t).life = .live then after (enterExitHook size t) s else none

def init (n : Nat) (pid leader : Nat → Nat) (dirFails : Bool) (rootdir : Option Path)
    (dir : DirEntry) (proc : Finset Path) : Store :=
  let added := addZoneProcfsEntry dirFails yaSchedZoneId rootdir dir proc
  { jobs := fun _ => none
    threads := fun _ => none
    tasks := fun t => if t < n then { pid := pid t, leader := leader t, life := .live } else {}
    ntasks := n
    jobList := []
    maxJid := jidBound - 1
    zoneDir := added.dir
    proc := added.proc
    calls := [.addZone added.ret added.made] }

end Yasched.Objects
