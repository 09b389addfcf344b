import Yasched.ScheduleHook

/-!
# The state of the module and the functions of `sched/sched.c`

`Sys` holds the tasks, the job objects and the one zone `ya_sched_zone` with
its `job_list`. The functions of `sched.c` are here as functions on `Sys`; the
allocator answers each `kmem_cache_alloc` with one element of a list.
-/

namespace Yasched

def einval : Int := 22
def efault : Int := 14

inductive Zone
  | yaSchedZone
  deriving DecidableEq, Repr

def searchZoneById (zid : Nat) : Option Zone := if zid = 0 then some .yaSchedZone else none

/-- `waking` is the job of the control call that has written its state and is
still to call `wake_up`; the call holds the lock of the zone meanwhile. -/
structure Sys where
  tasks : Nat → Task
  ntasks : Nat
  jobs : Nat → YaJob
  njobs : Nat
  jobList : List Nat
  maxJid : Nat
  waking : Option Nat

namespace Sys

def setTask (s : Sys) (t : Nat) (k : Task) : Sys := { s with tasks := Function.update s.tasks t k }

def addTask (s : Sys) (k : Task) : Sys :=
  { s with tasks := Function.update s.tasks s.ntasks k, ntasks := s.ntasks + 1 }

def setJob (s : Sys) (p : Nat) (job : YaJob) : Sys :=
  { s with jobs := Function.update s.jobs p job }

def jobState (s : Sys) (p : Nat) : YaJobState := (s.jobs p).state

@[simp] theorem setTask_tasks (s : Sys) : (s.setTask t k).tasks = Function.update s.tasks t k := rfl
@[simp] theorem setTask_ntasks (s : Sys) : (s.setTask t k).ntasks = s.ntasks := rfl
@[simp] theorem setTask_jobs (s : Sys) : (s.setTask t k).jobs = s.jobs := rfl
@[simp] theorem setTask_njobs (s : Sys) : (s.setTask t k).njobs = s.njobs := rfl
@[simp] theorem setTask_jobList (s : Sys) : (s.setTask t k).jobList = s.jobList := rfl
@[simp] theorem setTask_waking (s : Sys) : (s.setTask t k).waking = s.waking := rfl
@[simp] theorem setTask_jobState (s : Sys) : (s.setTask t k).jobState = s.jobState := rfl
@[simp] theorem setJob_tasks (s : Sys) : (s.setJob p job).tasks = s.tasks := rfl
@[simp] theorem setJob_ntasks (s : Sys) : (s.setJob p job).ntasks = s.ntasks := rfl
@[simp] theorem setJob_jobs (s : Sys) : (s.setJob p job).jobs = Function.update s.jobs p job := rfl
@[simp] theorem setJob_njobs (s : Sys) : (s.setJob p job).njobs = s.njobs := rfl
@[simp] theorem setJob_jobList (s : Sys) : (s.setJob p job).jobList = s.jobList := rfl
@[simp] theorem setJob_waking (s : Sys) : (s.setJob p job).waking = s.waking := rfl

end Sys

-- ---------------------------------------------------------------------------
-- Counting threads
-- ---------------------------------------------------------------------------

def getThread (s : Sys) (p : Nat) : Sys :=
  s.setJob p { s.jobs p with aliveProc := (s.jobs p).aliveProc + 1 }

def yaDelJob (s : Sys) (p : Nat) : Sys :=
  { s.setJob p { s.jobs p with freed := (s.jobs p).freed + 1 } with jobList := s.jobList.erase p }

def putThread (s : Sys) (p : Nat) : Sys :=
  let job := { s.jobs p with aliveProc := (s.jobs p).aliveProc - 1 }
  if job.aliveProc = 0 then yaDelJob (s.setJob p job) p else s.setJob p job

-- ---------------------------------------------------------------------------
-- Allocation
-- ---------------------------------------------------------------------------

def allocTries : Nat := 9

/-- A retry loop around `kmem_cache_alloc`: whether one of the `tries` calls
succeeds, and the answers that are left. An exhausted list is an exhausted
allocator. -/
def kmemCacheAlloc : (tries : Nat) → List Bool → Bool × List Bool
  | 0, answers => (false, answers)
  | _ + 1, [] => (false, [])
  | _ + 1, true :: answers => (true, answers)
  | tries + 1, false :: answers => kmemCacheAlloc tries answers

/-- What `ya_new_thread` makes of a fresh object; `task_state` is left as the
allocator gives it. -/
def initThread (p : Nat) (junk : TaskState) : YaThread := { job := p, taskState := junk }

def jidBound : Nat := 0x10000000000000000

def incJid (maxJid : Nat) : Nat := (maxJid + 1) % jidBound

/-- `__ya_init_job` when its `ya_new_thread` succeeds: the job at the tail of
the zone's list, with the next id and the calling task `t` as its one thread.

The membership that `init_job` records when `do_execve` returns is set here as
well: in between the task is inside `do_execve` and takes no step of its life. -/
def yaInitJob (s : Sys) (t : Nat) (junk : TaskState) : Sys :=
  let k := { s.tasks t with job := some s.njobs, thread := some (initThread s.njobs junk) }
  { s.setTask t k with
    jobs := Function.update s.jobs s.njobs { id := incJid s.maxJid, aliveProc := 1 }
    njobs := s.njobs + 1
    jobList := s.jobList ++ [s.njobs]
    maxJid := incJid s.maxJid }

def yaNewJob (s : Sys) (t : Nat) (junk : TaskState) (answers : List Bool) : Sys :=
  match kmemCacheAlloc allocTries answers with
  | (false, _) => s
  | (true, answers) =>
    match kmemCacheAlloc allocTries answers with
    | (false, _) => s
    | (true, _) => yaInitJob s t junk

-- ---------------------------------------------------------------------------
-- Control operations
-- ---------------------------------------------------------------------------

/-- The three operations, numbered as in `ioctl.h`. -/
inductive JobOp
  | kill
  | suspend
  | resume
  deriving DecidableEq, Repr

/-- `__kill_job`, `__suspend_job` and `__resume_job` on the state word: what
they leave in it, and whether they go on to `wake_up`. -/
def JobOp.write : JobOp → YaJobState → YaJobState × Bool
  | .kill, prevState => (.killed, prevState = .suspended)
  | .suspend, _ => (.suspended, false)
  | .resume, .suspended => (.running, true)
  | .resume, state => (state, false)

def searchJobById (s : Sys) (jid : Nat) : Option Nat :=
  s.jobList.find? fun p => (s.jobs p).id = jid

def writeState (op : JobOp) (s : Sys) (p : Nat) : Sys :=
  { s.setJob p { s.jobs p with state := (op.write (s.jobState p)).1 } with
    waking := if (op.write (s.jobState p)).2 then some p else none }

/-- `wake_up` on the queue of the job that is being woken, which ends the
call. -/
def wakeUp (h : Hooks) (keep : List Nat) (s : Sys) : Sys :=
  match s.waking with
  | none => s
  | some p =>
    { s with
      tasks := fun t => (s.tasks t).wakeQueue h.back p (t ∈ keep)
      waking := none }

@[simp] theorem wakeUp_jobState : (wakeUp h keep s).jobState = s.jobState := by
  unfold wakeUp
  split <;> rfl

def jobOp (op : JobOp) (h : Hooks) (keep : List Nat) (s : Sys) (zid jid : Nat) : Int × Sys :=
  match searchZoneById zid with
  | none => (-einval, s)
  | some .yaSchedZone =>
    match searchJobById s jid with
    | none => (-einval, s)
    | some p => (0, wakeUp h keep (writeState op s p))

def killJob := jobOp .kill
def suspendJob := jobOp .suspend
def resumeJob := jobOp .resume

end Yasched
