import Yasched.Runs

/-!
# Tasks, thread entries and jobs

The data of `sched/sched.h` and of the kernel's task as far as the hooks read
or write it, with the inline functions that work on one thread: `go_to_bed`,
`get_up`, `go_to_heaven`, `thread_suspended`.

Objects are named by number: `t` and `i` name tasks, `p` and `q` job objects,
as their address would. The job's own id is a field of the job. A thread entry
is reached through its task, which is what `search_thread_by_task` does; its
`suspend_wait` is one bit, since the entry is only ever linked on the
`suspended_threads` queue of its own job.
-/

namespace Yasched

/-- `task->state`. The hooks compare it with `TASK_DEAD`, set it to two
constants, and otherwise only save and restore it. -/
inductive TaskState
  | running
  | interruptible
  | uninterruptible
  | dead
  | other (bits : Nat)
  deriving DecidableEq, Repr

def TaskState.Sleeping (s : TaskState) : Prop := s ≠ .running ∧ s ≠ .dead

instance (s : TaskState) : Decidable s.Sleeping := inferInstanceAs (Decidable (_ ∧ _))

inductive YaJobState
  | running
  | suspended
  | killed
  deriving DecidableEq, Repr

inductive YaThreadState
  | alive
  | dead
  deriving DecidableEq, Repr

structure YaThread where
  job : Nat
  state : YaThreadState := .alive
  taskState : TaskState
  suspendWait : Bool := false
  deriving DecidableEq, Repr

/-- `ya_job_t`. `freed` counts the calls of `ya_del_job` on the object; the
fields of a freed object keep the values they had. -/
structure YaJob where
  id : Nat
  state : YaJobState := .running
  aliveProc : Int
  freed : Nat := 0
  deriving DecidableEq, Repr

/-- Where a task is with respect to `schedule()`. `killed` is the branch of
the `switch` that the enter hook took. -/
inductive Pc
  | user
  | enter
  | goToBed
  | readJob
  | finishWait (killed : Bool)
  | restore (killed : Bool)
  | goToHeaven
  | schedule
  | offRq
  | leave
  | leaveFinishWait
  | leaveRestore
  deriving DecidableEq, Repr

/-- Where a task is in its life. `forking` holds the local variable `job` of
`do_fork_agent`, `tail` the number of allocations that `ya_new_thread` has
tried in vain. -/
inductive Life
  | unborn
  | born
  | tail (tries : Nat)
  | live
  | forking (job : Option Nat)
  | exited
  deriving DecidableEq, Repr

/-- A task: the job that `search_job_by_task` finds for it, the entry that
`search_thread_by_task` finds, and the number of `SIGKILL`s sent to it. -/
structure Task where
  job : Option Nat := none
  thread : Option YaThread := none
  state : TaskState := .running
  pc : Pc := .user
  life : Life := .unborn
  sigkill : Nat := 0
  deriving DecidableEq, Repr

-- ---------------------------------------------------------------------------
-- The functions of sched.h on the current task and its thread entry
-- ---------------------------------------------------------------------------

/-- `prepare_to_wait` links the entry, unless it is linked already, and sets
the state, under the lock of the queue. -/
def goToBed (k : Task) (thread : YaThread) : Task :=
  { k with state := .interruptible, thread := some { thread with suspendWait := true } }

def threadSuspended (thread : YaThread) : Bool := thread.suspendWait

def finishWait (k : Task) (thread : YaThread) : Task :=
  { k with state := .running, thread := some { thread with suspendWait := false } }

def restoreState (k : Task) (thread : YaThread) : Task := { k with state := thread.taskState }

def getUp (k : Task) (thread : YaThread) : Task :=
  restoreState (finishWait k thread) thread

/-- `sigkill` counts the calls of `kill_pid` for this thread; it is the process
that they go to. -/
def goToHeaven (k : Task) (thread : YaThread) : Task :=
  if thread.state = .dead then k
  else
    { k with
      state := thread.taskState
      thread := some { thread with state := .dead }
      sigkill := k.sigkill + 1 }

-- ---------------------------------------------------------------------------
-- Wake-ups
-- ---------------------------------------------------------------------------

/-- Another CPU's `try_to_wake_up`: a sleeping task becomes `TASK_RUNNING` and
goes back on the run queue, to continue at `back`. -/
def Task.wake (back : Pc) (k : Task) : Task :=
  if k.state = .dead then k
  else { k with state := .running, pc := if k.pc = .offRq then back else k.pc }

/-- What `wake_up` on the queue of job `p` does to a task: a queued one is
woken and unlinked. The kernel leaves the entry of a task linked that is
`TASK_RUNNING` already; `keep` says whether this one stays. -/
def Task.wakeQueue (back : Pc) (p : Nat) (keep : Bool) (k : Task) : Task :=
  match k.thread with
  | some thread =>
    if thread.job = p ∧ thread.suspendWait ∧ ¬(keep ∧ k.state = .running) then
      { k.wake back with thread := some { thread with suspendWait := false } }
    else k
  | none => k

end Yasched
