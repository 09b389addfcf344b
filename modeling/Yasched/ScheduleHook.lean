import Yasched.Task

/-!
# The hooks around `__schedule`

`enterScheduleHook` and `leaveScheduleHook` are the two functions of
`hook/sched.c`, each run to its end at once. `Task.hook` takes one atomic step
of them, or of `__schedule` between them, for the task it is given; another
task, a wake-up or a control operation may come between two steps.

`enter_steps` and `leave_steps` say that the steps, taken without anything in
between, are the functions.
-/

namespace Yasched

structure Hooks where
  execve : Bool
  fork : Bool
  scheduleTail : Bool
  enterSchedule : Bool
  leaveSchedule : Bool
  exit : Bool
  deriving DecidableEq, Repr

def Hooks.all : Hooks := ⟨true, true, true, true, true, true⟩

/-- Where `__schedule` goes on when the task has the CPU again. -/
def Hooks.back (h : Hooks) : Pc := if h.leaveSchedule then .leave else .user

@[simp] theorem back_all : Hooks.all.back = .leave := rfl

section
variable (jobState : Nat → YaJobState)

def enterScheduleHook (k : Task) : Task :=
  match k.thread with
  | none => k
  | some thread =>
    if k.state = .dead then { k with thread := some { thread with state := .dead } }
    else
      let thread := { thread with taskState := k.state }
      let bed := goToBed k thread
      let queued := { thread with suspendWait := true }
      match jobState thread.job with
      | .suspended => bed
      | .killed => goToHeaven (getUp bed queued) { queued with suspendWait := false }
      | .running => getUp bed queued

def leaveScheduleHook (k : Task) : Task :=
  match k.thread with
  | none => k
  | some thread => if threadSuspended thread then getUp k thread else k

/-- The task's next own step. `get_up` is two steps, its `finish_wait` and the
write of `task_state`. A task that is off the run queue takes none, and a task
in user code enters `schedule()` by an event of its own. -/
def Task.hook (h : Hooks) (k : Task) : Option Task :=
  match k.pc, k.thread with
  | .user, _ | .offRq, _ => none
  | .enter, none => some { k with pc := .schedule }
  | .enter, some thread =>
    if k.state = .dead then
      some { k with thread := some { thread with state := .dead }, pc := .schedule }
    else some { k with thread := some { thread with taskState := k.state }, pc := .goToBed }
  | .goToBed, some thread => some { goToBed k thread with pc := .readJob }
  | .readJob, some thread =>
    match jobState thread.job with
    | .suspended => some { k with pc := .schedule }
    | .killed => some { k with pc := .finishWait true }
    | .running => some { k with pc := .finishWait false }
  | .finishWait killed, some thread => some { finishWait k thread with pc := .restore killed }
  | .restore killed, some thread =>
    some { restoreState k thread with pc := if killed then .goToHeaven else .schedule }
  | .goToHeaven, some thread => some { goToHeaven k thread with pc := .schedule }
  -- __schedule takes the task off the run queue unless it is TASK_RUNNING
  | .schedule, _ => some { k with pc := if k.state = .running then h.back else .offRq }
  | .leave, none => some { k with pc := .user }
  | .leave, some thread =>
    some { k with pc := if threadSuspended thread then .leaveFinishWait else .user }
  | .leaveFinishWait, some thread => some { finishWait k thread with pc := .leaveRestore }
  | .leaveRestore, some thread => some { restoreState k thread with pc := .user }
  | _, none => none

def Task.hooks (h : Hooks) : Nat → Task → Option Task
  | 0, k => some k
  | n + 1, k => (k.hook jobState h).bind (Task.hooks h n)

/-- What an own step can do, guards included. -/
inductive HookStep (h : Hooks) (k : Task) : Task → Prop
  | enterPlain : k.pc = .enter → k.thread = none → HookStep h k { k with pc := .schedule }
  | enterDead : k.pc = .enter → k.thread = some thread → k.state = .dead →
      HookStep h k { k with thread := some { thread with state := .dead }, pc := .schedule }
  | save : k.pc = .enter → k.thread = some thread → k.state ≠ .dead →
      HookStep h k { k with thread := some { thread with taskState := k.state }, pc := .goToBed }
  | goToBed : k.pc = .goToBed → k.thread = some thread →
      HookStep h k { goToBed k thread with pc := .readJob }
  | stayInBed : k.pc = .readJob → k.thread = some thread → jobState thread.job = .suspended →
      HookStep h k { k with pc := .schedule }
  | getUp : k.pc = .readJob → k.thread = some thread → jobState thread.job ≠ .suspended →
      HookStep h k { k with pc := .finishWait (jobState thread.job = .killed) }
  | finishWait : k.pc = .finishWait killed → k.thread = some thread →
      HookStep h k { finishWait k thread with pc := .restore killed }
  | restore : k.pc = .restore killed → k.thread = some thread →
      HookStep h k
        { restoreState k thread with pc := if killed then .goToHeaven else .schedule }
  | goToHeaven : k.pc = .goToHeaven → k.thread = some thread →
      HookStep h k { goToHeaven k thread with pc := .schedule }
  | schedule : k.pc = .schedule →
      HookStep h k { k with pc := if k.state = .running then h.back else .offRq }
  | leavePlain : k.pc = .leave → k.thread = none → HookStep h k { k with pc := .user }
  | leave : k.pc = .leave → k.thread = some thread →
      HookStep h k { k with pc := if threadSuspended thread then .leaveFinishWait else .user }
  | leaveFinishWait : k.pc = .leaveFinishWait → k.thread = some thread →
      HookStep h k { Yasched.finishWait k thread with pc := .leaveRestore }
  | leaveRestore : k.pc = .leaveRestore → k.thread = some thread →
      HookStep h k { restoreState k thread with pc := .user }

variable {jobState} {h : Hooks} {k : Task}

theorem hook_cases (hk : k.hook jobState h = some k') : HookStep jobState h k k' := by
  obtain ⟨job, thread, state, pc, life, sigkill⟩ := k
  cases pc <;> cases thread <;> simp only [Task.hook, reduceCtorEq, Option.some.injEq] at hk
  case enter.none => subst hk; exact .enterPlain rfl rfl
  case enter.some thread =>
    split at hk <;> rename_i hd <;> cases hk
    · exact .enterDead rfl rfl hd
    · exact .save rfl rfl hd
  case goToBed.some => subst hk; exact .goToBed rfl rfl
  case readJob.some thread =>
    split at hk <;> rename_i hj <;> cases hk
    · exact .stayInBed rfl rfl hj
    · have hup : HookStep jobState h ⟨job, some thread, state, .readJob, life, sigkill⟩ _ :=
        .getUp rfl rfl (by simp [hj])
      simpa [hj] using hup
    · have hup : HookStep jobState h ⟨job, some thread, state, .readJob, life, sigkill⟩ _ :=
        .getUp rfl rfl (by simp [hj])
      simpa [hj] using hup
  case finishWait.some => subst hk; exact .finishWait rfl rfl
  case restore.some => subst hk; exact .restore rfl rfl
  case goToHeaven.some => subst hk; exact .goToHeaven rfl rfl
  case schedule.none => subst hk; exact .schedule rfl
  case schedule.some => subst hk; exact .schedule rfl
  case leave.none => subst hk; exact .leavePlain rfl rfl
  case leave.some => subst hk; exact .leave rfl rfl
  case leaveFinishWait.some => subst hk; exact .leaveFinishWait rfl rfl
  case leaveRestore.some => subst hk; exact .leaveRestore rfl rfl

theorem enter_steps (hpc : k.pc = .enter) :
    ∃ n, k.hooks jobState h n = some { enterScheduleHook jobState k with pc := .schedule } := by
  obtain ⟨job, thread, state, pc, life, sigkill⟩ := k
  subst hpc
  cases thread with
  | none => exact ⟨1, rfl⟩
  | some thread =>
    by_cases hd : state = .dead
    · exact ⟨1, by simp [Task.hooks, Task.hook, enterScheduleHook, hd]⟩
    · cases hj : jobState thread.job with
      | suspended =>
        exact ⟨3, by simp [Task.hooks, Task.hook, enterScheduleHook, goToBed, hd, hj]⟩
      | running =>
        exact ⟨5, by simp [Task.hooks, Task.hook, enterScheduleHook, goToBed, getUp, finishWait,
          restoreState, hd, hj]⟩
      | killed =>
        refine ⟨6, ?_⟩
        by_cases ht : thread.state = .dead <;>
          simp [Task.hooks, Task.hook, enterScheduleHook, goToBed, getUp, finishWait,
            restoreState, goToHeaven, hd, hj, ht]

theorem leave_steps (hpc : k.pc = .leave) :
    ∃ n, k.hooks jobState h n = some { leaveScheduleHook k with pc := .user } := by
  obtain ⟨job, thread, state, pc, life, sigkill⟩ := k
  subst hpc
  cases thread with
  | none => exact ⟨1, rfl⟩
  | some thread =>
    cases hw : thread.suspendWait
    · exact ⟨1, by simp [Task.hooks, Task.hook, leaveScheduleHook, threadSuspended, hw]⟩
    · exact ⟨3, by simp [Task.hooks, Task.hook, leaveScheduleHook, threadSuspended, getUp,
        finishWait, restoreState, hw]⟩

end

end Yasched
