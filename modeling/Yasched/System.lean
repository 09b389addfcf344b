import Yasched.Jobs

/-!
# The system: tasks, hooks and control calls, step by step

One `Event` is one atomic step of one task, of another CPU or of a control
call, so a list of events is an interleaving of any number of them. The agents
run only where `Hooks` says that they are installed.
-/

namespace Yasched

/-- The events. `junk` is what the allocator left in `task_state`, `answers`
and `ok` are the answers of `kmem_cache_alloc`. -/
inductive Event
  -- the life of a task
  | execve (t : Nat) (junk : TaskState) (answers : List Bool)
  | fork (t : Nat)
  | child (t : Nat)
  | forkFail (t : Nat)
  | scheduleTail (t : Nat)
  | tryThread (t : Nat) (junk : TaskState) (ok : Bool)
  | exit (t : Nat)
  -- its trips through schedule()
  | setState (t : Nat) (state : TaskState)
  | call (t : Nat)
  | hook (t : Nat)
  -- other CPUs and control calls
  | wake (t : Nat)
  | control (op : JobOp) (zid jid : Nat)
  | wakeUp (keep : List Nat)
  deriving DecidableEq, Repr

def Task.Ready (k : Task) : Prop := k.life = .live ∧ k.pc = .user

instance (k : Task) : Decidable k.Ready := inferInstanceAs (Decidable (_ ∧ _))

section
variable (h : Hooks) (s : Sys)

/-- `execve_agent` with an environment that names the zone. A task that
belongs to a job keeps it. -/
def execveAgent (t : Nat) (junk : TaskState) (answers : List Bool) : Option Sys :=
  let k := s.tasks t
  if k.Ready then
    some (if h.execve ∧ k.job = none then yaNewJob s t junk answers else s)
  else none

def doForkAgent (t : Nat) : Option Sys :=
  let k := s.tasks t
  if k.Ready then
    match if h.fork then k.job else none with
    | some p => some (getThread (s.setTask t { k with life := .forking (some p) }) p)
    | none => some (s.setTask t { k with life := .forking none })
  else none

/-- The kernel creates the child, with the next free number; for `t` the
agent has nothing left to do. -/
def forkChild (t : Nat) : Option Sys :=
  let k := s.tasks t
  match k.life, k.pc with
  | .forking _, .user =>
    some ((s.setTask t { k with life := .live }).addTask { job := k.job, life := .born })
  | _, _ => none

def forkFail (t : Nat) : Option Sys :=
  let k := s.tasks t
  match k.life, k.pc with
  | .forking (some p), .user => some (putThread (s.setTask t { k with life := .live }) p)
  | .forking none, .user => some (s.setTask t { k with life := .live })
  | _, _ => none

/-- The child's first step. `schedule_tail_agent` looks up its job. -/
def scheduleTailAgent (t : Nat) : Option Sys :=
  let k := s.tasks t
  if k.life = .born ∧ k.pc = .user then
    some (s.setTask t { k with life := if h.scheduleTail ∧ k.job ≠ none then .tail 0 else .live })
  else none

/-- One turn of the loop of `ya_new_thread`, with `__ya_init_thread` when the
allocation succeeds; after the last turn the child goes on without an entry. -/
def tryNewThread (t : Nat) (junk : TaskState) (ok : Bool) : Option Sys :=
  let k := s.tasks t
  match k.life, k.job, k.pc with
  | .tail tries, some p, .user =>
    some (s.setTask t
      (if ok then { k with thread := some (initThread p junk), life := .live }
      else { k with life := if tries + 1 < allocTries then .tail (tries + 1) else .live }))
  | _, _, _ => none

def enterExitHook (t : Nat) : Option Sys :=
  let k := s.tasks t
  if k.Ready then
    match if h.exit then k.thread else none with
    | some thread =>
      some (putThread (s.setTask t { k with thread := none, life := .exited }) thread.job)
    | none => some (s.setTask t { k with life := .exited })
  else none

/-- The task sets its own state; `TASK_DEAD` is what `do_exit` ends with. -/
def setCurrentState (t : Nat) (state : TaskState) : Option Sys :=
  let k := s.tasks t
  if k.life ≠ .unborn ∧ k.pc = .user ∧ k.state ≠ .dead ∧ (state = .dead → k.life = .exited) then
    some (s.setTask t { k with state })
  else none

def callSchedule (t : Nat) : Option Sys :=
  let k := s.tasks t
  if k.life ≠ .unborn ∧ k.pc = .user then
    some (s.setTask t { k with pc := if h.enterSchedule then .enter else .schedule })
  else none

/-- A control call up to its `wake_up`; it waits for the lock of the zone. -/
def control (op : JobOp) (zid jid : Nat) : Option Sys :=
  match s.waking, searchZoneById zid with
  | some _, _ => none
  | none, none => some s
  | none, some .yaSchedZone =>
    match searchJobById s jid with
    | none => some s
    | some p => some (writeState op s p)

end

def step (h : Hooks) (s : Sys) : Event → Option Sys
  | .execve t junk answers => execveAgent h s t junk answers
  | .fork t => doForkAgent h s t
  | .child t => forkChild s t
  | .forkFail t => forkFail s t
  | .scheduleTail t => scheduleTailAgent h s t
  | .tryThread t junk ok => tryNewThread s t junk ok
  | .exit t => enterExitHook h s t
  | .setState t state => setCurrentState s t state
  | .call t => callSchedule h s t
  | .hook t => ((s.tasks t).hook s.jobState h).map (s.setTask t)
  | .wake t => some (s.setTask t ((s.tasks t).wake h.back))
  | .control op zid jid => control s op zid jid
  | .wakeUp keep => s.waking.map fun _ => wakeUp h keep s

theorem jobOp_steps (hw : s.waking = none) :
    ∃ m, control s op zid jid = some m ∧ (jobOp op h keep s zid jid).2 = wakeUp h keep m := by
  unfold control jobOp
  rw [hw]
  cases searchZoneById zid with
  | none => exact ⟨s, rfl, by simp [wakeUp, hw]⟩
  | some zone =>
    cases searchJobById s jid with
    | none => exact ⟨s, rfl, by simp [wakeUp, hw]⟩
    | some p => exact ⟨writeState op s p, rfl, rfl⟩

def init (n : Nat) : Sys where
  tasks t := if t < n then { life := .live } else {}
  ntasks := n
  jobs _ := { id := 0, aliveProc := 0 }
  njobs := 0
  jobList := []
  maxJid := jidBound - 1
  waking := none

end Yasched
