import Yasched.Loading
import Yasched.Setup

/-!
# From `yasched_init` to the return of `yasched_exit`

A session begins where `yasched_init` has only `perform_inception` left to
call. The hooks go in, tasks live, and after `remove_inception` the other lines
of `yasched_exit` run one by one; what the agents make and remove in procfs
goes along with the objects.

`execve_agent` may sleep for its allocations, so it takes two steps: the jump
into it, while its hook is in, and the body, which may come at any time later.
-/

namespace Yasched

/-- What the kernel answers to `proc_mkdir` and `proc_create_data`, the pid of
the calling task, and what was in a fresh job before. -/
structure ProcAnswers where
  dirFails : Bool
  fileFails : Bool
  pid : Nat
  junk : DirEntry
  deriving DecidableEq, Repr

inductive ExitPc
  | exitSched
  | finiProcfs
  | destroyCharDevice
  | returned
  deriving DecidableEq, Repr

/-- `dirs` holds the entries of the jobs, `files` those of the thread entries
by their tasks. -/
structure Session where
  sys : Sys
  loader : Loader
  inExecve : Nat → Bool
  mod : YaModule
  dirs : Nat → DirEntry
  files : Nat → DirEntry
  pc : ExitPc

/-- `execve` is the jump into the agent, `task` all that `Event` has; a line of
`inception.c` or of `yasched_exit` may come between any two steps. -/
inductive SessionEvent
  | execve (t : Nat)
  | task (e : Event) (answers : ProcAnswers)
  | loader (e : LoaderEvent)
  | exitSched
  | finiProcfs
  | destroyCharDevice
  deriving DecidableEq, Repr

namespace Session

-- ---------------------------------------------------------------------------
-- Entries
-- ---------------------------------------------------------------------------

def addJobEntry (s : Session) (p : Nat) (answers : ProcAnswers) : Session :=
  let added := addJobProcfsEntry answers.dirFails (s.sys.jobs p).id s.mod.zoneDir
    { answers.junk with written := false } s.mod.proc
  { s with
    dirs := Function.update s.dirs p added.dir
    mod := { s.mod with proc := added.proc } }

def addThreadEntry (s : Session) (t p : Nat) (answers : ProcAnswers) : Session :=
  let added := addThreadProcfsEntry answers.fileFails answers.pid (s.dirs p) s.mod.proc
  { s with
    files := Function.update s.files t added.dir
    mod := { s.mod with proc := added.proc } }

def delThreadEntry (s : Session) (t p : Nat) : Session :=
  { s with mod := { s.mod with proc := delThreadProcfsEntry (s.files t) (s.dirs p) s.mod.proc } }

def delJobEntry (s : Session) (p freed : Nat) : Session :=
  if freed < (s.sys.jobs p).freed then
    { s with mod := { s.mod with proc := delJobProcfsEntry (s.dirs p) s.mod.zoneDir s.mod.proc } }
  else s

/-- The entries after a step that leaves the tasks and jobs as `sys`. -/
def follow (s : Session) (sys : Sys) (answers : ProcAnswers) : Event → Session
  | .execve t _ _ =>
    let s' := { s with sys, inExecve := Function.update s.inExecve t false }
    if sys.njobs = s.sys.njobs then s'
    else (s'.addJobEntry s.sys.njobs answers).addThreadEntry t s.sys.njobs answers
  | .tryThread t _ ok =>
    match if ok then (s.sys.tasks t).job else none with
    | some p => { s with sys }.addThreadEntry t p answers
    | none => { s with sys }
  | .exit t =>
    match if s.loader.hooks.exit then (s.sys.tasks t).thread else none with
    | some thread =>
      ({ s with sys }.delThreadEntry t thread.job).delJobEntry thread.job
        (s.sys.jobs thread.job).freed
    | none => { s with sys }
  | .forkFail t =>
    match (s.sys.tasks t).life with
    | .forking (some p) => { s with sys }.delJobEntry p (s.sys.jobs p).freed
    | _ => { s with sys }
  | _ => { s with sys }

-- ---------------------------------------------------------------------------
-- Steps
-- ---------------------------------------------------------------------------

def Enabled (s : Session) : Event → Prop
  | .execve t _ _ => s.inExecve t = true
  | .fork t | .child t | .forkFail t | .scheduleTail t | .tryThread t _ _ | .exit t =>
    s.inExecve t = false
  | _ => True

instance (s : Session) (e : Event) : Decidable (s.Enabled e) := by
  unfold Enabled
  split <;> infer_instance

/-- The body of `execve_agent` does not ask for its hook any more. -/
def hooks (s : Session) : Hooks := { s.loader.hooks with execve := true }

def step (s : Session) : SessionEvent → Option Session
  | .execve t =>
    if (s.sys.tasks t).Ready ∧ s.inExecve t = false then
      some { s with inExecve := Function.update s.inExecve t s.loader.hooks.execve }
    else none
  | .task e answers =>
    if s.Enabled e then (Yasched.step s.hooks s.sys e).map fun sys => s.follow sys answers e
    else none
  | .loader e => (s.loader.step e).map fun loader => { s with loader }
  | .exitSched =>
    if s.loader.pc = .removed ∧ s.pc = .exitSched then
      some { s with mod := Yasched.exitSched s.mod, pc := .finiProcfs }
    else none
  | .finiProcfs =>
    if s.pc = .finiProcfs then
      some { s with mod := Yasched.finiProcfs s.mod, pc := .destroyCharDevice }
    else none
  | .destroyCharDevice =>
    if s.pc = .destroyCharDevice then
      some { s with mod := Yasched.destroyCharDevice s.mod, pc := .returned }
    else none

def init (n : Nat) (mod : YaModule) : Session where
  sys := Yasched.init n
  loader := {}
  inExecve _ := false
  mod
  dirs _ := { name := .other "", entry := none, written := false }
  files _ := { name := .other "", entry := none, written := false }
  pc := .exitSched

end Session

-- ---------------------------------------------------------------------------
-- What is to be left
-- ---------------------------------------------------------------------------

def Sys.Vacant (s : Sys) : Prop :=
  (∀ p < s.njobs, (s.jobs p).freed ≠ 0) ∧ ∀ t < s.ntasks, (s.tasks t).thread = none

instance (s : Sys) : Decidable s.Vacant := inferInstanceAs (Decidable (_ ∧ _))

/-- The task waits on `suspended_threads`. -/
def Task.Stranded (k : Task) : Prop :=
  k.pc = .offRq ∧ ∃ thread, k.thread = some thread ∧ thread.suspendWait = true

/-- What `yasched_exit` is to leave; `proc₀` is what there was before
`yasched_init`. -/
structure Session.Clean (proc₀ : Finset Path) (s : Session) : Prop where
  vacant : s.sys.Vacant
  jobList : s.sys.jobList = []
  proc : s.mod.proc ⊆ proc₀
  tasks : ∀ t, ¬(s.sys.tasks t).Stranded

namespace Loader

def ExitGone (l : Loader) : Prop :=
  (l.pc = .remove ∨ l.pc = .wait ∨ l.pc = .schedule ∨ l.pc = .removed) ∧
    l.has .setupEnterExitHook = false

instance (l : Loader) : Decidable l.ExitGone := inferInstanceAs (Decidable (_ ∧ _))

def next (l : Loader) : Option Line := performLines[l.count - 1]?

end Loader

def AllocatesJob (answers : List Bool) : Prop :=
  match kmemCacheAlloc allocTries answers with
  | (false, _) => False
  | (true, answers) => (kmemCacheAlloc allocTries answers).1 = true

instance (answers : List Bool) : Decidable (AllocatesJob answers) := by
  unfold AllocatesJob
  split <;> infer_instance

/-- No object is allocated when the exit hook is taken out, and none is
allocated from then on. -/
def Session.LeavesVacant (s : Session) : SessionEvent → Prop
  | .loader .restore => s.loader.next = some .setupEnterExitHook → s.sys.Vacant
  | .task (.execve t _ answers) _ =>
    s.loader.ExitGone → (s.sys.tasks t).job = none → ¬AllocatesJob answers
  | .task (.tryThread _ _ ok) _ => s.loader.ExitGone → ok = false
  | _ => True

instance (s : Session) (e : SessionEvent) : Decidable (s.LeavesVacant e) := by
  unfold Session.LeavesVacant
  split <;> infer_instance

end Yasched
