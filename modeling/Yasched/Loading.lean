import Yasched.Refcount
import Mathlib.Algebra.Order.BigOperators.Group.Finset

/-!
# Hooks that go in and out while tasks run

`Loader` is `perform_inception` and `remove_inception` line by line: every
line switches its hook by a step of its own, and the agents run only where
their line is in effect at that moment.

The count of a job covers its thread entries as long as no child gets an entry
whose fork ran outside `do_fork_agent`: `switch_do_fork` is the last line to go
in and the first to come out, and `switch_schedule_tail` is in effect on both
sides of it.
-/

namespace Yasched

open Finset

-- ---------------------------------------------------------------------------
-- The two functions of inception.c
-- ---------------------------------------------------------------------------

inductive Line
  | switchSyscalls
  | switchPgfaultHandler
  | switchScheduleCall
  | switchSmpApicTimerInterrupt
  | switchScheduleTail
  | setupEnterScheduleHook
  | setupLeaveScheduleHook
  | setupEnterExitHook
  | switchDoFork
  deriving DecidableEq, Repr

/-- The order of `perform_inception`. Its labels and `remove_inception` go the
other way. -/
def performLines : List Line :=
  [.switchSyscalls, .switchPgfaultHandler, .switchScheduleCall, .switchSmpApicTimerInterrupt,
    .switchScheduleTail, .setupEnterScheduleHook, .setupLeaveScheduleHook, .setupEnterExitHook,
    .switchDoFork]

inductive LoaderPc
  | perform
  | unwind
  | failed
  | started
  | remove
  | wait
  | schedule
  | removed
  deriving DecidableEq, Repr

/-- `count` lines are in effect, the first ones of `performLines`. -/
structure Loader where
  count : Nat := 0
  pc : LoaderPc := .perform
  deriving DecidableEq, Repr

/-- `line` is the next line of `perform_inception` with its result, `undo` the
next label, `restore` the next line of `remove_inception`; `zero` is what its
loop finds `ya_count` to be. -/
inductive LoaderEvent
  | line (ok : Bool)
  | undo
  | unload
  | restore
  | read (zero : Bool)
  | schedule
  deriving DecidableEq, Repr

namespace Loader

def has (l : Loader) (line : Line) : Bool := (performLines.take l.count).contains line

def hooks (l : Loader) : Hooks where
  execve := l.has .switchSyscalls
  fork := l.has .switchDoFork
  scheduleTail := l.has .switchScheduleTail
  enterSchedule := l.has .setupEnterScheduleHook
  leaveSchedule := l.has .setupLeaveScheduleHook
  exit := l.has .setupEnterExitHook

def step (l : Loader) : LoaderEvent → Option Loader
  | .line true =>
    if l.pc = .perform then
      let count := l.count + 1
      some { count, pc := if count = performLines.length then .started else .perform }
    else none
  | .line false => if l.pc = .perform then some { l with pc := .unwind } else none
  | .undo =>
    if l.pc = .unwind then
      some (if l.count = 0 then { l with pc := .failed } else { l with count := l.count - 1 })
    else none
  | .unload => if l.pc = .started then some { l with pc := .remove } else none
  | .restore =>
    if l.pc = .remove then
      some (if l.count = 0 then { l with pc := .wait } else { l with count := l.count - 1 })
    else none
  -- the loop sleeps for two seconds and reads again
  | .read zero =>
    if l.pc = .wait then some (if zero then { l with pc := .schedule } else l) else none
  | .schedule => if l.pc = .schedule then some { l with pc := .removed } else none

/-- What a step of the two functions can do. -/
inductive Step (l : Loader) : LoaderEvent → Loader → Prop
  | line : l.pc = .perform → l.count + 1 ≠ performLines.length →
      Step l (.line true) { l with count := l.count + 1 }
  | lastLine : l.pc = .perform → l.count + 1 = performLines.length →
      Step l (.line true) { count := l.count + 1, pc := .started }
  | failedLine : l.pc = .perform → Step l (.line false) { l with pc := .unwind }
  | undo : l.pc = .unwind → l.count ≠ 0 → Step l .undo { l with count := l.count - 1 }
  | failed : l.pc = .unwind → l.count = 0 → Step l .undo { l with pc := .failed }
  | unload : l.pc = .started → Step l .unload { l with pc := .remove }
  | restore : l.pc = .remove → l.count ≠ 0 → Step l .restore { l with count := l.count - 1 }
  | wait : l.pc = .remove → l.count = 0 → Step l .restore { l with pc := .wait }
  | again : l.pc = .wait → Step l (.read false) l
  | zero : l.pc = .wait → Step l (.read true) { l with pc := .schedule }
  | schedule : l.pc = .schedule → Step l .schedule { l with pc := .removed }

theorem step_cases {l : Loader} (hs : l.step e = some l') : l.Step e l' := by
  cases e with
  | line ok =>
    cases ok <;> simp only [step] at hs <;> split at hs <;> cases hs <;> rename_i hpc
    · exact .failedLine hpc
    · split
      · rename_i hlast
        exact .lastLine hpc hlast
      · rename_i hlast
        simpa [hpc] using Step.line hpc hlast
  | undo =>
    simp only [step] at hs
    split at hs <;> cases hs
    rename_i hpc
    split
    · rename_i hzero
      exact .failed hpc hzero
    · rename_i hzero
      exact .undo hpc hzero
  | restore =>
    simp only [step] at hs
    split at hs <;> cases hs
    rename_i hpc
    split
    · rename_i hzero
      exact .wait hpc hzero
    · rename_i hzero
      exact .restore hpc hzero
  | unload | schedule =>
    simp only [step] at hs
    split at hs <;> cases hs
    rename_i hpc
    constructor
    exact hpc
  | read zero =>
    simp only [step] at hs
    split at hs <;> cases hs
    rename_i hpc
    cases zero
    · exact .again hpc
    · exact .zero hpc

theorem step_out {l : Loader}
    (ho : l.pc = .wait ∨ l.pc = .schedule ∨ l.pc = .removed → l.count = 0)
    (hs : l.step e = some l') : l'.pc = .wait ∨ l'.pc = .schedule ∨ l'.pc = .removed →
      l'.count = 0 := by
  cases step_cases hs with
  | wait _ hzero => exact fun _ => hzero
  | again _ => exact ho
  | zero hpc => exact fun _ => ho (.inl hpc)
  | schedule hpc => exact fun _ => ho (.inr (.inl hpc))
  | line hpc | undo hpc | restore hpc => simp [hpc]
  | _ => simp

end Loader

-- ---------------------------------------------------------------------------
-- The system with a loader
-- ---------------------------------------------------------------------------

/-- `counted` remembers of which tasks the fork went through `get_thread`. -/
structure Loading where
  sys : Sys
  loader : Loader
  counted : Nat → Bool

inductive LoadingEvent
  | task (e : Event)
  | loader (e : LoaderEvent)
  deriving DecidableEq, Repr

def Life.counted : Life → Bool
  | .forking (some _) => true
  | _ => false

def countedAfter (counted : Nat → Bool) (s : Sys) : Event → Nat → Bool
  | .child t => Function.update counted s.ntasks (s.tasks t).life.counted
  | _ => counted

namespace Loading

def step (s : Loading) : LoadingEvent → Option Loading
  | .task e =>
    (Yasched.step s.loader.hooks s.sys e).map fun sys =>
      { s with sys, counted := countedAfter s.counted s.sys e }
  | .loader e => (s.loader.step e).map fun loader => { s with loader }

def init (n : Nat) : Loading := { sys := Yasched.init n, loader := {}, counted := fun _ => false }

/-- A child that goes through `schedule_tail_agent` and finds its job came from
a fork that took `get_thread` for it. -/
def StartsCounted (s : Loading) : LoadingEvent → Prop
  | .task (.scheduleTail t) =>
    s.loader.hooks.scheduleTail = true → (s.sys.tasks t).job ≠ none → s.counted t = true
  | _ => True

instance (s : Loading) (e : LoadingEvent) : Decidable (s.StartsCounted e) := by
  unfold StartsCounted
  split <;> infer_instance

end Loading

def attached (s : Sys) (p : Nat) : Nat :=
  #{t ∈ range s.ntasks | (s.tasks t).thread.map YaThread.job = some p}

/-- Every count covers the entries that are attached to its job. -/
def Covered (s : Sys) : Prop := ∀ p < s.njobs, (attached s p : Int) ≤ (s.jobs p).aliveProc

instance (s : Sys) : Decidable (Covered s) := inferInstanceAs (Decidable (∀ p < s.njobs, _))

/-- A job that the step hands to `ya_del_job` has no entry attached to it. -/
def Loading.FreesDetached (s : Loading) (e : LoadingEvent) : Prop :=
  ∀ s', s.step e = some s' → ∀ p < s'.sys.njobs,
    (s.sys.jobs p).freed < (s'.sys.jobs p).freed → attached s'.sys p = 0

-- ---------------------------------------------------------------------------
-- What a step of a task's life does when only some hooks are in
-- ---------------------------------------------------------------------------

def Event.hooked (h : Hooks) : Event → Bool
  | .execve .. => h.execve
  | .fork _ => h.fork
  | .scheduleTail _ => h.scheduleTail
  | .exit _ => h.exit
  | _ => true

inductive HookedStep (h : Hooks) (s : Sys) : Event → Sys → Prop
  | agent : e.hooked h = true → LifeStep s e s' → HookedStep h s e s'
  | execve : h.execve = false → (s.tasks t).Ready → HookedStep h s (.execve t junk answers) s
  | fork : h.fork = false → (s.tasks t).Ready →
      HookedStep h s (.fork t) (s.setTask t { s.tasks t with life := .forking none })
  | scheduleTail : h.scheduleTail = false → (s.tasks t).life = .born → (s.tasks t).pc = .user →
      HookedStep h s (.scheduleTail t) (s.setTask t { s.tasks t with life := .live })
  | exit : h.exit = false → (s.tasks t).Ready →
      HookedStep h s (.exit t) (s.setTask t { s.tasks t with life := .exited })

theorem hooked_cases (he : e.OfLife) (hs : step h s e = some s') : HookedStep h s e s' := by
  cases hh : e.hooked h with
  | true =>
    refine .agent hh (life_cases he ?_)
    cases e with
    | execve | fork | scheduleTail | exit =>
      simp only [Event.hooked] at hh
      simpa [step, execveAgent, doForkAgent, scheduleTailAgent, enterExitHook, Hooks.all, hh]
        using hs
    | child | forkFail | tryThread => exact hs
    | _ => exact absurd he id
  | false =>
    cases e with
    | execve t junk answers =>
      simp only [step, execveAgent, show h.execve = false from hh] at hs
      split at hs <;> cases hs
      rename_i hr
      exact .execve hh hr
    | fork t =>
      simp only [step, doForkAgent, show h.fork = false from hh] at hs
      split at hs <;> cases hs
      rename_i hr
      exact .fork hh hr
    | scheduleTail t =>
      simp only [step, scheduleTailAgent, show h.scheduleTail = false from hh] at hs
      split at hs <;> cases hs
      rename_i hb
      simpa using HookedStep.scheduleTail hh hb.1 hb.2
    | exit t =>
      simp only [step, enterExitHook, show h.exit = false from hh] at hs
      split at hs <;> cases hs
      rename_i hr
      exact .exit hh hr
    | _ => cases hh

theorem HookedStep.known (hs : HookedStep h s e s') (hk : Known s) : Known s' := by
  cases hs with
  | agent _ hs => exact hs.known hk
  | execve => exact hk
  | @fork t hh hr =>
    exact hk.setTask (hk.lt (by simp [hr.1])) ((hk.task t).going rfl rfl (by simp))
  | @scheduleTail t hh hb _ =>
    exact hk.setTask (hk.lt (by simp [hb])) ((hk.task t).going rfl rfl (by simp))
  | @exit t hh hr =>
    exact hk.setTask (hk.lt (by simp [hr.1])) ((hk.task t).going rfl rfl (by simp))

theorem step_known (hk : Known s) (hs : step h s e = some s') : Known s' := by
  by_cases he : e.OfLife
  · exact (hooked_cases he hs).known hk
  · exact quiet_known he hk hs

-- ---------------------------------------------------------------------------
-- What a count has to cover
-- ---------------------------------------------------------------------------

/-- What a task holds of the count of job `p`: its entry, the reference of its
fork in progress, and before its start the one that was counted for it. -/
def Task.holds (counted : Bool) (k : Task) (p : Nat) : Nat :=
  (if k.thread.map YaThread.job = some p then 1 else 0) +
    (if k.life = .forking (some p) then 1 else 0) +
    (if counted = true ∧ k.life.Starting ∧ k.job = some p then 1 else 0)

def held (c : Nat → Bool) (s : Sys) (p : Nat) : Nat :=
  ∑ t ∈ range s.ntasks, (s.tasks t).holds (c t) p

theorem attached_le_held (c : Nat → Bool) (s : Sys) (p : Nat) : attached s p ≤ held c s p := by
  rw [attached, card_filter]
  refine sum_le_sum fun t _ => ?_
  unfold Task.holds
  omega

/-- The count covers what is held, and a child that is past its lookup of the
job was counted. -/
structure CountCovers (c : Nat → Bool) (s : Sys) : Prop where
  count : ∀ p < s.njobs, (held c s p : Int) ≤ (s.jobs p).aliveProc
  tail : ∀ t tries, (s.tasks t).life = .tail tries → (s.tasks t).job ≠ none → c t = true

theorem CountCovers.move (hc : CountCovers c s) (ht : t < s.ntasks)
    (htasks : s'.tasks = Function.update s.tasks t k) (hnt : s'.ntasks = s.ntasks)
    (hnj : s'.njobs = s.njobs)
    (hk : ∀ p < s.njobs, (k.holds (c t) p : Int) + (s.jobs p).aliveProc ≤
      (s.tasks t).holds (c t) p + (s'.jobs p).aliveProc)
    (htail : ∀ tries, k.life = .tail tries → k.job ≠ none → c t = true) : CountCovers c s' := by
  constructor
  · intro p hp
    have hold := hc.count p (hnj ▸ hp)
    have hmove := hk p (hnj ▸ hp)
    have hsum := Runs.sum_update (w := fun i k => Task.holds (c i) k p) (f := s.tasks) (x := k) ht
    have hheld : held c s' p = ∑ i ∈ range s.ntasks,
        Task.holds (c i) (Function.update s.tasks t k i) p := by
      rw [held, hnt, htasks]
    unfold held at hold
    omega
  · intro i tries hi hj
    rw [htasks] at hi hj
    by_cases hit : i = t
    · subst hit
      rw [Function.update_self] at hi hj
      exact htail tries hi hj
    · rw [Function.update_of_ne hit] at hi hj
      exact hc.tail i tries hi hj

theorem CountCovers.keep (hc : CountCovers c s) (ht : t < s.ntasks)
    (hk : ∀ p < s.njobs, k.holds (c t) p ≤ (s.tasks t).holds (c t) p)
    (htail : ∀ tries, k.life = .tail tries → k.job ≠ none → c t = true) :
    CountCovers c (s.setTask t k) :=
  hc.move ht rfl rfl rfl (fun p hp => by have := hk p hp; simp; omega) htail

theorem Task.holds_going (k : Task) (hs : ¬k.life.Starting) (hf : ∀ q, k.life ≠ .forking (some q)) :
    k.holds c p = if k.thread.map YaThread.job = some p then 1 else 0 := by
  simp [Task.holds, hs, hf p]

theorem CountCovers.rest (hc : CountCovers c s) (hk : Known s) (hl : (s.tasks t).life ≠ .unborn)
    (hthread : k.thread = (s.tasks t).thread) (hs : ¬ k.life.Starting)
    (hf : ∀ q, k.life ≠ .forking (some q)) : CountCovers c (s.setTask t k) := by
  refine hc.keep (hk.lt hl) (fun p _ => ?_) fun tries ht _ => ?_
  · rw [k.holds_going hs hf, hthread, Task.holds]
    omega
  · rw [ht] at hs
    exact absurd trivial hs

theorem SameLife.holds (hs : SameLife k k') : k'.holds c p = k.holds c p := by
  simp [Task.holds, hs.job, hs.life, hs.thread]

theorem Quiet.countCovers (hq : Quiet s s') (hc : CountCovers c s) : CountCovers c s' := by
  constructor
  · intro p hp
    have hheld : held c s' p = held c s p := by
      simp only [held, hq.ntasks, (hq.tasks _).holds]
    rw [hheld, (hq.count p).1]
    exact hc.count p (hq.njobs ▸ hp)
  · intro t tries hl hj
    exact hc.tail t tries ((hq.tasks t).life ▸ hl) ((hq.tasks t).job ▸ hj)

theorem held_fresh (hk : Known s) (hp : s.njobs ≤ p) : held c s p = 0 := by
  refine sum_eq_zero fun t _ => ?_
  have hjob : (s.tasks t).job ≠ some p := fun h =>
    absurd ((hk.task t).job p h) (Nat.not_lt_of_le hp)
  have hthread : (s.tasks t).thread.map YaThread.job ≠ some p := by
    intro h
    obtain ⟨thread, ht, rfl⟩ := Option.map_eq_some_iff.mp h
    exact absurd ((hk.task t).thread thread ht) (Nat.not_lt_of_le hp)
  have hfork : (s.tasks t).life ≠ .forking (some p) := fun h => hjob ((hk.task t).forking p h)
  simp [Task.holds, hjob, hthread, hfork]

theorem newJob_countCovers (hk : Known s) (hc : CountCovers c s) (hr : (s.tasks t).Ready) :
    CountCovers c (yaInitJob s t junk) := by
  have ht : t < s.ntasks := hk.lt (by simp [hr.1])
  have hsum (p) := Runs.sum_update (w := fun i k => Task.holds (c i) k p) (f := s.tasks)
    (x := { s.tasks t with job := some s.njobs, thread := some (initThread s.njobs junk) }) ht
  have hheld (p) : held c (yaInitJob s t junk) p + (s.tasks t).holds (c t) p =
      held c s p + if p = s.njobs then 1 else 0 := by
    have hnew : Task.holds (c t) { s.tasks t with
        job := some s.njobs, thread := some (initThread s.njobs junk) } p =
        if p = s.njobs then 1 else 0 := by
      rw [Task.holds_going _ (by simp [hr.1, Life.Starting]) (by simp [hr.1])]
      simp [initThread, eq_comm]
    rw [← hnew]
    exact hsum p
  constructor
  · intro p hp
    have hp' := hheld p
    by_cases hnew : p = s.njobs
    · subst hnew
      rw [held_fresh hk (Nat.le_refl _), if_pos rfl] at hp'
      have hone : ((yaInitJob s t junk).jobs s.njobs).aliveProc = 1 := by simp [yaInitJob]
      omega
    · have hold := hc.count p (Nat.lt_of_le_of_ne (Nat.le_of_lt_succ hp) hnew)
      rw [if_neg hnew] at hp'
      have hsame : (yaInitJob s t junk).jobs p = s.jobs p := by simp [yaInitJob, hnew]
      rw [hsame]
      omega
  · intro i tries hi hj
    by_cases hit : i = t
    · subst hit
      simp [yaInitJob, hr.1] at hi
    · simp only [yaInitJob, Sys.setTask_tasks, Function.update_of_ne hit] at hi hj
      exact hc.tail i tries hi hj

theorem held_addTask (c : Nat → Bool) (s : Sys) (k : Task) (b : Bool) :
    held (Function.update c s.ntasks b) (s.addTask k) p = held c s p + k.holds b p := by
  simp only [held, Sys.addTask, sum_range_succ, Function.update_self]
  congr 1
  refine sum_congr rfl fun i hi => ?_
  have hne : i ≠ s.ntasks := Nat.ne_of_lt (mem_range.mp hi)
  rw [Function.update_of_ne hne, Function.update_of_ne hne]

/-- What a fork took for its child the child holds until it starts. -/
theorem child_countCovers (hk : Known s) (hc : CountCovers c s)
    (hf : (s.tasks t).life = .forking o) (hthread : k.thread = (s.tasks t).thread)
    (hlive : k.life = .live) :
    CountCovers (Function.update c s.ntasks (s.tasks t).life.counted)
      ((s.setTask t k).addTask { job := (s.tasks t).job, life := .born }) := by
  have ht : t < s.ntasks := hk.lt (by simp [hf])
  have hmoved (p) : held c (s.setTask t k) p +
      Task.holds (s.tasks t).life.counted { job := (s.tasks t).job, life := .born } p ≤
        held c s p := by
    have hsum : held c (s.setTask t k) p + (s.tasks t).holds (c t) p =
        held c s p + k.holds (c t) p :=
      Runs.sum_update (w := fun i k => Task.holds (c i) k p) ht
    have hnew := k.holds_going (c := c t) (p := p) (by simp [hlive, Life.Starting])
      (by simp [hlive])
    have hchild : Task.holds (s.tasks t).life.counted
        { job := (s.tasks t).job, life := .born } p = if o = some p then 1 else 0 := by
      cases o with
      | none => simp [Task.holds, Life.counted, hf]
      | some q => simp [Task.holds, Life.counted, Life.Starting, hf, (hk.task t).forking q hf]
    have hold : (s.tasks t).holds (c t) p =
        (if (s.tasks t).thread.map YaThread.job = some p then 1 else 0) +
          if o = some p then 1 else 0 := by
      simp [Task.holds, Life.Starting, hf]
    rw [hthread] at hnew
    omega
  constructor
  · intro p hp
    have hadd := held_addTask (p := p) c (s.setTask t k)
      { job := (s.tasks t).job, life := .born } (s.tasks t).life.counted
    have hcount := hc.count p hp
    have hle := hmoved p
    rw [Sys.setTask_ntasks] at hadd
    rw [hadd]
    show ((_ : Nat) : Int) ≤ (s.jobs p).aliveProc
    omega
  · intro i tries hi hj
    by_cases hnew : i = s.ntasks
    · subst hnew
      simp [Sys.addTask] at hi
    · simp only [Sys.addTask, Sys.setTask_ntasks, Function.update_of_ne hnew] at hi hj ⊢
      by_cases hit : i = t
      · subst hit
        simp [hlive] at hi
      · simp only [Sys.setTask_tasks, Function.update_of_ne hit] at hi hj
        exact hc.tail i tries hi hj

theorem LifeStep.countCovers (hs : LifeStep s e s') (hk : Known s) (hc : CountCovers c s)
    (hstart : ∀ t, e = .scheduleTail t → (s.tasks t).job ≠ none → c t = true) :
    CountCovers (countedAfter c s e) s' := by
  cases hs with
  | execve => exact hc
  | newJob hr _ => exact newJob_countCovers hk hc hr
  | @fork t p hr hj =>
    refine hc.move (k := { s.tasks t with life := .forking (some p) })
      (hk.lt (t := t) (by simp [hr.1])) rfl rfl rfl (fun q _ => ?_) (by simp)
    by_cases hq : q = p
    · subst hq
      simp [Task.holds, Life.Starting, getThread, hr.1]
      omega
    · simp [Task.holds, Life.Starting, getThread, hr.1, hq, Ne.symm hq]
  | forkPlain hr _ =>
    exact hc.rest hk (by simp [hr.1]) rfl (by simp [Life.Starting]) (by simp)
  | child hf hpc => exact child_countCovers hk hc hf rfl rfl
  | @forkFail t p hf hpc =>
    refine hc.move (k := { s.tasks t with life := .live }) (hk.lt (t := t) (by simp [hf])) (by simp)
      (by simp) (by simp) (fun q _ => ?_) (by simp)
    rw [putThread_jobs]
    by_cases hq : q = p
    · subst hq
      simp [Task.holds, Life.Starting, hf]
    · simp [Task.holds, Life.Starting, hf, hq, Ne.symm hq]
  | forkFailPlain hf _ =>
    exact hc.rest hk (by simp [hf]) rfl (by simp [Life.Starting]) (by simp)
  | @scheduleTail t hb hpc =>
    have hcounted := hstart t rfl
    refine hc.keep (hk.lt (by simp [hb])) (fun q _ => ?_) fun tries _ hj => hcounted hj
    by_cases hj : (s.tasks t).job = none
    · simp [Task.holds, Life.Starting, hj]
    · simp [Task.holds, Life.Starting, hj, hb]
  | @attach t tries p junk hlife hpc hj =>
    have hcounted := hc.tail t tries hlife (by simp [hj])
    refine hc.keep (hk.lt (by simp [hlife])) (fun q _ => ?_) (by simp)
    simp [Task.holds, Life.Starting, hlife, hj, hcounted, initThread]
  | @retry t tries junk hlife hpc =>
    refine hc.keep (hk.lt (by simp [hlife])) (fun q _ => ?_) fun _ _ hj => hc.tail t tries hlife hj
    by_cases hlast : tries + 1 < allocTries <;> simp [Task.holds, Life.Starting, hlife, hlast]
  | @exit t thread hr hth =>
    refine hc.move (k := { s.tasks t with thread := none, life := .exited })
      (hk.lt (t := t) (by simp [hr.1])) (by simp) (by simp) (by simp) (fun q _ => ?_) (by simp)
    rw [putThread_jobs]
    by_cases hq : q = thread.job
    · subst hq
      simp [Task.holds, Life.Starting, hr.1, hth]
    · simp [Task.holds, Life.Starting, hr.1, hth, hq, Ne.symm hq]
  | exitPlain hr _ =>
    exact hc.rest hk (by simp [hr.1]) rfl (by simp [Life.Starting]) (by simp)

theorem HookedStep.countCovers (hs : HookedStep h s e s') (hk : Known s) (hc : CountCovers c s)
    (hstart : ∀ t, e = .scheduleTail t → h.scheduleTail = true → (s.tasks t).job ≠ none →
      c t = true) : CountCovers (countedAfter c s e) s' := by
  cases hs with
  | agent hh hs =>
    refine hs.countCovers hk hc fun t he => hstart t he ?_
    subst he
    exact hh
  | execve => exact hc
  | fork _ hr => exact hc.rest hk (by simp [hr.1]) rfl (by simp [Life.Starting]) (by simp)
  | scheduleTail _ hb _ => exact hc.rest hk (by simp [hb]) rfl (by simp [Life.Starting]) (by simp)
  | exit _ hr => exact hc.rest hk (by simp [hr.1]) rfl (by simp [Life.Starting]) (by simp)

-- ---------------------------------------------------------------------------
-- Whole runs
-- ---------------------------------------------------------------------------

structure Loading.Inv (s : Loading) : Prop where
  known : Known s.sys
  covers : CountCovers s.counted s.sys

theorem Loading.init_inv (n : Nat) : (init n).Inv := by
  refine ⟨init_known n, fun p hp => absurd hp (Nat.not_lt_zero p), ?_⟩
  intro t tries hl
  simp only [init, Yasched.init] at hl
  split at hl <;> simp at hl

theorem Loading.step_inv (hi : Loading.Inv s) (hw : s.StartsCounted e) (hs : s.step e = some s') :
    s'.Inv := by
  cases e with
  | loader e =>
    simp only [Loading.step, Option.map_eq_some_iff] at hs
    obtain ⟨loader, -, rfl⟩ := hs
    exact ⟨hi.known, hi.covers⟩
  | task e =>
    simp only [Loading.step, Option.map_eq_some_iff] at hs
    obtain ⟨sys, hsys, rfl⟩ := hs
    refine ⟨step_known hi.known hsys, ?_⟩
    by_cases he : e.OfLife
    · refine (hooked_cases he hsys).countCovers hi.known hi.covers ?_
      rintro t rfl hhook hjob
      exact hw hhook hjob
    · have hsame : countedAfter s.counted s.sys e = s.counted := by
        cases e with
        | child t => exact absurd trivial he
        | _ => rfl
      show CountCovers (countedAfter s.counted s.sys e) sys
      rw [hsame]
      exact (step_quiet he hsys).countCovers hi.covers

theorem CountCovers.covered (hc : CountCovers c s) : Covered s := by
  intro p hp
  have hle := attached_le_held c s p
  have hcount := hc.count p hp
  omega

theorem putThread_freed (hf : (s.jobs p).freed < ((putThread s q).jobs p).freed) :
    ((putThread s q).jobs p).aliveProc = 0 := by
  rw [putThread_jobs] at hf ⊢
  by_cases hpq : p = q
  · subst hpq
    simp only [Function.update_self] at hf ⊢
    split at hf
    · assumption
    · exact absurd hf (Nat.lt_irrefl _)
  · simp [hpq] at hf

theorem LifeStep.freed (hs : LifeStep s e s') (hf : (s.jobs p).freed < (s'.jobs p).freed) :
    (s'.jobs p).aliveProc = 0 := by
  cases hs with
  | newJob =>
    by_cases hp : p = s.njobs
    · subst hp
      simp [yaInitJob] at hf
    · simp [yaInitJob, hp] at hf
  | @fork t q =>
    by_cases hp : p = q
    · subst hp
      simp [getThread] at hf
    · simp [getThread, hp] at hf
  | forkFail => exact putThread_freed hf
  | exit => exact putThread_freed hf
  | _ => exact absurd hf (Nat.lt_irrefl _)

theorem step_freed (hs : step h s e = some s') (hf : (s.jobs p).freed < (s'.jobs p).freed) :
    (s'.jobs p).aliveProc = 0 := by
  by_cases he : e.OfLife
  · cases hooked_cases he hs with
    | agent _ hs => exact hs.freed hf
    | _ => exact absurd hf (Nat.lt_irrefl _)
  · rw [((step_quiet he hs).count p).2] at hf
    exact absurd hf (Nat.lt_irrefl _)

/-- A count that covers its entries is 0 only when there are none. -/
theorem Loading.freesDetached {s : Loading} (hcov : ∀ s', s.step e = some s' → Covered s'.sys) :
    s.FreesDetached e := by
  intro s' hs p hp hf
  have hle := hcov s' hs p hp
  have hzero : (s'.sys.jobs p).aliveProc = 0 := by
    cases e with
    | loader e =>
      simp only [Loading.step, Option.map_eq_some_iff] at hs
      obtain ⟨loader, -, rfl⟩ := hs
      exact absurd hf (Nat.lt_irrefl _)
    | task e =>
      simp only [Loading.step, Option.map_eq_some_iff] at hs
      obtain ⟨sys, hsys, rfl⟩ := hs
      exact step_freed hsys hf
  omega

/-- While the hooks go in and out, whatever the tasks do and whichever
allocations fail: if every child that gets its entry in `schedule_tail_agent`
was counted in `do_fork_agent`, the counts cover the entries in every state, and
`ya_del_job` gets no job that still has one. -/
theorem alive_covers_attached (n : Nat)
    (hw : Runs.Along Loading.step Loading.StartsCounted (Loading.init n) es) :
    Runs.Always Loading.step (fun s => Covered s.sys) (Loading.init n) es ∧
      Runs.Along Loading.step Loading.FreesDetached (Loading.init n) es := by
  constructor
  · exact Runs.always_of_along (fun _ hi => hi.covers.covered)
      (fun _ _ _ hi hw hs => Loading.step_inv hi hw hs) (Loading.init_inv n) hw
  · exact Runs.along_of_along
      (fun _ _ hi hw => Loading.freesDetached fun _ hs =>
        (Loading.step_inv hi hw hs).covers.covered)
      (fun _ _ _ hi hw hs => Loading.step_inv hi hw hs) (Loading.init_inv n) hw

def loadAll : List LoadingEvent := List.replicate 9 (.loader (.line true))

theorem alive_covers_attached_loaded :
    Runs.Always Loading.step (fun s => Covered s.sys) (Loading.init 1)
      (loadAll ++ [.task (.execve 0 .running [true, true]), .task (.fork 0), .task (.child 0),
        .task (.scheduleTail 1), .task (.tryThread 1 .running true), .task (.exit 0),
        .task (.exit 1), .loader .unload, .loader .restore]) :=
  (alive_covers_attached 1 (by decide)).1

def LoadingEvent.Allocates : LoadingEvent → Prop
  | .task (.execve _ _ answers) => answers = [true, true]
  | .task (.tryThread _ _ ok) => ok = true
  | _ => True

instance (e : LoadingEvent) : Decidable e.Allocates := by
  unfold LoadingEvent.Allocates
  split <;> infer_instance

/-- `restore_do_fork` has run, `restore_schedule_tail` has not: the child of an
uncounted fork is attached, and when its parent exits the job is freed. -/
theorem alive_covers_attached_fails :
    ¬ ∀ n es s, (∀ e ∈ es, LoadingEvent.Allocates e) →
      Runs.run Loading.step (Loading.init n) es = some s →
      Covered s.sys ∧ ∀ p < s.sys.njobs, 0 < (s.sys.jobs p).freed → attached s.sys p = 0 := by
  intro h
  have hrun : (Runs.run Loading.step (Loading.init 1)
      (loadAll ++ [.task (.execve 0 .running [true, true]), .loader .unload, .loader .restore,
        .task (.fork 0), .task (.child 0), .task (.scheduleTail 1),
        .task (.tryThread 1 .running true), .task (.exit 0)])).map
      (fun s => decide (Covered s.sys)) = some false := by
    decide
  obtain ⟨s, hs, hc⟩ := Option.map_eq_some_iff.mp hrun
  exact of_decide_eq_false hc (h _ _ _ (by decide) hs).1

end Yasched
