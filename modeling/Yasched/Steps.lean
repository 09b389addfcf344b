import Yasched.System

/-!
# What a step can do

`LifeStep` lists what the events of a task's life do when every hook is
installed, guards included; `Quiet` says that the other events change no
count, no job membership and no task's life. The invariants of the later
modules are proved from these, not from the definition of `step`.

The first of them are that tasks, entries and jobs refer to each other as they
should. `Known` and `Task.Entered` hold whichever hooks are in, and `Linked` is
what they come to when all are.
-/

namespace Yasched

def Event.OfLife : Event → Prop
  | .execve .. | .fork _ | .child _ | .forkFail _ | .scheduleTail _ | .tryThread ..
  | .exit _ => True
  | _ => False

inductive LifeStep (s : Sys) : Event → Sys → Prop
  | execve : (s.tasks t).Ready → LifeStep s (.execve t junk answers) s
  | newJob : (s.tasks t).Ready → (s.tasks t).job = none →
      LifeStep s (.execve t junk answers) (yaInitJob s t junk)
  | fork : (s.tasks t).Ready → (s.tasks t).job = some p →
      LifeStep s (.fork t) (getThread (s.setTask t { s.tasks t with life := .forking (some p) }) p)
  | forkPlain : (s.tasks t).Ready → (s.tasks t).job = none →
      LifeStep s (.fork t) (s.setTask t { s.tasks t with life := .forking none })
  | child : (s.tasks t).life = .forking o → (s.tasks t).pc = .user →
      LifeStep s (.child t) ((s.setTask t { s.tasks t with life := .live }).addTask
        { job := (s.tasks t).job, life := .born })
  | forkFail : (s.tasks t).life = .forking (some p) → (s.tasks t).pc = .user →
      LifeStep s (.forkFail t) (putThread (s.setTask t { s.tasks t with life := .live }) p)
  | forkFailPlain : (s.tasks t).life = .forking none → (s.tasks t).pc = .user →
      LifeStep s (.forkFail t) (s.setTask t { s.tasks t with life := .live })
  | scheduleTail : (s.tasks t).life = .born → (s.tasks t).pc = .user →
      LifeStep s (.scheduleTail t) (s.setTask t { s.tasks t with
        life := if (s.tasks t).job ≠ none then .tail 0 else .live })
  | attach : (s.tasks t).life = .tail tries → (s.tasks t).pc = .user → (s.tasks t).job = some p →
      LifeStep s (.tryThread t junk true) (s.setTask t { s.tasks t with
        thread := some (initThread p junk), life := .live })
  | retry : (s.tasks t).life = .tail tries → (s.tasks t).pc = .user →
      LifeStep s (.tryThread t junk false) (s.setTask t { s.tasks t with
        life := if tries + 1 < allocTries then .tail (tries + 1) else .live })
  | exit : (s.tasks t).Ready → (s.tasks t).thread = some thread →
      LifeStep s (.exit t)
        (putThread (s.setTask t { s.tasks t with thread := none, life := .exited }) thread.job)
  | exitPlain : (s.tasks t).Ready → (s.tasks t).thread = none →
      LifeStep s (.exit t) (s.setTask t { s.tasks t with life := .exited })

theorem life_cases (he : e.OfLife) (hs : step .all s e = some s') : LifeStep s e s' := by
  cases e with
  | execve t junk answers =>
    simp only [step, execveAgent] at hs
    split at hs <;> cases hs
    rename_i hr
    split
    · rename_i hj
      unfold yaNewJob
      split
      · exact .execve hr
      · split
        · exact .execve hr
        · exact .newJob hr hj.2
    · exact .execve hr
  | fork t =>
    simp only [step, doForkAgent, Hooks.all, if_true] at hs
    split at hs
    · rename_i hr
      split at hs <;> rename_i hj <;> cases hs
      · exact .fork hr hj
      · exact .forkPlain hr hj
    · cases hs
  | child t =>
    simp only [step, forkChild] at hs
    split at hs <;> cases hs
    rename_i hf hpc
    exact .child hf hpc
  | forkFail t =>
    simp only [step, forkFail] at hs
    split at hs <;> cases hs <;> rename_i hf hpc
    · exact .forkFail hf hpc
    · exact .forkFailPlain hf hpc
  | scheduleTail t =>
    simp only [step, scheduleTailAgent] at hs
    split at hs <;> cases hs
    rename_i hb
    simpa [Hooks.all] using LifeStep.scheduleTail hb.1 hb.2
  | tryThread t junk ok =>
    simp only [step, tryNewThread] at hs
    split at hs <;> cases hs
    rename_i hlife hjob hpc
    cases ok
    · exact .retry hlife hpc
    · exact .attach hlife hpc hjob
  | exit t =>
    simp only [step, enterExitHook, Hooks.all, if_true] at hs
    split at hs
    · rename_i hr
      split at hs <;> rename_i hth <;> cases hs
      · exact .exit hr hth
      · exact .exitPlain hr hth
    · cases hs
  | _ => exact absurd he id

/-- A task that changes neither its job, nor its life, nor its entry's job. -/
structure SameLife (k k' : Task) : Prop where
  job : k'.job = k.job
  life : k'.life = k.life
  thread : k'.thread.map YaThread.job = k.thread.map YaThread.job

theorem SameLife.refl (k : Task) : SameLife k k := ⟨rfl, rfl, rfl⟩

theorem wake_sameLife (k : Task) : SameLife k (k.wake back) := by
  unfold Task.wake
  split <;> exact ⟨rfl, rfl, rfl⟩

/-- What a pass over the queue of job `p` can do to a task. An entry that stays
linked is one of a `TASK_RUNNING` task. -/
inductive WakeQueueStep (back : Pc) (p : Nat) (k : Task) : Task → Prop
  | unlinked : k.thread = some thread → thread.job = p → thread.suspendWait = true →
      WakeQueueStep back p k
        { k.wake back with thread := some { thread with suspendWait := false } }
  | kept : (∀ thread, k.thread = some thread → thread.job = p → thread.suspendWait = true →
      k.state = .running) → WakeQueueStep back p k k

theorem wakeQueue_cases (k : Task) : WakeQueueStep back p k (k.wakeQueue back p keep) := by
  unfold Task.wakeQueue
  split
  · rename_i thread ht
    split
    · rename_i hlinked
      exact .unlinked ht hlinked.1 hlinked.2.1
    · rename_i hno
      refine .kept fun other ho hp hq => ?_
      cases ht.symm.trans ho
      by_contra hst
      exact hno ⟨hp, hq, fun h => hst h.2⟩
  · rename_i ht
    exact .kept fun thread ho => by simp [ht] at ho

theorem WakeQueueStep.sameLife (hs : WakeQueueStep back p k k') : SameLife k k' := by
  cases hs with
  | unlinked ht _ _ =>
    have hw : SameLife k (k.wake back) := wake_sameLife k
    exact ⟨hw.job, hw.life, by simp [ht]⟩
  | kept _ => exact .refl k

theorem hook_sameLife (hk : Task.hook jobState h k = some k') : SameLife k k' := by
  cases hook_cases hk with
  | goToHeaven _ ht =>
    unfold goToHeaven
    split <;> exact ⟨rfl, rfl, by simp [ht]⟩
  | enterPlain | stayInBed | getUp | restore | schedule | leavePlain | leave | leaveRestore =>
    exact ⟨rfl, rfl, rfl⟩
  | enterDead _ ht | save _ ht | goToBed _ ht | finishWait _ ht | leaveFinishWait _ ht =>
    exact ⟨rfl, rfl, by simp [goToBed, finishWait, ht]⟩

structure Quiet (s s' : Sys) : Prop where
  ntasks : s'.ntasks = s.ntasks
  njobs : s'.njobs = s.njobs
  tasks : ∀ t, SameLife (s.tasks t) (s'.tasks t)
  count : ∀ p, (s'.jobs p).aliveProc = (s.jobs p).aliveProc ∧ (s'.jobs p).freed = (s.jobs p).freed

theorem quiet_refl (s : Sys) : Quiet s s := ⟨rfl, rfl, fun _ => .refl _, fun _ => ⟨rfl, rfl⟩⟩

theorem quiet_setTask (hk : SameLife (s.tasks t) k) : Quiet s (s.setTask t k) := by
  refine ⟨rfl, rfl, fun i => ?_, fun p => ⟨rfl, rfl⟩⟩
  by_cases hi : i = t
  · subst hi; simpa using hk
  · simpa [hi] using SameLife.refl (s.tasks i)

theorem quiet_writeState : Quiet s (writeState op s p) := by
  refine ⟨rfl, rfl, fun _ => .refl _, fun q => ?_⟩
  by_cases hq : q = p
  · subst hq; simp [writeState]
  · simp [writeState, hq]

theorem quiet_wakeUp : Quiet s (wakeUp h keep s) := by
  unfold wakeUp
  split
  · exact quiet_refl s
  · exact ⟨rfl, rfl, fun t => (wakeQueue_cases _).sameLife, fun p => ⟨rfl, rfl⟩⟩

theorem step_quiet (he : ¬ e.OfLife) (hs : step h s e = some s') : Quiet s s' := by
  cases e with
  | setState t state =>
    simp only [step, setCurrentState] at hs
    split at hs <;> cases hs
    exact quiet_setTask ⟨rfl, rfl, rfl⟩
  | call t =>
    simp only [step, callSchedule] at hs
    split at hs <;> cases hs
    exact quiet_setTask ⟨rfl, rfl, rfl⟩
  | hook t =>
    simp only [step, Option.map_eq_some_iff] at hs
    obtain ⟨k, hk, rfl⟩ := hs
    exact quiet_setTask (hook_sameLife hk)
  | wake t =>
    cases hs
    exact quiet_setTask (wake_sameLife _)
  | control op zid jid =>
    simp only [step, control] at hs
    split at hs
    · cases hs
    · cases hs; exact quiet_refl s
    · split at hs <;> cases hs
      · exact quiet_refl s
      · exact quiet_writeState
  | wakeUp keep =>
    simp only [step, Option.map_eq_some_iff] at hs
    obtain ⟨_, -, rfl⟩ := hs
    exact quiet_wakeUp
  | _ => exact absurd trivial he

-- ---------------------------------------------------------------------------
-- Tasks, entries and jobs refer to each other as they should
-- ---------------------------------------------------------------------------

/-- A child that has not come through `schedule_tail_agent` yet. -/
def Life.Starting : Life → Prop
  | .born | .tail _ => True
  | _ => False

instance (life : Life) : Decidable life.Starting := by
  unfold Life.Starting
  split <;> infer_instance

@[simp] theorem putThread_tasks : (putThread s p).tasks = s.tasks := by
  unfold putThread; dsimp only; split <;> rfl
@[simp] theorem putThread_ntasks : (putThread s p).ntasks = s.ntasks := by
  unfold putThread; dsimp only; split <;> rfl
@[simp] theorem putThread_njobs : (putThread s p).njobs = s.njobs := by
  unfold putThread; dsimp only; split <;> rfl

/-- What holds of a task whichever hooks are in: its job, its entry's job and
its fork's job exist. -/
structure Task.Known (njobs : Nat) (k : Task) : Prop where
  job : ∀ p, k.job = some p → p < njobs
  thread : ∀ thread, k.thread = some thread → thread.job < njobs
  forking : ∀ p, k.life = .forking (some p) → k.job = some p

structure Known (s : Sys) : Prop where
  unborn : ∀ t, s.ntasks ≤ t → s.tasks t = {}
  task : ∀ t, (s.tasks t).Known s.njobs

theorem Known.lt (hk : Known s) (hl : (s.tasks t).life ≠ .unborn) : t < s.ntasks := by
  rcases Nat.lt_or_ge t s.ntasks with ht | ht
  · exact ht
  · exact absurd (by rw [hk.unborn t ht]) hl

theorem Task.Known.mono (hk : Task.Known n k) (hn : n ≤ m) : Task.Known m k :=
  ⟨fun p hp => Nat.lt_of_lt_of_le (hk.job p hp) hn,
    fun thread ht => Nat.lt_of_lt_of_le (hk.thread thread ht) hn, hk.forking⟩

/-- The task keeps its job and its entry, and takes up no fork. -/
theorem Task.Known.going (hk : Task.Known n k) (hj : k'.job = k.job) (ht : k'.thread = k.thread)
    (hf : ∀ p, k'.life ≠ .forking (some p)) : Task.Known n k' :=
  ⟨hj ▸ hk.job, ht ▸ hk.thread, fun p hp => absurd hp (hf p)⟩

theorem SameLife.known (hs : SameLife k k') (hk : Task.Known n k) : Task.Known n k' := by
  refine ⟨hs.job ▸ hk.job, ?_, hs.job ▸ hs.life ▸ hk.forking⟩
  intro thread ht
  have hmap := hs.thread
  rw [ht, Option.map_some] at hmap
  obtain ⟨old, ho, hjob⟩ := Option.map_eq_some_iff.mp hmap.symm
  exact hjob ▸ hk.thread old ho

theorem Known.setTask (hs : Known s) (ht : t < s.ntasks) (hk : k.Known s.njobs) :
    Known (s.setTask t k) := by
  constructor
  · intro i (hi : s.ntasks ≤ i)
    have hne : i ≠ t := by omega
    simpa [hne] using hs.unborn i hi
  · intro i
    by_cases hi : i = t
    · subst hi; simpa using hk
    · simpa [hi] using hs.task i

theorem Known.congr (hs : Known s) (ht : s'.tasks = s.tasks) (hnt : s'.ntasks = s.ntasks)
    (hnj : s'.njobs = s.njobs) : Known s' :=
  ⟨ht ▸ hnt ▸ hs.unborn, ht ▸ hnj ▸ hs.task⟩

theorem Known.addTask {k : Task} (hs : Known s) (hk : k.Known s.njobs) : Known (s.addTask k) := by
  constructor
  · intro i (hi : s.ntasks + 1 ≤ i)
    have hne : i ≠ s.ntasks := by omega
    simpa [Sys.addTask, hne] using hs.unborn i (by omega)
  · intro i
    by_cases hi : i = s.ntasks
    · subst hi; simpa [Sys.addTask] using hk
    · simpa [Sys.addTask, hi] using hs.task i

theorem LifeStep.known (hs : LifeStep s e s') (hk : Known s) : Known s' := by
  cases hs with
  | execve => exact hk
  | @newJob t _ junk hr hj =>
    have ht : t < s.ntasks := hk.lt (by simp [hr.1])
    constructor
    · intro i (hi : s.ntasks ≤ i)
      have hne : i ≠ t := by omega
      simpa [yaInitJob, hne] using hk.unborn i hi
    · intro i
      by_cases hi : i = t
      · subst hi
        refine ⟨?_, ?_, ?_⟩ <;> simp [yaInitJob, initThread, hr.1]
      · simpa [yaInitJob, hi] using (hk.task i).mono (Nat.le_succ _)
  | @fork t p hr hj =>
    have ht : t < s.ntasks := hk.lt (by simp [hr.1])
    have hnew : Known (s.setTask t { s.tasks t with life := .forking (some p) }) :=
      hk.setTask ht ⟨(hk.task t).job, (hk.task t).thread, by rintro q ⟨⟩; exact hj⟩
    exact hnew.congr rfl rfl rfl
  | @forkPlain t hr hj =>
    exact hk.setTask (hk.lt (by simp [hr.1])) ((hk.task t).going rfl rfl (by simp))
  | @child t o hf hpc =>
    have hlive : Known (s.setTask t { s.tasks t with life := .live }) :=
      hk.setTask (hk.lt (by simp [hf])) ((hk.task t).going rfl rfl (by simp))
    exact hlive.addTask ⟨(hk.task t).job, nofun, nofun⟩
  | @forkFail t p hf hpc =>
    have hlive : Known (s.setTask t { s.tasks t with life := .live }) :=
      hk.setTask (hk.lt (by simp [hf])) ((hk.task t).going rfl rfl (by simp))
    exact hlive.congr (by simp) (by simp) (by simp)
  | @forkFailPlain t hf hpc =>
    exact hk.setTask (hk.lt (by simp [hf])) ((hk.task t).going rfl rfl (by simp))
  | @scheduleTail t hb hpc =>
    refine hk.setTask (hk.lt (by simp [hb])) ((hk.task t).going rfl rfl fun p => ?_)
    dsimp only
    split <;> simp
  | @attach t tries p junk hlife hpc hj =>
    refine hk.setTask (hk.lt (by simp [hlife])) ⟨(hk.task t).job, ?_, by simp⟩
    rintro thread ⟨⟩
    exact (hk.task t).job p hj
  | @retry t tries junk hlife hpc =>
    refine hk.setTask (hk.lt (by simp [hlife])) ((hk.task t).going rfl rfl fun p => ?_)
    dsimp only
    split <;> simp
  | @exit t thread hr hth =>
    have hgone : Known (s.setTask t { s.tasks t with thread := none, life := .exited }) :=
      hk.setTask (hk.lt (by simp [hr.1])) ⟨(hk.task t).job, by simp, by simp⟩
    exact hgone.congr (by simp) (by simp) (by simp)
  | @exitPlain t hr hth =>
    exact hk.setTask (hk.lt (by simp [hr.1])) ((hk.task t).going rfl rfl (by simp))

/-- An entry is of the job of its task, and a task has none before its start. -/
structure Task.Entered (k : Task) : Prop where
  job : ∀ thread, k.thread = some thread → k.job = some thread.job
  starting : k.life.Starting → k.thread = none

theorem SameLife.entered (hs : SameLife k k') (hk : k.Entered) : k'.Entered := by
  constructor
  · intro thread ht
    have hmap := hs.thread
    rw [ht, Option.map_some] at hmap
    obtain ⟨old, hold, hjob⟩ := Option.map_eq_some_iff.mp hmap.symm
    rw [hs.job, hk.job old hold, hjob]
  · intro hst
    have hmap := hs.thread
    rw [hk.starting (hs.life ▸ hst)] at hmap
    simpa using hmap

theorem Task.Entered.going {k' : Task} (hk : Task.Entered k) (hj : k'.job = k.job)
    (ht : k'.thread = k.thread)
    (hs : k'.life.Starting → k.life.Starting) : k'.Entered :=
  ⟨hj ▸ ht ▸ hk.job, fun h => ht ▸ hk.starting (hs h)⟩

theorem entered_update {tasks : Nat → Task} (h : ∀ t, (tasks t).Entered) (hk : k.Entered) :
    ∀ i, (Function.update tasks t k i).Entered := by
  intro i
  rcases eq_or_ne i t with rfl | hne
  · rwa [Function.update_self]
  · rw [Function.update_of_ne hne]
    exact h i

theorem LifeStep.entered (hs : LifeStep s e s') (hk : ∀ t, (s.tasks t).Entered) :
    ∀ t, (s'.tasks t).Entered := by
  cases hs with
  | execve => exact hk
  | newJob hr => exact entered_update hk ⟨by simp [initThread], by simp [hr.1, Life.Starting]⟩
  | @fork t | @forkPlain t | @forkFailPlain t | @exitPlain t =>
    exact entered_update hk ((hk t).going rfl rfl (by simp [Life.Starting]))
  | @child t =>
    refine entered_update (entered_update hk ((hk t).going rfl rfl (by simp [Life.Starting]))) ?_
    exact ⟨nofun, fun _ => rfl⟩
  | @forkFail t =>
    rw [putThread_tasks]
    exact entered_update hk ((hk t).going rfl rfl (by simp [Life.Starting]))
  | @scheduleTail t hb =>
    exact entered_update hk ((hk t).going rfl rfl (by simp [hb, Life.Starting]))
  | @attach t tries p junk hl hpc hj =>
    exact entered_update hk ⟨by simp [initThread, hj], by simp [Life.Starting]⟩
  | @retry t tries junk hl =>
    exact entered_update hk ((hk t).going rfl rfl (by simp [hl, Life.Starting]))
  | exit =>
    rw [putThread_tasks]
    exact entered_update hk ⟨nofun, fun _ => rfl⟩

/-- The job of a task exists, and its entry and its fork are of that job. -/
structure Task.Linked (njobs : Nat) (k : Task) : Prop where
  job : ∀ p, k.job = some p → p < njobs
  thread : ∀ thread, k.thread = some thread → k.job = some thread.job
  forking : ∀ o, k.life = .forking o → o = k.job
  starting : k.life.Starting → k.thread = none

structure Linked (s : Sys) : Prop where
  unborn : ∀ t, s.ntasks ≤ t → s.tasks t = {}
  task : ∀ t, (s.tasks t).Linked s.njobs

/-- With all hooks in, a fork takes its reference from the job of its task. -/
theorem LifeStep.forks (hs : LifeStep s e s')
    (hf : ∀ t o, (s.tasks t).life = .forking o → o = (s.tasks t).job) :
    ∀ t o, (s'.tasks t).life = .forking o → o = (s'.tasks t).job := by
  have hset {tasks : Nat → Task} (hold : ∀ t o, (tasks t).life = .forking o → o = (tasks t).job)
      (t : Nat) {k : Task} (hk : ∀ o, k.life = .forking o → o = k.job) :
      ∀ i o, (Function.update tasks t k i).life = .forking o →
        o = (Function.update tasks t k i).job := by
    intro i o
    rcases eq_or_ne i t with rfl | hne
    · simpa using hk o
    · simpa [hne] using hold i o
  cases hs with
  | execve => exact hf
  | newJob hr => exact hset hf _ (by simp [hr.1])
  | fork _ hj | forkPlain _ hj => exact hset hf _ (by simp [hj])
  | child => exact hset (hset hf _ (by simp)) _ (by simp)
  | forkFail | exit =>
    rw [putThread_tasks]
    exact hset hf _ (by simp)
  | scheduleTail | retry =>
    refine hset hf _ fun o ho => ?_
    dsimp only at ho
    split at ho <;> cases ho
  | forkFailPlain | attach | exitPlain => exact hset hf _ (by simp)

theorem linked_iff : Linked s ↔ Known s ∧ (∀ t, (s.tasks t).Entered) ∧
    ∀ t o, (s.tasks t).life = .forking o → o = (s.tasks t).job := by
  constructor
  · intro hl
    have hthread (t : Nat) (thread : YaThread) (ht : (s.tasks t).thread = some thread) :
        thread.job < s.njobs :=
      (hl.task t).job _ ((hl.task t).thread thread ht)
    refine ⟨⟨hl.unborn, fun t => ⟨(hl.task t).job, hthread t, fun p hp => ?_⟩⟩,
      fun t => ⟨(hl.task t).thread, (hl.task t).starting⟩, fun t => (hl.task t).forking⟩
    exact ((hl.task t).forking _ hp).symm
  · rintro ⟨hk, he, hf⟩
    exact ⟨hk.unborn, fun t => ⟨(hk.task t).job, (he t).job, hf t, (he t).starting⟩⟩

theorem LifeStep.linked (hs : LifeStep s e s') (hl : Linked s) : Linked s' := by
  obtain ⟨hk, he, hf⟩ := linked_iff.mp hl
  exact linked_iff.mpr ⟨hs.known hk, hs.entered he, hs.forks hf⟩

theorem Linked.lt (hl : Linked s) (hk : (s.tasks t).life ≠ .unborn) : t < s.ntasks :=
  (linked_iff.mp hl).1.lt hk

theorem unborn_stays (hu : ∀ t, s.ntasks ≤ t → s.tasks t = {}) (he : ¬ e.OfLife)
    (hs : step h s e = some s') (ht : s.ntasks ≤ t) : s'.tasks t = {} := by
  have hk := hu t ht
  cases e with
  | setState i state =>
    simp only [step, setCurrentState] at hs
    split at hs <;> cases hs
    rename_i hi
    have hne : t ≠ i := by rintro rfl; simp [hk] at hi
    simp [hne, hk]
  | call i =>
    simp only [step, callSchedule] at hs
    split at hs <;> cases hs
    rename_i hi
    have hne : t ≠ i := by rintro rfl; simp [hk] at hi
    simp [hne, hk]
  | hook i =>
    simp only [step, Option.map_eq_some_iff] at hs
    obtain ⟨k, hi, rfl⟩ := hs
    have hne : t ≠ i := by rintro rfl; simp [hk, Task.hook] at hi
    simp [hne, hk]
  | wake i =>
    cases hs
    by_cases hi : t = i
    · subst hi; simp [hk, Task.wake]
    · simp [hi, hk]
  | control op zid jid =>
    simp only [step, control] at hs
    split at hs
    · cases hs
    · cases hs; exact hk
    · split at hs <;> cases hs <;> exact hk
  | wakeUp keep =>
    simp only [step, Option.map_eq_some_iff] at hs
    obtain ⟨p, hp, rfl⟩ := hs
    simp [wakeUp, hp, hk, Task.wakeQueue]
  | _ => exact absurd trivial he

theorem quiet_known (he : ¬ e.OfLife) (hk : Known s) (hs : step h s e = some s') : Known s' := by
  have hq := step_quiet he hs
  refine ⟨fun t ht => ?_, fun t => hq.njobs ▸ (hq.tasks t).known (hk.task t)⟩
  exact unborn_stays hk.unborn he hs (hq.ntasks ▸ ht)

theorem step_linked (hl : Linked s) (hs : step .all s e = some s') : Linked s' := by
  by_cases he : e.OfLife
  · exact (life_cases he hs).linked hl
  · obtain ⟨hk, hentered, hf⟩ := linked_iff.mp hl
    have hq := step_quiet he hs
    refine linked_iff.mpr ⟨quiet_known he hk hs, fun t => (hq.tasks t).entered (hentered t),
      fun t o ho => ?_⟩
    rw [(hq.tasks t).job]
    exact hf t o ((hq.tasks t).life ▸ ho)

theorem init_known (n : Nat) : Known (init n) := by
  constructor
  · intro t (ht : n ≤ t)
    simp [init, Nat.not_lt_of_le ht]
  · intro t
    by_cases ht : t < n <;> constructor <;> simp [init, ht]

theorem init_entered (n t : Nat) : ((init n).tasks t).Entered := by
  by_cases ht : t < n <;> constructor <;> simp [init, ht]

theorem init_linked (n : Nat) : Linked (init n) := by
  refine linked_iff.mpr ⟨init_known n, init_entered n, fun t o ho => ?_⟩
  simp only [init] at ho
  split at ho <;> cases ho

end Yasched
