import Yasched.Suspend

/-!
# The way back from `schedule()`

The hooks do not wait. What a task does in them, and in `__schedule` between
them, are ten steps at most, whatever comes in between (`trips_end`). Only the
kernel keeps a task from its next step, by taking it off the run queue; and a
task that was running when it called `schedule()` it takes off for a suspended
job alone, so that one comes back once its job has been resumed
(`resumed_returns`).
-/

namespace Yasched

-- ---------------------------------------------------------------------------
-- How far it is
-- ---------------------------------------------------------------------------

/-- How many steps of its own a task takes at most until it is back. One that
is off the run queue goes on in `leave_schedule_hook`. -/
def Pc.stepsLeft : Pc → Nat
  | .user => 0
  | .enter => 10
  | .goToBed => 9
  | .readJob => 8
  | .finishWait _ => 7
  | .restore _ => 6
  | .goToHeaven => 5
  | .schedule => 4
  | .offRq | .leave => 3
  | .leaveFinishWait => 2
  | .leaveRestore => 1

theorem Pc.stepsLeft_le (pc : Pc) : pc.stepsLeft ≤ 10 := by
  cases pc <;> simp [Pc.stepsLeft]

theorem HookStep.stepsLeft (hs : HookStep jobState .all k k') :
    k'.pc.stepsLeft < k.pc.stepsLeft := by
  cases hs with
  | @restore killed _ hpc _ => cases killed <;> simp [hpc, Pc.stepsLeft]
  | schedule hpc | leave hpc _ =>
    dsimp only
    split <;> simp [hpc, Pc.stepsLeft]
  | enterPlain hpc | enterDead hpc | save hpc | goToBed hpc | stayInBed hpc | getUp hpc
  | finishWait hpc | goToHeaven hpc | leavePlain hpc | leaveFinishWait hpc | leaveRestore hpc =>
    simp [hpc, Pc.stepsLeft]

theorem wake_stepsLeft (k : Task) : (k.wake .leave).pc.stepsLeft = k.pc.stepsLeft := by
  unfold Task.wake
  split
  · rfl
  · by_cases hpc : k.pc = .offRq
    · simp [hpc, Pc.stepsLeft]
    · simp [hpc]

theorem WakeQueueStep.stepsLeft (hs : WakeQueueStep .leave p k k') :
    k'.pc.stepsLeft = k.pc.stepsLeft := by
  cases hs with
  | unlinked => exact wake_stepsLeft k
  | kept => rfl

theorem LifeOf.pc_user (hl : LifeOf k k') (hpc : k.pc = .user) : k'.pc = .user := by
  cases hl with
  | live | attach | exit => exact hpc
  | born => rfl

theorem TaskStep.cost (hs : TaskStep s t e k) :
    (if e = .hook t then 1 else 0) + k.pc.stepsLeft ≤
      (s.tasks t).pc.stepsLeft + if e = .call t then 10 else 0 := by
  cases hs with
  | same htarget _ =>
    have hhook : e ≠ .hook t := by
      rintro rfl
      exact htarget rfl
    simp [hhook]
  | life hlife _ hpc hl =>
    have hhook : e ≠ .hook t := by
      rintro rfl
      exact hlife
    simp [hhook, hl.pc_user hpc, Pc.stepsLeft]
  | setState => simp
  | call hpc => simp [hpc, Pc.stepsLeft]
  | hook hs =>
    have hless := hs.stepsLeft
    simp only [if_true]
    omega
  | wake => simp [wake_stepsLeft]
  | wakeQueue => simp [(wakeQueue_cases (s.tasks t)).stepsLeft]

-- ---------------------------------------------------------------------------
-- No step that finds nothing to work on
-- ---------------------------------------------------------------------------

def Pc.Bare : Pc → Prop
  | .user | .enter | .schedule | .offRq | .leave => True
  | _ => False

def Task.Manned (k : Task) : Prop := k.thread = none → k.pc.Bare

theorem HookStep.manned (hs : HookStep jobState .all k k') : k'.Manned := by
  intro hnone
  cases hs with
  | enterPlain | enterDead | stayInBed | goToHeaven | leavePlain | leaveRestore => trivial
  | save | goToBed | finishWait | leaveFinishWait => cases hnone
  | getUp _ ht | restore _ ht | leave _ ht => cases ht.symm.trans hnone
  | schedule =>
    dsimp only
    split <;> trivial

theorem wake_manned (hk : Task.Manned k) : (k.wake .leave).Manned := by
  intro hnone
  rw [wake_thread] at hnone
  have hbare := hk hnone
  unfold Task.wake
  split
  · exact hbare
  · by_cases hpc : k.pc = .offRq
    · simp [hpc, Pc.Bare]
    · simpa [hpc] using hbare

theorem WakeQueueStep.manned (hs : WakeQueueStep .leave p k k') (hk : k.Manned) : k'.Manned := by
  cases hs with
  | unlinked => nofun
  | kept => exact hk

theorem TaskStep.manned (hs : TaskStep s t e k) (hk : (s.tasks t).Manned) : k.Manned := by
  cases hs with
  | same => exact hk
  | life _ _ hpc hl =>
    intro _
    rw [hl.pc_user hpc]
    trivial
  | setState => exact hk
  | call => exact fun _ => trivial
  | hook hs => exact hs.manned
  | wake => exact wake_manned hk
  | wakeQueue => exact (wakeQueue_cases _).manned hk

theorem Task.Manned.enabled (hk : Task.Manned k) (hu : k.pc ≠ .user) (ho : k.pc ≠ .offRq) :
    ∃ k', k.hook jobState h = some k' := by
  obtain ⟨job, thread, state, pc, life, sigkill⟩ := k
  cases pc <;> cases thread <;> simp only [Task.hook]
  case enter.some => split <;> exact ⟨_, rfl⟩
  case readJob.some => split <;> exact ⟨_, rfl⟩
  all_goals first | exact ⟨_, rfl⟩ | simp_all [Task.Manned, Pc.Bare]

theorem manned_of_run (hr : Runs.run (step .all) (init n) es = some s) (t : Nat) :
    (s.tasks t).Manned := by
  have hinit : Linked (init n) ∧ ∀ t, ((init n).tasks t).Manned := by
    refine ⟨init_linked n, fun t _ => ?_⟩
    by_cases ht : t < n <;> simp [init, ht, Pc.Bare]
  have hboth := Runs.invariant (I := fun s => Linked s ∧ ∀ t, (s.tasks t).Manned)
    (fun s e s' h hs => ⟨step_linked h.1 hs, fun t => (step_task h.1 hs t).manned (h.2 t)⟩)
    hinit hr
  exact hboth.2 t

theorem enabled_of_run (hr : Runs.run (step .all) (init n) es = some s)
    (hu : (s.tasks t).pc ≠ .user) (ho : (s.tasks t).pc ≠ .offRq) :
    ∃ s', step .all s (.hook t) = some s' := by
  have hnext : ∃ k, (s.tasks t).hook s.jobState .all = some k :=
    (manned_of_run hr t).enabled hu ho
  obtain ⟨k, hk⟩ := hnext
  exact ⟨s.setTask t k, by simp [step, hk]⟩

theorem steps_of_run (hl : Linked s) (hr : Runs.run (step .all) s es = some s') (t : Nat) :
    es.count (.hook t) + (s'.tasks t).pc.stepsLeft ≤
      (s.tasks t).pc.stepsLeft + 10 * es.count (.call t) := by
  have hcost : (es.map fun e => if e = .hook t then 1 else 0).sum + (s'.tasks t).pc.stepsLeft ≤
      (s.tasks t).pc.stepsLeft + (es.map fun e => if e = .call t then 10 else 0).sum :=
    Runs.amortized (fun s => (s.tasks t).pc.stepsLeft) (fun _ _ _ hl hs => step_linked hl hs)
      (fun _ _ _ hl hs => (step_task hl hs t).cost) hl hr
  rwa [Runs.sum_count, Runs.sum_count, Nat.one_mul] at hcost

/-- A trip is ten steps of the task in this model at most, and has a next one
unless the kernel has taken the task off the run queue. -/
theorem trips_end (hr : Runs.run (step .all) (init n) es = some s) (t : Nat) :
    es.count (.hook t) + (s.tasks t).pc.stepsLeft ≤ 10 * es.count (.call t) ∧
      ((s.tasks t).pc = .user ∨ (s.tasks t).pc = .offRq ∨
        ∃ s', step .all s (.hook t) = some s') := by
  constructor
  · have hstart : ((init n).tasks t).pc = .user := by
      by_cases ht : t < n <;> simp [init, ht]
    simpa [hstart, Pc.stepsLeft] using steps_of_run (init_linked n) hr t
  · by_cases hu : (s.tasks t).pc = .user
    · exact .inl hu
    · by_cases ho : (s.tasks t).pc = .offRq
      · exact .inr (.inl ho)
      · exact .inr (.inr (enabled_of_run hr hu ho))

theorem trips_end_toBed : ∃ s, Runs.run (step .all) (init 1) toBed = some s ∧
    toBed.count (.hook 0) + (s.tasks 0).pc.stepsLeft ≤ 10 * toBed.count (.call 0) :=
  ⟨_, rfl, (trips_end (show Runs.run _ (init 1) toBed = _ from rfl) 0).1⟩

-- ---------------------------------------------------------------------------
-- A job that is not suspended holds nobody
-- ---------------------------------------------------------------------------

/-- A thread that has been taken off the queue is running again, or in the
state that it had before. -/
def Task.Settled (k : Task) : Prop :=
  ∀ thread, k.thread = some thread → thread.suspendWait = false →
    k.pc = .readJob ∨ k.pc = .goToHeaven ∨ k.pc = .schedule ∨ k.pc = .offRq →
      k.state = .running ∨ k.state = thread.taskState

theorem HookStep.settled (hs : HookStep jobState .all k k') (hc : k.Coherent)
    (hk : k.Settled) : k'.Settled := by
  intro thread ht hq hpc
  cases hs with
  | enterPlain _ hnone => exact absurd (ht.symm.trans hnone) (Option.some_ne_none thread)
  | enterDead _ hth hd => exact absurd hd (hc.alive hth).2
  | goToBed => cases ht; cases hq
  | save | finishWait | leavePlain | leaveFinishWait | leaveRestore | getUp =>
    exact absurd hpc (by simp)
  | leave =>
    dsimp only at hpc
    split at hpc <;> simp at hpc
  | stayInBed h => exact hk thread ht hq (.inl h)
  | schedule h => exact hk thread ht hq (.inr (.inr (.inl h)))
  | restore _ hth =>
    cases hth.symm.trans ht
    exact .inr rfl
  | @goToHeaven old h hth =>
    unfold Yasched.goToHeaven at ht ⊢
    split at ht
    · rename_i hd
      rw [if_pos hd]
      exact hk thread ht hq (.inr (.inl h))
    · rename_i hd
      rw [if_neg hd]
      cases ht
      exact .inr rfl

theorem wake_settled (hc : Task.Coherent k) : (k.wake .leave).Settled := by
  intro thread ht _ _
  rw [wake_thread] at ht
  exact .inl (by simp [Task.wake, (hc.alive ht).2])

theorem WakeQueueStep.settled (hs : WakeQueueStep .leave p k k') (hc : k.Coherent)
    (hk : k.Settled) : k'.Settled := by
  cases hs with
  | unlinked ht =>
    intro _ _ _ _
    exact .inl (by simp [Task.wake, (hc.alive ht).2])
  | kept => exact hk

theorem TaskStep.settled (hs : TaskStep s t e k) (hc : (s.tasks t).Coherent)
    (hk : (s.tasks t).Settled) : k.Settled := by
  cases hs with
  | same => exact hk
  | life _ _ hpc hl => exact fun _ _ _ h => by simp [hl.pc_user hpc] at h
  | setState hpc => exact fun _ _ _ h => by simp [hpc] at h
  | call => exact fun _ _ _ h => by simp at h
  | hook hs => exact hs.settled hc hk
  | wake => exact wake_settled hc
  | wakeQueue => exact (wakeQueue_cases _).settled hc hk

theorem settled_of_run (hr : Runs.run (step .all) (init n) es = some s) (t : Nat) :
    (s.tasks t).Settled := by
  have hinit : Coherent (init n) ∧ ∀ t, ((init n).tasks t).Settled := by
    refine ⟨init_coherent n, fun t thread ht => ?_⟩
    by_cases hn : t < n <;> simp [init, hn] at ht
  have hboth := Runs.invariant (I := fun s => Coherent s ∧ ∀ t, (s.tasks t).Settled)
    (fun s e s' h hs => ⟨step_coherent h.1 hs, fun t =>
      (step_task h.1.linked hs t).settled (h.1.task t) (h.2 t)⟩) hinit hr
  exact hboth.2 t

/-- `schedule()` was called in `TASK_RUNNING`, as when a task is preempted. -/
def Task.CalledRunning (k : Task) (thread : YaThread) : Prop :=
  match k.pc with
  | .user | .leave | .leaveFinishWait | .leaveRestore => True
  | .enter => k.state = .running
  | _ => thread.taskState = .running

instance : (k : Task) → (thread : YaThread) → Decidable (k.CalledRunning thread)
  | ⟨_, _, _, .user, _, _⟩, _ | ⟨_, _, _, .leave, _, _⟩, _
  | ⟨_, _, _, .leaveFinishWait, _, _⟩, _ | ⟨_, _, _, .leaveRestore, _, _⟩, _ => isTrue trivial
  | ⟨_, _, _, .enter, _, _⟩, _ => inferInstanceAs (Decidable (_ = _))
  | ⟨_, _, _, .goToBed, _, _⟩, _ | ⟨_, _, _, .readJob, _, _⟩, _
  | ⟨_, _, _, .finishWait _, _, _⟩, _ | ⟨_, _, _, .restore _, _, _⟩, _
  | ⟨_, _, _, .goToHeaven, _, _⟩, _ | ⟨_, _, _, .schedule, _, _⟩, _
  | ⟨_, _, _, .offRq, _, _⟩, _ => inferInstanceAs (Decidable (_ = _))

def Pc.OnTheWay (state taskState : TaskState) : Pc → Prop
  | .user | .leave | .leaveFinishWait | .leaveRestore => True
  | .enter => state = .running
  | .goToBed | .readJob | .finishWait _ | .restore _ => taskState = .running
  | .goToHeaven | .schedule => taskState = .running ∧ state = .running
  | .offRq => False

/-- A thread of job `p` on the way back, if it has not come back. -/
def Task.Returning (p : Nat) (k : Task) : Prop :=
  k.pc = .user ∨ ∃ thread, k.thread = some thread ∧ thread.job = p ∧
    k.pc.OnTheWay k.state thread.taskState

theorem HookStep.returning (hs : HookStep jobState .all k k') (hk : k.Returning p)
    (hj : jobState p ≠ .suspended) : k'.Returning p := by
  have hu : k.pc ≠ .user := by
    intro hu
    have hless := hs.stepsLeft
    simp [hu, Pc.stepsLeft] at hless
  obtain ⟨thread, ht, rfl, hway⟩ := hk.resolve_left hu
  cases hs with
  | enterPlain _ hnone | leavePlain _ hnone =>
    exact absurd (ht.symm.trans hnone) (Option.some_ne_none thread)
  | enterDead hpc _ hd => simp [hpc, Pc.OnTheWay, hd] at hway
  | save hpc ht' =>
    cases ht.symm.trans ht'
    simp only [hpc, Pc.OnTheWay] at hway
    exact .inr ⟨_, rfl, rfl, hway⟩
  | goToBed hpc ht' | finishWait hpc ht' =>
    cases ht.symm.trans ht'
    simp only [hpc, Pc.OnTheWay] at hway
    exact .inr ⟨_, rfl, rfl, hway⟩
  | stayInBed _ ht' hsusp =>
    cases ht.symm.trans ht'
    exact absurd hsusp hj
  | getUp hpc =>
    simp only [hpc, Pc.OnTheWay] at hway
    exact .inr ⟨thread, ht, rfl, hway⟩
  | @restore killed _ hpc ht' =>
    cases ht.symm.trans ht'
    simp only [hpc, Pc.OnTheWay] at hway
    refine .inr ⟨thread, ht, rfl, ?_⟩
    cases killed <;> exact ⟨hway, hway⟩
  | @goToHeaven _ hpc ht' =>
    cases ht.symm.trans ht'
    simp only [hpc, Pc.OnTheWay] at hway
    unfold Yasched.goToHeaven
    split
    · exact .inr ⟨thread, ht, rfl, hway⟩
    · exact .inr ⟨_, rfl, rfl, hway.1, hway.1⟩
  | schedule hpc =>
    simp only [hpc, Pc.OnTheWay] at hway
    refine .inr ⟨thread, ht, rfl, ?_⟩
    simp [hway.2, Pc.OnTheWay]
  | leave hpc ht' =>
    refine .inr ⟨thread, ht, rfl, ?_⟩
    dsimp only
    split <;> trivial
  | leaveFinishWait _ ht' =>
    cases ht.symm.trans ht'
    exact .inr ⟨_, rfl, rfl, trivial⟩
  | leaveRestore => exact .inl rfl

theorem onTheWay_wake {k : Task} (h : k.pc.OnTheWay k.state taskState) :
    (k.wake .leave).pc.OnTheWay (k.wake .leave).state taskState := by
  obtain ⟨job, thread, state, pc, life, sigkill⟩ := k
  unfold Task.wake
  split
  · exact h
  · cases pc <;> simp_all [Pc.OnTheWay]

theorem wake_returning {k : Task} (hk : k.Returning p) : (k.wake .leave).Returning p := by
  rcases hk with hu | ⟨thread, ht, hp, hway⟩
  · refine .inl ?_
    unfold Task.wake
    split
    · exact hu
    · simp [hu]
  · exact .inr ⟨thread, (wake_thread k).trans ht, hp, onTheWay_wake hway⟩

theorem WakeQueueStep.returning (hs : WakeQueueStep .leave q k k') (hk : k.Returning p) :
    k'.Returning p := by
  cases hs with
  | @unlinked thread ht _ _ =>
    refine (wake_returning hk).imp id ?_
    rintro ⟨old, hold, hp, hway⟩
    obtain rfl : thread = old := Option.some.inj (ht.symm.trans ((wake_thread k).symm.trans hold))
    exact ⟨_, rfl, hp, hway⟩
  | kept => exact hk

theorem TaskStep.returning (hs : TaskStep s t e k) (hk : (s.tasks t).Returning p)
    (hj : s.jobState p ≠ .suspended) (he : e ≠ .call t) : k.Returning p := by
  cases hs with
  | same => exact hk
  | life _ _ hpc hl => exact .inl (hl.pc_user hpc)
  | setState hpc => exact .inl hpc
  | call => exact absurd rfl he
  | hook hs => exact hs.returning hk hj
  | wake => exact wake_returning hk
  | wakeQueue => exact (wakeQueue_cases _).returning hk

theorem returning_of_run (hr : Runs.run (step .all) (init n) es = some s) (hw : s.waking = none)
    (ht : (s.tasks t).thread = some thread) (hj : s.jobState thread.job ≠ .suspended)
    (hcalled : (s.tasks t).CalledRunning thread) : (s.tasks t).Returning thread.job := by
  refine .inr ⟨thread, ht, rfl, ?_⟩
  have hc := (coherent_of_run hr).task t
  have hrunning (hpc : (s.tasks t).pc = .goToHeaven ∨ (s.tasks t).pc = .schedule ∨
      (s.tasks t).pc = .offRq) (hsaved : thread.taskState = .running) :
      (s.tasks t).state = .running := by
    by_contra hst
    cases hq : thread.suspendWait with
    | false =>
      rcases settled_of_run hr t thread ht hq (.inr hpc) with h | h
      · exact hst h
      · exact hst (h.trans hsaved)
    | true =>
      rcases hpc with hpc | hpc
      · have hbed := hc.queued thread ht hq
        simp [hpc, Pc.InBed] at hbed
      · rcases awaited_of_run hr t thread ht hq hpc hst with h | h
        · exact hj h
        · simp [hw] at h
  unfold Task.CalledRunning at hcalled
  split at hcalled <;> rename_i hpc
  · simp [hpc, Pc.OnTheWay]
  · simp [hpc, Pc.OnTheWay]
  · simp [hpc, Pc.OnTheWay]
  · simp [hpc, Pc.OnTheWay]
  · simpa [hpc, Pc.OnTheWay] using hcalled
  · cases hpc' : (s.tasks t).pc with
    | user | enter | leave | leaveFinishWait | leaveRestore => simp_all
    | goToBed | readJob | finishWait | restore => exact hcalled
    | goToHeaven => exact ⟨hcalled, hrunning (.inl hpc') hcalled⟩
    | schedule => exact ⟨hcalled, hrunning (.inr (.inl hpc')) hcalled⟩
    | offRq => exact hc.offRq hpc' (hrunning (.inr (.inr hpc')) hcalled)

/-- Once its job has been resumed, a thread that was running when it called
`schedule()` is back after ten steps of its own in this model at most, whatever
the others do, and none of them is held up. -/
theorem resumed_returns (hr : Runs.run (step .all) (init n) es = some s) (hw : s.waking = none)
    (ht : (s.tasks t).thread = some thread) (hcalled : (s.tasks t).CalledRunning thread)
    (hj : Runs.Always (step .all) (fun s => s.jobState thread.job ≠ .suspended) s fs)
    (hcall : .call t ∉ fs) (hr' : Runs.run (step .all) s fs = some s') :
    fs.count (.hook t) + (s'.tasks t).pc.stepsLeft ≤ 10 ∧
      ((s'.tasks t).pc = .user ∨ ∃ m, step .all s' (.hook t) = some m) := by
  have hl := (coherent_of_run hr).linked
  have hreturning := returning_of_run hr hw ht hj.first hcalled
  have hnever : Runs.Along (step .all) (fun _ e => e ≠ .call t) s fs :=
    Runs.along_of_mem fun e he _ => fun hcalls => hcall (hcalls ▸ he)
  have hboth := Runs.invariant_along
    (I := fun s => Linked s ∧ (s.tasks t).Returning thread.job)
    (fun s e s' ⟨hl, hk⟩ ⟨hp, hne⟩ hs =>
      ⟨step_linked hl hs, (step_task hl hs t).returning hk hp hne⟩)
    ⟨hl, hreturning⟩ (hj.along.and hnever) hr'
  constructor
  · have hsteps := steps_of_run hl hr' t
    rw [List.count_eq_zero.mpr hcall] at hsteps
    exact hsteps.trans (Pc.stepsLeft_le _)
  · rcases hboth.2 with hu | ⟨_, _, _, hway⟩
    · exact .inl hu
    · by_cases hu : (s'.tasks t).pc = .user
      · exact .inl hu
      · refine .inr (enabled_of_run (Runs.run_append.mpr ⟨s, hr, hr'⟩) hu fun ho => ?_)
        simp [ho, Pc.OnTheWay] at hway

def resumed : List Event :=
  [.execve 0 .running [true, true], .control .suspend 0 0, .call 0] ++
    List.replicate 4 (.hook 0) ++ [.control .resume 0 0, .wakeUp []]

theorem resumed_returns_resumed :
    ∃ s thread s', Runs.run (step .all) (init 1) resumed = some s ∧
      (s.tasks 0).thread = some thread ∧
      Runs.run (step .all) s [.hook 0, .control .kill 0 0] = some s' ∧
      ((s'.tasks 0).pc = .user ∨ ∃ m, step .all s' (.hook 0) = some m) :=
  ⟨_, _, _, rfl, rfl, rfl, (resumed_returns (show Runs.run _ (init 1) resumed = _ from rfl) rfl
    rfl (by decide) (by decide) (by decide)
    (show Runs.run _ _ [.hook 0, .control .kill 0 0] = _ from rfl)).2⟩

end Yasched
