import Yasched.Trips

/-!
# Going to bed and being woken

A thread queues itself before it reads the state of its job, and a control
call writes the state before it calls `wake_up`; so no thread is left asleep on
the queue of a job that is not suspended (`no_wakeUp_lost`).

The bed holds a thread only as long as nothing else wakes it: the hook that
runs when it has the CPU again does not read the state of the job
(`stays_suspended`, `stays_suspended_fails`).
-/

namespace Yasched

-- ---------------------------------------------------------------------------
-- No resume and no kill is lost
-- ---------------------------------------------------------------------------

/-- A thread that is asleep on the queue, or about to be, is of a job that is
suspended or whose `wake_up` is due. -/
def Task.Awaited (jobState : Nat → YaJobState) (waking : Option Nat) (k : Task) : Prop :=
  ∀ thread, k.thread = some thread → thread.suspendWait = true →
    k.pc = .schedule ∨ k.pc = .offRq → k.state ≠ .running →
      jobState thread.job = .suspended ∨ waking = some thread.job

def Awaited (s : Sys) : Prop := ∀ t, (s.tasks t).Awaited s.jobState s.waking

theorem HookStep.awaited (hs : HookStep jobState .all k k') (hk : k.Coherent)
    (ha : k.Awaited jobState waking) : k'.Awaited jobState waking := by
  intro thread ht hq hpc hst
  cases hs with
  | enterPlain _ hth => simp [hth] at ht
  | enterDead _ hth hd => exact absurd hd (hk.alive hth).2
  | save | goToBed | finishWait | leavePlain | leaveFinishWait | leaveRestore =>
    exact absurd hpc (by simp)
  | getUp => exact absurd hpc (by simp)
  | stayInBed hpc' hth hj =>
    cases hth.symm.trans ht
    exact .inl hj
  | restore hpc' hth =>
    have hbed := hk.queued thread ht hq
    simp [hpc', Pc.InBed] at hbed
  | @goToHeaven old hpc' hth =>
    have hbed := hk.queued old hth
    simp only [hpc', Pc.InBed, imp_false, Bool.not_eq_true] at hbed
    unfold Yasched.goToHeaven at ht
    split at ht
    · cases hth.symm.trans ht; simp [hbed] at hq
    · cases ht; simp [hbed] at hq
  | schedule hpc' => exact ha thread ht hq (.inl hpc') hst
  | leave _ _ =>
    dsimp only at hpc
    split at hpc <;> simp at hpc

theorem wake_awaited {k : Task} (ha : k.Awaited jobState waking) :
    (k.wake .leave).Awaited jobState waking := by
  intro thread ht hq hpc hst
  unfold Task.wake at ht hpc hst
  split at hst
  · rename_i hd
    simp only [hd, if_true] at ht hpc
    exact ha thread ht hq hpc hst
  · exact absurd rfl hst

theorem WakeQueueStep.awaited (hs : WakeQueueStep .leave p k k')
    (ha : k.Awaited jobState (some p)) : k'.Awaited jobState none := by
  intro thread ht hq hpc hst
  cases hs with
  | unlinked => cases ht; cases hq
  | kept hkept =>
    rcases ha thread ht hq hpc hst with h | h
    · exact .inl h
    · exact absurd (hkept thread ht (Option.some.inj h).symm hq) hst

theorem TaskStep.awaited (hs : TaskStep s t e k) (he : ∀ keep, e ≠ .wakeUp keep)
    (hk : (s.tasks t).Coherent) (ha : (s.tasks t).Awaited s.jobState s.waking) :
    k.Awaited s.jobState s.waking := by
  cases hs with
  | same => exact ha
  | life _ _ hpc hl =>
    intro thread ht hq hpc' _
    cases hl <;> simp [hpc] at hpc'
  | setState hpc _ _ => exact fun thread ht hq hpc' _ => by simp [hpc] at hpc'
  | call _ => exact fun thread ht hq hpc' _ => by simp at hpc'
  | hook hs => exact hs.awaited hk ha
  | wake => exact wake_awaited ha
  | wakeQueue _ => exact absurd rfl (he _)

theorem write_suspended (op : JobOp) :
    (op.write .suspended).1 = .suspended ∨ (op.write .suspended).2 = true := by
  cases op <;> simp [JobOp.write]

theorem TaskStep.job_eq (hs : TaskStep s t e k) (hpc : k.pc ≠ .user) :
    k.job = (s.tasks t).job := by
  cases hs with
  | same | setState | call => rfl
  | life _ _ hpc' hl => cases hl <;> first | exact absurd hpc' hpc | exact absurd rfl hpc
  | hook hs => exact hs.job_eq
  | wake => exact (wake_sameLife _).job
  | wakeQueue => exact (wakeQueue_cases _).sameLife.job

theorem step_awaited (hc : Coherent s) (ha : Awaited s) (hs : step .all s e = some s') :
    Awaited s' := by
  intro t
  have ht := step_task hc.linked hs t
  cases step_ctrl hs with
  | same hsame he =>
    intro thread hth hq hpc hst
    have hl' := step_linked hc.linked hs
    have hjob := (hl'.task t).thread thread hth
    rw [ht.job_eq (by rcases hpc with h | h <;> simp [h])] at hjob
    rw [hsame.state _ ((hc.linked.task t).job _ hjob), hsame.waking]
    exact ht.awaited he (hc.task t) (ha t) thread hth hq hpc hst
  | @write _ _ _ p op hw hz hf =>
    intro thread hth hq hpc hst
    rcases ha t thread hth hq hpc hst with hj | hj
    · by_cases hp : thread.job = p
      · subst hp
        simp only [writeState, hj]
        rcases write_suspended op with h | h
        · exact .inl (by simp [Sys.jobState, h])
        · exact .inr (by simp [h])
      · exact .inl (by simpa [writeState, Sys.jobState, hp] using hj)
    · simp [hw] at hj
  | @wakeUp p keep hw =>
    have hk := ha t
    rw [hw] at hk
    simp only [wakeUp, hw]
    exact (wakeQueue_cases _).awaited hk

theorem awaited_of_run (hr : Runs.run (step .all) (init n) es = some s) : Awaited s := by
  have hinit : Coherent (init n) ∧ Awaited (init n) := by
    refine ⟨init_coherent n, fun t thread ht => ?_⟩
    by_cases hn : t < n <;> simp [init, hn] at ht
  have hboth := Runs.invariant (I := fun s => Coherent s ∧ Awaited s)
    (fun _ _ _ h hs => ⟨step_coherent h.1 hs, step_awaited h.1 h.2 hs⟩) hinit hr
  exact hboth.2

/-- No resume and no kill is lost: while no control call is between its state
write and its `wake_up`, no thread of a job that is not suspended is off the
run queue and still queued. -/
theorem no_wakeUp_lost (hr : Runs.run (step .all) (init n) es = some s) (hw : s.waking = none)
    (ht : (s.tasks t).thread = some thread) (hj : s.jobState thread.job ≠ .suspended) :
    ¬ ((s.tasks t).pc = .offRq ∧ thread.suspendWait = true) := by
  rintro ⟨hpc, hq⟩
  have hst := ((coherent_of_run hr).task t).offRq hpc
  rcases awaited_of_run hr t thread ht hq (.inr hpc) hst with h | h
  · exact hj h
  · simp [hw] at h

def toBed : List Event :=
  [.execve 0 .running [true, true], .control .suspend 0 0, .setState 0 .interruptible, .call 0,
    .hook 0, .hook 0, .hook 0, .hook 0]

theorem no_wakeUp_lost_resumed :
    ∃ s thread, Runs.run (step .all) (init 1) (toBed ++ [.control .resume 0 0, .wakeUp []]) =
        some s ∧ (s.tasks 0).thread = some thread ∧
      ¬ ((s.tasks 0).pc = .offRq ∧ thread.suspendWait = true) := by
  refine ⟨_, _, rfl, rfl, no_wakeUp_lost
    (show Runs.run _ (init 1) (toBed ++ [.control .resume 0 0, .wakeUp []]) = _ from rfl)
    rfl rfl (by decide)⟩

-- ---------------------------------------------------------------------------
-- A suspended thread stays suspended, unless something else wakes it
-- ---------------------------------------------------------------------------

/-- The thread has gone to bed and has not been woken since. -/
structure Task.Asleep (p : Nat) (k : Task) : Prop where
  job : ∃ thread, k.thread = some thread ∧ thread.job = p
  state : k.state ≠ .running
  pc : k.pc = .readJob ∨ k.pc = .schedule ∨ k.pc = .offRq

theorem HookStep.asleep (hs : HookStep jobState .all k k') (hk : k.Asleep p)
    (hp : jobState p = .suspended) : k'.Asleep p := by
  obtain ⟨⟨thread, ht, rfl⟩, hst, hpc⟩ := hk
  cases hs with
  | stayInBed _ _ _ => exact ⟨⟨thread, ht, rfl⟩, hst, .inr (.inl rfl)⟩
  | getUp _ ht' hj =>
    cases ht.symm.trans ht'
    exact absurd hp hj
  | schedule _ => exact ⟨⟨thread, ht, rfl⟩, hst, .inr (.inr (by simp [hst]))⟩
  | _ => simp_all

theorem step_asleep (hc : Coherent s) (hs : step .all s e = some s') (hw : e ≠ .wake t)
    (hp : s.jobState p = .suspended) (hk : (s.tasks t).Asleep p) : (s'.tasks t).Asleep p := by
  obtain ⟨⟨thread, ht, rfl⟩, hst, hpc⟩ := hk
  have hnu : (s.tasks t).pc ≠ .user := by rcases hpc with h | h | h <;> simp [h]
  have hstep := step_task hc.linked hs t
  generalize s'.tasks t = k at hstep
  cases hstep with
  | same => exact ⟨⟨thread, ht, rfl⟩, hst, hpc⟩
  | life _ _ hu _ => exact absurd hu hnu
  | setState hu => exact absurd hu hnu
  | call hu => exact absurd hu hnu
  | hook hs => exact hs.asleep ⟨⟨thread, ht, rfl⟩, hst, hpc⟩ hp
  | wake => exact absurd rfl hw
  | @wakeQueue q _ hq =>
    have hne : thread.job ≠ q := by
      rintro rfl
      exact (hc.waking _ hq).2 hp
    simpa [Task.wakeQueue, ht, hne] using (⟨⟨thread, ht, rfl⟩, hst, hpc⟩ : Task.Asleep _ _)

/-- A thread that has gone to bed, and that no wake-up has reached up to its
read of `YA_JOB_SUSPENDED`, does not come back while the job stays suspended
and nothing else wakes the thread. -/
theorem stays_suspended (hr : Runs.run (step .all) (init n) es = some s)
    (hpc : (s.tasks t).pc = .readJob) (ht : (s.tasks t).thread = some thread)
    (hst : (s.tasks t).state ≠ .running)
    (hj : Runs.Always (step .all) (fun s => s.jobState thread.job = .suspended) s fs)
    (hw : Runs.Along (step .all) (fun _ e => e ≠ .wake t) s fs) :
    Runs.Always (step .all) (fun s => (s.tasks t).pc ≠ .leave ∧ (s.tasks t).pc ≠ .user) s fs := by
  refine Runs.always_of_along (I := fun s => Coherent s ∧ (s.tasks t).Asleep thread.job)
    ?_ ?_ ⟨coherent_of_run hr, ⟨thread, ht, rfl⟩, hst, .inl hpc⟩ (hj.along.and hw)
  · rintro s ⟨-, -, -, hpc⟩
    rcases hpc with h | h | h <;> simp [h]
  · rintro s e s' ⟨hc, hk⟩ ⟨hp, hne⟩ hs
    exact ⟨step_coherent hc hs, step_asleep hc hs hne hp hk⟩

theorem stays_suspended_toBed :
    ∃ s, Runs.run (step .all) (init 1) (toBed.take 6) = some s ∧
      Runs.Always (step .all) (fun s => (s.tasks 0).pc ≠ .leave ∧ (s.tasks 0).pc ≠ .user) s
        [.hook 0, .control .suspend 0 0, .hook 0] :=
  ⟨_, rfl, stays_suspended (show Runs.run _ (init 1) (toBed.take 6) = _ from rfl) rfl rfl
    (by decide) (by decide) (by decide)⟩

/-- A timer, or the event that the thread waited for, ends the suspension:
`leave_schedule_hook` finds the thread queued and gets it up. -/
theorem stays_suspended_fails :
    ¬ ∀ n es s t thread fs, Runs.run (step .all) (init n) es = some s →
      (s.tasks t).pc = .readJob → (s.tasks t).thread = some thread →
      (s.tasks t).state ≠ .running →
      Runs.Always (step .all) (fun s => s.jobState thread.job = .suspended) s fs →
      Runs.Always (step .all) (fun s => (s.tasks t).pc ≠ .user) s fs := by
  intro h
  have hback := h 1 (toBed.take 6) _ 0 _
    [.hook 0, .hook 0, .wake 0, .hook 0, .hook 0, .hook 0] rfl rfl rfl (by decide) (by decide)
  revert hback
  decide

end Yasched
