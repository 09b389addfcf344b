import Yasched.Suspend

/-!
# Killing a job

`__kill_job` leaves `YA_JOB_KILLED` in the state word and `__resume_job` does
not touch it, but `__suspend_job` writes over it (`killing_final_fails`). While
it does not, a job stays killed, and every thread that reads the state on its
way through the enter hook is sent `SIGKILL` once (`killing_final`).
-/

namespace Yasched

def NotSuspended (p : Nat) (s : Sys) : Event → Prop
  | .control .suspend zid jid => searchZoneById zid = none ∨ searchJobById s jid ≠ some p
  | _ => True

instance (p : Nat) (s : Sys) (e : Event) : Decidable (NotSuspended p s e) := by
  unfold NotSuspended
  split <;> infer_instance

def Pc.Entering : Pc → Prop
  | .enter | .goToBed | .readJob | .finishWait _ | .restore _ | .goToHeaven => True
  | _ => False

/-- If the step takes a thread of job `p` out of `enter_schedule_hook`, then
the thread has been sent one `SIGKILL` and is not queued. -/
def Dies (p t : Nat) (s : Sys) (e : Event) : Prop :=
  ∀ s' thread, step .all s e = some s' → (s.tasks t).thread = some thread → thread.job = p →
    (s.tasks t).pc.Entering → (s'.tasks t).pc = .schedule →
      (s'.tasks t).sigkill = 1 ∧
        ∀ thread', (s'.tasks t).thread = some thread' → thread'.suspendWait = false

/-- No thread of the job is asleep on its queue, but for a `wake_up` that is due. -/
def NoneAsleep (p : Nat) (s : Sys) : Prop :=
  s.waking = none → ∀ t thread, (s.tasks t).thread = some thread → thread.job = p →
    ¬ ((s.tasks t).pc = .offRq ∧ thread.suspendWait = true)

/-- The thread, if it is one of job `p`, has not already read a state of the
job other than `YA_JOB_KILLED` on its way through the hook. -/
def Task.WillRead (p : Nat) (k : Task) : Prop :=
  ∀ thread, k.thread = some thread → thread.job = p →
    k.pc ≠ .finishWait false ∧ k.pc ≠ .restore false

theorem write_killed (op : JobOp) (hop : op ≠ .suspend) : (op.write .killed).1 = .killed := by
  cases op <;> simp_all [JobOp.write]

theorem step_killed (hp : p < s.njobs) (hk : s.jobState p = .killed)
    (hn : NotSuspended p s e) (hs : step .all s e = some s') : s'.jobState p = .killed := by
  cases step_ctrl hs with
  | same hsame _ => rw [hsame.state p hp, hk]
  | @write zid zone jid q op hw hz hf =>
    by_cases hq : p = q
    · subst hq
      have hop : op ≠ .suspend := by
        rintro rfl
        rcases hn with h | h
        · simp [hz] at h
        · exact h hf
      simpa [writeState, Sys.jobState] using hk ▸ write_killed op hop
    · simpa [writeState, Sys.jobState, hq] using hk
  | wakeUp _ => simpa using hk

theorem Task.WillRead.of_pc {k : Task} (h : k.pc ≠ .finishWait false) (h' : k.pc ≠ .restore false) :
    k.WillRead p :=
  fun _ _ _ => ⟨h, h'⟩

theorem HookStep.willRead (hs : HookStep jobState .all k k') (hj : jobState p = .killed)
    (hk : k.WillRead p) : k'.WillRead p := by
  cases hs with
  | enterPlain | enterDead | save | goToBed | stayInBed | leavePlain | leaveFinishWait
  | leaveRestore => exact .of_pc (by simp) (by simp)
  | goToHeaven => exact .of_pc (by simp) (by simp)
  | @getUp thread _ ht hne =>
    intro thread' ht' hp
    cases ht.symm.trans ht'
    simp [hp, hj]
  | @finishWait killed thread hpc ht =>
    rintro thread' ⟨⟩ hp
    have hkilled := (hk thread ht hp).1
    simpa [hpc] using hkilled
  | restore => exact .of_pc (by dsimp only; split <;> simp) (by dsimp only; split <;> simp)
  | schedule => exact .of_pc (by dsimp only; split <;> simp) (by dsimp only; split <;> simp)
  | leave => exact .of_pc (by dsimp only; split <;> simp) (by dsimp only; split <;> simp)

theorem wake_willRead {k : Task} (hk : k.WillRead p) : (k.wake .leave).WillRead p := by
  intro thread ht hp
  rw [wake_thread] at ht
  have hpc := hk thread ht hp
  unfold Task.wake
  split
  · exact hpc
  · by_cases h : k.pc = .offRq <;> simp [h, hpc]

theorem WakeQueueStep.willRead (hs : WakeQueueStep .leave q k k') (hk : k.WillRead p) :
    k'.WillRead p := by
  cases hs with
  | @unlinked thread ht =>
    rintro _ ⟨⟩ hp
    exact wake_willRead hk thread (by simpa using ht) hp
  | kept => exact hk

theorem step_willRead (hc : Coherent s) (hj : s.jobState p = .killed)
    (hs : step .all s e = some s') (hk : (s.tasks t).WillRead p) : (s'.tasks t).WillRead p := by
  have hstep := step_task hc.linked hs t
  generalize s'.tasks t = k at hstep
  cases hstep with
  | same => exact hk
  | life _ _ hpc hl => cases hl <;> exact .of_pc (by simp [hpc]) (by simp [hpc])
  | setState hpc => exact .of_pc (by simp [hpc]) (by simp [hpc])
  | call => exact .of_pc (by simp) (by simp)
  | hook hs => exact hs.willRead hj hk
  | wake => exact wake_willRead hk
  | wakeQueue _ => exact (wakeQueue_cases _).willRead hk

theorem HookStep.dies {thread : YaThread} (hs : HookStep jobState .all k k') (hc : k.Coherent)
    (ht : k.thread = some thread) (hj : jobState thread.job = .killed) (hk : k.WillRead thread.job)
    (he : k.pc.Entering) (hpc : k'.pc = .schedule) :
    k'.sigkill = 1 ∧ ∀ thread', k'.thread = some thread' → thread'.suspendWait = false := by
  cases hs with
  | enterPlain _ hnone => simp [hnone] at ht
  | enterDead _ ht' hd => exact absurd hd (hc.alive ht').2
  | save | goToBed | getUp | finishWait | leavePlain | leaveFinishWait | leaveRestore =>
    cases hpc
  | stayInBed _ ht' hsusp =>
    cases ht.symm.trans ht'
    simp [hj] at hsusp
  | @restore killed _ hpc' _ =>
    cases killed
    · exact absurd hpc' (hk thread ht rfl).2
    · cases hpc
  | @goToHeaven old hpc' ht' =>
    cases ht.symm.trans ht'
    have hq := hc.queued thread ht
    have hkill := hc.killed ht
    simp only [hpc', Pc.InBed, imp_false, Bool.not_eq_true] at hq
    unfold Yasched.goToHeaven
    split <;> rename_i hd
    · exact ⟨by simpa [hd] using hkill, by simp [ht, hq]⟩
    · exact ⟨by simpa [hd] using hkill, by simp [hq]⟩
  | schedule hpc' => simp [hpc', Pc.Entering] at he
  | leave hpc' _ => simp [hpc', Pc.Entering] at he

theorem step_dies (hc : Coherent s) (hj : s.jobState p = .killed) (hk : (s.tasks t).WillRead p) :
    Dies p t s e := by
  rintro s' thread hs ht rfl he hpc
  have hstep := step_task hc.linked hs t
  generalize s'.tasks t = k at hstep hpc
  cases hstep with
  | same => simp [hpc, Pc.Entering] at he
  | life _ _ hu _ => simp [hu, Pc.Entering] at he
  | setState hu => simp [hu, Pc.Entering] at he
  | call _ => cases hpc
  | hook hs => exact hs.dies (hc.task t) ht hj hk he hpc
  | wake =>
    rw [wake_pc (by simp [hpc])] at hpc
    simp [hpc, Pc.Entering] at he
  | wakeQueue _ =>
    rw [(wakeQueue_cases _).pc (by simp [hpc])] at hpc
    simp [hpc, Pc.Entering] at he

-- ---------------------------------------------------------------------------
-- Whole runs
-- ---------------------------------------------------------------------------

theorem noneAsleep (hc : Coherent s) (ha : Awaited s) (hj : s.jobState p ≠ .suspended) :
    NoneAsleep p s := by
  rintro hw t thread ht rfl ⟨hpc, hq⟩
  rcases ha t thread ht hq (.inr hpc) ((hc.task t).offRq hpc) with h | h
  · exact hj h
  · simp [hw] at h

structure Killed (p : Nat) (s : Sys) : Prop where
  coherent : Coherent s
  awaited : Awaited s
  made : p < s.njobs
  killed : s.jobState p = .killed

theorem Killed.step (h : Killed p s) (hn : NotSuspended p s e) (hs : step .all s e = some s') :
    Killed p s' :=
  ⟨step_coherent h.coherent hs, step_awaited h.coherent h.awaited hs,
    Nat.lt_of_lt_of_le h.made (step_njobs hs), step_killed h.made h.killed hn hs⟩

/-- From a successful `kill_job` on: while no `suspend_job` reaches the job, it
stays killed and no thread is left asleep on its queue; and each of its
threads that had not read another state by then is sent one `SIGKILL` by the
time it leaves the enter hook. -/
theorem killing_final (hr : Runs.run (step .all) (init n) es = some s)
    (hz : searchZoneById zid = some zone) (hf : searchJobById s jid = some p)
    (hs : step .all s (.control .kill zid jid) = some s')
    (hn : Runs.Along (step .all) (NotSuspended p) s' fs) :
    Runs.Always (step .all) (fun s => s.jobState p = .killed ∧ NoneAsleep p s) s' fs ∧
      ∀ t, (s'.tasks t).WillRead p → Runs.Along (step .all) (Dies p t) s' fs := by
  have hc := coherent_of_run hr
  have hstart : Killed p s' := by
    refine ⟨step_coherent hc hs, step_awaited hc (awaited_of_run hr) hs, ?_, ?_⟩
    · exact Nat.lt_of_lt_of_le (hc.listed p (searchJobById_mem hf)) (step_njobs hs)
    · cases zone
      obtain hw | ⟨q, hw⟩ := Option.eq_none_or_eq_some s.waking
      · simp only [step, control, hw, hz, hf, Option.some.injEq] at hs
        subst hs
        simp [writeState, Sys.jobState, JobOp.write]
      · simp [step, control, hw] at hs
  constructor
  · refine Runs.always_of_along (I := Killed p) ?_ (fun _ _ _ h hn hs => h.step hn hs) hstart hn
    intro s h
    exact ⟨h.killed, noneAsleep h.coherent h.awaited (by simp [h.killed])⟩
  · intro t ht
    refine Runs.along_of_along (I := fun s => Killed p s ∧ (s.tasks t).WillRead p) ?_ ?_
      ⟨hstart, ht⟩ hn
    · rintro s e ⟨h, hk⟩ -
      exact step_dies h.coherent h.killed hk
    · rintro s e s' ⟨h, hk⟩ hn hs
      exact ⟨h.step hn hs, step_willRead h.coherent h.killed hs hk⟩

theorem killing_final_call :
    ∃ s s', Runs.run (step .all) (init 1) [.execve 0 .running [true, true]] = some s ∧
      step .all s (.control .kill 0 0) = some s' ∧
      Runs.Always (step .all) (fun s => s.jobState 0 = .killed ∧ NoneAsleep 0 s) s'
        (.call 0 :: List.replicate 6 (.hook 0)) ∧
      Runs.Along (step .all) (Dies 0 0) s' (.call 0 :: List.replicate 6 (.hook 0)) := by
  have hrun : Runs.run (step .all) (init 1) [.execve 0 .running [true, true]] =
      some (yaInitJob (init 1) 0 .running) := rfl
  have hkill : step .all (yaInitJob (init 1) 0 .running) (.control .kill 0 0) = some _ := rfl
  have hfinal := killing_final (p := 0) hrun rfl rfl hkill
    (show Runs.Along _ _ _ (.call 0 :: List.replicate 6 (.hook 0)) by decide)
  exact ⟨_, _, hrun, hkill, hfinal.1, hfinal.2 0 (.of_pc (by decide) (by decide))⟩

/-- `suspend_job` after `kill_job`: the job is suspended, and the next thread
that comes by goes to bed. -/
theorem killing_final_fails :
    ¬ ∀ n es s zid jid zone p s' fs, Runs.run (step .all) (init n) es = some s →
      searchZoneById zid = some zone → searchJobById s jid = some p →
      step .all s (.control .kill zid jid) = some s' →
      Runs.Always (step .all) (fun s => s.jobState p = .killed) s' fs := by
  intro h
  have hkilled := h 1 [.execve 0 .running [true, true]] _ 0 0 _ 0 _ [.control .suspend 0 0]
    rfl rfl rfl rfl
  revert hkilled
  decide

end Yasched
