import Yasched.Steps

/-!
# Trips through `schedule()`

`TaskStep` lists what a step can do to one task, `CtrlStep` what it can do to
the state words of the jobs and to a wake-up that is due. `Resting` is what a
task keeps on every trip through `schedule()`: it is linked on the queue of
suspended threads only inside its bed, and it never sleeps as `TASK_DEAD`.
-/

namespace Yasched

-- ---------------------------------------------------------------------------
-- What a step can do to one task
-- ---------------------------------------------------------------------------

def Event.target : Event → Option Nat
  | .execve t .. | .fork t | .child t | .forkFail t | .scheduleTail t | .tryThread t .. | .exit t
  | .setState t _ | .call t | .hook t | .wake t => some t
  | .control .. | .wakeUp _ => none

/-- What an event of its life does to a task, as the schedule hooks see it. -/
inductive LifeOf (k : Task) : Task → Prop
  | live : k.life ≠ .exited → life ≠ .exited → LifeOf k { k with life }
  | attach : k.life ≠ .exited → k.thread = none →
      LifeOf k { k with job := some p, thread := some (initThread p junk), life := .live }
  | born : k = {} → LifeOf k { job, life := .born }
  | exit : k.life ≠ .exited → LifeOf k { k with thread := none, life := .exited }

inductive TaskStep (s : Sys) (t : Nat) : Event → Task → Prop
  | same : e.target ≠ some t → (∀ keep, e ≠ .wakeUp keep) → TaskStep s t e (s.tasks t)
  | life : e.OfLife → e.target = some t ∨ s.tasks t = {} → (s.tasks t).pc = .user →
      LifeOf (s.tasks t) k → TaskStep s t e k
  | setState : (s.tasks t).pc = .user → (s.tasks t).state ≠ .dead →
      (state = .dead → (s.tasks t).life = .exited) →
      TaskStep s t (.setState t state) { s.tasks t with state }
  | call : (s.tasks t).pc = .user → TaskStep s t (.call t) { s.tasks t with pc := .enter }
  | hook : HookStep s.jobState .all (s.tasks t) k → TaskStep s t (.hook t) k
  | wake : TaskStep s t (.wake t) ((s.tasks t).wake .leave)
  | wakeQueue : s.waking = some p →
      TaskStep s t (.wakeUp keep) ((s.tasks t).wakeQueue .leave p (t ∈ keep))

theorem Event.target_wakeUp {e : Event} (he : e.target = some i) (keep : List Nat) :
    e ≠ .wakeUp keep := by
  rintro rfl
  cases he

theorem TaskStep.other (he : e.target = some i) (hi : t ≠ i) : TaskStep s t e (s.tasks t) :=
  .same (by simpa [he] using hi.symm) (Event.target_wakeUp he)

theorem TaskStep.setTask (he : e.target = some i) (hk : TaskStep s i e k) (t : Nat) :
    TaskStep s t e ((s.setTask i k).tasks t) := by
  by_cases hi : t = i
  · subst hi; simpa using hk
  · simpa [hi] using TaskStep.other he hi

theorem LifeOf.exitPlain (hk : k.life ≠ .exited) (ht : k.thread = none) :
    LifeOf k { k with life := .exited } := by
  have hexit := LifeOf.exit hk
  rwa [← ht] at hexit

theorem Task.Linked.threadless (hk : Task.Linked n k) (hj : k.job = none) : k.thread = none := by
  obtain ht | ⟨thread, ht⟩ := Option.eq_none_or_eq_some k.thread
  · exact ht
  · simp [hk.thread thread ht] at hj

theorem LifeStep.task (hs : LifeStep s e s') (hl : Linked s) (t : Nat) :
    TaskStep s t e (s'.tasks t) := by
  have set {i k} (he : e.target = some i) (hlife : e.OfLife) (hpc : (s.tasks i).pc = .user)
      (hk : LifeOf (s.tasks i) k) : TaskStep s t e ((s.setTask i k).tasks t) :=
    .setTask he (.life hlife (.inl he) hpc hk) t
  cases hs with
  | @execve i _ _ hr =>
    by_cases hi : t = i
    · subst hi; exact .life trivial (.inl rfl) hr.2 (.live (by simp [hr.1]) (by simp [hr.1]))
    · exact .other rfl hi
  | @newJob i junk _ hr hj =>
    have hk : LifeOf (s.tasks i) { s.tasks i with
        job := some s.njobs, thread := some (initThread s.njobs junk), life := .live } :=
      .attach (by simp [hr.1]) ((hl.task i).threadless hj)
    rw [← hr.1] at hk
    exact set rfl trivial hr.2 hk
  | fork hr _ | forkPlain hr _ =>
    exact set rfl trivial hr.2 (.live (by simp [hr.1]) (by simp))
  | @child i o hf hpc =>
    by_cases ht : t = s.ntasks
    · subst ht
      have hold := hl.unborn s.ntasks (Nat.le_refl _)
      simpa [Sys.addTask] using TaskStep.life (e := .child i) trivial (.inr hold) (by simp [hold])
        (.born hold)
    · have hk : LifeOf (s.tasks i) { s.tasks i with life := .live } :=
        .live (by simp [hf]) (by simp)
      have hlive := set rfl trivial hpc hk
      simpa [Sys.addTask, ht] using hlive
  | forkFail hf hpc =>
    rw [putThread_tasks]
    exact set rfl trivial hpc (.live (by simp [hf]) (by simp))
  | forkFailPlain hf hpc => exact set rfl trivial hpc (.live (by simp [hf]) (by simp))
  | scheduleTail hb hpc =>
    exact set rfl trivial hpc (.live (by simp [hb]) (by split <;> simp))
  | @attach i tries p junk hlife hpc hj =>
    have hth := (hl.task i).starting (by rw [hlife]; trivial)
    have hk : LifeOf (s.tasks i) { s.tasks i with
        job := some p, thread := some (initThread p junk), life := .live } :=
      .attach (by simp [hlife]) hth
    rw [← hj] at hk
    exact set rfl trivial hpc hk
  | retry hlife hpc =>
    exact set rfl trivial hpc (.live (by simp [hlife]) (by split <;> simp))
  | exit hr _ =>
    rw [putThread_tasks]
    exact set rfl trivial hr.2 (.exit (by simp [hr.1]))
  | exitPlain hr hth =>
    exact set rfl trivial hr.2 (.exitPlain (by simp [hr.1]) hth)

theorem step_task (hl : Linked s) (hs : step .all s e = some s') (t : Nat) :
    TaskStep s t e (s'.tasks t) := by
  by_cases he : e.OfLife
  · exact (life_cases he hs).task hl t
  cases e with
  | setState i state =>
    simp only [step, setCurrentState] at hs
    split at hs <;> cases hs
    rename_i hi
    obtain ⟨-, hpc, hdead, hex⟩ := hi
    exact TaskStep.setTask rfl (.setState hpc hdead hex) t
  | call i =>
    simp only [step, callSchedule] at hs
    split at hs <;> cases hs
    rename_i hi
    exact TaskStep.setTask rfl (.call hi.2) t
  | hook i =>
    simp only [step, Option.map_eq_some_iff] at hs
    obtain ⟨k, hk, rfl⟩ := hs
    exact TaskStep.setTask rfl (.hook (hook_cases hk)) t
  | wake i =>
    cases hs
    exact TaskStep.setTask rfl .wake t
  | control op zid jid =>
    simp only [step, control] at hs
    split at hs
    · cases hs
    · cases hs; exact .same (by simp [Event.target]) (by simp)
    · split at hs <;> cases hs <;> exact .same (by simp [Event.target]) (by simp)
  | wakeUp keep =>
    simp only [step, Option.map_eq_some_iff] at hs
    obtain ⟨p, hp, rfl⟩ := hs
    have hwoken : TaskStep s t (.wakeUp keep) _ := .wakeQueue hp
    simpa [wakeUp, hp] using hwoken
  | _ => exact absurd trivial he

-- ---------------------------------------------------------------------------
-- What a step can do to the state words of the jobs
-- ---------------------------------------------------------------------------

/-- No state word of a job that is there changes, and no wake-up becomes due. -/
structure CtrlSame (s s' : Sys) : Prop where
  njobs : s.njobs ≤ s'.njobs
  state : ∀ p < s.njobs, s'.jobState p = s.jobState p
  waking : s'.waking = s.waking
  listed : ∀ p ∈ s'.jobList, p ∈ s.jobList ∨ p < s'.njobs

inductive CtrlStep (s : Sys) : Event → Sys → Prop
  | same : CtrlSame s s' → (∀ keep, e ≠ .wakeUp keep) → CtrlStep s e s'
  | write : s.waking = none → searchZoneById zid = some zone → searchJobById s jid = some p →
      CtrlStep s (.control op zid jid) (writeState op s p)
  | wakeUp : s.waking = some p → CtrlStep s (.wakeUp keep) (wakeUp .all keep s)

theorem ctrlSame_setTask (s : Sys) : CtrlSame s (s.setTask t k) :=
  ⟨Nat.le_refl _, fun _ _ => rfl, rfl, fun _ hp => .inl hp⟩

theorem ctrlSame_getThread (s : Sys) : CtrlSame s (getThread s q) := by
  refine ⟨Nat.le_refl _, fun p _ => ?_, rfl, fun _ hp => .inl hp⟩
  by_cases hq : p = q
  · subst hq; simp [getThread, Sys.jobState]
  · simp [getThread, Sys.jobState, hq]

theorem ctrlSame_putThread (s : Sys) : CtrlSame s (putThread s q) := by
  refine ⟨by simp, fun p _ => ?_, ?_, fun p hp => .inl ?_⟩
  · unfold putThread
    by_cases hq : p = q
    · subst hq; dsimp only; split <;> simp [yaDelJob, Sys.jobState]
    · dsimp only; split <;> simp [yaDelJob, Sys.jobState, hq]
  · unfold putThread; dsimp only; split <;> rfl
  · unfold putThread at hp
    dsimp only at hp
    split at hp
    · exact List.mem_of_mem_erase hp
    · exact hp

theorem CtrlSame.trans (h : CtrlSame s m) (h' : CtrlSame m s') : CtrlSame s s' := by
  refine ⟨Nat.le_trans h.njobs h'.njobs, fun p hp => ?_, h'.waking.trans h.waking, fun p hp => ?_⟩
  · rw [h'.state p (Nat.lt_of_lt_of_le hp h.njobs), h.state p hp]
  · rcases h'.listed p hp with hp | hp
    · exact (h.listed p hp).imp id fun hp => Nat.lt_of_lt_of_le hp h'.njobs
    · exact .inr hp

theorem LifeStep.ctrl (hs : LifeStep s e s') : CtrlSame s s' := by
  cases hs with
  | execve => exact ⟨Nat.le_refl _, fun _ _ => rfl, rfl, fun _ hp => .inl hp⟩
  | newJob =>
    refine ⟨Nat.le_succ _, fun p hp => ?_, rfl, fun p hp => ?_⟩
    · simp [yaInitJob, Sys.jobState, Nat.ne_of_lt hp]
    · rcases List.mem_append.mp hp with hp | hp
      · exact .inl hp
      · exact .inr (by simp [List.mem_singleton.mp hp, yaInitJob])
  | fork => exact (ctrlSame_setTask s).trans (ctrlSame_getThread _)
  | child => exact ⟨Nat.le_refl _, fun _ _ => rfl, rfl, fun _ hp => .inl hp⟩
  | forkFail | exit => exact (ctrlSame_setTask s).trans (ctrlSame_putThread _)
  | forkPlain | forkFailPlain | scheduleTail | attach | retry | exitPlain =>
    exact ctrlSame_setTask s

theorem step_ctrl (hs : step .all s e = some s') : CtrlStep s e s' := by
  by_cases he : e.OfLife
  · refine .same (life_cases he hs).ctrl ?_
    rintro keep rfl
    exact he
  cases e with
  | setState i state =>
    simp only [step, setCurrentState] at hs
    split at hs <;> cases hs
    exact .same (ctrlSame_setTask s) (by simp)
  | call i =>
    simp only [step, callSchedule] at hs
    split at hs <;> cases hs
    exact .same (ctrlSame_setTask s) (by simp)
  | hook i =>
    simp only [step, Option.map_eq_some_iff] at hs
    obtain ⟨k, -, rfl⟩ := hs
    exact .same (ctrlSame_setTask s) (by simp)
  | wake i =>
    cases hs
    exact .same (ctrlSame_setTask s) (by simp)
  | control op zid jid =>
    have hrefl : CtrlSame s s := ⟨Nat.le_refl _, fun _ _ => rfl, rfl, fun _ hp => .inl hp⟩
    simp only [step, control] at hs
    split at hs
    · cases hs
    · cases hs; exact .same hrefl (by simp)
    · rename_i hw hz
      split at hs <;> cases hs
      · exact .same hrefl (by simp)
      · exact .write hw hz (by assumption)
  | wakeUp keep =>
    simp only [step, Option.map_eq_some_iff] at hs
    obtain ⟨p, hp, rfl⟩ := hs
    exact .wakeUp hp
  | _ => exact absurd trivial he

theorem step_njobs (hs : step .all s e = some s') : s.njobs ≤ s'.njobs := by
  cases step_ctrl hs with
  | same hsame _ => exact hsame.njobs
  | write => exact Nat.le_refl _
  | wakeUp hw => simp [wakeUp, hw]

-- ---------------------------------------------------------------------------
-- What every trip keeps
-- ---------------------------------------------------------------------------

/-- From `prepare_to_wait` to the `finish_wait` that ends the sleep. -/
def Pc.InBed : Pc → Prop
  | .readJob | .finishWait _ | .schedule | .offRq | .leave | .leaveFinishWait => True
  | _ => False

def Pc.Leaving : Pc → Prop
  | .leave | .leaveFinishWait | .leaveRestore => True
  | _ => False

/-- What is true of every task at every point of its trips. -/
structure Task.Coherent (k : Task) : Prop where
  exited : k.life = .exited → k.thread = none
  dead : k.state = .dead → k.life = .exited
  queued : ∀ thread, k.thread = some thread → thread.suspendWait = true → k.pc.InBed
  saved : k.pc ≠ .user → k.pc ≠ .enter → ∀ thread, k.thread = some thread →
    thread.taskState ≠ .dead
  offRq : k.pc = .offRq → k.state ≠ .running
  leaving : k.pc.Leaving → k.state = .running
  sigkill : k.life ≠ .exited →
    k.sigkill = if k.thread.map YaThread.state = some .dead then 1 else 0

theorem Task.Coherent.alive {thread : YaThread} (hk : Task.Coherent k)
    (ht : k.thread = some thread) :
    k.life ≠ .exited ∧ k.state ≠ .dead := by
  have hlife : k.life ≠ .exited := fun h => by simp [hk.exited h] at ht
  exact ⟨hlife, fun h => hlife (hk.dead h)⟩

theorem Task.Coherent.killed {thread : YaThread} (hk : Task.Coherent k)
    (ht : k.thread = some thread) :
    k.sigkill = if thread.state = .dead then 1 else 0 := by
  simpa [ht] using hk.sigkill (hk.alive ht).1

theorem Task.coherent_of_thread {k : Task} {thread : YaThread} (ht : k.thread = some thread)
    (hlife : k.life ≠ .exited) (hstate : k.state ≠ .dead)
    (hq : thread.suspendWait = true → k.pc.InBed) (hsaved : thread.taskState ≠ .dead)
    (hoff : k.pc = .offRq → k.state ≠ .running) (hleave : k.pc.Leaving → k.state = .running)
    (hkill : k.sigkill = if thread.state = .dead then 1 else 0) : k.Coherent := by
  refine ⟨fun h => absurd h hlife, fun h => absurd h hstate, ?_, ?_, hoff, hleave, ?_⟩
  · rintro _ hth hlinked
    cases ht.symm.trans hth
    exact hq hlinked
  · rintro _ _ _ hth
    cases ht.symm.trans hth
    exact hsaved
  · intro _
    simpa [ht] using hkill

theorem LifeOf.coherent (hl : LifeOf k k') (hpc : k.pc = .user) (hk : k.Coherent) :
    k'.Coherent := by
  obtain ⟨hex, hdead, hq, hsaved, hoff, hleave, hkill⟩ := hk
  cases hl with
  | live hlife hlife' =>
    exact ⟨fun h => absurd h hlife', fun h => absurd (hdead h) hlife, hq, hsaved, hoff, hleave,
      fun _ => hkill hlife⟩
  | attach hlife ht =>
    refine ⟨by simp, fun h => absurd (hdead h) hlife, by simp [initThread],
      fun h => absurd hpc h, hoff, hleave, fun _ => ?_⟩
    simpa [ht, initThread] using hkill hlife
  | born => constructor <;> simp [Pc.Leaving]
  | exit hlife =>
    exact ⟨fun _ => rfl, fun _ => rfl, by simp, by simp, hoff, hleave, fun h => absurd rfl h⟩

theorem wake_coherent (hk : Task.Coherent k) : (k.wake .leave).Coherent := by
  obtain ⟨hex, hdead, hq, hsaved, hoff, hleave, hkill⟩ := hk
  unfold Task.wake
  split
  · exact ⟨hex, hdead, hq, hsaved, hoff, hleave, hkill⟩
  · by_cases hpc : k.pc = .offRq
    · simp only [hpc, if_true]
      refine ⟨hex, by simp, fun _ _ _ => trivial, fun _ _ => hsaved ?_ ?_, by simp, by simp, hkill⟩
      · simp [hpc]
      · simp [hpc]
    · simp only [hpc, if_false]
      exact ⟨hex, by simp, hq, hsaved, fun h => absurd h hpc, fun _ => rfl, hkill⟩

@[simp] theorem wake_thread (k : Task) : (k.wake back).thread = k.thread := by
  unfold Task.wake
  split <;> rfl

theorem wake_pc {k : Task} (hpc : (k.wake back).pc ≠ back) : (k.wake back).pc = k.pc := by
  unfold Task.wake at hpc ⊢
  split at hpc
  · rw [if_pos (by assumption)]
  · rename_i hd
    rw [if_neg hd]
    by_cases h : k.pc = .offRq <;> simp_all

theorem WakeQueueStep.pc (hs : WakeQueueStep back p k k') (hpc : k'.pc ≠ back) :
    k'.pc = k.pc := by
  cases hs with
  | unlinked => exact wake_pc hpc
  | kept => rfl

theorem WakeQueueStep.coherent (hs : WakeQueueStep .leave p k k') (hk : Task.Coherent k) :
    k'.Coherent := by
  cases hs with
  | @unlinked thread ht _ hq =>
    have hw := wake_coherent hk
    have htw : (k.wake .leave).thread = some thread := (wake_thread k).trans ht
    have hkill := hw.killed htw
    obtain ⟨hlife, hstate⟩ := hw.alive htw
    have hbed := hk.queued thread ht hq
    refine Task.coherent_of_thread rfl hlife hstate (by simp) ?_ hw.offRq hw.leaving hkill
    exact hk.saved (by rintro hpc; simp [hpc, Pc.InBed] at hbed)
      (by rintro hpc; simp [hpc, Pc.InBed] at hbed) thread ht
  | kept => exact hk

theorem HookStep.job_eq (hs : HookStep jobState .all k k') : k'.job = k.job := by
  cases hs with
  | goToHeaven _ _ => unfold Yasched.goToHeaven; split <;> rfl
  | _ => rfl

theorem HookStep.coherent (hs : HookStep jobState .all k k') (hk : k.Coherent) : k'.Coherent := by
  cases hs with
  | enterPlain hpc ht =>
    obtain ⟨hex, hdead, -, -, -, -, hkill⟩ := hk
    exact ⟨hex, hdead, by simp [ht], by simp [ht], by simp, by simp [Pc.Leaving], hkill⟩
  | enterDead hpc ht hstate => exact absurd hstate (hk.alive ht).2
  | @save thread hpc ht hstate =>
    have hkill := hk.killed ht
    have hq := hk.queued thread ht
    simp only [hpc, Pc.InBed, imp_false, Bool.not_eq_true] at hq
    exact Task.coherent_of_thread rfl (hk.alive ht).1 hstate (by simp [hq]) hstate (by simp)
      (by simp [Pc.Leaving]) hkill
  | @goToBed thread hpc ht =>
    have hkill := hk.killed ht
    have hsaved := hk.saved (by simp [hpc]) (by simp [hpc]) thread ht
    exact Task.coherent_of_thread rfl (hk.alive ht).1 (by simp [Yasched.goToBed])
      (fun _ => trivial) hsaved (by simp) (by simp [Pc.Leaving]) hkill
  | @stayInBed thread hpc ht _ =>
    have hkill := hk.killed ht
    have hsaved := hk.saved (by simp [hpc]) (by simp [hpc]) thread ht
    exact Task.coherent_of_thread ht (hk.alive ht).1 (hk.alive ht).2 (fun _ => trivial) hsaved
      (by simp) (by simp [Pc.Leaving]) hkill
  | @getUp thread hpc ht _ =>
    have hkill := hk.killed ht
    have hsaved := hk.saved (by simp [hpc]) (by simp [hpc]) thread ht
    exact Task.coherent_of_thread ht (hk.alive ht).1 (hk.alive ht).2 (fun _ => trivial) hsaved
      (by simp) (by simp [Pc.Leaving]) hkill
  | @finishWait killed thread hpc ht =>
    have hkill := hk.killed ht
    have hsaved := hk.saved (by simp [hpc]) (by simp [hpc]) thread ht
    exact Task.coherent_of_thread rfl (hk.alive ht).1 (by simp [Yasched.finishWait]) (by simp)
      hsaved (by simp) (by simp [Pc.Leaving]) hkill
  | @restore killed thread hpc ht =>
    have hkill := hk.killed ht
    have hsaved := hk.saved (by simp [hpc]) (by simp [hpc]) thread ht
    have hq := hk.queued thread ht
    simp only [hpc, Pc.InBed, imp_false, Bool.not_eq_true] at hq
    refine Task.coherent_of_thread ht (hk.alive ht).1 hsaved (by simp [hq]) hsaved ?_ ?_
      hkill
    all_goals cases killed <;> simp [Pc.Leaving]
  | @goToHeaven thread hpc ht =>
    have hsaved := hk.saved (by simp [hpc]) (by simp [hpc]) thread ht
    have hq := hk.queued thread ht
    have hkill := hk.killed ht
    simp only [hpc, Pc.InBed, imp_false, Bool.not_eq_true] at hq
    unfold Yasched.goToHeaven
    split <;> rename_i hth
    · exact Task.coherent_of_thread ht (hk.alive ht).1 (hk.alive ht).2 (by simp [hq]) hsaved
        (by simp) (by simp [Pc.Leaving]) hkill
    · rw [if_neg hth] at hkill
      exact Task.coherent_of_thread rfl (hk.alive ht).1 hsaved (by simp [hq]) hsaved
        (by simp) (by simp [Pc.Leaving]) (by simp [hkill])
  | schedule hpc =>
    obtain ⟨hex, hdead, hq, hsaved, -, -, hkill⟩ := hk
    have hsaved := hsaved (by simp [hpc]) (by simp [hpc])
    by_cases hrun : k.state = .running
    · simp only [hrun, if_true, back_all]
      exact ⟨hex, by simp, fun _ _ _ => trivial, fun _ _ => hsaved, by simp, by simp, hkill⟩
    · simp only [hrun, if_false]
      exact ⟨hex, hdead, fun _ _ _ => trivial, fun _ _ => hsaved, fun _ => hrun,
        by simp [Pc.Leaving], hkill⟩
  | leavePlain hpc ht =>
    obtain ⟨hex, hdead, -, -, -, -, hkill⟩ := hk
    exact ⟨hex, hdead, by simp [ht], by simp, by simp, by simp [Pc.Leaving], hkill⟩
  | @leave thread hpc ht =>
    have hkill := hk.killed ht
    have hsaved := hk.saved (by simp [hpc]) (by simp [hpc]) thread ht
    have hrun := hk.leaving (by simp [hpc, Pc.Leaving])
    refine Task.coherent_of_thread ht (hk.alive ht).1 (hk.alive ht).2 (fun hq => ?_) hsaved
      (fun h => ?_) (fun _ => hrun) hkill
    · simp [threadSuspended, hq, Pc.InBed]
    · dsimp only at h; split at h <;> cases h
  | @leaveFinishWait thread hpc ht =>
    have hkill := hk.killed ht
    have hsaved := hk.saved (by simp [hpc]) (by simp [hpc]) thread ht
    exact Task.coherent_of_thread rfl (hk.alive ht).1 (by simp [Yasched.finishWait]) (by simp)
      hsaved (by simp) (fun _ => rfl) hkill
  | @leaveRestore thread hpc ht =>
    have hkill := hk.killed ht
    have hsaved := hk.saved (by simp [hpc]) (by simp [hpc]) thread ht
    have hq := hk.queued thread ht
    simp only [hpc, Pc.InBed, imp_false, Bool.not_eq_true] at hq
    exact Task.coherent_of_thread ht (hk.alive ht).1 hsaved (by simp [hq]) hsaved (by simp)
      (by simp [Pc.Leaving]) hkill

theorem TaskStep.coherent (hs : TaskStep s t e k) (hk : (s.tasks t).Coherent) : k.Coherent := by
  cases hs with
  | same => exact hk
  | life _ _ hpc hl => exact hl.coherent hpc hk
  | setState hpc hd hex =>
    obtain ⟨hexit, -, hq, hsaved, -, -, hkill⟩ := hk
    exact ⟨hexit, hex, hq, hsaved, by simp [hpc], by simp [hpc, Pc.Leaving], hkill⟩
  | call hpc =>
    obtain ⟨hexit, hdead, hq, -, -, -, hkill⟩ := hk
    simp only [hpc, Pc.InBed, imp_false] at hq
    exact ⟨hexit, hdead, fun thread ht hl => absurd hl (hq thread ht), by simp, by simp,
      by simp [Pc.Leaving], hkill⟩
  | hook hs => exact hs.coherent hk
  | wake => exact wake_coherent hk
  | wakeQueue => exact (wakeQueue_cases _).coherent hk

structure Coherent (s : Sys) : Prop where
  linked : Linked s
  task : ∀ t, (s.tasks t).Coherent
  listed : ∀ p ∈ s.jobList, p < s.njobs
  waking : ∀ p, s.waking = some p → p < s.njobs ∧ s.jobState p ≠ .suspended

theorem searchJobById_mem (hf : searchJobById s jid = some p) : p ∈ s.jobList :=
  List.mem_of_find?_eq_some hf

theorem write_waking (op : JobOp) (state : YaJobState) (hw : (op.write state).2 = true) :
    (op.write state).1 ≠ .suspended := by
  cases op <;> cases state <;> simp [JobOp.write] at hw ⊢

theorem step_coherent (hc : Coherent s) (hs : step .all s e = some s') : Coherent s' := by
  obtain ⟨hl, hk, hlisted, hwaking⟩ := hc
  have hl' := step_linked hl hs
  have hk' := fun t => (step_task hl hs t).coherent (hk t)
  cases step_ctrl hs with
  | same hsame =>
    obtain ⟨hn, hstate, hw, hmem⟩ := hsame
    refine ⟨hl', hk', fun p hp => ?_, fun p hp => ?_⟩
    · rcases hmem p hp with hp | hp
      · exact Nat.lt_of_lt_of_le (hlisted p hp) hn
      · exact hp
    · obtain ⟨hlt, hsusp⟩ := hwaking p (hw ▸ hp)
      exact ⟨Nat.lt_of_lt_of_le hlt hn, hstate p hlt ▸ hsusp⟩
  | @write _ _ _ q op hw hz hf =>
    refine ⟨hl', hk', hlisted, fun p hp => ?_⟩
    simp only [writeState] at hp
    split at hp <;> cases hp
    rename_i hdue
    refine ⟨hlisted q (searchJobById_mem hf), ?_⟩
    simpa [writeState, Sys.jobState] using write_waking op _ hdue
  | wakeUp hw =>
    refine ⟨hl', hk', ?_, ?_⟩
    · simpa [wakeUp, hw] using hlisted
    · simp [wakeUp, hw]

theorem init_coherent (n : Nat) : Coherent (init n) := by
  refine ⟨init_linked n, fun t => ?_, by simp [init], by simp [init]⟩
  by_cases ht : t < n
  · constructor <;> simp [init, ht, Pc.Leaving]
  · constructor <;> simp [init, ht, Pc.Leaving]

theorem coherent_of_run (hr : Runs.run (step .all) (init n) es = some s) : Coherent s :=
  Runs.invariant (fun _ _ _ hc hs => step_coherent hc hs) (init_coherent n) hr

end Yasched
