import Yasched.Suspend

/-!
# The state word on a trip through `schedule()`

The enter hook saves `tsk->state`, overwrites it in `go_to_bed` and writes the
saved value back in `get_up`; the leave hook may write it back once more.

Without a wake-up in between the task arrives at `__schedule` with the state
it had (`schedule_transparent`). A wake-up between the save and the last write
back is overwritten (`wakeUp_kept_iff`), and a task that was woken in its bed
by something else than the queue comes back in the state it slept in.
-/

namespace Yasched

/-- A step of a trip of `t` from user code to `__schedule`, in a job that is
not suspended: `t` itself does nothing but go on. -/
structure Trip (t : Nat) (s : Sys) (e : Event) : Prop where
  own : e.target = some t → e = .call t ∨ e = .hook t ∨ e = .wake t
  before : e = .hook t → (s.tasks t).pc ≠ .schedule
  job : (s.tasks t).thread.map (fun thread => s.jobState thread.job) ≠ some .suspended

instance (t : Nat) (s : Sys) (e : Event) : Decidable (Trip t s e) :=
  decidable_of_iff (_ ∧ _ ∧ _) ⟨fun h => ⟨h.1, h.2.1, h.2.2⟩, fun h => ⟨h.1, h.2, h.3⟩⟩

/-- The state that the task will have at `__schedule` satisfies `φ`, if no
wake-up comes. -/
def Task.Carries (φ : TaskState → Prop) (k : Task) : Prop :=
  match k.thread, k.pc with
  | _, .user | _, .enter => φ k.state
  | none, .schedule => φ k.state
  | some thread, .goToBed | some thread, .readJob | some thread, .finishWait _
  | some thread, .restore _ => φ thread.taskState
  | some thread, .goToHeaven => φ (if thread.state = .dead then k.state else thread.taskState)
  | some thread, .schedule => thread.suspendWait = false ∧ φ k.state
  | _, _ => False

/-- The hook will still write the saved state over `tsk->state`. -/
def Task.Overwrites (k : Task) : Prop :=
  match k.thread, k.pc with
  | some _, .goToBed | some _, .readJob | some _, .finishWait _ | some _, .restore _ => True
  | some thread, .goToHeaven => thread.state ≠ .dead
  | _, _ => False

instance (k : Task) : Decidable k.Overwrites := by
  unfold Task.Overwrites
  split <;> infer_instance

theorem Task.Carries.mono {k : Task} (hk : k.Carries φ) (h : ∀ state, φ state → ψ state) :
    k.Carries ψ := by
  obtain ⟨job, thread, state, pc, life, sigkill⟩ := k
  cases thread <;> cases pc <;> simp only [Task.Carries] at hk ⊢
  all_goals first | exact h _ hk | exact ⟨hk.1, h _ hk.2⟩

theorem Task.Carries.state {k : Task} (hk : k.Carries φ) (hpc : k.pc = .schedule) : φ k.state := by
  unfold Task.Carries at hk
  split at hk <;> simp_all

theorem HookStep.carries (hs : HookStep jobState .all k k') (hc : k.Coherent)
    (hj : k.thread.map (fun thread => jobState thread.job) ≠ some .suspended)
    (hpc : k.pc ≠ .schedule) (hk : k.Carries φ) : k'.Carries φ := by
  cases hs with
  | enterPlain hpc ht => simpa [Task.Carries, hpc, ht] using hk
  | enterDead _ ht hd => exact absurd hd (hc.alive ht).2
  | save hpc ht _ => simpa [Task.Carries, hpc, ht] using hk
  | goToBed hpc ht => simpa [Task.Carries, hpc, ht, Yasched.goToBed] using hk
  | stayInBed _ ht hsusp => exact absurd (by simp [ht, hsusp]) hj
  | getUp hpc ht _ => simpa [Task.Carries, hpc, ht] using hk
  | finishWait hpc ht => simpa [Task.Carries, hpc, ht, Yasched.finishWait] using hk
  | @restore killed thread hpc ht =>
    have hq := hc.queued thread ht
    simp only [hpc, Pc.InBed, imp_false, Bool.not_eq_true] at hq
    have hk : φ thread.taskState := by simpa [Task.Carries, hpc, ht] using hk
    cases killed <;> simp [Task.Carries, ht, hq, hk, restoreState]
  | @goToHeaven thread hpc ht =>
    have hq := hc.queued thread ht
    simp only [hpc, Pc.InBed, imp_false, Bool.not_eq_true] at hq
    unfold Yasched.goToHeaven
    split <;> rename_i hd
    · simpa [Task.Carries, hpc, ht, hd, hq] using hk
    · simpa [Task.Carries, hpc, ht, hd, hq] using hk
  | schedule hpc' => exact absurd hpc' hpc
  | leavePlain hpc _ | leave hpc _ | leaveFinishWait hpc _ | leaveRestore hpc _ =>
    simp [Task.Carries, hpc] at hk

theorem Task.Carries.linked {thread : YaThread} {k : Task} (hk : k.Carries φ)
    (ht : k.thread = some thread) (hq : thread.suspendWait = true) (hbed : k.pc.InBed) :
    k.pc = .readJob ∨ ∃ killed, k.pc = .finishWait killed := by
  obtain ⟨job, _, state, pc, life, sigkill⟩ := k
  subst ht
  cases pc <;> simp [Task.Carries, Pc.InBed, hq] at hk hbed ⊢

theorem WakeQueueStep.carries (hs : WakeQueueStep .leave p k k') (hc : Task.Coherent k)
    (hk : k.Carries φ) : k'.Carries φ := by
  cases hs with
  | @unlinked thread ht _ hq =>
    unfold Task.wake
    rw [if_neg (hc.alive ht).2]
    rcases hk.linked ht hq (hc.queued thread ht hq) with h | ⟨killed, h⟩
    · simpa [Task.Carries, h, ht] using hk
    · simpa [Task.Carries, h, ht] using hk
  | kept => exact hk

theorem wake_overwritten {k : Task} (hk : k.Carries φ) (ho : k.Overwrites) :
    (k.wake .leave).Carries φ := by
  obtain ⟨job, thread, state, pc, life, sigkill⟩ := k
  cases thread <;> cases pc <;> simp only [Task.Overwrites] at ho
  all_goals
    unfold Task.wake
    split
    · exact hk
    · simpa [Task.Carries, ho] using hk

theorem wake_kept {k : Task} (hφ : ¬ φ .dead) (hk : k.Carries φ) (ho : ¬ k.Overwrites) :
    (k.wake .leave).Carries (· = .running) := by
  obtain ⟨job, thread, state, pc, life, sigkill⟩ := k
  have hd : state ≠ .dead := by
    rintro rfl
    cases thread <;> cases pc <;> simp_all [Task.Carries, Task.Overwrites]
  unfold Task.wake
  rw [if_neg hd]
  cases thread <;> cases pc <;> simp_all [Task.Carries, Task.Overwrites]

theorem step_carries (hc : Coherent s) (ht : Trip t s e) (hs : step .all s e = some s')
    (hw : e = .wake t → (s.tasks t).Overwrites) (hk : (s.tasks t).Carries φ) :
    (s'.tasks t).Carries φ := by
  have hstep := step_task hc.linked hs t
  generalize s'.tasks t = k at hstep
  cases hstep with
  | same => exact hk
  | life he htarget hpc hl =>
    rcases htarget with htarget | hnew
    · rcases ht.own htarget with rfl | rfl | rfl <;> exact absurd he id
    · cases hl <;> simpa [hnew, Task.Carries] using hk
  | setState => exact absurd (ht.own rfl) (by simp)
  | call hpc => simpa [Task.Carries, hpc] using hk
  | hook hs => exact hs.carries (hc.task t) ht.job (ht.before rfl) hk
  | wake => exact wake_overwritten hk (hw rfl)
  | wakeQueue _ => exact (wakeQueue_cases _).carries (hc.task t) hk

-- ---------------------------------------------------------------------------
-- Which wake-ups are kept
-- ---------------------------------------------------------------------------

/-- A task that is not `TASK_DEAD`, and is `TASK_RUNNING` if a wake-up has
been kept. -/
def Woken (kept : Prop) (state : TaskState) : Prop := state ≠ .dead ∧ (state = .running ↔ kept)

theorem step_woken (hc : Coherent s) (ht : Trip t s e) (hs : step .all s e = some s')
    (hk : (s.tasks t).Carries (Woken kept)) :
    (s'.tasks t).Carries (Woken (kept ∨ e = .wake t ∧ ¬ (s.tasks t).Overwrites)) := by
  by_cases he : e = .wake t ∧ ¬ (s.tasks t).Overwrites
  · obtain ⟨rfl, ho⟩ := he
    cases hs
    have hrun := wake_kept (fun h => h.1 rfl) hk ho
    simp only [Sys.setTask_tasks, Function.update_self]
    refine hrun.mono ?_
    rintro state rfl
    exact ⟨by simp, iff_of_true rfl (.inr ⟨trivial, ho⟩)⟩
  · have hsame : (kept ∨ e = .wake t ∧ ¬ (s.tasks t).Overwrites) = kept := by simp [he]
    rw [hsame]
    refine step_carries hc ht hs (fun h => ?_) hk
    by_contra ho
    exact he ⟨h, ho⟩

/-- On a trip in a job that is not suspended, a task that set a sleeping state
is left on the run queue exactly when one of its wake-ups came outside the
stretch of the hook that ends by writing the saved state back. -/
theorem wakeUp_kept_iff (hr : Runs.run (step .all) (init n) es = some s)
    (hpc : (s.tasks t).pc = .user) (hst : (s.tasks t).state.Sleeping)
    (hf : Runs.run (step .all) s fs = some m) (ht : Runs.Along (step .all) (Trip t) s fs)
    (hm : (m.tasks t).pc = .schedule) (hs : step .all m (.hook t) = some m') :
    (m'.tasks t).pc ≠ .offRq ↔
      Runs.Occurs (step .all) (fun s e => e = .wake t ∧ ¬ (s.tasks t).Overwrites) s fs := by
  have hstart : (s.tasks t).Carries (Woken False) := by
    simp only [Task.Carries, hpc]
    exact ⟨hst.2, by simp [hst.1]⟩
  have hcarries := Runs.invariant_occurs
    (I := fun kept s => Coherent s ∧ (s.tasks t).Carries (Woken kept))
    (fun kept s e s' h ht hs => ⟨step_coherent h.1 hs, step_woken h.1 ht hs h.2⟩)
    ⟨coherent_of_run hr, hstart⟩ ht hf
  rw [false_or] at hcarries
  have hiff := (hcarries.2.state hm).2
  simp only [step, Option.map_eq_some_iff] at hs
  obtain ⟨k, hk, rfl⟩ := hs
  simp only [Task.hook, hm, Option.some.injEq] at hk
  subst hk
  by_cases hrun : (m.tasks t).state = .running
  · simpa [hrun] using hiff.mp hrun
  · simpa [hrun] using fun h => hrun (hiff.mpr h)

def toSleep : List Event :=
  [.execve 0 .running [true, true], .setState 0 .interruptible]

theorem wakeUp_kept_iff_toSleep :
    ∃ s m m', Runs.run (step .all) (init 1) toSleep = some s ∧
      Runs.run (step .all) s (.call 0 :: .wake 0 :: List.replicate 5 (.hook 0)) = some m ∧
      step .all m (.hook 0) = some m' ∧
      ((m'.tasks 0).pc ≠ .offRq ↔
        Runs.Occurs (step .all) (fun s e => e = .wake 0 ∧ ¬ (s.tasks 0).Overwrites) s
          (.call 0 :: .wake 0 :: List.replicate 5 (.hook 0))) :=
  ⟨_, _, _, rfl, rfl, rfl,
    wakeUp_kept_iff (show Runs.run _ (init 1) toSleep = _ from rfl) rfl (by decide) rfl
      (by decide) rfl rfl⟩

/-- A wake-up just after `go_to_bed`, and none after it: the hook restores the
sleeping state and `__schedule` takes the task off the run queue. -/
theorem wakeUp_kept_fails :
    ¬ ∀ n es s t fs m m', Runs.run (step .all) (init n) es = some s →
      (s.tasks t).pc = .user → (s.tasks t).state.Sleeping →
      Runs.run (step .all) s fs = some m → Runs.Along (step .all) (Trip t) s fs →
      (m.tasks t).pc = .schedule → step .all m (.hook t) = some m' →
      Runs.Occurs (step .all) (fun _ e => e = .wake t) s fs → (m'.tasks t).pc ≠ .offRq := by
  intro h
  have hkept := h 1 toSleep _ 0
    [.call 0, .hook 0, .hook 0, .wake 0, .hook 0, .hook 0, .hook 0] _ _ rfl rfl (by decide) rfl
    (by decide) rfl rfl (by decide)
  revert hkept
  decide

-- ---------------------------------------------------------------------------
-- What the caller of schedule() gets back
-- ---------------------------------------------------------------------------

/-- The state that the task will have in user code satisfies `φ`. -/
def Task.Returns (φ : TaskState → Prop) (k : Task) : Prop :=
  match k.thread, k.pc with
  | some thread, .leaveFinishWait | some thread, .leaveRestore => φ thread.taskState
  | _, .user => φ k.state
  | _, _ => False

/-- If `leave_schedule_hook` finds the entry linked, then the task had called
`schedule()` as `TASK_RUNNING`. -/
def Task.LeavesRunning (k : Task) : Prop :=
  ∀ thread, k.thread = some thread → thread.suspendWait = true → thread.taskState = .running

theorem leave_returns {k : Task} (hc : k.Coherent) (hpc : k.pc = .leave)
    (hk : k.hook jobState .all = some k') :
    k'.Returns (fun state => state = .running ↔ k.LeavesRunning) := by
  have hrun := hc.leaving (by simp [hpc, Pc.Leaving])
  have hstep := hook_cases hk
  cases hstep with
  | leavePlain _ ht => simp [Task.Returns, Task.LeavesRunning, ht, hrun]
  | @leave thread _ ht =>
    cases hq : thread.suspendWait <;>
      simp [Task.Returns, Task.LeavesRunning, threadSuspended, ht, hq, hrun]
  | _ => simp_all

theorem HookStep.returns (hs : HookStep jobState .all k k') (hk : k.Returns φ) :
    k'.Returns φ := by
  cases hs with
  | leaveFinishWait hpc ht =>
    simpa [Task.Returns, hpc, ht, Yasched.finishWait] using hk
  | leaveRestore hpc ht => simpa [Task.Returns, hpc, ht, restoreState] using hk
  | enterPlain h _ | enterDead h _ _ | save h _ _ | goToBed h _ | stayInBed h _ _ | getUp h _ _
  | finishWait h _ | restore h _ | goToHeaven h _ | schedule h | leavePlain h _ | leave h _ =>
    simp [Task.Returns, h] at hk

theorem wake_returns {k : Task} (hpc : k.pc ≠ .user) (hk : k.Returns φ) :
    (k.wake .leave).Returns φ := by
  obtain ⟨job, thread, state, pc, life, sigkill⟩ := k
  unfold Task.wake
  split
  · exact hk
  · cases thread <;> cases pc <;> simp_all [Task.Returns]

theorem WakeQueueStep.returns (hs : WakeQueueStep .leave p k k') (hpc : k.pc ≠ .user)
    (hk : k.Returns φ) : k'.Returns φ := by
  have hwake := wake_returns hpc hk
  cases hs with
  | unlinked ht =>
    unfold Task.Returns at hwake ⊢
    rw [wake_thread, ht] at hwake
    have hne : (k.wake .leave).pc ≠ .user := by
      intro hu
      exact hpc ((wake_pc (by simp [hu])).symm.trans hu)
    cases h : (k.wake .leave).pc <;> simp_all
  | kept => exact hk

theorem step_returns (hc : Coherent s) (hs : step .all s e = some s')
    (hpc : (s.tasks t).pc ≠ .user) (hk : (s.tasks t).Returns φ) : (s'.tasks t).Returns φ := by
  have hstep := step_task hc.linked hs t
  generalize s'.tasks t = k at hstep
  cases hstep with
  | same => exact hk
  | life _ _ hu _ => exact absurd hu hpc
  | setState hu => exact absurd hu hpc
  | call hu => exact absurd hu hpc
  | hook hs => exact hs.returns hk
  | wake => exact wake_returns hpc hk
  | wakeQueue _ => exact (wakeQueue_cases _).returns hpc hk

/-- Both halves of the hook. A task without a wake-up inside the enter hook
reaches `__schedule` in the state it came with. A task that comes back is
`TASK_RUNNING` exactly when the queue had let go of it, or it was so when it
called. -/
theorem schedule_transparent (hr : Runs.run (step .all) (init n) es = some s) :
    ((s.tasks t).pc = .enter → ∀ fs m, Runs.run (step .all) s fs = some m →
      Runs.Along (step .all) (fun s e => Trip t s e ∧ e ≠ .wake t) s fs →
      (m.tasks t).pc = .schedule → (m.tasks t).state = (s.tasks t).state) ∧
    ((s.tasks t).pc = .leave → ∀ m fs m', step .all s (.hook t) = some m →
      Runs.run (step .all) m fs = some m' →
      Runs.Along (step .all) (fun s _ => (s.tasks t).pc ≠ .user) m fs →
      (m'.tasks t).pc = .user →
      ((m'.tasks t).state = .running ↔ (s.tasks t).LeavesRunning)) := by
  have hc := coherent_of_run hr
  constructor
  · intro hpc fs m hf ha hm
    have hcarries := Runs.invariant_along
      (I := fun m => Coherent m ∧ (m.tasks t).Carries (· = (s.tasks t).state))
      (fun _ _ _ h ht hs => ⟨step_coherent h.1 hs,
        step_carries h.1 ht.1 hs (fun he => absurd he ht.2) h.2⟩)
      ⟨hc, by simp [Task.Carries, hpc]⟩ ha hf
    exact hcarries.2.state hm
  · intro hpc m fs m' hs hf ha hm
    have hcm := step_coherent hc hs
    simp only [step, Option.map_eq_some_iff] at hs
    obtain ⟨k, hk, rfl⟩ := hs
    have hreturns := Runs.invariant_along
      (I := fun m => Coherent m ∧
        (m.tasks t).Returns (fun state => state = .running ↔ (s.tasks t).LeavesRunning))
      (fun _ _ _ h hne hs => ⟨step_coherent h.1 hs, step_returns h.1 hs hne h.2⟩)
      ⟨hcm, by simpa using leave_returns (hc.task t) hpc hk⟩ ha hf
    simpa [Task.Returns, hm] using hreturns.2

theorem schedule_transparent_toBed :
    (∃ s m, Runs.run (step .all) (init 1) (toSleep ++ [.call 0]) = some s ∧
      Runs.run (step .all) s (List.replicate 5 (.hook 0)) = some m ∧
      (m.tasks 0).state = (s.tasks 0).state) ∧
    ∃ s m m', Runs.run (step .all) (init 1) (toBed ++ [.control .resume 0 0, .wakeUp []]) = some s ∧
      step .all s (.hook 0) = some m ∧ Runs.run (step .all) m [] = some m' ∧
      ((m'.tasks 0).state = .running ↔ (s.tasks 0).LeavesRunning) :=
  ⟨⟨_, _, rfl, rfl, (schedule_transparent
      (show Runs.run _ (init 1) (toSleep ++ [.call 0]) = _ from rfl)).1 rfl
      (List.replicate 5 (.hook 0)) _ rfl (by decide) rfl⟩,
    ⟨_, _, _, rfl, rfl, rfl, (schedule_transparent
      (show Runs.run _ (init 1) (toBed ++ [.control .resume 0 0, .wakeUp []]) = _ from rfl)).2
      rfl _ [] _ rfl rfl (by decide) rfl⟩⟩

/-- Woken in its bed by the event it waits for, the task returns from
`schedule()` as `TASK_INTERRUPTIBLE`. -/
theorem schedule_transparent_fails :
    ¬ ∀ n es s t m fs m', Runs.run (step .all) (init n) es = some s → (s.tasks t).pc = .leave →
      step .all s (.hook t) = some m → Runs.run (step .all) m fs = some m' →
      Runs.Along (step .all) (fun s _ => (s.tasks t).pc ≠ .user) m fs →
      (m'.tasks t).pc = .user → (m'.tasks t).state = .running := by
  intro h
  have hrun := h 1 (toBed ++ [.wake 0]) _ 0 _ [.hook 0, .hook 0] _ rfl rfl rfl rfl (by decide) rfl
  revert hrun
  decide

end Yasched
