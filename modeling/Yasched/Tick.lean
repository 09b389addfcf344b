import Yasched.Kill

/-!
# The timer interrupt

`sat_interrupt_agent` runs behind the kernel's own handler and marks a task of
a suspended or killed job, so that the task goes through `schedule()` before it
is back in user mode. Here the system runs with that mark and with the mode
that each task is in.

A tick in user mode takes effect: no instruction of a suspended thread
(`suspended_by_tick`), and none of a killed one before its `SIGKILL`
(`killed_by_tick`). A tick inside the hook may be lost, since `__schedule`
clears the mark whatever the hook has read.
-/

namespace Yasched.Tick

-- ---------------------------------------------------------------------------
-- timer.c
-- ---------------------------------------------------------------------------

/-- What the agent does behind the handler, for the current task `t`. -/
def satInterruptAgent (s : Sys) (t : Nat) (needResched : Nat → Bool) : Nat → Bool :=
  match (s.tasks t).job with
  | none => needResched
  | some p =>
    if s.jobState p = .suspended ∨ s.jobState p = .killed then Function.update needResched t true
    else needResched

-- ---------------------------------------------------------------------------
-- Modes
-- ---------------------------------------------------------------------------

/-- `kernel` is whether a task is in the kernel, by a system call or by an
interrupt; `needResched` is `TIF_NEED_RESCHED`. -/
structure Ticked where
  sys : Sys
  kernel : Nat → Bool
  needResched : Nat → Bool

/-- An instruction in user mode, the ways into the kernel and back, and a mark
that comes from elsewhere. `resched` is whether the kernel's handler of the
tick leaves one. -/
inductive TickEvent
  | sys (e : Event)
  | user (t : Nat)
  | syscall (t : Nat)
  | ret (t : Nat)
  | tick (t : Nat) (resched : Bool)
  | mark (t : Nat)
  deriving DecidableEq, Repr

/-- The task whose code an event of the system is. -/
def current : Event → Option Nat
  | .wake _ => none
  | e => e.target

def cleared (x : Ticked) : Event → Nat → Bool
  | .hook t =>
    if (x.sys.tasks t).pc = .schedule then Function.update x.needResched t false
    else x.needResched
  | _ => x.needResched

def tickStep (x : Ticked) : TickEvent → Option Ticked
  | .sys e =>
    if (current e).all x.kernel then
      (step .all x.sys e).map fun s => { x with sys := s, needResched := cleared x e }
    else none
  | .user t => if x.kernel t = false then some x else none
  | .syscall t =>
    if x.kernel t = false then some { x with kernel := Function.update x.kernel t true } else none
  -- the way back to user mode goes through schedule() as long as there is a mark
  | .ret t =>
    if x.kernel t ∧ (x.sys.tasks t).Ready ∧ x.needResched t = false then
      some { x with kernel := Function.update x.kernel t false }
    else none
  | .tick t resched =>
    if (x.sys.tasks t).life ≠ .unborn ∧ (x.sys.tasks t).pc ≠ .offRq then
      let needResched := Function.update x.needResched t (x.needResched t || resched)
      some { x with
        kernel := Function.update x.kernel t true
        needResched := satInterruptAgent x.sys t needResched }
    else none
  | .mark t => some { x with needResched := Function.update x.needResched t true }

/-- `n` tasks in user mode. A child will begin in the kernel. -/
def start (n : Nat) : Ticked where
  sys := init n
  kernel t := decide (n ≤ t)
  needResched _ := false

-- ---------------------------------------------------------------------------
-- What a step can do
-- ---------------------------------------------------------------------------

inductive TickStep (x : Ticked) : TickEvent → Ticked → Prop
  | sys : (∀ t, current e = some t → x.kernel t = true) → step .all x.sys e = some s →
      TickStep x (.sys e) { x with sys := s, needResched := cleared x e }
  | user : x.kernel t = false → TickStep x (.user t) x
  | syscall : x.kernel t = false →
      TickStep x (.syscall t) { x with kernel := Function.update x.kernel t true }
  | ret : x.kernel t = true → (x.sys.tasks t).Ready → x.needResched t = false →
      TickStep x (.ret t) { x with kernel := Function.update x.kernel t false }
  | tick : (x.sys.tasks t).pc ≠ .offRq → TickStep x (.tick t resched) { x with
      kernel := Function.update x.kernel t true
      needResched := satInterruptAgent x.sys t
        (Function.update x.needResched t (x.needResched t || resched)) }
  | mark : TickStep x (.mark t) { x with needResched := Function.update x.needResched t true }

theorem tick_cases (hs : tickStep x e = some x') : TickStep x e x' := by
  cases e with
  | sys e =>
    simp only [tickStep] at hs
    split at hs
    · rename_i hkernel
      obtain ⟨s, hstep, rfl⟩ := Option.map_eq_some_iff.mp hs
      refine .sys (fun t ht => ?_) hstep
      simpa [ht] using hkernel
    · cases hs
  | user t =>
    simp only [tickStep] at hs
    split at hs <;> cases hs
    exact .user (by assumption)
  | syscall t =>
    simp only [tickStep] at hs
    split at hs <;> cases hs
    exact .syscall (by assumption)
  | ret t =>
    simp only [tickStep] at hs
    split at hs <;> cases hs
    rename_i h
    exact .ret h.1 h.2.1 h.2.2
  | tick t resched =>
    simp only [tickStep] at hs
    split at hs <;> cases hs
    rename_i h
    exact .tick h.2
  | mark t =>
    cases hs
    exact .mark

theorem satInterruptAgent_keeps (h : needResched t = true) :
    satInterruptAgent s i needResched t = true := by
  unfold satInterruptAgent
  cases (s.tasks i).job with
  | none => exact h
  | some p =>
    dsimp only
    split
    · by_cases hi : t = i
      · subst hi; simp
      · simpa [hi] using h
    · exact h

theorem satInterruptAgent_marks (hjob : (s.tasks t).job = some p)
    (hp : s.jobState p = .suspended ∨ s.jobState p = .killed) :
    satInterruptAgent s t needResched t = true := by
  simp [satInterruptAgent, hjob, hp]

section

variable {x x' : Ticked} {e : TickEvent} {t : Nat}

theorem TickStep.kernel (hs : TickStep x e x') (hk : x.kernel t = true) (hne : e ≠ .ret t) :
    x'.kernel t = true := by
  cases hs with
  | sys | user | mark => exact hk
  | @syscall i _ | @tick i _ _ =>
    by_cases hi : t = i
    · subst hi; simp
    · simpa [hi] using hk
  | @ret i =>
    have hi : t ≠ i := fun h => hne (by rw [h])
    simpa [hi] using hk

theorem TickStep.marked (hs : TickStep x e x') (hn : x.needResched t = true)
    (hpc : (x.sys.tasks t).pc ≠ .schedule) : x'.needResched t = true := by
  cases hs with
  | @sys e s _ _ =>
    cases e with
    | hook i =>
      simp only [cleared]
      split
      · rename_i hi
        have hne : t ≠ i := by
          rintro rfl
          exact hpc hi
        simpa [hne] using hn
      · exact hn
    | _ => exact hn
  | user | syscall | ret => exact hn
  | @tick i resched =>
    refine satInterruptAgent_keeps ?_
    by_cases hi : t = i
    · subst hi; simp [hn]
    · simpa [hi] using hn
  | @mark i =>
    by_cases hi : t = i
    · subst hi; simp
    · simpa [hi] using hn

theorem TickStep.sys_eq (hs : TickStep x e x') :
    x'.sys = x.sys ∨ ∃ e', e = .sys e' ∧ step .all x.sys e' = some x'.sys := by
  cases hs with
  | sys _ hstep => exact .inr ⟨_, rfl, hstep⟩
  | user | syscall | ret | tick | mark => exact .inl rfl

end

-- ---------------------------------------------------------------------------
-- User mode
-- ---------------------------------------------------------------------------

theorem wake_ready (hk : Task.Ready k) : (k.wake .leave).Ready := by
  obtain ⟨hlife, hpc⟩ := hk
  unfold Task.wake
  split
  · exact ⟨hlife, hpc⟩
  · exact ⟨hlife, by simp [hpc]⟩

theorem wakeQueue_ready (hk : Task.Ready k) : (k.wakeQueue .leave p keep).Ready := by
  unfold Task.wakeQueue
  split
  · split
    · exact wake_ready hk
    · exact hk
  · exact hk

theorem step_ready (hl : Linked s) (hs : step .all s e = some s') (he : current e ≠ some t)
    (hk : (s.tasks t).Ready) : (s'.tasks t).Ready := by
  have hstep := step_task hl hs t
  generalize s'.tasks t = k at hstep
  cases hstep with
  | same => exact hk
  | life hlife htarget _ _ =>
    rcases htarget with htarget | hunborn
    · cases e <;> first | exact absurd htarget he | exact absurd hlife id
    · rw [hunborn] at hk
      cases hk.1
  | setState | call | hook => exact absurd rfl he
  | wake => exact wake_ready hk
  | wakeQueue _ => exact wakeQueue_ready hk

structure UserMode (x : Ticked) : Prop where
  coherent : Coherent x.sys
  ready : ∀ t, x.kernel t = false → (x.sys.tasks t).Ready

theorem start_userMode (n : Nat) : UserMode (start n) := by
  refine ⟨init_coherent n, fun t ht => ?_⟩
  have hlt : t < n := by simpa [start] using ht
  simp [start, init, hlt, Task.Ready]

theorem TickStep.userMode (hs : TickStep x e x') (hx : UserMode x) : UserMode x' := by
  cases hs with
  | @sys e s hown hstep =>
    refine ⟨step_coherent hx.coherent hstep, fun t ht => ?_⟩
    refine step_ready hx.coherent.linked hstep (fun htarget => ?_) (hx.ready t ht)
    exact Bool.noConfusion (ht.symm.trans (hown t htarget))
  | user | mark => exact ⟨hx.coherent, hx.ready⟩
  | @syscall i _ | @tick i _ _ =>
    refine ⟨hx.coherent, fun t ht => ?_⟩
    by_cases hi : t = i
    · subst hi; simp at ht
    · exact hx.ready t (by simpa [hi] using ht)
  | @ret i _ hready _ =>
    refine ⟨hx.coherent, fun t ht => ?_⟩
    by_cases hi : t = i
    · subst hi; exact hready
    · exact hx.ready t (by simpa [hi] using ht)

theorem userMode_of_run (hr : Runs.run tickStep (start n) es = some x) : UserMode x :=
  Runs.invariant (fun _ _ _ hx hs => (tick_cases hs).userMode hx) (start_userMode n) hr

-- ---------------------------------------------------------------------------
-- From the tick to the bed
-- ---------------------------------------------------------------------------

/-- A thread of the job in the kernel that has not gone to bed yet. -/
structure Due (p : Nat) (k : Task) : Prop where
  job : ∃ thread, k.thread = some thread ∧ thread.job = p
  pc : k.pc = .user ∨ k.pc = .enter ∨ k.pc = .goToBed

inductive DueStep (p : Nat) (k : Task) : Prop
  | due : Due p k → DueStep p k
  | bed : (∃ thread, k.thread = some thread ∧ thread.job = p) → k.pc = .readJob →
      k.state = .interruptible → DueStep p k
  | exited : k.life = .exited → DueStep p k

theorem hookStep_due (hs : HookStep jobState .all k k') (hc : k.Coherent) (hk : Due p k) :
    DueStep p k' := by
  obtain ⟨⟨thread, ht, rfl⟩, hpc⟩ := hk
  cases hs with
  | enterPlain _ hnone => exact absurd (ht.symm.trans hnone) (Option.some_ne_none thread)
  | enterDead _ ht' hd => exact absurd hd (hc.alive ht').2
  | save _ ht' _ =>
    cases ht.symm.trans ht'
    exact .due ⟨⟨_, rfl, rfl⟩, .inr (.inr rfl)⟩
  | goToBed _ ht' =>
    cases ht.symm.trans ht'
    exact .bed ⟨_, rfl, rfl⟩ rfl rfl
  | stayInBed h | getUp h | finishWait h | restore h | goToHeaven h | schedule h | leavePlain h
  | leave h | leaveFinishWait h | leaveRestore h => simp [h] at hpc

theorem wake_due (hk : Due p k) : Due p (k.wake .leave) := by
  obtain ⟨⟨thread, ht, rfl⟩, hpc⟩ := hk
  refine ⟨⟨thread, by rw [wake_thread, ht], rfl⟩, ?_⟩
  unfold Task.wake
  split
  · exact hpc
  · rcases hpc with h | h | h <;> simp [h]

theorem step_due (hc : Coherent s) (hs : step .all s e = some s') (hk : Due p (s.tasks t)) :
    DueStep p (s'.tasks t) := by
  obtain ⟨thread, ht, hp⟩ := hk.job
  have hstep := step_task hc.linked hs t
  generalize s'.tasks t = k at hstep
  cases hstep with
  | same => exact .due hk
  | life _ _ hpc hl =>
    cases hl with
    | live => exact .due ⟨⟨thread, ht, hp⟩, .inl hpc⟩
    | attach _ hnone => exact absurd (ht.symm.trans hnone) (Option.some_ne_none thread)
    | born h => simp [h] at ht
    | exit => exact .exited rfl
  | setState hpc => exact .due ⟨⟨thread, ht, hp⟩, .inl hpc⟩
  | call => exact .due ⟨⟨thread, ht, hp⟩, .inr (.inl rfl)⟩
  | hook hs => exact hookStep_due hs (hc.task t) hk
  | wake => exact .due (wake_due hk)
  | @wakeQueue q keep _ =>
    have hwoken : WakeQueueStep .leave q (s.tasks t) ((s.tasks t).wakeQueue .leave q (t ∈ keep)) :=
      wakeQueue_cases _
    generalize (s.tasks t).wakeQueue .leave q (t ∈ keep) = k at hwoken
    cases hwoken with
    | kept => exact .due hk
    | unlinked ht' _ hqueued =>
      -- an entry is linked in its bed only
      have hbed := (hc.task t).queued _ ht' hqueued
      rcases hk.pc with h | h | h <;> simp [h, Pc.InBed] at hbed

theorem hookStep_life (hs : HookStep jobState .all k k') : k'.life = k.life := by
  cases hs with
  | goToHeaven _ _ =>
    unfold goToHeaven
    split <;> rfl
  | _ => rfl

theorem step_exited (hc : Coherent s) (hs : step .all s e = some s')
    (hk : (s.tasks t).life = .exited) : (s'.tasks t).life = .exited := by
  have hstep := step_task hc.linked hs t
  generalize s'.tasks t = k at hstep
  cases hstep with
  | same | setState | call => exact hk
  | life _ _ _ hl =>
    cases hl with
    | live h | attach h => exact absurd hk h
    | born h => simp [h] at hk
    | exit => rfl
  | hook hs => exact (hookStep_life hs).trans hk
  | wake => exact (wake_sameLife _).life.trans hk
  | wakeQueue _ => exact (wakeQueue_cases _).sameLife.life.trans hk

-- ---------------------------------------------------------------------------
-- Suspended threads
-- ---------------------------------------------------------------------------

/-- In the kernel, and not to be back before the bed: on the way to it with the
mark, or in it, or on the way out of life. -/
structure Detained (p t : Nat) (x : Ticked) : Prop where
  coherent : Coherent x.sys
  kernel : x.kernel t = true
  stage : (x.sys.tasks t).life = .exited ∨ (x.sys.tasks t).Asleep p ∨
    (Due p (x.sys.tasks t) ∧ x.needResched t = true)

theorem Detained.not_ret (hx : Detained p t x) : tickStep x (.ret t) = none := by
  cases hs : tickStep x (.ret t) with
  | none => rfl
  | some x' =>
    cases tick_cases hs with
    | ret _ hready hmark =>
      rcases hx.stage with hexited | ⟨-, -, hpc⟩ | ⟨-, hmarked⟩
      · cases hexited.symm.trans hready.1
      · rcases hpc with h | h | h <;> cases h.symm.trans hready.2
      · cases hmarked.symm.trans hmark

theorem Detained.step (hx : Detained p t x) (hs : tickStep x e = some x')
    (hj : x.sys.jobState p = .suspended) (hw : e ≠ .sys (.wake t)) : Detained p t x' := by
  have hne : e ≠ .ret t := by
    rintro rfl
    cases hx.not_ret.symm.trans hs
  have hstep := tick_cases hs
  have hkernel := hstep.kernel hx.kernel hne
  rcases hstep.sys_eq with hsame | ⟨e', rfl, hsys⟩
  · refine ⟨hsame ▸ hx.coherent, hkernel, ?_⟩
    rw [hsame]
    refine hx.stage.imp_right (.imp_right fun ⟨hdue, hmark⟩ => ⟨hdue, ?_⟩)
    refine hstep.marked hmark fun hpc => ?_
    rcases hdue.pc with h | h | h <;> cases h.symm.trans hpc
  · refine ⟨step_coherent hx.coherent hsys, hkernel, ?_⟩
    rcases hx.stage with hexited | hasleep | ⟨hdue, hmark⟩
    · exact .inl (step_exited hx.coherent hsys hexited)
    · have hne' : e' ≠ .wake t := fun h => hw (congrArg _ h)
      exact .inr (.inl (step_asleep hx.coherent hsys hne' hj hasleep))
    · cases step_due hx.coherent hsys hdue with
      | due hdue' =>
        refine .inr (.inr ⟨hdue', hstep.marked hmark fun hpc => ?_⟩)
        rcases hdue.pc with h | h | h <;> cases h.symm.trans hpc
      | bed hjob hpc hstate => exact .inr (.inl ⟨hjob, by rw [hstate]; decide, .inl hpc⟩)
      | exited h => exact .inl h

/-- The tick in user mode of a thread whose job is to be off the CPU. -/
theorem tick_due (hx : UserMode x) (huser : x.kernel t = false)
    (ht : (x.sys.tasks t).thread = some thread)
    (hj : x.sys.jobState thread.job = .suspended ∨ x.sys.jobState thread.job = .killed)
    (hs : tickStep x (.tick t resched) = some x') :
    x'.sys = x.sys ∧ x'.kernel t = true ∧ x'.needResched t = true ∧
      Due thread.job (x'.sys.tasks t) := by
  have hjob := (hx.coherent.linked.task t).thread thread ht
  cases tick_cases hs with
  | tick =>
    refine ⟨rfl, Function.update_self .., satInterruptAgent_marks hjob hj, ⟨thread, ht, rfl⟩, ?_⟩
    exact .inl (hx.ready t huser).2

theorem tick_detains (hx : UserMode x) (huser : x.kernel t = false)
    (ht : (x.sys.tasks t).thread = some thread)
    (hj : Runs.Always tickStep (fun x => x.sys.jobState thread.job = .suspended) x
      (.tick t resched :: fs))
    (hw : Runs.Along tickStep (fun _ e => e ≠ .sys (.wake t)) x (.tick t resched :: fs)) :
    Runs.Along tickStep (fun _ e => e ≠ .user t) x (.tick t resched :: fs) := by
  intro x' hs
  refine ⟨nofun, ?_⟩
  obtain ⟨hsys, hkernel, hmark, hdue⟩ := tick_due hx huser ht (.inl hj.first) hs
  have hdetained : Detained thread.job t x' :=
    ⟨hsys ▸ hx.coherent, hkernel, .inr (.inr ⟨hdue, hmark⟩)⟩
  have halong := ((hj.2 x' hs).along.and (hw x' hs).2).enabled
  refine Runs.along_of_along (I := Detained thread.job t) ?_
    (fun x e x' hx h hs => hx.step hs h.1.1 h.1.2) hdetained halong
  rintro x e hx ⟨-, x', hs⟩ rfl
  cases tick_cases hs with
  | user h => cases h.symm.trans hx.kernel

/-- A suspended thread that the tick finds in user mode executes no further
instruction there, as long as the job stays suspended and nothing else wakes
the thread. -/
theorem suspended_by_tick (hr : Runs.run tickStep (start n) es = some x)
    (huser : x.kernel t = false) (ht : (x.sys.tasks t).thread = some thread)
    (hj : Runs.Always tickStep (fun x => x.sys.jobState thread.job = .suspended) x
      (.tick t resched :: fs))
    (hw : Runs.Along tickStep (fun _ e => e ≠ .sys (.wake t)) x (.tick t resched :: fs)) :
    Runs.Along tickStep (fun _ e => e ≠ .user t) x (.tick t resched :: fs) :=
  tick_detains (userMode_of_run hr) huser ht hj hw

def admitted : List TickEvent :=
  [.syscall 0, .sys (.execve 0 .running [true, true]), .ret 0]

def tripped : List TickEvent := .sys (.call 0) :: List.replicate 4 (.sys (.hook 0))

theorem suspended_by_tick_trip :
    ∃ x, Runs.run tickStep (start 1) (admitted ++ [.sys (.control .suspend 0 0)]) = some x ∧
      Runs.Along tickStep (fun _ e => e ≠ .user 0) x (.tick 0 false :: tripped) := by
  refine ⟨_, rfl, suspended_by_tick (show Runs.run tickStep (start 1)
    (admitted ++ [.sys (.control .suspend 0 0)]) = some _ from rfl) rfl rfl ?_ ?_⟩
  · decide
  · decide

/-- The tick comes between the read of the job's state and `__schedule`, and
the thread is back in user mode without a mark. -/
example : ∃ x, Runs.run tickStep (start 1) (admitted ++ [.syscall 0,
      .sys (.call 0), .sys (.hook 0), .sys (.hook 0), .sys (.hook 0), .sys (.hook 0),
      .sys (.hook 0), .sys (.control .suspend 0 0), .tick 0 false, .sys (.hook 0), .sys (.hook 0),
      .ret 0, .user 0]) = some x ∧ x.sys.jobState 0 = .suspended ∧ x.needResched 0 = false :=
  ⟨_, rfl, rfl, rfl⟩

-- ---------------------------------------------------------------------------
-- Killed threads
-- ---------------------------------------------------------------------------

/-- A thread that reads, or has read, that its job is killed. -/
structure Dying (p : Nat) (k : Task) : Prop where
  job : ∃ thread, k.thread = some thread ∧ thread.job = p
  pc : k.pc = .readJob ∨ k.pc = .finishWait true ∨ k.pc = .restore true ∨ k.pc = .goToHeaven

theorem hookStep_dying (hs : HookStep jobState .all k k') (hc : k.Coherent)
    (hj : jobState p = .killed) (hk : Dying p k) : Dying p k' ∨ 1 ≤ k'.sigkill := by
  obtain ⟨⟨thread, ht, rfl⟩, hpc⟩ := hk
  cases hs with
  | stayInBed _ ht' hsusp =>
    cases ht.symm.trans ht'
    cases hj.symm.trans hsusp
  | getUp _ ht' _ =>
    cases ht.symm.trans ht'
    exact .inl ⟨⟨thread, ht, rfl⟩, .inr (.inl (by simp [hj]))⟩
  | @finishWait killed _ h ht' =>
    cases ht.symm.trans ht'
    have hkilled : killed = true := by simpa [h] using hpc
    exact .inl ⟨⟨_, rfl, rfl⟩, .inr (.inr (.inl (by rw [hkilled])))⟩
  | @restore killed _ h ht' =>
    have hkilled : killed = true := by simpa [h] using hpc
    exact .inl ⟨⟨thread, ht, rfl⟩, .inr (.inr (.inr (by simp [hkilled])))⟩
  | goToHeaven _ ht' =>
    cases ht.symm.trans ht'
    refine .inr ?_
    have hkill := hc.killed ht
    unfold goToHeaven
    split
    · rename_i hd
      simp [hkill, hd]
    · simp
  | enterPlain h | enterDead h | save h | goToBed h | schedule h | leavePlain h | leave h
  | leaveFinishWait h | leaveRestore h => simp [h] at hpc

theorem wake_dying (hk : Dying p k) : Dying p (k.wake .leave) := by
  obtain ⟨⟨thread, ht, rfl⟩, hpc⟩ := hk
  refine ⟨⟨thread, by rw [wake_thread, ht], rfl⟩, ?_⟩
  unfold Task.wake
  split
  · exact hpc
  · rcases hpc with h | h | h | h <;> simp [h]

theorem wakeQueueStep_dying (hs : WakeQueueStep .leave q k k') (hk : Dying p k) :
    Dying p k' := by
  cases hs with
  | kept => exact hk
  | unlinked ht _ _ =>
    obtain ⟨⟨thread, ht', rfl⟩, hpc⟩ := wake_dying hk
    rw [wake_thread] at ht'
    cases ht.symm.trans ht'
    exact ⟨⟨_, rfl, rfl⟩, hpc⟩

theorem step_dying (hc : Coherent s) (hs : step .all s e = some s')
    (hj : s.jobState p = .killed) (hk : Dying p (s.tasks t)) :
    Dying p (s'.tasks t) ∨ 1 ≤ (s'.tasks t).sigkill := by
  have hnu : (s.tasks t).pc ≠ .user := by rcases hk.pc with h | h | h | h <;> simp [h]
  have hstep := step_task hc.linked hs t
  generalize s'.tasks t = k at hstep
  cases hstep with
  | same => exact .inl hk
  | life _ _ hu _ => exact absurd hu hnu
  | setState hu => exact absurd hu hnu
  | call hu => exact absurd hu hnu
  | hook hs => exact hookStep_dying hs (hc.task t) hj hk
  | wake => exact .inl (wake_dying hk)
  | wakeQueue _ => exact .inl (wakeQueueStep_dying (wakeQueue_cases _) hk)

theorem hookStep_sigkill (hs : HookStep jobState .all k k') : k.sigkill ≤ k'.sigkill := by
  cases hs with
  | goToHeaven _ _ =>
    unfold goToHeaven
    split
    · exact Nat.le_refl _
    · exact Nat.le_succ _
  | _ => exact Nat.le_refl _

theorem wake_sigkill (k : Task) : (k.wake back).sigkill = k.sigkill := by
  unfold Task.wake
  split <;> rfl

theorem wakeQueue_sigkill (k : Task) : (k.wakeQueue back p keep).sigkill = k.sigkill := by
  unfold Task.wakeQueue
  split
  · split
    · exact wake_sigkill k
    · rfl
  · rfl

theorem step_sigkill (hc : Coherent s) (hs : step .all s e = some s') (t : Nat) :
    (s.tasks t).sigkill ≤ (s'.tasks t).sigkill := by
  have hstep := step_task hc.linked hs t
  generalize s'.tasks t = k at hstep
  cases hstep with
  | same | setState | call => exact Nat.le_refl _
  | life _ _ _ hl =>
    cases hl with
    | live | attach | exit => exact Nat.le_refl _
    | born h => simp [h]
  | hook hs => exact hookStep_sigkill hs
  | wake => exact Nat.le_of_eq (wake_sigkill _).symm
  | wakeQueue _ => exact Nat.le_of_eq (wakeQueue_sigkill _).symm

/-- In the kernel, and not to be back before it has been sent `SIGKILL`. -/
structure Doomed (p t : Nat) (x : Ticked) : Prop where
  userMode : UserMode x
  stage : 1 ≤ (x.sys.tasks t).sigkill ∨ x.kernel t = true ∧ ((x.sys.tasks t).life = .exited ∨
    Dying p (x.sys.tasks t) ∨ (Due p (x.sys.tasks t) ∧ x.needResched t = true))

theorem Doomed.step (hx : Doomed p t x) (hs : tickStep x e = some x')
    (hj : x.sys.jobState p = .killed) : Doomed p t x' := by
  have hstep := tick_cases hs
  have hc := hx.userMode.coherent
  refine ⟨hstep.userMode hx.userMode, ?_⟩
  rcases hx.stage with hsent | ⟨hkernel, hstage⟩
  · left
    rcases hstep.sys_eq with hsame | ⟨e', -, hsys⟩
    · rwa [hsame]
    · exact Nat.le_trans hsent (step_sigkill hc hsys t)
  have hne : e ≠ .ret t := by
    rintro rfl
    cases hstep with
    | ret _ hready hmark =>
      rcases hstage with hexited | ⟨-, hpc⟩ | ⟨-, hmarked⟩
      · cases hexited.symm.trans hready.1
      · rcases hpc with h | h | h | h <;> cases h.symm.trans hready.2
      · cases hmarked.symm.trans hmark
  have hkernel' := hstep.kernel hkernel hne
  rcases hstep.sys_eq with hsame | ⟨e', -, hsys⟩
  · refine .inr ⟨hkernel', ?_⟩
    rw [hsame]
    refine hstage.imp_right (.imp_right fun ⟨hdue, hmark⟩ => ⟨hdue, ?_⟩)
    refine hstep.marked hmark fun hpc => ?_
    rcases hdue.pc with h | h | h <;> cases h.symm.trans hpc
  · rcases hstage with hexited | hdying | ⟨hdue, hmark⟩
    · exact .inr ⟨hkernel', .inl (step_exited hc hsys hexited)⟩
    · rcases step_dying hc hsys hj hdying with hdying' | hsent
      · exact .inr ⟨hkernel', .inr (.inl hdying')⟩
      · exact .inl hsent
    · refine .inr ⟨hkernel', ?_⟩
      cases step_due hc hsys hdue with
      | due hdue' =>
        refine .inr (.inr ⟨hdue', hstep.marked hmark fun hpc => ?_⟩)
        rcases hdue.pc with h | h | h <;> cases h.symm.trans hpc
      | bed hjob hpc _ => exact .inr (.inl ⟨hjob, .inl hpc⟩)
      | exited h => exact .inl h

/-- A killed thread that the tick finds in user mode has been sent its one
`SIGKILL` when it is back there, whatever wakes it, as long as the job stays
killed. -/
theorem killed_by_tick (hr : Runs.run tickStep (start n) es = some x)
    (huser : x.kernel t = false) (ht : (x.sys.tasks t).thread = some thread)
    (hj : Runs.Always tickStep (fun x => x.sys.jobState thread.job = .killed) x
      (.tick t resched :: fs)) :
    Runs.Along tickStep (fun x e => e = .user t → (x.sys.tasks t).sigkill = 1) x
      (.tick t resched :: fs) := by
  have hx := userMode_of_run hr
  intro x' hs
  refine ⟨nofun, ?_⟩
  obtain ⟨hsys, hkernel, hmark, hdue⟩ := tick_due hx huser ht (.inr hj.first) hs
  have hdoomed : Doomed thread.job t x' :=
    ⟨(tick_cases hs).userMode hx, .inr ⟨hkernel, .inr (.inr ⟨hdue, hmark⟩)⟩⟩
  refine Runs.along_of_along (I := Doomed thread.job t) ?_
    (fun x e x' hx h hs => hx.step hs h.1) hdoomed (hj.2 x' hs).along.enabled
  rintro x e hx ⟨-, x', hs⟩ rfl
  cases tick_cases hs with
  | user h =>
    rcases hx.stage with hsent | ⟨hkernel, -⟩
    · have hready := hx.userMode.ready t h
      have hkill := (hx.userMode.coherent.task t).sigkill (by rw [hready.1]; decide)
      split at hkill <;> omega
    · cases h.symm.trans hkernel

theorem killed_by_tick_trip :
    ∃ x, Runs.run tickStep (start 1) (admitted ++ [.sys (.control .kill 0 0)]) = some x ∧
      Runs.Along tickStep (fun x e => e = .user 0 → (x.sys.tasks 0).sigkill = 1) x
        (.tick 0 false :: tripped ++ [.sys (.hook 0), .sys (.hook 0), .sys (.hook 0),
          .sys (.hook 0), .ret 0, .user 0]) := by
  refine ⟨_, rfl, killed_by_tick (show Runs.run tickStep (start 1)
    (admitted ++ [.sys (.control .kill 0 0)]) = some _ from rfl) rfl rfl ?_⟩
  decide

end Yasched.Tick
