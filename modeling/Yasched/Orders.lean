import Yasched.Progress
import Yasched.Tick

/-!
# On whose order

Every thread goes to bed on its way through the enter hook, and the state of
its job decides what becomes of it there. A task is sent `SIGKILL` only if a
control call has killed its job, and is left in bed only if one has suspended
it; a task that is in no job is left alone.
-/

namespace Yasched

def YaJobState.order : YaJobState → JobOp
  | .running => .resume
  | .suspended => .suspend
  | .killed => .kill

/-- The control call reaches job `p`. -/
def Orders (op : JobOp) (p : Nat) (s : Sys) : Event → Prop
  | .control op' zid jid => op' = op ∧ searchZoneById zid ≠ none ∧ searchJobById s jid = some p
  | _ => False

theorem write_order (op : JobOp) (state : YaJobState) :
    (op.write state).1 = state ∨ op = (op.write state).1.order := by
  cases op <;> cases state <;> simp [JobOp.write, YaJobState.order]

-- ---------------------------------------------------------------------------
-- The state of the job
-- ---------------------------------------------------------------------------

theorem LifeStep.made (hs : LifeStep s e s') (hp : p < s'.njobs) :
    p < s.njobs ∨ s'.jobState p = .running := by
  cases hs with
  | newJob =>
    rcases Nat.lt_succ_iff_lt_or_eq.mp hp with hlt | rfl
    · exact .inl hlt
    · exact .inr (by simp [yaInitJob, Sys.jobState])
  | fork | forkFail | exit => exact .inl (by simpa [getThread] using hp)
  | _ => exact .inl hp

theorem step_state (hp : p < s.njobs) (hs : step .all s e = some s') :
    s'.jobState p = s.jobState p ∨ Orders (s'.jobState p).order p s e := by
  cases step_ctrl hs with
  | same hsame _ => exact .inl (hsame.state p hp)
  | @write zid zone jid q op hw hz hf =>
    by_cases hq : p = q
    · subst hq
      have hwrite : (writeState op s p).jobState p = (op.write (s.jobState p)).1 := by
        simp [writeState, Sys.jobState]
      rw [hwrite]
      exact (write_order op (s.jobState p)).imp_right fun horder => ⟨horder, by simp [hz], hf⟩
    · exact .inl (by simp [writeState, Sys.jobState, hq])
  | wakeUp _ => exact .inl (by simp)

/-- A job is in a state that it does not start in if it was before, or if it
has been ordered there. -/
theorem step_ordered {K : Prop} (hx : x ≠ .running)
    (hold : p < s.njobs → s.jobState p = x → K) (hs : step .all s e = some s')
    (hp : p < s'.njobs) (hj : s'.jobState p = x) : K ∨ Orders x.order p s e := by
  have hmade : p < s.njobs := by
    by_cases he : e.OfLife
    · refine ((life_cases he hs).made hp).resolve_right ?_
      rw [hj]
      exact hx
    · exact (step_quiet he hs).njobs ▸ hp
  rcases step_state hmade hs with hsame | horder
  · exact .inl (hold hmade (hsame.symm.trans hj))
  · exact .inr (hj ▸ horder)

-- ---------------------------------------------------------------------------
-- What the hook has read
-- ---------------------------------------------------------------------------

def Pc.HasRead (queued : Bool) (x : YaJobState) : Pc → Prop
  | .finishWait killed | .restore killed => x = .killed ∧ killed = true
  | .goToHeaven => x = .killed
  | .schedule | .offRq | .leave | .leaveFinishWait => x = .suspended ∧ queued = true
  | _ => False

def Task.HasRead (x : YaJobState) (p : Nat) (k : Task) : Prop :=
  ∃ thread, k.thread = some thread ∧ thread.job = p ∧ k.pc.HasRead thread.suspendWait x

theorem Task.HasRead.of_pc {k k' : Task} (h : k'.HasRead x p) (ht : k'.thread = k.thread)
    (hpc : k'.pc = k.pc) : k.HasRead x p := by
  obtain ⟨thread, hth, hp, hread⟩ := h
  exact ⟨thread, ht ▸ hth, hp, hpc ▸ hread⟩

theorem Pc.HasRead.linked {pc : Pc} (h : pc.HasRead false x) : pc.HasRead queued x := by
  cases pc with
  | schedule | offRq | leave | leaveFinishWait => cases h.2
  | _ => exact h

theorem HookStep.hasRead (hs : HookStep jobState .all k k') (hc : k.Coherent)
    (h : k'.HasRead x p) :
    k.HasRead x p ∨ jobState p = x ∧ ∃ thread, k.thread = some thread ∧ thread.job = p := by
  obtain ⟨thread', ht', hp, hread⟩ := h
  cases hs with
  | enterPlain _ hnone | leavePlain _ hnone => cases hnone.symm.trans ht'
  | enterDead _ ht hd => exact absurd hd (hc.alive ht).2
  | save | goToBed | leaveRestore | leaveFinishWait => exact hread.elim
  | stayInBed _ ht hj =>
    cases ht.symm.trans ht'
    obtain ⟨rfl, -⟩ := hread
    exact .inr ⟨hp ▸ hj, thread', ht, hp⟩
  | getUp _ ht _ =>
    cases ht.symm.trans ht'
    obtain ⟨rfl, hkilled⟩ := hread
    exact .inr ⟨hp ▸ of_decide_eq_true hkilled, thread', ht, hp⟩
  | @finishWait killed thread hpc ht =>
    cases ht'
    exact .inl ⟨thread, ht, hp, by simpa [hpc, Pc.HasRead] using hread⟩
  | @restore killed thread hpc ht =>
    cases ht.symm.trans ht'
    have hunlinked := hc.queued thread' ht
    cases killed with
    | true =>
      obtain rfl : x = .killed := hread
      exact .inl ⟨thread', ht, hp, by simp [hpc, Pc.HasRead]⟩
    | false =>
      obtain ⟨rfl, hq⟩ := hread
      simp [hpc, hq, Pc.InBed] at hunlinked
  | @goToHeaven thread hpc ht =>
    obtain ⟨rfl, hq⟩ := hread
    have hunlinked := hc.queued thread ht
    have hsame : thread'.suspendWait = thread.suspendWait := by
      unfold Yasched.goToHeaven at ht'
      split at ht'
      · cases ht.symm.trans ht'
        rfl
      · cases ht'
        rfl
    simp [hpc, hsame ▸ hq, Pc.InBed] at hunlinked
  | schedule hpc =>
    refine .inl ⟨thread', ht', hp, ?_⟩
    dsimp only at hread
    rw [hpc]
    split at hread <;> exact hread
  | leave hpc ht =>
    cases ht.symm.trans ht'
    refine .inl ⟨thread', ht, hp, ?_⟩
    dsimp only at hread
    rw [hpc]
    split at hread
    · exact hread
    · exact hread.elim

theorem wake_hasRead {k : Task} (h : (k.wake .leave).HasRead x p) : k.HasRead x p := by
  obtain ⟨thread, ht, hp, hread⟩ := h
  rw [wake_thread] at ht
  refine ⟨thread, ht, hp, ?_⟩
  by_cases hpc : (k.wake .leave).pc = .leave
  · have hq : x = .suspended ∧ thread.suspendWait = true := by simpa [hpc, Pc.HasRead] using hread
    unfold Task.wake at hpc
    split at hpc
    · simpa [hpc, Pc.HasRead] using hq
    · by_cases hoff : k.pc = .offRq
      · simpa [hoff, Pc.HasRead] using hq
      · have hleave : k.pc = .leave := by simpa [hoff] using hpc
        simpa [hleave, Pc.HasRead] using hq
  · rwa [wake_pc hpc] at hread

theorem WakeQueueStep.hasRead (hs : WakeQueueStep .leave q k k') (h : k'.HasRead x p) :
    k.HasRead x p := by
  cases hs with
  | @unlinked thread ht hq hlinked =>
    obtain ⟨thread', ht', hp, hread⟩ := h
    cases ht'
    exact wake_hasRead ⟨thread, by simp [ht], hp, hread.linked⟩
  | kept => exact h

theorem TaskStep.hasRead (hs : TaskStep s t e k) (hc : (s.tasks t).Coherent)
    (h : k.HasRead x p) : (s.tasks t).HasRead x p ∨
      s.jobState p = x ∧ ∃ thread, (s.tasks t).thread = some thread ∧ thread.job = p := by
  cases hs with
  | same => exact .inl h
  | life _ _ hpc hl =>
    obtain ⟨thread, -, -, hread⟩ := h
    rw [hl.pc_user hpc] at hread
    exact hread.elim
  | setState => exact .inl (h.of_pc rfl rfl)
  | call =>
    obtain ⟨thread, -, -, hread⟩ := h
    exact hread.elim
  | hook hs => exact hs.hasRead hc h
  | wake => exact .inl (wake_hasRead h)
  | wakeQueue _ => exact .inl ((wakeQueue_cases _).hasRead h)

-- ---------------------------------------------------------------------------
-- Whole runs
-- ---------------------------------------------------------------------------

/-- What there is of state `x` of job `p`, if it has not been ordered. -/
structure Ordered (x : YaJobState) (p : Nat) (K : Prop) (s : Sys) : Prop where
  coherent : Coherent s
  job : p < s.njobs → s.jobState p = x → K
  task : ∀ t, (s.tasks t).HasRead x p → K

theorem Ordered.step {K : Prop} (h : Ordered x p K s) (hx : x ≠ .running)
    (hs : step .all s e = some s') : Ordered x p (K ∨ Orders x.order p s e) s' where
  coherent := step_coherent h.coherent hs
  job := step_ordered hx h.job hs
  task t hk := by
    left
    rcases (step_task h.coherent.linked hs t).hasRead (h.coherent.task t) hk with
      hk | ⟨hj, thread, ht, rfl⟩
    · exact h.task t hk
    · have hlinked := h.coherent.linked.task t
      exact h.job (hlinked.job _ (hlinked.thread thread ht)) hj

theorem ordered_of_run (hx : x ≠ .running) (hr : Runs.run (step .all) (init n) es = some s)
    (p : Nat) : Ordered x p (Runs.Occurs (step .all) (Orders x.order p) (init n) es) s := by
  have hstart : Ordered x p False (init n) := by
    refine ⟨init_coherent n, fun hp => absurd hp (Nat.not_lt_zero p), fun t hk => ?_⟩
    obtain ⟨thread, ht, -⟩ := hk
    by_cases hn : t < n <;> simp [init, hn] at ht
  have halways := Runs.invariant_occurs (I := Ordered x p) (R := fun _ _ => True)
    (fun K s e s' h _ hs => h.step hx hs) hstart (Runs.along_of_mem fun _ _ _ => trivial) hr
  rwa [false_or] at halways

/-- What a step has to do with the signals of a task. -/
inductive Signals (k : Task) : Task → Prop
  | fresh : k'.sigkill = 0 → Signals k k'
  | kept : k'.sigkill = k.sigkill → k'.job = k.job → Signals k k'
  | sent : k.pc = .goToHeaven → k.thread = some thread → k'.sigkill = 1 → k'.job = k.job →
      Signals k k'

theorem HookStep.signals (hs : HookStep jobState .all k k') (hc : k.Coherent) : Signals k k' := by
  cases hs with
  | @goToHeaven thread hpc ht =>
    have hsent := hc.killed ht
    unfold Yasched.goToHeaven
    split
    · exact .kept rfl rfl
    · rename_i hd
      exact .sent hpc ht (by simpa [hd] using hsent) rfl
  | _ => exact .kept rfl rfl

theorem TaskStep.signals (hs : TaskStep s t e k) (hc : (s.tasks t).Coherent) :
    Signals (s.tasks t) k := by
  cases hs with
  | same | setState | call => exact .kept rfl rfl
  | life _ _ _ hl =>
    cases hl with
    | live | exit => exact .kept rfl rfl
    | attach hlife ht => exact .fresh (by simpa [ht] using hc.sigkill hlife)
    | born => exact .fresh rfl
  | hook hs => exact hs.signals hc
  | wake => exact .kept (Tick.wake_sigkill _) (wake_sameLife _).job
  | wakeQueue _ =>
    exact .kept (Tick.wakeQueue_sigkill _) (wakeQueue_cases _).sameLife.job

def Task.SentOnce (k : Task) : Prop := k.sigkill = 0 ∨ k.sigkill = 1 ∧ k.job ≠ none

theorem Signals.sentOnce (hs : Signals k k') (hl : k.Linked njobs) (hk : k.SentOnce) :
    k'.SentOnce := by
  cases hs with
  | fresh h => exact .inl h
  | kept hsig hjob =>
    unfold Task.SentOnce
    rwa [hsig, hjob]
  | sent _ ht hsig hjob => exact .inr ⟨hsig, by simp [hjob, hl.thread _ ht]⟩

theorem sentOnce_of_run (hr : Runs.run (step .all) (init n) es = some s) (t : Nat) :
    (s.tasks t).SentOnce := by
  have hinit : Coherent (init n) ∧ ∀ t, ((init n).tasks t).SentOnce := by
    refine ⟨init_coherent n, fun t => .inl ?_⟩
    by_cases hn : t < n <;> simp [init, hn]
  have hboth := Runs.invariant (I := fun s => Coherent s ∧ ∀ t, (s.tasks t).SentOnce)
    (fun s e s' h hs => ⟨step_coherent h.1 hs, fun t =>
      ((step_task h.1.linked hs t).signals (h.1.task t)).sentOnce (h.1.linked.task t) (h.2 t)⟩)
    hinit hr
  exact hboth.2 t

theorem Signals.ordered {K : Prop} (hs : Signals k k') (hl : k.Linked njobs)
    (hread : k.HasRead .killed p → K) (hold : k.sigkill ≠ 0 → k.job = some p → K)
    (hne : k'.sigkill ≠ 0) (hj : k'.job = some p) : K := by
  cases hs with
  | fresh h => exact absurd h hne
  | kept hsig hjob => exact hold (hsig ▸ hne) (hjob ▸ hj)
  | @sent thread _ hpc ht _ hjob =>
    have hp : some thread.job = some p := (hl.thread thread ht).symm.trans (hjob ▸ hj)
    exact hread ⟨thread, ht, Option.some.inj hp, by simp [hpc, Pc.HasRead]⟩

theorem killed_on_order (hr : Runs.run (step .all) (init n) es = some s)
    (hne : (s.tasks t).sigkill ≠ 0) (hj : (s.tasks t).job = some p) :
    Runs.Occurs (step .all) (Orders .kill p) (init n) es := by
  have hstart : Ordered .killed p False (init n) ∧
      ∀ t, ((init n).tasks t).sigkill ≠ 0 → ((init n).tasks t).job = some p → False := by
    refine ⟨?_, fun t hsig _ => ?_⟩
    · simpa [Runs.Occurs] using ordered_of_run (x := .killed) (by decide)
        (show Runs.run (step .all) (init n) [] = some (init n) from rfl) p
    · by_cases hn : t < n <;> simp [init, hn] at hsig
  have hboth := Runs.invariant_occurs (P := Orders .kill p) (R := fun _ _ => True)
    (I := fun K s => Ordered .killed p K s ∧
      ∀ t, (s.tasks t).sigkill ≠ 0 → (s.tasks t).job = some p → K)
    (fun K s e s' h _ hs => ⟨h.1.step (by decide) hs, fun t hsig hjob => .inl <|
      ((step_task h.1.coherent.linked hs t).signals (h.1.coherent.task t)).ordered
        (h.1.coherent.linked.task t) (h.1.task t) (h.2 t) hsig hjob⟩)
    hstart (Runs.along_of_mem fun _ _ _ => trivial) hr
  rw [false_or] at hboth
  exact hboth.2 t hne hj

-- ---------------------------------------------------------------------------
-- Main theorem
-- ---------------------------------------------------------------------------

/-- In every interleaving: `kill_pid` is called twice for no thread and for none
that is not in a job that has been killed, and none is held in bed that is not in
one that has been suspended. -/
theorem only_on_order (hr : Runs.run (step .all) (init n) es = some s) (t : Nat) :
    (s.tasks t).sigkill ≤ 1 ∧
    ((s.tasks t).sigkill ≠ 0 → ∃ p, (s.tasks t).job = some p ∧
      Runs.Occurs (step .all) (Orders .kill p) (init n) es) ∧
    ∀ thread, (s.tasks t).thread = some thread → thread.suspendWait = true →
      (s.tasks t).pc = .schedule ∨ (s.tasks t).pc = .offRq →
        Runs.Occurs (step .all) (Orders .suspend thread.job) (init n) es := by
  refine ⟨?_, fun hne => ?_, fun thread ht hq hpc => ?_⟩
  · rcases sentOnce_of_run hr t with h | h
    · exact h ▸ Nat.zero_le 1
    · exact h.1.le
  · obtain ⟨-, hjob⟩ := (sentOnce_of_run hr t).resolve_left hne
    obtain ⟨p, hp⟩ := Option.ne_none_iff_exists'.mp hjob
    exact ⟨p, hp, killed_on_order hr hne hp⟩
  · refine (ordered_of_run (x := .suspended) (by decide) hr thread.job).task t ?_
    refine ⟨thread, ht, rfl, ?_⟩
    rcases hpc with hpc | hpc <;> simp [hpc, hq, Pc.HasRead]

def killedInBed : List Event :=
  toBed ++ [.control .kill 0 0, .wakeUp [], .hook 0, .call 0, .hook 0, .hook 0, .hook 0, .hook 0,
    .hook 0, .hook 0]

theorem only_on_order_killed : ∃ s, Runs.run (step .all) (init 1) killedInBed = some s ∧
    (s.tasks 0).sigkill = 1 ∧ ∃ p, (s.tasks 0).job = some p ∧
      Runs.Occurs (step .all) (Orders .kill p) (init 1) killedInBed := by
  obtain ⟨s, hr, hsig⟩ : ∃ s, Runs.run (step .all) (init 1) killedInBed = some s ∧
      (s.tasks 0).sigkill = 1 := ⟨_, rfl, rfl⟩
  exact ⟨s, hr, hsig, (only_on_order hr 0).2.1 (by simp [hsig])⟩

end Yasched
