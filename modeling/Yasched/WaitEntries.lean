import Yasched.Loading
import Yasched.Trips

/-!
# What is left on the queues of suspended threads

An entry is linked by `go_to_bed` and unlinked in four places: by the two
branches of the enter hook that get up again, by the leave hook, and by the
waker. While both hooks are in, it is linked inside the bed only, whatever the
other hooks do. So a task that exits frees no linked entry; a job that is freed
has an empty queue as long as its count covers its entries.
-/

namespace Yasched

-- ---------------------------------------------------------------------------
-- Beds
-- ---------------------------------------------------------------------------

/-- Outside its bed the entry is not linked. -/
def Task.Rests (k : Task) : Prop :=
  ∀ thread, k.thread = some thread → thread.suspendWait = true → k.pc.InBed

theorem Task.rests_of_thread {k : Task} {thread : YaThread} (ht : k.thread = some thread)
    (h : thread.suspendWait = true → k.pc.InBed) : k.Rests := by
  rintro _ hthread hlinked
  cases ht.symm.trans hthread
  exact h hlinked

theorem Task.rests_threadless {k : Task} (ht : k.thread = none) : k.Rests := by
  intro thread hthread
  cases ht.symm.trans hthread

theorem Task.Rests.life {k k' : Task} (hk : k.Rests) (hpc : k'.pc = k.pc)
    (ht : k'.thread = k.thread ∨ k'.thread = none ∨
      ∃ p junk, k'.thread = some (initThread p junk)) : k'.Rests := by
  obtain ht | ht | ⟨p, junk, ht⟩ := ht
  · intro thread hthread hlinked
    rw [hpc]
    exact hk thread (ht ▸ hthread) hlinked
  · exact rests_threadless ht
  · exact rests_of_thread ht fun hlinked => Bool.noConfusion hlinked

theorem Task.Rests.wake (hk : Task.Rests k) : (k.wake .leave).Rests := by
  intro thread ht hlinked
  rw [wake_thread] at ht
  have hbed := hk thread ht hlinked
  unfold Task.wake
  split
  · exact hbed
  · dsimp only
    split
    · trivial
    · exact hbed

theorem WakeQueueStep.rests (hs : WakeQueueStep .leave p k k') (hk : k.Rests) : k'.Rests := by
  cases hs with
  | unlinked => exact Task.rests_of_thread rfl fun hlinked => Bool.noConfusion hlinked
  | kept => exact hk

theorem HookStep.rests (hs : HookStep jobState h k k') (hleave : h.leaveSchedule = true)
    (hk : k.Rests) : k'.Rests := by
  cases hs with
  | enterPlain _ ht | leavePlain _ ht => exact Task.rests_threadless ht
  | enterDead hpc ht | save hpc ht =>
    exact Task.rests_of_thread rfl fun hlinked => absurd (hk _ ht hlinked) (by simp [hpc, Pc.InBed])
  | goToBed | stayInBed | getUp => exact fun _ _ _ => trivial
  | finishWait | leaveFinishWait =>
    exact Task.rests_of_thread rfl fun hlinked => Bool.noConfusion hlinked
  | restore hpc ht | leaveRestore hpc ht =>
    refine Task.rests_of_thread ht fun hlinked => ?_
    exact absurd (hk _ ht hlinked) (by simp [hpc, Pc.InBed])
  | goToHeaven hpc ht =>
    unfold Yasched.goToHeaven
    split
    · refine Task.rests_of_thread ht fun hlinked => ?_
      exact absurd (hk _ ht hlinked) (by simp [hpc, Pc.InBed])
    · refine Task.rests_of_thread rfl fun hlinked => ?_
      exact absurd (hk _ ht hlinked) (by simp [hpc, Pc.InBed])
  | schedule =>
    intro _ _ _
    dsimp only [Hooks.back]
    rw [if_pos hleave]
    split <;> trivial
  | leave _ ht =>
    refine Task.rests_of_thread ht fun hlinked => ?_
    simp [threadSuspended, hlinked, Pc.InBed]

-- ---------------------------------------------------------------------------
-- Steps
-- ---------------------------------------------------------------------------

theorem rests_setTask (hs : ∀ t, (s.tasks t).Rests) (hk : k.Rests) (t : Nat) :
    ((Sys.setTask s i k).tasks t).Rests := by
  rcases eq_or_ne t i with rfl | hne
  · rw [Sys.setTask_tasks, Function.update_self]
    exact hk
  · rw [Sys.setTask_tasks, Function.update_of_ne hne]
    exact hs t

theorem LifeStep.rests (hs : LifeStep s e s') (hr : ∀ t, (s.tasks t).Rests) (t : Nat) :
    (s'.tasks t).Rests := by
  cases hs with
  | execve => exact hr t
  | newJob =>
    refine rests_setTask hr ?_ t
    exact .life (hr _) rfl (.inr (.inr ⟨_, _, rfl⟩))
  | fork | forkPlain | forkFailPlain | scheduleTail | retry =>
    refine rests_setTask hr ?_ t
    exact .life (hr _) rfl (.inl rfl)
  | forkFail =>
    rw [putThread_tasks]
    refine rests_setTask hr ?_ t
    exact .life (hr _) rfl (.inl rfl)
  | @child i _ _ _ =>
    have hlive : Task.Rests { s.tasks i with life := .live } := .life (hr i) rfl (.inl rfl)
    have hset := rests_setTask (i := i) hr hlive t
    rcases eq_or_ne t s.ntasks with rfl | hne
    · exact Task.rests_threadless (by simp [Sys.addTask])
    · simpa [Sys.addTask, hne] using hset
  | attach =>
    refine rests_setTask hr ?_ t
    exact .life (hr _) rfl (.inr (.inr ⟨_, _, rfl⟩))
  | exit =>
    rw [putThread_tasks]
    refine rests_setTask hr ?_ t
    exact .life (hr _) rfl (.inr (.inl rfl))
  | exitPlain =>
    refine rests_setTask hr ?_ t
    exact .life (hr _) rfl (.inl rfl)

theorem HookedStep.rests (hs : HookedStep h s e s') (hr : ∀ t, (s.tasks t).Rests) (t : Nat) :
    (s'.tasks t).Rests := by
  cases hs with
  | agent _ hs => exact hs.rests hr t
  | execve => exact hr t
  | fork | scheduleTail | exit =>
    refine rests_setTask hr ?_ t
    exact .life (hr _) rfl (.inl rfl)

theorem step_rests (hleave : h.leaveSchedule = true) (hs : step h s e = some s')
    (hr : ∀ t, (s.tasks t).Rests) (t : Nat) : (s'.tasks t).Rests := by
  have hback : h.back = .leave := if_pos hleave
  by_cases he : e.OfLife
  · exact (hooked_cases he hs).rests hr t
  cases e with
  | setState i state =>
    simp only [step, setCurrentState] at hs
    split at hs <;> cases hs
    refine rests_setTask hr ?_ t
    exact .life (hr i) rfl (.inl rfl)
  | call i =>
    simp only [step, callSchedule] at hs
    split at hs <;> cases hs
    rename_i hi
    refine rests_setTask hr (fun thread ht hlinked => ?_) t
    exact absurd (hr i thread ht hlinked) (by simp [hi.2, Pc.InBed])
  | hook i =>
    simp only [step, Option.map_eq_some_iff] at hs
    obtain ⟨k, hk, rfl⟩ := hs
    exact rests_setTask hr ((hook_cases hk).rests hleave (hr i)) t
  | wake i =>
    cases hs
    rw [hback]
    exact rests_setTask hr (.wake (hr i)) t
  | control op zid jid =>
    simp only [step, control] at hs
    split at hs
    · cases hs
    · cases hs
      exact hr t
    · split at hs <;> cases hs <;> exact hr t
  | wakeUp keep =>
    simp only [step, Option.map_eq_some_iff] at hs
    obtain ⟨p, hp, rfl⟩ := hs
    simp only [wakeUp, hp, hback]
    exact (wakeQueue_cases _).rests (hr t)
  | _ => exact absurd trivial he

-- ---------------------------------------------------------------------------
-- What is freed
-- ---------------------------------------------------------------------------

/-- The entry of task `t` is linked on the `suspended_threads` of job `p`. -/
def Sys.Queued (s : Sys) (p t : Nat) : Prop :=
  ∃ thread, (s.tasks t).thread = some thread ∧ thread.job = p ∧ thread.suspendWait = true

namespace Loading

/-- `enter_schedule` and `leave_schedule` are in whenever a task takes a step. -/
def ScheduleHooked (s : Loading) : LoadingEvent → Prop
  | .task _ => s.loader.hooks.enterSchedule = true ∧ s.loader.hooks.leaveSchedule = true
  | .loader _ => True

/-- Between `go_to_bed` and the end of `leave_schedule_hook` at the widest, no
entry is linked. -/
def Rested (s : Loading) : Prop :=
  ∀ t thread, (s.sys.tasks t).thread = some thread → ¬ (s.sys.tasks t).pc.InBed →
    thread.suspendWait = false

/-- An entry that the step takes away is not linked. -/
def FreesUnlinked (s : Loading) (e : LoadingEvent) : Prop :=
  ∀ s', s.step e = some s' → ∀ t thread, (s.sys.tasks t).thread = some thread →
    (s'.sys.tasks t).thread = none → thread.suspendWait = false

/-- A job that the step hands to `ya_del_job` has nobody on its queue. -/
def FreesEmpty (s : Loading) (e : LoadingEvent) : Prop :=
  ∀ s', s.step e = some s' → ∀ p < s'.sys.njobs, (s.sys.jobs p).freed < (s'.sys.jobs p).freed →
    ∀ t, ¬ s'.sys.Queued p t

end Loading

theorem setTask_entry (hpc : (s.tasks i).pc = .user) (k : Task) (t : Nat) :
    ((Sys.setTask s i k).tasks t).thread = (s.tasks t).thread ∨ (s.tasks t).pc = .user := by
  rcases eq_or_ne t i with rfl | hne
  · exact .inr hpc
  · exact .inl (by rw [Sys.setTask_tasks, Function.update_of_ne hne])

theorem LifeStep.entry (hs : LifeStep s e s') (hk : Known s) (t : Nat) :
    (s'.tasks t).thread = (s.tasks t).thread ∨ (s.tasks t).pc = .user := by
  cases hs with
  | execve => exact .inl rfl
  | newJob hr | fork hr | forkPlain hr | exitPlain hr => exact setTask_entry hr.2 _ t
  | forkFail _ hpc =>
    rw [putThread_tasks]
    exact setTask_entry hpc _ t
  | exit hr =>
    rw [putThread_tasks]
    exact setTask_entry hr.2 _ t
  | forkFailPlain _ hpc | scheduleTail _ hpc | attach _ hpc | retry _ hpc =>
    exact setTask_entry hpc _ t
  | @child i _ _ hpc =>
    rcases eq_or_ne t s.ntasks with rfl | hne
    · exact .inl (by simp [Sys.addTask, hk.unborn])
    · have hset := setTask_entry hpc { s.tasks i with life := .live } t
      simpa [Sys.addTask, hne] using hset

theorem HookedStep.entry (hs : HookedStep h s e s') (hk : Known s) (t : Nat) :
    (s'.tasks t).thread = (s.tasks t).thread ∨ (s.tasks t).pc = .user := by
  cases hs with
  | agent _ hs => exact hs.entry hk t
  | execve => exact .inl rfl
  | fork _ hr | exit _ hr => exact setTask_entry hr.2 _ t
  | scheduleTail _ _ hpc => exact setTask_entry hpc _ t

theorem step_gone {thread : YaThread} (hk : Known s) (hs : step h s e = some s')
    (ht : (s.tasks t).thread = some thread) (hgone : (s'.tasks t).thread = none) :
    (s.tasks t).pc = .user := by
  by_cases he : e.OfLife
  · rcases (hooked_cases he hs).entry hk t with hsame | hpc
    · rw [hsame, ht] at hgone
      cases hgone
    · exact hpc
  · have hsame := ((step_quiet he hs).tasks t).thread
    rw [ht, hgone] at hsame
    cases hsame

theorem not_queued (hk : Known s) (hp : attached s p = 0) (t : Nat) : ¬ s.Queued p t := by
  rintro ⟨thread, ht, rfl, -⟩
  have hborn : t < s.ntasks := by
    refine Nat.lt_of_not_le fun hle => ?_
    rw [hk.unborn t hle] at ht
    cases ht
  have hnone := Finset.filter_eq_empty_iff.mp (Finset.card_eq_zero.mp hp)
  exact hnone (Finset.mem_range.mpr hborn) (by rw [ht, Option.map_some])

-- ---------------------------------------------------------------------------
-- Children while all hooks are in
-- ---------------------------------------------------------------------------

/-- The fork of every child that waits for its start went through
`get_thread`. -/
def BornCounted (c : Nat → Bool) (s : Sys) : Prop :=
  ∀ t, (s.tasks t).life = .born → (s.tasks t).job ≠ none → c t = true

theorem BornCounted.setTask (hb : BornCounted c s) (hk : k.life ≠ .born) :
    BornCounted c (s.setTask t k) := by
  intro i hborn hjob
  rcases eq_or_ne i t with rfl | hne
  · rw [Sys.setTask_tasks, Function.update_self] at hborn
    exact absurd hborn hk
  · rw [Sys.setTask_tasks, Function.update_of_ne hne] at hborn hjob
    exact hb i hborn hjob

theorem LifeStep.bornCounted (hs : LifeStep s e s') (hl : Linked s) (hb : BornCounted c s) :
    BornCounted (countedAfter c s e) s' := by
  cases hs with
  | execve => exact hb
  | newJob hr =>
    refine hb.setTask ?_
    simp [hr.1]
  | fork | forkPlain | forkFailPlain | attach | exitPlain => exact hb.setTask (by simp)
  | forkFail | exit =>
    intro i hborn hjob
    rw [putThread_tasks] at hborn hjob
    exact hb.setTask (by simp) i hborn hjob
  | scheduleTail | retry =>
    refine hb.setTask ?_
    dsimp only
    split <;> simp
  | @child t o hf hpc =>
    intro i hborn hjob
    rcases eq_or_ne i s.ntasks with rfl | hne
    · obtain ⟨p, hp⟩ := Option.ne_none_iff_exists'.mp hjob
      have hforking : o = (s.tasks t).job := (hl.task t).forking o hf
      simp only [Sys.addTask, Sys.setTask_ntasks, Function.update_self] at hp
      simp [countedAfter, hf, hforking, hp, Life.counted]
    · have hset := hb.setTask (t := t) (k := { s.tasks t with life := .live }) (by simp) i
      simp only [Sys.addTask, Sys.setTask_ntasks, Function.update_of_ne hne] at hborn hjob
      simpa [countedAfter, hne] using hset hborn hjob

theorem step_bornCounted (hl : Linked s) (hb : BornCounted c s) (hs : step .all s e = some s') :
    BornCounted (countedAfter c s e) s' := by
  by_cases he : e.OfLife
  · exact (life_cases he hs).bornCounted hl hb
  · have hq := step_quiet he hs
    have hsame : countedAfter c s e = c := by
      cases e with
      | child t => exact absurd trivial he
      | _ => rfl
    intro t hborn hjob
    rw [hsame]
    exact hb t ((hq.tasks t).life ▸ hborn) ((hq.tasks t).job ▸ hjob)

namespace Loading

def AllHooked (s : Loading) : LoadingEvent → Prop
  | .task _ => s.loader.hooks = .all
  | .loader _ => True

structure CountingInv (s : Loading) : Prop where
  linked : Linked s.sys
  born : BornCounted s.counted s.sys

theorem step_countingInv (hi : CountingInv s) (hw : s.AllHooked e) (hs : s.step e = some s') :
    s'.CountingInv := by
  cases e with
  | loader e =>
    simp only [Loading.step, Option.map_eq_some_iff] at hs
    obtain ⟨loader, -, rfl⟩ := hs
    exact ⟨hi.linked, hi.born⟩
  | task e =>
    simp only [Loading.step, Option.map_eq_some_iff] at hs
    obtain ⟨sys, hsys, rfl⟩ := hs
    have hall : s.loader.hooks = .all := hw
    rw [hall] at hsys
    exact ⟨step_linked hi.linked hsys, step_bornCounted hi.linked hi.born hsys⟩

theorem startsCounted_of_allHooked (n : Nat) (ha : Runs.Along step AllHooked (init n) es) :
    Runs.Along step StartsCounted (init n) es := by
  refine Runs.along_of_along (I := CountingInv) (fun s e hi hw => ?_)
    (fun _ _ _ hi hw hs => step_countingInv hi hw.1 hs) ⟨init_linked n, fun t hborn => ?_⟩
    ha.enabled
  · obtain ⟨hall, s', hs⟩ := hw
    cases e with
    | loader e => trivial
    | task e =>
      simp only [Loading.step, Option.map_eq_some_iff] at hs
      obtain ⟨sys, hsys, rfl⟩ := hs
      cases e with
      | scheduleTail t =>
        intro _ hjob
        simp only [Yasched.step, scheduleTailAgent] at hsys
        split at hsys <;> cases hsys
        rename_i hborn
        exact hi.born t hborn.1 hjob
      | _ => trivial
  · simp only [init, Yasched.init] at hborn
    split at hborn <;> cases hborn

end Loading

-- ---------------------------------------------------------------------------
-- Main theorem
-- ---------------------------------------------------------------------------

namespace Loading

structure BedInv (s : Loading) : Prop where
  known : Known s.sys
  rests : ∀ t, (s.sys.tasks t).Rests

theorem init_bedInv (n : Nat) : (init n).BedInv := by
  refine ⟨init_known n, fun t => Task.rests_threadless ?_⟩
  simp only [init, Yasched.init]
  split <;> rfl

theorem step_bedInv (hi : BedInv s) (hw : s.ScheduleHooked e) (hs : s.step e = some s') :
    s'.BedInv := by
  cases e with
  | loader e =>
    simp only [Loading.step, Option.map_eq_some_iff] at hs
    obtain ⟨loader, -, rfl⟩ := hs
    exact ⟨hi.known, hi.rests⟩
  | task e =>
    simp only [Loading.step, Option.map_eq_some_iff] at hs
    obtain ⟨sys, hsys, rfl⟩ := hs
    exact ⟨step_known hi.known hsys, step_rests hw.2 hsys hi.rests⟩

theorem BedInv.rested (hi : BedInv s) : s.Rested := by
  intro t thread ht hup
  cases hlinked : thread.suspendWait with
  | false => rfl
  | true => exact absurd (hi.rests t thread ht hlinked) hup

theorem BedInv.freesUnlinked (hi : BedInv s) : s.FreesUnlinked e := by
  intro s' hs t thread ht hgone
  cases e with
  | loader e =>
    simp only [Loading.step, Option.map_eq_some_iff] at hs
    obtain ⟨loader, -, rfl⟩ := hs
    cases ht.symm.trans hgone
  | task e =>
    simp only [Loading.step, Option.map_eq_some_iff] at hs
    obtain ⟨sys, hsys, rfl⟩ := hs
    have huser := step_gone hi.known hsys ht hgone
    exact hi.rested t thread ht (by simp [huser, Pc.InBed])

theorem Inv.freesEmpty (hi : Loading.Inv s) (hw : s.StartsCounted e) : s.FreesEmpty e := by
  intro s' hs p hp hfreed t
  have hinv (m) (hm : s.step e = some m) := Loading.step_inv hi hw hm
  have hzero := Loading.freesDetached (fun m hm => (hinv m hm).covers.covered) s' hs p hp hfreed
  exact not_queued (hinv s' hs).known hzero t

end Loading

/-- While both schedule hooks are in, an entry is linked inside the bed only, and
no linked entry is freed; and if every child that gets its entry was counted, as
it is while all hooks are in, no job is freed with somebody on its queue. -/
theorem waitEntries_end (n : Nat)
    (hin : Runs.Along Loading.step Loading.ScheduleHooked (Loading.init n) es) :
    Runs.Always Loading.step Loading.Rested (Loading.init n) es ∧
      Runs.Along Loading.step Loading.FreesUnlinked (Loading.init n) es ∧
      (Runs.Along Loading.step Loading.StartsCounted (Loading.init n) es →
        Runs.Along Loading.step Loading.FreesEmpty (Loading.init n) es) := by
  have hstep (s e s') (hi : Loading.BedInv s) (hw : s.ScheduleHooked e)
      (hs : s.step e = some s') : s'.BedInv := Loading.step_bedInv hi hw hs
  refine ⟨?_, ?_, fun hcounted => ?_⟩
  · exact Runs.always_of_along (fun _ hi => hi.rested) hstep (Loading.init_bedInv n) hin
  · exact Runs.along_of_along (fun _ _ hi _ => hi.freesUnlinked) hstep (Loading.init_bedInv n) hin
  · exact Runs.along_of_along (fun _ _ hi hw => hi.freesEmpty hw)
      (fun _ _ _ hi hw hs => Loading.step_inv hi hw hs) (Loading.init_inv n) hcounted

instance (s : Loading) (e : LoadingEvent) : Decidable (s.ScheduleHooked e) := by
  unfold Loading.ScheduleHooked
  split <;> infer_instance

def suspendedAndGone : List LoadingEvent :=
  loadAll ++ ([.execve 0 .running [true, true], .fork 0, .child 0, .scheduleTail 1,
    .tryThread 1 .running true, .control .suspend 0 0, .call 1, .hook 1, .hook 1, .hook 1, .hook 1,
    .exit 0, .control .resume 0 0, .wakeUp [], .hook 1, .exit 1] : List Event).map .task

theorem waitEntries_end_suspended :
    Runs.Always Loading.step Loading.Rested (Loading.init 1) suspendedAndGone ∧
      Runs.Along Loading.step Loading.FreesUnlinked (Loading.init 1) suspendedAndGone ∧
      (Runs.Along Loading.step Loading.StartsCounted (Loading.init 1) suspendedAndGone →
        Runs.Along Loading.step Loading.FreesEmpty (Loading.init 1) suspendedAndGone) :=
  waitEntries_end 1 (by decide)

/-- The fork hook is out when a task of a job forks. The child is in bed when
its parent exits. -/
def childInBed : List LoadingEvent :=
  loadAll ++ [.task (.execve 0 .running [true, true]), .loader .unload, .loader .restore] ++
    ([.fork 0, .child 0, .scheduleTail 1, .tryThread 1 .running true, .control .suspend 0 0,
      .call 1, .hook 1, .hook 1, .hook 1, .hook 1] : List Event).map .task

theorem waitEntries_end_fails :
    ¬ ∀ n es, Runs.Along Loading.step Loading.ScheduleHooked (Loading.init n) es →
      Runs.Always Loading.step Loading.Rested (Loading.init n) es ∧
        Runs.Along Loading.step Loading.FreesUnlinked (Loading.init n) es ∧
        Runs.Along Loading.step Loading.FreesEmpty (Loading.init n) es := by
  intro h
  have hempty := (h 1 (childInBed ++ [.task (.exit 0)]) (by decide)).2.2
  have hrun : ((Runs.run Loading.step (Loading.init 1) childInBed).bind fun m =>
      (Loading.step m (.task (.exit 0))).map fun s =>
        decide ((m.sys.jobs 0).freed < (s.sys.jobs 0).freed ∧ 0 < s.sys.njobs ∧
          (s.sys.tasks 1).thread = some { job := 0, taskState := .running, suspendWait := true })) =
      some true := by
    decide
  obtain ⟨m, hm, hrest⟩ := Option.bind_eq_some_iff.mp hrun
  obtain ⟨s, hs, hfacts⟩ := Option.map_eq_some_iff.mp hrest
  obtain ⟨hfreed, hjob, hlinked⟩ := of_decide_eq_true hfacts
  exact hempty.last hm hs s hs 0 hjob hfreed 1 ⟨_, hlinked, rfl, rfl⟩

end Yasched
