import Yasched.Session
import Yasched.Zone

/-!
# What `yasched_exit` leaves behind

Whatever is linked or has an entry in procfs belongs to an object that is
allocated; and objects are released by the exit hook, which `remove_inception`
takes out second. So nothing is left of a session that had no object any more
by then.
-/

namespace Yasched

-- ---------------------------------------------------------------------------
-- Objects
-- ---------------------------------------------------------------------------

/-- The numbers of the jobs, the zone's list, and whose entries there are. -/
structure Orderly (s : Sys) : Prop where
  known : Known s
  numbered : Numbered s
  entered : ∀ t, (s.tasks t).Entered

theorem quiet_numbered (he : ¬e.OfLife) (hn : Numbered s) (hs : step h s e = some s') :
    Numbered s' := by
  cases e with
  | setState t state =>
    simp only [step, setCurrentState] at hs
    split at hs <;> cases hs
    exact hn.congr rfl rfl rfl fun _ => ⟨rfl, rfl⟩
  | call t =>
    simp only [step, callSchedule] at hs
    split at hs <;> cases hs
    exact hn.congr rfl rfl rfl fun _ => ⟨rfl, rfl⟩
  | hook t =>
    simp only [step, Option.map_eq_some_iff] at hs
    obtain ⟨k, -, rfl⟩ := hs
    exact hn.congr rfl rfl rfl fun _ => ⟨rfl, rfl⟩
  | wake t =>
    cases hs
    exact hn.congr rfl rfl rfl fun _ => ⟨rfl, rfl⟩
  | control op zid jid =>
    simp only [step, control] at hs
    split at hs
    · cases hs
    · cases hs; exact hn
    · split at hs <;> cases hs
      · exact hn
      · rename_i p hp
        refine hn.congr rfl rfl rfl fun q => ?_
        rcases eq_or_ne q p with rfl | hne
        · simp [writeState]
        · simp [writeState, hne]
  | wakeUp keep =>
    simp only [step, Option.map_eq_some_iff] at hs
    obtain ⟨_, -, rfl⟩ := hs
    exact hn.congr wakeUp_njobs wakeUp_jobList wakeUp_maxJid fun _ => by simp
  | _ => exact absurd trivial he

theorem putThread_numbered (hn : Numbered s) : Numbered (putThread s p) := by
  have hcount (n : Int) : Numbered (s.setJob p { s.jobs p with aliveProc := n }) := by
    refine hn.congr rfl rfl rfl fun q => ?_
    rcases eq_or_ne q p with rfl | hne
    · simp
    · simp [hne]
  unfold putThread
  dsimp only
  split
  · exact (hcount _).delJob
  · exact hcount _

theorem HookedStep.numbered (hs : HookedStep h s e s') (hn : Numbered s) : Numbered s' := by
  have hset (t : Nat) (k : Task) : Numbered (s.setTask t k) :=
    hn.congr rfl rfl rfl fun _ => ⟨rfl, rfl⟩
  cases hs with
  | agent _ hs =>
    cases hs with
    | execve => exact hn
    | newJob => exact hn.newJob
    | @fork t p =>
      refine hn.congr rfl rfl rfl fun q => ?_
      rcases eq_or_ne q p with rfl | hne
      · simp [getThread]
      · simp [getThread, hne]
    | child => exact hn.congr rfl rfl rfl fun _ => ⟨rfl, rfl⟩
    | forkFail | exit => exact putThread_numbered (hset ..)
    | forkPlain | forkFailPlain | scheduleTail | attach | retry | exitPlain => exact hset ..
  | execve => exact hn
  | fork | scheduleTail | exit => exact hset ..

theorem HookedStep.entered (hs : HookedStep h s e s') (hk : ∀ t, (s.tasks t).Entered) :
    ∀ t, (s'.tasks t).Entered := by
  cases hs with
  | agent _ hs => exact hs.entered hk
  | execve => exact hk
  | @fork t | @exit t | @scheduleTail t =>
    exact entered_update hk ((hk t).going rfl rfl (by simp [Life.Starting]))

theorem step_orderly (ho : Orderly s) (hs : step h s e = some s') : Orderly s' := by
  have hknown := step_known ho.known hs
  by_cases he : e.OfLife
  · have hstep := hooked_cases he hs
    exact ⟨hknown, hstep.numbered ho.numbered, hstep.entered ho.entered⟩
  · exact ⟨hknown, quiet_numbered he ho.numbered hs,
      fun t => ((step_quiet he hs).tasks t).entered (ho.entered t)⟩

theorem init_orderly (n : Nat) : Orderly (init n) :=
  ⟨init_known n, init_numbered n, init_entered n⟩

theorem putThread_live (hgrew : (s.jobs p).freed < ((putThread s p).jobs p).freed) :
    (putThread s p).Live q ↔ s.Live q ∧ q ≠ p := by
  unfold Sys.Live
  rw [putThread_njobs]
  rcases eq_or_ne q p with rfl | hne
  · have hfreed : ((putThread s q).jobs q).freed ≠ 0 := Nat.ne_of_gt (Nat.zero_lt_of_lt hgrew)
    simp [hfreed]
  · simp [putThread_jobs, hne]

theorem putThread_live_kept (hkept : ¬(s.jobs p).freed < ((putThread s p).jobs p).freed) :
    (putThread s p).Live q ↔ s.Live q := by
  unfold Sys.Live
  rw [putThread_njobs]
  rcases eq_or_ne q p with rfl | hne
  · rw [putThread_jobs] at hkept ⊢
    simp only [Function.update_self] at hkept ⊢
    split at hkept
    · exact absurd (Nat.lt_succ_self _) hkept
    · rename_i hne
      simp [hne]
  · simp [putThread_jobs, hne]

-- ---------------------------------------------------------------------------
-- Entries
-- ---------------------------------------------------------------------------

namespace Session

def jobOf (s : Session) (t : Nat) : Option Nat := (s.sys.tasks t).thread.map YaThread.job

/-- The zone has its entry until `exit_sched`. -/
def held (s : Session) : Owner → Option DirEntry
  | .zone => if s.pc = .exitSched then some s.mod.zoneDir else none
  | .job p => if s.sys.Live p then some (s.dirs p) else none
  | .thread t => (s.jobOf t).map fun _ => s.files t

def parent (s : Session) : Owner → Option Path
  | .zone => s.mod.rootdir
  | .job _ => s.mod.zoneDir.entry
  | .thread t => (s.jobOf t).bind fun p => (s.dirs p).entry

/-- What there was before, and the root directory until `fini_procfs`. -/
def base (proc₀ : Finset Path) (s : Session) : Finset Path :=
  if s.pc = .exitSched ∨ s.pc = .finiProcfs then insert [.yasched] proc₀ else proc₀

def InPlace (proc₀ : Finset Path) (s : Session) : Prop :=
  Placed (s.base proc₀) s.parent s.held s.mod.proc

theorem held_thread {s s' : Session} (hpc : s'.pc = s.pc) (hzone : s'.mod.zoneDir = s.mod.zoneDir)
    (hlive : ∀ q, s'.sys.Live q ↔ s.sys.Live q) (hdirs : s'.dirs = s.dirs)
    (hother : ∀ i, i ≠ t → s'.jobOf i = s.jobOf i ∧ s'.files i = s.files i)
    (hthread : s'.held (.thread t) = o) : s'.held = Function.update s.held (.thread t) o := by
  refine Function.eq_update_iff.mpr ⟨hthread, fun other hne => ?_⟩
  cases other with
  | zone => simp only [held, hpc, hzone]
  | job q => simp only [held, hlive, hdirs]
  | thread i =>
    have hi : i ≠ t := by simpa using hne
    simp only [held, hother i hi]

theorem held_job {s s' : Session} (hpc : s'.pc = s.pc) (hzone : s'.mod.zoneDir = s.mod.zoneDir)
    (hjobs : ∀ t, s'.jobOf t = s.jobOf t) (hfiles : s'.files = s.files)
    (hother : ∀ q, q ≠ p → (s'.sys.Live q ↔ s.sys.Live q) ∧ s'.dirs q = s.dirs q)
    (hjob : s'.held (.job p) = o) : s'.held = Function.update s.held (.job p) o := by
  refine Function.eq_update_iff.mpr ⟨hjob, fun other hne => ?_⟩
  cases other with
  | zone => simp only [held, hpc, hzone]
  | thread t => simp only [held, hjobs, hfiles]
  | job q =>
    have hq : q ≠ p := by simpa using hne
    simp only [held, hother q hq]

namespace InPlace

variable {s : Session} {sys : Sys}

theorem same (h : s.InPlace proc₀) (hlive : ∀ p, sys.Live p ↔ s.sys.Live p)
    (hthread : ∀ t, (sys.tasks t).thread.map YaThread.job = s.jobOf t) :
    { s with sys }.InPlace proc₀ := by
  refine Placed.congr h ?_ ?_
  · funext owner
    cases owner with
    | zone => rfl
    | job p => simp only [held, hlive]
    | thread t => simp only [held, jobOf, hthread]
  · intro owner _ _
    cases owner with
    | zone | job => rfl
    | thread t => simp only [parent, jobOf, hthread]

theorem addThread (h : s.InPlace proc₀) (hnone : s.jobOf t = none)
    (hlive : ∀ q, sys.Live q ↔ s.sys.Live q)
    (hnew : (sys.tasks t).thread.map YaThread.job = some p)
    (hother : ∀ i, i ≠ t → (sys.tasks i).thread.map YaThread.job = s.jobOf i) :
    ({ s with sys }.addThreadEntry t p answers).InPlace proc₀ := by
  have hheld : ({ s with sys }.addThreadEntry t p answers).held = Function.update s.held (.thread t)
      (some (addThreadProcfsEntry answers.fileFails answers.pid (s.dirs p) s.mod.proc).dir) := by
    refine held_thread rfl rfl hlive rfl (fun i hi => ?_) ?_
    · exact ⟨hother i hi, Function.update_of_ne hi ..⟩
    · simp [held, jobOf, addThreadEntry, hnew]
  unfold InPlace
  rw [hheld]
  refine Placed.add h (by simp [held, hnone]) ?_ ?_
  · intro other old hold
    cases other with
    | zone | job => rfl
    | thread i =>
      have hi : i ≠ t := by
        rintro rfl
        simp [held, hnone] at hold
      simp only [parent, jobOf, addThreadEntry, hother i hi]
  · have hparent : ({ s with sys }.addThreadEntry t p answers).parent (.thread t) =
        (s.dirs p).entry := by
      simp [parent, jobOf, addThreadEntry, hnew]
    rw [hparent]
    exact addEntry_makes

theorem addJob (h : s.InPlace proc₀) (hfresh : ¬s.sys.Live p) (hnone : ∀ t, s.jobOf t ≠ some p)
    (hlive : ∀ q, sys.Live q ↔ s.sys.Live q ∨ q = p)
    (hthread : ∀ t, (sys.tasks t).thread.map YaThread.job = s.jobOf t) :
    ({ s with sys }.addJobEntry p answers).InPlace proc₀ := by
  have hheld : ({ s with sys }.addJobEntry p answers).held = Function.update s.held (.job p)
      (some (addJobProcfsEntry answers.dirFails (sys.jobs p).id s.mod.zoneDir
        { answers.junk with written := false } s.mod.proc).dir) := by
    refine held_job rfl rfl hthread rfl (fun q hq => ?_) ?_
    · exact ⟨by simp [addJobEntry, hlive, hq], Function.update_of_ne hq ..⟩
    · simp [held, addJobEntry, hlive]
  unfold InPlace
  rw [hheld]
  refine Placed.add h (by simp [held, hfresh]) ?_ (addJobProcfsEntry_makes rfl)
  intro other old _
  cases other with
  | zone | job => rfl
  | thread t =>
    show ((sys.tasks t).thread.map YaThread.job).bind _ = (s.jobOf t).bind _
    rw [hthread]
    cases hj : s.jobOf t with
    | none => rfl
    | some q =>
      have hq : q ≠ p := fun he => hnone t (he ▸ hj)
      exact congrArg DirEntry.entry (Function.update_of_ne hq ..)

theorem delThread (h : s.InPlace proc₀) (ht : s.jobOf t = some p)
    (hlive : ∀ q, sys.Live q ↔ s.sys.Live q) (hgone : (sys.tasks t).thread = none)
    (hother : ∀ i, i ≠ t → (sys.tasks i).thread.map YaThread.job = s.jobOf i) :
    ({ s with sys }.delThreadEntry t p).InPlace proc₀ := by
  have hheld : ({ s with sys }.delThreadEntry t p).held =
      Function.update s.held (.thread t) none := by
    refine held_thread rfl rfl hlive rfl (fun i hi => ⟨hother i hi, rfl⟩) ?_
    simp [held, jobOf, delThreadEntry, hgone]
  unfold InPlace
  rw [hheld]
  refine Placed.del h ?_ ?_
  · intro old hold
    have hfile : s.files t = old := by simpa [held, ht] using hold
    exact ⟨hfile.symm, by simp [parent, ht]⟩
  · intro other old hne _
    cases other with
    | zone | job => rfl
    | thread i =>
      have hi : i ≠ t := by simpa using hne
      simp only [parent, jobOf, delThreadEntry, hother i hi]

theorem delJob (h : s.InPlace proc₀) (hlive : ∀ q, sys.Live q ↔ s.sys.Live q ∧ q ≠ p)
    (hthread : ∀ t, (sys.tasks t).thread.map YaThread.job = s.jobOf t) (mod : YaModule)
    (hmod : mod = { s.mod with
      proc := delJobProcfsEntry (s.dirs p) s.mod.zoneDir s.mod.proc }) :
    { s with sys, mod }.InPlace proc₀ := by
  subst hmod
  have hheld : held { s with
      sys, mod := { s.mod with proc := delJobProcfsEntry (s.dirs p) s.mod.zoneDir s.mod.proc } } =
      Function.update s.held (.job p) none := by
    refine held_job rfl rfl hthread rfl (fun q hq => ⟨by simp [hlive, hq], rfl⟩) ?_
    simp [held, hlive]
  unfold InPlace
  rw [hheld]
  refine Placed.del h ?_ ?_
  · intro old hold
    have hdir : s.sys.Live p ∧ s.dirs p = old := by simpa [held] using hold
    exact ⟨hdir.2.symm, rfl⟩
  · intro other old _ _
    cases other with
    | zone | job => rfl
    | thread t => simp only [parent, jobOf, hthread]

/-- `put_thread`, with the entry of the job if it frees it. -/
theorem put (h : s.InPlace proc₀) (p : Nat) :
    ({ s with sys := putThread s.sys p }.delJobEntry p (s.sys.jobs p).freed).InPlace proc₀ := by
  have hthread (t : Nat) : ((putThread s.sys p).tasks t).thread.map YaThread.job = s.jobOf t := by
    rw [putThread_tasks]
    rfl
  unfold delJobEntry
  split
  · rename_i hgrew
    exact h.delJob (fun _ => putThread_live hgrew) hthread _ rfl
  · rename_i hkept
    exact h.same (fun _ => putThread_live_kept hkept) hthread

theorem setTask (h : s.InPlace proc₀) (hk : k.thread = (s.sys.tasks t).thread) :
    { s with sys := s.sys.setTask t k }.InPlace proc₀ := by
  refine h.same (fun _ => Iff.rfl) fun i => ?_
  rcases eq_or_ne i t with rfl | hne
  · simp [jobOf, hk]
  · simp [jobOf, hne]

theorem newJob (h : s.InPlace proc₀) (ho : Orderly s.sys) (hj : (s.sys.tasks t).job = none) :
    (({ s with sys := yaInitJob s.sys t junk }.addJobEntry s.sys.njobs answers).addThreadEntry t
      s.sys.njobs answers).InPlace proc₀ := by
  have hjob (i p : Nat) (hi : s.jobOf i = some p) : p < s.sys.njobs := by
    obtain ⟨thread, ht, rfl⟩ := Option.map_eq_some_iff.mp hi
    exact (ho.known.task i).thread thread ht
  have hnone : s.jobOf t = none := by
    cases ht : (s.sys.tasks t).thread with
    | none => simp [jobOf, ht]
    | some thread => cases hj.symm.trans ((ho.entered t).job thread ht)
  -- the job first, with the tasks as they were
  have hadded : ({ s with sys := { yaInitJob s.sys t junk with tasks := s.sys.tasks } }.addJobEntry
      s.sys.njobs answers).InPlace proc₀ := by
    refine h.addJob (by simp [Sys.Live]) (fun i hi => Nat.lt_irrefl _ (hjob i _ hi)) (fun q => ?_)
      fun _ => rfl
    rcases eq_or_ne q s.sys.njobs with rfl | hne
    · simp [Sys.Live, yaInitJob]
    · have hlt : q < s.sys.njobs + 1 ↔ q < s.sys.njobs := by omega
      simp [Sys.Live, yaInitJob, hne, hlt]
  have hnew : ((yaInitJob s.sys t junk).tasks t).thread.map YaThread.job = some s.sys.njobs := by
    simp [yaInitJob, initThread]
  exact hadded.addThread hnone (fun _ => Iff.rfl) hnew fun i hi => by
    simp [yaInitJob, jobOf, addJobEntry, hi]

/-- What the agents do in procfs keeps every entry in its place. -/
theorem follow (h : s.InPlace proc₀) (ho : Orderly s.sys)
    (hs : Yasched.step s.hooks s.sys e = some sys) : (s.follow sys answers e).InPlace proc₀ := by
  by_cases he : e.OfLife
  · cases hooked_cases he hs with
    | agent hh hl =>
      cases hl with
      | @execve t junk answers' =>
        have hsame : s.follow s.sys answers (.execve t junk answers') =
          { s with inExecve := Function.update s.inExecve t false } := if_pos rfl
        rw [hsame]
        exact h
      | @newJob t junk answers' hr hj =>
        have hnew : s.follow (yaInitJob s.sys t junk) answers (.execve t junk answers') = _ :=
          if_neg (Nat.succ_ne_self _)
        rw [hnew]
        exact h.newJob ho hj
      | @fork t p =>
        have hfork : { s with sys := s.sys.setTask t { s.sys.tasks t with
            life := .forking (some p) } }.InPlace proc₀ := h.setTask rfl
        refine hfork.same (fun q => ?_) fun _ => rfl
        rcases eq_or_ne q p with rfl | hne
        · simp [Sys.Live, getThread]
        · simp [Sys.Live, getThread, hne]
      | forkPlain | scheduleTail | retry => exact h.setTask rfl
      | @child t o hl =>
        have hlive : { s with sys := s.sys.setTask t { s.sys.tasks t with life := .live } }.InPlace
            proc₀ := h.setTask rfl
        refine hlive.same (fun _ => Iff.rfl) fun i => ?_
        rcases eq_or_ne i s.sys.ntasks with rfl | hne
        · have hnone : (s.sys.tasks s.sys.ntasks).thread = none := by
            rw [ho.known.unborn _ le_rfl]
          have ht : s.sys.ntasks ≠ t := (ho.known.lt (by simp [hl])).ne'
          simp [Sys.addTask, jobOf, hnone, ht]
        · simp [Sys.addTask, jobOf, hne]
      | @forkFail t p hl =>
        have hlive : { s with sys := s.sys.setTask t { s.sys.tasks t with life := .live } }.InPlace
            proc₀ := h.setTask rfl
        simp only [Session.follow, hl]
        exact hlive.put p
      | forkFailPlain hl =>
        simp only [Session.follow, hl]
        exact h.setTask rfl
      | @attach t tries p junk hl hpc hj =>
        have hnone : (s.sys.tasks t).thread = none :=
          (ho.entered t).starting (by simp [hl, Life.Starting])
        simp only [Session.follow, hj, if_true]
        refine h.addThread (by simp [jobOf, hnone]) (fun _ => Iff.rfl) (by simp [initThread])
          fun i hi => by simp [jobOf, hi]
      | @exit t thread hr hth =>
        have hhook : s.loader.hooks.exit = true := hh
        have hgone : ({ s with sys := s.sys.setTask t { s.sys.tasks t with
            thread := none, life := .exited } }.delThreadEntry t thread.job).InPlace proc₀ :=
          h.delThread (by simp [jobOf, hth]) (fun _ => Iff.rfl) (by simp)
            fun i hi => by simp [jobOf, hi]
        simp only [Session.follow, hhook, hth, if_true]
        exact hgone.put thread.job
      | exitPlain hr hth =>
        simp only [Session.follow, hth, ite_self]
        exact h.setTask hth.symm
    | execve hh => cases hh
    | fork | scheduleTail => exact h.setTask rfl
    | exit hh hr =>
      have hhook : s.loader.hooks.exit = false := hh
      simp only [Session.follow, hhook]
      exact h.setTask rfl
  · have hq := step_quiet he hs
    have hsame : s.follow sys answers e = { s with sys } := by
      cases e with
      | execve | tryThread | exit | forkFail => exact absurd trivial he
      | _ => rfl
    rw [hsame]
    refine h.same (fun p => ?_) fun t => (hq.tasks t).thread
    simp only [Sys.Live, hq.njobs, (hq.count p).2]

end InPlace

theorem delJobEntry_frame (s : Session) : (s.delJobEntry p n).sys = s.sys ∧
    (s.delJobEntry p n).loader = s.loader ∧ (s.delJobEntry p n).pc = s.pc := by
  unfold delJobEntry
  split <;> exact ⟨rfl, rfl, rfl⟩

theorem follow_frame (s : Session) (sys : Sys) : (s.follow sys answers e).sys = sys ∧
    (s.follow sys answers e).loader = s.loader ∧ (s.follow sys answers e).pc = s.pc := by
  cases e with
  | execve | tryThread =>
    simp only [follow]
    split <;> exact ⟨rfl, rfl, rfl⟩
  | exit | forkFail =>
    simp only [follow]
    split
    · exact delJobEntry_frame _
    · exact ⟨rfl, rfl, rfl⟩
  | _ => exact ⟨rfl, rfl, rfl⟩

end Session

-- ---------------------------------------------------------------------------
-- Taking the exit hook out
-- ---------------------------------------------------------------------------

theorem Loader.has_succ {l : Loader} (hn : l.count ≠ 0) (hhas : l.has line = true)
    (hout : { l with count := l.count - 1 }.has line = false) : l.next = some line := by
  obtain ⟨n, hcount⟩ := Nat.exists_eq_succ_of_ne_zero hn
  simp only [Loader.has, hcount, Nat.succ_sub_one] at hhas hout
  rw [List.take_add_one, List.contains_append, hout, Bool.false_or] at hhas
  simpa [Loader.next, hcount, eq_comm] using hhas

theorem Loader.exitGone_cases {l : Loader}
    (hstarted : l.pc = .started → l.count = performLines.length) (hs : l.step e = some l')
    (hg : l'.ExitGone) : l.ExitGone ∨ e = .restore ∧ l.next = some .setupEnterExitHook := by
  obtain ⟨hpc', hout⟩ := hg
  cases step_cases hs with
  | line hpc | undo hpc => simp [hpc] at hpc'
  | lastLine | failedLine | failed => simp at hpc'
  | unload hpc =>
    have hall : l.has .setupEnterExitHook = true := by
      rw [Loader.has, hstarted hpc]
      decide
    cases hall.symm.trans hout
  | restore hpc hn =>
    cases hhas : l.has .setupEnterExitHook with
    | true => exact .inr ⟨rfl, Loader.has_succ hn hhas hout⟩
    | false => exact .inl ⟨.inl hpc, hhas⟩
  | wait hpc => exact .inl ⟨.inl hpc, hout⟩
  | again => exact .inl ⟨hpc', hout⟩
  | zero hpc => exact .inl ⟨.inr (.inl hpc), hout⟩
  | schedule hpc => exact .inl ⟨.inr (.inr (.inl hpc)), hout⟩

theorem Loader.step_started {l : Loader}
    (hstarted : l.pc = .started → l.count = performLines.length) (hs : l.step e = some l') :
    l'.pc = .started → l'.count = performLines.length := by
  cases step_cases hs with
  | lastLine _ hlast => exact fun _ => hlast
  | line hpc | undo hpc | restore hpc | again hpc => simp [hpc]
  | _ => simp

theorem Loader.step_removed {l : Loader} (hpc : l.pc = .removed) : l.step e = none := by
  cases hs : l.step e with
  | none => rfl
  | some l' => cases step_cases hs <;> simp_all

-- ---------------------------------------------------------------------------
-- No objects
-- ---------------------------------------------------------------------------

theorem yaNewJob_none (h : ¬AllocatesJob answers) : yaNewJob s t junk answers = s := by
  unfold AllocatesJob at h
  unfold yaNewJob
  split
  · rfl
  · rename_i hjob
    rw [hjob] at h
    split
    · rfl
    · rename_i hthread
      exact absurd (congrArg Prod.fst hthread) h

theorem putThread_vacant (hv : s.Vacant) : (putThread s p).Vacant := by
  constructor
  · intro q hq
    rw [putThread_njobs] at hq
    have hfreed := hv.1 q hq
    rcases eq_or_ne q p with rfl | hne
    · simp [putThread_jobs, hfreed]
    · simpa [putThread_jobs, hne] using hfreed
  · intro t ht
    rw [putThread_ntasks] at ht
    rw [putThread_tasks]
    exact hv.2 t ht

theorem getThread_vacant (hv : s.Vacant) : (getThread s p).Vacant := by
  refine ⟨fun q hq => ?_, hv.2⟩
  have hfreed := hv.1 q hq
  rcases eq_or_ne q p with rfl | hne
  · simpa [getThread] using hfreed
  · simpa [getThread, hne] using hfreed

theorem setTask_vacant {s : Sys} {k : Task} (hv : s.Vacant) (hk : k.thread = none) :
    (s.setTask t k).Vacant := by
  refine ⟨hv.1, fun i hi => ?_⟩
  rcases eq_or_ne i t with rfl | hne
  · simpa using hk
  · simpa [hne] using hv.2 i hi

theorem addTask_vacant {s : Sys} {k : Task} (hv : s.Vacant) (hk : k.thread = none) :
    (s.addTask k).Vacant := by
  refine ⟨hv.1, fun i (hi : i < s.ntasks + 1) => ?_⟩
  rcases eq_or_ne i s.ntasks with rfl | hne
  · simpa [Sys.addTask] using hk
  · simpa [Sys.addTask, hne] using hv.2 i (by omega)

theorem HookedStep.vacant (hs : HookedStep h s e s') (hk : Known s) (hv : s.Vacant)
    (hexecve : ∀ t junk answers, e ≠ .execve t junk answers)
    (htry : ∀ t junk, e ≠ .tryThread t junk true) : s'.Vacant := by
  have hnone (t : Nat) (hl : (s.tasks t).life ≠ .unborn) : (s.tasks t).thread = none :=
    hv.2 t (hk.lt hl)
  cases hs with
  | agent _ hs =>
    cases hs with
    | execve | newJob => exact (hexecve _ _ _ rfl).elim
    | attach => exact (htry _ _ rfl).elim
    | fork hr => exact getThread_vacant (setTask_vacant hv (hnone _ (by simp [hr.1])))
    | child hl => exact addTask_vacant (setTask_vacant hv (hnone _ (by simp [hl]))) rfl
    | forkFail hl => exact putThread_vacant (setTask_vacant hv (hnone _ (by simp [hl])))
    | exit => exact putThread_vacant (setTask_vacant hv rfl)
    | forkPlain hr | exitPlain hr => exact setTask_vacant hv (hnone _ (by simp [hr.1]))
    | forkFailPlain hl | scheduleTail hl | retry hl =>
      exact setTask_vacant hv (hnone _ (by simp [hl]))
  | execve => exact (hexecve _ _ _ rfl).elim
  | fork _ hr | exit _ hr => exact setTask_vacant hv (hnone _ (by simp [hr.1]))
  | scheduleTail _ hb => exact setTask_vacant hv (hnone _ (by simp [hb]))

theorem Quiet.vacant (hq : Quiet s s') (hv : s.Vacant) : s'.Vacant := by
  constructor
  · intro p hp
    rw [(hq.count p).2]
    exact hv.1 p (hq.njobs ▸ hp)
  · intro t ht
    have hthread := (hq.tasks t).thread
    rw [hv.2 t (hq.ntasks ▸ ht)] at hthread
    simpa using hthread

theorem step_vacant (hk : Known s) (hv : s.Vacant)
    (hexecve : ∀ t junk answers, e = .execve t junk answers → (s.tasks t).job = none →
      ¬AllocatesJob answers)
    (htry : ∀ t junk, e ≠ .tryThread t junk true) (hs : step h s e = some s') : s'.Vacant := by
  by_cases he : e.OfLife
  · cases e with
    | execve t junk answers =>
      simp only [step, execveAgent] at hs
      split at hs <;> cases hs
      split
      · rename_i hj
        rwa [yaNewJob_none (hexecve t junk answers rfl hj.2)]
      · exact hv
    | _ => exact (hooked_cases he hs).vacant hk hv (by simp) htry
  · exact (step_quiet he hs).vacant hv

-- ---------------------------------------------------------------------------
-- Whole sessions
-- ---------------------------------------------------------------------------

namespace Session

structure Inv (proc₀ : Finset Path) (s : Session) : Prop where
  orderly : Orderly s.sys
  inPlace : s.InPlace proc₀
  started : s.loader.pc = .started → s.loader.count = performLines.length
  out : s.loader.pc = .wait ∨ s.loader.pc = .schedule ∨ s.loader.pc = .removed →
    s.loader.count = 0
  leaving : s.pc ≠ .exitSched → s.loader.pc = .removed
  vacant : s.loader.ExitGone → s.sys.Vacant

variable {s : Session} {sys : Sys} {loader : Loader}

theorem step_task (hi : Inv proc₀ s) (hp : s.LeavesVacant (.task e answers))
    (hs : Yasched.step s.hooks s.sys e = some sys) : Inv proc₀ (s.follow sys answers e) := by
  obtain ⟨hsys, hloader, hpc⟩ : (s.follow sys answers e).sys = sys ∧
      (s.follow sys answers e).loader = s.loader ∧ (s.follow sys answers e).pc = s.pc :=
    s.follow_frame sys
  have horderly : Orderly (s.follow sys answers e).sys := by
    rw [hsys]
    exact step_orderly hi.orderly hs
  refine ⟨horderly, hi.inPlace.follow hi.orderly hs, hloader ▸ hi.started, hloader ▸ hi.out,
    hloader ▸ hpc ▸ hi.leaving, ?_⟩
  rw [hloader, hsys]
  intro hg
  refine step_vacant hi.orderly.known (hi.vacant hg) ?_ ?_ hs
  · rintro t junk answers rfl hj
    exact hp hg hj
  · rintro t junk rfl
    cases hp hg

theorem step_loader (hi : Inv proc₀ s) (hp : s.LeavesVacant (.loader e))
    (hs : s.loader.step e = some loader) : Inv proc₀ { s with loader } := by
  refine ⟨hi.orderly, hi.inPlace, Loader.step_started hi.started hs, Loader.step_out hi.out hs, ?_,
    fun hg => ?_⟩
  · intro hpc
    rw [Loader.step_removed (hi.leaving hpc)] at hs
    cases hs
  · rcases Loader.exitGone_cases hi.started hs hg with hg | ⟨rfl, hnext⟩
    · exact hi.vacant hg
    · exact hp hnext

theorem step_exitSched (h : s.InPlace proc₀) (hpc : s.pc = .exitSched) :
    { s with mod := Yasched.exitSched s.mod, pc := .finiProcfs }.InPlace proc₀ := by
  have hbase : base proc₀ { s with mod := Yasched.exitSched s.mod, pc := .finiProcfs } =
      s.base proc₀ := by
    simp [base, hpc]
  have hheld : held { s with mod := Yasched.exitSched s.mod, pc := .finiProcfs } =
      Function.update s.held .zone none := by
    refine Function.eq_update_iff.mpr ⟨rfl, fun other hne => ?_⟩
    cases other with
    | zone => exact absurd rfl hne
    | job | thread => rfl
  unfold InPlace
  rw [hbase, hheld]
  refine Placed.del h ?_ fun other _ _ _ => by cases other <;> rfl
  intro old hold
  have hzone : s.mod.zoneDir = old := by simpa [held, hpc] using hold
  exact ⟨hzone.symm, rfl⟩

theorem step_finiProcfs (h : s.InPlace proc₀) (hpc : s.pc = .finiProcfs) :
    { s with mod := Yasched.finiProcfs s.mod, pc := .destroyCharDevice }.InPlace proc₀ := by
  have hheld : held { s with mod := Yasched.finiProcfs s.mod, pc := .destroyCharDevice } =
      s.held := by
    funext owner
    cases owner with
    | zone => simp [held, hpc]
    | job | thread => rfl
  constructor
  · intro path hpath
    obtain ⟨hne, hpath⟩ := Finset.mem_erase.mp hpath
    rw [hheld]
    refine (h.owned path hpath).imp_left fun hbase => ?_
    rw [base, if_pos (.inr hpc)] at hbase
    exact (Finset.mem_insert.mp hbase).resolve_left hne
  · rw [hheld]
    intro owner dir path howner hat
    rw [h.named owner dir path howner hat]
    cases owner <;> rfl

theorem step_destroyCharDevice (h : s.InPlace proc₀) (hpc : s.pc = .destroyCharDevice) :
    { s with mod := Yasched.destroyCharDevice s.mod, pc := .returned }.InPlace proc₀ := by
  have hbase : base proc₀ { s with mod := Yasched.destroyCharDevice s.mod, pc := .returned } =
      s.base proc₀ := by
    simp [base, hpc]
  have hheld : held { s with mod := Yasched.destroyCharDevice s.mod, pc := .returned } =
      s.held := by
    funext owner
    cases owner with
    | zone => simp [held, hpc]
    | job | thread => rfl
  unfold InPlace
  rw [hbase]
  exact Placed.congr h hheld fun other _ _ => by cases other <;> rfl

theorem step_inv (hi : Inv proc₀ s) (hp : s.LeavesVacant e) (hs : s.step e = some s') :
    Inv proc₀ s' := by
  cases e with
  | execve t =>
    simp only [step] at hs
    split at hs <;> cases hs
    exact ⟨hi.orderly, hi.inPlace, hi.started, hi.out, hi.leaving, hi.vacant⟩
  | task e answers =>
    simp only [step] at hs
    split at hs
    · obtain ⟨sys, hsys, rfl⟩ := Option.map_eq_some_iff.mp hs
      exact step_task hi hp hsys
    · cases hs
  | loader e =>
    obtain ⟨loader, hloader, rfl⟩ := Option.map_eq_some_iff.mp hs
    exact step_loader hi hp hloader
  | exitSched =>
    simp only [step] at hs
    split at hs <;> cases hs
    rename_i hpc
    exact ⟨hi.orderly, step_exitSched hi.inPlace hpc.2, hi.started, hi.out, fun _ => hpc.1,
      hi.vacant⟩
  | finiProcfs =>
    simp only [step] at hs
    split at hs <;> cases hs
    rename_i hpc
    exact ⟨hi.orderly, step_finiProcfs hi.inPlace hpc, hi.started, hi.out,
      fun _ => hi.leaving (by simp [hpc]), hi.vacant⟩
  | destroyCharDevice =>
    simp only [step] at hs
    split at hs <;> cases hs
    rename_i hpc
    exact ⟨hi.orderly, step_destroyCharDevice hi.inPlace hpc, hi.started, hi.out,
      fun _ => hi.leaving (by simp [hpc]), hi.vacant⟩

theorem init_inv (hm : yaschedInit a (loaded tables) = (0, m)) (n : Nat) :
    Inv tables.proc (init n m) := by
  obtain ⟨hroot, jobCache, threadCache, rfl⟩ := yaschedInit_zero hm
  have hthread (t : Nat) : (init n (complete a tables jobCache threadCache)).jobOf t = none := by
    simp only [jobOf, init, Yasched.init]
    split <;> rfl
  refine ⟨init_orderly n, ⟨fun path hpath => ?_, fun owner dir path howner hat => ?_⟩,
    by simp [init], by simp [init], by simp [init], ?_⟩
  · rcases mem_addEntry hpath with hpath | hat
    · exact .inl hpath
    · exact .inr ⟨.zone, _, rfl, hat⟩
  · cases owner with
    | zone =>
      cases howner
      exact entry_addEntry hat.2
    | job p => simp [held, init, Yasched.init, Sys.Live] at howner
    | thread t => simp [held, hthread] at howner
  · rintro ⟨hpc, -⟩
    simp [init] at hpc

theorem Inv.clean (hi : Inv proc₀ s) (hpc : s.pc = .returned) : s.Clean proc₀ := by
  have hremoved : s.loader.pc = .removed := hi.leaving (by simp [hpc])
  have hgone : s.loader.ExitGone := by
    refine ⟨by simp [hremoved], ?_⟩
    rw [Loader.has, hi.out (by simp [hremoved])]
    rfl
  have hvacant := hi.vacant hgone
  have hthread (t : Nat) : (s.sys.tasks t).thread = none := by
    rcases Nat.lt_or_ge t s.sys.ntasks with ht | ht
    · exact hvacant.2 t ht
    · rw [hi.orderly.known.unborn t ht]
  have hlive (p : Nat) : ¬s.sys.Live p := fun hp => hvacant.1 p hp.1 hp.2
  refine ⟨hvacant, List.eq_nil_iff_forall_not_mem.mpr fun p hp => ?_, fun path hpath => ?_, ?_⟩
  · exact hlive p ((hi.orderly.numbered.listed p).mp hp)
  · rcases hi.inPlace.owned path hpath with hbase | ⟨owner, dir, howner, -⟩
    · simpa [base, hpc] using hbase
    · cases owner <;> simp [held, hpc, hlive, jobOf, hthread] at howner
  · rintro t ⟨-, thread, ht, -⟩
    cases (hthread t).symm.trans ht

end Session

/-- From a successful `yasched_init` on, whatever the tasks do and whatever
fails: if no object is left when the exit hook goes and none comes after that,
then `yasched_exit` leaves nothing behind. -/
theorem leaves_nothing (hm : yaschedInit a (loaded tables) = (0, m)) (n : Nat)
    (hw : Runs.Along Session.step Session.LeavesVacant (Session.init n m) es) :
    Runs.Always Session.step (fun s => s.pc = .returned → s.Clean tables.proc)
      (Session.init n m) es :=
  Runs.always_of_along (fun _ hi => hi.clean) (fun _ _ _ hi hp hs => Session.step_inv hi hp hs)
    (Session.init_inv hm n) hw

def sampleAnswers : Answers where
  allocChrdevRegion := (0, 250)
  cdevAdd := 0
  mkdirRootFails := false
  mkdirZoneFails := false
  createJobCache := some 1
  createThreadCache := some 2
  performInception := 0

def sampleTables : Registered := { regions := [], cdevs := [], proc := ∅, caches := [] }

def sampleModule : YaModule := (yaschedInit sampleAnswers (loaded sampleTables)).2

def sampleProc : ProcAnswers where
  dirFails := false
  fileFails := false
  pid := 1
  junk := { name := .other "", entry := none, written := false }

def sampleStart : List SessionEvent :=
  List.replicate 9 (.loader (.line true)) ++
    [.execve 0, .task (.execve 0 .running [true, true]) sampleProc]

def sampleExit : List SessionEvent :=
  .loader .unload :: List.replicate 10 (.loader .restore) ++
    [.loader (.read true), .loader .schedule, .exitSched, .finiProcfs, .destroyCharDevice]

theorem leaves_nothing_exited : Runs.Always Session.step
    (fun s => s.pc = .returned → s.Clean sampleTables.proc) (Session.init 1 sampleModule)
    (sampleStart ++ .task (.exit 0) sampleProc :: sampleExit) :=
  leaves_nothing (a := sampleAnswers) (m := sampleModule) rfl 1 (by decide)

/-- The task of a suspended job is in its bed when the module goes. -/
theorem leaves_nothing_fails : ¬ ∀ a tables m n es, yaschedInit a (loaded tables) = (0, m) →
    Runs.Always Session.step (fun s => s.pc = .returned → s.Clean tables.proc)
      (Session.init n m) es := by
  intro h
  obtain ⟨s, hs, hpc, thread, hth, hwait, hoff⟩ : ∃ s, Runs.run Session.step
      (Session.init 1 sampleModule) (sampleStart ++ .task (.control .suspend 0 0) sampleProc ::
        .task (.call 0) sampleProc :: List.replicate 4 (.task (.hook 0) sampleProc) ++ sampleExit) =
          some s ∧ s.pc = .returned ∧ ∃ thread, (s.sys.tasks 0).thread = some thread ∧
            thread.suspendWait = true ∧ (s.sys.tasks 0).pc = .offRq :=
    ⟨_, rfl, rfl, _, rfl, rfl, rfl⟩
  have hclean := (h sampleAnswers sampleTables sampleModule 1 _ rfl).last hs hpc
  exact hclean.tasks 0 ⟨hoff, thread, hth, hwait⟩

end Yasched
