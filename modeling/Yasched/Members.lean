import Yasched.Mirror
import Yasched.Slots

/-!
# The members of a job

A task keeps the address of its job from the execve that creates the job, or
from its birth, to its exit. What keeps the job at that address is its count:
it covers the tasks that are in the job and the forks under way, whatever has
become of the thread entries. So no member is left behind by its job, and no
agent comes to an object that is gone, but for the last message about the job
itself.
-/

namespace Yasched.Objects

open Cells

/-- The task is in job `j`, or will be when the execve under way returns. -/
def Task.Member (k : Task) (j : Nat) : Prop :=
  match k.life with
  | .unborn | .exited => False
  | .execing tsi => tsi = some j
  | _ => k.job = some j

instance (k : Task) (j : Nat) : Decidable (k.Member j) := by
  unfold Task.Member
  split <;> infer_instance

def Refers (tasks : Nat → Task) (j : Nat) : Nat ⊕ Nat → Prop
  | .inl t => (tasks t).Member j
  | .inr t => (tasks t).life = .forking (some j)

def Store.count (s : Store) : Nat → Option Int := Option.map Job.aliveProc ∘ s.jobs

/-- An execve takes its task out of no job. -/
def Task.Fits (k : Task) : Prop :=
  match k.life with
  | .unborn => k.job = none
  | .execing tsi => k.job = none ∨ k.job = tsi
  | _ => True

structure Joined (s : Store) : Prop where
  covered : Covered s.count (Refers s.tasks)
  fits : ∀ t, (s.tasks t).Fits

/-- The code of the module that an event runs. A child is made by the kernel
alone. -/
def agent (size : Nat) (s : Store) : Event → Option (M Unit)
  | .execve t zone job thread dirFails fileFails =>
    some (execveCall size t zone job thread dirFails fileFails)
  | .execveReturn t ok =>
    match (s.tasks t).life with
    | .execing tsi => some (execveReturn t tsi ok)
    | _ => none
  | .fork t => some (doForkAgent t)
  | .child .. => none
  | .forkFail t =>
    match (s.tasks t).life with
    | .forking job => some (forkFail t job)
    | _ => none
  | .scheduleTail t thread fileFails => some (scheduleTailAgent size t thread fileFails)
  | .exit t => some (enterExitHook size t)

-- ---------------------------------------------------------------------------
-- The count of a job
-- ---------------------------------------------------------------------------

section
variable {s s' : Store} {job : Job}

theorem count_of_job (h : s.jobs j = some job) : s.count j = some job.aliveProc := by
  simp [Store.count, h]

theorem count_none (h : s.jobs j = none) : s.count j = none := by
  simp [Store.count, h]

theorem job_of_count (h : s.count j = some n) : ∃ job, s.jobs j = some job ∧ job.aliveProc = n :=
  Option.map_eq_some_iff.mp h

theorem count_update (h : s'.jobs = Function.update s.jobs j o) :
    s'.count = Function.update s.count j (o.map Job.aliveProc) := by
  rw [Store.count, h]
  exact Function.comp_update ..

theorem count_keep {job' : Job} (h : s.jobs j = some job)
    (hs : s'.jobs = Function.update s.jobs j (some job')) (ha : job'.aliveProc = job.aliveProc) :
    s'.count = s.count := by
  rw [count_update hs, Option.map_some, ha, ← count_of_job h, Function.update_eq_self]

theorem count_put : (s.put j job).count = Function.update s.count j
    (if job.aliveProc = 1 then none else some (job.aliveProc - 1)) := by
  unfold Store.put
  split
  · exact count_update (o := none) rfl
  · exact count_update (o := some job.put) rfl

end

-- ---------------------------------------------------------------------------
-- What refers to a job
-- ---------------------------------------------------------------------------

namespace Refers

variable {tasks : Nat → Task} {k : Task}

theorem task (hx : Refers (Function.update tasks t k) j x) :
    Refers tasks j x ∧ x ≠ .inl t ∧ x ≠ .inr t ∨
      x = .inl t ∧ k.Member j ∨ x = .inr t ∧ k.life = .forking (some j) := by
  rcases x with i | i
  · rcases eq_or_ne i t with rfl | hne
    · exact .inr (.inl ⟨rfl, by simpa [Refers] using hx⟩)
    · exact .inl ⟨by simpa [Refers, hne] using hx, by simpa using hne, by simp⟩
  · rcases eq_or_ne i t with rfl | hne
    · exact .inr (.inr ⟨rfl, by simpa [Refers] using hx⟩)
    · exact .inl ⟨by simpa [Refers, hne] using hx, by simp, by simpa using hne⟩

theorem stay (hm : ∀ j, k.Member j → (tasks t).Member j) (hf : ∀ j, k.life ≠ .forking (some j))
    (hx : Refers (Function.update tasks t k) j x) : Refers tasks j x ∧ x ≠ .inr t := by
  rcases hx.task with ⟨hx, -, hne⟩ | ⟨rfl, hk⟩ | ⟨-, hk⟩
  · exact ⟨hx, hne⟩
  · exact ⟨hm j hk, by simp⟩
  · exact absurd hk (hf j)

theorem join (hm : ∀ j, k.Member j → j = a) (hf : ∀ j, k.life ≠ .forking (some j))
    (hx : Refers (Function.update tasks t k) j x) :
    Refers tasks j x ∧ x ≠ .inr t ∨ j = a ∧ x = .inl t := by
  rcases hx.task with ⟨hx, -, hne⟩ | ⟨rfl, hk⟩ | ⟨-, hk⟩
  · exact .inl ⟨hx, hne⟩
  · exact .inr ⟨hm j hk, rfl⟩
  · exact absurd hk (hf j)

theorem leave (hk : k.life = .exited) (hx : Refers (Function.update tasks t k) j x) :
    Refers tasks j x ∧ x ≠ .inl t := by
  rcases hx.task with ⟨hx, hne, -⟩ | ⟨-, hm⟩ | ⟨-, hf⟩
  · exact ⟨hx, hne⟩
  · simp [Task.Member, hk] at hm
  · simp [hk] at hf

end Refers

-- ---------------------------------------------------------------------------
-- The steps
-- ---------------------------------------------------------------------------

@[simp] theorem returned_life {s : Store} : (s.returned t tsi ok).life = .live := rfl

@[simp] theorem returned_job {s : Store} :
    (s.returned t tsi ok).job = tsi.or (s.tasks t).job := by
  cases ok <;> rfl

theorem Joined.execing (h : Joined s) (hl : (s.tasks t).life = .execing tsi) :
    (s.tasks t).job = none ∨ (s.tasks t).job = tsi := by
  simpa [Task.Fits, hl] using h.fits t

theorem Joined.job_of_member (h : Joined s) (hm : (s.tasks t).Member j) :
    ∃ job, s.jobs j = some job := by
  obtain ⟨n, hn⟩ := h.covered.live j (.inl t) hm
  obtain ⟨job, hjob, -⟩ := job_of_count hn
  exact ⟨job, hjob⟩

theorem child_covered (hf : Forks s) (h : Joined s) (hl : (s.tasks t).life = .forking o) :
    Covered s.count (Refers (forkChild s t pid grouped).tasks) := by
  have hjob := hf.forking t o hl
  have hrefers : ∀ i y, Refers (forkChild s t pid grouped).tasks i y →
      Refers s.tasks i y ∧ y ≠ .inr t ∨ o = some i ∧ y = .inl s.ntasks := by
    intro i y hy
    rcases hy.task with ⟨hy, -, -⟩ | ⟨rfl, hk⟩ | ⟨-, hk⟩
    · exact .inl (hy.stay (by simp [Task.Member, hl]) (by simp))
    · exact .inr ⟨by simpa [Task.Member, hjob] using hk, rfl⟩
    · cases hk
  cases o with
  | none =>
    refine h.covered.shrink fun i y hy => ?_
    exact ((hrefers i y hy).resolve_right fun hy => nomatch hy.1).1
  | some j =>
    refine h.covered.hand (a := j) (x := .inr t) (z := .inl s.ntasks) hl fun i y hy => ?_
    rcases hrefers i y hy with ⟨hy, hne⟩ | ⟨hi, rfl⟩
    · exact .inl ⟨hy, fun _ => hne⟩
    · exact .inr ⟨(Option.some.inj hi).symm, rfl⟩

theorem step_covered (hf : Forks s) (hc : Counts s) (ht : Tables s) (h : Joined s)
    (hs : step size s e = some s') : Covered s'.count (Refers s'.tasks) := by
  cases step_effect hc.held hs with
  | @newJob t a b _ dir entry dirFails fileFails hl hj ha ha0 hb hb0 hz =>
    obtain ⟨dir', entry', hjobs, -⟩ := s.newJob_objects size t a b dir entry dirFails fileFails
    have hcount : ((s.newJob size t a b dir entry dirFails fileFails).setLife t
        (.execing (some a))).count = Function.update s.count a (some 1) := count_update hjobs
    rw [hcount]
    refine h.covered.fresh (x := .inl t) (count_none ha) fun i y hy => ?_
    exact (hy.join (a := a) (by simp [Task.Member]) (by simp)).imp_left And.left
  | @execveReturn t tsi ok hl =>
    refine h.covered.shrink fun i y hy => (hy.stay (fun j hj => ?_) (by simp)).1
    have hj : tsi.or (s.tasks t).job = some j := by
      simpa [Task.Member] using hj
    rcases h.execing hl with hnone | hsame
    · simpa [Task.Member, hl, hnone] using hj
    · simpa [Task.Member, hl, hsame] using hj
  | @fork t j job hl hj hjob =>
    have hcount : ((s.setJob j (some job.get)).setLife t (.forking (some j))).count =
        Function.update s.count j (some (job.aliveProc + 1)) :=
      count_update (o := some job.get) rfl
    rw [hcount]
    refine h.covered.take (x := .inr t) (count_of_job hjob) fun i y hy => ?_
    rcases hy.task with ⟨hy, -⟩ | ⟨rfl, hk⟩ | ⟨rfl, hk⟩
    · exact .inl hy
    · exact .inl (by simpa [Refers, Task.Member, hl] using hk)
    · exact .inr ⟨by simpa using hk.symm, rfl⟩
  | forkFaults hl hj hjob => exact h.covered
  | child hl => exact child_covered hf h hl
  | @forkFail t j job hl hjob =>
    rw [count_put, put_tasks]
    refine h.covered.drop (x := .inr t) (count_of_job hjob) hl fun i y hy => ?_
    obtain ⟨hy, hne⟩ := hy.stay (by simp [Task.Member, hl]) (by simp)
    exact ⟨hy, fun _ => hne⟩
  | @attach t j b entry fileFails job hl hj hjob hb hb0 =>
    have hcount : (((s.setLife t .live).attach size t b j job entry).addThreadFile b
        { task := t, job := j, entry } (job.attach (s.slot size t) b) fileFails).count =
          s.count := count_keep hjob rfl rfl
    rw [hcount]
    refine h.covered.shrink fun i y hy => (hy.stay ?_ (by simp)).1
    simp [Task.Member, hl]
  | @exit t b thread job hl hb htask hjob =>
    have hmember : (s.tasks t).job = some thread.job := by
      simpa [Task.Owns, htask, hl] using ht.owner b thread hb
    have hcount : ((s.setLife t .exited).delThread b thread job).count = s.count :=
      count_keep hjob (show _ = Function.update s.jobs _ (some (job.detach b)) by
        simp [Store.delThread]) rfl
    rw [count_put, hcount, put_tasks, Store.delThread_tasks]
    refine h.covered.drop (n := job.aliveProc) (x := .inl t) (count_of_job hjob) ?_
      fun i y hy => ?_
    · simpa [Refers, Task.Member, hl] using hmember
    · obtain ⟨hy, hne⟩ := hy.leave rfl
      exact ⟨hy, fun _ => hne⟩
  | exitPlain hl => exact h.covered.shrink fun i y hy => (hy.leave rfl).1
  | execve hl | forkPlain hl | forkFailPlain hl | tail hl =>
    refine h.covered.shrink fun i y hy => (hy.stay ?_ (by simp)).1
    simp [Task.Member, hl]

theorem fits_update {tasks : Nat → Task} {k : Task} (h : ∀ i, (tasks i).Fits) (hk : k.Fits)
    (i : Nat) : (Function.update tasks t k i).Fits := by
  rcases eq_or_ne i t with rfl | hne
  · rw [Function.update_self]
    exact hk
  · rw [Function.update_of_ne hne]
    exact h i

theorem step_joined (hf : Forks s) (hc : Counts s) (ht : Tables s) (h : Joined s)
    (hs : step size s e = some s') : Joined s' := by
  refine ⟨step_covered hf hc ht h hs, ?_⟩
  cases step_effect hc.held hs with
  | forkFaults => exact h.fits
  | child hl => exact fits_update (fits_update h.fits trivial) trivial
  | forkFail hl =>
    rw [put_tasks]
    exact fits_update h.fits trivial
  | exit hl =>
    rw [put_tasks, Store.delThread_tasks]
    exact fits_update h.fits trivial
  | newJob hl hj => exact fits_update h.fits (.inl hj)
  | execve => exact fits_update h.fits (.inr rfl)
  | execveReturn | fork | forkPlain | forkFailPlain | attach | tail | exitPlain =>
    exact fits_update h.fits trivial

theorem init_joined : Joined (init n pid leader dirFails rootdir dir proc) where
  covered := by
    constructor
    · rintro j (t | t) hx
      · by_cases ht : t < n <;> simp [Refers, init, ht, Task.Member] at hx
      · by_cases ht : t < n <;> simp [Refers, init, ht] at hx
    · intro j n hn
      cases hn
  fits t := by
    by_cases ht : t < n <;> simp [init, ht, Task.Fits]

theorem joined_of_run
    (hr : Runs.run (step size) (init n pid leader dirFails rootdir dir proc) es = some s) :
    Forks s ∧ Counts s ∧ Tables s ∧ Joined s :=
  Runs.invariant (I := fun s => Forks s ∧ Counts s ∧ Tables s ∧ Joined s)
    (fun _ _ _ ⟨hf, hc, ht, h⟩ hs =>
      ⟨step_forks hf hc hs, step_counts hf hc hs, step_tables hf hc ht hs,
        step_joined hf hc ht h hs⟩)
    ⟨init_forks, init_counts, init_tables, init_joined⟩ hr

-- ---------------------------------------------------------------------------
-- The agents
-- ---------------------------------------------------------------------------

theorem after_ends {x : M Unit} (h : after x s = some s') (he : (exec x s).1 = .ok ()) :
    exec x s = (.ok (), s') :=
  Prod.ext he (Option.some.inj h)

theorem exec_tryNewJob (ha : Fresh s.jobs o) :
    ∃ r m, exec (tryNewJob size t zone o o' dirFails fileFails) s = (.ok r, m) := by
  cases hj : (s.tasks t).job with
  | some j => simp [tryNewJob, exec_bind, hj]
  | none =>
    by_cases hz : zone = none
    · simp [tryNewJob, exec_bind, hj, hz]
    · rcases o with _ | ⟨a, dir⟩
      · simp [tryNewJob, exec_bind, hj, hz, yaNewJob]
      · rcases o' with _ | ⟨b, entry⟩
        · have hfreed : exec (yaNewJob size t (some (a, dir)) none dirFails fileFails) s =
              (.ok none, s) := exec_yaNewJob_freed (ha a dir rfl).2.1
          simp [tryNewJob, exec_bind, hj, hz, hfreed]
        · simp [tryNewJob, exec_bind, hj, hz, exec_yaNewJob]

theorem execveCall_ends (ha : Fresh s.jobs o) :
    (exec (execveCall size t zone o o' dirFails fileFails) s).1 = .ok () := by
  obtain ⟨⟨status, tsi⟩, m, h⟩ :
      ∃ r m, exec (tryNewJob size t zone o o' dirFails fileFails) s = (.ok r, m) :=
    exec_tryNewJob ha
  unfold execveCall
  rw [exec_bind_ok h]
  rfl

theorem doForkAgent_ends (h : Joined s) (hl : (s.tasks t).life = .live) :
    (exec (doForkAgent t) s).1 = .ok () := by
  cases hj : (s.tasks t).job with
  | none => simp [doForkAgent, exec_bind, hj]
  | some j =>
    obtain ⟨job, hjob⟩ := h.job_of_member (t := t) (j := j) (by simp [Task.Member, hl, hj])
    simp [doForkAgent, exec_bind, hj, exec_getThread hjob]

theorem forkFail_ends (hf : Forks s) (hc : Counts s) (h : Joined s)
    (hl : (s.tasks t).life = .forking o) : (exec (forkFail t o) s).1 = .ok () := by
  cases o with
  | none => rfl
  | some j =>
    obtain ⟨job, hjob⟩ := hc.held.task t j (.inl hl)
    have hfork : Refers s.tasks j (.inr t) := hl
    have hmember : Refers s.tasks j (.inl t) := by
      simpa [Refers, Task.Member, hl] using hf.forking t _ hl
    have hn : job.aliveProc ≠ 1 := by
      intro h1
      have hcount := h.covered.atMost j _ (count_of_job hjob)
      rw [h1] at hcount
      cases hcount.unique hfork hmember
    have hput := exec_putThread (s := s.setLife t .live) hjob hn
    simp only [forkFail, exec_bind, exec_modify]
    rw [hput]

theorem scheduleTailAgent_ends (hh : Held s) (hl : (s.tasks t).life = .born) :
    (exec (scheduleTailAgent size t alloc fileFails) s).1 = .ok () := by
  cases hj : (s.tasks t).job with
  | none => simp [scheduleTailAgent, exec_bind, hj]
  | some j =>
    obtain ⟨job, hjob⟩ := hh.task t j (.inr ⟨hl, hj⟩)
    rcases alloc with _ | ⟨b, entry⟩
    · simp [scheduleTailAgent, yaNewThread, exec_bind, hj]
    · have hnew : exec (yaNewThread size t j (some (b, entry))) (s.setLife t .live) =
          (.ok (some b), (s.setLife t .live).attach size t b j job entry) :=
        exec_yaNewThread hjob
      have hfile : exec (addThreadEntry b fileFails)
          ((s.setLife t .live).attach size t b j job entry) = (.ok (), _) :=
        exec_addThreadEntry (Function.update_self ..) (Function.update_self ..)
      have htask : ((s.setLife t .live).tasks t).job = some j := by simp [hj]
      simp only [scheduleTailAgent, exec_bind, exec_modify, exec_get, htask, hnew, hfile]

theorem exec_enterExitHook (h : searchThreadByTask size s t = some b) :
    exec (enterExitHook size t) s = exec (yaDelThread b) (s.setLife t .exited) := by
  have hsearch : searchThreadByTask size (s.setLife t .exited) t = searchThreadByTask size s t := by
    simp [searchThreadByTask, Store.slot]
  simp only [enterExitHook, exec_bind, exec_modify, exec_get, hsearch, h]

/-- An exit that finds the entry of its task, in a job whose count is 1. -/
def LastExit (size : Nat) (s : Store) (j : Nat) : Event → Prop
  | .exit t => ∃ b thread job, searchThreadByTask size s t = some b ∧
      s.threads b = some thread ∧ thread.job = j ∧ s.jobs j = some job ∧ job.aliveProc = 1
  | _ => False

theorem exec_enterExitHook_none (hb : searchThreadByTask size s t = none) :
    exec (enterExitHook size t) s = (.ok (), s.setLife t .exited) := by
  have hsearch : searchThreadByTask size (s.setLife t .exited) t = none := by
    rw [← hb]
    simp [searchThreadByTask, Store.slot]
  simp only [enterExitHook, exec_bind, exec_modify, exec_get, hsearch, exec_pure]

theorem enterExitHook_ends (hc : Counts s) (hno : ∀ j, ¬LastExit size s j (.exit t)) :
    (exec (enterExitHook size t) s).1 = .ok () := by
  cases hb : searchThreadByTask size s t with
  | none => rw [exec_enterExitHook_none hb]
  | some b =>
    obtain ⟨thread, hthread, -⟩ := searchThreadByTask_some hb
    obtain ⟨job, hjob⟩ := hc.held.thread b thread hthread
    have h1 : job.aliveProc ≠ 1 :=
      fun h1 => hno thread.job ⟨b, thread, job, hb, hthread, rfl, hjob, h1⟩
    rw [exec_enterExitHook hb, exec_yaDelThread_ok (s := s.setLife t .exited) hthread hjob h1]

/-- The one that finds it is the last member, and reads the job after it has
freed it. -/
theorem enterExitHook_faults (hc : Counts s) (ht : Tables s) (h : Joined s)
    (hl : (s.tasks t).life = .live) (hlast : LastExit size s j (.exit t)) :
    (∃ m, exec (enterExitHook size t) s = (.error (.freed j), m) ∧ m.jobs j = none) ∧
      ∀ i, (s.tasks i).Member j ↔ i = t := by
  obtain ⟨b, thread, job, hb, hthread, rfl, hjob, h1⟩ := hlast
  obtain ⟨thread', hthread', htask⟩ := searchThreadByTask_some hb
  obtain rfl := Option.some.inj (hthread.symm.trans hthread')
  have hdel := exec_yaDelThread_last (s := s.setLife t .exited) hthread hjob
    (hc.held.ne_zero hjob) h1
  refine ⟨⟨_, (exec_enterExitHook hb).trans hdel, Function.update_self ..⟩, fun i => ?_⟩
  have hmember : (s.tasks t).Member thread.job := by
    simpa [Task.Owns, Task.Member, htask, hl] using ht.owner b thread hthread
  constructor
  · intro hi
    have hcount := h.covered.atMost _ _ (count_of_job hjob)
    rw [h1] at hcount
    have hsame : (Sum.inl i : Nat ⊕ Nat) = .inl t := hcount.unique hmember hi
    exact Sum.inl.inj hsame
  · rintro rfl
    exact hmember

theorem agent_ends
    (hr : Runs.run (step size) (init n pid leader dirFails rootdir dir proc) es = some s)
    (hs : step size s e = some s') (hx : agent size s e = some x)
    (hno : ∀ j, ¬LastExit size s j e) : exec x s = (.ok (), s') := by
  obtain ⟨hf, hc, -, h⟩ := joined_of_run hr
  cases e with
  | execve t zone o o' dirFails fileFails =>
    cases hx
    simp only [step] at hs
    split at hs
    · rename_i hg
      exact after_ends hs (execveCall_ends hg.2.1)
    · cases hs
  | execveReturn t ok =>
    simp only [step] at hs
    split at hs
    · rename_i hl
      simp only [agent, hl] at hx
      cases hx
      exact after_ends hs rfl
    · cases hs
  | fork t =>
    cases hx
    simp only [step] at hs
    split at hs
    · rename_i hl
      exact after_ends hs (doForkAgent_ends h hl)
    · cases hs
  | child => cases hx
  | forkFail t =>
    simp only [step] at hs
    split at hs
    · rename_i hl
      simp only [agent, hl] at hx
      cases hx
      exact after_ends hs (forkFail_ends hf hc h hl)
    · cases hs
  | scheduleTail t alloc fileFails =>
    cases hx
    simp only [step] at hs
    split at hs
    · rename_i hg
      exact after_ends hs (scheduleTailAgent_ends hc.held hg.1)
    · cases hs
  | exit t =>
    cases hx
    simp only [step] at hs
    split at hs
    · exact after_ends hs (enterExitHook_ends hc hno)
    · cases hs

theorem agent_faults
    (hr : Runs.run (step size) (init n pid leader dirFails rootdir dir proc) es = some s)
    (hs : step size s e = some s') (hx : agent size s e = some x) (hlast : LastExit size s j e) :
    exec x s = (.error (.freed j), s') ∧ s'.jobs j = none ∧
      ∃ t, e = .exit t ∧ ∀ i, (s.tasks i).Member j ↔ i = t := by
  obtain ⟨-, hc, ht, h⟩ := joined_of_run hr
  cases e with
  | exit t =>
    cases hx
    simp only [step] at hs
    split at hs
    · rename_i hl
      obtain ⟨⟨m, hexec, hfreed⟩, hm⟩ := enterExitHook_faults hc ht h hl hlast
      obtain rfl : m = s' := by
        rw [after, hexec] at hs
        exact Option.some.inj hs
      exact ⟨hexec, hfreed, t, rfl, hm⟩
    · cases hs
  | _ => cases hlast

/-- An agent runs to its end, in every store that the system reaches, exactly if
it is not the exit that finds the entry of its task in a job whose count is 1:
that one is the exit of the last member, and faults on the job that it has freed.
An exit that finds no entry leaves everything behind. -/
theorem agents_end
    (hr : Runs.run (step size) (init n pid leader dirFails rootdir dir proc) es = some s)
    (hs : step size s e = some s') (hx : agent size s e = some x) :
    (exec x s = (.ok (), s') ↔ ∀ j, ¬LastExit size s j e) ∧
    (∀ j, LastExit size s j e → exec x s = (.error (.freed j), s') ∧ s'.jobs j = none ∧
      ∃ t, e = .exit t ∧ ∀ i, (s.tasks i).Member j ↔ i = t) ∧
    ∀ t, e = .exit t → searchThreadByTask size s t = none → s' = s.setLife t .exited := by
  refine ⟨⟨fun hend j hlast => ?_, agent_ends hr hs hx⟩, fun j => agent_faults hr hs hx, ?_⟩
  · cases hend.symm.trans (agent_faults hr hs hx hlast).1
  · rintro t rfl hb
    cases hx
    simp only [step, after, exec_enterExitHook_none hb] at hs
    split at hs
    · exact (Option.some.inj hs).symm
    · cases hs

theorem agents_end_last : ∃ s s' x, Runs.run (step 64) (sampleInit 1) sampleJob = some s ∧
    step 64 s (.exit 0) = some s' ∧ agent 64 s (.exit 0) = some x ∧
      exec x s = (.error (.freed 0x1000), s') := by
  obtain ⟨s, s', thread, job, hr, hs, hb, hthread, hj, hjob, h1⟩ : ∃ s s' thread job,
      Runs.run (step 64) (sampleInit 1) sampleJob = some s ∧ step 64 s (.exit 0) = some s' ∧
        searchThreadByTask 64 s 0 = some 0x2000 ∧ s.threads 0x2000 = some thread ∧
        thread.job = 0x1000 ∧ s.jobs 0x1000 = some job ∧ job.aliveProc = 1 :=
    ⟨_, _, _, _, rfl, rfl, rfl, rfl, rfl, rfl, rfl⟩
  have hlast : LastExit 64 s 0x1000 (.exit 0) := ⟨0x2000, thread, job, hb, hthread, hj, hjob, h1⟩
  exact ⟨s, s', _, hr, hs, rfl, ((agents_end hr hs rfl).2.1 0x1000 hlast).1⟩

-- ---------------------------------------------------------------------------
-- For life
-- ---------------------------------------------------------------------------

/-- The task has not left job `j`, which is the one with the id, or has
exited. -/
def InJob (t j jid : Nat) (s : Store) : Prop :=
  (s.tasks t).life = .exited ∨
    (s.tasks t).Member j ∧ ∃ job, s.jobs j = some job ∧ job.id = jid

/-- An execve of task `t` that creates a job. -/
def CreatesFor (t : Nat) (s : Store) : Event → Prop
  | .execve t' zone job thread _ _ => t' = t ∧ CreatesJob s t zone job thread
  | _ => False

theorem member_update {tasks : Nat → Task} {k : Task}
    (hk : (tasks t).Member j → k.life = .exited ∨ k.Member j)
    (hm : (tasks i).Member j) : (Function.update tasks t k i).life = .exited ∨
      (Function.update tasks t k i).Member j := by
  rcases eq_or_ne i t with rfl | hne
  · rw [Function.update_self]
    exact hk hm
  · rw [Function.update_of_ne hne]
    exact .inr hm

theorem step_member (hf : Forks s) (hc : Counts s) (hs : step size s e = some s')
    (hm : (s.tasks i).Member j) : (s'.tasks i).life = .exited ∨ (s'.tasks i).Member j := by
  cases step_effect hc.held hs with
  | forkFaults => exact .inr hm
  | @child t o pid grouped hl =>
    have hne : i ≠ s.ntasks := by
      rintro rfl
      simp [hf.unborn s.ntasks le_rfl, Task.Member] at hm
    have htask : (forkChild s t pid grouped).tasks i = (s.setLife t .live).tasks i :=
      Function.update_of_ne hne ..
    rw [htask]
    exact member_update (by simp [Task.Member, hl]) hm
  | forkFail hl =>
    rw [put_tasks]
    exact member_update (by simp [Task.Member, hl]) hm
  | exit hl =>
    rw [put_tasks, Store.delThread_tasks]
    exact member_update (by simp) hm
  | newJob hl hj => exact member_update (by simp [Task.Member, hl, hj]) hm
  | @execveReturn t tsi ok hl =>
    refine member_update (fun hm => .inr ?_) hm
    have htsi : tsi = some j := by simpa [Task.Member, hl] using hm
    simp [Task.Member, htsi]
  | execve hl | fork hl | forkPlain hl | forkFailPlain hl | attach hl | tail hl
  | exitPlain hl =>
    exact member_update (by simp [Task.Member, hl]) hm

theorem exited_update {tasks : Nat → Task} {k : Task} (hl : (tasks t).life ≠ .exited)
    (hm : (tasks i).life = .exited) :
    (Function.update tasks t k i).life = .exited := by
  have hne : i ≠ t := by
    rintro rfl
    exact hl hm
  rwa [Function.update_of_ne hne]

theorem step_exited (hf : Forks s) (hc : Counts s) (hs : step size s e = some s')
    (hi : (s.tasks i).life = .exited) : (s'.tasks i).life = .exited := by
  cases step_effect hc.held hs with
  | forkFaults => exact hi
  | @child t o pid grouped hl =>
    have hne : i ≠ s.ntasks := (hf.lt (by simp [hi])).ne
    have htask : (forkChild s t pid grouped).tasks i = (s.setLife t .live).tasks i :=
      Function.update_of_ne hne ..
    rw [htask]
    exact exited_update (by simp [hl]) hi
  | forkFail hl =>
    rw [put_tasks]
    exact exited_update (by simp [hl]) hi
  | exit hl =>
    rw [put_tasks, Store.delThread_tasks]
    exact exited_update (by simp [hl]) hi
  | newJob hl | execve hl | execveReturn hl | fork hl | forkPlain hl | forkFailPlain hl
  | attach hl | tail hl | exitPlain hl =>
    exact exited_update (by simp [hl]) hi

theorem step_id {job : Job} (hc : Counts s) (hs : step size s e = some s')
    (hj : s.jobs j = some job) :
    s'.jobs j = none ∨ ∃ job', s'.jobs j = some job' ∧ job'.id = job.id := by
  have hset {m : Store} {i : Nat} {old new : Job} (hi : s.jobs i = some old)
      (hm : m.jobs = Function.update s.jobs i (some new)) (hid : new.id = old.id) :
      ∃ job', m.jobs j = some job' ∧ job'.id = job.id := by
    rw [hm]
    rcases eq_or_ne j i with rfl | hne
    · cases hi.symm.trans hj
      exact ⟨new, Function.update_self .., hid⟩
    · exact ⟨job, (Function.update_of_ne hne ..).trans hj, rfl⟩
  have hput {m : Store} {i : Nat} {old new : Job} (hi : s.jobs i = some old)
      (hm : ∀ o, Function.update m.jobs i o = Function.update s.jobs i o) (hid : new.id = old.id) :
      (m.put i new).jobs j = none ∨
        ∃ job', (m.put i new).jobs j = some job' ∧ job'.id = job.id := by
    by_cases h1 : new.aliveProc = 1
    · have hdel : (m.put i new).jobs = Function.update s.jobs i none := by
        rw [Store.put, if_pos h1]
        exact hm none
      rw [hdel]
      rcases eq_or_ne j i with rfl | hne
      · exact .inl (Function.update_self ..)
      · exact .inr ⟨job, (Function.update_of_ne hne ..).trans hj, rfl⟩
    · have hset' : (m.put i new).jobs = Function.update s.jobs i (some new.put) := by
        rw [Store.put, if_neg h1]
        exact hm _
      exact .inr (hset hi hset' hid)
  cases step_effect hc.held hs with
  | @newJob t a b _ dir entry dirFails fileFails hl hj' ha =>
    obtain ⟨dir', entry', hjobs, -⟩ := s.newJob_objects size t a b dir entry dirFails fileFails
    have hne : j ≠ a := by
      rintro rfl
      cases ha.symm.trans hj
    refine .inr ⟨job, ?_, rfl⟩
    rw [Store.setLife_jobs, hjobs, Function.update_of_ne hne, hj]
  | fork hl hj' hjob => exact .inr (hset hjob rfl rfl)
  | forkFail hl hjob => exact hput hjob (fun _ => rfl) rfl
  | attach hl hj' hjob => exact .inr (hset hjob rfl rfl)
  | exit hl hb ht hjob => exact hput hjob (fun o => by simp [Store.delThread]) rfl
  | execve | execveReturn | forkFaults | forkPlain | child | forkFailPlain | tail | exitPlain =>
    exact .inr ⟨job, hj, rfl⟩

theorem step_inJob (hf : Forks s) (hc : Counts s) (h' : Joined s') (hs : step size s e = some s')
    (h : InJob t j jid s) : InJob t j jid s' := by
  rcases h with h | ⟨hm, job, hj, hid⟩
  · exact .inl (step_exited hf hc hs h)
  · rcases step_member hf hc hs hm with hm | hm
    · exact .inl hm
    · obtain ⟨job', hj'⟩ := h'.job_of_member hm
      rcases step_id hc hs hj with hnone | ⟨job'', hj'', hid'⟩
      · cases hnone.symm.trans hj'
      · exact .inr ⟨hm, job'', hj'', hid'.trans hid⟩

theorem InJob.creates_nothing (h : InJob t j jid s) (hs : step size s e = some s') :
    ¬CreatesFor t s e := by
  cases e with
  | execve t' zone o o' dirFails fileFails =>
    rintro ⟨rfl, hj, -⟩
    have hl : (s.tasks t').life = .live := by
      by_contra hl
      simp [step, hl] at hs
    rcases h with h | ⟨hm, -⟩
    · cases hl.symm.trans h
    · simp [Task.Member, hl, hj] at hm
  | _ => exact id

/-- A task that is in a job is in this job until it exits: the object stays
where it is, with its id, and no execve of the task creates another job. -/
theorem member_for_life
    (hr : Runs.run (step size) (init n pid leader dirFails rootdir dir proc) es = some s)
    (hm : (s.tasks t).Member j) :
    ∃ job, s.jobs j = some job ∧ ∀ es', Runs.Always (step size) (InJob t j job.id) s es' ∧
      Runs.Along (step size) (fun s e => ¬CreatesFor t s e) s es' := by
  obtain ⟨hf, hc, ht, h⟩ := joined_of_run hr
  obtain ⟨job, hjob⟩ := h.job_of_member hm
  refine ⟨job, hjob, fun es' => ?_⟩
  have halways : Runs.Always (step size) (InJob t j job.id) s es' := by
    refine Runs.always_of_step
      (I := fun s => Forks s ∧ Counts s ∧ Tables s ∧ Joined s ∧ InJob t j job.id s)
      (fun s h => h.2.2.2.2) ?_ ⟨hf, hc, ht, h, .inr ⟨hm, job, hjob, rfl⟩⟩
    rintro s e s' ⟨hf, hc, ht, h, hin⟩ hs
    have h' := step_joined hf hc ht h hs
    exact ⟨step_forks hf hc hs, step_counts hf hc hs, step_tables hf hc ht hs, h',
      step_inJob hf hc h' hs hin⟩
  refine ⟨halways, ?_⟩
  exact Runs.along_of_along (I := fun _ => True)
    (fun s e _ ⟨hin, s', hs⟩ => hin.creates_nothing hs) (fun _ _ _ _ _ _ => trivial) trivial
    halways.along.enabled

/-- The child of a thread whose allocations have failed. -/
theorem member_for_life_child : ∃ s, Runs.run (step 64) (sampleInit 1)
    (sampleJob ++ [.fork 0, .child 0 2 false, .exit 0, .scheduleTail 1 none false]) = some s ∧
      ∃ job, s.jobs 0x1000 = some job ∧ ∀ es',
        Runs.Always (step 64) (InJob 1 0x1000 job.id) s es' ∧
          Runs.Along (step 64) (fun s e => ¬CreatesFor 1 s e) s es' := by
  obtain ⟨s, hr, htask⟩ : ∃ s, Runs.run (step 64) (sampleInit 1)
      (sampleJob ++ [.fork 0, .child 0 2 false, .exit 0, .scheduleTail 1 none false]) = some s ∧
        (s.tasks 1).life = .live ∧ (s.tasks 1).job = some 0x1000 := ⟨_, rfl, rfl, rfl⟩
  exact ⟨s, hr, member_for_life hr (by simp [Task.Member, htask])⟩

end Yasched.Objects
