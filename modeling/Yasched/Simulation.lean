import Yasched.Members
import Yasched.Refcount

/-!
# From addresses to numbers

`Sys` names its jobs by number, in the order of their creation, and finds the
entry of a task at the task. A store has its jobs at addresses, which are given
out again when a job is gone, and looks the entry of a task up on the slot
lists. `index` says which number the job at an address is. As long as entries
stay on the slots of their tasks, whatever a store does the numbered system
does too, so that what holds of all runs of the one holds of the other.
-/

namespace Yasched.Objects

open Cells

/-- What a store has of the numbered system: jobs with their ids and counts,
entries with their tasks and jobs. -/
structure View where
  tasks : Nat → Task
  ntasks : Nat
  jobs : Nat → Option (Nat × Int)
  entries : Nat → Option (Nat × Nat)
  jobList : List Nat
  maxJid : Nat

def Job.view (job : Job) : Nat × Int := (job.id, job.aliveProc)

def Thread.view (thread : Thread) : Nat × Nat := (thread.task, thread.job)

def Store.view (s : Store) : View where
  tasks := s.tasks
  ntasks := s.ntasks
  jobs a := (s.jobs a).map Job.view
  entries b := (s.threads b).map Thread.view
  jobList := s.jobList
  maxJid := s.maxJid

/-- An execve under way is not seen: the numbered system records the membership
at once. -/
def Life.number (index : Nat → Nat) : Life → Yasched.Life
  | .unborn => .unborn
  | .born => .born
  | .live | .execing _ => .live
  | .forking job => .forking (job.map index)
  | .exited => .exited

theorem Life.number_congr {life : Life}
    (h : ∀ j, life = .forking (some j) → index j = index' j) :
    life.number index = life.number index' := by
  rcases life with _ | _ | _ | (_ | j) | _ | _
  case forking.some => simp [Life.number, h j rfl]
  all_goals rfl

def Task.membership (k : Task) : Option Nat :=
  match k.life with
  | .execing tsi => tsi
  | _ => k.job

/-- Nothing is said of the job that an exited task was in. -/
structure Task.Sim (index : Nat → Nat) (k : Task) (m : Yasched.Task) : Prop where
  pc : m.pc = .user
  life : m.life = k.life.number index
  job : k.life ≠ .exited → m.job = k.membership.map index

structure Sim (index : Nat → Nat) (v : View) (z : Sys) : Prop where
  ntasks : z.ntasks = v.ntasks
  maxJid : z.maxJid = v.maxJid
  jobList : z.jobList = v.jobList.map index
  task : ∀ t, (v.tasks t).Sim index (z.tasks t)
  entry : ∀ b t j, v.entries b = some (t, j) →
    (z.tasks t).thread.map YaThread.job = some (index j)
  entered : ∀ t, (z.tasks t).thread ≠ none → ∃ b j, v.entries b = some (t, j)
  job : ∀ a jid n, v.jobs a = some (jid, n) → index a < z.njobs ∧
    (z.jobs (index a)).id = jid ∧ (z.jobs (index a)).aliveProc = n ∧ (z.jobs (index a)).freed = 0
  inj : ∀ a a', v.jobs a ≠ none → v.jobs a' ≠ none → index a = index a' → a = a'
  listed : ∀ a, a ∈ v.jobList ↔ v.jobs a ≠ none
  nodup : v.jobList.Nodup

/-- The steps of the numbered system that an event stands for. The objects come
without what was in them, and a refusal of `kmem_cache_alloc` is for all the
turns of the loop. -/
def numbered (s : Store) : Event → List Yasched.Event
  | .execve t zone job thread _ _ =>
    if CreatesJob s t zone job thread then [.execve t .running [true, true]] else []
  | .execveReturn .. => []
  | .fork t => [.fork t]
  | .child t _ _ => [.child t]
  | .forkFail t => [.forkFail t]
  | .scheduleTail t thread _ =>
    .scheduleTail t ::
      if (s.tasks t).job = none then []
      else if thread = none then List.replicate allocTries (.tryThread t .running false)
      else [.tryThread t .running true]
  | .exit t => [.exit t]

-- ---------------------------------------------------------------------------
-- What is done to the view
-- ---------------------------------------------------------------------------

namespace View

def setTask (v : View) (t : Nat) (k : Task) : View :=
  { v with tasks := Function.update v.tasks t k }

def setJob (v : View) (j jid : Nat) (n : Int) : View :=
  { v with jobs := Function.update v.jobs j (some (jid, n)) }

def setEntry (v : View) (b : Nat) (entry : Option (Nat × Nat)) : View :=
  { v with entries := Function.update v.entries b entry }

def delJob (v : View) (j : Nat) : View :=
  { v with jobs := Function.update v.jobs j none, jobList := v.jobList.erase j }

def addJob (v : View) (a : Nat) : View :=
  { v with
    jobs := Function.update v.jobs a (some (incJid v.maxJid, 1))
    jobList := v.jobList ++ [a]
    maxJid := incJid v.maxJid }

end View

section
variable {s : Store} {job : Job} {thread : Thread}

theorem view_setJob : (s.setJob j (some job)).view = s.view.setJob j job.id job.aliveProc := by
  simp only [Store.view, Store.setJob, map_update]
  rfl

theorem view_setJob_same (h : s.jobs j = some job) (job' : Job) (hv : job'.view = job.view) :
    (s.setJob j (some job')).view = s.view := by
  have hjobs : (fun a => ((s.setJob j (some job')).jobs a).map Job.view) = s.view.jobs := by
    refine (map_update ..).trans (Function.update_eq_self_iff.mpr ?_)
    simp [h, hv]
  simp only [Store.view, hjobs]
  rfl

theorem view_delJob : (s.delJob j job).view = s.view.delJob j := by
  simp only [Store.view, Store.delJob, Store.setJob, map_update]
  rfl

theorem view_addThreadFile (h : s.threads b = some thread) :
    (s.addThreadFile b thread job fails).view = s.view := by
  have hentries : (fun c => ((s.addThreadFile b thread job fails).threads c).map Thread.view) =
      s.view.entries := by
    refine (map_update ..).trans (Function.update_eq_self_iff.mpr ?_)
    simp [h, Thread.view]
  simp only [Store.view, hentries]
  rfl

theorem view_attach {entry : DirEntry} (h : s.jobs j = some job) :
    (s.attach size t b j job entry).view = s.view.setEntry b (some (t, j)) := by
  have hjob : (s.setThread b (some { task := t, job := j, entry })).jobs j = some job := h
  refine (view_setJob_same hjob (job.attach (s.slot size t) b) rfl).trans ?_
  simp only [Store.view, Store.setThread, map_update]
  rfl

theorem view_newJob : (s.newJob size t a b dir entry dirFails fileFails).view =
    (s.view.addJob a).setEntry b (some (t, a)) := by
  refine (view_addThreadFile (by exact Function.update_self ..)).trans ?_
  simp only [Store.view, Store.addJobDir, Store.linkJob, Store.setThread, Store.setJob, map_update,
    Function.update_idem]
  rfl

theorem view_delThread (h : s.jobs thread.job = some job) :
    (s.delThread b thread job).view = s.view.setEntry b none := by
  have hset : (s.setJob thread.job (some (job.detach b))).view = s.view :=
    view_setJob_same h _ rfl
  rw [← hset, Store.delThread, Store.delEntry]
  split <;>
  · simp only [Store.view, Store.setThread, map_update]
    rfl

end

-- ---------------------------------------------------------------------------
-- The operations on both sides
-- ---------------------------------------------------------------------------

theorem map_erase_of_inj {f : Nat → Nat} {l : List Nat} (h : ∀ a ∈ l, f a = f j → a = j) :
    (l.erase j).map f = (l.map f).erase (f j) := by
  induction l with
  | nil => rfl
  | cons a l ih =>
    have ih := ih fun a' ha' => h a' (List.mem_cons_of_mem a ha')
    by_cases ha : a = j
    · simp [ha]
    · have hf : f a ≠ f j := fun he => ha (h a List.mem_cons_self he)
      rw [List.erase_cons_tail (by simpa using ha), List.map_cons, List.map_cons,
        List.erase_cons_tail (by simpa using hf), ih]

namespace Sim

variable {v : View} {z : Sys} {k : Task} {m : Yasched.Task}

theorem setTask (h : Sim index v z) (hk : k.Sim index m)
    (hm : m.thread.map YaThread.job = (z.tasks t).thread.map YaThread.job) :
    Sim index (v.setTask t k) (z.setTask t m) where
  ntasks := h.ntasks
  maxJid := h.maxJid
  jobList := h.jobList
  task i := by
    rcases eq_or_ne i t with rfl | hne
    · simpa [View.setTask] using hk
    · simpa [View.setTask, hne] using h.task i
  entry b i j hb := by
    rcases eq_or_ne i t with rfl | hne
    · simpa [hm] using h.entry b i j hb
    · simpa [hne] using h.entry b i j hb
  entered i hi := by
    refine h.entered i ?_
    rcases eq_or_ne i t with rfl | hne
    · rw [Sys.setTask_tasks, Function.update_self] at hi
      intro hnone
      rw [hnone] at hm
      exact hi (Option.map_eq_none_iff.mp hm)
    · simpa [hne] using hi
  job := h.job
  inj := h.inj
  listed := h.listed
  nodup := h.nodup

theorem setLife (h : Sim index v z) (hk : k.life ≠ .exited → (v.tasks t).life ≠ .exited)
    (hmember : k.life ≠ .exited → k.membership = (v.tasks t).membership)
    (hlife : life = k.life.number index) :
    Sim index (v.setTask t k) (z.setTask t { z.tasks t with life }) := by
  refine h.setTask ⟨(h.task t).pc, hlife, fun hx => ?_⟩ rfl
  rw [hmember hx]
  exact (h.task t).job (hk hx)

theorem setJob (h : Sim index v z) (hj : v.jobs j ≠ none) (hid : y.id = jid)
    (hn : y.aliveProc = n) (hfreed : y.freed = 0) :
    Sim index (v.setJob j jid n) (z.setJob (index j) y) where
  ntasks := h.ntasks
  maxJid := h.maxJid
  jobList := h.jobList
  task := h.task
  entry := h.entry
  entered := h.entered
  job a jid' n' ha := by
    rcases eq_or_ne a j with rfl | hne
    · simp only [View.setJob, Function.update_self, Option.some.injEq, Prod.mk.injEq] at ha
      obtain ⟨⟨jid₀, n₀⟩, hx⟩ := Option.ne_none_iff_exists'.mp hj
      simpa [hid, hn, hfreed, ha] using (h.job a jid₀ n₀ hx).1
    · have ha : v.jobs a = some (jid', n') := by simpa [View.setJob, hne] using ha
      have hindex : index a ≠ index j := fun he => hne (h.inj a j (by simp [ha]) hj he)
      simpa [hindex] using h.job a jid' n' ha
  inj a a' ha ha' := by
    refine h.inj a a' ?_ ?_
    · rcases eq_or_ne a j with rfl | hne
      · exact hj
      · simpa [View.setJob, hne] using ha
    · rcases eq_or_ne a' j with rfl | hne
      · exact hj
      · simpa [View.setJob, hne] using ha'
  listed a := by
    rcases eq_or_ne a j with rfl | hne
    · simpa [View.setJob, hj] using h.listed a
    · simpa [View.setJob, hne] using h.listed a
  nodup := h.nodup

theorem delJob (h : Sim index v z) (hj : v.jobs j ≠ none) :
    Sim index (v.delJob j) (Yasched.yaDelJob z (index j)) := by
  have hlive : ∀ a, (v.delJob j).jobs a ≠ none → a ≠ j ∧ v.jobs a ≠ none := by
    intro a ha
    rcases eq_or_ne a j with rfl | hne
    · simp [View.delJob] at ha
    · exact ⟨hne, by simpa [View.delJob, hne] using ha⟩
  refine ⟨h.ntasks, h.maxJid, ?_, h.task, h.entry, h.entered, ?_, ?_, ?_, h.nodup.erase j⟩
  · show z.jobList.erase (index j) = (v.jobList.erase j).map index
    rw [h.jobList]
    have hinj : ∀ a ∈ v.jobList, index a = index j → a = j := fun a ha he =>
      h.inj a j ((h.listed a).mp ha) hj he
    exact (map_erase_of_inj hinj).symm
  · intro a jid n ha
    obtain ⟨hne, hlive⟩ := hlive a (by simp [ha])
    have ha : v.jobs a = some (jid, n) := by simpa [View.delJob, hne] using ha
    have hindex : index a ≠ index j := fun he => hne (h.inj a j hlive hj he)
    simpa [Yasched.yaDelJob, hindex] using h.job a jid n ha
  · exact fun a a' ha ha' => h.inj a a' (hlive a ha).2 (hlive a' ha').2
  · intro a
    show a ∈ v.jobList.erase j ↔ _
    rw [h.nodup.mem_erase_iff, h.listed a]
    rcases eq_or_ne a j with rfl | hne
    · simp [View.delJob]
    · simp [View.delJob, hne]

theorem addEntry (h : Sim index v z) (hb : v.entries b = none) (ht : (z.tasks t).thread = none)
    (hj : thread.job = index j) : Sim index (v.setEntry b (some (t, j)))
      (z.setTask t { z.tasks t with thread := some thread }) where
  ntasks := h.ntasks
  maxJid := h.maxJid
  jobList := h.jobList
  task i := by
    show (v.tasks i).Sim index _
    rcases eq_or_ne i t with rfl | hne
    · simpa using ⟨(h.task i).pc, (h.task i).life, (h.task i).job⟩
    · simpa [hne] using h.task i
  entry c i q hc := by
    rcases eq_or_ne c b with rfl | hne
    · simp only [View.setEntry, Function.update_self, Option.some.injEq, Prod.mk.injEq] at hc
      obtain ⟨rfl, rfl⟩ := hc
      simp [hj]
    · have hold : v.entries c = some (i, q) := by simpa [View.setEntry, hne] using hc
      have hi : i ≠ t := by
        rintro rfl
        simpa [ht] using h.entry c i q hold
      simpa [hi] using h.entry c i q hold
  entered i hi := by
    rcases eq_or_ne i t with rfl | hne
    · exact ⟨b, j, Function.update_self ..⟩
    · obtain ⟨c, q, hc⟩ := h.entered i (by simpa [hne] using hi)
      have hcb : c ≠ b := by
        rintro rfl
        cases hb.symm.trans hc
      exact ⟨c, q, (Function.update_of_ne hcb ..).trans hc⟩
  job := h.job
  inj := h.inj
  listed := h.listed
  nodup := h.nodup

theorem delEntry (h : Sim index v z) (hsingle : ∀ c j, v.entries c = some (t, j) → c = b)
    (hb : v.entries b = some (t, j)) : Sim index (v.setEntry b none)
      (z.setTask t { z.tasks t with thread := none }) where
  ntasks := h.ntasks
  maxJid := h.maxJid
  jobList := h.jobList
  task i := by
    show (v.tasks i).Sim index _
    rcases eq_or_ne i t with rfl | hne
    · simpa using ⟨(h.task i).pc, (h.task i).life, (h.task i).job⟩
    · simpa [hne] using h.task i
  entry c i q hc := by
    have hcb : c ≠ b := by
      rintro rfl
      simp [View.setEntry] at hc
    have hold : v.entries c = some (i, q) := by simpa [View.setEntry, hcb] using hc
    have hi : i ≠ t := by
      rintro rfl
      exact hcb (hsingle c q hold)
    simpa [hi] using h.entry c i q hold
  entered i hi := by
    have hne : i ≠ t := by
      rintro rfl
      simp at hi
    obtain ⟨c, q, hc⟩ := h.entered i (by simpa [hne] using hi)
    have hcb : c ≠ b := by
      rintro rfl
      cases hb.symm.trans hc
      exact hne rfl
    exact ⟨c, q, (Function.update_of_ne hcb ..).trans hc⟩
  job := h.job
  inj := h.inj
  listed := h.listed
  nodup := h.nodup

theorem stay (h : Sim index v z) (hk : k.Sim index (z.tasks t)) :
    Sim index (v.setTask t k) z := by
  have hself : z.setTask t (z.tasks t) = z := by simp [Sys.setTask]
  rw [← hself]
  exact h.setTask hk rfl

theorem addTask (h : Sim index v z) (hk : k.Sim index m) (hm : m.thread = none)
    (hnone : ∀ b j, v.entries b ≠ some (v.ntasks, j)) :
    Sim index { v with tasks := Function.update v.tasks v.ntasks k, ntasks := v.ntasks + 1 }
      (z.addTask m) where
  ntasks := by simp [Sys.addTask, h.ntasks]
  maxJid := h.maxJid
  jobList := h.jobList
  task i := by
    rcases eq_or_ne i v.ntasks with rfl | hne
    · simpa [Sys.addTask, h.ntasks] using hk
    · simpa [Sys.addTask, h.ntasks, hne] using h.task i
  entry b i j hb := by
    have hne : i ≠ v.ntasks := by
      rintro rfl
      exact hnone b j hb
    simpa [Sys.addTask, h.ntasks, hne] using h.entry b i j hb
  entered i hi := by
    rcases eq_or_ne i v.ntasks with rfl | hne
    · simp [Sys.addTask, h.ntasks, hm] at hi
    · exact h.entered i (by simpa [Sys.addTask, h.ntasks, hne] using hi)
  job := h.job
  inj := h.inj
  listed := h.listed
  nodup := h.nodup

theorem inj_update (h : Sim index v z) (j j' : Nat)
    (hj : (v.addJob a).jobs j ≠ none) (hj' : (v.addJob a).jobs j' ≠ none)
    (he : Function.update index a z.njobs j = Function.update index a z.njobs j') : j = j' := by
  have hless : ∀ i, i ≠ a → (v.addJob a).jobs i ≠ none →
      v.jobs i ≠ none ∧ index i ≠ z.njobs := by
    intro i hne hi
    have hold : v.jobs i ≠ none := by simpa [View.addJob, hne] using hi
    obtain ⟨⟨jid, n⟩, hx⟩ := Option.ne_none_iff_exists'.mp hold
    exact ⟨hold, (h.job i jid n hx).1.ne⟩
  rcases eq_or_ne j a with heq | hne <;> rcases eq_or_ne j' a with heq' | hne'
  · exact heq.trans heq'.symm
  · rw [heq, Function.update_self, Function.update_of_ne hne'] at he
    exact absurd he.symm (hless j' hne' hj').2
  · rw [heq', Function.update_self, Function.update_of_ne hne] at he
    exact absurd he (hless j hne hj).2
  · rw [Function.update_of_ne hne, Function.update_of_ne hne'] at he
    exact h.inj j j' (hless j hne hj).1 (hless j' hne' hj').1 he

theorem addJob (h : Sim index v z) (ha : v.jobs a = none)
    (hmember : ∀ t j, (v.tasks t).life ≠ .exited → (v.tasks t).membership = some j →
      v.jobs j ≠ none)
    (hfork : ∀ t j, (v.tasks t).life = .forking (some j) → v.jobs j ≠ none)
    (hentry : ∀ b t j, v.entries b = some (t, j) → v.jobs j ≠ none) :
    Sim (Function.update index a z.njobs) (v.addJob a) { z with
      jobs := Function.update z.jobs z.njobs { id := incJid z.maxJid, aliveProc := 1 }
      njobs := z.njobs + 1
      jobList := z.jobList ++ [z.njobs]
      maxJid := incJid z.maxJid } := by
  have hindex : ∀ j, v.jobs j ≠ none → Function.update index a z.njobs j = index j := by
    intro j hj
    refine Function.update_of_ne ?_ ..
    rintro rfl
    exact hj ha
  refine ⟨h.ntasks, congrArg incJid h.maxJid, ?_, fun t => ⟨(h.task t).pc, ?_, fun hx => ?_⟩, ?_,
    h.entered, ?_, h.inj_update, ?_, ?_⟩
  · show z.jobList ++ [z.njobs] = (v.jobList ++ [a]).map _
    have hold : v.jobList.map (Function.update index a z.njobs) = v.jobList.map index :=
      List.map_congr_left fun j hj => hindex j ((h.listed j).mp hj)
    rw [List.map_append, hold, h.jobList]
    simp
  · refine (h.task t).life.trans ?_
    exact Life.number_congr fun j hl => (hindex j (hfork t j hl)).symm
  · refine ((h.task t).job hx).trans ?_
    show (v.tasks t).membership.map index = (v.tasks t).membership.map _
    exact Option.map_congr fun j hj => (hindex j (hmember t j hx hj)).symm
  · intro b t j hb
    rw [hindex j (hentry b t j hb)]
    exact h.entry b t j hb
  · intro j jid n hj
    rcases eq_or_ne j a with rfl | hne
    · simp only [View.addJob, Function.update_self, Option.some.injEq, Prod.mk.injEq] at hj
      simp [← hj.1, ← hj.2, h.maxJid]
    · have hold : v.jobs j = some (jid, n) := by simpa [View.addJob, hne] using hj
      obtain ⟨hlt, hjob⟩ := h.job j jid n hold
      rw [hindex j (by simp [hold])]
      exact ⟨Nat.lt_succ_of_lt hlt, by simpa [hlt.ne] using hjob⟩
  · intro j
    show j ∈ v.jobList ++ [a] ↔ _
    rw [List.mem_append, h.listed j, List.mem_singleton]
    rcases eq_or_ne j a with rfl | hne
    · simp [View.addJob]
    · simp [View.addJob, hne]
  · refine List.nodup_append.mpr ⟨h.nodup, List.nodup_singleton a, ?_⟩
    rintro j hj j' hj' rfl
    obtain rfl := List.mem_singleton.mp hj'
    exact (h.listed j).mp hj ha

theorem get {s : Store} {job : Job} (h : Sim index s.view z) (hj : s.jobs j = some job) :
    Sim index (s.setJob j (some job.get)).view (Yasched.getThread z (index j)) := by
  have hview : s.view.jobs j = some job.view := by simp [Store.view, hj]
  obtain ⟨-, hid, hn, hfreed⟩ := h.job j _ _ hview
  rw [view_setJob]
  exact h.setJob (by simp [hview]) hid (by simp [hn, Job.get]) hfreed

theorem put {s : Store} {job : Job} (h : Sim index s.view z) (hj : s.jobs j = some job) :
    Sim index (s.put j job).view (Yasched.putThread z (index j)) := by
  have hview : s.view.jobs j = some job.view := by simp [Store.view, hj]
  obtain ⟨-, hid, hn, hfreed⟩ := h.job j _ _ hview
  have hset : Sim index (s.view.setJob j job.id (job.aliveProc - 1)) (z.setJob (index j)
      { z.jobs (index j) with aliveProc := (z.jobs (index j)).aliveProc - 1 }) :=
    h.setJob (by simp [hview]) hid (by simp [hn]) hfreed
  by_cases h1 : job.aliveProc = 1
  · have hput : s.put j job = s.delJob j job := if_pos h1
    have hzero : (z.jobs (index j)).aliveProc - 1 = 0 := by simp [hn, h1]
    have hdel : s.view.delJob j = (s.view.setJob j job.id (job.aliveProc - 1)).delJob j := by
      simp [View.delJob, View.setJob]
    rw [hput, view_delJob, hdel, Yasched.putThread, if_pos hzero]
    exact hset.delJob (by simp [View.setJob])
  · have hput : s.put j job = s.setJob j (some job.put) := if_neg h1
    have hpos : (z.jobs (index j)).aliveProc - 1 ≠ 0 := by
      simp only [hn]
      omega
    rw [hput, view_setJob, Yasched.putThread, if_neg hpos]
    exact hset

end Sim

-- ---------------------------------------------------------------------------
-- The steps
-- ---------------------------------------------------------------------------

section
variable {z : Sys}

theorem run_single (h : Yasched.step .all z e = some z') :
    Runs.run (Yasched.step .all) z [e] = some z' := by
  simp [Runs.run, h]

theorem run_tries (hl : (z.tasks t).life = .tail tries) (hj : (z.tasks t).job = some p)
    (hpc : (z.tasks t).pc = .user) (hn : tries + (n + 1) = allocTries) :
    Runs.run (Yasched.step .all) z (List.replicate (n + 1) (.tryThread t .running false)) =
      some (z.setTask t { z.tasks t with life := .live }) := by
  induction n generalizing tries z with
  | zero =>
    refine run_single ?_
    simp [Yasched.step, tryNewThread, hl, hj, hpc, ← hn]
  | succ n ih =>
    have hlt : tries + 1 < allocTries := by omega
    have hfirst : Yasched.step .all z (.tryThread t .running false) =
        some (z.setTask t { z.tasks t with life := .tail (tries + 1) }) := by
      simp [Yasched.step, tryNewThread, hl, hj, hpc, hlt]
    rw [List.replicate_succ, Runs.run_cons]
    refine ⟨_, hfirst, ?_⟩
    have hlife : ((z.setTask t { z.tasks t with life := .tail (tries + 1) }).tasks t).life =
        .tail (tries + 1) := by simp
    rw [ih hlife (by simp [hj]) (by simp [hpc]) (by omega)]
    simp [Sys.setTask]

end

/-- What a reachable store is known to be, with the entries on the slots of
their tasks. -/
structure Sound (size : Nat) (s : Store) : Prop where
  forks : Forks s
  counts : Counts s
  tables : Tables s
  joined : Joined s
  onSlot : AllOnSlot size s

theorem Sound.step (h : Sound size s) (hk : KeepsSlot size s e) (hs : step size s e = some s') :
    Sound size s' :=
  ⟨step_forks h.forks h.counts hs, step_counts h.forks h.counts hs,
    step_tables h.forks h.counts h.tables hs, step_joined h.forks h.counts h.tables h.joined hs,
    (step_allOnSlot h.forks h.counts h.tables h.onSlot hs).mpr hk⟩

theorem init_sound : Sound size (init n pid leader dirFails rootdir dir proc) :=
  ⟨init_forks, init_counts, init_tables, init_joined, fun _ _ hb => nomatch hb⟩

theorem entries_some {s : Store} (h : s.view.entries b = some (t, j)) :
    ∃ thread, s.threads b = some thread ∧ thread.task = t ∧ thread.job = j := by
  obtain ⟨thread, hb, hthread⟩ := Option.map_eq_some_iff.mp h
  exact ⟨thread, hb, congrArg Prod.fst hthread, congrArg Prod.snd hthread⟩

theorem Sound.job_of_entry (h : Sound size s) (hb : s.view.entries b = some (t, j)) :
    s.view.jobs j ≠ none := by
  obtain ⟨thread, hthread, -, rfl⟩ := entries_some hb
  obtain ⟨job, hjob⟩ := h.counts.held.thread b thread hthread
  simp [Store.view, hjob]

theorem Task.member_iff {k : Task} (hf : k.Fits) :
    k.Member j ↔ k.life ≠ .exited ∧ k.membership = some j := by
  cases hl : k.life <;> simp_all [Task.Fits, Task.Member, Task.membership]

theorem Sound.job_of_membership (h : Sound size s) (hk : (s.tasks t).life ≠ .exited)
    (hj : (s.tasks t).membership = some j) : s.view.jobs j ≠ none := by
  obtain ⟨job, hjob⟩ := h.joined.job_of_member ((Task.member_iff (h.joined.fits t)).mpr ⟨hk, hj⟩)
  simp [Store.view, hjob]

theorem Sound.job_of_fork (h : Sound size s) (hl : (s.tasks t).life = .forking (some j)) :
    s.view.jobs j ≠ none := by
  obtain ⟨job, hjob⟩ := h.counts.held.task t j (.inl hl)
  simp [Store.view, hjob]

theorem Sound.single (h : Sound size s) (hb : s.view.entries b = some (t, j))
    (hc : s.view.entries c = some (t, i)) : c = b := by
  obtain ⟨thread, hb, htask, -⟩ := entries_some hb
  obtain ⟨other, hc, htask', -⟩ := entries_some hc
  exact h.tables.single c b other thread hc hb (htask'.trans htask.symm)

theorem Sound.search_none (h : Sound size s) (hl : (s.tasks t).life = .live)
    (hsearch : searchThreadByTask size s t = none) : s.view.entries b ≠ some (t, j) := by
  intro hb
  obtain ⟨thread, hthread, rfl, -⟩ := entries_some hb
  have howns := h.tables.owner b thread hthread
  have hfound := (h.onSlot b thread hthread).found (by simpa [Task.Owns, hl] using howns)
  cases hsearch.symm.trans hfound

section
variable {s s' : Store} {z : Sys}

theorem Sim.ready (h : Sim index s.view z) (hl : (s.tasks t).life = .live) :
    (z.tasks t).Ready :=
  ⟨(h.task t).life.trans (by simp [Store.view, hl, Life.number]), (h.task t).pc⟩

theorem Sim.job_eq (h : Sim index s.view z) (hk : (s.tasks t).life ≠ .exited)
    (hx : ∀ tsi, (s.tasks t).life ≠ .execing tsi) :
    (z.tasks t).job = (s.tasks t).job.map index := by
  refine ((h.task t).job hk).trans ?_
  show (s.tasks t).membership.map index = _
  unfold Task.membership
  split
  · exact absurd ‹_› (hx _)
  · rfl

theorem Sim.thread_none (h : Sim index s.view z) (hb : ∀ b j, s.view.entries b ≠ some (t, j)) :
    (z.tasks t).thread = none := by
  by_contra hne
  obtain ⟨b, j, hx⟩ := h.entered t hne
  exact hb b j hx

theorem Sim.resume (h : Sim index s.view z)
    (hl : (s.tasks t).life = .born ∨ ∃ o, (s.tasks t).life = .forking o) :
    Sim index (s.setLife t .live).view (z.setTask t { z.tasks t with life := .live }) := by
  rcases hl with hl | ⟨o, hl⟩ <;>
  exact h.setLife (by simp [Store.view, hl])
    (by simp [Store.view, Task.membership, hl]) rfl

theorem newJob_sim (h : Sim index s.view z) (hsound : Sound size s)
    (hl : (s.tasks t).life = .live) (hj : (s.tasks t).job = none) (ha : s.jobs a = none)
    (hb : s.threads b = none) :
    Runs.run (Yasched.step .all) z [.execve t .running [true, true]] =
        some (Yasched.yaInitJob z t .running) ∧
      Sim (Function.update index a z.njobs)
        ((s.newJob size t a b dir entry dirFails fileFails).setLife t (.execing (some a))).view
        (Yasched.yaInitJob z t .running) := by
  have hjob := h.job_eq (t := t) (by simp [hl]) (by simp [hl])
  have hnone : (z.tasks t).thread = none := by
    refine h.thread_none fun b j hb => ?_
    obtain ⟨thread, hthread, rfl, -⟩ := entries_some hb
    have howns := hsound.tables.owner b thread hthread
    simp [Task.Owns, hl, hj] at howns
  constructor
  · refine run_single ?_
    simp [Yasched.step, execveAgent, h.ready hl, hjob, hj, Hooks.all, Yasched.yaNewJob,
      kmemCacheAlloc, allocTries]
  · have hadd := h.addJob (a := a) (by simp [Store.view, ha])
      (fun _ _ hk hj => hsound.job_of_membership hk hj) (fun _ _ hl => hsound.job_of_fork hl)
      (fun _ _ _ hb => hsound.job_of_entry hb)
    have hinit : (initThread z.njobs .running).job = Function.update index a z.njobs a := by
      simp [initThread]
    have hentry := hadd.addEntry (b := b) (t := t) (j := a)
      (by simp [View.addJob, Store.view, hb]) hnone hinit
    have hview : ((s.newJob size t a b dir entry dirFails fileFails).setLife t
        (.execing (some a))).view = ((s.view.addJob a).setEntry b (some (t, a))).setTask t
          { s.tasks t with life := .execing (some a) } := by
      have hnew : (s.newJob size t a b dir entry dirFails fileFails).view =
          (s.view.addJob a).setEntry b (some (t, a)) := view_newJob
      rw [← hnew]
      rfl
    have htask := hentry.setTask (t := t) (k := { s.tasks t with life := .execing (some a) })
      (m := { z.tasks t with
        job := some z.njobs, thread := some (initThread z.njobs .running) })
      ⟨(h.task t).pc, (h.ready hl).1, fun _ => by simp [Task.membership]⟩ (by simp)
    rw [hview]
    convert htask using 1
    simp [Yasched.yaInitJob, Sys.setTask]

theorem returned_sim (h : Sim index s.view z) (hsound : Sound size s)
    (hl : (s.tasks t).life = .execing tsi) :
    Sim index (s.setTask t (s.returned t tsi ok)).view z := by
  have hlife : (z.tasks t).life = .live :=
    (h.task t).life.trans (by simp [Store.view, hl, Life.number])
  have hjob : (z.tasks t).job = tsi.map index := by
    have hjob := (h.task t).job (by simp [Store.view, hl])
    simpa [Store.view, Task.membership, hl] using hjob
  have hkeeps : tsi.or (s.tasks t).job = tsi := by
    rcases hsound.joined.execing hl with hnone | hsame
    · simp [hnone]
    · simp [hsame]
  refine h.stay ⟨(h.task t).pc, hlife, fun _ => ?_⟩
  simpa [Task.membership, hkeeps] using hjob

theorem forking_sim (h : Sim index s.view z) (hl : (s.tasks t).life = .live) :
    Sim index (s.setLife t (.forking o)).view
      (z.setTask t { z.tasks t with life := .forking (o.map index) }) :=
  h.setLife (by simp [Store.view, hl]) (by simp [Store.view, Task.membership, hl]) rfl

theorem child_sim (h : Sim index s.view z) (hsound : Sound size s)
    (hl : (s.tasks t).life = .forking o) :
    ∃ z', Runs.run (Yasched.step .all) z [.child t] = some z' ∧
      Sim index (forkChild s t pid grouped).view z' := by
  have hlife : (z.tasks t).life = .forking (o.map index) :=
    (h.task t).life.trans (by simp [Store.view, hl, Life.number])
  have hjob : (z.tasks t).job = (s.tasks t).job.map index :=
    h.job_eq (by simp [hl]) (by simp [hl])
  have hstep : Yasched.step .all z (.child t) =
      some ((z.setTask t { z.tasks t with life := .live }).addTask
        { job := (z.tasks t).job, life := .born }) := by
    simp [Yasched.step, Yasched.forkChild, hlife, (h.task t).pc]
  refine ⟨_, run_single hstep, ?_⟩
  refine (h.resume (.inr ⟨o, hl⟩)).addTask ⟨rfl, rfl, fun _ => hjob⟩ rfl fun b j hb => ?_
  obtain ⟨thread, hthread, htask, -⟩ := entries_some hb
  have howns := hsound.tables.owner b thread hthread
  have hunborn : s.tasks thread.task = {} := hsound.forks.unborn _ (htask ▸ le_rfl)
  simp [hunborn, Task.Owns] at howns

theorem attach_sim {job : Job} {entry : DirEntry} (h : Sim index s.view z) (hsound : Sound size s)
    (hl : (s.tasks t).life = .born) (hj : (s.tasks t).job = some j) (hjob : s.jobs j = some job)
    (hb : s.threads b = none) :
    ∃ z', Runs.run (Yasched.step .all) z [.scheduleTail t, .tryThread t .running true] = some z' ∧
      Sim index (((s.setLife t .live).attach size t b j job entry).addThreadFile b
        { task := t, job := j, entry } (job.attach (s.slot size t) b) fileFails).view z' := by
  have hlife : (z.tasks t).life = .born :=
    (h.task t).life.trans (by simp [Store.view, hl, Life.number])
  have hjob' : (z.tasks t).job = some (index j) := by
    rw [h.job_eq (by simp [hl]) (by simp [hl]), hj, Option.map_some]
  have hnone : (z.tasks t).thread = none := by
    refine h.thread_none fun b j hb => ?_
    obtain ⟨thread, hthread, rfl, -⟩ := entries_some hb
    have howns := hsound.tables.owner b thread hthread
    simp [Task.Owns, hl] at howns
  have hinit : (initThread (index j) .running).job = index j := rfl
  have hentry := (h.resume (.inl hl)).addEntry (b := b) (t := t) (j := j)
    (by simp [Store.view, hb]) (by simp [hnone]) hinit
  refine ⟨z.setTask t { z.tasks t with
    thread := some (initThread (index j) .running), life := .live }, ?_, ?_⟩
  · simp [Runs.run, Yasched.step, Yasched.scheduleTailAgent, tryNewThread, hlife, hjob',
      (h.task t).pc, Hooks.all, Sys.setTask]
  · rw [view_addThreadFile (by exact Function.update_self ..), view_attach (by exact hjob)]
    simpa [Sys.setTask] using hentry

theorem tail_sim (h : Sim index s.view z) (hl : (s.tasks t).life = .born)
    (ho : (s.tasks t).job = none ∨ alloc = none) :
    ∃ z', Runs.run (Yasched.step .all) z (numbered s (.scheduleTail t alloc fileFails)) = some z' ∧
      Sim index (s.setLife t .live).view z' := by
  have hlife : (z.tasks t).life = .born :=
    (h.task t).life.trans (by simp [Store.view, hl, Life.number])
  have hjob : (z.tasks t).job = (s.tasks t).job.map index :=
    h.job_eq (by simp [hl]) (by simp [hl])
  refine ⟨z.setTask t { z.tasks t with life := .live }, ?_, h.resume (.inl hl)⟩
  cases hj : (s.tasks t).job with
  | none =>
    have hstep : Yasched.step .all z (.scheduleTail t) =
        some (z.setTask t { z.tasks t with life := .live }) := by
      simp [Yasched.step, Yasched.scheduleTailAgent, hlife, hjob, hj, (h.task t).pc]
    simpa [numbered, hj] using run_single hstep
  | some j =>
    obtain rfl := ho.resolve_left (by simp [hj])
    have hstep : Yasched.step .all z (.scheduleTail t) =
        some (z.setTask t { z.tasks t with life := .tail 0 }) := by
      simp [Yasched.step, Yasched.scheduleTailAgent, hlife, hjob, hj, (h.task t).pc, Hooks.all]
    have hzero : ((z.setTask t { z.tasks t with life := .tail 0 }).tasks t).life = .tail 0 := by
      simp
    have htries := run_tries (n := 8) (p := index j) hzero (by simp [hjob, hj])
      (by simp [(h.task t).pc]) rfl
    have hnumbered : numbered s (.scheduleTail t none fileFails) =
        .scheduleTail t :: List.replicate allocTries (.tryThread t .running false) := by
      simp [numbered, hj]
    rw [hnumbered, Runs.run_cons]
    refine ⟨_, hstep, htries.trans ?_⟩
    simp [Sys.setTask]

theorem exit_sim {thread : Thread} {job : Job} (h : Sim index s.view z) (hsound : Sound size s)
    (hl : (s.tasks t).life = .live) (hb : s.threads b = some thread) (htask : thread.task = t)
    (hjob : s.jobs thread.job = some job) :
    ∃ z', Runs.run (Yasched.step .all) z [.exit t] = some z' ∧ Sim index
      (((s.setLife t .exited).delThread b thread job).put thread.job (job.detach b)).view z' := by
  have hview : s.view.entries b = some (t, thread.job) := by
    simp [Store.view, hb, Thread.view, htask]
  obtain ⟨found, hfound, hfoundJob⟩ := Option.map_eq_some_iff.mp (h.entry b t thread.job hview)
  have hstep : Yasched.step .all z (.exit t) = some (Yasched.putThread
      (z.setTask t { z.tasks t with thread := none, life := .exited }) (index thread.job)) := by
    simp [Yasched.step, Yasched.enterExitHook, h.ready hl, Hooks.all, hfound, hfoundJob]
  refine ⟨_, run_single hstep, ?_⟩
  have hexited : Sim index (s.view.setTask t { s.tasks t with life := .exited })
      (z.setTask t { z.tasks t with life := .exited }) :=
    h.setLife (by simp) (by simp) rfl
  have hentry := hexited.delEntry (b := b) (t := t) (j := thread.job)
    (fun c j hc => hsound.single hview hc) hview
  have hdel : ((s.setLife t .exited).delThread b thread job).view =
      (s.view.setTask t { s.tasks t with life := .exited }).setEntry b none :=
    view_delThread (s := s.setLife t .exited) hjob
  refine Sim.put ?_ Store.delThread_job
  rw [hdel]
  simpa [Sys.setTask] using hentry

theorem step_sim (h : Sim index s.view z) (hsound : Sound size s)
    (hs : step size s e = some s') :
    ∃ z' index', Runs.run (Yasched.step .all) z (numbered s e) = some z' ∧
      Sim index' s'.view z' := by
  cases step_effect hsound.counts.held hs with
  | @execve t zone o o' dirFails fileFails hl hno =>
    refine ⟨z, index, by simp [numbered, hno], h.stay ⟨(h.task t).pc, (h.ready hl).1, fun _ => ?_⟩⟩
    exact h.job_eq (by simp [hl]) (by simp [hl])
  | @newJob t a b zone dir entry dirFails fileFails hl hj ha ha0 hb hb0 hz =>
    obtain ⟨hrun, hsim⟩ := newJob_sim h hsound hl hj ha hb
    have hcreates : CreatesJob s t zone (some (a, dir)) (some (b, entry)) :=
      ⟨hj, hz, by simp, by simp⟩
    exact ⟨_, _, by simpa [numbered, hcreates] using hrun, hsim⟩
  | execveReturn hl => exact ⟨z, index, rfl, returned_sim h hsound hl⟩
  | @fork t j job hl hj hjob =>
    have hjob' := h.job_eq (t := t) (by simp [hl]) (by simp [hl])
    have hstep : Yasched.step .all z (.fork t) = some (Yasched.getThread
        (z.setTask t { z.tasks t with life := .forking (some (index j)) }) (index j)) := by
      simp [Yasched.step, Yasched.doForkAgent, h.ready hl, hjob', hj, Hooks.all]
    exact ⟨_, index, run_single hstep, (forking_sim h hl).get hjob⟩
  | @forkFaults t j hl hj hnone =>
    obtain ⟨job, hjob⟩ := hsound.joined.job_of_member (t := t) (j := j)
      (by simp [Task.Member, hl, hj])
    cases hnone.symm.trans hjob
  | @forkPlain t hl hj =>
    have hjob := h.job_eq (t := t) (by simp [hl]) (by simp [hl])
    have hstep : Yasched.step .all z (.fork t) =
        some (z.setTask t { z.tasks t with life := .forking none }) := by
      simp [Yasched.step, Yasched.doForkAgent, h.ready hl, hjob, hj, Hooks.all]
    exact ⟨_, index, run_single hstep, forking_sim h hl⟩
  | child hl =>
    obtain ⟨z', hrun, hsim⟩ := child_sim h hsound hl
    exact ⟨z', index, hrun, hsim⟩
  | @forkFail t j job hl hjob =>
    have hlife : (z.tasks t).life = .forking (some (index j)) :=
      (h.task t).life.trans (by simp [Store.view, hl, Life.number])
    have hstep : Yasched.step .all z (.forkFail t) = some (Yasched.putThread
        (z.setTask t { z.tasks t with life := .live }) (index j)) := by
      simp [Yasched.step, Yasched.forkFail, hlife, (h.task t).pc]
    exact ⟨_, index, run_single hstep, (h.resume (.inr ⟨_, hl⟩)).put hjob⟩
  | @forkFailPlain t hl =>
    have hlife : (z.tasks t).life = .forking none :=
      (h.task t).life.trans (by simp [Store.view, hl, Life.number])
    have hstep : Yasched.step .all z (.forkFail t) =
        some (z.setTask t { z.tasks t with life := .live }) := by
      simp [Yasched.step, Yasched.forkFail, hlife, (h.task t).pc]
    exact ⟨_, index, run_single hstep, h.resume (.inr ⟨_, hl⟩)⟩
  | @attach t j b entry fileFails job hl hj hjob hb hb0 =>
    obtain ⟨z', hrun, hsim⟩ := attach_sim h hsound hl hj hjob hb
    exact ⟨z', index, by simpa [numbered, hj] using hrun, hsim⟩
  | tail hl ho =>
    obtain ⟨z', hrun, hsim⟩ := tail_sim h hl ho
    exact ⟨z', index, hrun, hsim⟩
  | exit hl hb htask hjob =>
    obtain ⟨z', hrun, hsim⟩ := exit_sim h hsound hl hb htask hjob
    exact ⟨z', index, hrun, hsim⟩
  | @exitPlain t hl hsearch =>
    have hnone : (z.tasks t).thread = none :=
      h.thread_none fun b j => hsound.search_none hl hsearch
    have hstep : Yasched.step .all z (.exit t) =
        some (z.setTask t { z.tasks t with life := .exited }) := by
      simp [Yasched.step, Yasched.enterExitHook, h.ready hl, hnone]
    exact ⟨_, index, run_single hstep, h.setLife (by simp)
      (by simp) rfl⟩

end

-- ---------------------------------------------------------------------------
-- Whole runs
-- ---------------------------------------------------------------------------

theorem init_sim (n : Nat) (pid leader : Nat → Nat) (dirFails : Bool) (rootdir : Option Path)
    (dir : DirEntry) (proc : Finset Path) :
    Sim (fun _ => 0) (init n pid leader dirFails rootdir dir proc).view (Yasched.init n) where
  ntasks := rfl
  maxJid := rfl
  jobList := rfl
  task t := by
    by_cases ht : t < n <;>
    exact ⟨by simp [Yasched.init, ht], by simp [Yasched.init, Store.view, init, ht, Life.number],
      by simp [Yasched.init, Store.view, init, ht, Task.membership]⟩
  entry b t j hb := by simp [Store.view, init] at hb
  entered t ht := by
    by_cases hn : t < n <;> simp [Yasched.init, hn] at ht
  job a jid n hj := by simp [Store.view, init] at hj
  inj a a' ha := by simp [Store.view, init] at ha
  listed a := by simp [Store.view, init]
  nodup := List.nodup_nil

/-- The numbered system follows every run of a store whose entries stay on the
slots of their tasks. -/
theorem simulates
    (hr : Runs.run (step size) (init n pid leader dirFails rootdir dir proc) es = some s)
    (hk : Runs.Along (step size) (KeepsSlot size) (init n pid leader dirFails rootdir dir proc)
      es) :
    ∃ z index, Runs.run (Yasched.step .all) (Yasched.init n) (Runs.translate (step size) numbered
        (init n pid leader dirFails rootdir dir proc) es) = some z ∧ Sim index s.view z := by
  obtain ⟨z, hz, -, index, hsim⟩ := Runs.simulation
    (R := fun s z => Sound size s ∧ ∃ index, Sim index s.view z)
    (fun s e s' z ⟨hsound, index, hsim⟩ hp hs => by
      obtain ⟨z', index', hrun, hsim'⟩ := step_sim hsim hsound hs
      exact ⟨z', hrun, hsound.step hp hs, index', hsim'⟩)
    ⟨init_sound, _, init_sim n pid leader dirFails rootdir dir proc⟩ hk hr
  exact ⟨z, index, hz, hsim⟩

def ByLeader (s : Store) : Event → Prop
  | .execveReturn t _ => (s.tasks t).leader = t
  | _ => True

instance (s : Store) (e : Event) : Decidable (ByLeader s e) := by
  unfold ByLeader
  split <;> infer_instance

theorem ByLeader.keepsSlot (h : ByLeader s e) : KeepsSlot size s e := by
  unfold KeepsSlot
  split
  · rename_i t
    intro b thread hb ht
    have hleader : (s.tasks t).leader = t := h
    rw [hleader]
  · trivial

theorem along_keepsSlot (h : Runs.Along (step size) ByLeader s es) :
    Runs.Along (step size) (KeepsSlot size) s es :=
  Runs.along_of_along (I := fun _ => True) (fun _ _ _ hl => hl.keepsSlot)
    (fun _ _ _ _ _ _ => trivial) trivial h

def sampleLives : List Event :=
  sampleJob ++ [.fork 0, .child 0 2 false, .scheduleTail 1 none false, .exit 0]

theorem simulates_lives : ∃ s, Runs.run (step 64) (sampleInit 1) sampleLives = some s ∧
    ∃ z index, Runs.run (Yasched.step .all) (Yasched.init 1) (Runs.translate (step 64) numbered
      (sampleInit 1) sampleLives) = some z ∧ Sim index s.view z := by
  obtain ⟨s, hr⟩ : ∃ s, Runs.run (step 64) (sampleInit 1) sampleLives = some s := ⟨_, rfl⟩
  exact ⟨s, hr, simulates hr (along_keepsSlot (by decide))⟩

-- ---------------------------------------------------------------------------
-- What the numbered system says of the store
-- ---------------------------------------------------------------------------

def members (s : Store) (j : Nat) : Finset Nat :=
  {t ∈ Finset.range s.ntasks | (s.tasks t).Member j}

def forks (s : Store) (j : Nat) : Finset Nat :=
  {t ∈ Finset.range s.ntasks | (s.tasks t).life = .forking (some j)}

/-- An exit finds the entry of its task, if the task is in a job. -/
def FindsEntry (size : Nat) (s : Store) : Event → Prop
  | .exit t => (s.tasks t).job ≠ none → searchThreadByTask size s t ≠ none
  | _ => True

instance (size : Nat) (s : Store) (e : Event) : Decidable (FindsEntry size s e) := by
  unfold FindsEntry
  split <;> infer_instance

section
variable {s s' : Store} {z : Sys}

theorem Sim.puts (h : Sim index s.view z) (hp : FindsEntry size s e) (he : e = .exit t)
    (hl : (s.tasks t).life = .live) (hj : (z.tasks t).job ≠ none) :
    (z.tasks t).thread ≠ none := by
  subst he
  rw [h.job_eq (t := t) (by simp [hl]) (by simp [hl])] at hj
  have hsearch := hp (by simpa using hj)
  obtain ⟨b, hb⟩ := Option.ne_none_iff_exists'.mp hsearch
  obtain ⟨thread, hthread, htask⟩ := searchThreadByTask_some hb
  have hentry := h.entry b t thread.job (by simp [Store.view, hthread, Thread.view, htask])
  intro hnone
  simp [hnone] at hentry

theorem numbered_puts (h : Sim index s.view z) (hp : FindsEntry size s e)
    (hs : step size s e = some s') :
    Runs.Along (Yasched.step .all) PutsOnExit z (numbered s e) := by
  have hother : ∀ es z, (∀ t, Yasched.Event.exit t ∉ es) →
      Runs.Along (Yasched.step .all) PutsOnExit z es := by
    intro es
    induction es with
    | nil => exact fun _ _ => trivial
    | cons e es ih =>
      intro z hes z' hz
      refine ⟨?_, ih z' fun t ht => hes t (List.mem_cons_of_mem e ht)⟩
      rintro t rfl
      exact absurd List.mem_cons_self (hes t)
  cases e with
  | exit t =>
    have hl : (s.tasks t).life = .live := by
      by_contra hl
      simp [step, hl] at hs
    refine fun z' hz => ⟨?_, trivial⟩
    rintro i ⟨⟩ hj
    exact h.puts hp rfl hl hj
  | scheduleTail t alloc fileFails =>
    refine hother _ z fun i hi => ?_
    simp only [numbered, List.mem_cons, reduceCtorEq, false_or] at hi
    split at hi
    · cases hi
    · split at hi
      · cases List.eq_of_mem_replicate hi
      · simp at hi
  | execve t zone o o' dirFails fileFails =>
    refine hother _ z fun i hi => ?_
    simp only [numbered] at hi
    split at hi <;> simp at hi
  | execveReturn | fork | child | forkFail =>
    exact hother _ z fun i hi => by simp [numbered] at hi

theorem Sim.member_iff (h : Sim index s.view z) (hsound : Sound size s)
    (ha : s.view.jobs a ≠ none) : (s.tasks t).Member a ↔
      (z.tasks t).job = some (index a) ∧ (z.tasks t).life ≠ .exited := by
  have hlife : (z.tasks t).life ≠ .exited ↔ (s.tasks t).life ≠ .exited := by
    rw [(h.task t).life]
    show (s.tasks t).life.number index ≠ .exited ↔ _
    cases (s.tasks t).life <;> simp [Life.number]
  rw [Task.member_iff (hsound.joined.fits t), ← hlife, and_comm]
  refine and_congr_left fun hx => ?_
  have hjob : (z.tasks t).job = (s.tasks t).membership.map index := (h.task t).job (hlife.mp hx)
  rw [hjob]
  constructor
  · rintro hm
    rw [hm, Option.map_some]
  · intro hm
    obtain ⟨j, hj, he⟩ := Option.map_eq_some_iff.mp hm
    rw [hj, h.inj j a (hsound.job_of_membership (hlife.mp hx) hj) ha he]

theorem Sim.fork_iff (h : Sim index s.view z) (hsound : Sound size s)
    (ha : s.view.jobs a ≠ none) : (s.tasks t).life = .forking (some a) ↔
      (z.tasks t).life = .forking (some (index a)) := by
  rw [(h.task t).life]
  show _ ↔ (s.tasks t).life.number index = _
  cases hl : (s.tasks t).life with
  | forking o =>
    simp only [Life.number, Yasched.Life.forking.injEq, Life.forking.injEq]
    constructor
    · rintro rfl
      rfl
    · intro ho
      obtain ⟨j, rfl, he⟩ := Option.map_eq_some_iff.mp ho
      rw [h.inj j a (hsound.job_of_fork hl) ha he]
  | _ => simp [Life.number]

theorem Sim.references (h : Sim index s.view z) (hsound : Sound size s)
    (ha : s.view.jobs a ≠ none) :
    references z (index a) = (members s a).card + (forks s a).card := by
  have hn : z.ntasks = s.ntasks := h.ntasks
  have hmembers : jobTasks z (index a) = members s a := by
    simp only [jobTasks, members, hn, h.member_iff hsound ha]
  have hforks : forksInProgress z (index a) = forks s a := by
    simp only [forksInProgress, forks, hn, h.fork_iff hsound ha]
  rw [Yasched.references, hmembers, hforks]

/-- The numbered system counts on where it follows. -/
theorem step_counted_sim (h : Sim index s.view z) (hsound : Sound size s) (hl : Linked z)
    (hc : Counted z) (hf : FindsEntry size s e) (hs : step size s e = some s') :
    ∃ z', Runs.run (Yasched.step .all) z (numbered s e) = some z' ∧ Linked z' ∧ Counted z' ∧
      ∃ index, Sim index s'.view z' := by
  obtain ⟨z', index', hrun, hsim'⟩ := step_sim h hsound hs
  have hinv := Runs.invariant_along (I := fun z => Linked z ∧ Counted z)
    (fun z e z' ⟨hl, hc⟩ hp hs => ⟨step_linked hl hs, (step_counted hl hc hs).mpr hp⟩)
    ⟨hl, hc⟩ (numbered_puts h hf hs) hrun
  exact ⟨z', hrun, hinv.1, hinv.2, index', hsim'⟩

theorem Sim.counted {job : Job} (h : Sim index s.view z) (hsound : Sound size s)
    (hc : Counted z) (hjob : s.jobs a = some job) :
    job.aliveProc = (members s a).card + (forks s a).card ∧
      (members s a).card + (forks s a).card ≠ 0 := by
  have hview : s.view.jobs a = some job.view := by simp [Store.view, hjob]
  obtain ⟨hlt, -, hn, hfreed⟩ := h.job a _ _ hview
  obtain ⟨halive, hgone⟩ := hc (index a) hlt
  rw [h.references hsound (by simp [hview])] at halive hgone
  constructor
  · rw [← hn, halive]
    push_cast
    rfl
  · intro hzero
    simp [hfreed, hzero] at hgone

theorem forks_subset (hf : Forks s) : forks s a ⊆ members s a := by
  intro t ht
  obtain ⟨hlt, hl⟩ := Finset.mem_filter.mp ht
  refine Finset.mem_filter.mpr ⟨hlt, ?_⟩
  simpa [Task.Member, hl] using hf.forking t _ hl

end

/-- As long as every exit finds the entry of its task, the count of a job is
that of its members and their forks under way, and there is no job without a
member. -/
theorem jobs_counted
    (hr : Runs.run (step size) (init n pid leader dirFails rootdir dir proc) es = some s)
    (hk : Runs.Along (step size) (fun s e => KeepsSlot size s e ∧ FindsEntry size s e)
      (init n pid leader dirFails rootdir dir proc) es) (a : Nat) :
    (s.jobs a = none ↔ members s a = ∅) ∧ ∀ job, s.jobs a = some job →
      job.aliveProc = (members s a).card + (forks s a).card := by
  obtain ⟨z, -, hsound, -, hcounted, index, hsim⟩ := Runs.simulation
    (R := fun s z => Sound size s ∧ Linked z ∧ Counted z ∧ ∃ index, Sim index s.view z)
    (fun s e s' z ⟨hsound, hl, hc, index, hsim⟩ hp hs => by
      obtain ⟨z', hrun, hfollows⟩ := step_counted_sim hsim hsound hl hc hp.2 hs
      exact ⟨z', hrun, hsound.step hp.1 hs, hfollows⟩)
    ⟨init_sound, init_linked n, init_counted n, _, init_sim n pid leader dirFails rootdir dir proc⟩
    hk hr
  refine ⟨⟨fun hnone => ?_, fun hempty => ?_⟩,
    fun job hjob => (hsim.counted hsound hcounted hjob).1⟩
  · refine Finset.filter_eq_empty_iff.mpr fun t _ hm => ?_
    obtain ⟨job, hjob⟩ := hsound.joined.job_of_member hm
    cases hnone.symm.trans hjob
  · by_contra hne
    obtain ⟨job, hjob⟩ := Option.ne_none_iff_exists'.mp hne
    have hforks : forks s a = ∅ := Finset.subset_empty.mp (hempty ▸ forks_subset hsound.forks)
    exact (hsim.counted hsound hcounted hjob).2 (by simp [hempty, hforks])

def sampleChild : List Event :=
  sampleJob ++ [.fork 0, .child 0 2 false, .scheduleTail 1 (some (0x3000, unwritten)) false,
    .exit 0]

theorem jobs_counted_child : ∃ s, Runs.run (step 64) (sampleInit 1) sampleChild = some s ∧
    ((s.jobs 0x1000 = none ↔ members s 0x1000 = ∅) ∧ ∀ job, s.jobs 0x1000 = some job →
      job.aliveProc = (members s 0x1000).card + (forks s 0x1000).card) := by
  obtain ⟨s, hr⟩ : ∃ s, Runs.run (step 64) (sampleInit 1) sampleChild = some s := ⟨_, rfl⟩
  have hleader : Runs.Along (step 64) ByLeader (sampleInit 1) sampleChild := by decide
  have hfinds : Runs.Along (step 64) (FindsEntry 64) (sampleInit 1) sampleChild := by decide
  exact ⟨s, hr, jobs_counted hr ((along_keepsSlot hleader).and hfinds) 0x1000⟩

end Yasched.Objects
