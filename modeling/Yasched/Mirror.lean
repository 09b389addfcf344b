import Yasched.Deletion
import Mathlib.Logic.Relation

/-!
# Entries and objects

`Tree` is what a store has of procfs: the entries of its jobs and threads, and
the paths that there are. Every path that the module has made belongs to a live
object, and lies where it should, as long as the directories can be made; what
`add_job_procfs_entry` returns says the contrary of what it did.
-/

namespace Yasched.Objects

open Cells Relation

structure Tree where
  dirs : Nat → Option DirEntry
  files : Nat → Option (Nat × DirEntry)
  zoneDir : DirEntry
  proc : Finset Path
  calls : List ProcCall
  maxJid : Nat

/-- The directories of jobs, and the files of threads with the job of each. -/
def Store.tree (s : Store) : Tree where
  dirs a := (s.jobs a).map Job.dir
  files b := (s.threads b).map fun thread => (thread.job, thread.entry)
  zoneDir := s.zoneDir
  proc := s.proc
  calls := s.calls
  maxJid := s.maxJid

-- ---------------------------------------------------------------------------
-- What is to hold
-- ---------------------------------------------------------------------------

/-- An `add_*` returns 0 exactly when its entry exists now. -/
def ProcCall.Returns : ProcCall → Prop
  | .addZone ret made | .addJob ret made _ | .addThread ret made _ => ret = 0 ↔ made ≠ none
  | _ => True

/-- An entry is made in the directory of the object above, and an entry that is
read has been written. -/
def ProcCall.Sited : ProcCall → Prop
  | .addZone .. => True
  | .addJob _ made dir | .addThread _ made dir => ∀ path, made = some path → dir.Contains path
  | .delJob entry | .delThread entry | .delThreadBelow entry => entry.written = true

def Tree.held (tree : Tree) : Owner → Option DirEntry
  | .zone => some tree.zoneDir
  | .job a => tree.dirs a
  | .thread b => (tree.files b).map Prod.snd

/-- `proc₀` is what there was before. -/
structure Sited (proc₀ : Finset Path) (tree : Tree) : Prop where
  calls : ∀ call ∈ tree.calls, call.Sited
  proc : Owned proc₀ tree.held tree.proc

structure Mirrors (proc₀ : Finset Path) (tree : Tree) : Prop extends Sited proc₀ tree where
  returns : ∀ call ∈ tree.calls, call.Returns

def Event.Creates (s : Store) : Event → Prop
  | .execve t zone job thread _ _ => CreatesJob s t zone job thread
  | _ => False

/-- The directory of a job that is created can be made, in that of the zone. -/
def MakesDir (s : Store) : Event → Prop
  | .execve t zone job thread dirFails _ => CreatesJob s t zone job thread →
    incJid s.maxJid ≤ maxJobId ∧ dirFails = false ∧
      below s.zoneDir.entry (.job (incJid s.maxJid)) ∉ s.proc
  | _ => True

instance (s : Store) (e : Event) : Decidable (MakesDir s e) := by
  unfold MakesDir
  split <;> infer_instance

-- ---------------------------------------------------------------------------
-- What is done to the tree
-- ---------------------------------------------------------------------------

namespace Tree

def addJob (tree : Tree) (a : Nat) (fails : Bool) (dir : DirEntry) : Tree :=
  let added := addJobProcfsEntry fails (incJid tree.maxJid) tree.zoneDir dir tree.proc
  { tree with
    dirs := Function.update tree.dirs a (some added.dir)
    proc := added.proc
    calls := tree.calls ++ [.addJob added.ret added.made tree.zoneDir]
    maxJid := incJid tree.maxJid }

def addThread (tree : Tree) (b j pid : Nat) (fails : Bool) (jobDir : DirEntry) : Tree :=
  let added := addThreadProcfsEntry fails pid jobDir tree.proc
  { tree with
    files := Function.update tree.files b (some (j, added.dir))
    proc := added.proc
    calls := tree.calls ++ [.addThread added.ret added.made jobDir] }

def delThread (tree : Tree) (b : Nat) (entry jobDir : DirEntry) : Tree :=
  { tree with
    files := Function.update tree.files b none
    proc := delThreadProcfsEntry entry jobDir tree.proc
    calls := tree.calls ++
      if entry.entry ≠ none then [.delThread entry, .delThreadBelow jobDir]
      else [.delThread entry] }

def delJob (tree : Tree) (j : Nat) (dir : DirEntry) : Tree :=
  { tree with
    dirs := Function.update tree.dirs j none
    proc := delJobProcfsEntry dir tree.zoneDir tree.proc
    calls := tree.calls ++ [.delJob dir] }

/-- What is done where no job is created. A job goes when its threads are
gone. -/
inductive Op (tree : Tree) : Tree → Prop
  | addThread : tree.files b = none → tree.dirs j = some dir →
      Op tree (tree.addThread b j pid fails dir)
  | delThread : tree.files b = some (j, entry) → tree.dirs j = some dir →
      Op tree (tree.delThread b entry dir)
  | delJob : tree.dirs j = some dir → (∀ b i entry, tree.files b = some (i, entry) → i ≠ j) →
      Op tree (tree.delJob j dir)

end Tree

-- ---------------------------------------------------------------------------
-- The steps of the store
-- ---------------------------------------------------------------------------

section
variable {s : Store} {job : Job} {thread : Thread}

theorem tree_setJob (h : s.jobs j = some job) (job' : Job) (hdir : job'.dir = job.dir) :
    (s.setJob j (some job')).tree = s.tree := by
  have hdirs : (fun a => ((s.setJob j (some job')).jobs a).map Job.dir) = s.tree.dirs := by
    refine (map_update ..).trans (Function.update_eq_self_iff.mpr ?_)
    simp [h, hdir]
  simp only [Store.tree, hdirs]
  rfl

theorem tree_delJob : (s.delJob j job).tree = s.tree.delJob j job.dir := by
  simp only [Store.tree, Store.delJob, Store.setJob, map_update]
  rfl

theorem tree_addThreadFile (h : (s.tasks thread.task).pid = pid) :
    (s.addThreadFile b thread job fails).tree =
      s.tree.addThread b thread.job pid fails job.dir := by
  subst h
  simp only [Store.tree, Store.addThreadFile, Store.setThread, map_update]
  rfl

theorem tree_addThreadFile_fresh {m : Store} {tree : Tree} (h : (m.tasks t).pid = pid)
    (hm : m.tree = { tree with files := Function.update tree.files b o }) :
    (m.addThreadFile b { task := t, job := j, entry } job fails).tree =
      tree.addThread b j pid fails job.dir := by
  rw [tree_addThreadFile h, hm]
  simp only [Tree.addThread, Function.update_idem]

theorem tree_setThread {m : Store} : (m.setThread b (some thread)).tree =
    { m.tree with files := Function.update m.tree.files b (some (thread.job, thread.entry)) } := by
  simp only [Store.tree, Store.setThread, map_update]
  rfl

theorem tree_attach (h : s.jobs j = some job) :
    (((s.setLife t .live).attach size t b j job entry).addThreadFile b
      { task := t, job := j, entry } (job.attach i b) fails).tree =
        s.tree.addThread b j (s.tasks t).pid fails job.dir := by
  have hjob : ((s.setLife t .live).setThread b (some { task := t, job := j, entry })).jobs j =
      some job := h
  refine tree_addThreadFile_fresh (o := some (j, entry)) (by simp [Store.attach]) ?_
  have hset := tree_setJob hjob (job.attach ((s.setLife t .live).slot size t) b) rfl
  exact hset.trans tree_setThread

theorem tree_newJob : (s.newJob size t a b dir entry dirFails fileFails).tree =
    (s.tree.addJob a dirFails dir).addThread b a (s.tasks t).pid fileFails
      (s.withDir (s.freshJob size t b dir) dirFails).dir := by
  refine tree_addThreadFile_fresh (o := some (a, entry)) rfl ?_
  simp only [Store.tree, Store.addJobDir, Store.linkJob, Store.setThread, Store.setJob, map_update,
    Function.update_idem]
  rfl

theorem tree_delThread (h : s.jobs thread.job = some job) :
    (s.delThread b thread job).tree = s.tree.delThread b thread.entry job.dir := by
  have hset : (s.setJob thread.job (some (job.detach b))).tree = s.tree := tree_setJob h _ rfl
  rw [← hset, Store.delThread, Store.delEntry]
  split
  · rename_i he
    simp only [Store.tree, Tree.delThread, if_pos he, Store.setThread, map_update]
    rfl
  · rename_i he
    have hproc : delThreadProcfsEntry thread.entry job.dir s.proc = s.proc := if_neg he
    simp only [Store.tree, Tree.delThread, if_neg he, Store.setThread, map_update]
    exact congrArg (Tree.mk _ _ _ · _ _) hproc.symm

theorem files_some (h : s.tree.files b = some (j, entry)) :
    ∃ thread, s.threads b = some thread ∧ thread.job = j := by
  obtain ⟨thread, hb, hthread⟩ := Option.map_eq_some_iff.mp h
  exact ⟨thread, hb, congrArg Prod.fst hthread⟩

/-- The directory of a job goes when the job does. -/
theorem put_ops (hc' : Counts (s.put j job)) (h : s.jobs j = some job) :
    ReflTransGen Tree.Op s.tree (s.put j job).tree := by
  by_cases h1 : job.aliveProc = 1
  · have hlast : s.put j job = s.delJob j job := if_pos h1
    rw [hlast] at hc' ⊢
    rw [tree_delJob]
    refine .single (.delJob (by simp [Store.tree, h]) ?_)
    rintro b i entry hb rfl
    obtain ⟨thread, hthread, hi⟩ := files_some hb
    obtain ⟨job', hjob'⟩ := hc'.held.thread b thread hthread
    simp [Store.delJob, hi] at hjob'
  · have hput : s.put j job = s.setJob j (some job.put) := if_neg h1
    rw [hput, tree_setJob h job.put rfl]

end

theorem step_tree (hf : Forks s) (hc : Counts s) (hs : step size s e = some s') :
    ¬e.Creates s ∧ ReflTransGen Tree.Op s.tree s'.tree ∨
      ∃ t zone a dir alloc dirFails fileFails,
        e = .execve t zone (some (a, dir)) alloc dirFails fileFails ∧ e.Creates s ∧
        s.jobs a = none ∧ ReflTransGen Tree.Op (s.tree.addJob a dirFails dir) s'.tree := by
  have hc' := step_counts hf hc hs
  cases step_effect hc.held hs with
  | execve hl hno => exact .inl ⟨hno, .refl⟩
  | @newJob t a b zone dir entry dirFails fileFails hl hj ha ha0 hb hb0 hz =>
    refine .inr ⟨t, zone, a, dir, _, dirFails, fileFails, rfl, ⟨hj, hz, by simp, by simp⟩, ha,
      .single ?_⟩
    show Tree.Op _ (s.newJob size t a b dir entry dirFails fileFails).tree
    rw [tree_newJob]
    exact .addThread (by simpa [Tree.addJob, Store.tree] using hb) (Function.update_self ..)
  | @fork t j job hl hj hjob =>
    have hget : (s.setJob j (some job.get)).tree = s.tree := tree_setJob hjob _ rfl
    refine .inl ⟨id, ?_⟩
    show ReflTransGen Tree.Op s.tree (s.setJob j (some job.get)).tree
    rw [hget]
  | @forkFail t j job hl hjob =>
    exact .inl ⟨id, put_ops (s := s.setLife t .live) hc' hjob⟩
  | @attach t j b entry fileFails job hl hj hjob hb hb0 =>
    refine .inl ⟨id, ?_⟩
    rw [tree_attach hjob]
    exact .single (.addThread (by simp [Store.tree, hb]) (by simp [Store.tree, hjob]))
  | @exit t b thread job hl hb ht hjob =>
    refine .inl ⟨id, .head ?_ (put_ops hc' Store.delThread_job)⟩
    have hdel : ((s.setLife t .exited).delThread b thread job).tree =
        s.tree.delThread b thread.entry job.dir := tree_delThread (s := s.setLife t .exited) hjob
    rw [hdel]
    exact .delThread (j := thread.job) (by simp [Store.tree, hb]) (by simp [Store.tree, hjob])
  | execveReturn | forkFaults | forkPlain | child | forkFailPlain | tail | exitPlain =>
    exact .inl ⟨id, .refl⟩

-- ---------------------------------------------------------------------------
-- What the operations keep
-- ---------------------------------------------------------------------------

/-- Every directory could be made: the zone's, and that of every job in it. -/
structure Made (proc₀ : Finset Path) (tree : Tree) : Prop extends Sited proc₀ tree where
  zoneDir : ∃ path, tree.zoneDir.IsAt path
  dirs : ∀ a dir, tree.dirs a = some dir → dir.IsAt (below tree.zoneDir.entry dir.name)
  files : ∀ b j entry, tree.files b = some (j, entry) → entry.written = true ∧
    ∃ dir, tree.dirs j = some dir ∧
      ∀ path, entry.entry = some path → path = below dir.entry entry.name

theorem contains_below {dir : DirEntry} (h : dir.IsAt path) :
    dir.Contains (below dir.entry name) :=
  ⟨path, name, h, by rw [h.2]; rfl⟩

theorem made_contains {dir : DirEntry} (h : dir.IsAt path)
    (hmade : (procCreate fails name dir.entry proc).1 = some path') : dir.Contains path' := by
  have hentry : (addEntry fails name dir.entry proc).1.entry = some path' := hmade
  rw [entry_addEntry hentry]
  exact contains_below h

theorem held_dirs {tree tree' : Tree} (hzone : tree'.zoneDir = tree.zoneDir)
    (hfiles : tree'.files = tree.files) (hdirs : tree'.dirs = Function.update tree.dirs a o) :
    tree'.held = Function.update tree.held (.job a) o := by
  refine Function.eq_update_iff.mpr ⟨by simp [Tree.held, hdirs], fun other hne => ?_⟩
  cases other with
  | job i => exact (congrFun hdirs i).trans (Function.update_of_ne (by simpa using hne) ..)
  | zone => exact congrArg some hzone
  | thread i => simp only [Tree.held, hfiles]

theorem held_files {tree tree' : Tree} (hzone : tree'.zoneDir = tree.zoneDir)
    (hdirs : tree'.dirs = tree.dirs) (hfiles : tree'.files = Function.update tree.files b o) :
    tree'.held = Function.update tree.held (.thread b) (o.map Prod.snd) := by
  refine Function.eq_update_iff.mpr ⟨by simp [Tree.held, hfiles], fun other hne => ?_⟩
  cases other with
  | thread i =>
    have hi : i ≠ b := by simpa using hne
    simp [Tree.held, hfiles, hi]
  | zone => exact congrArg some hzone
  | job i => exact congrFun hdirs i

theorem held_addJob {tree : Tree} : (tree.addJob a fails dir).held =
    Function.update tree.held (.job a)
      (some (addJobProcfsEntry fails (incJid tree.maxJid) tree.zoneDir dir tree.proc).dir) :=
  held_dirs rfl rfl rfl

theorem held_addThread {tree : Tree} : (tree.addThread b j pid fails dir).held =
    Function.update tree.held (.thread b)
      (some (addThreadProcfsEntry fails pid dir tree.proc).dir) :=
  held_files (o := some (j, _)) rfl rfl rfl

theorem held_delThread {tree : Tree} :
    (tree.delThread b entry dir).held = Function.update tree.held (.thread b) none :=
  held_files (o := none) rfl rfl rfl

theorem held_delJob {tree : Tree} :
    (tree.delJob j dir).held = Function.update tree.held (.job j) none :=
  held_dirs rfl rfl rfl

theorem Made.addThread (h : Made proc₀ tree) (hb : tree.files b = none)
    (hj : tree.dirs j = some dir) : Made proc₀ (tree.addThread b j pid fails dir) := by
  have hdir := h.dirs j dir hj
  refine ⟨⟨?_, ?_⟩, h.zoneDir, h.dirs, ?_⟩
  · refine List.forall_mem_append.mpr ⟨h.calls, List.forall_mem_singleton.mpr fun path hpath => ?_⟩
    rw [addThreadProcfsEntry_made] at hpath
    exact made_contains hdir hpath
  · rw [held_addThread]
    exact h.proc.add (by simp [Tree.held, hb]) fun _ => mem_addEntry
  · intro b' i entry hb'
    rcases eq_or_ne b' b with rfl | hne
    · obtain ⟨rfl, rfl⟩ : j = i ∧ _ = entry := by
        simpa [Tree.addThread] using hb'
      exact ⟨rfl, dir, hj, fun path hpath => entry_addEntry hpath⟩
    · exact h.files b' i entry ((Function.update_of_ne hne ..).symm.trans hb')

theorem Made.delThread (h : Made proc₀ tree) (hb : tree.files b = some (j, entry))
    (hj : tree.dirs j = some dir) : Made proc₀ (tree.delThread b entry dir) := by
  obtain ⟨hwritten, dir', hj', hpath'⟩ := h.files b j entry hb
  obtain rfl : dir = dir' := Option.some.inj (hj.symm.trans hj')
  refine ⟨⟨List.forall_mem_append.mpr ⟨h.calls, ?_⟩, ?_⟩, h.zoneDir, h.dirs, ?_⟩
  · have hdir : dir.written = true := (h.dirs j dir hj).1
    split <;> simp [ProcCall.Sited, hwritten, hdir]
  · rw [held_delThread]
    exact h.proc.del (by simp [Tree.held, hb]) fun path hat => hpath' path hat.2
  · intro b' i entry' hb'
    rcases eq_or_ne b' b with rfl | hne
    · simp [Tree.delThread] at hb'
    · exact h.files b' i entry' ((Function.update_of_ne hne ..).symm.trans hb')

theorem Made.delJob (h : Made proc₀ tree) (hj : tree.dirs j = some dir)
    (hfiles : ∀ b i entry, tree.files b = some (i, entry) → i ≠ j) :
    Made proc₀ (tree.delJob j dir) := by
  have hdir := h.dirs j dir hj
  refine ⟨⟨List.forall_mem_append.mpr ⟨h.calls, List.forall_mem_singleton.mpr hdir.1⟩, ?_⟩,
    h.zoneDir, ?_, ?_⟩
  · rw [held_delJob]
    exact h.proc.del hj fun path hat => Option.some.inj (hat.2.symm.trans hdir.2)
  · intro a dir' ha
    rcases eq_or_ne a j with rfl | hne
    · simp [Tree.delJob] at ha
    · exact h.dirs a dir' ((Function.update_of_ne hne ..).symm.trans ha)
  · intro b i entry hb
    obtain ⟨hwritten, dir', hi, hpath⟩ := h.files b i entry hb
    exact ⟨hwritten, dir', (Function.update_of_ne (hfiles b i entry hb) ..).trans hi, hpath⟩

theorem Made.ops (h : Made proc₀ tree) (ho : ReflTransGen Tree.Op tree tree') :
    Made proc₀ tree' := by
  induction ho with
  | refl => exact h
  | tail _ hop ih =>
    cases hop with
    | addThread hb hj => exact ih.addThread hb hj
    | delThread hb hj => exact ih.delThread hb hj
    | delJob hj hfiles => exact ih.delJob hj hfiles

theorem Made.addJob (h : Made proc₀ tree) (ha : tree.dirs a = none)
    (hid : incJid tree.maxJid ≤ maxJobId) (hfails : fails = false)
    (hnew : below tree.zoneDir.entry (.job (incJid tree.maxJid)) ∉ tree.proc) :
    Made proc₀ (tree.addJob a fails dir) := by
  obtain ⟨zone, hzone⟩ := h.zoneDir
  have hat := addEntry_isAt hfails hnew
  have hdirs : (tree.addJob a fails dir).dirs = Function.update tree.dirs a (some
      (addEntry fails (.job (incJid tree.maxJid)) tree.zoneDir.entry tree.proc).1) :=
    congrArg (Function.update tree.dirs a <| some ·) (addJobProcfsEntry_dir hid)
  have hold : ∀ a' dir', tree.dirs a' = some dir' →
      (tree.addJob a fails dir).dirs a' = some dir' := by
    intro a' dir' ha'
    have hne : a' ≠ a := by
      rintro rfl
      cases ha.symm.trans ha'
    rw [hdirs, Function.update_of_ne hne, ha']
  refine ⟨⟨?_, ?_⟩, ⟨zone, hzone⟩, ?_, ?_⟩
  · refine List.forall_mem_append.mpr ⟨h.calls, List.forall_mem_singleton.mpr fun path hpath => ?_⟩
    rw [addJobProcfsEntry_made hid] at hpath
    exact made_contains hzone hpath
  · have hproc : (tree.addJob a fails dir).proc =
        (addEntry fails (.job (incJid tree.maxJid)) tree.zoneDir.entry tree.proc).2 :=
      addJobProcfsEntry_proc hid
    rw [hproc, held_addJob, addJobProcfsEntry_dir hid]
    exact h.proc.add ha fun _ => mem_addEntry
  · intro a' dir' ha'
    rw [hdirs] at ha'
    rcases eq_or_ne a' a with rfl | hne
    · rw [Function.update_self] at ha'
      cases ha'
      exact hat
    · exact h.dirs a' dir' ((Function.update_of_ne hne ..).symm.trans ha')
  · intro b j entry hb
    obtain ⟨hwritten, dir', hj, hpath⟩ := h.files b j entry hb
    exact ⟨hwritten, dir', hold j dir' hj, hpath⟩

-- ---------------------------------------------------------------------------
-- Whole runs
-- ---------------------------------------------------------------------------

theorem step_made (hf : Forks s) (hc : Counts s) (h : Made proc₀ s.tree) (hp : MakesDir s e)
    (hs : step size s e = some s') : Made proc₀ s'.tree := by
  rcases step_tree hf hc hs with ⟨-, ho⟩ | ⟨t, zone, a, dir, alloc, fails, _, rfl, hcreates, ha, ho⟩
  · exact h.ops ho
  · obtain ⟨hid, hfails, hnew⟩ := hp hcreates
    exact (h.addJob (by simp [Store.tree, ha]) hid hfails hnew).ops ho

theorem init_sited : Sited proc (init n pid leader dirFails rootdir dir proc).tree where
  calls := List.forall_mem_singleton.mpr trivial
  proc _ hpath := (mem_addEntry hpath).imp_right fun hat => ⟨.zone, _, rfl, hat⟩

theorem init_made (hfails : dirFails = false)
    (hnew : below rootdir (.zone yaSchedZoneId) ∉ proc) :
    Made proc (init n pid leader dirFails rootdir dir proc).tree :=
  ⟨init_sited, ⟨_, addEntry_isAt hfails hnew⟩, nofun, nofun⟩

theorem ops_calls (ho : ReflTransGen Tree.Op tree tree') (hc : call ∈ tree.calls) :
    call ∈ tree'.calls := by
  induction ho with
  | refl => exact hc
  | tail _ hop ih => cases hop <;> exact List.mem_append_left _ ih

theorem ops_blank (ho : ReflTransGen Tree.Op tree tree') (hdirs : ∀ a, tree.dirs a = none) :
    tree' = tree := by
  induction ho with
  | refl => rfl
  | tail _ hop ih =>
    subst ih
    cases hop with
    | addThread _ hj | delThread _ hj | delJob hj => cases (hdirs _).symm.trans hj

def Tree.Wrong (tree : Tree) : Prop := ∃ call : ProcCall, call ∈ tree.calls ∧ ¬call.Returns

theorem Mirrors.not_wrong (h : Mirrors proc₀ tree) : ¬tree.Wrong :=
  fun ⟨call, hc, hwrong⟩ => hwrong (h.returns call hc)

theorem Tree.Wrong.ops (h : tree.Wrong) (ho : ReflTransGen Tree.Op tree tree') : tree'.Wrong := by
  obtain ⟨call, hc, hwrong⟩ := h
  exact ⟨call, ops_calls ho hc, hwrong⟩

theorem addJob_wrong {tree : Tree} (hid : incJid tree.maxJid ≤ maxJobId) :
    (tree.addJob a fails dir).Wrong := by
  have hret : (addJobProcfsEntry fails (incJid tree.maxJid) tree.zoneDir dir tree.proc).ret = 0 ↔
      (addJobProcfsEntry fails (incJid tree.maxJid) tree.zoneDir dir tree.proc).made = none :=
    addJobProcfsEntry_ret hid
  refine ⟨_, List.mem_append_right _ (List.mem_singleton_self _), fun h => ?_⟩
  exact not_iff_self (h.symm.trans hret)

theorem step_wrong (hf : Forks s) (hc : Counts s) (h : s.tree.Wrong)
    (hs : step size s e = some s') : s'.tree.Wrong := by
  rcases step_tree hf hc hs with ⟨-, ho⟩ | ⟨_, _, a, dir, _, fails, _, -, -, -, ho⟩
  · exact h.ops ho
  · obtain ⟨call, hcall, hwrong⟩ := h
    exact Tree.Wrong.ops ⟨call, List.mem_append_left _ hcall, hwrong⟩ ho

/-- The first job, whose id is 0, is the first wrong call. -/
theorem step_first (hf : Forks s) (hc : Counts s) (hdirs : ∀ a, s.tree.dirs a = none)
    (hid : incJid s.maxJid ≤ maxJobId) (hs : step size s e = some s') :
    ¬e.Creates s ∧ s'.tree = s.tree ∨ e.Creates s ∧ s'.tree.Wrong := by
  rcases step_tree hf hc hs with ⟨hno, ho⟩ | ⟨_, _, a, dir, _, fails, _, -, hcreates, -, ho⟩
  · exact .inl ⟨hno, ops_blank ho hdirs⟩
  · exact .inr ⟨hcreates, (addJob_wrong hid).ops ho⟩

theorem init_mirrors : Mirrors proc (init n pid leader dirFails rootdir dir proc).tree :=
  ⟨init_sited, List.forall_mem_singleton.mpr (addZoneProcfsEntry_ret (by decide))⟩

theorem init_nextId : incJid (init n pid leader dirFails rootdir dir proc).maxJid ≤ maxJobId := by
  show incJid (jidBound - 1) ≤ maxJobId
  decide

/-- As long as the tree is that of the zone, a step leaves it so or creates the
first job. -/
theorem step_from_init (hf : Forks s) (hc : Counts s)
    (h : s.tree = (init n pid leader dirFails rootdir dir proc).tree)
    (hs : step size s e = some s') :
    ¬e.Creates s ∧ s'.tree = (init n pid leader dirFails rootdir dir proc).tree ∨
      e.Creates s ∧ s'.tree.Wrong := by
  have hmax : s.maxJid = (init n pid leader dirFails rootdir dir proc).maxJid :=
    congrArg Tree.maxJid h
  rw [← h]
  exact step_first hf hc (by rw [h]; exact fun a => rfl) (by rw [hmax]; exact init_nextId) hs

theorem always_mirrors_iff :
    Runs.Always (step size) (fun s => Mirrors proc s.tree)
        (init n pid leader dirFails rootdir dir proc) es ↔
      Runs.Along (step size) (fun s e => ¬e.Creates s)
        (init n pid leader dirFails rootdir dir proc) es := by
  refine Runs.always_iff_along (I := fun s => Forks s ∧ Counts s ∧
      (s.tree = (init n pid leader dirFails rootdir dir proc).tree ∨ s.tree.Wrong)) ?_ ?_
    ⟨init_forks, init_counts, .inl rfl⟩ init_mirrors
  · rintro s e s' ⟨hf, hc, h⟩ hs
    refine ⟨step_forks hf hc hs, step_counts hf hc hs, ?_⟩
    rcases h with h | hwrong
    · exact (step_from_init hf hc h hs).imp And.right And.right
    · exact .inr (step_wrong hf hc hwrong hs)
  · rintro s e s' ⟨hf, hc, h⟩ hq hs
    have hsame := h.resolve_right hq.not_wrong
    rcases step_from_init hf hc hsame hs with ⟨hno, htree⟩ | ⟨hyes, hwrong⟩
    · exact iff_of_true (htree ▸ init_mirrors) hno
    · exact iff_of_false (fun hm => hm.not_wrong hwrong) (not_not_intro hyes)

theorem always_sited (hfails : dirFails = false) (hnew : below rootdir (.zone yaSchedZoneId) ∉ proc)
    (ha : Runs.Along (step size) MakesDir (init n pid leader dirFails rootdir dir proc) es) :
    Runs.Always (step size) (fun s => Sited proc s.tree)
      (init n pid leader dirFails rootdir dir proc) es := by
  refine Runs.always_of_along (I := fun s => Forks s ∧ Counts s ∧ Made proc s.tree)
    (fun s h => h.2.2.toSited) ?_ ⟨init_forks, init_counts, init_made hfails hnew⟩ ha
  rintro s e s' ⟨hf, hc, h⟩ hp hs
  exact ⟨step_forks hf hc hs, step_counts hf hc hs, step_made hf hc h hp hs⟩

/-- Everything mirrors the live objects in a run exactly when it creates no job.
All but the results of `add_job_procfs_entry` does when the directories can be
made. -/
theorem mirrors_iff (size n : Nat) (pid leader : Nat → Nat) (dirFails : Bool)
    (rootdir : Option Path) (dir : DirEntry) (proc : Finset Path) (es : List Event) :
    (Runs.Always (step size) (fun s => Mirrors proc s.tree)
        (init n pid leader dirFails rootdir dir proc) es ↔
      Runs.Along (step size) (fun s e => ¬e.Creates s)
        (init n pid leader dirFails rootdir dir proc) es) ∧
    (dirFails = false → below rootdir (.zone yaSchedZoneId) ∉ proc →
      Runs.Along (step size) MakesDir (init n pid leader dirFails rootdir dir proc) es →
      Runs.Always (step size) (fun s => Sited proc s.tree)
        (init n pid leader dirFails rootdir dir proc) es) :=
  ⟨always_mirrors_iff, always_sited⟩

theorem mirrors_iff_created : Runs.Always (step 64) (fun s => Sited {[.yasched]} s.tree)
    (sampleInit 1) (sampleJob ++ [.exit 0]) :=
  (mirrors_iff 64 1 _ _ _ _ _ _ _).2 rfl (by decide) (by decide)

theorem mirrors_fails : ¬ ∀ size n pid leader dirFails rootdir dir proc es,
    Runs.Always (step size) (fun s => Mirrors proc s.tree)
      (init n pid leader dirFails rootdir dir proc) es := by
  intro h
  obtain ⟨s, hs, hcall⟩ : ∃ s, Runs.run (step 64) (sampleInit 1) sampleJob = some s ∧
      .addJob (-enomem) (some [.yasched, .zone 0, .job 0]) s.zoneDir ∈ s.calls :=
    ⟨_, rfl, by decide⟩
  have hret := ((h 64 _ _ _ _ _ _ _ _).last hs).returns _ hcall
  exact absurd (hret.mpr (by simp)) (by decide)

end Yasched.Objects
