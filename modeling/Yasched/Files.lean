import Yasched.Members
import Yasched.Mirror
import Yasched.Names

/-!
# What the files show

A thread's file has the thread itself as its data, and `thread_seq_show` reads
from there: the name and the pid of the task. No two objects have one path, and
what an object has as its entry is there, whichever calls fail. So a file shows
what its name says as long as its thread is removed when the task exits, and the
task keeps its pid.
-/

namespace Yasched

-- ---------------------------------------------------------------------------
-- Entries and their owners
-- ---------------------------------------------------------------------------

def HasEntry (held : Owner → Option DirEntry) (owner : Owner) (path : Path) : Prop :=
  ∃ dir, held owner = some dir ∧ dir.IsAt path

/-- What there was before is there, and of what came since each path is the
entry of one owner. -/
structure Exact (proc₀ : Finset Path) (held : Owner → Option DirEntry) (proc : Finset Path) :
    Prop where
  owned : Owned proc₀ held proc
  before : proc₀ ⊆ proc
  there : ∀ owner path, HasEntry held owner path → path ∈ proc ∧ path ∉ proc₀
  unique : ∀ owner other path, HasEntry held owner path → HasEntry held other path → owner = other

theorem hasEntry_update {held : Owner → Option DirEntry}
    (h : HasEntry (Function.update held owner o) other path) :
    other = owner ∧ (∃ dir, o = some dir ∧ dir.IsAt path) ∨
      other ≠ owner ∧ HasEntry held other path := by
  obtain ⟨dir, hdir, hat⟩ := h
  rcases eq_or_ne other owner with rfl | hne
  · exact .inl ⟨rfl, dir, by simpa using hdir, hat⟩
  · exact .inr ⟨hne, dir, by simpa [hne] using hdir, hat⟩

theorem addEntry_new (h : (addEntry fails name parent proc).1.IsAt path) :
    path ∉ proc ∧ path ∈ (addEntry fails name parent proc).2 := by
  obtain ⟨-, h⟩ := h
  rcases procCreate_cases fails name parent proc with hc | ⟨hnew, hc⟩
  · simp [addEntry, hc] at h
  · obtain rfl : below parent name = path := by simpa [addEntry, hc] using h
    exact ⟨hnew, by simp [addEntry, hc]⟩

namespace Exact

variable {proc₀ proc : Finset Path} {held : Owner → Option DirEntry} {owner : Owner}

theorem add (h : Exact proc₀ held proc) (hnew : held owner = none) :
    Exact proc₀ (Function.update held owner (some (addEntry fails name parent proc).1))
      (addEntry fails name parent proc).2 := by
  have hsub : proc ⊆ (addEntry fails name parent proc).2 := procCreate_subset
  have hown : ∀ other path, HasEntry
      (Function.update held owner (some (addEntry fails name parent proc).1)) other path →
        other = owner ∧ path ∉ proc ∧ path ∈ (addEntry fails name parent proc).2 ∨
          other ≠ owner ∧ HasEntry held other path := by
    intro other path hother
    refine (hasEntry_update hother).imp_left ?_
    rintro ⟨rfl, dir, hdir, hat⟩
    cases hdir
    exact ⟨rfl, addEntry_new hat⟩
  refine ⟨h.owned.add hnew fun _ => mem_addEntry, h.before.trans hsub, fun other path hother => ?_,
    fun first other path hfirst hother => ?_⟩
  · rcases hown other path hother with ⟨-, hout, hin⟩ | ⟨-, hold⟩
    · exact ⟨hin, fun hpath => hout (h.before hpath)⟩
    · exact (h.there other path hold).imp_left fun hpath => hsub hpath
  · rcases hown first path hfirst with ⟨rfl, hout, -⟩ | ⟨-, hold⟩ <;>
      rcases hown other path hother with ⟨rfl, hout', -⟩ | ⟨-, hold'⟩
    · rfl
    · exact absurd (h.there other path hold').1 hout
    · exact absurd (h.there first path hold).1 hout'
    · exact h.unique first other path hold hold'

theorem del {dir : DirEntry} (h : Exact proc₀ held proc) (howner : held owner = some dir)
    (hwritten : dir.written = true)
    (hat : ∀ path, dir.entry = some path → path = below parent dir.name) :
    Exact proc₀ (Function.update held owner none) (delEntry dir parent proc) := by
  have hkept : ∀ path ∈ proc, ¬dir.IsAt path → path ∈ delEntry dir parent proc := by
    intro path hpath hnot
    unfold delEntry
    split
    · rename_i hsome
      obtain ⟨own, hown⟩ := Option.ne_none_iff_exists'.mp hsome
      refine Finset.mem_erase.mpr ⟨?_, hpath⟩
      rintro rfl
      exact hnot ⟨hwritten, by rw [hown, hat own hown]⟩
    · exact hpath
  have hrest : ∀ other path, HasEntry (Function.update held owner none) other path →
      other ≠ owner ∧ HasEntry held other path := by
    intro other path hother
    refine (hasEntry_update hother).resolve_left ?_
    rintro ⟨-, dir, hdir, -⟩
    cases hdir
  refine ⟨h.owned.del howner fun path hpath => hat path hpath.2, fun path hpath => ?_,
    fun other path hother => ?_, fun first other path hfirst hother => ?_⟩
  · refine hkept path (h.before hpath) fun hown => ?_
    exact (h.there owner path ⟨dir, howner, hown⟩).2 hpath
  · obtain ⟨hne, hold⟩ := hrest other path hother
    refine ⟨hkept path (h.there other path hold).1 fun hown => ?_, (h.there other path hold).2⟩
    exact hne (h.unique other owner path hold ⟨dir, howner, hown⟩)
  · exact h.unique first other path (hrest first path hfirst).2 (hrest other path hother).2

end Exact

namespace Objects

open Cells
open Relation (ReflTransGen)

/-- The id of a job that is created is one that has a directory name. -/
def NamesDir (s : Store) : Event → Prop
  | .execve t zone job thread _ _ => CreatesJob s t zone job thread → incJid s.maxJid ≤ maxJobId
  | _ => True

instance (s : Store) : (e : Event) → Decidable (NamesDir s e)
  | .execve .. => inferInstanceAs (Decidable (_ → _))
  | .execveReturn .. | .fork .. | .child .. | .forkFail .. | .scheduleTail .. | .exit .. =>
    isTrue trivial

structure Kept (proc₀ : Finset Path) (tree : Tree) : Prop where
  exact : Exact proc₀ tree.held tree.proc
  dirs : ∀ a dir, tree.dirs a = some dir → dir.written = true ∧
    ∀ path, dir.entry = some path → path = below tree.zoneDir.entry dir.name
  files : ∀ b j entry, tree.files b = some (j, entry) → entry.written = true ∧
    ∃ dir, tree.dirs j = some dir ∧
      ∀ path, entry.entry = some path → path = below dir.entry entry.name

theorem Kept.addThread (h : Kept proc₀ tree) (hb : tree.files b = none)
    (hj : tree.dirs j = some dir) : Kept proc₀ (tree.addThread b j pid fails dir) := by
  refine ⟨?_, h.dirs, fun b' i entry hb' => ?_⟩
  · rw [held_addThread]
    exact h.exact.add (by simp [Tree.held, hb])
  · rcases eq_or_ne b' b with rfl | hne
    · obtain ⟨rfl, rfl⟩ : j = i ∧ _ = entry := by
        simpa [Tree.addThread] using hb'
      exact ⟨rfl, dir, hj, fun path hpath => entry_addEntry hpath⟩
    · exact h.files b' i entry ((Function.update_of_ne hne ..).symm.trans hb')

theorem Kept.delThread (h : Kept proc₀ tree) (hb : tree.files b = some (j, entry))
    (hj : tree.dirs j = some dir) : Kept proc₀ (tree.delThread b entry dir) := by
  obtain ⟨hwritten, dir', hj', hpath⟩ := h.files b j entry hb
  obtain rfl : dir = dir' := Option.some.inj (hj.symm.trans hj')
  refine ⟨?_, h.dirs, fun b' i entry' hb' => ?_⟩
  · rw [held_delThread]
    exact h.exact.del (by simp [Tree.held, hb]) hwritten hpath
  · rcases eq_or_ne b' b with rfl | hne
    · simp [Tree.delThread] at hb'
    · exact h.files b' i entry' ((Function.update_of_ne hne ..).symm.trans hb')

theorem Kept.delJob (h : Kept proc₀ tree) (hj : tree.dirs j = some dir)
    (hfiles : ∀ b i entry, tree.files b = some (i, entry) → i ≠ j) :
    Kept proc₀ (tree.delJob j dir) := by
  obtain ⟨hwritten, hpath⟩ := h.dirs j dir hj
  refine ⟨?_, fun a dir' ha => ?_, fun b i entry hb => ?_⟩
  · rw [held_delJob]
    exact h.exact.del hj hwritten hpath
  · rcases eq_or_ne a j with rfl | hne
    · simp [Tree.delJob] at ha
    · exact h.dirs a dir' ((Function.update_of_ne hne ..).symm.trans ha)
  · obtain ⟨hwritten, dir', hi, hpath⟩ := h.files b i entry hb
    exact ⟨hwritten, dir', (Function.update_of_ne (hfiles b i entry hb) ..).trans hi, hpath⟩

theorem Kept.ops (h : Kept proc₀ tree) (ho : ReflTransGen Tree.Op tree tree') :
    Kept proc₀ tree' := by
  induction ho with
  | refl => exact h
  | tail _ hop ih =>
    cases hop with
    | addThread hb hj => exact ih.addThread hb hj
    | delThread hb hj => exact ih.delThread hb hj
    | delJob hj hfiles => exact ih.delJob hj hfiles

theorem Kept.addJob (h : Kept proc₀ tree) (ha : tree.dirs a = none)
    (hid : incJid tree.maxJid ≤ maxJobId) : Kept proc₀ (tree.addJob a fails dir) := by
  have hdirs : (tree.addJob a fails dir).dirs = Function.update tree.dirs a (some
      (addEntry fails (.job (incJid tree.maxJid)) tree.zoneDir.entry tree.proc).1) :=
    congrArg (Function.update tree.dirs a <| some ·) (addJobProcfsEntry_dir hid)
  have hproc : (tree.addJob a fails dir).proc =
      (addEntry fails (.job (incJid tree.maxJid)) tree.zoneDir.entry tree.proc).2 :=
    addJobProcfsEntry_proc hid
  refine ⟨?_, fun a' dir' ha' => ?_, fun b j entry hb => ?_⟩
  · rw [hproc, held_addJob, addJobProcfsEntry_dir hid]
    exact h.exact.add ha
  · rw [hdirs] at ha'
    rcases eq_or_ne a' a with rfl | hne
    · rw [Function.update_self] at ha'
      cases ha'
      exact ⟨rfl, fun path hpath => entry_addEntry hpath⟩
    · exact h.dirs a' dir' ((Function.update_of_ne hne ..).symm.trans ha')
  · obtain ⟨hwritten, dir', hj, hpath⟩ := h.files b j entry hb
    have hne : j ≠ a := by
      rintro rfl
      cases ha.symm.trans hj
    exact ⟨hwritten, dir', by rw [hdirs, Function.update_of_ne hne, hj], hpath⟩

theorem step_kept (hf : Forks s) (hc : Counts s) (h : Kept proc₀ s.tree) (hp : NamesDir s e)
    (hs : step size s e = some s') : Kept proc₀ s'.tree := by
  rcases step_tree hf hc hs with ⟨-, ho⟩ | ⟨t, zone, a, dir, alloc, fails, _, rfl, hcreates, ha, ho⟩
  · exact h.ops ho
  · exact (h.addJob (by simp [Store.tree, ha]) (hp hcreates)).ops ho

theorem init_kept : Kept proc (init n pid leader dirFails rootdir dir proc).tree := by
  have hheld : (init n pid leader dirFails rootdir dir proc).tree.held =
      Function.update (fun _ => none) .zone
        (some (addEntry dirFails (.zone yaSchedZoneId) rootdir proc).1) := by
    refine Function.eq_update_iff.mpr ⟨rfl, fun other hne => ?_⟩
    cases other with
    | zone => exact absurd rfl hne
    | job | thread => rfl
  have hnone : Exact proc (fun _ => none) proc :=
    ⟨fun _ => .inl, subset_rfl, fun _ _ ⟨_, h, _⟩ => (nomatch h),
      fun _ _ _ ⟨_, h, _⟩ => (nomatch h)⟩
  refine ⟨?_, nofun, nofun⟩
  rw [hheld]
  exact hnone.add rfl

/-- Whatever fails, every path that the module has made is the entry of one live
object, the entry that an object has is there, and what there was before stays. -/
theorem entries_exact (size n : Nat) (pid leader : Nat → Nat) (dirFails : Bool)
    (rootdir : Option Path) (dir : DirEntry) (proc : Finset Path) (es : List Event)
    (ha : Runs.Along (step size) NamesDir (init n pid leader dirFails rootdir dir proc) es) :
    Runs.Always (step size) (fun s => Exact proc s.tree.held s.proc)
      (init n pid leader dirFails rootdir dir proc) es := by
  refine Runs.always_of_along (I := fun s => Forks s ∧ Counts s ∧ Kept proc s.tree)
    (fun s h => h.2.2.exact) ?_ ⟨init_forks, init_counts, init_kept⟩ ha
  rintro s e s' ⟨hf, hc, h⟩ hp hs
  exact ⟨step_forks hf hc hs, step_counts hf hc hs, step_kept hf hc h hp hs⟩

theorem entries_exact_job : Runs.Always (step 64) (fun s => Exact {[.yasched]} s.tree.held s.proc)
    (sampleInit 1) (sampleJob ++ [.exit 0]) :=
  entries_exact 64 1 _ _ _ _ _ _ _ (by decide)

-- ---------------------------------------------------------------------------
-- Reading a file
-- ---------------------------------------------------------------------------

/-- `Hello my name is: ` -/
def greeting : List UInt8 :=
  [0x48, 0x65, 0x6c, 0x6c, 0x6f, 0x20, 0x6d, 0x79, 0x20, 0x6e, 0x61, 0x6d, 0x65, 0x20, 0x69,
    0x73, 0x3a, 0x20]

/-- `Hello my name is: %s-%d\n` -/
def hello (comm : List UInt8) (pid : Nat) : List UInt8 :=
  greeting ++ comm ++ [0x2d] ++ decimal pid ++ [0x0a]

theorem hello_inj {comm : List UInt8} (h : hello comm pid = hello comm pid') : pid = pid' :=
  Names.decimal_inj (List.append_cancel_left (List.append_cancel_right h))

/-- What is printed for the thread that is the data of the file; `comm` are the
names of the tasks. -/
def threadSeqShow (comm : Nat → List UInt8) (b : Nat) : M (List UInt8) := do
  let thread ← loadThread b
  let s ← get
  return hello (comm thread.task) (s.tasks thread.task).pid

/-- The file names the pid that it shows, of a task that has not exited. -/
structure Tells (comm : Nat → List UInt8) (s : Store) (b : Nat) (thread : Thread) : Prop where
  shows : ∃ pid, thread.entry.name = .thread pid ∧
    exec (threadSeqShow comm b) s = (.ok (hello (comm thread.task) pid), s)
  alive : (s.tasks thread.task).life ≠ .exited

def AllTell (comm : Nat → List UInt8) (s : Store) : Prop :=
  ∀ b thread path, s.threads b = some thread → thread.entry.IsAt path → Tells comm s b thread

/-- A task with a file takes no other pid, and when it exits its thread is
found. -/
def KeepsFile (size : Nat) (s : Store) : Event → Prop
  | .execveReturn t true => ∀ b thread path, s.threads b = some thread → thread.entry.IsAt path →
    thread.task = t → (s.tasks (s.tasks t).leader).pid = (s.tasks t).pid
  | .exit t => ∀ b thread path, s.threads b = some thread → thread.entry.IsAt path →
    thread.task = t → searchThreadByTask size s t ≠ none
  | _ => True

theorem tells_iff {comm : Nat → List UInt8} {s : Store} (hb : s.threads b = some thread) :
    Tells comm s b thread ↔ thread.entry.name = .thread (s.tasks thread.task).pid ∧
      (s.tasks thread.task).life ≠ .exited := by
  have hshow : exec (threadSeqShow comm b) s =
      (.ok (hello (comm thread.task) (s.tasks thread.task).pid), s) := by
    simp [threadSeqShow, exec_bind, exec_map, exec_loadThread hb]
  constructor
  · rintro ⟨⟨pid, hname, hexec⟩, halive⟩
    have hpid := hello_inj (Except.ok.inj (Prod.mk.inj (hshow.symm.trans hexec)).1)
    exact ⟨by rw [hname, hpid], halive⟩
  · rintro ⟨hname, halive⟩
    exact ⟨⟨_, hname, hshow⟩, halive⟩

section
variable {comm : Nat → List UInt8} {s s' : Store}

theorem AllTell.frame (h : AllTell comm s)
    (hold : ∀ b thread path, s'.threads b = some thread → thread.entry.IsAt path →
      s.threads b = some thread ∧ (s'.tasks thread.task).pid = (s.tasks thread.task).pid ∧
        ((s.tasks thread.task).life ≠ .exited → (s'.tasks thread.task).life ≠ .exited)) :
    AllTell comm s' := by
  intro b thread path hb hat
  obtain ⟨hb', hpid, hlife⟩ := hold b thread path hb hat
  obtain ⟨hname, halive⟩ := (tells_iff hb').mp (h b thread path hb' hat)
  exact (tells_iff hb).mpr ⟨by rw [hpid, hname], hlife halive⟩

theorem update_keeps {tasks : Nat → Task} {k : Task} (hpid : k.pid = (tasks t).pid)
    (hlife : k.life ≠ .exited) (i : Nat) : (Function.update tasks t k i).pid = (tasks i).pid ∧
      ((tasks i).life ≠ .exited → (Function.update tasks t k i).life ≠ .exited) := by
  rcases eq_or_ne i t with rfl | hne
  · simp [hpid, hlife]
  · simp [hne]

theorem AllTell.setTask (h : AllTell comm s) (hthreads : s'.threads = s.threads)
    (htasks : s'.tasks = Function.update s.tasks t k) (hpid : k.pid = (s.tasks t).pid)
    (hlife : k.life ≠ .exited) : AllTell comm s' :=
  h.frame fun b thread path hb _ => ⟨hthreads ▸ hb, by
    rw [htasks]
    exact update_keeps hpid hlife thread.task⟩

theorem AllTell.add {thread : Thread} (h : AllTell comm s)
    (hthreads : s'.threads = Function.update s.threads b (some thread))
    (hname : thread.entry.name = .thread (s.tasks thread.task).pid)
    (htasks : s'.tasks = Function.update s.tasks thread.task k)
    (hpid : k.pid = (s.tasks thread.task).pid) (hlife : k.life ≠ .exited) : AllTell comm s' := by
  intro c old path hc hat
  rw [tells_iff hc, htasks]
  rw [hthreads] at hc
  rcases eq_or_ne c b with rfl | hne
  · rw [Function.update_self] at hc
    cases hc
    rw [Function.update_self, hpid]
    exact ⟨hname, hlife⟩
  · rw [Function.update_of_ne hne] at hc
    obtain ⟨hname, halive⟩ := (tells_iff hc).mp (h c old path hc hat)
    obtain ⟨hsame, hold⟩ := update_keeps hpid hlife old.task
    exact ⟨by rw [hsame, hname], hold halive⟩

theorem exit_missed (h : searchThreadByTask size s t = none)
    (hs : step size s (.exit t) = some s') : s' = s.setLife t .exited := by
  have hsearch : searchThreadByTask size (s.setLife t .exited) t = none := by
    rw [← h]
    simp [searchThreadByTask, Store.slot]
  simp only [step] at hs
  split at hs
  · rw [after, enterExitHook] at hs
    simp only [exec_bind, exec_modify, exec_get, hsearch, exec_pure] at hs
    exact (Option.some.inj hs).symm
  · cases hs

theorem exit_allTell (hc : Counts s) (ht : Tables s) (h : AllTell comm s)
    (hs : step size s (.exit t) = some s') : AllTell comm s' ↔ KeepsFile size s (.exit t) := by
  by_cases hsearch : searchThreadByTask size s t = none
  · obtain rfl := exit_missed hsearch hs
    constructor
    · intro htell b thread path hb hat htask
      subst htask
      exact absurd (by simp) (htell b thread path hb hat).alive
    · intro hkeeps
      refine h.frame fun b thread path hb hat => ⟨hb, ?_⟩
      have hne : thread.task ≠ t := fun htask => hkeeps b thread path hb hat htask hsearch
      simp [hne]
  · refine iff_of_true ?_ fun _ _ _ _ _ _ => hsearch
    cases step_effect hc.held hs with
    | exitPlain _ hnone => exact absurd hnone hsearch
    | @exit t b thread job hl hb htask hjob =>
      refine h.frame fun c old path hc hat => ?_
      rw [put_threads, Store.delThread_threads] at hc
      rw [put_tasks, Store.delThread_tasks]
      rcases eq_or_ne c b with rfl | hne
      · simp at hc
      · rw [Function.update_of_ne hne] at hc
        have htask' : old.task ≠ t := fun hold =>
          hne (ht.single c b old thread hc hb (hold.trans htask.symm))
        exact ⟨hc, by simp [htask']⟩

theorem execveReturn_allTell (h : AllTell comm s) :
    AllTell comm (s.setTask t (s.returned t tsi ok)) ↔ KeepsFile size s (.execveReturn t ok) := by
  cases ok with
  | false => exact iff_of_true (h.setTask rfl rfl rfl (by simp)) trivial
  | true =>
    have hpid : (s.returned t tsi true).pid = (s.tasks (s.tasks t).leader).pid := rfl
    constructor
    · rintro htell b thread path hb hat rfl
      have hthread : (s.setTask thread.task (s.returned thread.task tsi true)).threads b =
          some thread := hb
      have hafter := ((tells_iff hthread).mp (htell b thread path hb hat)).1
      have hbefore := ((tells_iff hb).mp (h b thread path hb hat)).1
      have hset : (s.setTask thread.task (s.returned thread.task tsi true)).tasks thread.task =
          s.returned thread.task tsi true := Function.update_self ..
      rw [hset, hpid] at hafter
      exact EntryName.thread.inj (hafter.symm.trans hbefore)
    · intro hkeeps
      refine h.frame fun b thread path hb hat => ⟨hb, ?_⟩
      rcases eq_or_ne thread.task t with htask | hne
      · have hsame := hkeeps b thread path hb hat htask
        simp [Store.setTask, htask, hpid, hsame]
      · simp [Store.setTask, hne]

theorem child_allTell (hf : Forks s) (ht : Tables s) (h : AllTell comm s) :
    AllTell comm (forkChild s t pid grouped) := by
  have hlive : AllTell comm (s.setLife t .live) := h.setTask rfl rfl rfl (by simp)
  refine hlive.frame fun b thread path hb hat => ⟨hb, ?_⟩
  have hne : thread.task ≠ s.ntasks := by
    intro htask
    have howns := ht.owner b thread hb
    simp [htask, hf.unborn s.ntasks le_rfl, Task.Owns] at howns
  simp [forkChild, Store.setTask, hne]

theorem step_allTell (hf : Forks s) (hc : Counts s) (ht : Tables s) (h : AllTell comm s)
    (hs : step size s e = some s') : AllTell comm s' ↔ KeepsFile size s e := by
  cases step_effect hc.held hs with
  | exit | exitPlain => exact exit_allTell hc ht h hs
  | @newJob t a b zone dir entry dirFails fileFails hl hj ha ha0 hb hb0 hz =>
    have hthreads : (s.newJob size t a b dir entry dirFails fileFails).threads =
        Function.update s.threads b (some { task := t, job := a, entry := _ }) :=
      Function.update_idem ..
    exact iff_of_true (h.add hthreads rfl rfl rfl (by simp)) trivial
  | @attach t j b entry fileFails job hl hj hjob hb hb0 =>
    have hthreads : (((s.setLife t .live).attach size t b j job entry).addThreadFile b
        { task := t, job := j, entry } (job.attach (s.slot size t) b) fileFails).threads =
          Function.update s.threads b (some { task := t, job := j, entry := _ }) :=
      Function.update_idem ..
    have hpid : (Function.update s.tasks t { s.tasks t with life := .live } t).pid =
        (s.tasks t).pid := by simp
    exact iff_of_true (h.add hthreads (congrArg EntryName.thread hpid) rfl rfl (by simp)) trivial
  | execveReturn => exact execveReturn_allTell h
  | forkFaults => exact iff_of_true h trivial
  | child => exact iff_of_true (child_allTell hf ht h) trivial
  | @forkFail t j job hl hjob =>
    exact iff_of_true (h.setTask (put_threads _) (put_tasks _) rfl (by simp)) trivial
  | execve | fork | forkPlain | forkFailPlain | tail =>
    exact iff_of_true (h.setTask rfl rfl rfl (by simp)) trivial

end

/-- In any run, all files tell the truth all along exactly when no exit leaves
its task's file behind and no task with a file takes the pid of another. -/
theorem files_tell_iff (comm : Nat → List UInt8) (size n : Nat) (pid leader : Nat → Nat)
    (dirFails : Bool) (rootdir : Option Path) (dir : DirEntry) (proc : Finset Path)
    (es : List Event) :
    Runs.Always (step size) (AllTell comm) (init n pid leader dirFails rootdir dir proc) es ↔
      Runs.Along (step size) (KeepsFile size) (init n pid leader dirFails rootdir dir proc) es := by
  refine Runs.always_iff_along (I := fun s => Forks s ∧ Counts s ∧ Tables s) ?_ ?_
    ⟨init_forks, init_counts, init_tables⟩ fun _ _ _ hb => nomatch hb
  · rintro s e s' ⟨hf, hc, ht⟩ hs
    exact ⟨step_forks hf hc hs, step_counts hf hc hs, step_tables hf hc ht hs⟩
  · rintro s e s' ⟨hf, hc, ht⟩ h hs
    exact step_allTell hf hc ht h hs

end Objects

end Yasched
