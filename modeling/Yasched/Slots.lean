import Yasched.Deletion

/-!
# The slot lists of a job

A thread entry is put on the slot that the pid of its task gives, and looked
for and unlinked by the pid that the task has then. An entry stays on the one
list that it was put on. So the two agree as long as no task with an entry
takes over the pid of its group's leader.
-/

namespace Yasched.Objects

open Cells

def Store.table (s : Store) (j : Nat) : Nat → List Nat :=
  ((s.jobs j).map Job.threadTable).getD fun _ => []

theorem Store.table_of_job {s : Store} {job : Job} (h : s.jobs j = some job) :
    s.table j = job.threadTable := by
  simp [Store.table, h]

theorem Store.table_of_none {s : Store} (h : s.jobs j = none) : s.table j = fun _ => [] := by
  simp [Store.table, h]

def Task.Owns (k : Task) (j : Nat) : Prop :=
  match k.life with
  | .unborn | .born => False
  | .execing tsi => tsi = some j
  | _ => k.job = some j

structure Tables (s : Store) : Prop where
  member : ∀ j i b, b ∈ s.table j i → ∃ thread, s.threads b = some thread ∧ thread.job = j
  once : ∀ b thread, s.threads b = some thread →
    ∃ i, ∀ i', (s.table thread.job i').count b = if i' = i then 1 else 0
  owner : ∀ b thread, s.threads b = some thread → (s.tasks thread.task).Owns thread.job
  single : ∀ b b' thread thread', s.threads b = some thread → s.threads b' = some thread' →
    thread.task = thread'.task → b = b'

/-- The entry is on the one list of its job that the pid of its task gives now,
whose lock `__detach_from_job` takes, and a lookup for the task finds it. -/
structure OnSlot (size : Nat) (s : Store) (b : Nat) (thread : Thread) : Prop where
  once : ∀ i, (s.table thread.job i).count b = if i = s.slot size thread.task then 1 else 0
  found : (s.tasks thread.task).job = some thread.job →
    searchThreadByTask size s thread.task = some b

def AllOnSlot (size : Nat) (s : Store) : Prop :=
  ∀ b thread, s.threads b = some thread → OnSlot size s b thread

/-- A task with an entry that execs successfully keeps its slot. For the leader
of a group this is so anyway. -/
def KeepsSlot (size : Nat) (s : Store) : Event → Prop
  | .execveReturn t true => ∀ b thread, s.threads b = some thread → thread.task = t →
    (s.tasks (s.tasks t).leader).pid % size = (s.tasks t).pid % size
  | _ => True

-- ---------------------------------------------------------------------------
-- What a step does to the lists
-- ---------------------------------------------------------------------------

/-- No entry comes or goes, or one does. A job that is freed loses its lists. -/
inductive SlotStep (size : Nat) (s s' : Store) : Prop
  | same : s'.threads = s.threads → (∀ j, s'.jobs j = none ∨ s'.table j = s.table j) →
      SlotStep size s s'
  | added {thread : Thread} : s.threads b = none →
      (s.tasks thread.task).life = .born ∨
        (s.tasks thread.task).life = .live ∧ (s.tasks thread.task).job = none →
      (s'.tasks thread.task).Owns thread.job →
      s'.threads = Function.update s.threads b (some thread) →
      (∀ i, s'.table thread.job i = s.table thread.job i ++
        if i = s.slot size thread.task then [b] else []) →
      (∀ j, j ≠ thread.job → s'.table j = s.table j) → SlotStep size s s'
  | removed {thread : Thread} : s.threads b = some thread →
      s'.threads = Function.update s.threads b none →
      (∀ j, s'.jobs j = none ∨ ∀ i, s'.table j i =
        if j = thread.job then (s.table j i).erase b else s.table j i) → SlotStep size s s'

theorem table_update {s s' : Store} {job : Job}
    (h : s'.jobs = Function.update s.jobs j (some job)) :
    s'.table = Function.update s.table j job.threadTable := by
  funext i
  rcases eq_or_ne i j with rfl | hne
  · simp [Store.table, h]
  · simp [Store.table, h, hne]

theorem put_table {s : Store} {job : Job} :
    (s.put j job).jobs i = none ∨
      (s.put j job).table i = if i = j then job.threadTable else s.table i := by
  unfold Store.put
  split
  · rcases eq_or_ne i j with rfl | hne
    · exact .inl (Function.update_self ..)
    · exact .inr (by simp [Store.table, Store.delJob, hne])
  · rw [table_update rfl]
    exact .inr (Function.update_apply ..)

@[simp] theorem slot_setLife (s : Store) : (s.setLife t life).slot size i = s.slot size i := by
  rcases eq_or_ne i t with rfl | hne
  · simp [Store.slot]
  · simp [Store.slot, hne]

theorem attach_threadTable (job : Job) :
    (job.attach i b).threadTable i' = job.threadTable i' ++ if i' = i then [b] else [] := by
  rcases eq_or_ne i' i with rfl | hne
  · simp [Job.attach]
  · simp [Job.attach, hne]

theorem step_slots (hc : Counts s) (hs : step size s e = some s') : SlotStep size s s' := by
  cases step_effect hc.held hs with
  | @newJob t a b _ dir entry dirFails fileFails hl hj ha ha0 hb hb0 hz =>
    obtain ⟨dir', entry', hjobs, hthreads⟩ := s.newJob_objects size t a b dir entry dirFails
      fileFails
    have htable := table_update hjobs
    refine .added hb (.inr ⟨hl, hj⟩) (by simp [Task.Owns]) hthreads (fun i => ?_) fun j hne => ?_
    · refine (congrFun (congrFun htable a) i).trans ?_
      rcases eq_or_ne i (s.slot size t) with rfl | hne
      · simp [Store.freshJob, Store.table_of_none ha]
      · simp [Store.freshJob, Store.table_of_none ha, hne]
    · exact (congrFun htable j).trans (Function.update_of_ne hne ..)
  | @fork t j job hl hj hjob =>
    refine .same rfl fun i => .inr ?_
    have htable : ((s.setJob j (some job.get)).setLife t (.forking (some j))).table =
        Function.update s.table j job.get.threadTable := table_update rfl
    have hget : job.get.threadTable = s.table j := (Store.table_of_job hjob).symm
    rw [htable, hget, Function.update_eq_self]
  | @forkFail t j job hl hjob =>
    refine .same (put_threads _) fun i => put_table.imp_right fun h => h.trans ?_
    rcases eq_or_ne i j with rfl | hne
    · simp [Store.table_of_job hjob]
    · rw [if_neg hne]
      rfl
  | @attach t j b entry fileFails job hl hj hjob hb hb0 =>
    have htable : (((s.setLife t .live).attach size t b j job entry).addThreadFile b
        { task := t, job := j, entry } (job.attach (s.slot size t) b) fileFails).table =
          Function.update s.table j (job.attach ((s.setLife t .live).slot size t) b).threadTable :=
      table_update rfl
    refine .added hb (.inl hl) ?_ (Function.update_idem ..) (fun i => ?_) fun i hne => ?_
    · simpa [Store.attach, Store.addThreadFile, Task.Owns] using hj
    · rw [htable, slot_setLife, Function.update_self, attach_threadTable, Store.table_of_job hjob]
    · rw [htable, Function.update_of_ne hne]
  | @exit t b thread job hl hb ht hjob =>
    refine .removed hb ((put_threads _).trans Store.delThread_threads) fun i => ?_
    refine put_table.imp_right fun h i' => ?_
    rw [h]
    rcases eq_or_ne i thread.job with rfl | hne
    · simp [Job.detach, Store.table_of_job hjob]
    · rw [if_neg hne, if_neg hne]
      simp [Store.table, Store.delThread, hne]
  | execve | execveReturn | forkFaults | forkPlain | child | forkFailPlain | tail | exitPlain =>
    exact .same rfl fun _ => .inr rfl

-- ---------------------------------------------------------------------------
-- The lists of the reachable stores
-- ---------------------------------------------------------------------------

theorem Task.owns_setTask {s : Store} {k : Task} (hk : ∀ j, (s.tasks t).Owns j → k.Owns j)
    (h : (s.tasks i).Owns j) : (Function.update s.tasks t k i).Owns j := by
  rcases eq_or_ne i t with rfl | hne
  · simpa using hk j h
  · simpa [hne] using h

theorem step_owns (hf : Forks s) (hc : Counts s) (hs : step size s e = some s')
    (h : (s.tasks i).Owns j) : (s'.tasks i).Owns j := by
  cases step_effect hc.held hs with
  | forkFaults => exact h
  | @child t o pid grouped hl =>
    have hlive : ((s.setLife t .live).tasks i).Owns j :=
      Task.owns_setTask (by simp [Task.Owns, hl]) h
    have hne : s.ntasks ≠ t := (hf.lt (by simp [hl])).ne'
    refine Task.owns_setTask (s := s.setLife t .live) (fun j hj => ?_) hlive
    simp [hne, hf.unborn s.ntasks le_rfl, Task.Owns] at hj
  | forkFail hl =>
    rw [put_tasks]
    exact Task.owns_setTask (by simp [Task.Owns, hl]) h
  | exit hl =>
    rw [put_tasks, Store.delThread_tasks]
    exact Task.owns_setTask (by simp [Task.Owns, hl]) h
  | newJob hl hj => exact Task.owns_setTask (by simp [Task.Owns, hl, hj]) h
  | @execveReturn t tsi ok hl =>
    refine Task.owns_setTask (fun j hj => ?_) h
    have htsi : tsi = some j := by simpa [Task.Owns, hl] using hj
    simp [Task.Owns, Store.returned, htsi]
  | execve hl | fork hl | forkPlain hl | forkFailPlain hl | attach hl | tail hl
  | exitPlain hl =>
    exact Task.owns_setTask (by simp [Task.Owns, hl]) h

theorem Tables.not_mem_erase (ht : Tables s) (hb : s.threads b = some thread) :
    b ∉ (s.table thread.job i).erase b := by
  obtain ⟨i', hcount⟩ := ht.once b thread hb
  have hle : (s.table thread.job i).count b ≤ 1 := by
    rw [hcount i]
    split <;> omega
  rw [← List.count_pos_iff, List.count_erase_self]
  omega

theorem SlotStep.member (ht : Tables s) (hs : SlotStep size s s') (hm : b ∈ s'.table j i) :
    ∃ thread, s'.threads b = some thread ∧ thread.job = j := by
  have hjob : s'.jobs j ≠ none := by
    intro hnone
    simp [Store.table_of_none hnone] at hm
  cases hs with
  | same hthreads htable =>
    rw [(htable j).resolve_left hjob] at hm
    rw [hthreads]
    exact ht.member j i b hm
  | @added c new hc _ _ hthreads hnew hother =>
    rw [hthreads]
    have hold (hm : b ∈ s.table j i) :
        ∃ thread, Function.update s.threads c (some new) b = some thread ∧ thread.job = j := by
      obtain ⟨thread, hb, hj⟩ := ht.member j i b hm
      have hne : b ≠ c := by
        rintro rfl
        cases hc.symm.trans hb
      exact ⟨thread, (Function.update_of_ne hne ..).trans hb, hj⟩
    rcases eq_or_ne j new.job with rfl | hne
    · rw [hnew i] at hm
      rcases List.mem_append.mp hm with hm | hm
      · exact hold hm
      · obtain rfl : b = c := by
          split at hm
          · exact List.mem_singleton.mp hm
          · cases hm
        exact ⟨new, Function.update_self .., rfl⟩
    · rw [hother j hne] at hm
      exact hold hm
  | @removed c old hc hthreads htable =>
    rw [hthreads]
    rw [(htable j).resolve_left hjob i] at hm
    have hne : b ≠ c ∧ b ∈ s.table j i := by
      split at hm
      · rename_i hj
        subst hj
        refine ⟨?_, List.mem_of_mem_erase hm⟩
        rintro rfl
        exact ht.not_mem_erase hc hm
      · rename_i hj
        refine ⟨?_, hm⟩
        rintro rfl
        obtain ⟨thread, hb, hjob⟩ := ht.member j i b hm
        cases hc.symm.trans hb
        exact hj hjob.symm
    obtain ⟨thread, hb, hj⟩ := ht.member j i b hne.2
    exact ⟨thread, (Function.update_of_ne hne.1 ..).trans hb, hj⟩

theorem SlotStep.once (ht : Tables s) (hc' : Counts s') (hs : SlotStep size s s')
    (hb : s'.threads b = some thread) :
    ∃ i, ∀ i', (s'.table thread.job i').count b = if i' = i then 1 else 0 := by
  obtain ⟨job, hjob⟩ := hc'.held.thread b thread hb
  have hjob : s'.jobs thread.job ≠ none := by simp [hjob]
  cases hs with
  | same hthreads htable =>
    rw [(htable _).resolve_left hjob]
    exact ht.once b thread (hthreads ▸ hb)
  | @added c new hc _ _ hthreads hnew hother =>
    rw [hthreads] at hb
    rcases eq_or_ne b c with rfl | hne
    · rw [Function.update_self] at hb
      obtain rfl : thread = new := (Option.some.inj hb).symm
      refine ⟨s.slot size thread.task, fun i' => ?_⟩
      have hzero : (s.table thread.job i').count b = 0 := by
        refine List.count_eq_zero.mpr fun hm => ?_
        obtain ⟨old, hb, -⟩ := ht.member _ _ _ hm
        cases hc.symm.trans hb
      rw [hnew i', List.count_append, hzero]
      split <;> simp
    · rw [Function.update_of_ne hne] at hb
      obtain ⟨i, hcount⟩ := ht.once b thread hb
      refine ⟨i, fun i' => ?_⟩
      rw [← hcount i']
      rcases eq_or_ne thread.job new.job with hj | hj
      · rw [hj, hnew i', List.count_append]
        split <;> simp [hne.symm]
      · rw [hother _ hj]
  | @removed c old hc hthreads htable =>
    rw [hthreads] at hb
    have hne : b ≠ c := by
      rintro rfl
      simp at hb
    rw [Function.update_of_ne hne] at hb
    obtain ⟨i, hcount⟩ := ht.once b thread hb
    refine ⟨i, fun i' => ?_⟩
    rw [(htable _).resolve_left hjob i', ← hcount i']
    split
    · exact List.count_erase_of_ne hne
    · rfl

theorem SlotStep.entry {thread : Thread} (hs : SlotStep size s s')
    (hb : s'.threads b = some thread) :
    s.threads b = some thread ∨ s.threads b = none ∧
      ((s.tasks thread.task).life = .born ∨
        (s.tasks thread.task).life = .live ∧ (s.tasks thread.task).job = none) ∧
      (s'.tasks thread.task).Owns thread.job ∧
      ∀ c old, c ≠ b → s'.threads c = some old → s.threads c = some old := by
  cases hs with
  | same hthreads htable => exact .inl (hthreads ▸ hb)
  | @added c new hc hlife howns hthreads hnew hother =>
    rw [hthreads] at hb ⊢
    rcases eq_or_ne b c with rfl | hne
    · rw [Function.update_self] at hb
      obtain rfl : thread = new := (Option.some.inj hb).symm
      refine .inr ⟨hc, hlife, howns, fun d old hd hold => ?_⟩
      rwa [Function.update_of_ne hd] at hold
    · rw [Function.update_of_ne hne] at hb
      exact .inl hb
  | @removed c old hc hthreads htable =>
    rw [hthreads] at hb
    rcases eq_or_ne b c with rfl | hne
    · simp at hb
    · rw [Function.update_of_ne hne] at hb
      exact .inl hb

theorem Tables.not_owner (ht : Tables s) (hb : s.threads b = some thread)
    (hlife : (s.tasks thread.task).life = .born ∨
      (s.tasks thread.task).life = .live ∧ (s.tasks thread.task).job = none) : False := by
  have howns := ht.owner b thread hb
  rcases hlife with hlife | ⟨hlife, hjob⟩
  · simp [Task.Owns, hlife] at howns
  · simp [Task.Owns, hlife, hjob] at howns

theorem SlotStep.single (ht : Tables s) (hs : SlotStep size s s')
    (hb : s'.threads b = some thread) (hb' : s'.threads b' = some thread')
    (htask : thread.task = thread'.task) : b = b' := by
  by_contra hne
  rcases hs.entry hb with hold | ⟨-, hlife, -, hothers⟩
  · rcases hs.entry hb' with hold' | ⟨-, hlife, -, -⟩
    · exact hne (ht.single b b' thread thread' hold hold' htask)
    · exact ht.not_owner hold (htask ▸ hlife)
  · exact ht.not_owner (hothers b' thread' (Ne.symm hne) hb') (htask ▸ hlife)

theorem step_tables (hf : Forks s) (hc : Counts s) (ht : Tables s)
    (hs : step size s e = some s') : Tables s' := by
  have hslots := step_slots hc hs
  have hc' := step_counts hf hc hs
  refine ⟨fun _ _ _ => hslots.member ht, fun _ _ => hslots.once ht hc', ?_,
    fun _ _ _ _ => hslots.single ht⟩
  intro b thread hb
  rcases hslots.entry hb with hold | ⟨-, -, howns, -⟩
  · exact step_owns hf hc hs (ht.owner b thread hold)
  · exact howns

theorem init_tables : Tables (init n pid leader dirFails rootdir dir proc) where
  member j i b hm := by simp [Store.table, init] at hm
  once b thread hb := nomatch hb
  owner b thread hb := nomatch hb
  single b b' thread thread' hb := nomatch hb

-- ---------------------------------------------------------------------------
-- Slots and pids
-- ---------------------------------------------------------------------------

theorem Tables.found (hc : Counts s) (ht : Tables s) (hb : s.threads b = some thread)
    (hm : b ∈ s.table thread.job (s.slot size thread.task))
    (hj : (s.tasks thread.task).job = some thread.job) :
    searchThreadByTask size s thread.task = some b := by
  obtain ⟨job, hjob⟩ := hc.held.thread b thread hb
  rw [Store.table_of_job hjob] at hm
  cases hsearch : searchThreadByTask size s thread.task with
  | none =>
    simp only [searchThreadByTask, hj, Option.bind_some, hjob] at hsearch
    exact absurd (by simp [hb]) (List.find?_eq_none.mp hsearch b hm)
  | some b' =>
    obtain ⟨other, hb', htask⟩ := searchThreadByTask_some hsearch
    rw [ht.single b' b other thread hb' hb htask]

/-- Every entry is on one list; whether it is the right one is the question. -/
theorem allOnSlot_iff (hc : Counts s) (ht : Tables s) : AllOnSlot size s ↔
    ∀ b thread, s.threads b = some thread → b ∈ s.table thread.job (s.slot size thread.task) := by
  constructor
  · intro h b thread hb
    have hcount := (h b thread hb).once (s.slot size thread.task)
    rw [if_pos rfl] at hcount
    exact List.count_pos_iff.mp (by omega)
  · intro h b thread hb
    obtain ⟨i, hcount⟩ := ht.once b thread hb
    have hm := h b thread hb
    have hslot : s.slot size thread.task = i := by
      by_contra hne
      have hzero := hcount (s.slot size thread.task)
      rw [if_neg hne] at hzero
      exact List.count_eq_zero.mp hzero hm
    exact ⟨hslot ▸ hcount, ht.found hc hb hm⟩

theorem slot_setTask {s : Store} {k : Task} (hk : k.pid = (s.tasks t).pid) :
    (s.setTask t k).slot size i = s.slot size i := by
  rcases eq_or_ne i t with rfl | hne
  · simp [Store.slot, hk]
  · simp [Store.slot, hne]

theorem slot_congr {s s' : Store} (h : s'.tasks = s.tasks) : s'.slot size i = s.slot size i := by
  rw [Store.slot, Store.slot, h]

theorem step_slot (hf : Forks s) (hc : Counts s) (hs : step size s e = some s')
    (he : ∀ t, e ≠ .execveReturn t true) (hi : (s.tasks i).life ≠ .unborn) :
    s'.slot size i = s.slot size i := by
  cases step_effect hc.held hs with
  | @execveReturn t tsi ok hl =>
    cases ok with
    | true => exact absurd rfl (he t)
    | false => exact slot_setTask rfl
  | @child t o pid grouped hl =>
    have hne : i ≠ s.ntasks := (hf.lt hi).ne
    have hlive : (forkChild s t pid grouped).slot size i = (s.setLife t .live).slot size i := by
      simp [Store.slot, forkChild, hne]
    rw [hlive, slot_setLife]
  | forkFail => exact (slot_congr (put_tasks _)).trans (slot_setLife _)
  | exit => exact (slot_congr ((put_tasks _).trans Store.delThread_tasks)).trans (slot_setLife _)
  | forkFaults => rfl
  | execve | newJob | fork | forkPlain | forkFailPlain | attach | tail | exitPlain =>
    exact slot_setLife _

theorem SlotStep.onSlot (hc' : Counts s') (hs : SlotStep size s s')
    (hq : ∀ b thread, s.threads b = some thread → b ∈ s.table thread.job (s.slot size thread.task))
    (hb : s'.threads b = some thread) : b ∈ s'.table thread.job (s.slot size thread.task) := by
  obtain ⟨job, hjob⟩ := hc'.held.thread b thread hb
  have hjob : s'.jobs thread.job ≠ none := by simp [hjob]
  cases hs with
  | same hthreads htable =>
    rw [(htable _).resolve_left hjob]
    exact hq b thread (hthreads ▸ hb)
  | @added c new hc _ _ hthreads hnew hother =>
    rw [hthreads] at hb
    rcases eq_or_ne b c with rfl | hne
    · rw [Function.update_self] at hb
      obtain rfl : thread = new := (Option.some.inj hb).symm
      simp [hnew]
    · rw [Function.update_of_ne hne] at hb
      rcases eq_or_ne thread.job new.job with hj | hj
      · rw [hj, hnew]
        exact List.mem_append_left _ (hj ▸ hq b thread hb)
      · rw [hother _ hj]
        exact hq b thread hb
  | @removed c old hc hthreads htable =>
    rw [hthreads] at hb
    rcases eq_or_ne b c with rfl | hne
    · simp at hb
    · rw [Function.update_of_ne hne] at hb
      rw [(htable _).resolve_left hjob]
      split
      · exact (List.mem_erase_of_ne hne).mpr (hq b thread hb)
      · exact hq b thread hb

theorem SlotStep.born (ht : Tables s) (hs : SlotStep size s s') (hb : s'.threads b = some thread) :
    (s.tasks thread.task).life ≠ .unborn := by
  intro hu
  rcases hs.entry hb with hold | ⟨-, hlife, -⟩
  · have howns := ht.owner b thread hold
    simp [Task.Owns, hu] at howns
  · simp [hu] at hlife

theorem Tables.mem_iff (ht : Tables s) (hb : s.threads b = some thread)
    (hm : b ∈ s.table thread.job i) : b ∈ s.table thread.job i' ↔ i' = i := by
  obtain ⟨i₀, hcount⟩ := ht.once b thread hb
  have hmem (i : Nat) : b ∈ s.table thread.job i ↔ i = i₀ := by
    rw [← List.count_pos_iff, hcount i]
    split <;> simp [*]
  rw [hmem] at hm ⊢
  rw [hm]

/-- A step that leaves all entries on the slots of their tasks is any but an
execve that moves a task away from its slot. -/
theorem step_allOnSlot (hf : Forks s) (hc : Counts s) (ht : Tables s) (hq : AllOnSlot size s)
    (hs : step size s e = some s') : AllOnSlot size s' ↔ KeepsSlot size s e := by
  have hq := (allOnSlot_iff hc ht).mp hq
  have hslots := step_slots hc hs
  have hc' := step_counts hf hc hs
  rw [allOnSlot_iff hc' (step_tables hf hc ht hs)]
  by_cases he : ∃ t, e = .execveReturn t true
  · obtain ⟨t, rfl⟩ := he
    cases step_effect hc.held hs with
    | @execveReturn _ tsi _ hl =>
      have hpid : (s.setTask t (s.returned t tsi true)).slot size t =
          (s.tasks (s.tasks t).leader).pid % size := by
        simp [Store.slot, Store.returned]
      constructor
      · rintro h b thread hb rfl
        have hm : b ∈ s.table thread.job _ := h b thread hb
        rw [hpid] at hm
        exact (ht.mem_iff hb (hq b thread hb)).mp hm
      · intro h b thread hb
        show b ∈ s.table thread.job _
        rcases eq_or_ne thread.task t with rfl | hne
        · rw [hpid, h b thread hb rfl]
          exact hq b thread hb
        · simpa [Store.slot, hne] using hq b thread hb
  · have he : ∀ t, e ≠ .execveReturn t true := fun t h => he ⟨t, h⟩
    refine iff_of_true (fun b thread hb => ?_) ?_
    · rw [step_slot hf hc hs he (hslots.born ht hb)]
      exact hslots.onSlot hc' hq hb
    · unfold KeepsSlot
      split
      · exact absurd rfl (he _)
      · trivial

/-- All entries are on the slots of their tasks in every reachable store of a
run exactly when no task with an entry leaves its slot by an execve. -/
theorem always_onSlot_iff :
    Runs.Always (step size) (AllOnSlot size) (init n pid leader dirFails rootdir dir proc) es ↔
      Runs.Along (step size) (KeepsSlot size) (init n pid leader dirFails rootdir dir proc) es := by
  refine Runs.always_iff_along (I := fun s => Forks s ∧ Counts s ∧ Tables s) ?_ ?_
    ⟨init_forks, init_counts, init_tables⟩ fun b thread hb => nomatch hb
  · rintro s e s' ⟨hf, hc, ht⟩ hs
    exact ⟨step_forks hf hc hs, step_counts hf hc hs, step_tables hf hc ht hs⟩
  · rintro s e s' ⟨hf, hc, ht⟩ hq hs
    exact step_allOnSlot hf hc ht hq hs

/-- A second thread of the group execs. The leader exits meanwhile, and its pid
goes to the thread, whose entry stays on the slot of the old one. -/
theorem always_onSlot_fails : ¬ ∀ size n pid leader dirFails rootdir dir proc es,
    Runs.Always (step size) (AllOnSlot size) (init n pid leader dirFails rootdir dir proc) es := by
  intro h
  obtain ⟨s, thread, hs, hb, hslot, hcount⟩ : ∃ s thread,
      Runs.run (step 64) (sampleInit 1) (sampleJob ++
        [.fork 0, .child 0 2 true, .scheduleTail 1 (some (0x3000, unwritten)) false,
          .execve 1 none none none false false, .exit 0, .execveReturn 1 true]) = some s ∧
      s.threads 0x3000 = some thread ∧ s.slot 64 thread.task = 1 ∧
        (s.table thread.job 1).count 0x3000 = 0 := ⟨_, _, rfl, rfl, rfl, rfl⟩
  have honce := ((h 64 _ _ _ _ _ _ _ _).last hs 0x3000 thread hb).once 1
  rw [hslot, hcount] at honce
  exact absurd honce (by decide)

end Yasched.Objects
