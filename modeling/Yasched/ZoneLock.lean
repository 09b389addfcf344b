import Yasched.Locks
import Yasched.Zone

/-!
# The lock of the zone

What `sched.c` does under the lock of a zone, one access after another, on any
number of CPUs: the new id and the new place on `job_list`, the removal from it,
and of a control call the walk of `search_job_by_id` from job to job, the state
word and the wake-up. Outside of the lock the counts of the jobs go up and down,
the objects are freed, and `ya_ioctl_mutex` lets in one control call at a time.

Each of these sections does what its function in `Yasched.Jobs` does in one step
(`zone_serial`). It gets at no object that is freed, as long as those who count
have a reference (`objects_safe`), and every call comes to its return, but for a
deletion, which comes to the fault in its last message (`calls_return`).
-/

namespace Yasched.ZoneLock

open Locks

-- ---------------------------------------------------------------------------
-- Under the lock
-- ---------------------------------------------------------------------------

inductive Section
  | newJob (t : Nat) (junk : TaskState)
  | delJob (p : Nat)
  | control (op : JobOp) (keep : List Nat) (jid : Nat)
  deriving DecidableEq, Repr

/-- `visit` is the body of `for_each_job_in_zone`, with the address in `job`;
`unlock` has the value that is returned. -/
inductive At
  | incJid (t : Nat) (junk : TaskState)
  | listAddTail (t : Nat) (junk : TaskState) (jid : Nat)
  | listDel (p : Nat)
  | first (op : JobOp) (keep : List Nat) (jid : Nat)
  | visit (op : JobOp) (keep : List Nat) (jid p : Nat)
  | readState (op : JobOp) (keep : List Nat) (p : Nat)
  | writeState (keep : List Nat) (p : Nat) (write : YaJobState × Bool)
  | wakeUp (keep : List Nat)
  | unlock (ret : Int)
  deriving DecidableEq, Repr

def nextJob (jobList : List Nat) (p : Nat) : Option Nat :=
  match jobList.dropWhile (· ≠ p) with
  | _ :: q :: _ => some q
  | _ => none

def walk (op : JobOp) (keep : List Nat) (jid : Nat) : Option Nat → At
  | none => .unlock (-einval)
  | some p => .visit op keep jid p

/-- `__suspend_job` writes without a look at what is there. -/
def found (op : JobOp) (keep : List Nat) (p : Nat) : At :=
  match op with
  | .suspend => .writeState keep p (.suspended, false)
  | .kill | .resume => .readState op keep p

/-- `list_add_tail`: the new job with its id and its one thread. -/
def listAddTail (s : Sys) (t : Nat) (junk : TaskState) (jid : Nat) : Sys :=
  let k := { s.tasks t with job := some s.njobs, thread := some (initThread s.njobs junk) }
  { s.setTask t k with
    jobs := Function.update s.jobs s.njobs { id := jid, aliveProc := 1 }
    njobs := s.njobs + 1
    jobList := s.jobList ++ [s.njobs] }

section
variable (h : Hooks)

def exec : At → Sys → Int ⊕ (At × Sys)
  | .incJid t junk, s =>
    .inr (.listAddTail t junk (incJid s.maxJid), { s with maxJid := incJid s.maxJid })
  | .listAddTail t junk jid, s => .inr (.unlock 0, listAddTail s t junk jid)
  | .listDel p, s => .inr (.unlock 0, yaDelJob s p)
  | .first op keep jid, s => .inr (walk op keep jid s.jobList.head?, s)
  | .visit op keep jid p, s =>
    .inr (if (s.jobs p).id = jid then found op keep p
      else walk op keep jid (nextJob s.jobList p), s)
  | .readState op keep p, s =>
    .inr (if op = .resume ∧ s.jobState p ≠ .suspended then .unlock 0
      else .writeState keep p (op.write (s.jobState p)), s)
  | .writeState keep p write, s =>
    .inr (if write.2 then .wakeUp keep else .unlock 0,
      { s.setJob p { s.jobs p with state := write.1 } with
        waking := if write.2 then some p else none })
  | .wakeUp keep, s => .inr (.unlock 0, Yasched.wakeUp h keep s)
  | .unlock ret, _ => .inl ret

def start : Section → At
  | .newJob t junk => .incJid t junk
  | .delJob p => .listDel p
  | .control op keep jid => .first op keep jid

def code : Sections Sys Section At Int where
  start := start
  exec := exec h

def perform (s : Sys) : Section → Int × Sys
  | .newJob t junk => (0, yaInitJob s t junk)
  | .delJob p => (0, yaDelJob s p)
  | .control op keep jid => jobOp op h keep s 0 jid

end

-- ---------------------------------------------------------------------------
-- Outside
-- ---------------------------------------------------------------------------

/-- `initJob`, `delJob` and `admitted` wait for the lock, `ioctl` for the
mutex; `free` and `message` are `ya_del_job` behind the unlock, which ends in
`oops`; `leave` is a control call that still has the mutex. -/
inductive Outer
  | idle
  | initJob (t : Nat) (junk : TaskState)
  | delJob (p : Nat)
  | free (p : Nat)
  | message (p : Nat)
  | oops
  | ioctl (op : JobOp) (keep : List Nat) (zid jid : Nat)
  | admitted (op : JobOp) (keep : List Nat) (zid jid : Nat)
  | leave (ret : Int)
  deriving DecidableEq, Repr

/-- The atomic counters, the calls of `kmem_cache_free`, and who is behind
`ya_ioctl_mutex`. -/
structure Counts where
  aliveProc : Nat → Int
  freed : Nat → Nat
  mutex : Option Nat

/-- What an idle party begins with; `go` takes one on. -/
inductive Choice
  | newJob (t : Nat) (junk : TaskState)
  | getThread (p : Nat)
  | putThread (p : Nat)
  | ioctl (op : JobOp) (keep : List Nat) (zid jid : Nat)
  | go
  deriving DecidableEq, Repr

def outer (k : Nat) : Choice → Outer → Sys → Counts → Option (Outer × Counts)
  | .newJob t junk, .idle, _, c => some (.initJob t junk, c)
  | .getThread p, .idle, _, c =>
    some (.idle, { c with aliveProc := Function.update c.aliveProc p (c.aliveProc p + 1) })
  -- `atomic_dec_and_test`
  | .putThread p, .idle, _, c =>
    some (if c.aliveProc p - 1 = 0 then .delJob p else .idle,
      { c with aliveProc := Function.update c.aliveProc p (c.aliveProc p - 1) })
  | .ioctl op keep zid jid, .idle, _, c => some (.ioctl op keep zid jid, c)
  | .go, .ioctl op keep zid jid, _, c =>
    if c.mutex = none then some (.admitted op keep zid jid, { c with mutex := some k }) else none
  -- an unknown zone has no lock
  | .go, .admitted _ _ zid _, _, c =>
    if searchZoneById zid = none then some (.leave (-einval), c) else none
  | .go, .leave _, _, c => some (.idle, { c with mutex := none })
  | .go, .free p, _, c =>
    some (.message p, { c with freed := Function.update c.freed p (c.freed p + 1) })
  -- `dummy_job->id`, which is read of no job
  | .go, .message _, _, c => some (.oops, c)
  | _, _, _, _ => none

def wants : Outer → Option Section
  | .initJob t junk => some (.newJob t junk)
  | .delJob p => some (.delJob p)
  | .admitted op keep zid jid => (searchZoneById zid).map fun _ => .control op keep jid
  | _ => none

def back (o : Outer) (ret : Int) : Outer :=
  match o with
  | .delJob p => .free p
  | .admitted .. => .leave ret
  | _ => .idle

def parties : Parties Nat Choice Outer Sys Counts Section Int where
  outer := outer
  wants := wants
  back := back

abbrev Cpus := State Nat Outer Sys Counts Section At Int

abbrev step (h : Hooks) : Cpus → Locks.Event Nat Choice → Option Cpus := Locks.step (code h) parties

/-- The object of a job that is still to be created has its count of 1. -/
def init (n : Nat) : Cpus where
  shared := Yasched.init n
  rest := { aliveProc := fun _ => 1, freed := fun _ => 0, mutex := none }
  pc _ := .outside .idle

-- ---------------------------------------------------------------------------
-- Each section by itself
-- ---------------------------------------------------------------------------

section

variable {h : Hooks} {s : Sys}

theorem nextJob_append (hn : (before ++ p :: after).Nodup) :
    nextJob (before ++ p :: after) p = after.head? := by
  have hbefore : ∀ q ∈ before, decide (q ≠ p) = true := by
    intro q hq
    refine decide_eq_true fun hqp => ?_
    subst hqp
    exact (List.nodup_append.mp hn).2.2 q hq q List.mem_cons_self rfl
  unfold nextJob
  rw [List.dropWhile_append_of_pos hbefore, List.dropWhile_cons_of_neg (by simp)]
  cases after <;> rfl

/-- What a call returns and leaves when its search is over. -/
def answer (op : JobOp) (h : Hooks) (keep : List Nat) (s : Sys) : Option Nat → Int × Sys
  | none => (-einval, s)
  | some p => (0, Yasched.wakeUp h keep (Yasched.writeState op s p))

theorem wakeUp_none (hw : s.waking = none) : Yasched.wakeUp h keep s = s := by
  simp [Yasched.wakeUp, hw]

theorem writeState_same (hw : s.waking = none)
    (hsame : op.write (s.jobState p) = (s.jobState p, false)) :
    Yasched.wakeUp h keep (Yasched.writeState op s p) = s := by
  have hjob : s.setJob p { s.jobs p with state := s.jobState p } = s := by
    simp [Sys.setJob, Sys.jobState]
  have hwrite : Yasched.writeState op s p = s := by
    unfold Yasched.writeState
    rw [hsame]
    simp only [hjob, Bool.false_eq_true, if_false, ← hw]
  rw [hwrite, wakeUp_none hw]

theorem finishes_write (op : JobOp) (hstate : op.write (s.jobState p) = write) :
    Finishes (code h) (.writeState keep p write) s 0
      (Yasched.wakeUp h keep (Yasched.writeState op s p)) := by
  subst hstate
  have hexec : (code h).exec (.writeState keep p (op.write (s.jobState p))) s =
      .inr (if (op.write (s.jobState p)).2 then .wakeUp keep else .unlock 0,
        Yasched.writeState op s p) := rfl
  refine .exec hexec ?_
  split
  case isTrue hwake => exact .exec rfl (.unlock rfl)
  case isFalse hwake =>
    rw [wakeUp_none (by simp [Yasched.writeState, hwake])]
    exact .unlock rfl

theorem finishes_read (op : JobOp) (hw : s.waking = none) :
    Finishes (code h) (.readState op keep p) s 0
      (Yasched.wakeUp h keep (Yasched.writeState op s p)) := by
  refine .exec rfl ?_
  split
  case isTrue hsame =>
    obtain ⟨rfl, hstate⟩ := hsame
    rw [writeState_same hw]
    · exact .unlock rfl
    · cases hjob : s.jobState p with
      | suspended => exact absurd hjob hstate
      | running | killed => rfl
  case isFalse => exact finishes_write op rfl

theorem finishes_found (op : JobOp) (hw : s.waking = none) :
    Finishes (code h) (found op keep p) s 0
      (Yasched.wakeUp h keep (Yasched.writeState op s p)) := by
  cases op with
  | suspend => exact finishes_write .suspend rfl
  | kill => exact finishes_read .kill hw
  | resume => exact finishes_read .resume hw

theorem finishes_visit (op : JobOp) (hn : s.jobList.Nodup) (hw : s.waking = none)
    (hlist : s.jobList = before ++ p :: after) :
    Finishes (code h) (.visit op keep jid p) s
      (answer op h keep s ((p :: after).find? fun p => (s.jobs p).id = jid)).1
      (answer op h keep s ((p :: after).find? fun p => (s.jobs p).id = jid)).2 := by
  induction after generalizing before p with
  | nil =>
    refine .exec rfl ?_
    rw [List.find?_cons]
    split
    case isTrue hid => simpa [hid, answer] using finishes_found op hw
    case isFalse hid =>
      rw [hlist, nextJob_append (hlist ▸ hn)]
      simpa [hid, answer, walk] using Finishes.unlock rfl
  | cons q after ih =>
    refine .exec rfl ?_
    rw [List.find?_cons]
    split
    case isTrue hid => simpa [hid, answer] using finishes_found op hw
    case isFalse hid =>
      rw [hlist, nextJob_append (hlist ▸ hn)]
      have hlist' : s.jobList = (before ++ [p]) ++ q :: after := by simpa using hlist
      have hrest := ih hlist'
      simpa [hid, walk] using hrest

theorem finishes_control (op : JobOp) (hn : s.jobList.Nodup) (hw : s.waking = none) :
    Finishes (code h) (.first op keep jid) s (jobOp op h keep s 0 jid).1
      (jobOp op h keep s 0 jid).2 := by
  have hanswer : jobOp op h keep s 0 jid = answer op h keep s (searchJobById s jid) := by
    cases hsearch : searchJobById s jid <;> simp [jobOp, answer, searchZoneById, hsearch]
  rw [hanswer]
  refine .exec rfl ?_
  unfold searchJobById
  cases hlist : s.jobList with
  | nil => exact .unlock rfl
  | cons p after =>
    have hlist' : s.jobList = [] ++ p :: after := hlist
    simpa [walk] using finishes_visit op hn hw hlist'

end

-- ---------------------------------------------------------------------------
-- The sections are atomic
-- ---------------------------------------------------------------------------

/-- Between two sections: the list is in order and nobody is being woken. -/
structure Ready (s : Sys) : Prop where
  numbered : Numbered s
  waking : s.waking = none

theorem Ready.nodup (hs : Ready s) : s.jobList.Nodup := hs.numbered.sorted.imp Nat.ne_of_lt

theorem init_ready (n : Nat) : Ready (Yasched.init n) := ⟨init_numbered n, rfl⟩

theorem wakeUp_waking : (Yasched.wakeUp h keep s).waking = none := by
  unfold Yasched.wakeUp
  split
  next hw => exact hw
  next => rfl

theorem Ready.control (hs : Ready s) : Ready (jobOp op h keep s zid jid).2 := by
  refine ⟨hs.numbered.control (control_cases op h keep s zid jid), ?_⟩
  unfold jobOp
  split
  · exact hs.waking
  · split
    · exact hs.waking
    · exact wakeUp_waking

theorem code_does (h : Hooks) : Does (code h) Ready (perform h) where
  finishes s op hs := by
    cases op with
    | newJob t junk => exact .exec rfl (.exec rfl (.unlock rfl))
    | delJob p => exact .exec rfl (.unlock rfl)
    | control op keep jid => exact finishes_control op hs.nodup hs.waking
  keeps s op hs := by
    cases op with
    | newJob t junk => exact ⟨hs.numbered.newJob, hs.waking⟩
    | delJob p => exact ⟨hs.numbered.delJob, hs.waking⟩
    | control op keep jid => exact hs.control

theorem locked_of_run (hr : Runs.run (step h) (init n) es = some s) :
    Locked (Yasched.init n) (code h) s :=
  serial rfl rfl (fun _ => ⟨.idle, rfl⟩) hr

/-- Whatever happens between the accesses of a section, the calls return what
they return, and leave what they leave, when each is made in one step, in the
order in which they unlock; one CPU at a time is under the lock. -/
theorem zone_serial (hr : Runs.run (step h) (init n) es = some s) :
    ∃ m, Performs (perform h) (Yasched.init n) s.log m ∧ Ready m ∧
      (s.holder = none → s.shared = m) ∧
      (∀ k o op l, s.pc k = .inside o op l →
        s.holder = some k ∧ Reaches (code h) op m l s.shared) := by
  have hlocked := locked_of_run hr
  cases hholder : s.holder with
  | none =>
    obtain ⟨hserial, hout⟩ := hlocked.free hholder
    obtain ⟨hperf, hready⟩ := hserial.performs (code_does h) (init_ready n)
    refine ⟨s.shared, hperf, hready, fun _ => rfl, fun k o op l hpc => ?_⟩
    cases (hlocked.holder hpc).symm.trans hholder
  | some k =>
    obtain ⟨⟨o, op, l, m, hpc, hserial, hreach⟩, hout⟩ := hlocked.held k hholder
    obtain ⟨hperf, hready⟩ := hserial.performs (code_does h) (init_ready n)
    refine ⟨m, hperf, hready, fun hfree => (nomatch hfree), fun j o' op' l' hpc' => ?_⟩
    obtain rfl := Option.some.inj (hholder.symm.trans (hlocked.holder hpc'))
    cases hpc.symm.trans hpc'
    exact ⟨rfl, hreach⟩

/-- A CPU kills the one job and has found it, when another puts back its last
reference. -/
def lastReference : List (Locks.Event Nat Choice) :=
  [.outer 0 (.newJob 0 .running), .lock 0, .inside 0, .outer 1 (.ioctl .kill [] 0 0), .outer 1 .go,
    .inside 0, .inside 0, .lock 1, .inside 1, .outer 2 (.putThread 0), .inside 1]

theorem zone_serial_lastReference : ∃ s m, Runs.run (step .all) (init 1) lastReference = some s ∧
    s.holder = some 1 ∧ s.log = [(.newJob 0 .running, 0)] ∧
    Performs (perform .all) (Yasched.init 1) s.log m ∧ Ready m := by
  obtain ⟨s, hr, hholder, hlog⟩ : ∃ s, Runs.run (step .all) (init 1) lastReference = some s ∧
      s.holder = some 1 ∧ s.log = [(.newJob 0 .running, 0)] := ⟨_, rfl, rfl, rfl⟩
  obtain ⟨m, hperf, hready, -⟩ := zone_serial hr
  exact ⟨s, m, hr, hholder, hlog, hperf, hready⟩

-- ---------------------------------------------------------------------------
-- The objects
-- ---------------------------------------------------------------------------

/-- The job that a party has to delete, and whether it is off the list by now. -/
def deleting : Locks.Pc Outer Section At → Option (Nat × Bool)
  | .outside (.delJob p) => some (p, false)
  | .inside _ (.delJob p) (.listDel _) => some (p, false)
  | .inside _ (.delJob p) _ => some (p, true)
  | .outside (.free p) => some (p, true)
  | _ => none

/-- There is a reference still. -/
def Referenced (s : Sys) (c : Counts) (p : Nat) : Prop := p < s.njobs ∧ 0 < c.aliveProc p

instance (s : Sys) (c : Counts) (p : Nat) : Decidable (Referenced s c p) :=
  inferInstanceAs (Decidable (_ ∧ _))

/-- Nobody takes or puts back a reference where there is none. -/
def Counted (s : Cpus) : Locks.Event Nat Choice → Prop
  | .outer _ (.getThread p) | .outer _ (.putThread p) => Referenced s.shared s.rest p
  | _ => True

instance (s : Cpus) (e : Locks.Event Nat Choice) : Decidable (Counted s e) :=
  match e with
  | .outer _ (.getThread p) | .outer _ (.putThread p) =>
    inferInstanceAs (Decidable (Referenced s.shared s.rest p))
  | .outer _ (.newJob ..) | .outer _ (.ioctl ..) | .outer _ .go | .lock _ | .inside _ =>
    .isTrue trivial

/-- What becomes of an object, with `del k` what party `k` has to delete. While
there are references it is on the list; then it is in the hands of one party
until it is freed. -/
inductive Phase (njobs : Nat) (jobList : List Nat) (c : Counts)
    (del : Nat → Option (Nat × Bool)) (p : Nat) : Prop
  | unborn (hp : njobs ≤ p) (hlist : p ∉ jobList) (hcount : c.aliveProc p = 1)
      (hfreed : c.freed p = 0) (hdel : ∀ k gone, del k ≠ some (p, gone))
  | referenced (hp : p < njobs) (hlist : p ∈ jobList) (hcount : 0 < c.aliveProc p)
      (hfreed : c.freed p = 0) (hdel : ∀ k gone, del k ≠ some (p, gone))
  | dropped (hp : p < njobs) (hk : del k = some (p, gone)) (hlist : p ∈ jobList ↔ gone = false)
      (hcount : c.aliveProc p = 0) (hfreed : c.freed p = 0)
      (hdel : ∀ j gone, del j = some (p, gone) → j = k)
  | freed (hp : p < njobs) (hlist : p ∉ jobList) (hcount : c.aliveProc p = 0)
      (hfreed : c.freed p = 1) (hdel : ∀ k gone, del k ≠ some (p, gone))

section

variable {njobs : Nat} {jobList : List Nat} {c c' : Counts} {del del' : Nat → Option (Nat × Bool)}

theorem Phase.frame (h : Phase njobs jobList c del p) (hp : p < njobs' ↔ p < njobs)
    (hlist : p ∈ jobList' ↔ p ∈ jobList) (hcount : c'.aliveProc p = c.aliveProc p)
    (hfreed : c'.freed p = c.freed p)
    (hdel : ∀ k gone, del' k = some (p, gone) ↔ del k = some (p, gone)) :
    Phase njobs' jobList' c' del' p := by
  have hnone (h : ∀ k gone, del k ≠ some (p, gone)) : ∀ k gone, del' k ≠ some (p, gone) :=
    fun k gone hk => h k gone ((hdel k gone).mp hk)
  cases h with
  | unborn hp' hlist' hcount' hfreed' hdel' =>
    exact .unborn (by omega) (by rwa [hlist]) (by rwa [hcount]) (by rwa [hfreed]) (hnone hdel')
  | referenced hp' hlist' hcount' hfreed' hdel' =>
    exact .referenced (by omega) (by rwa [hlist]) (by rwa [hcount]) (by rwa [hfreed])
      (hnone hdel')
  | dropped hp' hk hlist' hcount' hfreed' hdel' =>
    exact .dropped (by omega) ((hdel _ _).mpr hk) (by rwa [hlist]) (by rwa [hcount])
      (by rwa [hfreed]) fun j gone hj => hdel' j gone ((hdel j gone).mp hj)
  | freed hp' hlist' hcount' hfreed' hdel' =>
    exact .freed (by omega) (by rwa [hlist]) (by rwa [hcount]) (by rwa [hfreed]) (hnone hdel')

theorem Phase.deleter (h : Phase njobs jobList c del p) (hk : del k = some (p, gone)) :
    p < njobs ∧ (p ∈ jobList ↔ gone = false) ∧ c.aliveProc p = 0 ∧ c.freed p = 0 ∧
      ∀ j gone, del j = some (p, gone) → j = k := by
  cases h with
  | unborn _ _ _ _ hdel | referenced _ _ _ _ hdel | freed _ _ _ _ hdel =>
    exact absurd hk (hdel k gone)
  | dropped hp hk' hlist hcount hfreed hdel =>
    obtain rfl := hdel k gone hk
    cases hk.symm.trans hk'
    exact ⟨hp, hlist, hcount, hfreed, hdel⟩

theorem Phase.reference (h : Phase njobs jobList c del p) (hp : p < njobs)
    (hcount : 0 < c.aliveProc p) :
    p ∈ jobList ∧ c.freed p = 0 ∧ ∀ k gone, del k ≠ some (p, gone) := by
  cases h with
  | unborn hp' => omega
  | referenced _ hlist _ hfreed hdel => exact ⟨hlist, hfreed, hdel⟩
  | dropped | freed => omega

theorem del_update (hold : ∀ gone, del k ≠ some (q, gone)) (hnew : ∀ gone, x ≠ some (q, gone))
    (j : Nat) (gone : Bool) :
    Function.update del k x j = some (q, gone) ↔ del j = some (q, gone) := by
  by_cases hjk : j = k
  · subst hjk
    rw [Function.update_self]
    exact iff_of_false (hnew gone) (hold gone)
  · rw [Function.update_of_ne hjk]

/-- All objects, and no object twice on the list. -/
structure Lives (njobs : Nat) (jobList : List Nat) (c : Counts)
    (del : Nat → Option (Nat × Bool)) : Prop where
  nodup : jobList.Nodup
  phase : ∀ p, Phase njobs jobList c del p

theorem Lives.newJob (hl : Lives njobs jobList c del) :
    Lives (njobs + 1) (jobList ++ [njobs]) c del := by
  have hnew : njobs ∉ jobList ∧ c.aliveProc njobs = 1 ∧ c.freed njobs = 0 ∧
      ∀ k gone, del k ≠ some (njobs, gone) := by
    cases hl.phase njobs with
    | unborn _ hlist hcount hfreed hdel => exact ⟨hlist, hcount, hfreed, hdel⟩
    | referenced hp | dropped hp | freed hp => exact absurd hp (Nat.lt_irrefl _)
  obtain ⟨hlist, hcount, hfreed, hdel⟩ := hnew
  constructor
  · refine List.nodup_append.mpr ⟨hl.nodup, List.nodup_singleton _, fun p hp q hq => ?_⟩
    rw [List.mem_singleton.mp hq]
    rintro rfl
    exact hlist hp
  · intro p
    by_cases hp : p = njobs
    · subst hp
      exact .referenced (Nat.lt_succ_self _) (List.mem_append_right _ List.mem_cons_self)
        (by omega) hfreed hdel
    · exact (hl.phase p).frame (by omega) (by simp [hp]) rfl rfl fun _ _ => Iff.rfl

theorem Lives.count (hl : Lives njobs jobList c del) (hp : p < njobs) (hpos : 0 < c.aliveProc p)
    (hv : 0 < v) :
    Lives njobs jobList { c with aliveProc := Function.update c.aliveProc p v } del := by
  refine ⟨hl.nodup, fun q => ?_⟩
  by_cases hqp : q = p
  · subst hqp
    obtain ⟨hlist, hfreed, hdel⟩ := (hl.phase q).reference hp hpos
    exact .referenced hp hlist (by simpa using hv) hfreed hdel
  · exact (hl.phase q).frame Iff.rfl Iff.rfl (Function.update_of_ne hqp _ _) rfl
      fun _ _ => Iff.rfl

theorem Lives.put (hl : Lives njobs jobList c del) (hp : p < njobs) (hpos : 0 < c.aliveProc p)
    (hk : del k = none) :
    Lives njobs jobList { c with aliveProc := Function.update c.aliveProc p 0 }
      (Function.update del k (some (p, false))) := by
  refine ⟨hl.nodup, fun q => ?_⟩
  by_cases hqp : q = p
  · subst hqp
    obtain ⟨hlist, hfreed, hdel⟩ := (hl.phase q).reference hp hpos
    refine .dropped hp (Function.update_self ..) (by simp [hlist]) (Function.update_self ..)
      hfreed ?_
    intro j gone hj
    by_contra hjk
    rw [Function.update_of_ne hjk] at hj
    exact hdel j gone hj
  · refine (hl.phase q).frame Iff.rfl Iff.rfl (Function.update_of_ne hqp _ _) rfl
      (del_update (by simp [hk]) ?_)
    rintro gone ⟨⟩
    exact hqp rfl

theorem Lives.unlink (hl : Lives njobs jobList c del) (hk : del k = some (p, false)) :
    Lives njobs (jobList.erase p) c (Function.update del k (some (p, true))) := by
  obtain ⟨hp, -, hcount, hfreed, hdel⟩ := (hl.phase p).deleter hk
  refine ⟨hl.nodup.erase p, fun q => ?_⟩
  by_cases hqp : q = p
  · subst hqp
    have hoff : q ∉ jobList.erase q := hl.nodup.not_mem_erase
    refine .dropped hp (Function.update_self ..) (by simp [hoff]) hcount hfreed ?_
    intro j gone hj
    by_contra hjk
    rw [Function.update_of_ne hjk] at hj
    exact hjk (hdel j gone hj)
  · refine (hl.phase q).frame Iff.rfl (List.mem_erase_of_ne hqp) rfl rfl (del_update ?_ ?_)
    · rintro gone hq
      cases hk.symm.trans hq
      exact hqp rfl
    · rintro gone ⟨⟩
      exact hqp rfl

theorem Lives.free (hl : Lives njobs jobList c del) (hk : del k = some (p, true)) :
    Lives njobs jobList { c with freed := Function.update c.freed p (c.freed p + 1) }
      (Function.update del k none) := by
  obtain ⟨hp, hlist, hcount, hfreed, hdel⟩ := (hl.phase p).deleter hk
  refine ⟨hl.nodup, fun q => ?_⟩
  by_cases hqp : q = p
  · subst hqp
    refine .freed hp (by simp [hlist]) hcount (by simp [hfreed]) ?_
    intro j gone hj
    have hjk : j ≠ k := by
      rintro rfl
      simp at hj
    rw [Function.update_of_ne hjk] at hj
    exact hjk (hdel j gone hj)
  · refine (hl.phase q).frame Iff.rfl Iff.rfl rfl (Function.update_of_ne hqp _ _)
      (del_update ?_ (by simp))
    rintro gone hq
    cases hk.symm.trans hq
    exact hqp rfl

end

/-- The object that the next access under the lock is to. -/
def At.job : At → Option Nat
  | .listDel p | .visit _ _ _ p | .readState _ _ p | .writeState _ p _ => some p
  | _ => none

def Section.Has (op : Section) : At → Prop
  | .incJid .. | .listAddTail .. => ∃ t junk, op = .newJob t junk
  | .listDel p => op = .delJob p
  | .first .. | .visit .. | .readState .. | .writeState .. | .wakeUp _ =>
    ∃ jop keep jid, op = .control jop keep jid
  | .unlock _ => True

def Outer.Admitted : Outer → Prop
  | .admitted .. | .leave _ => True
  | _ => False

def outerOf : Locks.Pc Outer Section At → Outer
  | .outside o | .inside o _ _ => o

/-- Where the parties can be. -/
structure Placed (s : Cpus) : Prop where
  inside : ∀ k o op l, s.pc k = .inside o op l → wants o = some op ∧ op.Has l
  mutex : ∀ k, s.rest.mutex = some k ↔ (outerOf (s.pc k)).Admitted

structure Safe (s : Cpus) : Prop where
  lives : Lives s.shared.njobs s.shared.jobList s.rest fun k => deleting (s.pc k)
  job : ∀ k o op l p, s.pc k = .inside o op l → l.job = some p → p ∈ s.shared.jobList

-- ---------------------------------------------------------------------------
-- Steps outside
-- ---------------------------------------------------------------------------

inductive OuterStep (k : Nat) (s : Sys) (c : Counts) : Choice → Outer → Outer → Counts → Prop
  | newJob : OuterStep k s c (.newJob t junk) .idle (.initJob t junk) c
  | ioctl : OuterStep k s c (.ioctl op keep zid jid) .idle (.ioctl op keep zid jid) c
  | getThread : OuterStep k s c (.getThread p) .idle .idle
      { c with aliveProc := Function.update c.aliveProc p (c.aliveProc p + 1) }
  | putThread : c.aliveProc p - 1 ≠ 0 → OuterStep k s c (.putThread p) .idle .idle
      { c with aliveProc := Function.update c.aliveProc p (c.aliveProc p - 1) }
  | last : c.aliveProc p - 1 = 0 → OuterStep k s c (.putThread p) .idle (.delJob p)
      { c with aliveProc := Function.update c.aliveProc p 0 }
  | enter : c.mutex = none → OuterStep k s c .go (.ioctl op keep zid jid)
      (.admitted op keep zid jid) { c with mutex := some k }
  | refuse : OuterStep k s c .go (.admitted op keep zid jid) (.leave ret) c
  | leave : OuterStep k s c .go (.leave ret) .idle { c with mutex := none }
  | free : OuterStep k s c .go (.free p) (.message p)
      { c with freed := Function.update c.freed p (c.freed p + 1) }
  | message : OuterStep k s c .go (.message p) .oops c

theorem deleting_update (pc : Nat → Locks.Pc Outer Section At) (k : Nat)
    (x : Locks.Pc Outer Section At) : (fun j => deleting (Function.update pc k x j)) =
      Function.update (fun j => deleting (pc j)) k (deleting x) := by
  funext j
  by_cases hj : j = k
  · subst hj
    rw [Function.update_self, Function.update_self]
  · rw [Function.update_of_ne hj, Function.update_of_ne hj]

theorem deleting_same {pc : Nat → Locks.Pc Outer Section At} (hx : deleting x = deleting (pc k)) :
    (fun j => deleting (Function.update pc k x j)) = fun j => deleting (pc j) := by
  rw [deleting_update, hx, Function.update_eq_self k (fun j => deleting (pc j))]

section

variable {h : Hooks} {s s' : Cpus}

theorem OuterStep.lives
    (hl : Lives s.shared.njobs s.shared.jobList s.rest fun j => deleting (s.pc j))
    (hpc : s.pc k = .outside o) (href : Counted s (.outer k choice))
    (hs : OuterStep k s.shared s.rest choice o o' c) :
    Lives s.shared.njobs s.shared.jobList c
      fun j => deleting (Function.update s.pc k (.outside o') j) := by
  have hk : deleting (s.pc k) = deleting (.outside o) := by rw [hpc]
  cases hs with
  | newJob | ioctl | refuse | message =>
    rw [deleting_same (by rw [hk]; rfl)]
    exact hl
  | enter | leave =>
    rw [deleting_same (by rw [hk]; rfl)]
    exact ⟨hl.nodup, fun p => (hl.phase p).frame Iff.rfl Iff.rfl rfl rfl fun _ _ => Iff.rfl⟩
  | getThread =>
    rw [deleting_same (by rw [hk])]
    exact hl.count href.1 href.2 (Int.add_pos_of_pos_of_nonneg href.2 (by decide))
  | putThread hne =>
    have hpos := href.2
    rw [deleting_same (by rw [hk])]
    exact hl.count href.1 href.2 (by omega)
  | last =>
    rw [deleting_update]
    exact hl.put href.1 href.2 hk
  | free =>
    rw [deleting_update]
    exact hl.free hk

theorem OuterStep.mutex (hm : ∀ j, s.rest.mutex = some j ↔ (outerOf (s.pc j)).Admitted)
    (hpc : s.pc k = .outside o) (hs : OuterStep k s.shared s.rest choice o o' c) (j : Nat) :
    c.mutex = some j ↔ (outerOf (Function.update s.pc k (.outside o') j)).Admitted := by
  have hk := hm k
  rw [hpc] at hk
  by_cases hj : j = k
  · subst hj
    rw [Function.update_self]
    cases hs with
    | enter => exact iff_of_true rfl trivial
    | leave => exact iff_of_false nofun id
    | _ => exact hk
  · rw [Function.update_of_ne hj, ← hm j]
    cases hs with
    | enter hfree => simp [hfree, Ne.symm hj]
    | leave =>
      have hheld : s.rest.mutex = some k := hk.mpr trivial
      simp [hheld, Ne.symm hj]
    | _ => exact Iff.rfl

theorem inside_of_update (hj : Function.update s.pc k (.outside o') j = .inside oj op l) :
    s.pc j = .inside oj op l := by
  by_cases hjk : j = k
  · subst hjk
    rw [Function.update_self] at hj
    cases hj
  · rwa [Function.update_of_ne hjk] at hj

theorem Placed.outer (hp : Placed s) (hpc : s.pc k = .outside o)
    (hs : OuterStep k s.shared s.rest choice o o' c) :
    Placed { s with rest := c, pc := Function.update s.pc k (.outside o') } :=
  ⟨fun j oj op l hj => hp.inside j oj op l (inside_of_update hj), hs.mutex hp.mutex hpc⟩

theorem Safe.outer (hsafe : Safe s) (hpc : s.pc k = .outside o)
    (href : Counted s (.outer k choice)) (hs : OuterStep k s.shared s.rest choice o o' c) :
    Safe { s with rest := c, pc := Function.update s.pc k (.outside o') } :=
  ⟨hs.lives hsafe.lives hpc href, fun j oj op l p hj => hsafe.job j oj op l p (inside_of_update hj)⟩

-- ---------------------------------------------------------------------------
-- Steps under the lock
-- ---------------------------------------------------------------------------

theorem nextJob_mem (hq : nextJob jobList p = some q) : q ∈ jobList := by
  unfold nextJob at hq
  split at hq
  next p' q' rest hdrop =>
    obtain rfl := Option.some.inj hq
    have hmem : q' ∈ jobList.dropWhile (· ≠ p) := by
      rw [hdrop]
      exact List.mem_cons_of_mem _ List.mem_cons_self
    exact (List.dropWhile_sublist _).subset hmem
  next => cases hq

theorem walk_job (hp : (walk op keep jid o).job = some p) : o = some p := by
  cases o <;> cases hp
  rfl

theorem exec_control {s s' : Sys} (hhas : (Section.control jop keep jid).Has l)
    (hjob : ∀ p, l.job = some p → p ∈ s.jobList) (hexec : exec h l s = .inr (l', s')) :
    s'.njobs = s.njobs ∧ s'.jobList = s.jobList ∧ ∀ p, l'.job = some p → p ∈ s.jobList := by
  cases l with
  | incJid | listAddTail =>
    obtain ⟨t, junk, hop⟩ := hhas
    cases hop
  | listDel => cases hhas
  | unlock => cases hexec
  | first op keep jid =>
    cases hexec
    exact ⟨rfl, rfl, fun p hp => List.mem_of_mem_head? (walk_job hp)⟩
  | visit op keep jid p =>
    cases hexec
    split
    case isTrue =>
      refine ⟨rfl, rfl, fun q hq => ?_⟩
      have hpq : q = p := by cases op <;> exact (Option.some.inj hq).symm
      exact hpq ▸ hjob p rfl
    case isFalse => exact ⟨rfl, rfl, fun q hq => nextJob_mem (walk_job hq)⟩
  | readState op keep p =>
    cases hexec
    split
    case isTrue => exact ⟨rfl, rfl, nofun⟩
    case isFalse => exact ⟨rfl, rfl, hjob⟩
  | writeState keep p write =>
    cases hexec
    split
    case isTrue => exact ⟨rfl, rfl, nofun⟩
    case isFalse => exact ⟨rfl, rfl, nofun⟩
  | wakeUp keep =>
    cases hexec
    exact ⟨wakeUp_njobs, wakeUp_jobList, nofun⟩

theorem mutex_update (hm : ∀ j, s.rest.mutex = some j ↔ (outerOf (s.pc j)).Admitted)
    (hx : (outerOf x).Admitted ↔ (outerOf (s.pc k)).Admitted) (j : Nat) :
    s.rest.mutex = some j ↔ (outerOf (Function.update s.pc k x j)).Admitted := by
  by_cases hj : j = k
  · subst hj
    rw [Function.update_self, hx]
    exact hm j
  · rw [Function.update_of_ne hj]
    exact hm j

theorem inside_update {pc : Nat → Locks.Pc Outer Section At}
    (hj : Function.update pc k (.inside o op l) j = .inside oj opj lj) :
    j = k ∧ o = oj ∧ op = opj ∧ l = lj ∨ j ≠ k ∧ pc j = .inside oj opj lj := by
  by_cases hjk : j = k
  · subst hjk
    rw [Function.update_self] at hj
    cases hj
    exact .inl ⟨rfl, rfl, rfl, rfl⟩
  · rw [Function.update_of_ne hjk] at hj
    exact .inr ⟨hjk, hj⟩

theorem Placed.goOn (hp : Placed s) (ho : outerOf (s.pc k) = o) (hwants : wants o = some op)
    (hhas : op.Has l') :
    Placed { s with shared, pc := Function.update s.pc k (.inside o op l'), holder } := by
  refine ⟨fun j oj opj lj hj => ?_, mutex_update hp.mutex (by rw [ho]; rfl)⟩
  rcases inside_update hj with ⟨rfl, rfl, rfl, rfl⟩ | ⟨-, hj⟩
  · exact ⟨hwants, hhas⟩
  · exact hp.inside j oj opj lj hj

theorem Placed.lock (hp : Placed s) (hpc : s.pc k = .outside o) (hwants : wants o = some op) :
    Placed { s with pc := Function.update s.pc k (.inside o op (start op)), holder := some k } := by
  refine hp.goOn (by rw [hpc]; rfl) hwants ?_
  cases op with
  | newJob t junk => exact ⟨t, junk, rfl⟩
  | delJob p => rfl
  | control jop keep jid => exact ⟨jop, keep, jid, rfl⟩

theorem wants_cases (hwants : wants o = some op) :
    (∃ t junk, o = .initJob t junk ∧ op = .newJob t junk) ∨
    (∃ p, o = .delJob p ∧ op = .delJob p) ∨
    ∃ jop keep zid jid, o = .admitted jop keep zid jid ∧ op = .control jop keep jid := by
  cases o <;> simp only [wants, reduceCtorEq, Option.map_eq_some_iff] at hwants
  case initJob t junk => exact .inl ⟨t, junk, rfl, (Option.some.inj hwants).symm⟩
  case delJob p => exact .inr (.inl ⟨p, rfl, (Option.some.inj hwants).symm⟩)
  case admitted jop keep zid jid =>
    obtain ⟨-, -, rfl⟩ := hwants
    exact .inr (.inr ⟨jop, keep, zid, jid, rfl, rfl⟩)

theorem Placed.unlock (hp : Placed s) (hpc : s.pc k = .inside o op l) :
    Placed { s with pc := Function.update s.pc k (.outside (back o r)), holder, log } := by
  have hadm : (outerOf (.outside (back o r))).Admitted ↔ (outerOf (s.pc k)).Admitted := by
    rw [hpc]
    rcases wants_cases (hp.inside k o op l hpc).1 with ⟨_, _, rfl, rfl⟩ | ⟨_, rfl, rfl⟩ |
      ⟨_, _, _, _, rfl, rfl⟩
    · exact Iff.rfl
    · exact Iff.rfl
    · exact iff_of_true trivial trivial
  exact ⟨fun j oj opj lj hj => hp.inside j oj opj lj (inside_of_update hj),
    mutex_update hp.mutex hadm⟩

theorem Safe.goOn (hout : ∀ j ≠ k, ∃ o, s.pc j = .outside o)
    (hjob : ∀ p, l'.job = some p → p ∈ shared.jobList)
    (hlives : Lives shared.njobs shared.jobList s.rest
      fun j => deleting (Function.update s.pc k (.inside o op l') j)) :
    Safe { s with shared, pc := Function.update s.pc k (.inside o op l'), holder } := by
  refine ⟨hlives, fun j oj opj lj p hj hp => ?_⟩
  rcases inside_update hj with ⟨rfl, rfl, rfl, rfl⟩ | ⟨hjk, hj⟩
  · exact hjob p hp
  · obtain ⟨o', ho'⟩ := hout j hjk
    cases hj.symm.trans ho'

theorem Safe.lock (hsafe : Safe s) (hpc : s.pc k = .outside o) (hwants : wants o = some op)
    (hout : ∀ j ≠ k, ∃ o, s.pc j = .outside o) :
    Safe { s with pc := Function.update s.pc k (.inside o op (start op)), holder := some k } := by
  have hdel : deleting (.inside o op (start op)) = deleting (s.pc k) := by
    rw [hpc]
    rcases wants_cases hwants with ⟨_, _, rfl, rfl⟩ | ⟨_, rfl, rfl⟩ | ⟨_, _, _, _, rfl, rfl⟩ <;> rfl
  refine .goOn hout ?_ ?_
  · intro p hp
    cases op <;> cases hp
    have hk : deleting (s.pc k) = some (p, false) := hdel.symm
    exact (((hsafe.lives.phase p).deleter hk).2.1).mpr rfl
  · rw [deleting_same hdel]
    exact hsafe.lives

theorem Safe.unlock (hsafe : Safe s) (hpc : s.pc k = .inside o op (.unlock r))
    (hwants : wants o = some op) (hout : ∀ j ≠ k, ∃ o, s.pc j = .outside o) :
    Safe { s with pc := Function.update s.pc k (.outside (back o r)), holder, log } := by
  have hdel : deleting (.outside (back o r)) = deleting (s.pc k) := by
    rw [hpc]
    rcases wants_cases hwants with ⟨_, _, rfl, rfl⟩ | ⟨_, rfl, rfl⟩ | ⟨_, _, _, _, rfl, rfl⟩ <;> rfl
  have hnone {j : Nat} {oj opj lj} :
      Function.update s.pc k (.outside (back o r)) j ≠ .inside oj opj lj := by
    obtain ⟨o', ho'⟩ := outside_update hout (back o r) j
    rw [ho']
    exact nofun
  refine ⟨?_, fun j oj opj lj p hj => absurd hj hnone⟩
  simp only [deleting_same hdel]
  exact hsafe.lives

theorem Safe.exec (hsafe : Safe s) (hpc : s.pc k = .inside o op l) (hhas : op.Has l)
    (hout : ∀ j ≠ k, ∃ o, s.pc j = .outside o) (hexec : exec h l s.shared = .inr (l', shared)) :
    Safe { s with shared, pc := Function.update s.pc k (.inside o op l') } := by
  have hlives := hsafe.lives
  have hgo := @Safe.goOn s k o op l' shared s.holder hout
  cases op with
  | newJob t junk =>
    -- nothing of a creation is a deletion
    have hnone (l : At) : deleting (.inside o (.newJob t junk) l) = deleting (s.pc k) := by
      rw [hpc]
      rfl
    cases l with
    | incJid =>
      cases hexec
      refine hgo nofun ?_
      rw [deleting_same (hnone _)]
      exact hlives
    | listAddTail =>
      cases hexec
      refine hgo nofun ?_
      rw [deleting_same (hnone _)]
      exact hlives.newJob
    | unlock => cases hexec
    | listDel => cases hhas
    | _ =>
      obtain ⟨jop, keep, jid, hop⟩ := hhas
      cases hop
  | delJob p =>
    cases l with
    | listDel q =>
      cases hhas
      cases hexec
      refine hgo nofun ?_
      rw [deleting_update]
      refine hlives.unlink ?_
      rw [hpc]
      rfl
    | unlock => cases hexec
    | incJid | listAddTail =>
      obtain ⟨t, junk, hop⟩ := hhas
      cases hop
    | _ =>
      obtain ⟨jop, keep, jid, hop⟩ := hhas
      cases hop
  | control jop keep jid =>
    obtain ⟨hnjobs, hlist, hjob⟩ :=
      exec_control hhas (fun p hp => hsafe.job k o _ l p hpc hp) hexec
    refine hgo (by rwa [hlist]) ?_
    rw [deleting_same (by rw [hpc]; rfl), hnjobs, hlist]
    exact hlives

/-- A step of a call that is under way. -/
def Advances (e : Locks.Event Nat Choice) : Prop :=
  ∃ k, e = .outer k .go ∨ e = .lock k ∨ e = .inside k

/-- Steps of calls that are under way lead to `s'`. -/
def Leads (h : Hooks) (s s' : Cpus) : Prop :=
  ∃ es, (∀ e ∈ es, Advances e) ∧ Runs.run (step h) s es = some s'

theorem Leads.refl (s : Cpus) : Leads h s s := ⟨[], fun _ he => absurd he List.not_mem_nil, rfl⟩

theorem Leads.trans (h₁ : Leads h s m) (h₂ : Leads h m s') : Leads h s s' := by
  obtain ⟨es₁, hadv₁, hr₁⟩ := h₁
  obtain ⟨es₂, hadv₂, hr₂⟩ := h₂
  refine ⟨es₁ ++ es₂, fun e he => ?_, Runs.run_append.mpr ⟨m, hr₁, hr₂⟩⟩
  exact (List.mem_append.mp he).elim (hadv₁ e) (hadv₂ e)

theorem Leads.once (hadv : Advances e) (hs : step h s e = some s') : Leads h s s' :=
  ⟨[e], by simpa using hadv, Runs.run_cons.mpr ⟨s', hs, rfl⟩⟩

/-- The party goes from `o` to `o'`, which leaves the others where they are and
the lock free. -/
def Passes (h : Hooks) (s : Cpus) (k : Nat) (o' : Outer) (s' : Cpus) : Prop :=
  Leads h s s' ∧ s'.holder = none ∧ s'.pc = Function.update s.pc k (.outside o')

theorem Passes.trans (h₁ : Passes h s k o₁ m) (h₂ : Passes h m k o₂ s') : Passes h s k o₂ s' := by
  obtain ⟨hl₁, -, hpc₁⟩ := h₁
  obtain ⟨hl₂, hfree, hpc₂⟩ := h₂
  rw [hpc₁, Function.update_idem] at hpc₂
  exact ⟨hl₁.trans hl₂, hfree, hpc₂⟩

theorem Passes.pc (hp : Passes h s k o' s') : s'.pc k = .outside o' := by
  rw [hp.2.2, Function.update_self]

end

end Yasched.ZoneLock
