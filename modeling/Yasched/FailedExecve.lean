import Yasched.Deletion
import Yasched.Grammar

/-!
# An execve that fails

`execve_agent` creates the job before it asks the kernel to execute anything,
and looks at no result. So a failed execve changes nothing where there was no
job to create, and otherwise leaves the caller in a job of its own.
-/

namespace Yasched.Objects

open Cells

/-- The zone's list, the allocated objects and the membership of task `t`. -/
structure Unchanged (t : Nat) (s s' : Store) : Prop where
  jobList : s'.jobList = s.jobList
  jobs : ∀ a, s'.jobs a = none ↔ s.jobs a = none
  threads : ∀ b, s'.threads b = none ↔ s.threads b = none
  job : (s'.tasks t).job = (s.tasks t).job

/-- A call of `execve_agent`, with what other calls have left in `envbuf`. The
environment has no more strings than an `int` can count. -/
structure Call where
  envbuf : Nat → UInt8
  envp : List UserStr
  counted : envp.length < 0x80000000
  job : Alloc
  thread : Alloc
  dirFails : Bool
  fileFails : Bool

/-- `ok` is what `do_execve` comes to. -/
def Call.events (t : Nat) (ok : Bool) (call : Call) : List Event :=
  [.execve t (scan call.envbuf call.envp) call.job call.thread call.dirFails call.fileFails,
    .execveReturn t ok]

/-- The readable strings at the beginning of the environment are taken for a
request for the zone, and the job can be had. -/
def Call.Asks (call : Call) : Prop :=
  (∃ (envs : List (List UInt8)) (rest : List UserStr), call.envp = envs.map .str ++ rest ∧
    TakesZone call.envbuf envs) ∧ call.job ≠ none ∧ call.thread ≠ none

theorem Call.asks_iff (call : Call) : call.Asks ↔
    scan call.envbuf call.envp ≠ none ∧ call.job ≠ none ∧ call.thread ≠ none :=
  and_congr_left' scan_ne_none_iff.symm

instance (call : Call) : Decidable call.Asks := decidable_of_iff _ call.asks_iff.symm

/-- Task `t` comes to be in a new job, which is the last on the zone's list. -/
structure Joins (t : Nat) (s s' : Store) (a : Nat) : Prop where
  free : s.jobs a = none
  allocated : s'.jobs a ≠ none
  jobList : s'.jobList = s.jobList ++ [a]
  job : (s'.tasks t).job = some a

theorem call_cases {call : Call} (hr : Runs.run (step size) s (call.events t ok) = some s') :
    Unchanged t s s' ∧ ¬((s.tasks t).job = none ∧ call.Asks) ∨
      ((s.tasks t).job = none ∧ call.Asks) ∧ ∃ a, Joins t s s' a := by
  rw [call.asks_iff]
  obtain ⟨envbuf, envp, counted, o, o', dirFails, fileFails⟩ := call
  obtain ⟨m, hm, hr⟩ := Runs.run_cons.mp hr
  obtain ⟨s'', hs, hr⟩ := Runs.run_cons.mp hr
  cases hr
  have hexecve : StepEffect size s (.execve t (scan envbuf envp) o o' dirFails fileFails) m := by
    simp only [step] at hm
    split at hm
    · rename_i hg
      cases hm
      exact execve_effect hg.1 hg.2.1 hg.2.2
    · cases hm
  have hreturn (tsi : Option Nat) (h : (m.tasks t).life = .execing tsi) :
      s' = m.setTask t (m.returned t tsi ok) := by
    simp only [step, h] at hs
    cases hs
    rfl
  cases hexecve with
  | execve hl hno =>
    obtain rfl := hreturn (s.tasks t).job (by simp)
    refine .inl ⟨⟨rfl, fun _ => Iff.rfl, fun _ => Iff.rfl, ?_⟩, hno⟩
    cases ok <;> simp [Store.returned]
  | @newJob _ a b _ dir entry _ _ hl hj ha ha0 hb hb0 hz =>
    obtain rfl := hreturn (some a) (by simp)
    obtain ⟨dir', entry', hjobs, -⟩ := s.newJob_objects size t a b dir entry dirFails fileFails
    refine .inr ⟨⟨hj, hz, by simp, by simp⟩, a, ha, ?_, rfl, ?_⟩
    · simp [hjobs]
    · cases ok <;> simp [Store.returned]

theorem Unchanged.trans (h : Unchanged t s m) (h' : Unchanged t m s') : Unchanged t s s' where
  jobList := h'.jobList.trans h.jobList
  jobs a := (h'.jobs a).trans (h.jobs a)
  threads b := (h'.threads b).trans (h.threads b)
  job := h'.job.trans h.job

theorem Unchanged.joins (h : Unchanged t s m) (h' : Joins t m s' a) : Joins t s s' a where
  free := (h.jobs a).mp h'.free
  allocated := h'.allocated
  jobList := h.jobList ▸ h'.jobList
  job := h'.job

theorem Joins.unchanged (h : Joins t s m a) (h' : Unchanged t m s') : Joins t s s' a where
  free := h.free
  allocated hfreed := h.allocated ((h'.jobs a).mp hfreed)
  jobList := h'.jobList.trans h.jobList
  job := h'.job.trans h.job

/-- The first call that can have both objects creates the job, and the later
ones find the task in it. -/
theorem calls_cases {calls : List (Call × Bool)}
    (hr : Runs.run (step size) s (calls.flatMap fun x => x.1.events t x.2) = some s') :
    Unchanged t s s' ∧ ¬((s.tasks t).job = none ∧ ∃ x ∈ calls, x.1.Asks) ∨
      ((s.tasks t).job = none ∧ ∃ x ∈ calls, x.1.Asks) ∧ ∃ a, Joins t s s' a := by
  induction calls generalizing s with
  | nil =>
    cases hr
    exact .inl ⟨⟨rfl, fun _ => Iff.rfl, fun _ => Iff.rfl, rfl⟩, by simp⟩
  | cons x calls ih =>
    obtain ⟨m, hm, hr⟩ := Runs.run_append.mp hr
    rcases call_cases hm with ⟨hun, hno⟩ | ⟨⟨hnone, hasks⟩, a, hjoins⟩
    · rcases ih hr with ⟨hun', hno'⟩ | ⟨⟨hnone, y, hy, hasks⟩, a, hjoins⟩
      · refine .inl ⟨hun.trans hun', ?_⟩
        rintro ⟨hnone, y, hy, hasks⟩
        rcases List.mem_cons.mp hy with rfl | hy
        · exact hno ⟨hnone, hasks⟩
        · exact hno' ⟨hun.job.trans hnone, y, hy, hasks⟩
      · refine .inr ⟨⟨hun.job.symm.trans hnone, y, List.mem_cons_of_mem x hy, hasks⟩, a, ?_⟩
        exact hun.joins hjoins
    · refine .inr ⟨⟨hnone, x, List.mem_cons_self, hasks⟩, a, ?_⟩
      rcases ih hr with ⟨hun, -⟩ | ⟨⟨hout, -⟩, -⟩
      · exact hjoins.unchanged hun
      · cases hout.symm.trans hjoins.job

theorem failed_calls_iff {calls : List Call}
    (hr : Runs.run (step size) s (calls.flatMap (Call.events t false)) = some s')
    (hout : (s.tasks t).job = none) :
    (s'.tasks t).job = none ↔ ∀ call ∈ calls, ¬call.Asks := by
  have hmap : calls.flatMap (Call.events t false) =
      (calls.map fun call => (call, false)).flatMap fun x => x.1.events t x.2 := by
    rw [List.flatMap_map]
  rw [hmap] at hr
  rcases calls_cases hr with ⟨hun, hno⟩ | ⟨⟨-, hasks⟩, a, hjoins⟩
  · refine iff_of_true (hun.job.trans hout) fun call hcall hasks => hno ⟨hout, ?_⟩
    exact ⟨(call, false), List.mem_map_of_mem hcall, hasks⟩
  · refine iff_of_false (by simp [hjoins.job]) fun h => ?_
    obtain ⟨x, hx, hasks⟩ := hasks
    obtain ⟨call, hcall, rfl⟩ := List.mem_map.mp hx
    exact h call hcall hasks

/-- Failed calls change nothing exactly when there is no job to create; a task
outside any job stays outside exactly when none of them asks for one. -/
theorem failed_execve_iff (size t : Nat) (s : Store) :
    (∀ (call : Call) s', Runs.run (step size) s (call.events t false) = some s' →
      (Unchanged t s s' ↔ ¬((s.tasks t).job = none ∧ call.Asks))) ∧
    ∀ (calls : List Call) s',
      Runs.run (step size) s (calls.flatMap (Call.events t false)) = some s' →
      (s.tasks t).job = none → ((s'.tasks t).job = none ↔ ∀ call ∈ calls, ¬call.Asks) := by
  refine ⟨fun call s' hr => ?_, fun calls s' hr hout => failed_calls_iff hr hout⟩
  rcases call_cases hr with ⟨hun, hno⟩ | ⟨hcreates, a, hjoins⟩
  · exact iff_of_true hun hno
  · have hnew : ¬Unchanged t s s' := fun hun => hjoins.allocated ((hun.jobs a).mpr hjoins.free)
    exact iff_of_false hnew (not_not_intro hcreates)

def sampleCall : Call :=
  { envbuf := fun _ => 0, envp := [.str (yaZoneStr ++ [0x3d] ++ zoneIdStr ++ [0x30])]
    counted := by decide
    job := some (0x1000, unwritten), thread := some (0x2000, unwritten)
    dirFails := false, fileFails := false }

theorem failed_execve_iff_asks : ∃ s',
    Runs.run (step 64) (sampleInit 1) (sampleCall.events 0 false) = some s' ∧
      ¬Unchanged 0 (sampleInit 1) s' := by
  obtain ⟨s', hs⟩ : ∃ s', Runs.run (step 64) (sampleInit 1) (sampleCall.events 0 false) = some s' :=
    ⟨_, rfl⟩
  have hasks : ((sampleInit 1).tasks 0).job = none ∧ sampleCall.Asks := ⟨rfl, by decide⟩
  refine ⟨s', hs, fun hun => ?_⟩
  exact ((failed_execve_iff 64 0 (sampleInit 1)).1 sampleCall s' hs).mp hun hasks

theorem failed_execve_fails : ¬ ∀ size t s (call : Call) s',
    Runs.run (step size) s (call.events t false) = some s' → Unchanged t s s' := by
  intro h
  obtain ⟨s', hs, hlist⟩ : ∃ s',
      Runs.run (step 64) (sampleInit 1) (sampleCall.events 0 false) = some s' ∧
        s'.jobList = [0x1000] := ⟨_, rfl, rfl⟩
  have hun : s'.jobList = (sampleInit 1).jobList := (h 64 0 (sampleInit 1) sampleCall s' hs).jobList
  rw [hlist] at hun
  exact absurd hun (by decide)

end Yasched.Objects
