import Yasched.FailedExecve
import Yasched.UserArgs

/-!
# Submitting a job

`yasub` sets `YA_SCHED_ZONE_ID` in its own environment and executes the program
that its arguments name. `execvp` tries the directories of `PATH` one after
another, and every try goes through the hook. The scan stops at the first string
that it takes for a request, and what `setenv` writes is one; a string before it
may be taken in its place.
-/

namespace Yasched

open Bytes Vectors

/-- `YA_SCHED_ZONE_ID` -/
def zoneIdVar : List UInt8 := yaZoneStr ++ [0x5f] ++ zoneIdStr.dropLast

def Assigns (name str : List UInt8) : Bool :=
  str.take name.length = name ∧ str[name.length]? = some 0x3d

def assignment (name value : List UInt8) : List UInt8 := name ++ 0x3d :: value

/-- `setenv` of the C library, when it is to overwrite: the first string that
assigns to the variable makes room for the new one. -/
def setenv (name value : List UInt8) : List (List UInt8) → List (List UInt8)
  | [] => [assignment name value]
  | str :: environ =>
    if Assigns name str then assignment name value :: environ
    else str :: setenv name value environ

/-- The environment that `main` of `yasub` passes on. -/
def submitted (environ : List (List UInt8)) : List (List UInt8) := setenv zoneIdVar [0x30] environ

/-- What the scan sees before the string that `yasub` sets. -/
def inFront (environ : List (List UInt8)) : List (List UInt8) :=
  environ.takeWhile fun str => !Assigns zoneIdVar str

theorem setenv_eq (name value : List UInt8) (environ : List (List UInt8)) :
    ∃ rest, setenv name value environ =
      environ.takeWhile (fun str => !Assigns name str) ++ assignment name value :: rest := by
  induction environ with
  | nil => exact ⟨[], rfl⟩
  | cons str environ ih =>
    unfold setenv
    cases ha : Assigns name str with
    | true => exact ⟨environ, by simp [ha]⟩
    | false =>
      obtain ⟨rest, hrest⟩ := ih
      exact ⟨rest, by simp [ha, hrest]⟩

theorem takenRequest_own (envbuf : Nat → UInt8) (rest : List (List UInt8)) :
    takenRequest envbuf (assignment zoneIdVar [0x30] :: rest) = some [0x30] := by
  have hspelled : Spelled (assignment zoneIdVar [0x30]) := by decide
  rw [takenRequest, if_pos (.inl hspelled), nameIn, if_pos hspelled]
  decide

theorem takenRequest_submitted (envbuf : Nat → UInt8) (environ : List (List UInt8)) :
    takenRequest envbuf (submitted environ) =
      some ((takenRequest envbuf (inFront environ)).getD [0x30]) := by
  obtain ⟨rest, hrest⟩ := setenv_eq zoneIdVar [0x30] environ
  have hsplit : submitted environ = inFront environ ++ assignment zoneIdVar [0x30] :: rest := hrest
  rw [hsplit, takenRequest_append, takenRequest_own]
  cases takenRequest envbuf (inFront environ) <;> rfl

/-- The scan finds zone 0, unless a string in front of the one that `yasub` sets
is taken for a request and names another zone. -/
theorem scan_submitted (envbuf : Nat → UInt8) (environ : List (List UInt8)) :
    scan envbuf ((submitted environ).map .str) = some .yaSchedZone ↔
      ∀ name, takenRequest envbuf (inFront environ) = some name →
        0x100000000 ∣ digitsValue (leadingDigits name) := by
  rw [scan_takenRequest, takenRequest_submitted, Option.bind_some, searchZoneByName_iff]
  cases takenRequest envbuf (inFront environ) with
  | none =>
    refine iff_of_true ?_ (by simp)
    decide
  | some name => simp

theorem yasub_zone {m : UserMemory} {ptr : Nat} {environ : List (List UInt8)}
    (h : m.HasVector 8 ptr (submitted environ)) (hs : ∀ str ∈ submitted environ, (0 : UInt8) ∉ str)
    (envbuf : Nat → UInt8) :
    scanUser m ⟨false, ptr⟩ envbuf 0 = some .yaSchedZone ↔
      ∀ name, takenRequest envbuf (inFront environ) = some name →
        0x100000000 ∣ digitsValue (leadingDigits name) := by
  have hscan : scanUser m ⟨false, ptr⟩ envbuf 0 =
      scan envbuf ((submitted environ).map .str) := scanUser_vector h hs
  rw [hscan, scan_submitted]

def sampleEnviron : List (List UInt8) := [[0x48, 0x4f, 0x4d, 0x45, 0x3d, 0x2f]]

theorem yasub_zone_home : ∃ m : UserMemory,
    scanUser m ⟨false, 0x1000⟩ (fun _ => 0) 0 = some .yaSchedZone := by
  have hfit : 0x1000 + (layout 8 0x1000 (submitted sampleEnviron)).length ≤ taskSizeMax := by decide
  have hvector : (callerMemory 0x1000 (layout 8 0x1000 (submitted sampleEnviron)) hfit).HasVector 8
      0x1000 (submitted sampleEnviron) :=
    Memory.hasVector_layout (Memory.lies_place _ _) (by decide) (hfit.trans (by decide))
  have hnone : takenRequest (fun _ => 0) (inFront sampleEnviron) = none := by decide
  refine ⟨_, (yasub_zone hvector (by decide) _).mpr fun name hname => ?_⟩
  cases hnone.symm.trans hname

-- ---------------------------------------------------------------------------
-- The tries of execvp
-- ---------------------------------------------------------------------------

namespace Objects

/-- A submission from outside any job creates one job or none, however many
directories are tried before the program is found, or without its being found at
all. -/
theorem yasub_one_job {environ : List (List UInt8)} {tries : List (Call × Bool)} {s s' : Store}
    (henvp : ∀ x ∈ tries, x.1.envp = (submitted environ).map .str)
    (hout : (s.tasks t).job = none)
    (hr : Runs.run (step size) s (tries.flatMap fun x => x.1.events t x.2) = some s') :
    ((∃ a, Joins t s s' a) ↔ ∃ x ∈ tries, x.1.job ≠ none ∧ x.1.thread ≠ none ∧
      ∀ name, takenRequest x.1.envbuf (inFront environ) = some name →
        0x100000000 ∣ digitsValue (leadingDigits name)) ∧
      ((∃ a, Joins t s s' a) ∨ Unchanged t s s') := by
  have hasks : ∀ x ∈ tries, x.1.Asks ↔ x.1.job ≠ none ∧ x.1.thread ≠ none ∧
      ∀ name, takenRequest x.1.envbuf (inFront environ) = some name →
        0x100000000 ∣ digitsValue (leadingDigits name) := by
    intro x hx
    rw [x.1.asks_iff, henvp x hx, ← scan_submitted, Option.ne_none_iff_exists']
    refine ⟨fun h => ⟨h.2.1, h.2.2, ?_⟩, fun h => ⟨⟨_, h.2.2⟩, h.1, h.2.1⟩⟩
    obtain ⟨zone, hzone⟩ := h.1
    cases zone
    exact hzone
  rw [← exists_congr fun x => and_congr_right (hasks x)]
  rcases calls_cases hr with ⟨hun, hno⟩ | ⟨⟨-, hcreates⟩, hjoins⟩
  · refine ⟨iff_of_false ?_ fun h => hno ⟨hout, h⟩, .inr hun⟩
    rintro ⟨a, hjoins⟩
    cases (hun.job.trans hout).symm.trans hjoins.job
  · exact ⟨iff_of_true hjoins hcreates, .inl hjoins⟩

def sampleTry (job thread : Alloc) : Call where
  envbuf _ := 0
  envp := (submitted sampleEnviron).map .str
  counted := by decide
  job := job
  thread := thread
  dirFails := false
  fileFails := false

/-- The first directory of `PATH` does not have the program. -/
theorem yasub_one_job_second : ∃ s', Runs.run (step 64) (sampleInit 1)
    ([(sampleTry (some (0x1000, unwritten)) (some (0x2000, unwritten)), false),
      (sampleTry none none, true)].flatMap fun x => x.1.events 0 x.2) = some s' ∧
      ∃ a, Joins 0 (sampleInit 1) s' a := by
  obtain ⟨s', hs⟩ : ∃ s', Runs.run (step 64) (sampleInit 1)
      ([(sampleTry (some (0x1000, unwritten)) (some (0x2000, unwritten)), false),
        (sampleTry none none, true)].flatMap fun x => x.1.events 0 x.2) = some s' := ⟨_, rfl⟩
  have henvp : ∀ x ∈ [(sampleTry (some (0x1000, unwritten)) (some (0x2000, unwritten)), false),
      (sampleTry none none, true)], x.1.envp = (submitted sampleEnviron).map .str := by
    simp [sampleTry]
  have hnone : takenRequest (fun _ => 0) (inFront sampleEnviron) = none := by decide
  refine ⟨s', hs, (yasub_one_job henvp rfl hs).1.mpr ⟨_, List.mem_cons_self, ?_⟩⟩
  refine ⟨by simp [sampleTry], by simp [sampleTry], fun name hname => ?_⟩
  cases hnone.symm.trans hname

end Objects

end Yasched
