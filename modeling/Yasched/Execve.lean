import Yasched.Bytes
import Yasched.Jobs
import Yasched.Runs
import Mathlib.Data.List.TakeWhile

/-!
# Who becomes a job

`new_job` looks for the zone in the environment of the program that is about
to run. It copies one string after another into the static `envbuf` and
compares words of that buffer; other calls of `execve_agent` use the same
buffer meanwhile, and nothing clears it.

`outcome` is what an environment array asks for, by itself. A call whose copy
nobody disturbs returns that (`newJob_undisturbed`).
-/

namespace Yasched

open Bytes

inductive JobStatus
  | nonJob
  | newJob
  | existingJob
  deriving DecidableEq, Repr

def envMaxLength : Nat := 128

/-- `YA_SCHED` -/
def yaZoneStr : List UInt8 := [0x59, 0x41, 0x5f, 0x53, 0x43, 0x48, 0x45, 0x44]

/-- `ZONE_ID=` -/
def zoneIdStr : List UInt8 := [0x5a, 0x4f, 0x4e, 0x45, 0x5f, 0x49, 0x44, 0x3d]

/-- What an element of the environment array points to: the bytes up to a NUL,
or an address where `strncpy_from_user` fails after it has copied some. -/
inductive UserStr
  | str (bytes : List UInt8)
  | fault (copied : List UInt8)
  deriving DecidableEq, Repr

def content (bytes : List UInt8) : List UInt8 := bytes.takeWhile (· ≠ 0)

/-- The string and its NUL as far as they fit; the rest of the buffer stays. -/
def strncpyFromUser (envbuf : Nat → UInt8) (bytes : List UInt8) : Nat → UInt8 :=
  write envbuf 0 ((content bytes ++ [0]).take (envMaxLength - 1))

def isDigit (c : UInt8) : Bool := 0x30 ≤ c && c ≤ 0x39

/-- `my_atol`: at most 20 digits, in an `int`. -/
def myAtol (name : List UInt8) : BitVec 32 :=
  ((name.take 20).takeWhile isDigit).foldl
    (fun val c => 10 * val + BitVec.ofNat 32 (c.toNat - 0x30)) 0

def searchZoneByName (name : List UInt8) : Option Zone :=
  searchZoneById ((myAtol name).signExtend 64).toNat

def allocates (answers : List Bool) : Bool :=
  let (job, answers) := kmemCacheAlloc allocTries answers
  job && (kmemCacheAlloc allocTries answers).1

-- ---------------------------------------------------------------------------
-- The calls of new_job that share envbuf
-- ---------------------------------------------------------------------------

/-- The next step of a call: the copy of string `i`, one of the reads of
`envbuf`, or nothing. -/
inductive NewJobPc
  | copy
  | compareZone
  | compareId
  | atol
  | ret (status : JobStatus) (zone : Option Zone)
  deriving DecidableEq, Repr

/-- The index is an `int` in the source, which counts fewer than 2^31 strings. -/
structure NewJobCall where
  envp : List UserStr
  answers : List Bool
  i : Nat := 0
  pc : NewJobPc := .copy
  deriving DecidableEq, Repr

namespace NewJobCall

def next (call : NewJobCall) : NewJobCall := { call with i := call.i + 1, pc := .copy }

def step (envbuf : Nat → UInt8) (call : NewJobCall) : Option ((Nat → UInt8) × NewJobCall) :=
  match call.pc with
  | .copy =>
    match call.envp[call.i]? with
    | none => some (envbuf, { call with pc := .ret .nonJob none })
    | some (.fault copied) =>
      some (write envbuf 0 (copied.take (envMaxLength - 1)), { call with pc := .ret .nonJob none })
    | some (.str bytes) => some (strncpyFromUser envbuf bytes, { call with pc := .compareZone })
  | .compareZone =>
    some (envbuf, if read envbuf 0 8 = yaZoneStr then { call with pc := .compareId } else call.next)
  | .compareId =>
    some (envbuf, if read envbuf 9 8 = zoneIdStr then { call with pc := .atol } else call.next)
  | .atol =>
    match searchZoneByName (read envbuf 17 20) with
    | none => some (envbuf, { call with pc := .ret .nonJob none })
    | some zone =>
      let status := if allocates call.answers then .newJob else .nonJob
      some (envbuf, { call with pc := .ret status (some zone) })
  | .ret .. => none

def Reading (call : NewJobCall) : Prop :=
  call.pc = .compareZone ∨ call.pc = .compareId ∨ call.pc = .atol

instance (call : NewJobCall) : Decidable call.Reading := inferInstanceAs (Decidable (_ ∨ _))

def Copying (call : NewJobCall) : Prop := call.pc = .copy ∧ call.envp[call.i]? ≠ none

instance (call : NewJobCall) : Decidable call.Copying := inferInstanceAs (Decidable (_ ∧ _))

/-- The call is about to copy a string that is just `YA_SCHED` in front of what
looks like the rest of a request. -/
def Stale (envbuf : Nat → UInt8) (call : NewJobCall) : Prop :=
  match call.pc, call.envp[call.i]? with
  | .copy, some (.str bytes) => content bytes = yaZoneStr ∧ read envbuf 9 8 = zoneIdStr
  | _, _ => False

instance (envbuf : Nat → UInt8) (call : NewJobCall) : Decidable (call.Stale envbuf) := by
  unfold Stale
  split <;> infer_instance

end NewJobCall

structure Execs where
  envbuf : Nat → UInt8
  calls : List NewJobCall

inductive ExecveEvent
  | begin (envp : List UserStr) (answers : List Bool)
  | step (c : Nat)
  deriving DecidableEq, Repr

def Execs.step (s : Execs) : ExecveEvent → Option Execs
  | .begin envp answers => some { s with calls := s.calls ++ [{ envp, answers }] }
  | .step c =>
    match s.calls[c]? with
    | none => none
    | some call =>
      (call.step s.envbuf).map fun (envbuf, call) => { envbuf, calls := s.calls.set c call }

def Execs.init : Execs := { envbuf := fun _ => 0, calls := [] }

-- ---------------------------------------------------------------------------
-- What an environment asks for
-- ---------------------------------------------------------------------------

/-- The zone that the first string of the form `YA_SCHED?ZONE_ID=n` names. -/
def zoneOf : List UserStr → Option Zone
  | [] => none
  | .fault _ :: _ => none
  | .str bytes :: envp =>
    if (content bytes).take 8 = yaZoneStr ∧ ((content bytes).drop 9).take 8 = zoneIdStr then
      searchZoneByName ((content bytes).drop 17)
    else zoneOf envp

def outcome (envp : List UserStr) (answers : List Bool) : JobStatus × Option Zone :=
  match zoneOf envp with
  | none => (.nonJob, none)
  | some zone => (if allocates answers then .newJob else .nonJob, some zone)

-- ---------------------------------------------------------------------------
-- What a copy leaves in the buffer
-- ---------------------------------------------------------------------------

theorem strncpy_string (envbuf : Nat → UInt8) (hi : i < (content bytes).length)
    (hmax : i < envMaxLength - 1) : strncpyFromUser envbuf bytes i = (content bytes)[i] := by
  have hlen : i < ((content bytes ++ [0]).take (envMaxLength - 1)).length := by
    simp only [List.length_take, List.length_append, List.length_singleton]
    omega
  have hwithin := write_within (a := 0) envbuf hlen
  simpa [strncpyFromUser, List.getElem_append, hi] using hwithin

theorem strncpy_nul (envbuf : Nat → UInt8) (hmax : (content bytes).length < envMaxLength - 1) :
    strncpyFromUser envbuf bytes (content bytes).length = 0 := by
  have hlen : (content bytes).length <
      ((content bytes ++ [0]).take (envMaxLength - 1)).length := by
    simp only [List.length_take, List.length_append, List.length_singleton]
    omega
  have hwithin := write_within (a := 0) envbuf hlen
  simpa [strncpyFromUser] using hwithin

theorem strncpy_stale (envbuf : Nat → UInt8) (hi : (content bytes).length < i) :
    strncpyFromUser envbuf bytes i = envbuf i := by
  refine write_after envbuf ?_
  simp only [List.length_take, List.length_append, List.length_singleton]
  omega

theorem read_strncpy (envbuf : Nat → UInt8) (ho : o ≤ (content bytes).length)
    (hn : o + n ≤ envMaxLength - 1) :
    ∃ stale, read (strncpyFromUser envbuf bytes) o n =
      ((content bytes).drop o ++ 0 :: stale).take n := by
  refine ⟨read envbuf ((content bytes).length + 1) n, List.ext_getElem ?_ ?_⟩
  · simp only [length_read, List.length_take, List.length_append, List.length_drop,
      List.length_cons]
    omega
  · intro i hi hi'
    rw [length_read] at hi
    rw [getElem_read, List.getElem_take]
    rcases Nat.lt_trichotomy (o + i) (content bytes).length with h | h | h
    · rw [strncpy_string envbuf h (by omega), List.getElem_append_left (by simp; omega),
        List.getElem_drop]
    · rw [h, strncpy_nul envbuf (by omega), List.getElem_append_right (by simp; omega)]
      simp [← h]
    · obtain ⟨j, rfl⟩ : ∃ j, i = (content bytes).length - o + (j + 1) :=
        ⟨i - ((content bytes).length - o) - 1, by omega⟩
      rw [strncpy_stale envbuf h, List.getElem_append_right (by simp)]
      simp only [List.length_drop, Nat.add_sub_cancel_left, List.getElem_cons_succ, getElem_read]
      congr 1
      omega

theorem take_string {pattern rest stale : List UInt8} (hp : (0 : UInt8) ∉ pattern)
    (hn : pattern.length = n) :
    (rest ++ 0 :: stale).take n = pattern ↔ rest.take n = pattern := by
  rcases Nat.lt_or_ge rest.length n with h | h
  · constructor
    · rintro rfl
      refine absurd ?_ hp
      obtain ⟨k, hk⟩ : ∃ k, n - rest.length = k + 1 := ⟨n - rest.length - 1, by omega⟩
      rw [List.take_append, hk, List.take_succ_cons]
      simp
    · rintro rfl
      simp only [List.length_take] at hn
      omega
  · rw [List.take_append_of_le_length h]

theorem read_pattern (envbuf : Nat → UInt8) (pattern : List UInt8) (hp : (0 : UInt8) ∉ pattern)
    (ho : o ≤ (content bytes).length) (hn : o + pattern.length ≤ envMaxLength - 1) :
    read (strncpyFromUser envbuf bytes) o pattern.length = pattern ↔
      ((content bytes).drop o).take pattern.length = pattern := by
  obtain ⟨stale, hread⟩ := read_strncpy envbuf ho hn
  rw [hread, take_string hp rfl]

theorem takeWhile_string {p : UInt8 → Bool} (hp : p 0 = false) (rest : List UInt8) (n : Nat) :
    ((rest ++ 0 :: stale).take n).takeWhile p = (rest.take n).takeWhile p := by
  induction rest generalizing n with
  | nil => cases n <;> simp [hp]
  | cons b rest ih =>
    cases n with
    | zero => rfl
    | succ n => simp only [List.cons_append, List.take_succ_cons, List.takeWhile_cons, ih]

theorem read_atol (envbuf : Nat → UInt8) (ho : o ≤ (content bytes).length)
    (hn : o + 20 ≤ envMaxLength - 1) :
    myAtol (read (strncpyFromUser envbuf bytes) o 20) = myAtol ((content bytes).drop o) := by
  obtain ⟨stale, hread⟩ := read_strncpy envbuf ho hn
  unfold myAtol
  rw [hread, List.take_take, Nat.min_self, takeWhile_string (by decide)]

structure Holds (envbuf : Nat → UInt8) (bytes : List UInt8) : Prop where
  zone : read envbuf 0 8 = yaZoneStr ↔ (content bytes).take 8 = yaZoneStr
  id : (content bytes).take 8 = yaZoneStr →
    (read envbuf 9 8 = zoneIdStr ↔ ((content bytes).drop 9).take 8 = zoneIdStr)
  name : ((content bytes).drop 9).take 8 = zoneIdStr →
    searchZoneByName (read envbuf 17 20) = searchZoneByName ((content bytes).drop 17)

/-- The one string whose comparisons reach beyond its NUL is `YA_SCHED`. -/
theorem strncpy_holds (hstale : content bytes = yaZoneStr → read envbuf 9 8 ≠ zoneIdStr) :
    Holds (strncpyFromUser envbuf bytes) bytes := by
  refine ⟨?_, fun hzone => ?_, fun hid => ?_⟩
  · exact read_pattern envbuf yaZoneStr (by decide) (Nat.zero_le _) (by decide)
  · have hlen : 8 ≤ (content bytes).length := by
      have h := congrArg List.length hzone
      simp only [List.length_take, yaZoneStr, List.length_cons, List.length_nil] at h
      omega
    rcases Nat.eq_or_lt_of_le hlen with h | h
    · have hall : content bytes = yaZoneStr := by rwa [List.take_of_length_le (by omega)] at hzone
      have hread : read (strncpyFromUser envbuf bytes) 9 8 = read envbuf 9 8 :=
        read_congr fun i _ => strncpy_stale envbuf (by omega)
      refine iff_of_false (by rw [hread]; exact hstale hall) ?_
      rw [hall]
      decide
    · exact read_pattern envbuf zoneIdStr (by decide) h (by decide)
  · have hlen : 17 ≤ (content bytes).length := by
      have h := congrArg List.length hid
      simp only [List.length_take, List.length_drop, zoneIdStr, List.length_cons,
        List.length_nil] at h
      omega
    unfold searchZoneByName
    rw [read_atol envbuf hlen (by decide)]

-- ---------------------------------------------------------------------------
-- A call that nobody disturbs
-- ---------------------------------------------------------------------------

/-- The step writes nothing between the copy and the reads of call `c`; and
the call's own copies leave nothing of an earlier one where it will read. -/
def Undisturbed (c : Nat) (s : Execs) : ExecveEvent → Prop
  | .begin .. => True
  | .step d =>
    match s.calls[c]?, s.calls[d]? with
    | some call, some other =>
      if d = c then ¬ call.Stale s.envbuf else other.Copying → ¬ call.Reading
    | _, _ => True

instance (c : Nat) (s : Execs) (e : ExecveEvent) : Decidable (Undisturbed c s e) := by
  unfold Undisturbed
  split
  · infer_instance
  · split <;> infer_instance

def NewJobCall.OnTrack (envbuf : Nat → UInt8) (call : NewJobCall) : Prop :=
  match call.pc with
  | .copy => outcome (call.envp.drop call.i) call.answers = outcome call.envp call.answers
  | .compareZone | .compareId | .atol =>
    outcome (call.envp.drop call.i) call.answers = outcome call.envp call.answers ∧
      ∃ bytes, call.envp[call.i]? = some (.str bytes) ∧ Holds envbuf bytes ∧
        (call.pc ≠ .compareZone → (content bytes).take 8 = yaZoneStr) ∧
        (call.pc = .atol → ((content bytes).drop 9).take 8 = zoneIdStr)
  | .ret status zone => (status, zone) = outcome call.envp call.answers

theorem NewJobCall.OnTrack.frame {call : NewJobCall} (h : call.OnTrack envbuf)
    (hread : call.Reading → envbuf' = envbuf) : call.OnTrack envbuf' := by
  obtain ⟨envp, answers, i, pc⟩ := call
  cases pc with
  | copy | ret => exact h
  | compareZone | compareId | atol =>
    rw [hread (by simp [NewJobCall.Reading])]
    exact h

theorem outcome_next {envp : List UserStr} (answers : List Bool) (hi : envp[i]? = some (.str bytes))
    (hno : ¬ ((content bytes).take 8 = yaZoneStr ∧
      ((content bytes).drop 9).take 8 = zoneIdStr)) :
    outcome (envp.drop (i + 1)) answers = outcome (envp.drop i) answers := by
  obtain ⟨hlt, hi⟩ := List.getElem?_eq_some_iff.mp hi
  rw [List.drop_eq_getElem_cons hlt, hi]
  unfold outcome
  rw [zoneOf, if_neg hno]

theorem outcome_zone {envp : List UserStr} (answers : List Bool) (hi : envp[i]? = some (.str bytes))
    (hzone : (content bytes).take 8 = yaZoneStr)
    (hid : ((content bytes).drop 9).take 8 = zoneIdStr) :
    outcome (envp.drop i) answers =
      match searchZoneByName ((content bytes).drop 17) with
      | none => (.nonJob, none)
      | some zone => (if allocates answers then .newJob else .nonJob, some zone) := by
  obtain ⟨hlt, hi⟩ := List.getElem?_eq_some_iff.mp hi
  rw [List.drop_eq_getElem_cons hlt, hi]
  unfold outcome
  rw [zoneOf, if_pos ⟨hzone, hid⟩]

theorem step_onTrack {call : NewJobCall} (h : call.OnTrack envbuf)
    (hstale : ¬ call.Stale envbuf) (hs : call.step envbuf = some (envbuf', call')) :
    call'.OnTrack envbuf' ∧ call'.envp = call.envp ∧ call'.answers = call.answers := by
  obtain ⟨envp, answers, i, pc⟩ := call
  cases pc with
  | copy =>
    have htrack : outcome (envp.drop i) answers = outcome envp answers := h
    simp only [NewJobCall.step] at hs
    split at hs <;> cases hs <;> rename_i hi
    · refine ⟨?_, rfl, rfl⟩
      have hdrop : envp.drop i = [] := List.drop_eq_nil_of_le (List.getElem?_eq_none_iff.mp hi)
      rw [hdrop] at htrack
      exact htrack
    · refine ⟨?_, rfl, rfl⟩
      obtain ⟨hlt, hi⟩ := List.getElem?_eq_some_iff.mp hi
      rw [List.drop_eq_getElem_cons hlt, hi] at htrack
      exact htrack
    · rename_i bytes
      refine ⟨⟨htrack, bytes, hi, strncpy_holds fun hall hread => hstale ?_, by simp, by simp⟩,
        rfl, rfl⟩
      simp [NewJobCall.Stale, hi, hall, hread]
  | compareZone =>
    obtain ⟨htrack, bytes, hi, hb, -, -⟩ := h
    simp only [NewJobCall.step, Option.some.injEq, Prod.mk.injEq] at hs
    obtain ⟨rfl, rfl⟩ := hs
    split <;> rename_i hread
    · exact ⟨⟨htrack, bytes, hi, hb, fun _ => hb.zone.mp hread, by simp⟩, rfl, rfl⟩
    · refine ⟨?_, rfl, rfl⟩
      have hnext := outcome_next answers hi fun h => hread (hb.zone.mpr h.1)
      exact hnext.trans htrack
  | compareId =>
    obtain ⟨htrack, bytes, hi, hb, hzone, -⟩ := h
    have hzone := hzone (by simp)
    simp only [NewJobCall.step, Option.some.injEq, Prod.mk.injEq] at hs
    obtain ⟨rfl, rfl⟩ := hs
    split <;> rename_i hread
    · exact ⟨⟨htrack, bytes, hi, hb, fun _ => hzone, fun _ => (hb.id hzone).mp hread⟩, rfl, rfl⟩
    · refine ⟨?_, rfl, rfl⟩
      have hnext := outcome_next answers hi fun h => hread ((hb.id hzone).mpr h.2)
      exact hnext.trans htrack
  | atol =>
    obtain ⟨htrack, bytes, hi, hb, hzone, hid⟩ := h
    have hout := outcome_zone answers hi (hzone (by simp)) (hid rfl)
    simp only [NewJobCall.step, hb.name (hid rfl)] at hs
    split at hs <;> rename_i hz <;> cases hs <;> rw [hz] at hout
    · exact ⟨hout.symm.trans htrack, rfl, rfl⟩
    · exact ⟨hout.symm.trans htrack, rfl, rfl⟩
  | ret => cases hs

theorem step_envbuf {call : NewJobCall} (hs : call.step envbuf = some (envbuf', call'))
    (hc : ¬ call.Copying) : envbuf' = envbuf := by
  obtain ⟨envp, answers, i, pc⟩ := call
  cases pc with
  | copy =>
    simp only [NewJobCall.Copying, true_and, not_not] at hc
    simp only [NewJobCall.step, hc] at hs
    cases hs
    rfl
  | compareZone | compareId => cases hs; rfl
  | atol =>
    simp only [NewJobCall.step] at hs
    split at hs <;> cases hs <;> rfl
  | ret => cases hs

def OnTrack (c : Nat) (s : Execs) : Prop := ∀ call, s.calls[c]? = some call → call.OnTrack s.envbuf

theorem execs_onTrack (h : OnTrack c s) (hu : Undisturbed c s e) (hs : s.step e = some s') :
    OnTrack c s' := by
  intro call hcall
  cases e with
  | begin envp answers =>
    cases hs
    rcases Nat.lt_or_ge c s.calls.length with hlt | hge
    · rw [List.getElem?_append_left hlt] at hcall
      exact h call hcall
    · rw [List.getElem?_append_right hge] at hcall
      rw [List.mem_singleton.mp (List.mem_of_getElem? hcall)]
      rfl
  | step d =>
    simp only [Execs.step] at hs
    split at hs
    · cases hs
    · rename_i other hd
      obtain ⟨⟨envbuf', other'⟩, hstep, rfl⟩ := Option.map_eq_some_iff.mp hs
      by_cases hdc : d = c
      · subst hdc
        simp only [Undisturbed, hd, if_true] at hu
        rw [List.getElem?_set_self (List.getElem?_eq_some_iff.mp hd).1] at hcall
        cases hcall
        exact (step_onTrack (h other hd) hu hstep).1
      · rw [List.getElem?_set_ne hdc] at hcall
        simp only [Undisturbed, hcall, hd, if_neg hdc] at hu
        refine (h call hcall).frame fun hreading => step_envbuf hstep fun hcopy => hu hcopy hreading

theorem newJob_undisturbed (hr : Runs.run Execs.step Execs.init es = some s)
    (hu : Runs.Along Execs.step (Undisturbed c) Execs.init es) (hc : s.calls[c]? = some call)
    (hret : call.pc = .ret status zone) : (status, zone) = outcome call.envp call.answers := by
  have hinit : OnTrack c Execs.init := by
    intro call hcall
    simp [Execs.init] at hcall
  have htrack := Runs.invariant_along (fun _ _ _ h hu hs => execs_onTrack h hu hs) hinit hu hr
    call hc
  simpa [NewJobCall.OnTrack, hret] using htrack

/-- Two calls with the same environment, whose allocations go the same way,
return the same in any two runs that do not disturb them. -/
theorem newJob_own_envp (hr₁ : Runs.run Execs.step Execs.init es₁ = some s₁)
    (hr₂ : Runs.run Execs.step Execs.init es₂ = some s₂)
    (hu₁ : Runs.Along Execs.step (Undisturbed c₁) Execs.init es₁)
    (hu₂ : Runs.Along Execs.step (Undisturbed c₂) Execs.init es₂)
    (hc₁ : s₁.calls[c₁]? = some call₁) (hc₂ : s₂.calls[c₂]? = some call₂)
    (henvp : call₁.envp = call₂.envp) (hanswers : call₁.answers = call₂.answers)
    (hret₁ : call₁.pc = .ret status₁ zone₁) (hret₂ : call₂.pc = .ret status₂ zone₂) :
    status₁ = status₂ ∧ zone₁ = zone₂ := by
  have h₁ := newJob_undisturbed hr₁ hu₁ hc₁ hret₁
  have h₂ := newJob_undisturbed hr₂ hu₂ hc₂ hret₂
  rw [henvp, hanswers, ← h₂] at h₁
  exact Prod.mk.inj h₁

def zoneRequest : List UInt8 := yaZoneStr ++ [0x20] ++ zoneIdStr ++ [0x30]

theorem newJob_own_envp_request :
    ∃ (s₁ s₂ : Execs) (status₁ status₂ : JobStatus) (zone₁ zone₂ : Option Zone),
      s₁.calls[1]? = some ⟨[.str zoneRequest], [true, true], 0, .ret status₁ zone₁⟩ ∧
      s₂.calls[0]? = some ⟨[.str zoneRequest], [true, true], 0, .ret status₂ zone₂⟩ ∧
      status₁ = status₂ ∧ zone₁ = zone₂ := by
  have hlate : ((Runs.run Execs.step Execs.init
      ([.begin [.fault []] [], .begin [.str zoneRequest] [true, true], .step 0] ++
        List.replicate 4 (.step 1))).bind fun s => s.calls[1]?) =
      some ⟨[.str zoneRequest], [true, true], 0, .ret .newJob (some .yaSchedZone)⟩ := by
    decide
  have halone : ((Runs.run Execs.step Execs.init
      (.begin [.str zoneRequest] [true, true] :: List.replicate 4 (.step 0))).bind
        fun s => s.calls[0]?) =
      some ⟨[.str zoneRequest], [true, true], 0, .ret .newJob (some .yaSchedZone)⟩ := by
    decide
  obtain ⟨s₁, hr₁, hc₁⟩ := Option.bind_eq_some_iff.mp hlate
  obtain ⟨s₂, hr₂, hc₂⟩ := Option.bind_eq_some_iff.mp halone
  exact ⟨s₁, s₂, _, _, _, _, hc₁, hc₂,
    newJob_own_envp hr₁ hr₂ (by decide) (by decide) hc₁ hc₂ rfl rfl rfl rfl⟩

/-- A string `YA_SCHED` alone, in a buffer that still holds the rest of another
process's request, and in a fresh one. -/
theorem newJob_own_envp_fails :
    ¬ ∀ es₁ es₂ s₁ s₂ (c₁ c₂ : Nat) (call₁ call₂ : NewJobCall) status₁ status₂ zone₁ zone₂,
      Runs.run Execs.step Execs.init es₁ = some s₁ →
      Runs.run Execs.step Execs.init es₂ = some s₂ →
      s₁.calls[c₁]? = some call₁ → s₂.calls[c₂]? = some call₂ →
      call₁.envp = call₂.envp → call₁.answers = call₂.answers →
      call₁.pc = .ret status₁ zone₁ → call₂.pc = .ret status₂ zone₂ →
      status₁ = status₂ ∧ zone₁ = zone₂ := by
  intro h
  have hstale : ((Runs.run Execs.step Execs.init
      ([.begin [.str zoneRequest] [true, true], .begin [.str yaZoneStr] [true, true]] ++
        List.replicate 4 (.step 0) ++ List.replicate 4 (.step 1))).bind fun s => s.calls[1]?) =
      some ⟨[.str yaZoneStr], [true, true], 0, .ret .newJob (some .yaSchedZone)⟩ := by
    decide
  have hfresh : ((Runs.run Execs.step Execs.init
      (.begin [.str yaZoneStr] [true, true] :: List.replicate 4 (.step 0))).bind
        fun s => s.calls[0]?) =
      some ⟨[.str yaZoneStr], [true, true], 1, .ret .nonJob none⟩ := by
    decide
  obtain ⟨s₁, hr₁, hc₁⟩ := Option.bind_eq_some_iff.mp hstale
  obtain ⟨s₂, hr₂, hc₂⟩ := Option.bind_eq_some_iff.mp hfresh
  have heq := h _ _ s₁ s₂ 1 0 _ _ _ _ _ _ hr₁ hr₂ hc₁ hc₂ rfl rfl rfl rfl
  cases heq.1

end Yasched
