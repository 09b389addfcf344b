import Yasched.Execve

/-!
# What the environment scan accepts

A request is a string `YA_SCHED_ZONE_ID=` followed by the decimal numeral of a
zone. `new_job` compares eight bytes of its buffer, leaves out the ninth and
compares eight more, where a string that ends with the first eight has left what
earlier strings of the same environment put there. The numeral goes into an
`int` and ends at the first byte that is no digit.

`takenRequest` is the string that the scan takes for a request, `request` the one that
is one. `scan_accepts_iff` says when the two lead to the same.
-/

namespace Yasched

open Bytes

/-- `YA_SCHED_ZONE_ID=` -/
def zonePrefix : List UInt8 := yaZoneStr ++ [0x5f] ++ zoneIdStr

def digitsValue (digits : List UInt8) : Nat :=
  digits.foldl (fun val c => 10 * val + (c.toNat - 0x30)) 0

/-- The value of a non-empty decimal numeral. -/
def numeral? (name : List UInt8) : Option Nat :=
  if name ≠ [] ∧ name.all isDigit then some (digitsValue name) else none

/-- What follows the prefix in the first string that begins with it. -/
def request : List (List UInt8) → Option (List UInt8)
  | [] => none
  | bytes :: envs =>
    if (content bytes).take 17 = zonePrefix then some ((content bytes).drop 17) else request envs

def requestedZone (envs : List (List UInt8)) : Option Zone :=
  ((request envs).bind numeral?).bind searchZoneById

/-- A call of `new_job` with this environment, scanned alone with a cleared
`envbuf`, returns. -/
def ReturnsAlone (envp : List UserStr) (answers : List Bool) (status : JobStatus)
    (zone : Option Zone) : Prop :=
  ∃ (n : Nat) (s : Execs) (call : NewJobCall),
    Runs.run Execs.step Execs.init (.begin envp answers :: List.replicate n (.step 0)) = some s ∧
      s.calls[0]? = some call ∧ call.pc = .ret status zone

def ScanExact (envs : List (List UInt8)) (answers : List Bool) : Prop :=
  ∀ zone, ReturnsAlone (envs.map .str) answers .newJob (some zone) ↔
    requestedZone envs = some zone ∧ allocates answers

-- ---------------------------------------------------------------------------
-- A call by itself
-- ---------------------------------------------------------------------------

def scan (envbuf : Nat → UInt8) : List UserStr → Option Zone
  | [] => none
  | .fault _ :: _ => none
  | .str bytes :: envp =>
    let envbuf := strncpyFromUser envbuf bytes
    if read envbuf 0 8 = yaZoneStr ∧ read envbuf 9 8 = zoneIdStr then
      searchZoneByName (read envbuf 17 20)
    else scan envbuf envp

def conclude (answers : List Bool) : Option Zone → JobStatus × Option Zone
  | none => (.nonJob, none)
  | some zone => (if allocates answers then .newJob else .nonJob, some zone)

namespace NewJobCall

def result (envbuf : Nat → UInt8) (call : NewJobCall) : JobStatus × Option Zone :=
  let next := scan envbuf (call.envp.drop (call.i + 1))
  match call.pc with
  | .copy => conclude call.answers (scan envbuf (call.envp.drop call.i))
  | .compareZone =>
    conclude call.answers (if read envbuf 0 8 = yaZoneStr ∧ read envbuf 9 8 = zoneIdStr then
      searchZoneByName (read envbuf 17 20) else next)
  | .compareId =>
    conclude call.answers (if read envbuf 9 8 = zoneIdStr then
      searchZoneByName (read envbuf 17 20) else next)
  | .atol => conclude call.answers (searchZoneByName (read envbuf 17 20))
  | .ret status zone => (status, zone)

theorem step_result {call : NewJobCall} (hs : call.step envbuf = some (envbuf', call')) :
    call'.result envbuf' = call.result envbuf := by
  obtain ⟨envp, answers, i, pc⟩ := call
  cases pc with
  | copy =>
    simp only [step] at hs
    split at hs <;> cases hs <;> rename_i hi
    · have hdrop : envp.drop i = [] := List.drop_eq_nil_of_le (List.getElem?_eq_none_iff.mp hi)
      simp [result, hdrop, scan, conclude]
    · obtain ⟨hlt, hi⟩ := List.getElem?_eq_some_iff.mp hi
      simp [result, List.drop_eq_getElem_cons hlt, hi, scan, conclude]
    · obtain ⟨hlt, hi⟩ := List.getElem?_eq_some_iff.mp hi
      simp only [result, List.drop_eq_getElem_cons hlt, hi, scan]
  | compareZone =>
    simp only [step, Option.some.injEq, Prod.mk.injEq] at hs
    obtain ⟨rfl, rfl⟩ := hs
    split
    case isTrue hread => simp [result, hread]
    case isFalse hread => simp [result, next, hread]
  | compareId =>
    simp only [step, Option.some.injEq, Prod.mk.injEq] at hs
    obtain ⟨rfl, rfl⟩ := hs
    split
    case isTrue hread => simp [result, hread]
    case isFalse hread => simp [result, next, hread]
  | atol =>
    simp only [step] at hs
    split at hs <;> rename_i hz <;> cases hs <;> simp [result, hz, conclude]
  | ret => cases hs

end NewJobCall

def aloneAt (envbuf : Nat → UInt8) (call : NewJobCall) : Execs := { envbuf, calls := [call] }

theorem aloneAt_step {call : NewJobCall} (hs : call.step envbuf = some (envbuf', call')) :
    Execs.step (aloneAt envbuf call) (.step 0) = some (aloneAt envbuf' call') := by
  simp [Execs.step, aloneAt, hs]

theorem aloneAt_inv (hs : Execs.step (aloneAt envbuf call) (.step 0) = some s) :
    ∃ envbuf' call', call.step envbuf = some (envbuf', call') ∧ s = aloneAt envbuf' call' := by
  simp only [Execs.step, aloneAt, List.getElem?_cons_zero] at hs
  obtain ⟨⟨envbuf', call'⟩, hstep, rfl⟩ := Option.map_eq_some_iff.mp hs
  exact ⟨envbuf', call', hstep, rfl⟩

theorem run_result (hr : Runs.run Execs.step (aloneAt envbuf call) (List.replicate n (.step 0)) =
      some s) (hc : s.calls[0]? = some call') (hret : call'.pc = .ret status zone) :
    call.result envbuf = (status, zone) := by
  induction n generalizing envbuf call with
  | zero =>
    cases hr
    cases hc
    simp [NewJobCall.result, hret]
  | succ n ih =>
    obtain ⟨m, hm, hr⟩ := Runs.run_cons.mp hr
    obtain ⟨envbuf', call₁, hstep, rfl⟩ := aloneAt_inv hm
    rw [← NewJobCall.step_result hstep]
    exact ih hr

inductive Ends : (Nat → UInt8) → NewJobCall → Prop
  | ret {call : NewJobCall} (h : call.pc = .ret status zone) : Ends envbuf call
  | step {call : NewJobCall} (hs : call.step envbuf = some after)
    (h : Ends after.1 after.2) : Ends envbuf call

theorem Ends.run (h : Ends envbuf call) :
    ∃ (n : Nat) (s : Execs) (call' : NewJobCall) (status : JobStatus) (zone : Option Zone),
      Runs.run Execs.step (aloneAt envbuf call) (List.replicate n (.step 0)) = some s ∧
        s.calls[0]? = some call' ∧ call'.pc = .ret status zone := by
  induction h with
  | @ret status zone envbuf call h =>
    exact ⟨0, aloneAt envbuf call, call, status, zone, rfl, rfl, h⟩
  | step hs h ih =>
    obtain ⟨n, s, call', status, zone, hr, hret⟩ := ih
    exact ⟨n + 1, s, call', status, zone, Runs.run_cons.mpr ⟨_, aloneAt_step hs, hr⟩, hret⟩

theorem ends_atol (envbuf : Nat → UInt8) (envp : List UserStr) (answers : List Bool) (i : Nat) :
    Ends envbuf { envp, answers, i, pc := .atol } := by
  cases hs : NewJobCall.step envbuf { envp, answers, i, pc := .atol } with
  | none =>
    simp only [NewJobCall.step] at hs
    split at hs <;> cases hs
  | some after =>
    refine .step hs ?_
    simp only [NewJobCall.step] at hs
    split at hs <;> cases hs
    · exact .ret rfl
    · exact .ret rfl

/-- By induction on what is left of the environment: a string takes the call to
its end, or to the next one. -/
theorem ends_copy (envbuf : Nat → UInt8) (envp : List UserStr) (answers : List Bool) (i : Nat) :
    Ends envbuf { envp, answers, i } := by
  induction hrest : envp.drop i generalizing envbuf i with
  | nil =>
    have hi : envp[i]? = none := List.getElem?_eq_none (List.drop_eq_nil_iff.mp hrest)
    have hs : NewJobCall.step envbuf { envp, answers, i } =
        some (envbuf, { envp, answers, i, pc := .ret .nonJob none }) := by
      simp only [NewJobCall.step, hi]
    exact .step hs (.ret rfl)
  | cons str rest ih =>
    have hi : envp[i]? = some str := by rw [← List.head?_drop, hrest, List.head?_cons]
    have hnext : envp.drop (i + 1) = rest := by rw [← List.tail_drop, hrest, List.tail_cons]
    cases str with
    | fault copied =>
      have hs : NewJobCall.step envbuf { envp, answers, i } =
          some (write envbuf 0 (copied.take (envMaxLength - 1)),
            { envp, answers, i, pc := .ret .nonJob none }) := by
        simp only [NewJobCall.step, hi]
      exact .step hs (.ret rfl)
    | str bytes =>
      have hs : NewJobCall.step envbuf { envp, answers, i } =
          some (strncpyFromUser envbuf bytes, { envp, answers, i, pc := .compareZone }) := by
        simp only [NewJobCall.step, hi]
      refine .step hs (.step rfl ?_)
      dsimp only
      split
      case isFalse => exact ih _ _ hnext
      case isTrue =>
        refine .step rfl ?_
        dsimp only
        split
        case isFalse => exact ih _ _ hnext
        case isTrue => exact ends_atol _ _ _ _

theorem returnsAlone_iff : ReturnsAlone envp answers status zone ↔
    conclude answers (scan (fun _ => 0) envp) = (status, zone) := by
  have hstart : ∀ es, Runs.run Execs.step Execs.init (.begin envp answers :: es) =
      Runs.run Execs.step (aloneAt (fun _ => 0) { envp, answers }) es := fun _ => rfl
  constructor
  · rintro ⟨n, s, call, hr, hc, hret⟩
    rw [hstart] at hr
    exact run_result hr hc hret
  · intro h
    obtain ⟨n, s, call, status', zone', hr, hc, hret⟩ := (ends_copy (fun _ => 0) envp answers 0).run
    have hresult := run_result hr hc hret
    obtain ⟨rfl, rfl⟩ := Prod.mk.inj (hresult.symm.trans h)
    exact ⟨n, s, call, hr, hc, hret⟩

-- ---------------------------------------------------------------------------
-- Numerals
-- ---------------------------------------------------------------------------

def leadingDigits (name : List UInt8) : List UInt8 := (name.take 20).takeWhile isDigit

def parsedId (name : List UInt8) : Nat := ((myAtol name).signExtend 64).toNat

/-- One `0` or more, and nothing else. -/
def IsZeros (name : List UInt8) : Prop := name ≠ [] ∧ ∀ c ∈ name, c = 0x30

instance (name : List UInt8) : Decidable (IsZeros name) := inferInstanceAs (Decidable (_ ∧ _))

theorem foldl_int (digits : List UInt8) (val : Nat) :
    digits.foldl (fun val c => 10 * val + BitVec.ofNat 32 (c.toNat - 0x30)) (BitVec.ofNat 32 val) =
      BitVec.ofNat 32 (digits.foldl (fun val c => 10 * val + (c.toNat - 0x30)) val) := by
  induction digits generalizing val with
  | nil => rfl
  | cons c digits ih =>
    have hstep : 10 * BitVec.ofNat 32 val + BitVec.ofNat 32 (c.toNat - 0x30) =
        BitVec.ofNat 32 (10 * val + (c.toNat - 0x30)) := by
      rw [BitVec.ofNat_add, BitVec.ofNat_mul]
      rfl
    rw [List.foldl_cons, List.foldl_cons, hstep, ih]

theorem myAtol_eq (name : List UInt8) :
    myAtol name = BitVec.ofNat 32 (digitsValue (leadingDigits name)) :=
  foldl_int (leadingDigits name) 0

theorem parsedId_eq (name : List UInt8) :
    parsedId name =
      if digitsValue (leadingDigits name) % 0x100000000 < 0x80000000 then
        digitsValue (leadingDigits name) % 0x100000000
      else digitsValue (leadingDigits name) % 0x100000000 + 0xffffffff00000000 := by
  unfold parsedId
  rw [myAtol_eq, BitVec.toNat_signExtend, BitVec.msb_eq_decide]
  simp only [BitVec.toNat_setWidth, BitVec.toNat_ofNat]
  split <;> split <;> simp_all <;> omega

theorem searchZoneByName_iff : searchZoneByName name = some zone ↔
    0x100000000 ∣ digitsValue (leadingDigits name) := by
  have hid : parsedId name = 0 ↔ 0x100000000 ∣ digitsValue (leadingDigits name) := by
    rw [parsedId_eq]
    split <;> omega
  rw [← hid]
  show searchZoneById (parsedId name) = some zone ↔ _
  unfold searchZoneById
  cases zone
  simp

theorem digitsValue_zero (hdigits : ∀ c ∈ digits, isDigit c) :
    digitsValue digits = 0 ↔ ∀ c ∈ digits, c = 0x30 := by
  induction digits using List.reverseRecOn with
  | nil => simp [digitsValue]
  | append_singleton digits c ih =>
    have hc : isDigit c := hdigits c (by simp)
    have hvalue : digitsValue (digits ++ [c]) = 10 * digitsValue digits + (c.toNat - 0x30) := by
      simp [digitsValue]
    have hzero : c.toNat - 0x30 = 0 ↔ c = 0x30 := by
      simp only [isDigit, Bool.and_eq_true, decide_eq_true_eq, UInt8.le_iff_toNat_le] at hc
      rw [← UInt8.toNat_inj]
      exact ⟨fun h => Nat.le_antisymm (Nat.le_of_sub_eq_zero h) hc.1, fun h => by rw [h]; rfl⟩
    have hrest := ih fun c h => hdigits c (List.mem_append_left _ h)
    rw [hvalue]
    simp only [List.mem_append, List.mem_singleton, or_imp, forall_and, forall_eq, ← hrest,
      ← hzero]
    omega

theorem numeral_zone : (numeral? name).bind searchZoneById = some zone ↔ IsZeros name := by
  unfold numeral? IsZeros
  split
  case isTrue h =>
    have hzero := digitsValue_zero (by simpa using h.2)
    cases zone
    simp [searchZoneById, hzero, h.1]
  case isFalse h =>
    refine iff_of_false (by simp) fun hzeros => h ⟨hzeros.1, ?_⟩
    rw [List.all_eq_true]
    rintro c hc
    rw [hzeros.2 c hc]
    decide

-- ---------------------------------------------------------------------------
-- What the scan takes for a request
-- ---------------------------------------------------------------------------

/-- The words are where they are looked for, and any byte is between them. -/
def Spelled (bytes : List UInt8) : Prop :=
  (content bytes).take 8 = yaZoneStr ∧ ((content bytes).drop 9).take 8 = zoneIdStr

instance (bytes : List UInt8) : Decidable (Spelled bytes) := inferInstanceAs (Decidable (_ ∧ _))

/-- No more than `YA_SCHED`, in front of what is left in the buffer. -/
def Completed (envbuf : Nat → UInt8) (bytes : List UInt8) : Prop :=
  content bytes = yaZoneStr ∧ read envbuf 9 8 = zoneIdStr

instance (envbuf : Nat → UInt8) (bytes : List UInt8) : Decidable (Completed envbuf bytes) :=
  inferInstanceAs (Decidable (_ ∧ _))

def Lookalike (envbuf : Nat → UInt8) (bytes : List UInt8) : Prop :=
  Spelled bytes ∨ Completed envbuf bytes

instance (envbuf : Nat → UInt8) (bytes : List UInt8) : Decidable (Lookalike envbuf bytes) :=
  inferInstanceAs (Decidable (_ ∨ _))

/-- Where the digits of such a string are. -/
def nameIn (envbuf : Nat → UInt8) (bytes : List UInt8) : List UInt8 :=
  if Spelled bytes then (content bytes).drop 17 else read envbuf 17 20

/-- The digits and what follows them, in the first string whose comparisons
succeed. -/
def takenRequest (envbuf : Nat → UInt8) : List (List UInt8) → Option (List UInt8)
  | [] => none
  | bytes :: envs =>
    if Lookalike envbuf bytes then some (nameIn envbuf bytes)
    else takenRequest (strncpyFromUser envbuf bytes) envs

/-- After the copy both comparisons succeed just for a string that looks like a
request, and the number is where `nameIn` has it. -/
theorem lookalike_read (envbuf : Nat → UInt8) (bytes : List UInt8) :
    (read (strncpyFromUser envbuf bytes) 0 8 = yaZoneStr ∧
      read (strncpyFromUser envbuf bytes) 9 8 = zoneIdStr ↔ Lookalike envbuf bytes) ∧
    (Lookalike envbuf bytes → searchZoneByName (read (strncpyFromUser envbuf bytes) 17 20) =
      searchZoneByName (nameIn envbuf bytes)) := by
  by_cases hstale : Completed envbuf bytes
  · have hlen : (content bytes).length = 8 := by rw [hstale.1]; rfl
    have hname : read (strncpyFromUser envbuf bytes) 17 20 = read envbuf 17 20 :=
      read_congr fun i _ => strncpy_stale envbuf (by omega)
    have hid : read (strncpyFromUser envbuf bytes) 9 8 = read envbuf 9 8 :=
      read_congr fun i _ => strncpy_stale envbuf (by omega)
    have hzone : read (strncpyFromUser envbuf bytes) 0 8 = yaZoneStr :=
      (read_pattern envbuf yaZoneStr (by decide) (Nat.zero_le _) (by decide)).mpr
        (by rw [hstale.1]; rfl)
    have hno : ¬Spelled bytes := by
      unfold Spelled
      rw [hstale.1]
      decide
    refine ⟨iff_of_true ⟨hzone, hid.trans hstale.2⟩ (.inr hstale), fun _ => ?_⟩
    rw [hname, nameIn, if_neg hno]
  · have hb : Holds (strncpyFromUser envbuf bytes) bytes :=
      strncpy_holds fun hall hid => hstale ⟨hall, hid⟩
    refine ⟨⟨fun hread => .inl ?_, fun hlook => ?_⟩, fun hlook => ?_⟩
    · have hzone := hb.zone.mp hread.1
      exact ⟨hzone, (hb.id hzone).mp hread.2⟩
    · have hspelled := hlook.resolve_right hstale
      exact ⟨hb.zone.mpr hspelled.1, (hb.id hspelled.1).mpr hspelled.2⟩
    · have hspelled := hlook.resolve_right hstale
      rw [nameIn, if_pos hspelled, hb.name hspelled.2]

def bufferAfter (envbuf : Nat → UInt8) (envs : List (List UInt8)) : Nat → UInt8 :=
  envs.foldl strncpyFromUser envbuf

theorem scan_append (envbuf : Nat → UInt8) (envs : List (List UInt8)) (envp : List UserStr) :
    scan envbuf (envs.map .str ++ envp) =
      (takenRequest envbuf envs).elim (scan (bufferAfter envbuf envs) envp) searchZoneByName := by
  induction envs generalizing envbuf with
  | nil => rfl
  | cons bytes envs ih =>
    obtain ⟨hread, hname⟩ := lookalike_read envbuf bytes
    simp only [List.map_cons, List.cons_append, scan, takenRequest, hread]
    split
    case isTrue hlook => exact hname hlook
    case isFalse hlook => exact ih _

theorem scan_takenRequest (envbuf : Nat → UInt8) (envs : List (List UInt8)) :
    scan envbuf (envs.map .str) = (takenRequest envbuf envs).bind searchZoneByName := by
  have happend := scan_append envbuf envs []
  rw [List.append_nil] at happend
  rw [happend]
  cases takenRequest envbuf envs <;> rfl

theorem spelled_of_begins (h : (content bytes).take 17 = zonePrefix) : Spelled bytes := by
  unfold Spelled
  rw [← List.take_append_drop 17 (content bytes), h]
  simp [zonePrefix, yaZoneStr, zoneIdStr]

def NoLookalike (envbuf : Nat → UInt8) (envs : List (List UInt8)) : Prop :=
  ∀ before bytes rest, envs = before ++ bytes :: rest → ¬Lookalike (bufferAfter envbuf before) bytes

/-- `bytes` is the first string that looks like a request. -/
structure FirstLookalike (envbuf : Nat → UInt8) (envs before : List (List UInt8))
    (bytes : List UInt8) (rest : List (List UInt8)) : Prop where
  split : envs = before ++ bytes :: rest
  first : NoLookalike envbuf before
  looks : Lookalike (bufferAfter envbuf before) bytes

theorem noLookalike_cons : NoLookalike envbuf (bytes :: envs) ↔
    ¬Lookalike envbuf bytes ∧ NoLookalike (strncpyFromUser envbuf bytes) envs := by
  constructor
  · intro h
    refine ⟨h [] bytes envs rfl, fun before str rest hsplit => ?_⟩
    exact h (bytes :: before) str rest (congrArg (bytes :: ·) hsplit)
  · rintro ⟨hbytes, h⟩ before str rest hsplit
    cases before with
    | nil =>
      cases hsplit
      exact hbytes
    | cons b before =>
      have hsplit := List.cons.inj hsplit
      exact hsplit.1 ▸ h before str rest hsplit.2

theorem takenRequest_append (envbuf : Nat → UInt8) (before rest : List (List UInt8)) :
    takenRequest envbuf (before ++ rest) =
      (takenRequest envbuf before).or (takenRequest (bufferAfter envbuf before) rest) := by
  induction before generalizing envbuf with
  | nil => rfl
  | cons bytes before ih =>
    simp only [List.cons_append, takenRequest]
    split
    · rfl
    · exact ih _

theorem NoLookalike.taken (h : NoLookalike envbuf envs) : takenRequest envbuf envs = none := by
  induction envs generalizing envbuf with
  | nil => rfl
  | cons bytes envs ih =>
    obtain ⟨hbytes, h⟩ := noLookalike_cons.mp h
    rw [takenRequest, if_neg hbytes]
    exact ih h

theorem FirstLookalike.taken (h : FirstLookalike envbuf envs before bytes rest) :
    takenRequest envbuf envs = some (nameIn (bufferAfter envbuf before) bytes) := by
  rw [h.split, takenRequest_append, h.first.taken, Option.none_or, takenRequest, if_pos h.looks]

/-- By induction on the strings: the first looks like a request, or the rest
decides. -/
theorem first_or_none (envbuf : Nat → UInt8) (envs : List (List UInt8)) :
    NoLookalike envbuf envs ∨
      ∃ before bytes rest, FirstLookalike envbuf envs before bytes rest := by
  induction envs generalizing envbuf with
  | nil =>
    refine .inl fun before bytes rest hsplit => ?_
    cases before <;> cases hsplit
  | cons str envs ih =>
    by_cases hstr : Lookalike envbuf str
    · refine .inr ⟨[], str, envs, rfl, fun before bytes rest hsplit => ?_, hstr⟩
      cases before <;> cases hsplit
    · rcases ih (strncpyFromUser envbuf str) with hno | ⟨before, bytes, rest, rfl, hfirst, hlooks⟩
      · exact .inl (noLookalike_cons.mpr ⟨hstr, hno⟩)
      · exact .inr ⟨str :: before, bytes, rest, rfl, noLookalike_cons.mpr ⟨hstr, hfirst⟩, hlooks⟩

theorem NoLookalike.request (h : NoLookalike envbuf before) (rest : List (List UInt8)) :
    request (before ++ rest) = request rest := by
  induction before generalizing envbuf with
  | nil => rfl
  | cons bytes before ih =>
    obtain ⟨hbytes, h⟩ := noLookalike_cons.mp h
    have hbegins : (content bytes).take 17 ≠ zonePrefix :=
      fun hbegins => hbytes (.inl (spelled_of_begins hbegins))
    rw [List.cons_append, Yasched.request, if_neg hbegins]
    exact ih h

/-- The number that the scan finds is 0 modulo 2^32. -/
def TakesZone (envbuf : Nat → UInt8) (envs : List (List UInt8)) : Prop :=
  ∃ before bytes rest, FirstLookalike envbuf envs before bytes rest ∧
    0x100000000 ∣ digitsValue (leadingDigits (nameIn (bufferAfter envbuf before) bytes))

theorem takesZone_iff : TakesZone envbuf envs ↔ ∃ name, takenRequest envbuf envs = some name ∧
    0x100000000 ∣ digitsValue (leadingDigits name) := by
  constructor
  · rintro ⟨before, bytes, rest, hfirst, hzone⟩
    exact ⟨_, hfirst.taken, hzone⟩
  · rintro ⟨name, htaken, hzone⟩
    rcases first_or_none envbuf envs with hno | ⟨before, bytes, rest, hfirst⟩
    · cases htaken.symm.trans hno.taken
    · obtain rfl := Option.some.inj (htaken.symm.trans hfirst.taken)
      exact ⟨before, bytes, rest, hfirst, hzone⟩

/-- The zone is found just where the first string that looks like a request has
a number that is 0 modulo 2^32. -/
theorem scan_some_iff : scan envbuf (envs.map .str) = some zone ↔ TakesZone envbuf envs := by
  rw [scan_takenRequest, takesZone_iff, Option.bind_eq_some_iff]
  simp only [searchZoneByName_iff]

theorem strs_or_fault (envp : List UserStr) : ∃ (envs : List (List UInt8)) (rest : List UserStr),
    envp = envs.map .str ++ rest ∧ ∀ envbuf, scan envbuf rest = none := by
  induction envp with
  | nil => exact ⟨[], [], rfl, fun _ => rfl⟩
  | cons str envp ih =>
    cases str with
    | fault copied => exact ⟨[], _, rfl, fun _ => rfl⟩
    | str bytes =>
      obtain ⟨envs, rest, rfl, hrest⟩ := ih
      exact ⟨bytes :: envs, rest, rfl, hrest⟩

theorem scan_ne_none_iff : scan envbuf envp ≠ none ↔
    ∃ (envs : List (List UInt8)) (rest : List UserStr), envp = envs.map .str ++ rest ∧
      TakesZone envbuf envs := by
  constructor
  · intro hscan
    obtain ⟨envs, rest, rfl, hrest⟩ := strs_or_fault envp
    refine ⟨envs, rest, rfl, takesZone_iff.mpr ?_⟩
    rw [scan_append, hrest] at hscan
    cases htaken : takenRequest envbuf envs with
    | none => exact absurd (by rw [htaken]; rfl) hscan
    | some name =>
      rw [htaken, Option.elim_some] at hscan
      obtain ⟨zone, hzone⟩ := Option.ne_none_iff_exists'.mp hscan
      exact ⟨name, rfl, searchZoneByName_iff.mp hzone⟩
  · rintro ⟨envs, rest, rfl, htakes⟩
    obtain ⟨name, htaken, hzone⟩ := takesZone_iff.mp htakes
    have hsearch : searchZoneByName name = some .yaSchedZone := searchZoneByName_iff.mpr hzone
    rw [scan_append, htaken, Option.elim_some, hsearch]
    exact Option.some_ne_none _

-- ---------------------------------------------------------------------------
-- The environments that are read right
-- ---------------------------------------------------------------------------

/-- A request for zone 0. -/
def AsksZone (envs : List (List UInt8)) : Prop := ∃ name, request envs = some name ∧ IsZeros name

/-- Strings that an `int` can count. -/
structure Environ where
  strs : List (List UInt8)
  counted : strs.length < 0x80000000

/-- Nothing looks like a request; or a request comes first, for zone 0 or with
digits that are not 0 modulo 2^32; or what comes first in its place has the same
effect as the request behind it, or as there being none. -/
inductive ReadRight (envs : List (List UInt8)) : Prop
  | none (h : NoLookalike (fun _ => 0) envs) : ReadRight envs
  | request (h : FirstLookalike (fun _ => 0) envs before bytes rest)
      (hbegins : (content bytes).take 17 = zonePrefix)
      (hname : IsZeros ((content bytes).drop 17) ∨
        ¬0x100000000 ∣ digitsValue (leadingDigits ((content bytes).drop 17))) : ReadRight envs
  | bothZero (h : FirstLookalike (fun _ => 0) envs before bytes rest)
      (hbegins : (content bytes).take 17 ≠ zonePrefix)
      (hname : 0x100000000 ∣
        digitsValue (leadingDigits (nameIn (bufferAfter (fun _ => 0) before) bytes)))
      (hrest : AsksZone rest) : ReadRight envs
  | neither (h : FirstLookalike (fun _ => 0) envs before bytes rest)
      (hbegins : (content bytes).take 17 ≠ zonePrefix)
      (hname : ¬0x100000000 ∣
        digitsValue (leadingDigits (nameIn (bufferAfter (fun _ => 0) before) bytes)))
      (hrest : ¬AsksZone rest) : ReadRight envs

theorem zeros_dvd (hzeros : IsZeros name) :
    0x100000000 ∣ digitsValue (leadingDigits name) := by
  have hall : ∀ c ∈ leadingDigits name, c = 0x30 := fun c hc =>
    hzeros.2 c (List.mem_of_mem_take ((List.takeWhile_sublist _).subset hc))
  have hdigits : ∀ c ∈ leadingDigits name, isDigit c := fun c hc => hall c hc ▸ rfl
  rw [(digitsValue_zero hdigits).mpr hall]
  exact Nat.dvd_zero _

section
variable {envs before rest : List (List UInt8)} {bytes : List UInt8}

theorem FirstLookalike.asks (h : FirstLookalike envbuf envs before bytes rest)
    (hbegins : (content bytes).take 17 = zonePrefix) :
    AsksZone envs ↔ IsZeros ((content bytes).drop 17) := by
  have hrequest : Yasched.request envs = some ((content bytes).drop 17) := by
    rw [h.split, h.first.request, Yasched.request, if_pos hbegins]
  simp [AsksZone, hrequest]

theorem FirstLookalike.asks_rest (h : FirstLookalike envbuf envs before bytes rest)
    (hbegins : (content bytes).take 17 ≠ zonePrefix) : AsksZone envs ↔ AsksZone rest := by
  have hrequest : Yasched.request envs = Yasched.request rest := by
    rw [h.split, h.first.request, Yasched.request, if_neg hbegins]
  rw [AsksZone, hrequest, AsksZone]

theorem FirstLookalike.takesZone (h : FirstLookalike envbuf envs before bytes rest) :
    TakesZone envbuf envs ↔
      0x100000000 ∣ digitsValue (leadingDigits (nameIn (bufferAfter envbuf before) bytes)) := by
  rw [takesZone_iff, h.taken]
  simp

theorem nameIn_prefix (hbegins : (content bytes).take 17 = zonePrefix) :
    nameIn envbuf bytes = (content bytes).drop 17 := if_pos (spelled_of_begins hbegins)

theorem NoLookalike.neither (h : NoLookalike envbuf envs) :
    ¬TakesZone envbuf envs ∧ ¬AsksZone envs := by
  have hrequest : Yasched.request envs = Option.none := by
    have hall := h.request []
    rwa [List.append_nil] at hall
  refine ⟨?_, by simp [AsksZone, hrequest]⟩
  rw [takesZone_iff, h.taken]
  simp

theorem readRight_iff (envs : List (List UInt8)) :
    (TakesZone (fun _ => 0) envs ↔ AsksZone envs) ↔ ReadRight envs := by
  constructor
  · intro hsame
    rcases first_or_none (fun _ => 0) envs with hno | ⟨before, bytes, rest, hfirst⟩
    · exact .none hno
    · rw [hfirst.takesZone] at hsame
      by_cases hbegins : (content bytes).take 17 = zonePrefix
      · rw [hfirst.asks hbegins, nameIn_prefix hbegins] at hsame
        exact .request hfirst hbegins (or_iff_not_imp_right.mpr fun h => hsame.mp (not_not.mp h))
      · rw [hfirst.asks_rest hbegins] at hsame
        by_cases hrest : AsksZone rest
        · exact .bothZero hfirst hbegins (hsame.mpr hrest) hrest
        · exact .neither hfirst hbegins (fun h => hrest (hsame.mp h)) hrest
  · rintro (hno | ⟨hfirst, hbegins, hname⟩ | ⟨hfirst, hbegins, hname, hrest⟩ |
      ⟨hfirst, hbegins, hname, hrest⟩)
    · exact iff_of_false hno.neither.1 hno.neither.2
    · rw [hfirst.takesZone, hfirst.asks hbegins, nameIn_prefix hbegins]
      exact ⟨fun h => hname.resolve_right (not_not_intro h), zeros_dvd⟩
    · rw [hfirst.takesZone, hfirst.asks_rest hbegins]
      exact iff_of_true hname hrest
    · rw [hfirst.takesZone, hfirst.asks_rest hbegins]
      exact iff_of_false hname hrest

end

theorem scanExact_iff : ScanExact envs answers ↔ (allocates answers → ReadRight envs) := by
  have hcode : ∀ zone, ReturnsAlone (envs.map .str) answers .newJob (some zone) ↔
      TakesZone (fun _ => 0) envs ∧ allocates answers := by
    intro zone
    have htakes : scan (fun _ => 0) (envs.map .str) = some zone ↔ TakesZone (fun _ => 0) envs :=
      scan_some_iff
    rw [returnsAlone_iff, ← htakes]
    cases hscan : scan (fun _ => 0) (envs.map .str) with
    | none => simp [conclude]
    | some zone' =>
      cases ha : allocates answers <;> simp [conclude, ha]
  have hspec : ∀ zone, requestedZone envs = some zone ↔ AsksZone envs := by
    intro zone
    rw [requestedZone, Option.bind_assoc, Option.bind_eq_some_iff]
    simp only [numeral_zone, AsksZone]
  simp only [ScanExact, hcode, hspec, and_congr_left_iff, ← readRight_iff]
  exact ⟨fun h => h .yaSchedZone, fun h _ => h⟩

-- ---------------------------------------------------------------------------
-- The ids that survive
-- ---------------------------------------------------------------------------

/-- `n` as a submitter writes it. -/
def decimal (n : Nat) : List UInt8 := (Nat.toDigits 10 n).map fun c => UInt8.ofNat c.toNat

theorem isDigit_decimal (hc : c ∈ decimal n) : isDigit c := by
  obtain ⟨d, hd, rfl⟩ := List.mem_map.mp hc
  have hdigit : d.isDigit := Nat.isDigit_of_mem_toDigits (by decide) (by decide) hd
  simp only [Char.isDigit, Bool.and_eq_true, decide_eq_true_eq, ge_iff_le,
    UInt32.le_iff_toNat_le] at hdigit
  obtain ⟨hge, hle⟩ : 48 ≤ d.toNat ∧ d.toNat ≤ 57 := hdigit
  simp only [isDigit, Bool.and_eq_true, decide_eq_true_eq, UInt8.le_iff_toNat_le,
    UInt8.toNat_ofNat']
  rw [Nat.mod_eq_of_lt (by omega)]
  exact ⟨hge, hle⟩

theorem length_decimal (hn : n < 0x10000000000000000) : (decimal n).length ≤ 20 := by
  rw [decimal, List.length_map, Nat.length_toDigits_le_iff (by decide) (by decide)]
  exact Nat.lt_trans hn (by decide)

theorem digitsValue_decimal (n : Nat) : digitsValue (decimal n) = n := by
  have hvalue := Nat.ofDigitChars_ten_toDigits (n := n)
  rw [Nat.ofDigitChars_eq_foldl] at hvalue
  rw [digitsValue, decimal, List.foldl_map]
  refine Eq.trans (List.foldl_ext _ _ _ fun val d hd => ?_) hvalue
  have hdigit : d.isDigit := Nat.isDigit_of_mem_toDigits (by decide) (by decide) hd
  simp only [Char.isDigit, Bool.and_eq_true, decide_eq_true_eq, UInt32.le_iff_toNat_le] at hdigit
  have hle : d.toNat ≤ 57 := hdigit.2
  rw [UInt8.toNat_ofNat', Nat.mod_eq_of_lt (by omega)]
  rfl

theorem leadingDigits_decimal (hn : n < 0x10000000000000000) :
    leadingDigits (decimal n) = decimal n := by
  rw [leadingDigits, List.take_of_length_le (length_decimal hn)]
  exact List.takeWhile_eq_self_iff.mpr fun c hc => isDigit_decimal hc

theorem content_request (n : Nat) :
    content (zonePrefix ++ decimal n) = zonePrefix ++ decimal n := by
  refine List.takeWhile_eq_self_iff.mpr fun c hc => ?_
  rw [decide_eq_true_eq]
  rintro rfl
  rcases List.mem_append.mp hc with h | h
  · revert h
    decide
  · cases isDigit_decimal h

theorem parsedId_request (envbuf : Nat → UInt8) (hn : n < 0x10000000000000000) :
    parsedId (read (strncpyFromUser envbuf (zonePrefix ++ decimal n)) 17 20) =
      if n % 0x100000000 < 0x80000000 then n % 0x100000000
      else n % 0x100000000 + 0xffffffff00000000 := by
  have hbegins : zonePrefix.length = 17 := rfl
  have hlen : 17 ≤ (content (zonePrefix ++ decimal n)).length := by
    rw [content_request, List.length_append]
    omega
  have hatol := read_atol envbuf hlen (by decide)
  have hdrop : (zonePrefix ++ decimal n).drop 17 = decimal n := List.drop_left' hbegins
  rw [content_request, hdrop] at hatol
  have hid := parsedId_eq (decimal n)
  rw [leadingDigits_decimal hn, digitsValue_decimal] at hid
  rw [← hid, parsedId, hatol, parsedId]

/-- The scan finds zone 0 just where it is asked for, exactly for the
environments that are read right, and of the ids those come back that an `int`
holds, or that look like a negative one. -/
theorem scan_accepts_iff (envs : Environ) (answers : List Bool) (envbuf : Nat → UInt8)
    (n : UInt64) :
    (ScanExact envs.strs answers ↔ (allocates answers → ReadRight envs.strs)) ∧
      (parsedId (read (strncpyFromUser envbuf (zonePrefix ++ decimal n.toNat)) 17 20) = n.toNat ↔
        n.toNat < 0x80000000 ∨ 0xffffffff80000000 ≤ n.toNat) := by
  refine ⟨scanExact_iff, ?_⟩
  have hn : n.toNat < 0x10000000000000000 := n.toNat_lt
  rw [parsedId_request envbuf hn]
  split <;> omega

/-- `YA_SCHED_ZONE_ID=4294967296` -/
theorem scan_accepts_fails : ¬ ScanExact [zonePrefix ++ decimal 0x100000000] [true, true] := by
  intro h
  have hcode : ReturnsAlone [.str (zonePrefix ++ decimal 0x100000000)] [true, true] .newJob
      (some .yaSchedZone) := returnsAlone_iff.mpr (by decide)
  have hspec := ((h .yaSchedZone).mp hcode).1
  revert hspec
  decide

end Yasched
