import Yasched.Getopt
import Yasched.Ioctl
import Yasched.Strtol

/-!
# The administrator's arguments

`parse_jobop_argv` reads the zone and the job of a request from the options. A
numeral comes as a `long` from `arg_to_ulong`, which says -1 for none and reads
an `errno` that nothing has cleared.
-/

namespace Yasched

open Getopt Strings

namespace Admin

-- ---------------------------------------------------------------------------
-- The parser
-- ---------------------------------------------------------------------------

def einval : Int := 22

/-- The value, and `errno` afterwards. -/
def argToUlong (arg : List UInt8) (errno : Int) : Int × Int :=
  let (lval, endptr, errno) := strtol arg errno
  if (errno ≠ 0 ∧ lval = 0) ∨ (errno = erange ∧ (lval = longMax ∨ lval = longMin)) then
    (-1, errno)
  else if endptr = arg then (-1, errno)
  else if endptr ≠ [] then (-1, errno)
  else (lval, errno)

/-- `help`, `zone` and `job` -/
def jobOpOptions : List LongOption := [
  ⟨[0x68, 0x65, 0x6c, 0x70], false, 0x68⟩,
  ⟨[0x7a, 0x6f, 0x6e, 0x65], true, 0x7a⟩,
  ⟨[0x6a, 0x6f, 0x62], true, 0x6a⟩]

/-- `hz:j:` -/
def jobOpShortOpts : List UInt8 := [0x68, 0x7a, 0x3a, 0x6a, 0x3a]

def zidSet : Nat := 1
def jidSet : Nat := 2
def allSet : Nat := zidSet ||| jidSet

def unsignedLong (lval : Int) : Nat := (lval % 0x10000000000000000).toNat

/-- The process exits where the usage of an operation is asked for. -/
inductive Outcome
  | ret (code : Int) (jop : YaJobOp)
  | exit (code : Int) (usage : BitVec 32)
  deriving DecidableEq, Repr

def parseGots (jop : YaJobOp) (optSet : Nat) (errno : Int) : List Got → Outcome
  | [] => if optSet &&& allSet ≠ allSet then .ret einval jop else .ret 0 jop
  | got :: gots =>
    if got.c = 0x7a then
      match got.optarg with
      | none => .ret einval jop
      | some optarg =>
        let (lval, errno) := argToUlong optarg errno
        if lval = -1 then .ret einval jop
        else parseGots { jop with zoneId := unsignedLong lval } (optSet ||| zidSet) errno gots
    else if got.c = 0x6a then
      match got.optarg with
      | none => .ret einval jop
      | some optarg =>
        let (lval, errno) := argToUlong optarg errno
        if lval = -1 then .ret einval jop
        else parseGots { jop with jobId := unsignedLong lval } (optSet ||| jidSet) errno gots
    else if got.c = 0x68 then .exit 0 jop.op
    else .ret einval jop

/-- The options of a command line; its first element names the operation. -/
def options (posixlyCorrect : Bool) (argv : List (List UInt8)) : List Got :=
  getoptLong jobOpShortOpts jobOpOptions posixlyCorrect (argv.drop 1)

def parseJobopArgv (posixlyCorrect : Bool) (argv : List (List UInt8)) (jop : YaJobOp)
    (errno : Int) : Outcome :=
  parseGots jop 0 errno (options posixlyCorrect argv)

-- ---------------------------------------------------------------------------
-- Which arguments are taken
-- ---------------------------------------------------------------------------

/-- `arg_to_ulong` takes an argument for the value. -/
structure Taken (errno : Int) (arg : List UInt8) (v : Int) : Prop where
  numeral : Numeral arg v
  min_le : longMin ≤ v
  le_max : v ≤ longMax
  ne : v ≠ -1
  zero : v = 0 → errno = 0
  range : errno = erange → v ≠ longMax ∧ v ≠ longMin

theorem strtol_of_numeral (h : Numeral arg v) (hmin : longMin ≤ v) (hmax : v ≤ longMax)
    (errno : Int) : strtol arg errno = (v, [], errno) := by
  rw [strtol, scanLong_eq_some.mpr h]
  dsimp only
  rw [if_neg (Int.not_lt.mpr hmax), if_neg (Int.not_lt.mpr hmin)]

theorem not_numeral_nil (v : Int) : ¬ Numeral [] v := by
  intro h
  have hscan := scanLong_eq_some.mpr h
  rw [show scanLong [] = none from rfl] at hscan
  cases hscan

theorem argToUlong_of_taken (h : Taken errno arg v) : argToUlong arg errno = (v, errno) := by
  have hne : [] ≠ arg := by
    rintro rfl
    exact not_numeral_nil v h.numeral
  rw [argToUlong, strtol_of_numeral h.numeral h.min_le h.le_max]
  dsimp only
  rw [if_neg, if_neg hne, if_neg (not_not.mpr rfl)]
  rintro (⟨hnonzero, hzero⟩ | ⟨hrange, hmax | hmin⟩)
  · exact hnonzero (h.zero hzero)
  · exact (h.range hrange).1 hmax
  · exact (h.range hrange).2 hmin

theorem argToUlong_passed (hstrtol : strtol arg errno = (lval, endptr, errno'))
    (h : (argToUlong arg errno).1 ≠ -1) :
    (lval = 0 → errno' = 0) ∧ (errno' = erange → lval ≠ longMax ∧ lval ≠ longMin) ∧
      endptr = [] ∧ argToUlong arg errno = (lval, errno') := by
  revert h
  rw [argToUlong, hstrtol]
  dsimp only
  split
  case isTrue => exact fun h => absurd rfl h
  case isFalse hguard =>
    obtain ⟨hzero, hrange⟩ := not_or.mp hguard
    split
    case isTrue => exact fun h => absurd rfl h
    case isFalse =>
      split
      case isTrue => exact fun h => absurd rfl h
      case isFalse hend =>
        intro _
        refine ⟨fun h => ?_, fun h => not_or.mp fun hlimit => hrange ⟨h, hlimit⟩,
          not_not.mp hend, rfl⟩
        exact Decidable.byContradiction fun herrno => hzero ⟨herrno, h⟩

theorem taken_of_argToUlong (h : (argToUlong arg errno).1 ≠ -1) :
    Taken errno arg (argToUlong arg errno).1 := by
  cases hscan : scanLong arg with
  | none =>
    have hstrtol : strtol arg errno = (0, arg, errno) := by rw [strtol, hscan]
    -- with no digits the string is either empty or not read to its end
    obtain ⟨-, -, rfl, -⟩ := argToUlong_passed hstrtol h
    refine absurd ?_ h
    rw [argToUlong, hstrtol]
    dsimp only
    rw [if_pos rfl, ite_self]
  | some found =>
    obtain ⟨v, endptr⟩ := found
    rcases Int.lt_or_le longMax v with hmax | hmax
    · have hstrtol : strtol arg errno = (longMax, endptr, erange) := by
        rw [strtol, hscan]
        exact if_pos hmax
      exact absurd rfl ((argToUlong_passed hstrtol h).2.1 rfl).1
    rcases Int.lt_or_le v longMin with hmin | hmin
    · have hstrtol : strtol arg errno = (longMin, endptr, erange) := by
        rw [strtol, hscan]
        exact (if_neg (Int.not_lt.mpr hmax)).trans (if_pos hmin)
      exact absurd rfl ((argToUlong_passed hstrtol h).2.1 rfl).2
    have hstrtol : strtol arg errno = (v, endptr, errno) := by
      rw [strtol, hscan]
      exact (if_neg (Int.not_lt.mpr hmax)).trans (if_neg (Int.not_lt.mpr hmin))
    obtain ⟨hzero, hrange, rfl, heq⟩ := argToUlong_passed hstrtol h
    rw [heq] at h ⊢
    exact ⟨scanLong_eq_some.mp hscan, hmin, hmax, h, hzero, hrange⟩

theorem argToUlong_errno (h : (argToUlong arg errno).1 ≠ -1) :
    (argToUlong arg errno).2 = errno := by
  have htaken := taken_of_argToUlong h
  rw [argToUlong_of_taken htaken]

-- ---------------------------------------------------------------------------
-- A whole command line
-- ---------------------------------------------------------------------------

def args (c : UInt8) (gots : List Got) : List (List UInt8) :=
  gots.filterMap fun got => if got.c = c then got.optarg else none

def zones (gots : List Got) : List (List UInt8) := args 0x7a gots
def jobs (gots : List Got) : List (List UInt8) := args 0x6a gots
def given (gots : List Got) : List (List UInt8) := zones gots ++ jobs gots

def flags (zid jid : Bool) : Nat := (if zid then zidSet else 0) ||| (if jid then jidSet else 0)

def Accepted (errno : Int) (got : Got) : Prop :=
  (got.c = 0x7a ∨ got.c = 0x6a) ∧
    ∃ arg, got.optarg = some arg ∧ (argToUlong arg errno).1 ≠ -1

def lastValue (errno : Int) (before : Nat) (args : List (List UInt8)) : Nat :=
  (args.getLast?.map fun arg => unsignedLong (argToUlong arg errno).1).getD before

theorem flags_zidSet (zid jid : Bool) : flags zid jid ||| zidSet = flags true jid := by
  cases zid <;> cases jid <;> rfl

theorem flags_jidSet (zid jid : Bool) : flags zid jid ||| jidSet = flags zid true := by
  cases zid <;> cases jid <;> rfl

theorem flags_all (zid jid : Bool) :
    flags zid jid &&& allSet = allSet ↔ zid = true ∧ jid = true := by
  cases zid <;> cases jid <;> decide

theorem lastValue_cons (errno : Int) (before : Nat) (arg : List UInt8)
    (args : List (List UInt8)) : lastValue errno before (arg :: args) =
      lastValue errno (unsignedLong (argToUlong arg errno).1) args := by
  rw [lastValue, lastValue, List.getLast?_cons]
  cases args.getLast? <;> rfl

theorem mem_args : arg ∈ args c gots ↔ ∃ got ∈ gots, got.c = c ∧ got.optarg = some arg := by
  refine List.mem_filterMap.trans (exists_congr fun got => and_congr_right fun _ => ?_)
  split
  case isTrue hc => exact (and_iff_right hc).symm
  case isFalse hc => exact iff_of_false nofun fun h => hc h.1

theorem mem_given : arg ∈ given gots ↔
    ∃ got ∈ gots, (got.c = 0x7a ∨ got.c = 0x6a) ∧ got.optarg = some arg := by
  rw [given, List.mem_append, zones, jobs, mem_args, mem_args, ← exists_or]
  refine exists_congr fun got => ?_
  rw [← and_or_left, ← or_and_right]

section

variable {jop : YaJobOp} {errno : Int} {got : Got}

theorem parseGots_zone (hc : got.c = 0x7a) (harg : got.optarg = some arg)
    (h : (argToUlong arg errno).1 ≠ -1) (optSet : Nat) (gots : List Got) :
    parseGots jop optSet errno (got :: gots) =
      parseGots { jop with zoneId := unsignedLong (argToUlong arg errno).1 } (optSet ||| zidSet)
        errno gots := by
  rw [parseGots, if_pos hc, harg]
  dsimp only
  rw [if_neg h, argToUlong_errno h]

theorem parseGots_job (hc : got.c = 0x6a) (harg : got.optarg = some arg)
    (h : (argToUlong arg errno).1 ≠ -1) (optSet : Nat) (gots : List Got) :
    parseGots jop optSet errno (got :: gots) =
      parseGots { jop with jobId := unsignedLong (argToUlong arg errno).1 } (optSet ||| jidSet)
        errno gots := by
  rw [parseGots, if_neg (by rw [hc]; decide), if_pos hc, harg]
  dsimp only
  rw [if_neg h, argToUlong_errno h]

theorem parseGots_refused (h : ¬ Accepted errno got) (optSet : Nat) (gots : List Got) :
    parseGots jop optSet errno (got :: gots) =
      if got.c = 0x68 then .exit 0 jop.op else .ret einval jop := by
  rw [parseGots]
  split
  case isTrue hz =>
    rw [if_neg (by rw [hz]; decide)]
    cases harg : got.optarg with
    | none => rfl
    | some arg => exact if_pos (not_not.mp fun hne => h ⟨.inl hz, arg, harg, hne⟩)
  case isFalse =>
    split
    case isTrue hj =>
      rw [if_neg (by rw [hj]; decide)]
      cases harg : got.optarg with
      | none => rfl
      | some arg => exact if_pos (not_not.mp fun hne => h ⟨.inr hj, arg, harg, hne⟩)
    case isFalse => rfl

end

/-- By induction on the options; the flags and what has been stored go along. -/
theorem parseGots_iff {jop jop' : YaJobOp} {errno : Int} {zid jid : Bool} {gots : List Got} :
    parseGots jop (flags zid jid) errno gots = .ret 0 jop' ↔
      (∀ got ∈ gots, Accepted errno got) ∧ (zid = true ∨ zones gots ≠ []) ∧
        (jid = true ∨ jobs gots ≠ []) ∧
        jop' = { jop with
          zoneId := lastValue errno jop.zoneId (zones gots)
          jobId := lastValue errno jop.jobId (jobs gots) } := by
  induction gots generalizing jop zid jid with
  | nil =>
    have hends : parseGots jop (flags zid jid) errno [] =
        if flags zid jid &&& allSet ≠ allSet then .ret einval jop else .ret 0 jop := rfl
    rw [hends]
    constructor
    · intro h
      split at h
      case isTrue => cases h
      case isFalse hall =>
        obtain ⟨hzid, hjid⟩ := (flags_all zid jid).mp (not_not.mp hall)
        cases h
        exact ⟨fun _ h => absurd h List.not_mem_nil, .inl hzid, .inl hjid, rfl⟩
    · rintro ⟨-, hzid, hjid, rfl⟩
      have hzid : zid = true := hzid.resolve_right fun h => h rfl
      have hjid : jid = true := hjid.resolve_right fun h => h rfl
      have hall : flags zid jid &&& allSet = allSet := (flags_all zid jid).mpr ⟨hzid, hjid⟩
      exact if_neg (not_not.mpr hall)
  | cons got gots ih =>
    by_cases hgot : Accepted errno got
    case neg =>
      rw [parseGots_refused hgot]
      refine iff_of_false ?_ fun h => hgot (h.1 got List.mem_cons_self)
      split
      · exact nofun
      · exact fun h => absurd (Outcome.ret.inj h).1 (by decide)
    case pos =>
      rw [List.forall_mem_cons]
      obtain ⟨hz | hj, arg, harg, hne⟩ := id hgot
      · have hzones : zones (got :: gots) = arg :: zones gots := by
          simp [zones, args, hz, harg]
        have hjobs : jobs (got :: gots) = jobs gots := by simp [jobs, args, hz]
        rw [parseGots_zone hz harg hne, flags_zidSet, ih, hzones, hjobs, lastValue_cons]
        simp [hgot]
      · have hzones : zones (got :: gots) = zones gots := by simp [zones, args, hj]
        have hjobs : jobs (got :: gots) = arg :: jobs gots := by
          simp [jobs, args, hj, harg]
        rw [parseGots_job hj harg hne, flags_jidSet, ih, hzones, hjobs, lastValue_cons]
        simp [hgot]

theorem parseGots_congr {errno errno' : Int} {gots : List Got}
    (h : ∀ got ∈ gots, ∀ arg, got.c = 0x7a ∨ got.c = 0x6a → got.optarg = some arg →
      (argToUlong arg errno).1 = (argToUlong arg errno').1) (jop : YaJobOp) (optSet : Nat) :
    parseGots jop optSet errno gots = parseGots jop optSet errno' gots := by
  induction gots generalizing jop optSet with
  | nil => rfl
  | cons got gots ih =>
    obtain ⟨hgot, hgots⟩ := List.forall_mem_cons.mp h
    by_cases haccepted : Accepted errno got
    case pos =>
      obtain ⟨hc, arg, harg, hne⟩ := haccepted
      have hvalue := hgot arg hc harg
      have hne' : (argToUlong arg errno').1 ≠ -1 := hvalue ▸ hne
      rcases hc with hz | hj
      · rw [parseGots_zone hz harg hne, parseGots_zone hz harg hne', hvalue, ih hgots]
      · rw [parseGots_job hj harg hne, parseGots_job hj harg hne', hvalue, ih hgots]
    case neg =>
      have hrefused : ¬ Accepted errno' got := by
        rintro ⟨hc, arg, harg, hne⟩
        exact haccepted ⟨hc, arg, harg, (hgot arg hc harg).symm ▸ hne⟩
      rw [parseGots_refused haccepted, parseGots_refused hrefused]

-- ---------------------------------------------------------------------------
-- What the arguments mean
-- ---------------------------------------------------------------------------

/-- Nothing but a zone and a job is given, at least one of each, and every one
as a numeral in the range of a `long` and not negative. -/
structure Meant (gots : List Got) : Prop where
  plain : ∀ got ∈ gots, got ≠ .error ∧ got.c ≠ 0x68
  zone : zones gots ≠ []
  job : jobs gots ≠ []
  numerals : ∀ arg ∈ given gots, ∃ v, Numeral arg v ∧ 0 ≤ v ∧ v ≤ longMax

/-- An argument that no stale `errno` and no sign gets in the way of. -/
def Tame (errno : Int) (arg : List UInt8) : Prop :=
  ∀ v, Numeral arg v → (v < -1 → v < longMin) ∧ (v = 0 → errno = 0) ∧
    (v = longMax → errno ≠ erange)

theorem tame_of_numeral {n : Nat} (h : Numeral arg n) : Tame 0 arg := by
  intro v hv
  obtain rfl := hv.unique h
  exact ⟨fun hneg => by omega, fun _ => rfl, fun _ => by decide⟩

theorem taken_of_tame (htame : Tame errno arg) (h : Numeral arg v) (hmin : 0 ≤ v)
    (hmax : v ≤ longMax) : Taken errno arg v := by
  obtain ⟨-, hzero, hrange⟩ := htame v h
  refine ⟨h, Int.le_trans (by decide) hmin, hmax, ?_, hzero, fun herange => ⟨?_, ?_⟩⟩
  · rintro rfl
    exact absurd hmin (by decide)
  · exact fun hlimit => hrange hlimit herange
  · rintro rfl
    exact absurd hmin (by decide)

theorem argToUlong_tame (htame : Tame errno arg) : (argToUlong arg errno).1 ≠ -1 ↔
    ∃ v, Numeral arg v ∧ 0 ≤ v ∧ v ≤ longMax := by
  constructor
  · intro h
    have htaken := taken_of_argToUlong h
    refine ⟨_, htaken.numeral, ?_, htaken.le_max⟩
    have hsign := (htame _ htaken.numeral).1
    have hmin := htaken.min_le
    omega
  · rintro ⟨v, h, hmin, hmax⟩
    have htaken := taken_of_tame htame h hmin hmax
    rw [argToUlong_of_taken htaken]
    exact htaken.ne

theorem argToUlong_tame_congr (htame : Tame errno arg) (htame' : Tame errno' arg) :
    (argToUlong arg errno).1 = (argToUlong arg errno').1 := by
  by_cases h : ∃ v, Numeral arg v ∧ 0 ≤ v ∧ v ≤ longMax
  case pos =>
    obtain ⟨v, h, hmin, hmax⟩ := h
    rw [argToUlong_of_taken (taken_of_tame htame h hmin hmax),
      argToUlong_of_taken (taken_of_tame htame' h hmin hmax)]
  case neg =>
    rw [not_not.mp ((argToUlong_tame htame).not.mpr h),
      not_not.mp ((argToUlong_tame htame').not.mpr h)]

theorem agree : Agree jobOpShortOpts jobOpOptions := by
  unfold Agree
  decide

theorem hasArg_jobOp (h : hasArg? jobOpShortOpts c = some needs) :
    c = 0x68 ∨ ((c = 0x7a ∨ c = 0x6a) ∧ needs = true) := by
  by_cases hh : c = 0x68
  · exact .inl hh
  by_cases hz : c = 0x7a
  · subst hz
    exact .inr ⟨.inl rfl, (Option.some.inj h).symm⟩
  by_cases hj : c = 0x6a
  · subst hj
    exact .inr ⟨.inr rfl, (Option.some.inj h).symm⟩
  unfold hasArg? at h
  split at h
  case isTrue => cases h
  case isFalse hcolon =>
    have hnone : jobOpShortOpts.dropWhile (· ≠ c) = [] := by
      refine List.dropWhile_eq_nil_iff.mpr fun x hx => decide_eq_true ?_
      rintro rfl
      simp only [jobOpShortOpts, List.mem_cons, List.not_mem_nil, or_false] at hx
      rcases hx with rfl | rfl | rfl | rfl | rfl
      · exact hh rfl
      · exact hz rfl
      · exact hcolon (.inl rfl)
      · exact hj rfl
      · exact hcolon (.inl rfl)
    rw [hnone] at h
    cases h

/-- No option is unheard of, and none lacks the argument it needs. -/
theorem options_cases (hgot : got ∈ options posixlyCorrect argv) :
    got = .error ∨ got.c = 0x68 ∨
      ((got.c = 0x7a ∨ got.c = 0x6a) ∧ ∃ arg, got.optarg = some arg) := by
  rcases getoptLong_known agree posixlyCorrect _ got hgot with herror | hknown
  · exact .inl herror
  rcases hasArg_jobOp hknown with hh | ⟨hc, hsome⟩
  · exact .inr (.inl hh)
  · exact .inr (.inr ⟨hc, Option.isSome_iff_exists.mp hsome⟩)

theorem accepted_given (h : ∀ got ∈ gots, Accepted errno got) :
    ∀ arg ∈ given gots, (argToUlong arg errno).1 ≠ -1 := by
  intro arg harg
  obtain ⟨got, hgot, -, hsome⟩ := mem_given.mp harg
  obtain ⟨-, arg', hsome', hne⟩ := h got hgot
  obtain rfl := Option.some.inj (hsome.symm.trans hsome')
  exact hne

theorem accepted_iff (hgots : ∀ got ∈ gots, got = .error ∨ got.c = 0x68 ∨
      ((got.c = 0x7a ∨ got.c = 0x6a) ∧ ∃ arg, got.optarg = some arg))
    (htame : ∀ arg ∈ given gots, Tame errno arg) : (∀ got ∈ gots, Accepted errno got) ↔
      (∀ got ∈ gots, got ≠ .error ∧ got.c ≠ 0x68) ∧
        ∀ arg ∈ given gots, ∃ v, Numeral arg v ∧ 0 ≤ v ∧ v ≤ longMax := by
  constructor
  · intro h
    refine ⟨fun got hgot => ⟨?_, ?_⟩, fun arg harg => ?_⟩
    · rintro rfl
      exact absurd (h _ hgot).1 (by decide)
    · intro hh
      have hc := (h got hgot).1
      rw [hh] at hc
      exact absurd hc (by decide)
    · exact (argToUlong_tame (htame arg harg)).mp (accepted_given h arg harg)
  · rintro ⟨hplain, hnumerals⟩ got hgot
    obtain ⟨herror, hh⟩ := hplain got hgot
    obtain ⟨hc, arg, hsome⟩ := ((hgots got hgot).resolve_left herror).resolve_left hh
    have harg : arg ∈ given gots := mem_given.mpr ⟨got, hgot, hc, hsome⟩
    exact ⟨hc, arg, hsome, (argToUlong_tame (htame arg harg)).mpr (hnumerals arg harg)⟩

/-- The ids are those of the last zone and the last job. -/
structure LastGiven (gots : List Got) (jop : YaJobOp) : Prop where
  zone : ∃ arg, (zones gots).getLast? = some arg ∧ Numeral arg jop.zoneId
  job : ∃ arg, (jobs gots).getLast? = some arg ∧ Numeral arg jop.jobId

theorem LastGiven.unique (h : LastGiven gots jop) (h' : LastGiven gots jop') :
    jop.zoneId = jop'.zoneId ∧ jop.jobId = jop'.jobId := by
  obtain ⟨z, hz, hzone⟩ := h.zone
  obtain ⟨z', hz', hzone'⟩ := h'.zone
  obtain ⟨j, hj, hjob⟩ := h.job
  obtain ⟨j', hj', hjob'⟩ := h'.job
  obtain rfl := Option.some.inj (hz.symm.trans hz')
  obtain rfl := Option.some.inj (hj.symm.trans hj')
  exact ⟨Int.ofNat.inj (hzone.unique hzone'), Int.ofNat.inj (hjob.unique hjob')⟩

theorem unsignedLong_eq (hmin : 0 ≤ v) (hmax : v ≤ longMax) : (unsignedLong v : Int) = v := by
  have hlt : v < 0x10000000000000000 := Int.lt_of_le_of_lt hmax (by decide)
  rw [unsignedLong, Int.emod_eq_of_lt hmin hlt, Int.toNat_of_nonneg hmin]

theorem lastValue_taken {args : List (List UInt8)} (hne : args ≠ [])
    (h : ∀ arg ∈ args, (argToUlong arg errno).1 ≠ -1) (before : Nat) :
    ∃ arg ∈ args, ∃ v, args.getLast? = some arg ∧ Taken errno arg v ∧
      lastValue errno before args = unsignedLong v := by
  have hlast : args.getLast? = some (args.getLast hne) := List.getLast?_eq_some_getLast hne
  have hmem : args.getLast hne ∈ args := List.getLast_mem hne
  refine ⟨_, hmem, _, hlast, taken_of_argToUlong (h _ hmem), ?_⟩
  rw [lastValue, hlast, Option.map_some, Option.getD_some]

theorem lastValue_numeral {args : List (List UInt8)} (hne : args ≠ [])
    (htame : ∀ arg ∈ args, Tame errno arg)
    (h : ∀ arg ∈ args, ∃ v, Numeral arg v ∧ 0 ≤ v ∧ v ≤ longMax) (before : Nat) :
    ∃ arg, args.getLast? = some arg ∧ Numeral arg (lastValue errno before args) := by
  obtain ⟨arg, hmem, v, hlast, htaken, hvalue⟩ := lastValue_taken hne
    (fun arg harg => (argToUlong_tame (htame arg harg)).mpr (h arg harg)) before
  obtain ⟨v', hnumeral, hmin, hmax⟩ := h arg hmem
  obtain rfl := htaken.numeral.unique hnumeral
  refine ⟨arg, hlast, ?_⟩
  rw [hvalue, unsignedLong_eq hmin hmax]
  exact hnumeral

section

variable (posixlyCorrect : Bool) (jop : YaJobOp)

/-- Both ids written in base 16, with the prefix. -/
def argvOf (m n : Nat) : List (List UInt8) :=
  [[0x6b, 0x69, 0x6c, 0x6c], [0x2d, 0x7a], 0x30 :: 0x78 :: digits 16 16 m, [0x2d, 0x6a],
    0x30 :: 0x78 :: digits 16 16 n]

theorem taken_hex (hn : n < 0x8000000000000000) :
    Taken 0 (0x30 :: 0x78 :: digits 16 16 n) n := by
  refine ⟨numeral_hex (Nat.lt_trans hn (by decide)), ?_, ?_, ?_, fun _ => rfl, nofun⟩
  · exact Int.le_trans (by decide) (Int.natCast_nonneg n)
  · rw [longMax]
    omega
  · omega

theorem parseJobopArgv_argvOf (hm : m < 0x8000000000000000) (hn : n < 0x8000000000000000) :
    parseJobopArgv posixlyCorrect (argvOf m n) jop 0 =
      .ret 0 { jop with zoneId := m, jobId := n } := by
  have hvalue (k : Nat) (hk : k < 0x8000000000000000) :
      unsignedLong (argToUlong (0x30 :: 0x78 :: digits 16 16 k) 0).1 = k := by
    refine Int.ofNat.inj ?_
    rw [argToUlong_of_taken (taken_hex hk)]
    exact unsignedLong_eq (Int.natCast_nonneg k) (taken_hex hk).le_max
  have hoptions : options posixlyCorrect (argvOf m n) =
      [⟨0x7a, some (0x30 :: 0x78 :: digits 16 16 m)⟩,
        ⟨0x6a, some (0x30 :: 0x78 :: digits 16 16 n)⟩] := rfl
  have htaken (k : Nat) (hk : k < 0x8000000000000000) :
      (argToUlong (0x30 :: 0x78 :: digits 16 16 k) 0).1 ≠ -1 := by
    rw [argToUlong_of_taken (taken_hex hk)]
    exact (taken_hex hk).ne
  rw [parseJobopArgv, hoptions, parseGots_zone rfl rfl (htaken m hm),
    parseGots_job rfl rfl (htaken n hn), hvalue m hm, hvalue n hn]
  rfl

variable {posixlyCorrect jop} {argv : List (List UInt8)} {errno errno' : Int}

/-- With tame arguments a request is accepted where it is meant, with the ids
that come last. -/
theorem parseJobopArgv_iff (htame : ∀ arg ∈ given (options posixlyCorrect argv), Tame errno arg)
    (jop' : YaJobOp) : parseJobopArgv posixlyCorrect argv jop errno = .ret 0 jop' ↔
      Meant (options posixlyCorrect argv) ∧ jop' = { jop with
        zoneId := lastValue errno jop.zoneId (zones (options posixlyCorrect argv))
        jobId := lastValue errno jop.jobId (jobs (options posixlyCorrect argv)) } := by
  have hloop : parseGots jop (flags false false) errno (options posixlyCorrect argv) =
      .ret 0 jop' ↔ _ := parseGots_iff
  rw [accepted_iff (fun got hgot => options_cases hgot) htame] at hloop
  refine hloop.trans ⟨?_, ?_⟩
  · rintro ⟨⟨hplain, hnumerals⟩, hzone, hjob, hjop⟩
    exact ⟨⟨hplain, hzone.resolve_left nofun, hjob.resolve_left nofun, hnumerals⟩, hjop⟩
  · rintro ⟨hmeant, hjop⟩
    exact ⟨⟨hmeant.plain, hmeant.numerals⟩, .inr hmeant.zone, .inr hmeant.job, hjop⟩

theorem Meant.lastGiven (hmeant : Meant gots) (htame : ∀ arg ∈ given gots, Tame errno arg)
    (jop : YaJobOp) : LastGiven gots { jop with
      zoneId := lastValue errno jop.zoneId (zones gots)
      jobId := lastValue errno jop.jobId (jobs gots) } := by
  obtain ⟨hzones, hjobs⟩ := List.forall_mem_append.mp htame
  obtain ⟨hzone, hjob⟩ := List.forall_mem_append.mp hmeant.numerals
  exact ⟨lastValue_numeral hmeant.zone hzones hzone _, lastValue_numeral hmeant.job hjobs hjob _⟩

theorem parseJobopArgv_congr
    (htame : ∀ arg ∈ given (options posixlyCorrect argv), Tame errno arg)
    (htame' : ∀ arg ∈ given (options posixlyCorrect argv), Tame errno' arg) :
    parseJobopArgv posixlyCorrect argv jop errno =
      parseJobopArgv posixlyCorrect argv jop errno' := by
  refine parseGots_congr (fun got hgot arg hc harg => ?_) jop 0
  have hgiven : arg ∈ given (options posixlyCorrect argv) :=
    mem_given.mpr ⟨got, hgot, hc, harg⟩
  exact argToUlong_tame_congr (htame arg hgiven) (htame' arg hgiven)

end

-- ---------------------------------------------------------------------------
-- Main theorem
-- ---------------------------------------------------------------------------

theorem parseJobopArgv_meant (posixlyCorrect : Bool) (jop : YaJobOp) :
    (∀ argv errno, (∀ arg ∈ given (options posixlyCorrect argv), Tame errno arg) →
      ((∃ jop', parseJobopArgv posixlyCorrect argv jop errno = .ret 0 jop') ↔
        Meant (options posixlyCorrect argv)) ∧
      (∀ jop', parseJobopArgv posixlyCorrect argv jop errno = .ret 0 jop' →
        LastGiven (options posixlyCorrect argv) jop') ∧
      ∀ errno', (∀ arg ∈ given (options posixlyCorrect argv), Tame errno' arg) →
        parseJobopArgv posixlyCorrect argv jop errno' =
          parseJobopArgv posixlyCorrect argv jop errno) ∧
    ∀ m < 0x8000000000000000, ∀ n < 0x8000000000000000, ∃ argv,
      parseJobopArgv posixlyCorrect argv jop 0 =
        .ret 0 { jop with zoneId := m, jobId := n } := by
  constructor
  · intro argv errno htame
    refine ⟨⟨?_, ?_⟩, ?_, fun errno' htame' => parseJobopArgv_congr htame' htame⟩
    · rintro ⟨jop', h⟩
      exact ((parseJobopArgv_iff htame jop').mp h).1
    · exact fun hmeant => ⟨_, (parseJobopArgv_iff htame _).mpr ⟨hmeant, rfl⟩⟩
    · intro jop' h
      obtain ⟨hmeant, rfl⟩ := (parseJobopArgv_iff htame jop').mp h
      exact hmeant.lastGiven htame jop
  · intro m hm n hn
    exact ⟨argvOf m n, parseJobopArgv_argvOf posixlyCorrect jop hm hn⟩

/-- `kill -z 0 -j 0`, and what is added to it. -/
def sampleArgv (more : List (List UInt8)) : List (List UInt8) :=
  [[0x6b, 0x69, 0x6c, 0x6c], [0x2d, 0x7a], [0x30], [0x2d, 0x6a], [0x30]] ++ more

def sampleJop : YaJobOp := ⟨0, 0, 0⟩

theorem parseJobopArgv_meant_kill :
    ∃ jop', parseJobopArgv false (sampleArgv []) sampleJop 0 = .ret 0 jop' := by
  have hgiven : given (options false (sampleArgv [])) = [[0x30], [0x30]] := rfl
  have hnumeral : Numeral [0x30] 0 := scanLong_eq_some.mp rfl
  have hzero : Tame 0 [0x30] := tame_of_numeral (n := 0) hnumeral
  have hid : ∃ v, Numeral [0x30] v ∧ 0 ≤ v ∧ v ≤ longMax := ⟨0, hnumeral, by decide, by decide⟩
  refine ((parseJobopArgv_meant false sampleJop).1 (sampleArgv []) 0 ?_).1.mpr
    ⟨by decide, by decide, by decide, ?_⟩
  · rw [hgiven]
    exact List.forall_mem_cons.mpr ⟨hzero, List.forall_mem_singleton.mpr hzero⟩
  · rw [hgiven]
    exact List.forall_mem_cons.mpr ⟨hid, List.forall_mem_singleton.mpr hid⟩

theorem unsignedLong_ne (h : Taken errno arg v) : unsignedLong v ≠ 0xffffffffffffffff := by
  have hmin := h.min_le
  have hmax := h.le_max
  have hne := h.ne
  rw [longMin] at hmin
  rw [longMax] at hmax
  rw [unsignedLong]
  omega

theorem jobId_ne (h : parseJobopArgv posixlyCorrect argv jop errno = .ret 0 jop') :
    jop'.jobId ≠ 0xffffffffffffffff := by
  have hloop : parseGots jop (flags false false) errno (options posixlyCorrect argv) =
      .ret 0 jop' := h
  obtain ⟨haccepted, -, hjob, rfl⟩ := parseGots_iff.mp hloop
  obtain ⟨-, hjobs⟩ := List.forall_mem_append.mp (accepted_given haccepted)
  obtain ⟨_, -, v, -, htaken, hvalue⟩ := lastValue_taken (hjob.resolve_left nofun) hjobs jop.jobId
  dsimp only
  rw [hvalue]
  exact unsignedLong_ne htaken

/-- An unknown option, a negative number, an `errno` that was left behind and
the greatest id. -/
theorem parseJobopArgv_meant_fails :
    (¬ ∀ posixlyCorrect argv jop errno,
      (∃ jop', parseJobopArgv posixlyCorrect argv jop errno = .ret 0 jop') ↔
        zones (options posixlyCorrect argv) ≠ [] ∧ jobs (options posixlyCorrect argv) ≠ [] ∧
          ∀ arg ∈ given (options posixlyCorrect argv), ∃ v, Numeral arg v ∧ 0 ≤ v) ∧
    (¬ ∀ posixlyCorrect argv jop errno jop',
      parseJobopArgv posixlyCorrect argv jop errno = .ret 0 jop' →
        ∀ arg ∈ given (options posixlyCorrect argv), ∃ v, Numeral arg v ∧ 0 ≤ v) ∧
    (¬ ∀ posixlyCorrect argv jop errno errno',
      parseJobopArgv posixlyCorrect argv jop errno =
        parseJobopArgv posixlyCorrect argv jop errno') ∧
    ¬ ∀ n < 0x10000000000000000, ∃ posixlyCorrect argv jop errno jop',
      parseJobopArgv posixlyCorrect argv jop errno = .ret 0 jop' ∧ jop'.jobId = n := by
  refine ⟨fun h => ?_, fun h => ?_, fun h => ?_, fun h => ?_⟩
  · have hzero : Numeral [0x30] 0 := scanLong_eq_some.mp rfl
    have hnumerals : ∀ arg ∈ [[0x30], [0x30]], ∃ v, Numeral arg v ∧ 0 ≤ v := by
      intro arg harg
      simp only [List.mem_cons, List.not_mem_nil, or_false, or_self] at harg
      rw [harg]
      exact ⟨0, hzero, Int.le_refl 0⟩
    obtain ⟨jop', hret⟩ := (h false (sampleArgv [[0x2d, 0x78]]) sampleJop 0).mpr
      ⟨by decide, by decide, hnumerals⟩
    have herror : parseJobopArgv false (sampleArgv [[0x2d, 0x78]]) sampleJop 0 =
      .ret einval sampleJop := by decide
    exact absurd (Outcome.ret.inj (herror.symm.trans hret)).1 (by decide)
  · have htwo : Numeral [0x2d, 0x32] (-2) := scanLong_eq_some.mp rfl
    have hret : parseJobopArgv false (sampleArgv [[0x2d, 0x6a], [0x2d, 0x32]]) sampleJop 0 =
      .ret 0 { sampleJop with jobId := 0xfffffffffffffffe } := by decide
    obtain ⟨v, hnumeral, hmin⟩ := h _ _ _ _ _ hret [0x2d, 0x32] (by decide)
    rw [hnumeral.unique htwo] at hmin
    exact absurd hmin (by decide)
  · exact absurd (h false (sampleArgv []) sampleJop 0 4) (by decide)
  · obtain ⟨posixlyCorrect, argv, jop, errno, jop', hret, hid⟩ :=
      h 0xffffffffffffffff (by decide)
    exact jobId_ne hret hid

end Admin

end Yasched
