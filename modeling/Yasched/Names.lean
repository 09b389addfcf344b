import Yasched.Client
import Yasched.Grammar
import Yasched.Setup

/-!
# Names

`procfs.c` names the directories of zones and jobs and the files of threads by
their numbers, in buffers of sizes that are not known here. What `yasadmin
listzones` prints are the numbers again, and what an administrator copies from
there and from the name of a job's directory leads back to that job.
-/

namespace Yasched.Names

open Strings Admin Client

-- ---------------------------------------------------------------------------
-- procfs.c
-- ---------------------------------------------------------------------------

/-- `snprintf`: what is printed, as far as it fits in front of the NUL. -/
def snprintf (size : Nat) (text : List UInt8) : List UInt8 := text.take (size - 1)

/-- `job-` -/
def jobDirPrefix : List UInt8 := [0x6a, 0x6f, 0x62, 0x2d]

/-- The name that is printed for a number, into a buffer of `size` bytes of
which all but the last are offered. -/
def entryName (format : List UInt8) (size id : Nat) : List UInt8 :=
  snprintf (size - 1) (format ++ decimal id)

/-- `zone-%lu` -/
def zoneName (size zoneId : Nat) : List UInt8 := entryName zoneDirPrefix size zoneId

/-- `job-%lu` -/
def jobName (size id : Nat) : List UInt8 := entryName jobDirPrefix size id

def threadName (size pid : Nat) : List UInt8 := entryName [] size pid

-- ---------------------------------------------------------------------------
-- Decimal numerals
-- ---------------------------------------------------------------------------

theorem decimal_ne_nil (n : Nat) : decimal n ≠ [] :=
  fun h => Nat.toDigits_ne_nil (List.map_eq_nil_iff.mp h)

theorem decimal_inj (h : decimal m = decimal n) : m = n := by
  rw [← digitsValue_decimal m, h, digitsValue_decimal]

theorem decimal_append (hn : 10 ≤ n) :
    decimal n = decimal (n / 10) ++ [UInt8.ofNat (n % 10).digitChar.toNat] := by
  rw [decimal, Nat.toDigits_of_base_le (by decide) hn, List.map_append]
  rfl

theorem length_decimal_le (hd : 0 < d) : (decimal n).length ≤ d ↔ n < 10 ^ d := by
  rw [decimal, List.length_map, Nat.length_toDigits_le_iff (by decide) hd]

theorem length_decimal_gt (hn : 10 ^ d ≤ n) : d < (decimal n).length := by
  cases d with
  | zero => exact List.length_pos_of_ne_nil (decimal_ne_nil n)
  | succ d => exact Nat.lt_of_not_le fun hle =>
      Nat.not_lt.mpr hn ((length_decimal_le (Nat.succ_pos d)).mp hle)

theorem decimal_first (hn : 0 < n) : (decimal n).head? ≠ some 0x30 := by
  induction n using Nat.strongRecOn with
  | ind n ih =>
    by_cases hlt : n < 10
    · have hall : ∀ n : Fin 10, 0 < n.val → (decimal n.val).head? ≠ some 0x30 := by decide
      exact hall ⟨n, hlt⟩ hn
    · have hten : 10 ≤ n := Nat.le_of_not_lt hlt
      have htenth := ih (n / 10) (Nat.div_lt_self hn (by decide)) (Nat.div_pos hten (by decide))
      rwa [decimal_append hten, List.head?_append_of_ne_nil _ (decimal_ne_nil _)]

theorem isDigit_ten (hc : isDigit c = true) : digit? c = some (c.toNat - 0x30) := by
  have hc : 0x30 ≤ c ∧ c ≤ 0x39 := by simpa [isDigit] using hc
  rw [digit?, if_pos hc]

theorem value_ten {text : List UInt8} (hdigits : ∀ c ∈ text, isDigit c = true) :
    value 10 text = digitsValue text := by
  refine List.foldl_ext _ _ _ fun acc c hc => ?_
  rw [isDigit_ten (hdigits c hc), Nat.mul_comm]
  rfl

theorem isDigit_base (hc : isDigit c = true) : IsDigit 10 c = true := by
  rw [IsDigit, isDigit_ten hc]
  have hc : 0x30 ≤ c ∧ c ≤ 0x39 := by simpa [isDigit] using hc
  have hle : c.toNat ≤ 0x39 := UInt8.le_iff_toNat_le.mp hc.2
  exact decide_eq_true (by omega)

/-- `strtol` takes the numeral in base 10, but for `0`, which is octal. -/
theorem numeral_decimal (n : Nat) : Numeral (decimal n) n := by
  refine ⟨[], _, rfl, fun c hc => absurd hc List.not_mem_nil, .bare ?_⟩
  obtain ⟨c, text, htext⟩ := List.exists_cons_of_ne_nil (decimal_ne_nil n)
  rcases Nat.eq_zero_or_pos n with rfl | hn
  · exact .octal nofun
  · have hdigits : ∀ d ∈ c :: text, isDigit d = true := fun d hd => isDigit_decimal (htext ▸ hd)
    obtain ⟨hfirst, hrest⟩ := List.forall_mem_cons.mp hdigits
    have hzero : c ≠ 0x30 := by
      rintro rfl
      exact decimal_first hn (by rw [htext]; rfl)
    have hvalue : value 10 (c :: text) = n := by
      rw [value_ten hdigits, ← htext, digitsValue_decimal]
    have h : Magnitude (c :: text) (value 10 (c :: text)) :=
      .decimal (isDigit_base hfirst) hzero fun d hd => isDigit_base (hrest d hd)
    rwa [hvalue, ← htext] at h

theorem taken_decimal (hn : n < 0x8000000000000000) : Admin.Taken 0 (decimal n) n := by
  refine ⟨numeral_decimal n, ?_, ?_, ?_, fun _ => rfl, nofun⟩
  · exact Int.le_trans (by decide) (Int.natCast_nonneg n)
  · rw [longMax]
    omega
  · omega

-- ---------------------------------------------------------------------------
-- Names that are cut off
-- ---------------------------------------------------------------------------

theorem decimal_cut (d : Nat) :
    (decimal (10 ^ d)).take d = (decimal (10 ^ d + 1)).take d := by
  cases d with
  | zero => rfl
  | succ d =>
    have hpos : 0 < 10 ^ d := Nat.pow_pos (by decide)
    have hpow : 10 ^ (d + 1) = 10 * 10 ^ d := Nat.pow_succ'
    have hlen : d + 1 ≤ (decimal (10 ^ d)).length := length_decimal_gt (Nat.le_refl _)
    have hcut (n : Nat) (hn : n / 10 = 10 ^ d) (hten : 10 ≤ n) :
        (decimal n).take (d + 1) = (decimal (10 ^ d)).take (d + 1) := by
      rw [decimal_append hten, hn, List.take_append_of_le_length hlen]
    rw [hcut (10 ^ (d + 1)) (by omega) (by omega), hcut (10 ^ (d + 1) + 1) (by omega) (by omega)]

theorem entryName_fits {format : List UInt8} (hsize : format.length + d + 3 ≤ size)
    (hn : n < 10 ^ (d + 1)) : entryName format size n = format ++ decimal n := by
  have hlen : (decimal n).length ≤ d + 1 := (length_decimal_le (Nat.succ_pos d)).mpr hn
  refine List.take_of_length_le ?_
  rw [List.length_append]
  omega

/-- With `d + 1` digits in the greatest number, the names are distinct if all of
them fit, and only then. -/
theorem entryName_distinct_iff {format : List UInt8} (hle : 10 ^ d < bound)
    (hlt : bound < 10 ^ (d + 1)) :
    (∀ m ≤ bound, ∀ n ≤ bound, entryName format size m = entryName format size n → m = n) ↔
      format.length + d + 3 ≤ size := by
  constructor
  · intro h
    refine Nat.le_of_not_lt fun hsize => ?_
    have hsame : entryName format size (10 ^ d) = entryName format size (10 ^ d + 1) := by
      have hcut : size - 1 - 1 - format.length ≤ d := by omega
      have htake (n : Nat) : (decimal n).take (size - 1 - 1 - format.length) =
          ((decimal n).take d).take (size - 1 - 1 - format.length) := by
        rw [List.take_take, Nat.min_eq_left hcut]
      rw [entryName, entryName, snprintf, snprintf, List.take_append, List.take_append, htake,
        htake (10 ^ d + 1), decimal_cut]
    exact absurd (h _ (Nat.le_of_lt hle) _ hle hsame) (by omega)
  · intro hsize m hm n hn hname
    rw [entryName_fits hsize (Nat.lt_of_le_of_lt hm hlt),
      entryName_fits hsize (Nat.lt_of_le_of_lt hn hlt)] at hname
    exact decimal_inj (List.append_cancel_left hname)

/-- For all the numbers that the checks let through, and for all pids. -/
theorem names_distinct_iff (size : Nat) :
    ((∀ m ≤ 9999999, ∀ n ≤ 9999999, zoneName size m = zoneName size n → m = n) ↔ 14 ≤ size) ∧
    ((∀ m ≤ maxJobId, ∀ n ≤ maxJobId, jobName size m = jobName size n → m = n) ↔ 24 ≤ size) ∧
    ((∀ m ≤ 0x7fffffff, ∀ n ≤ 0x7fffffff, threadName size m = threadName size n → m = n) ↔
      12 ≤ size) :=
  ⟨entryName_distinct_iff (d := 6) (by decide) (by decide),
    entryName_distinct_iff (d := 17) (by decide) (by decide),
    entryName_distinct_iff (d := 9) (by decide) (by decide)⟩

-- ---------------------------------------------------------------------------
-- What is listed
-- ---------------------------------------------------------------------------

/-- What `readdir` gives for `/proc/yasched`, in any order. -/
structure Lists (size : Nat) (proc : Finset Path) (dirents : List Dirent) : Prop where
  checked : ∀ zid, [.yasched, .zone zid] ∈ proc → zid ≤ 9999999
  nodup : dirents.Nodup
  mem : ∀ dirp, dirp ∈ dirents ↔ dirp = ⟨true, [0x2e]⟩ ∨ dirp = ⟨true, [0x2e, 0x2e]⟩ ∨
    ∃ zid, [.yasched, .zone zid] ∈ proc ∧ dirp = ⟨true, zoneName size zid⟩

section

variable {size : Nat} {proc : Finset Path} {dirents : List Dirent}

theorem zoneName_fits (hsize : 14 ≤ size) (hid : zid ≤ 9999999) :
    zoneName size zid = zoneDirPrefix ++ decimal zid :=
  entryName_fits (d := 6) hsize (Nat.lt_of_le_of_lt hid (by decide))

theorem jobName_fits {jid : Nat} (hsize : 24 ≤ size) (hid : jid ≤ maxJobId) :
    jobName size jid = jobDirPrefix ++ decimal jid :=
  entryName_fits (d := 17) hsize (Nat.lt_of_le_of_lt hid (by decide))

theorem zoneLine_iff (dirp : Dirent) :
    (if dirp.isDir ∧ strncmp (str dirp.name) (str zoneDirPrefix) 5 = 0 then some (dirp.name.drop 5)
      else none) = some z ↔ dirp = ⟨true, zoneDirPrefix ++ z⟩ := by
  obtain ⟨isDir, name⟩ := dirp
  have hbegins : strncmp (str name) (str zoneDirPrefix) 5 = 0 ↔ zoneDirPrefix <+: name :=
    strncmp_begins (fun _ _ => rfl) (by decide)
  rw [Dirent.mk.injEq]
  split
  case isTrue h =>
    obtain ⟨hdir, rest, rfl⟩ := And.imp_right hbegins.mp h
    have hdrop : (zoneDirPrefix ++ rest).drop 5 = rest := rfl
    rw [Option.some.injEq, hdrop, List.append_cancel_left_eq]
    exact (and_iff_right hdir).symm
  case isFalse h =>
    refine iff_of_false nofun fun hz => h ⟨hz.1, hbegins.mpr ?_⟩
    exact hz.2 ▸ List.prefix_append _ _

theorem Lists.mem_zoneLines (h : Lists size proc dirents) (hsize : 14 ≤ size) :
    z ∈ zoneLines dirents ↔ ∃ zid, [.yasched, .zone zid] ∈ proc ∧ z = decimal zid := by
  refine List.mem_filterMap.trans ?_
  simp only [zoneLine_iff, exists_eq_right, h.mem]
  constructor
  · rintro (hdot | hdot | ⟨zid, hzid, hname⟩)
    · cases congrArg Dirent.name hdot
    · cases congrArg Dirent.name hdot
    · rw [zoneName_fits hsize (h.checked zid hzid)] at hname
      exact ⟨zid, hzid, List.append_cancel_left (congrArg Dirent.name hname)⟩
  · rintro ⟨zid, hzid, rfl⟩
    exact .inr (.inr ⟨zid, hzid, by rw [zoneName_fits hsize (h.checked zid hzid)]⟩)

theorem Lists.nodup_zoneLines (h : Lists size proc dirents) : (zoneLines dirents).Nodup := by
  refine h.nodup.filterMap fun dirp dirp' z hz hz' => ?_
  exact ((zoneLine_iff dirp).mp hz).trans ((zoneLine_iff dirp').mp hz').symm

/-- The lines are the numbers of the zones, each once, and whoever reads one
gets the number: the administrator's options, with no `errno` left over, and the
environment scan. -/
theorem listed_zones_read_back (h : Lists size proc dirents) (hsize : 14 ≤ size) :
    (zoneLines dirents).Nodup ∧
    (∀ z, z ∈ zoneLines dirents ↔ ∃ zid, [.yasched, .zone zid] ∈ proc ∧ z = decimal zid) ∧
    ∀ zid, [.yasched, .zone zid] ∈ proc → argToUlong (decimal zid) 0 = ((zid : Int), 0) ∧
      ∀ envbuf, parsedId (Bytes.read (strncpyFromUser envbuf (Yasched.zonePrefix ++ decimal zid))
        17 20) = zid := by
  refine ⟨h.nodup_zoneLines, fun z => h.mem_zoneLines hsize, fun zid hzid => ⟨?_, fun envbuf => ?_⟩⟩
  · have hle := h.checked zid hzid
    have hlong : zid < 0x8000000000000000 := by omega
    exact argToUlong_of_taken (taken_decimal hlong)
  · have hle := h.checked zid hzid
    have hlong : zid < 0x10000000000000000 := by omega
    have hint : zid % 0x100000000 = zid := Nat.mod_eq_of_lt (by omega)
    rw [parsedId_request envbuf hlong, hint, if_pos (by omega)]

theorem listed_zones_read_back_two :
    let proc : Finset Path := {[.yasched], [.yasched, .zone 0], [.yasched, .zone 42]}
    let dirents : List Dirent := [⟨true, zoneName 16 42⟩, ⟨true, zoneName 16 0⟩,
      ⟨true, [0x2e]⟩, ⟨true, [0x2e, 0x2e]⟩]
    Lists 16 proc dirents ∧ (zoneLines dirents).Nodup ∧ [0x34, 0x32] ∈ zoneLines dirents := by
  intro proc dirents
  have hzid (zid : Nat) : [.yasched, .zone zid] ∈ proc ↔ zid = 0 ∨ zid = 42 := by simp [proc]
  have h : Lists 16 proc dirents := by
    refine ⟨fun zid hmem => ?_, by decide, fun dirp => ?_⟩
    · rcases (hzid zid).mp hmem with rfl | rfl <;> decide
    · simp only [hzid, or_and_right, exists_or, exists_eq_left]
      simp only [dirents, List.mem_cons, List.not_mem_nil, or_false]
      tauto
  obtain ⟨hnodup, hlines, -⟩ := listed_zones_read_back h (by decide)
  exact ⟨h, hnodup, (hlines _).mpr ⟨42, by decide, rfl⟩⟩

end

-- ---------------------------------------------------------------------------
-- What is copied from there
-- ---------------------------------------------------------------------------

/-- The command lines of the usage text, for a zone and a job as they are
written; `name` is how the program is called. -/
def usageLines (name : List UInt8) (op : JobOp) (zid jid : List UInt8) :
    List (List (List UInt8)) := [
  [name, subcmdOf op, [0x2d, 0x7a], zid, [0x2d, 0x6a], jid],
  [name, subcmdOf op, [0x2d, 0x2d, 0x7a, 0x6f, 0x6e, 0x65], zid,
    [0x2d, 0x2d, 0x6a, 0x6f, 0x62], jid]]

theorem options_usage (hargv : argv ∈ usageLines name op zid jid) (posixlyCorrect : Bool) :
    ∃ args, argv = name :: subcmdOf op :: args ∧
      options posixlyCorrect (subcmdOf op :: args) = [⟨0x7a, some zid⟩, ⟨0x6a, some jid⟩] := by
  simp only [usageLines, List.mem_cons, List.not_mem_nil, or_false] at hargv
  rcases hargv with rfl | rfl
  · exact ⟨_, rfl, rfl⟩
  · exact ⟨_, rfl, rfl⟩

theorem asks_usage (posixlyCorrect : Bool) (hm : m < 0x8000000000000000)
    (hn : n < 0x8000000000000000) (hargv : argv ∈ usageLines name op (decimal m) (decimal n)) :
    Asks posixlyCorrect argv op m n := by
  obtain ⟨args, rfl, hoptions⟩ := options_usage hargv posixlyCorrect
  exact asks_of_options hoptions (numeral_decimal m) (numeral_decimal n) (taken_decimal hm).le_max
    (taken_decimal hn).le_max name

theorem tame_usage {process : Process} (herrno : process.errno = 0)
    (hargv : argv ∈ usageLines name op (decimal m) (decimal n)) : process.Tame argv := by
  obtain ⟨args, rfl, hoptions⟩ := options_usage hargv process.posixlyCorrect
  exact tame_of_options herrno hoptions (numeral_decimal m) (numeral_decimal n) name

/-- A command with the numbers from the two names performs its operation on the
job that the directory is for. -/
theorem named_performs (hn : Numbered s) (hb : s.njobs < jidBound) (hp : s.Live p)
    (hid : (s.jobs p).id ≤ maxJobId) (hzone : 14 ≤ zoneSize) (hjob : 24 ≤ jobSize)
    (hopen : process.openErrno = none) (herrno : process.errno = 0)
    (hargv : argv ∈ usageLines name op ((zoneName zoneSize yaSchedZoneId).drop 5)
      ((jobName jobSize (s.jobs p).id).drop 4)) :
    ∃ r, yasadmin process h keep s argv = some r ∧ r.code = 0 ∧
      r.sys = (jobOp op h keep s yaSchedZoneId (s.jobs p).id).2 ∧ r.sys.jobs =
        Function.update s.jobs p { s.jobs p with state := (op.write (s.jobs p).state).1 } := by
  have hbound : maxJobId < 0x8000000000000000 := by decide
  have hzoneId : yaSchedZoneId < 0x8000000000000000 := by decide
  have hchecked : yaSchedZoneId ≤ 9999999 := Nat.zero_le _
  rw [zoneName_fits hzone hchecked, jobName_fits hjob hid] at hargv
  have hasks := asks_usage process.posixlyCorrect hzoneId (Nat.lt_of_le_of_lt hid hbound) hargv
  have hhits := hn.hits (Nat.le_of_lt hb) (control_cases op h keep s yaSchedZoneId (s.jobs p).id)
  obtain ⟨hret, hjobs⟩ := hhits.found p hp rfl rfl
  refine ⟨_, asked_performs (tame_usage herrno hargv) hasks hopen h keep s, ?_, rfl, hjobs⟩
  exact (process.result_eq_zero _).mpr (Int.le_of_eq hret.symm)

/-- In every state of the zone, a command with the numbers from the two names
hits the job that the directory is for, and ends with 0. -/
theorem copied_names_hit (hr : Runs.run (zoneStep h) (init n) es = some s)
    (hb : s.njobs < jidBound) (hp : s.Live p) (hid : (s.jobs p).id ≤ maxJobId)
    (hzone : 14 ≤ zoneSize) (hjob : 24 ≤ jobSize) (hopen : process.openErrno = none)
    (herrno : process.errno = 0) (op : JobOp) (keep : List Nat)
    (hargv : argv ∈ usageLines name op ((zoneName zoneSize yaSchedZoneId).drop 5)
      ((jobName jobSize (s.jobs p).id).drop 4)) :
    ∃ r, yasadmin process h keep s argv = some r ∧ r.code = 0 ∧ r.sys.jobs =
      Function.update s.jobs p { s.jobs p with state := (op.write (s.jobs p).state).1 } := by
  have hn : Numbered s := Runs.invariant (fun _ _ _ hn hs => step_numbered hn hs)
    (init_numbered n) hr
  obtain ⟨r, hmain, hcode, -, hjobs⟩ := named_performs hn hb hp hid hzone hjob hopen herrno hargv
  exact ⟨r, hmain, hcode, hjobs⟩

theorem copied_names_hit_second : ∃ s r, Runs.run (zoneStep .all) (init 2)
      [.newJob 0 .running, .newJob 1 .running] = some s ∧
    yasadmin sampleProcess .all [] s
      [[], subcmdOf .kill, [0x2d, 0x7a], [0x30], [0x2d, 0x6a], [0x31]] = some r ∧ r.code = 0 ∧
        r.sys.jobState 1 = .killed := by
  obtain ⟨s, hs, hnjobs, hfreed, hid⟩ : ∃ s, Runs.run (zoneStep .all) (init 2)
      [.newJob 0 .running, .newJob 1 .running] = some s ∧ s.njobs = 2 ∧ (s.jobs 1).freed = 0 ∧
      (s.jobs 1).id = 1 := ⟨_, rfl, rfl, rfl, rfl⟩
  have hb : s.njobs < jidBound := by
    rw [hnjobs]
    decide
  have hp : s.Live 1 := ⟨by rw [hnjobs]; decide, hfreed⟩
  obtain ⟨r, hmain, hcode, hjobs⟩ := copied_names_hit hs hb hp (by rw [hid]; decide)
    (show 14 ≤ 16 by decide) (show 24 ≤ 32 by decide) (show sampleProcess.openErrno = none from rfl)
    rfl .kill [] (by rw [hid]; exact List.mem_cons_self)
  refine ⟨s, r, hs, hmain, hcode, ?_⟩
  rw [Sys.jobState, hjobs]
  rfl

end Yasched.Names
