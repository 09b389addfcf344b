import Yasched.Admin
import Yasched.Lookup
import Yasched.Zone

/-!
# yasadmin

The command line client from `main` on: the subcommand is looked up in a table
that is sorted for every search, its arguments are parsed, and a job operation
goes to the control device as an `ioctl`. The kernel's side of it is
`yacdevIoctl`.

-/

namespace Yasched.Client

open Getopt Admin Lookup Strings

-- ---------------------------------------------------------------------------
-- opts.c
-- ---------------------------------------------------------------------------

/-- `subcmd_map_t` -/
structure Subcmd (φ : Type u) where
  str : List UInt8
  func : φ
  deriving DecidableEq, Repr

def compSubcmd (s1 s2 : Subcmd φ) : Int := strcmp s1.str s2.str

/-- `func` is what is in the function pointer of `key`, which nobody sets. -/
def searchSubcmd (func : φ) (subcmds : List (Subcmd φ)) (str : List UInt8) : Option (Subcmd φ) :=
  bsearch (compSubcmd ⟨str, func⟩) (qsort compSubcmd subcmds)

theorem compSubcmd_compares : Compares (compSubcmd (φ := φ)) := strcmp_compares.on Subcmd.str

section

variable (func : φ) (subcmds : List (Subcmd φ)) (str : List UInt8)

theorem compSubcmd_eq_zero (p : Subcmd φ) : compSubcmd ⟨str, func⟩ p = 0 ↔ p.str = str :=
  (strcmp_eq_zero str p.str).trans eq_comm

theorem searchSubcmd_some (hp : searchSubcmd func subcmds str = some p) :
    p ∈ subcmds ∧ p.str = str := by
  obtain ⟨hmem, hzero⟩ := (bsearch_qsort compSubcmd_compares ⟨str, func⟩ subcmds).1 p hp
  exact ⟨hmem, (compSubcmd_eq_zero func str p).mp hzero⟩

theorem searchSubcmd_none :
    searchSubcmd func subcmds str = none ↔ ∀ p ∈ subcmds, p.str ≠ str :=
  (bsearch_qsort compSubcmd_compares ⟨str, func⟩ subcmds).2.trans
    (forall₂_congr fun p _ => (compSubcmd_eq_zero func str p).not)

theorem searchSubcmd_find (hnodup : (subcmds.map Subcmd.str).Nodup) :
    searchSubcmd func subcmds str = subcmds.find? (·.str = str) := by
  cases hp : searchSubcmd func subcmds str with
  | none =>
    refine (List.find?_eq_none.mpr fun p hmem => ?_).symm
    simpa using (searchSubcmd_none func subcmds str).mp hp p hmem
  | some p =>
    obtain ⟨hmem, hstr⟩ := searchSubcmd_some func subcmds str hp
    cases hq : subcmds.find? (·.str = str) with
    | none => exact absurd hstr (by simpa using List.find?_eq_none.mp hq p hmem)
    | some q =>
      have hqstr : q.str = str := by simpa using List.find?_some hq
      have hsame := List.inj_on_of_nodup_map hnodup hmem (List.mem_of_find?_eq_some hq)
        (hstr.trans hqstr.symm)
      rw [hsame]

/-- Whatever the order of the table, the entry with the name is found if there
is one, and nothing else is. -/
theorem searchSubcmd_exact :
    (∀ p, searchSubcmd func subcmds str = some p → p ∈ subcmds ∧ p.str = str) ∧
    (searchSubcmd func subcmds str = none ↔ ∀ p ∈ subcmds, p.str ≠ str) ∧
    ((subcmds.map Subcmd.str).Nodup →
      searchSubcmd func subcmds str = subcmds.find? (·.str = str)) :=
  ⟨fun _ => searchSubcmd_some func subcmds str, searchSubcmd_none func subcmds str,
    searchSubcmd_find func subcmds str⟩

end

-- ---------------------------------------------------------------------------
-- The process
-- ---------------------------------------------------------------------------

/-- `readdir`; `isDir` is `d_type == DT_DIR`. -/
structure Dirent where
  isDir : Bool
  name : List UInt8
  deriving DecidableEq, Repr

inductive Func
  | killJob
  | listAll
  | listJobs
  | listThreads
  | listZones
  | resumeJob
  | startYash
  | suspendJob
  deriving DecidableEq, Repr

abbrev Errno := { errno : Int // 0 < errno }

/-- What a run of the client meets: the `errno` that its parser finds, what was
on its stack in `key` and `jop` and where `jop` is, how `open` and `opendir` go,
and the `errno` that `perror` leaves. -/
structure Process where
  posixlyCorrect : Bool
  errno : Int
  func : Func
  jop : YaJobOp
  arg : Nat
  openErrno : Option Errno
  opendir : Errno ⊕ List Dirent
  perror : Errno → Errno

/-- What a process does next, as far as others see it, and how it goes on. The
end of the `shell` is that of its input, which is not modelled. -/
inductive Proc
  | openDevice (next : Option Errno → Proc)
  | ioctl (req : BitVec 32) (jop : YaJobOp) (next : Int → Proc)
  | exit (code : Int) (out : List (List UInt8))
  | exited (code : Int)
  | shell

structure Exit where
  code : Int
  out : List (List UInt8) := []
  sys : Sys

-- ---------------------------------------------------------------------------
-- ioctl.c, procfs.c
-- ---------------------------------------------------------------------------

section
variable (process : Process)

def Process.user (jop : YaJobOp) : User where
  accessOk _ _ _ := true
  copyFromUser arg := if arg = process.arg then some jop else none

/-- `ioctl` returns -1 for a negative result, with the `errno` from it; what
`send_ctl` returns is the `errno` behind `perror`. -/
def Process.result (ret : Int) : Int :=
  if h : ret < 0 then process.perror ⟨-ret, by omega⟩ else 0

def sendCtl (req : BitVec 32) (jop : YaJobOp) : Proc :=
  .openDevice fun
    | some errno => .exit (process.perror errno) []
    | none => .ioctl req jop fun ret => .exit (process.result ret) []

/-- `h` -/
def listZonesShortOpts : List UInt8 := [0x68]

def listZonesOpts : List LongOption := [⟨[0x68, 0x65, 0x6c, 0x70], false, 0x68⟩]

/-- `zone-` -/
def zoneDirPrefix : List UInt8 := [0x7a, 0x6f, 0x6e, 0x65, 0x2d]

def zoneLines (dirents : List Dirent) : List (List UInt8) :=
  dirents.filterMap fun dirp =>
    if dirp.isDir ∧ strncmp (str dirp.name) (str zoneDirPrefix) 5 = 0 then some (dirp.name.drop 5)
    else none

/-- Its parser ends with the first option there is: the process exits for help,
and for all others there is `EINVAL`. -/
def listZones (argv : List (List UInt8)) : Proc :=
  match getoptLong listZonesShortOpts listZonesOpts process.posixlyCorrect (argv.drop 1) with
  | got :: _ => .exit (if got.c = 0x68 then 0 else einval) []
  | [] =>
    match process.opendir with
    | .inl errno => .exit (process.perror errno) []
    | .inr dirents => .exit 0 (zoneLines dirents)

-- ---------------------------------------------------------------------------
-- yasadmin.c
-- ---------------------------------------------------------------------------

/-- `kill_job`, `suspend_job` and `resume_job` -/
def jobHandler (op : JobOp) (argv : List (List UInt8)) : Proc :=
  match parseJobopArgv process.posixlyCorrect argv { process.jop with op := op.number }
    process.errno with
  | .exit code _ => .exit code []
  | .ret code jop => if code ≠ 0 then .exit einval [] else sendCtl process op.cmd jop

def shellName : List UInt8 := [0x73, 0x68, 0x65, 0x6c, 0x6c]

def subcmds : List (Subcmd Func) := [
  ⟨[0x6b, 0x69, 0x6c, 0x6c], .killJob⟩,
  ⟨[0x6c, 0x69, 0x73, 0x74, 0x61, 0x6c, 0x6c], .listAll⟩,
  ⟨[0x6c, 0x69, 0x73, 0x74, 0x6a, 0x6f, 0x62, 0x73], .listJobs⟩,
  ⟨[0x6c, 0x69, 0x73, 0x74, 0x74, 0x68, 0x72, 0x65, 0x61, 0x64, 0x73], .listThreads⟩,
  ⟨[0x6c, 0x69, 0x73, 0x74, 0x7a, 0x6f, 0x6e, 0x65, 0x73], .listZones⟩,
  ⟨[0x72, 0x65, 0x73, 0x75, 0x6d, 0x65], .resumeJob⟩,
  ⟨shellName, .startYash⟩,
  ⟨[0x73, 0x75, 0x73, 0x70, 0x65, 0x6e, 0x64], .suspendJob⟩]

def call (argv : List (List UInt8)) : Func → Proc
  | .killJob => jobHandler process .kill argv
  | .suspendJob => jobHandler process .suspend argv
  | .resumeJob => jobHandler process .resume argv
  | .listZones => listZones process argv
  | .listAll | .listJobs | .listThreads => .exit 0 []
  | .startYash => .shell

def main (argv : List (List UInt8)) : Proc :=
  match argv with
  | [] | [_] => .exit einval []
  | _ :: sub :: args =>
    match searchSubcmd process.func subcmds sub with
    | none => .exit einval []
    | some subcmd => call process (sub :: args) subcmd.func

end

-- ---------------------------------------------------------------------------
-- A process by itself
-- ---------------------------------------------------------------------------

section
variable (process : Process) (h : Hooks) (keep : List Nat)

def Proc.step (s : Sys) : Proc → Option (Proc × Sys)
  | .openDevice next => some (next process.openErrno, s)
  | .ioctl req jop next =>
    match yacdevIoctl (process.user jop) h keep s req process.arg with
    | none => none
    | some reply => some (next reply.ret, reply.sys)
  | .exit code _ => some (.exited code, s)
  | .exited _ | .shell => none

def Proc.alone (s : Sys) : Proc → Option Exit
  | .openDevice next => (next process.openErrno).alone s
  | .ioctl req jop next =>
    match yacdevIoctl (process.user jop) h keep s req process.arg with
    | none => none
    | some reply => (next reply.ret).alone reply.sys
  | .exit code out => some { code, out, sys := s }
  | .exited code => some { code, sys := s }
  | .shell => none

def yasadmin (s : Sys) (argv : List (List UInt8)) : Option Exit :=
  (main process argv).alone process h keep s

variable {process h keep}

/-- Step by step it comes to the same end. -/
theorem Proc.step_alone {proc : Proc} (hs : proc.step process h keep s = some (proc', s'))
    (hr : proc.alone process h keep s = some r) :
    ∃ r', proc'.alone process h keep s' = some r' ∧ r'.code = r.code ∧ r'.sys = r.sys := by
  cases proc with
  | openDevice next =>
    cases hs
    exact ⟨r, hr, rfl, rfl⟩
  | ioctl req jop next =>
    simp only [step] at hs
    split at hs <;> cases hs
    rename_i reply hreply
    simp only [alone, hreply] at hr
    exact ⟨r, hr, rfl, rfl⟩
  | exit code out =>
    cases hs
    cases hr
    exact ⟨_, rfl, rfl, rfl⟩
  | exited | shell => cases hs

theorem user_ioctl (op : JobOp) {jop : YaJobOp} (hop : jop.op = op.number) (s : Sys) :
    yacdevIoctl (process.user jop) h keep s op.cmd process.arg =
      some (performs op h keep s jop) := by
  obtain ⟨zid, jid, number⟩ := jop
  subst hop
  exact ioctl_client op (if_pos rfl) rfl

theorem sendCtl_open (op : JobOp) {jop : YaJobOp} (hop : jop.op = op.number) (s : Sys)
    (hopen : process.openErrno = none) :
    (sendCtl process op.cmd jop).alone process h keep s = some {
      code := process.result (jobOp op h keep s jop.zoneId jop.jobId).1
      sys := (jobOp op h keep s jop.zoneId jop.jobId).2 } := by
  simp only [sendCtl, Proc.alone, hopen, user_ioctl op hop, performs]

theorem sendCtl_refused (req : BitVec 32) (jop : YaJobOp) (s : Sys)
    (hopen : process.openErrno = some errno) :
    (sendCtl process req jop).alone process h keep s =
      some { code := process.perror errno, sys := s } := by
  simp only [sendCtl, Proc.alone, hopen]

theorem Process.result_eq_zero (process : Process) (ret : Int) :
    process.result ret = 0 ↔ 0 ≤ ret := by
  unfold Process.result
  split
  case isTrue hneg =>
    exact iff_of_false (Int.ne_of_gt (process.perror _).property) (Int.not_le_of_gt hneg)
  case isFalse hpos => exact iff_of_true rfl (Int.le_of_not_gt hpos)

end

-- ---------------------------------------------------------------------------
-- What a command line asks for
-- ---------------------------------------------------------------------------

def subcmdOf : JobOp → List UInt8
  | .kill => [0x6b, 0x69, 0x6c, 0x6c]
  | .suspend => [0x73, 0x75, 0x73, 0x70, 0x65, 0x6e, 0x64]
  | .resume => [0x72, 0x65, 0x73, 0x75, 0x6d, 0x65]

/-- The subcommand is that of the operation, and its arguments are zones and
jobs, the last of them these. -/
def Asks (posixlyCorrect : Bool) (argv : List (List UInt8)) (op : JobOp) (zid jid : Nat) : Prop :=
  ∃ name args, argv = name :: subcmdOf op :: args ∧
    Meant (options posixlyCorrect (subcmdOf op :: args)) ∧
    LastGiven (options posixlyCorrect (subcmdOf op :: args)) ⟨zid, jid, op.number⟩

/-- No number in it is negative or gets in the way of an `errno`. -/
def Process.Tame (process : Process) (argv : List (List UInt8)) : Prop :=
  ∀ arg ∈ given (options process.posixlyCorrect (argv.drop 1)), Admin.Tame process.errno arg

theorem subcmdOf_injective (h : subcmdOf op = subcmdOf op') : op = op' := by
  cases op <;> cases op' <;> first | rfl | cases h

theorem Asks.unique (h : Asks posixlyCorrect argv op zid jid)
    (h' : Asks posixlyCorrect argv op' zid' jid') : op = op' ∧ zid = zid' ∧ jid = jid' := by
  obtain ⟨name, args, rfl, -, hlast⟩ := h
  obtain ⟨name', args', hargv, -, hlast'⟩ := h'
  simp only [List.cons.injEq] at hargv
  obtain ⟨-, hsub, rfl⟩ := hargv
  obtain rfl := subcmdOf_injective hsub
  exact ⟨rfl, hlast.unique hlast'⟩

section
variable {process : Process}

theorem asks_of_options {zid jid : Nat} {zone job : List UInt8}
    (hoptions : options posixlyCorrect (subcmdOf op :: rest) =
      [⟨0x7a, some zone⟩, ⟨0x6a, some job⟩])
    (hzone : Numeral zone zid) (hjob : Numeral job jid) (hzid : (zid : Int) ≤ longMax)
    (hjid : (jid : Int) ≤ longMax) (name : List UInt8) :
    Asks posixlyCorrect (name :: subcmdOf op :: rest) op zid jid := by
  refine ⟨name, rest, rfl, ?_, ?_⟩
  · rw [hoptions]
    have hzoneId : ∃ v, Numeral zone v ∧ 0 ≤ v ∧ v ≤ longMax :=
      ⟨zid, hzone, Int.natCast_nonneg zid, hzid⟩
    have hjobId : ∃ v, Numeral job v ∧ 0 ≤ v ∧ v ≤ longMax :=
      ⟨jid, hjob, Int.natCast_nonneg jid, hjid⟩
    refine ⟨?_, List.cons_ne_nil _ _, List.cons_ne_nil _ _,
      List.forall_mem_cons.mpr ⟨hzoneId, List.forall_mem_singleton.mpr hjobId⟩⟩
    exact List.forall_mem_cons.mpr ⟨⟨nofun, (by decide : (0x7a : UInt8) ≠ 0x68)⟩,
      List.forall_mem_singleton.mpr ⟨nofun, (by decide : (0x6a : UInt8) ≠ 0x68)⟩⟩
  · rw [hoptions]
    exact ⟨⟨zone, rfl, hzone⟩, ⟨job, rfl, hjob⟩⟩

theorem tame_of_options {zid jid : Nat} {zone job : List UInt8} (herrno : process.errno = 0)
    (hoptions : options process.posixlyCorrect rest =
      [⟨0x7a, some zone⟩, ⟨0x6a, some job⟩])
    (hzone : Numeral zone zid) (hjob : Numeral job jid) (name : List UInt8) :
    process.Tame (name :: rest) := by
  unfold Process.Tame
  rw [List.drop_one, List.tail_cons, hoptions, herrno]
  exact List.forall_mem_cons.mpr ⟨tame_of_numeral hzone,
    List.forall_mem_singleton.mpr (tame_of_numeral hjob)⟩

theorem jobHandler_cases (op : JobOp) {argv : List (List UInt8)}
    (htame : ∀ arg ∈ given (options process.posixlyCorrect argv), Admin.Tame process.errno arg) :
    (∃ jop, jobHandler process op argv = sendCtl process op.cmd jop ∧ jop.op = op.number ∧
      Meant (options process.posixlyCorrect argv) ∧
      LastGiven (options process.posixlyCorrect argv) jop) ∨
    (∃ code, jobHandler process op argv = .exit code []) ∧
      ¬Meant (options process.posixlyCorrect argv) := by
  have hiff (jop' : YaJobOp) : parseJobopArgv process.posixlyCorrect argv
      { process.jop with op := op.number } process.errno = .ret 0 jop' ↔ _ :=
    parseJobopArgv_iff htame jop'
  by_cases hmeant : Meant (options process.posixlyCorrect argv)
  · have hparse := (hiff _).mpr ⟨hmeant, rfl⟩
    refine .inl ⟨_, ?_, ?_, hmeant, hmeant.lastGiven htame { process.jop with op := op.number }⟩
    · simp only [jobHandler, hparse, ne_eq, not_true_eq_false, if_false]
    · rfl
  · refine .inr ⟨?_, hmeant⟩
    unfold jobHandler
    split
    · exact ⟨_, rfl⟩
    · rename_i code jop hparse
      have hcode : code ≠ 0 := by
        rintro rfl
        exact hmeant ((hiff jop).mp hparse).1
      exact ⟨einval, if_pos hcode⟩

/-- What a process is about to do when it has read its command line. -/
inductive Begins (process : Process) (argv : List (List UInt8)) : Proc → Prop
  | asked : Asks process.posixlyCorrect argv op jop.zoneId jop.jobId → jop.op = op.number →
      Begins process argv (sendCtl process op.cmd jop)
  | notAsked {code : Int} : (∀ op zid jid, ¬Asks process.posixlyCorrect argv op zid jid) →
      Begins process argv (.exit code out)
  | shell : (∀ op zid jid, ¬Asks process.posixlyCorrect argv op zid jid) →
      argv[1]? = some shellName → Begins process argv .shell

theorem begins_jobHandler (op : JobOp) (name : List UInt8) (args : List (List UInt8))
    (htame : process.Tame (name :: subcmdOf op :: args)) :
    Begins process (name :: subcmdOf op :: args) (jobHandler process op (subcmdOf op :: args)) := by
  have htame : ∀ arg ∈ given (options process.posixlyCorrect (subcmdOf op :: args)),
      Admin.Tame process.errno arg := htame
  rcases jobHandler_cases op htame with ⟨jop, hproc, hop, hmeant, hlast⟩ | ⟨⟨code, hproc⟩, hno⟩
  · rw [hproc]
    exact .asked ⟨name, args, rfl, hmeant, ⟨hlast.zone, hlast.job⟩⟩ hop
  · rw [hproc]
    refine .notAsked ?_
    rintro op' zid jid ⟨name', args', hargv, hmeant, -⟩
    simp only [List.cons.injEq] at hargv
    obtain ⟨-, hsub, rfl⟩ := hargv
    exact hno (hsub ▸ hmeant)

theorem begins_call (hp : p ∈ subcmds) (name : List UInt8) (args : List (List UInt8))
    (htame : process.Tame (name :: p.str :: args)) :
    Begins process (name :: p.str :: args) (call process (p.str :: args) p.func) := by
  have hnone (hne : ∀ op, p.str ≠ subcmdOf op) :
      ∀ op zid jid, ¬Asks process.posixlyCorrect (name :: p.str :: args) op zid jid := by
    rintro op zid jid ⟨name', args', hargv, -⟩
    simp only [List.cons.injEq] at hargv
    exact hne op hargv.2.1
  simp only [subcmds, List.mem_cons, List.not_mem_nil, or_false] at hp
  rcases hp with rfl | rfl | rfl | rfl | rfl | rfl | rfl | rfl
  · exact begins_jobHandler .kill name args htame
  · exact .notAsked (hnone (fun op => by cases op <;> decide))
  · exact .notAsked (hnone (fun op => by cases op <;> decide))
  · exact .notAsked (hnone (fun op => by cases op <;> decide))
  · have hno := hnone (fun op => by cases op <;> decide)
    simp only [call, listZones]
    split
    · exact .notAsked hno
    · split
      · exact .notAsked hno
      · exact .notAsked hno
  · exact begins_jobHandler .resume name args htame
  · exact .shell (hnone (fun op => by cases op <;> decide)) rfl
  · exact begins_jobHandler .suspend name args htame

theorem main_begins (htame : process.Tame argv) : Begins process argv (main process argv) := by
  match argv with
  | [] => exact .notAsked (by rintro op zid jid ⟨name, args, hargv, -⟩; cases hargv)
  | [_] => exact .notAsked (by rintro op zid jid ⟨name, args, hargv, -⟩; cases hargv)
  | name :: sub :: args =>
    simp only [main]
    cases hsearch : searchSubcmd process.func subcmds sub with
    | none =>
      refine .notAsked ?_
      rintro op zid jid ⟨name', args', hargv, -⟩
      simp only [List.cons.injEq] at hargv
      have hnone := (searchSubcmd_none process.func subcmds sub).mp hsearch
      obtain ⟨p, hp, hstr⟩ : ∃ p ∈ subcmds, p.str = subcmdOf op := by cases op <;> decide
      exact hnone p hp (hstr.trans hargv.2.1.symm)
    | some p =>
      obtain ⟨hmem, rfl⟩ := searchSubcmd_some process.func subcmds sub hsearch
      exact begins_call hmem name args htame

end

-- ---------------------------------------------------------------------------
-- Main theorem
-- ---------------------------------------------------------------------------

section
variable {process : Process}

theorem main_of_asks (htame : process.Tame argv)
    (hasks : Asks process.posixlyCorrect argv op zid jid) :
    main process argv = sendCtl process op.cmd ⟨zid, jid, op.number⟩ := by
  have hbegins := main_begins htame
  generalize main process argv = proc at hbegins ⊢
  cases hbegins with
  | @asked op' jop hasks' hop =>
    obtain ⟨rfl, rfl, rfl⟩ := hasks.unique hasks'
    rw [← hop]
  | notAsked hno => exact absurd hasks (hno op zid jid)
  | shell hno => exact absurd hasks (hno op zid jid)

theorem asked_performs (htame : process.Tame argv)
    (hasks : Asks process.posixlyCorrect argv op zid jid) (hopen : process.openErrno = none)
    (h : Hooks) (keep : List Nat) (s : Sys) :
    yasadmin process h keep s argv = some {
      code := process.result (jobOp op h keep s zid jid).1
      sys := (jobOp op h keep s zid jid).2 } := by
  rw [yasadmin, main_of_asks htame hasks]
  exact sendCtl_open op rfl s hopen

/-- A client does what its command line asks for and nothing else: the operation
is performed, or the kernel is as before. It ends with 0 only where the job was
there; what it ends with else is what `perror` leaves of the error. -/
theorem main_asked (htame : process.Tame argv) (hshell : argv[1]? ≠ some shellName) (h : Hooks)
    (keep : List Nat) (s : Sys) : ∃ r, yasadmin process h keep s argv = some r ∧
      (∀ op zid jid, Asks process.posixlyCorrect argv op zid jid → process.openErrno = none →
        r.sys = (jobOp op h keep s zid jid).2 ∧
          r.code = process.result (jobOp op h keep s zid jid).1) ∧
      ((∀ op zid jid, ¬Asks process.posixlyCorrect argv op zid jid) ∨ process.openErrno ≠ none →
        r.sys = s) ∧
      ∀ op zid jid, Asks process.posixlyCorrect argv op zid jid → r.code = 0 →
        zid = 0 ∧ ∃ p, searchJobById s jid = some p ∧ r.sys.jobs =
          Function.update s.jobs p { s.jobs p with state := (op.write (s.jobs p).state).1 } := by
  have hbegins := main_begins htame
  unfold yasadmin
  generalize main process argv = proc at hbegins ⊢
  cases hbegins with
  | notAsked hno =>
    refine ⟨_, rfl, fun op zid jid hasks => ?_, fun _ => rfl, fun op zid jid hasks => ?_⟩
    · exact absurd hasks (hno op zid jid)
    · exact absurd hasks (hno op zid jid)
  | shell hno hname => exact absurd hname hshell
  | @asked op jop hasks hop =>
    cases hopen : process.openErrno with
    | some errno =>
      refine ⟨_, sendCtl_refused _ jop s hopen, fun _ _ _ _ hnone => ?_, fun _ => rfl,
        fun _ _ _ _ hzero => ?_⟩
      · cases hnone
      · exact absurd hzero (Int.ne_of_gt (process.perror errno).property)
    | none =>
      refine ⟨_, sendCtl_open op hop s hopen, fun op' zid jid hasks' _ => ?_, fun hno => ?_,
        fun op' zid jid hasks' hzero => ?_⟩
      · obtain ⟨rfl, rfl, rfl⟩ := hasks.unique hasks'
        exact ⟨rfl, rfl⟩
      · rcases hno with hno | hne
        · exact absurd hasks (hno _ _ _)
        · exact absurd rfl hne
      · obtain ⟨rfl, rfl, rfl⟩ := hasks.unique hasks'
        have hstep := control_cases op h keep s jop.zoneId jop.jobId
        have hret := (process.result_eq_zero _).mp hzero
        generalize (jobOp op h keep s jop.zoneId jop.jobId).1 = ret at hstep hret
        generalize (jobOp op h keep s jop.zoneId jop.jobId).2 = s' at hstep ⊢
        cases hstep with
        | @found p _ hzid hsearch _ _ _ hjobs => exact ⟨hzid, p, hsearch, hjobs⟩
        | unknown _ => exact absurd hret (by decide)

/-- `yasadmin` with `-z 0 -j 0`, and the process that runs it. -/
def sampleLine (op : JobOp) : List (List UInt8) :=
  [[0x79], subcmdOf op, [0x2d, 0x7a], [0x30], [0x2d, 0x6a], [0x30]]

def sampleProcess : Process :=
  { posixlyCorrect := false, errno := 0, func := .killJob, jop := ⟨7, 7, 7⟩, arg := 0x7ffe0000
    openErrno := none, opendir := .inr [], perror := id }

theorem numeral_zero : Numeral [0x30] (0 : Nat) := scanLong_eq_some.mp rfl

theorem sampleLine_options (op : JobOp) : options sampleProcess.posixlyCorrect
    ((sampleLine op).drop 1) = [⟨0x7a, some [0x30]⟩, ⟨0x6a, some [0x30]⟩] := by
  cases op <;> rfl

theorem sampleLine_asks (op : JobOp) :
    Asks sampleProcess.posixlyCorrect (sampleLine op) op 0 0 :=
  asks_of_options (sampleLine_options op) numeral_zero numeral_zero (by decide) (by decide) _

theorem sampleLine_tame (op : JobOp) : sampleProcess.Tame (sampleLine op) :=
  tame_of_options rfl (sampleLine_options op) numeral_zero numeral_zero _

theorem main_asked_suspend : ∃ r,
    yasadmin sampleProcess .all [] (yaInitJob (init 1) 0 .running) (sampleLine .suspend) = some r ∧
      r.code = 0 ∧ r.sys.jobState 0 = .suspended := by
  obtain ⟨r, hr, hasked, -, -⟩ := main_asked (sampleLine_tame .suspend)
    (show (sampleLine .suspend)[1]? ≠ some shellName by decide) .all []
    (yaInitJob (init 1) 0 .running)
  obtain ⟨hsys, hcode⟩ := hasked .suspend 0 0 (sampleLine_asks .suspend) rfl
  refine ⟨r, hr, hcode.trans rfl, ?_⟩
  rw [hsys]
  rfl

end

end Yasched.Client
