import Yasched.System

/-!
# `ioctl` on the control device

`yacdev_ioctl` decides by the command word whether there is an operation, and
by the `op` field of the payload which one it is. The two agree in what the
client sends, but nothing compares them.

User memory is a parameter: which ranges `access_ok` accepts, and what
`copy_from_user` finds.
-/

namespace Yasched

def enotty : Int := 25

-- ---------------------------------------------------------------------------
-- Command words
-- ---------------------------------------------------------------------------

def iocWrite : BitVec 32 := 1
def iocRead : BitVec 32 := 2

def ioc (dir type nr size : BitVec 32) : BitVec 32 :=
  dir <<< 30 ||| size <<< 16 ||| type <<< 8 ||| nr

def iocDir (cmd : BitVec 32) : BitVec 32 := cmd >>> 30 &&& 3
def iocSize (cmd : BitVec 32) : BitVec 32 := cmd >>> 16 &&& 0x3fff
def iocType (cmd : BitVec 32) : BitVec 32 := cmd >>> 8 &&& 0xff

def yaIoctlMagic : BitVec 32 := 0x68

/-- `sizeof(ya_job_op_t)`: two words, the operation and its padding. -/
def sizeofYaJobOp : BitVec 32 := 24

def yaIoctlSuspendJob : BitVec 32 := ioc iocWrite yaIoctlMagic 0 sizeofYaJobOp
def yaIoctlResumeJob : BitVec 32 := ioc iocWrite yaIoctlMagic 1 sizeofYaJobOp
def yaIoctlKillJob : BitVec 32 := ioc iocWrite yaIoctlMagic 2 sizeofYaJobOp

structure YaJobOp where
  zoneId : Nat
  jobId : Nat
  op : BitVec 32
  deriving DecidableEq, Repr

def JobOp.number : JobOp → BitVec 32
  | .kill => 0
  | .suspend => 1
  | .resume => 2

def unknownCtl : BitVec 32 := 3

def JobOp.cmd : JobOp → BitVec 32
  | .kill => yaIoctlKillJob
  | .suspend => yaIoctlSuspendJob
  | .resume => yaIoctlResumeJob

-- ---------------------------------------------------------------------------
-- The handler
-- ---------------------------------------------------------------------------

inductive Verify
  | read
  | write
  deriving DecidableEq, Repr

structure User where
  accessOk : Verify → Nat → BitVec 32 → Bool
  copyFromUser : Nat → Option YaJobOp

/-- What a call leaves behind; `reads` are the entries of `job_op_funcs` that
it has read. -/
structure Reply where
  ret : Int
  sys : Sys
  reads : List Nat

def refuses (err : Int) (s : Sys) : Reply := { ret := -err, sys := s, reads := [] }

section
variable (user : User) (h : Hooks) (keep : List Nat) (s : Sys)

/-- `job_op_funcs`; the last entry is `NULL`. -/
def jobOpFuncs : List (Option (Nat → Nat → Int × Sys)) :=
  [some (killJob h keep s), some (suspendJob h keep s), some (resumeJob h keep s), none]

/-- `__handle_job_op`. A call through an entry that is not a function is no
reply at all. -/
def handleJobOp (arg : Nat) : Option Reply :=
  match user.copyFromUser arg with
  | none => some (refuses efault s)
  | some jobOp =>
    if jobOp.op < JobOp.number .kill ∨ jobOp.op ≥ unknownCtl then
      some (refuses einval s)
    else
      match (jobOpFuncs h keep s)[jobOp.op.toNat]? with
      | some (some f) =>
        let (ret, sys) := f jobOp.zoneId jobOp.jobId
        some { ret, sys, reads := [jobOp.op.toNat] }
      | _ => none

def accessFault (cmd : BitVec 32) (arg : Nat) : Bool :=
  if iocDir cmd &&& iocRead ≠ 0 then !user.accessOk .write arg (iocSize cmd)
  else if iocDir cmd &&& iocWrite ≠ 0 then !user.accessOk .read arg (iocSize cmd)
  else false

def yacdevIoctl (cmd : BitVec 32) (arg : Nat) : Option Reply :=
  if iocType cmd ≠ yaIoctlMagic then some (refuses enotty s)
  else if accessFault user cmd arg then some (refuses efault s)
  else if cmd = yaIoctlKillJob ∨ cmd = yaIoctlSuspendJob ∨ cmd = yaIoctlResumeJob then
    handleJobOp user h keep s arg
  else some (refuses enotty s)

end

-- ---------------------------------------------------------------------------
-- What the handler does
-- ---------------------------------------------------------------------------

section
variable {user : User} {h : Hooks} {keep : List Nat} {s : Sys}

def performs (op : JobOp) (h : Hooks) (keep : List Nat) (s : Sys) (payload : YaJobOp) : Reply :=
  { ret := (jobOp op h keep s payload.zoneId payload.jobId).1
    sys := (jobOp op h keep s payload.zoneId payload.jobId).2
    reads := [op.number.toNat] }

theorem number_of_lt {n : BitVec 32} (hn : n < unknownCtl) : ∃ op : JobOp, op.number = n := by
  have hlt : n.toNat < 3 := hn
  obtain h0 | h1 | h2 : n.toNat = 0 ∨ n.toNat = 1 ∨ n.toNat = 2 := by omega
  · exact ⟨.kill, BitVec.eq_of_toNat_eq h0.symm⟩
  · exact ⟨.suspend, BitVec.eq_of_toNat_eq h1.symm⟩
  · exact ⟨.resume, BitVec.eq_of_toNat_eq h2.symm⟩

theorem handleJobOp_number (op : JobOp) (hc : user.copyFromUser arg = some payload)
    (ho : payload.op = op.number) :
    handleJobOp user h keep s arg = some (performs op h keep s payload) := by
  unfold handleJobOp
  rw [hc]
  dsimp only
  rw [ho]
  cases op <;> rfl

theorem handleJobOp_cases (user : User) (h : Hooks) (keep : List Nat) (s : Sys) (arg : Nat) :
    (user.copyFromUser arg = none ∧
      handleJobOp user h keep s arg = some (refuses efault s)) ∨
    ∃ payload, user.copyFromUser arg = some payload ∧
      ((unknownCtl ≤ payload.op ∧
        handleJobOp user h keep s arg = some (refuses einval s)) ∨
      ∃ op : JobOp, payload.op = op.number ∧
        handleJobOp user h keep s arg = some (performs op h keep s payload)) := by
  obtain hc | ⟨payload, hc⟩ := Option.eq_none_or_eq_some (user.copyFromUser arg)
  · exact .inl ⟨hc, by simp [handleJobOp, hc]⟩
  · refine .inr ⟨payload, hc, ?_⟩
    by_cases hop : unknownCtl ≤ payload.op
    · exact .inl ⟨hop, by simp [handleJobOp, hc, hop]⟩
    · obtain ⟨op, ho⟩ := number_of_lt (BitVec.not_le.mp hop)
      exact .inr ⟨op, ho.symm, handleJobOp_number op hc ho.symm⟩

theorem ioctl_job (op : JobOp) :
    yacdevIoctl user h keep s op.cmd arg =
      if user.accessOk .read arg sizeofYaJobOp then handleJobOp user h keep s arg
      else some (refuses efault s) := by
  have hsize : iocSize op.cmd = sizeofYaJobOp := by cases op <;> decide
  have htype : iocType op.cmd = yaIoctlMagic := by cases op <;> decide
  have hfault : accessFault user op.cmd arg = !user.accessOk .read arg sizeofYaJobOp := by
    have hread : iocDir op.cmd &&& iocRead = 0 := by cases op <;> decide
    have hwrite : iocDir op.cmd &&& iocWrite ≠ 0 := by cases op <;> decide
    unfold accessFault
    rw [if_neg (not_not.mpr hread), if_pos hwrite, hsize]
  have hcmd : op.cmd = yaIoctlKillJob ∨ op.cmd = yaIoctlSuspendJob ∨ op.cmd = yaIoctlResumeJob := by
    cases op <;> simp [JobOp.cmd]
  unfold yacdevIoctl
  rw [if_neg (by simp [htype]), hfault, if_pos hcmd]
  cases user.accessOk .read arg sizeofYaJobOp <;> rfl

theorem ioctl_other (hcmd : ∀ op : JobOp, cmd ≠ op.cmd) :
    yacdevIoctl user h keep s cmd arg =
      if iocType cmd = yaIoctlMagic ∧ accessFault user cmd arg then some (refuses efault s)
      else some (refuses enotty s) := by
  have hno : ¬ (cmd = yaIoctlKillJob ∨ cmd = yaIoctlSuspendJob ∨ cmd = yaIoctlResumeJob) := by
    rintro (hk | hs | hr)
    · exact hcmd .kill hk
    · exact hcmd .suspend hs
    · exact hcmd .resume hr
  unfold yacdevIoctl
  by_cases htype : iocType cmd = yaIoctlMagic
  · rw [if_neg (by simp [htype]), if_neg hno]
    simp [htype]
  · rw [if_pos htype, if_neg (fun h => htype h.1)]

/-- A command that names an operation performs the one that its payload names,
or fails and changes nothing; every other command fails and changes nothing;
and the table is read below `UNKNOWN_CTL` only. -/
theorem ioctl_dispatches (user : User) (h : Hooks) (keep : List Nat) (s : Sys) (cmd : BitVec 32)
    (arg : Nat) :
    (∀ named : JobOp, cmd = named.cmd →
      yacdevIoctl user h keep s cmd arg = some (refuses efault s) ∨
      yacdevIoctl user h keep s cmd arg = some (refuses einval s) ∨
      ∃ payload op, user.copyFromUser arg = some payload ∧ payload.op = JobOp.number op ∧
        yacdevIoctl user h keep s cmd arg = some (performs op h keep s payload)) ∧
    ((∀ named : JobOp, cmd ≠ named.cmd) →
      yacdevIoctl user h keep s cmd arg =
        if iocType cmd = yaIoctlMagic ∧ accessFault user cmd arg then some (refuses efault s)
        else some (refuses enotty s)) ∧
    ∃ r, yacdevIoctl user h keep s cmd arg = some r ∧ ∀ i ∈ r.reads, i < unknownCtl.toNat := by
  have hjob (named : JobOp) (hcmd : cmd = named.cmd) :
      yacdevIoctl user h keep s cmd arg = some (refuses efault s) ∨
      yacdevIoctl user h keep s cmd arg = some (refuses einval s) ∨
      ∃ payload op, user.copyFromUser arg = some payload ∧ payload.op = JobOp.number op ∧
        yacdevIoctl user h keep s cmd arg = some (performs op h keep s payload) := by
    subst hcmd
    rw [ioctl_job]
    split
    · rcases handleJobOp_cases user h keep s arg with
        ⟨-, hr⟩ | ⟨payload, hc, ⟨-, hr⟩ | ⟨op, ho, hr⟩⟩
      · exact .inl hr
      · exact .inr (.inl hr)
      · exact .inr (.inr ⟨payload, op, hc, ho, hr⟩)
    · exact .inl rfl
  refine ⟨hjob, ioctl_other, ?_⟩
  by_cases hcmd : ∃ named : JobOp, cmd = named.cmd
  · obtain ⟨named, hcmd⟩ := hcmd
    rcases hjob named hcmd with hr | hr | ⟨payload, op, -, -, hr⟩
    · exact ⟨_, hr, by simp [refuses]⟩
    · exact ⟨_, hr, by simp [refuses]⟩
    · refine ⟨_, hr, ?_⟩
      cases op <;> simp [performs, JobOp.number, unknownCtl]
  · rw [ioctl_other (by simpa using hcmd)]
    split
    · exact ⟨_, rfl, by simp [refuses]⟩
    · exact ⟨_, rfl, by simp [refuses]⟩

/-- What `yasadmin` sends for its three job commands. -/
theorem ioctl_client (op : JobOp) (hc : user.copyFromUser arg = some ⟨zid, jid, op.number⟩)
    (ha : user.accessOk .read arg sizeofYaJobOp = true) :
    yacdevIoctl user h keep s op.cmd arg = some (performs op h keep s ⟨zid, jid, op.number⟩) := by
  rw [ioctl_job, if_pos ha]
  exact handleJobOp_number op hc rfl

/-- The command that kills, with a payload that suspends; and a foreign
command of the same type with an argument that is out of bounds. -/
theorem ioctl_dispatches_fails :
    (¬ ∀ user h keep s (named : JobOp) arg payload r, user.copyFromUser arg = some payload →
      yacdevIoctl user h keep s named.cmd arg = some r →
      (r.ret = (jobOp named h keep s payload.zoneId payload.jobId).1 ∧
        r.sys = (jobOp named h keep s payload.zoneId payload.jobId).2) ∨
      (r.ret < 0 ∧ r.sys.jobState = s.jobState)) ∧
    ¬ ∀ user h keep s cmd arg, (∀ named : JobOp, cmd ≠ named.cmd) →
      ∀ r, yacdevIoctl user h keep s cmd arg = some r → r.ret = -enotty := by
  constructor
  · intro hnamed
    have hs := hnamed { accessOk := fun _ _ _ => true, copyFromUser := fun _ => some ⟨0, 0, 1⟩ }
      .all [] (yaInitJob (init 1) 0 .running) .kill 0 ⟨0, 0, 1⟩ _ rfl rfl
    rcases hs with ⟨-, hsys⟩ | ⟨hret, -⟩
    · have hstate := congrArg (fun s => s.jobState 0) hsys
      revert hstate
      decide
    · revert hret
      decide
  · intro hother
    have hret := hother { accessOk := fun _ _ _ => false, copyFromUser := fun _ => none }
      .all [] (init 1) (ioc iocWrite yaIoctlMagic 3 sizeofYaJobOp) 0
      (by intro named; cases named <;> decide) _ rfl
    revert hret
    decide

end

end Yasched
