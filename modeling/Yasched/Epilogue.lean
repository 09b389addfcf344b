import Yasched.Registers
import Yasched.SwitchDoFork

/-!
# The epilogue that `leave_schedule` stands for

`setup_leave_schedule_hook` puts a jump to `leave_schedule` where a function
pops six registers and returns. `leave_schedule` calls the hook and then pops
five of them, but ends with `leave` where the function pops `rbp`. The two do
the same when `rbp` points to its own saved value, as it does in a function that
keeps a frame pointer.
-/

namespace Yasched

open Bytes

-- ---------------------------------------------------------------------------
-- Instructions and their bytes
-- ---------------------------------------------------------------------------

inductive Insn
  | pop (r : Reg)
  | leave
  | ret
  | call (var : Nat)
  | jmp (disp : Int)
  deriving DecidableEq, Repr

def Reg.all : List Reg :=
  [.rax, .rcx, .rdx, .rbx, .rbp, .rsi, .rdi, .r8, .r9, .r10, .r11, .r12, .r13, .r14, .r15]

def Reg.ofNumber? (n : UInt8) : Option Reg := Reg.all.find? (·.number = n)

/-- The instruction at `a` and its length. A variable is given by an address of
32 bits, with sign. -/
def decode (text : Nat → UInt8) (a : Nat) : Option (Insn × Nat) :=
  if text a = 0xc3 then some (.ret, 1)
  else if text a = 0xc9 then some (.leave, 1)
  else if text a = 0xe9 then some (.jmp (int32 text (a + 1)), 5)
  else if text a = 0xff ∧ text (a + 1) = 0x14 ∧ text (a + 2) = 0x25 then
    some (.call ((int32 text (a + 3)) % 0x10000000000000000).toNat, 7)
  else if text a = 0x41 ∧ 0x58 ≤ text (a + 1) ∧ text (a + 1) < 0x60 then
    (Reg.ofNumber? (text (a + 1) - 0x50)).map fun r => (.pop r, 2)
  else if 0x58 ≤ text a ∧ text a < 0x60 then
    (Reg.ofNumber? (text a - 0x58)).map fun r => (.pop r, 1)
  else none

structure Cpu where
  rip : Nat
  m : Machine

def Machine.leave (m : Machine) : Machine :=
  let rbp : Int := (m.reg .rbp).toNat
  { m with
    rsp := rbp + 8
    reg := Function.update m.reg .rbp (loadWord m.stack rbp) }

namespace Cpu

/-- `callee` gives the function that a variable points to. -/
def exec (callee : Nat → Option HookFn) (s : Cpu) : Insn × Nat → Option Cpu
  | (.pop r, len) => some { rip := s.rip + len, m := s.m.pop r }
  | (.leave, len) => some { rip := s.rip + len, m := s.m.leave }
  | (.ret, _) =>
    some { rip := (loadWord s.m.stack s.m.rsp).toNat, m := { s.m with rsp := s.m.rsp + 8 } }
  | (.call var, len) =>
    (callee var).map fun hook =>
      { rip := s.rip + len, m := hook.run (s.m.push (BitVec.ofNat 64 (s.rip + len))) }
  | (.jmp disp, len) =>
    some { s with rip := ((s.rip + len + disp) % 0x10000000000000000).toNat }

def step (text : Nat → UInt8) (callee : Nat → Option HookFn) (s : Cpu) : Option Cpu :=
  (decode text s.rip).bind (s.exec callee)

def steps (text : Nat → UInt8) (callee : Nat → Option HookFn) : Nat → Cpu → Option Cpu
  | 0, s => some s
  | n + 1, s => (s.step text callee).bind (steps text callee n)

structure Agree (s s' : Cpu) : Prop where
  rip : s.rip = s'.rip
  rsp : s.m.rsp = s'.m.rsp
  calleeSaved : ∀ r, r.calleeSaved = true → s.m.reg r = s'.m.reg r

end Cpu

-- ---------------------------------------------------------------------------
-- The stub in memory
-- ---------------------------------------------------------------------------

def leavePops : List Reg := [.rbx, .r12, .r13, .r14, .r15]

def popBytes (r : Reg) : List UInt8 := StubInstr.encode (.pop r)

/-- `leave_schedule`; `leaveHookVar` is where the module keeps `leave_hook`. -/
def leaveScheduleStub (leaveHookVar : Nat) : List UInt8 :=
  callIndirect leaveHookVar ++ leavePops.flatMap popBytes ++ [0xc9, 0xc3]

/-- What the assembler and the loader see to: the jump is one with 32 bits,
`leave_schedule` is in the module's text, apart from the kernel's and in reach
of it, and its variable has an address of 32 bits with sign. -/
structure LeaveLoaded (env : Env) (leaveHookVar : Nat) (k : Kernel) (p : Nat) : Prop where
  jmp : env.jmpLeaveSchedule 0 = 0xe9
  stub : read k.mem env.leaveSchedule (leaveScheduleStub leaveHookVar).length =
    leaveScheduleStub leaveHookVar
  apart : p + 8 ≤ env.leaveSchedule ∨
    env.leaveSchedule + (leaveScheduleStub leaveHookVar).length ≤ p
  reach : InReach env.leaveSchedule (p + 1)
  var : InText leaveHookVar

-- ---------------------------------------------------------------------------
-- Executing bytes
-- ---------------------------------------------------------------------------

theorem decode_pop (h : read text a (popBytes r).length = popBytes r) :
    decode text a = some (.pop r, (popBytes r).length) := by
  have hfirst := byte_of_code h (i := 0)
  have hsecond := byte_of_code h (i := 1)
  cases r <;> simp [popBytes, StubInstr.encode, Reg.number] at hfirst hsecond <;>
    simp [decode, hfirst, hsecond] <;> decide

namespace Cpu

variable {text : Nat → UInt8} {callee : Nat → Option HookFn}

theorem steps_trans {s s' : Cpu} (h : s.steps text callee n = some s') (k : Nat) :
    s.steps text callee (n + k) = s'.steps text callee k := by
  induction n generalizing s with
  | zero =>
    cases h
    rw [Nat.zero_add]
  | succ n ih =>
    obtain ⟨m, hm, hrest⟩ := Option.bind_eq_some_iff.mp h
    rw [Nat.add_right_comm, steps, hm, Option.bind_some]
    exact ih hrest

theorem step_of_decode {s s' : Cpu} (h : decode text s.rip = some i)
    (hs : s.exec callee i = some s') (k : Nat) :
    s.steps text callee (k + 1) = s'.steps text callee k := by
  rw [steps, step, h, Option.bind_some, hs, Option.bind_some]

/-- By induction on the registers: what they are popped from moves up with
`rip`. -/
theorem steps_pops (callee : Nat → Option HookFn) (rs : List Reg) {s : Cpu}
    (h : read text s.rip (rs.flatMap popBytes).length = rs.flatMap popBytes) :
    s.steps text callee rs.length =
      some { rip := s.rip + (rs.flatMap popBytes).length, m := rs.foldl Machine.pop s.m } := by
  induction rs generalizing s with
  | nil => rfl
  | cons r rs ih =>
    rw [List.flatMap_cons, read_append] at h
    have hpop := decode_pop h.1
    have hrest := ih (s := { rip := s.rip + (popBytes r).length, m := s.m.pop r }) h.2
    rw [List.length_cons, step_of_decode hpop rfl, hrest, List.flatMap_cons, List.length_append,
      List.foldl_cons, Nat.add_assoc]

end Cpu

-- ---------------------------------------------------------------------------
-- Pops from stacks that agree
-- ---------------------------------------------------------------------------

theorem Keeps.pop_both {m m' : Machine} (h : Keeps m m') (r : Reg) :
    Keeps (m.pop r) (m'.pop r) where
  rsp := by rw [Machine.pop_rsp, Machine.pop_rsp, h.rsp]
  stack a ha := h.stack a (by rw [Machine.pop_rsp] at ha; omega)
  calleeSaved r' hr' := by
    rcases eq_or_ne r' r with rfl | hne
    · rw [Machine.pop_self, Machine.pop_self, h.rsp, loadWord_congr h.stack]
    · rw [Machine.pop_of_ne _ _ hne, Machine.pop_of_ne _ _ hne, h.calleeSaved r' hr']

theorem Keeps.pops (h : Keeps m m') (rs : List Reg) :
    Keeps (rs.foldl Machine.pop m) (rs.foldl Machine.pop m') := by
  induction rs generalizing m m' with
  | nil => exact h
  | cons r rs ih => exact ih (h.pop_both r)

theorem pops_rsp (rs : List Reg) (m : Machine) :
    (rs.foldl Machine.pop m).rsp = m.rsp + 8 * rs.length := by
  induction rs generalizing m with
  | nil => simp
  | cons r rs ih =>
    rw [List.foldl_cons, ih, Machine.pop_rsp, List.length_cons]
    omega

theorem pops_other {rs : List Reg} (h : r ∉ rs) (m : Machine) :
    (rs.foldl Machine.pop m).reg r = m.reg r := by
  induction rs generalizing m with
  | nil => rfl
  | cons r' rs ih =>
    obtain ⟨hne, hrs⟩ : r ≠ r' ∧ r ∉ rs := by simpa using h
    rw [List.foldl_cons, ih hrs, Machine.pop_of_ne _ _ hne]

-- ---------------------------------------------------------------------------
-- The two epilogues
-- ---------------------------------------------------------------------------

def Cpu.ret (s : Machine) : Cpu :=
  { rip := (loadWord s.stack s.rsp).toNat, m := { s with rsp := s.rsp + 8 } }

theorem decode_ret (h : text a = 0xc3) : decode text a = some (.ret, 1) := by simp [decode, h]

theorem decode_leave (h : text a = 0xc9) : decode text a = some (.leave, 1) := by simp [decode, h]

theorem decode_jmp (h : text a = 0xe9) : decode text a = some (.jmp (int32 text (a + 1)), 5) := by
  simp [decode, h]

theorem decode_call (h : read text a (callIndirect var).length = callIndirect var)
    (hvar : InText var) : decode text a = some (.call var, 7) := by
  have hlen : (callIndirect var).length = 7 := rfl
  have h₀ : text a = 0xff := byte_of_code h (i := 0) (by omega)
  have h₁ : text (a + 1) = 0x14 := byte_of_code h (i := 1) (by omega)
  have h₂ : text (a + 2) = 0x25 := byte_of_code h (i := 2) (by omega)
  have hword : read text (a + 3) 4 = le32 var := (read_append.mp h).2
  have haddr := uint32_le32 hword
  obtain ⟨hge, hlt, hmod⟩ := int32_spec text (a + 3)
  obtain ⟨hlow, hhigh⟩ := hvar
  have hint : (int32 text (a + 3) % 0x10000000000000000).toNat = var := by omega
  simp [decode, h₀, h₁, h₂, hint]

/-- The eleven bytes are seven instructions. -/
theorem steps_sig (callee : Nat → Option HookFn) {text : Nat → UInt8} {s : Cpu}
    (h : read text s.rip sig.length = sig) :
    s.steps text callee 7 = some (Cpu.ret ((leavePops.foldl Machine.pop s.m).pop .rbp)) := by
  have hsplit : sig = (leavePops ++ [Reg.rbp]).flatMap popBytes ++ [0xc3] := rfl
  rw [hsplit, read_append] at h
  obtain ⟨hpops, hret⟩ := h
  have hbyte : text (s.rip + ((leavePops ++ [Reg.rbp]).flatMap popBytes).length) = 0xc3 :=
    byte_of_code hret (i := 0) (by decide)
  have hrun := Cpu.steps_trans (Cpu.steps_pops callee (leavePops ++ [Reg.rbp]) hpops) 1
  exact hrun.trans (Cpu.step_of_decode (decode_ret hbyte) rfl 0)

/-- The hook runs, the five registers are popped, and `leave` takes the stack
from `rbp`. -/
theorem steps_stub {text : Nat → UInt8} {callee : Nat → Option HookFn} {s : Cpu}
    (h : read text s.rip (leaveScheduleStub var).length = leaveScheduleStub var)
    (hvar : InText var) (hhook : callee var = some hook) :
    s.steps text callee 8 = some (Cpu.ret (leavePops.foldl Machine.pop
      (hook.run (s.m.push (BitVec.ofNat 64 (s.rip + 7))))).leave) := by
  rw [leaveScheduleStub, List.append_assoc, read_append, read_append] at h
  obtain ⟨hcall, hpops, hend⟩ := h
  have hleave : text (s.rip + 7 + (leavePops.flatMap popBytes).length) = 0xc9 :=
    byte_of_code hend (i := 0) (by decide)
  have hret : text (s.rip + 7 + (leavePops.flatMap popBytes).length + 1) = 0xc3 :=
    byte_of_code hend (i := 1) (by decide)
  have hexec : s.exec callee (.call var, 7) =
      some ⟨s.rip + 7, hook.run (s.m.push (BitVec.ofNat 64 (s.rip + 7)))⟩ := by
    rw [Cpu.exec, hhook]
    rfl
  have hrun := Cpu.steps_trans (Cpu.steps_pops callee leavePops
    (s := ⟨s.rip + 7, hook.run (s.m.push (BitVec.ofNat 64 (s.rip + 7)))⟩) hpops) 2
  refine (Cpu.step_of_decode (decode_call hcall hvar) hexec 7).trans (hrun.trans ?_)
  refine (Cpu.step_of_decode (decode_leave hleave) rfl 1).trans ?_
  exact Cpu.step_of_decode (decode_ret hret) rfl 0

theorem leave_eq_pop (m : Machine) (h : ((m.reg .rbp).toNat : Int) = m.rsp) :
    m.leave = m.pop .rbp := by
  unfold Machine.leave Machine.pop
  rw [h]

theorem agree_iff (h : Keeps m m') :
    Cpu.Agree (Cpu.ret ((leavePops.foldl Machine.pop m).pop .rbp))
        (Cpu.ret (leavePops.foldl Machine.pop m').leave) ↔
      ((m.reg .rbp).toNat : Int) = m.rsp + 40 := by
  have hpops := h.pops leavePops
  have hrsp : (leavePops.foldl Machine.pop m').rsp = m.rsp + 40 := by
    rw [pops_rsp, h.rsp]
    rfl
  have hrbp : (leavePops.foldl Machine.pop m').reg .rbp = m.reg .rbp := by
    rw [pops_other (by decide), h.calleeSaved .rbp rfl]
  constructor
  · intro hagree
    have hend := hagree.rsp
    simp only [Cpu.ret, Machine.leave, Machine.pop_rsp, hrbp, ← hpops.rsp, hrsp] at hend
    omega
  · intro hframe
    rw [leave_eq_pop _ (by rw [hrbp, hrsp, hframe])]
    have hboth := hpops.pop_both .rbp
    refine ⟨?_, ?_, fun r hr => (hboth.calleeSaved r hr).symm⟩
    · simp only [Cpu.ret, hboth.rsp, loadWord_congr hboth.stack]
    · simp only [Cpu.ret, hboth.rsp]

-- ---------------------------------------------------------------------------
-- What is installed
-- ---------------------------------------------------------------------------

theorem jump_installed (m : Nat → UInt8) (p agent : Nat) (hjmp : stub 0 = 0xe9) :
    write m p (jmpHex stub agent p) p = 0xe9 ∧
      read (write m p (jmpHex stub agent p)) (p + 1) 4 = rel32 agent (p + 1) := by
  have hlen : (jmpHex stub agent p).length = 8 := length_read _
  have hbyte (i : Nat) (hi : i < 8) : write m p (jmpHex stub agent p) (p + i) =
      write stub 1 (le32 ((agent : Int) - p - 5)) i := by
    rw [write_within m (by omega)]
    simp [jmpHex]
  constructor
  · refine (hbyte 0 (by decide)).trans ?_
    rw [write_before stub (by decide), hjmp]
  · have hword : (agent : Int) - (p + 1 : Nat) - 4 = agent - p - 5 := by omega
    have hdisp : read (write stub 1 (le32 ((agent : Int) - p - 5))) 1 4 =
        le32 ((agent : Int) - p - 5) := read_write stub
    rw [rel32, hword, ← hdisp]
    apply read_congr
    intro i hi
    rw [Nat.add_assoc]
    exact hbyte (1 + i) (by omega)

section

variable {env : Env} {k : Kernel} {leaveHookVar p : Nat}

theorem leaveSchedule_signature (h : (setupLeaveScheduleHook env k).1 = 0)
    (hp : ((setupLeaveScheduleHook env k).2.points .scheduleEnd).point = p) :
    read k.mem p sig.length = sig ∧ (setupLeaveScheduleHook env k).2.mem =
      write k.mem p (jmpHex env.jmpLeaveSchedule env.leaveSchedule p) := by
  have henosys : -enosys ≠ 0 := by decide
  revert h hp
  simp only [setupLeaveScheduleHook]
  split
  case isTrue => exact fun h => absurd h henosys
  case isFalse hfound =>
    rintro - rfl
    simp only [Kernel.switch, Kernel.xchg, Patch.exchange, Function.update_self]
    exact ⟨(memmem_spec hfound).2, trivial⟩

theorem steps_installed {s : Cpu} {hook : HookFn} {callee : Nat → Option HookFn}
    (h : (setupLeaveScheduleHook env k).1 = 0)
    (hp : ((setupLeaveScheduleHook env k).2.points .scheduleEnd).point = s.rip)
    (hloaded : LeaveLoaded env leaveHookVar k s.rip) (hhook : callee leaveHookVar = some hook) :
    s.steps (setupLeaveScheduleHook env k).2.mem callee 9 =
      some (Cpu.ret (leavePops.foldl Machine.pop
        (hook.run (s.m.push (BitVec.ofNat 64 (env.leaveSchedule + 7))))).leave) := by
  obtain ⟨hbyte, hword⟩ := jump_installed k.mem s.rip env.leaveSchedule hloaded.jmp
  rw [(leaveSchedule_signature h hp).2]
  generalize hw : jmpHex env.jmpLeaveSchedule env.leaveSchedule s.rip = word at hbyte hword
  have hlen : word.length = 8 := hw ▸ length_read _
  have htarget : calledAddr (write k.mem s.rip word) s.rip = env.leaveSchedule :=
    (calledAddr_agent (Nat.succ_pos s.rip)).mpr ⟨hloaded.reach, hword⟩
  have hstub : read (write k.mem s.rip word) env.leaveSchedule
      (leaveScheduleStub leaveHookVar).length = leaveScheduleStub leaveHookVar := by
    rw [← hloaded.stub, length_read]
    apply read_congr
    intro i hi
    rcases hloaded.apart with hbelow | habove
    · exact write_after k.mem (by omega)
    · exact write_before k.mem (by omega)
  have hexec : s.exec callee (.jmp (int32 (write k.mem s.rip word) (s.rip + 1)), 5) =
      some ⟨env.leaveSchedule, s.m⟩ := by
    rw [← htarget]
    rfl
  exact (Cpu.step_of_decode (decode_jmp hbyte) hexec 8).trans (steps_stub hstub hloaded.var hhook)

end

-- ---------------------------------------------------------------------------
-- Main theorem
-- ---------------------------------------------------------------------------

/-- From `s` the eleven bytes, and the jump and `leave_schedule` in their
place, run to their return and leave the same behind. -/
def Replaces (text text' : Nat → UInt8) (callee : Nat → Option HookFn) (s : Cpu) : Prop :=
  ∃ s₁ s₂, s.steps text callee 7 = some s₁ ∧ s.steps text' callee 9 = some s₂ ∧ s₁.Agree s₂

/-- `rbp` points to where it is saved, as it does in a function that keeps a
frame pointer. -/
def KeepsFrame (m : Machine) : Prop := ((m.reg .rbp).toNat : Int) = m.rsp + 40

theorem leave_schedule_replaces_iff {env : Env} {k : Kernel} {leaveHookVar : Nat}
    {callee : Nat → Option HookFn} {hook : HookFn} {s : Cpu}
    (hfound : (setupLeaveScheduleHook env k).1 = 0)
    (hrip : ((setupLeaveScheduleHook env k).2.points .scheduleEnd).point = s.rip)
    (hloaded : LeaveLoaded env leaveHookVar k s.rip) (hhook : callee leaveHookVar = some hook) :
    Replaces k.mem (setupLeaveScheduleHook env k).2.mem callee s ↔ KeepsFrame s.m := by
  have hsig := steps_sig callee (leaveSchedule_signature hfound hrip).1
  have hstub := steps_installed hfound hrip hloaded hhook
  have hagree := agree_iff (hook.keeps s.m (BitVec.ofNat 64 (env.leaveSchedule + 7)))
  constructor
  · rintro ⟨s₁, s₂, h₁, h₂, hsame⟩
    cases hsig.symm.trans h₁
    cases hstub.symm.trans h₂
    exact hagree.mp hsame
  · intro hframe
    exact ⟨_, _, hsig, hstub, hagree.mpr hframe⟩

/-- A function that consists of the signature, and `leave_schedule` with its
variable at `0xffffffffa0002020`. -/
def sampleLeave : Kernel :=
  { load sampleEnv (image
      [{ point := 0xffffffff81500100, word := sig },
        { point := 0xffffffffa0001100, word := leaveScheduleStub 0xffffffffa0002020 }]) with
    scheduleAddr := 0xffffffff81500100 }

def atSig (rbp : BitVec 64) : Cpu :=
  { rip := 0xffffffff81500100
    m :=
      { reg := Function.update (fun _ => 0) .rbp rbp
        rsp := 0x10000, flags := 0, stack := fun _ => 0, mem := fun _ => 0 } }

theorem sampleLeave_loaded :
    LeaveLoaded sampleEnv 0xffffffffa0002020 sampleLeave 0xffffffff81500100 where
  jmp := rfl
  stub := by decide
  apart := by decide
  reach := ⟨0xffffffffa0001100 - 0xffffffff81500105, by decide, by decide, by decide⟩
  var := by decide

theorem leave_schedule_replaces_iff_frame :
    Replaces sampleLeave.mem (setupLeaveScheduleHook sampleEnv sampleLeave).2.mem
      (fun _ => some (passesCurrent 0)) (atSig 0x10028) :=
  (leave_schedule_replaces_iff (by decide) (by decide) sampleLeave_loaded rfl).mpr rfl

theorem leave_schedule_replaces_fails :
    ¬ ∀ (env : Env) (k : Kernel) (leaveHookVar : Nat) (callee : Nat → Option HookFn)
      (hook : HookFn) (s : Cpu), (setupLeaveScheduleHook env k).1 = 0 →
      ((setupLeaveScheduleHook env k).2.points .scheduleEnd).point = s.rip →
      LeaveLoaded env leaveHookVar k s.rip → callee leaveHookVar = some hook →
      Replaces k.mem (setupLeaveScheduleHook env k).2.mem callee s := by
  intro h
  have hfound : (setupLeaveScheduleHook sampleEnv sampleLeave).1 = 0 := by decide
  have hrip : ((setupLeaveScheduleHook sampleEnv sampleLeave).2.points .scheduleEnd).point =
      (atSig 0).rip := by decide
  obtain ⟨s₁, s₂, h₁, h₂, hsame⟩ := h sampleEnv sampleLeave 0xffffffffa0002020
    (fun _ => some (passesCurrent 0)) (passesCurrent 0) (atSig 0) hfound hrip sampleLeave_loaded rfl
  cases (steps_sig _ (leaveSchedule_signature hfound hrip).1).symm.trans h₁
  cases (steps_installed hfound hrip sampleLeave_loaded rfl).symm.trans h₂
  exact absurd hsame.rsp (by decide)

end Yasched
