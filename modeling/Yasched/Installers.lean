import Yasched.Text

/-!
# The functions of `arch/x86_64` that put the hooks in and take them out

Each function that puts a hook in returns its `int` and the state it leaves:
it looks for a place in the text as it then is, and exchanges the word there.
`switch_do_fork` does so for three entries of the system call table and undoes
what it has done when one of them fails.
-/

namespace Yasched

open Bytes Patch

/-- Where the call at `p` goes, with the displacement taken unsigned. -/
def callTarget (mem : Nat → UInt8) (p : Nat) : Nat := kernelAddr (p + 5 + uint32 mem (p + 1) : Nat)

-- ---------------------------------------------------------------------------
-- syscalls.c
-- ---------------------------------------------------------------------------

def switchExecve (env : Env) (k : Kernel) : Int × Kernel :=
  let p := env.kallsyms "SyS_execve"
  if p = 0 then (-enosys, k)
  else
    let call1 := memmem k.mem p 64 [0xe8]
    if call1 = 0 then (-enosys, k)
    else if callTarget k.mem call1 ≠ env.kallsyms "getname" then (-enosys, k)
    else
      let call2 := memmem k.mem (call1 + 5) 64 [0xe8]
      if call2 = 0 then (-enosys, k)
      else
        let k := { k with origDoExecve := callTarget k.mem call2 }
        (0, k.switch .doExecve (call2 + 1) (rel32 env.execveAgent (call2 + 1)))

def restoreExecve (k : Kernel) : Kernel := k.restore .doExecve

/-- `__NR_clone`, `__NR_fork` and `__NR_vfork` are 56, 57 and 58. -/
def switchSyscalls (env : Env) (k : Kernel) : Int × Kernel :=
  let table := env.kallsyms "sys_call_table"
  if table = 0 then (-enosys, k)
  else
    let (ret, k) := switchExecve env k
    if ret ≠ 0 then (ret, k)
    else
      (0, { k with
        stubClone := uint64 k.mem (table + 8 * 56)
        stubFork := uint64 k.mem (table + 8 * 57)
        stubVfork := uint64 k.mem (table + 8 * 58) })

def restoreSyscalls (k : Kernel) : Kernel := restoreExecve k

-- ---------------------------------------------------------------------------
-- page_fault.c and apic_timer.c
-- ---------------------------------------------------------------------------

/-- Neither search is checked: after a miss the next one starts at 1, and the
place of the exchange is 1 when the second misses. -/
def switchPgfaultHandler (env : Env) (k : Kernel) : Int × Kernel :=
  let entry := irqVectorEntry env k.mem 14
  if entry = 0 then (-enosys, k)
  else
    let p := memmem k.mem entry maxOffset [0xe8]
    let p := memmem k.mem (p + 1) maxOffset [0xe8]
    let k := { k with linuxDoPgfault := callTarget k.mem p }
    (0, k.switch .pgfault (p + 1) (rel32 env.pgfaultAgent (p + 1)))

def restorePgfaultHandler (k : Kernel) : Kernel := k.restore .pgfault

def switchScheduleCall (_env : Env) (k : Kernel) : Int × Kernel := (0, k)

def restoreScheduleCall (k : Kernel) : Kernel := k

def switchSmpApicTimerInterrupt (env : Env) (k : Kernel) : Int × Kernel :=
  let entry := irqVectorEntry env k.mem env.localTimerVector
  if entry = 0 then (-enosys, k)
  else
    let p := memmem k.mem entry maxOffset [0xe8]
    if p = 0 then (-enosys, k)
    else
      let p := memmem k.mem (p + 1) maxOffset [0xe8]
      if p = 0 then (-enosys, k)
      else
        let p := memmem k.mem (p + 1) maxOffset [0xe8]
        if p = 0 then (-enosys, k)
        else
          let orig := callTarget k.mem p
          let word := rel32 env.satInterruptAgent (p + 1)
          let k := { k with origSmpApicTimerInterrupt := orig }
          -- The two variables are assigned before the symbol is looked at.
          if !verifySymbol orig "smp_apic_timer_interrupt" then
            (-enosys, { k with points := Function.update k.points .timer { point := p + 1, word } })
          else (0, k.switch .timer (p + 1) word)

def restoreSmpApicTimerInterrupt (k : Kernel) : Kernel := k.restore .timer

-- ---------------------------------------------------------------------------
-- sched.c
-- ---------------------------------------------------------------------------

def switchScheduleTail (env : Env) (k : Kernel) : Int × Kernel :=
  let p := env.kallsyms "ret_from_fork"
  if p = 0 then (-enosys, k)
  else
    let p := memmem k.mem p 64 [0xe8]
    if p = 0 then (-enosys, k)
    else
      let k := { k with origScheduleTail := callTarget k.mem p }
      (0, k.switch .scheduleTail (p + 1) (rel32 env.scheduleTailAgent (p + 1)))

def restoreScheduleTail (k : Kernel) : Kernel := k.restore .scheduleTail

/-- The offset of the first `sub $imm8, %rsp` that starts at one of the scanned
positions. -/
def signature? (mem : Nat → UInt8) (start : Nat) : Option Nat :=
  (List.range numOfNop).find? fun i => read mem (start + i) 3 = [0x48, 0x83, 0xec]

def jmpHex (code : Nat → UInt8) (agent start : Nat) : List UInt8 :=
  read (write code 1 (le32 ((agent : Int) - start - 5))) 0 8

/-- `n` bytes of a function to the start of a trampoline, and the stub behind
the nops to the place behind them. The two places can overlap; the kernel's
`memcpy` goes upwards, and so does `copy`. -/
def moveProlog (code : Nat → UInt8) (prolog : List UInt8) (stubLen : Nat) : Nat → UInt8 :=
  copy (write code 0 prolog) prolog.length numOfNop stubLen

def setupEnterScheduleHook (env : Env) (k : Kernel) : Int × Kernel :=
  let p := memmem k.mem env.schedule 64 [0xe8]
  if p = 0 then (-enosys, k)
  else
    let start := kernelAddr (p + 5 + int32 k.mem (p + 1))
    let k := { k with scheduleAddr := start }
    let (offset, k) :=
      match signature? k.mem start with
      | some i =>
        (i, { k with enterSchedule := moveProlog k.enterSchedule (read k.mem start i) 14 })
      | none => (numOfNop, k)
    if k.enterSchedule 0 = 0x90 then (-enosys, k)
    else
      let k := { k with scheduleStart := start + offset, enterHook := env.enterScheduleHook }
      (0, k.switch .scheduleStart start (jmpHex env.jmpEnterSchedule env.enterSchedule start))

def removeEnterScheduleHook (k : Kernel) : Kernel := k.restore .scheduleStart

def sig : List UInt8 := [0x5b, 0x41, 0x5c, 0x41, 0x5d, 0x41, 0x5e, 0x41, 0x5f, 0x5d, 0xc3]

def setupLeaveScheduleHook (env : Env) (k : Kernel) : Int × Kernel :=
  let p := memmem k.mem k.scheduleAddr 4096 sig
  if p = 0 then
    let patch := { k.points .scheduleEnd with point := 0 }
    (-enosys, { k with points := Function.update k.points .scheduleEnd patch })
  else
    let k := { k with leaveHook := env.leaveScheduleHook }
    (0, k.switch .scheduleEnd p (jmpHex env.jmpLeaveSchedule env.leaveSchedule p))

def removeLeaveScheduleHook (k : Kernel) : Kernel := k.restore .scheduleEnd

-- ---------------------------------------------------------------------------
-- exit.c
-- ---------------------------------------------------------------------------

def setupEnterExitHook (env : Env) (k : Kernel) : Int × Kernel :=
  let start := env.procKallsyms "do_exit"
  if start = 0 then (-enosys, k)
  else
    let (offset, k) :=
      match signature? k.mem start with
      | some i =>
        (i, { k with enterExit := moveProlog k.enterExit (read k.mem start (i + 4)) 18 })
      | none => (numOfNop, k)
    if k.enterExit 0 = 0x90 then (-enosys, k)
    else
      let k := { k with exitHook := env.enterExitHook, doExitReenterPoint := start + offset + 4 }
      -- Whatever jump the assembler chose, the first byte is made `jmp rel32`.
      let code := Function.update env.jmpDoExit 0 0xe9
      (0, k.switch .doExitStart start (jmpHex code env.enterExit start))

def removeEnterExitHook (k : Kernel) : Kernel := k.restore .doExitStart

-- ---------------------------------------------------------------------------
-- fork.c
-- ---------------------------------------------------------------------------

def searchSysForkFamily (mem : Nat → UInt8) (stub : Nat) : Nat :=
  kernelAddr (stub + 7 + int32 mem (stub + 3))

inductive Search
  | found (p : Nat)
  | notFound
  | exhausted
  deriving DecidableEq, Repr

def doForkAddr (mem : Nat → UInt8) (p : Nat) : Nat :=
  (p + 4 + uint32 mem p) % 0x100000000 ||| 0xffffffff00000000

def isDoFork (mem : Nat → UInt8) (origDoFork addr : Nat) : Bool :=
  addr = origDoFork ||
    (origDoFork = 0 && (mem addr = 0x55 || (mem addr = 0x41 && mem (addr + 1) = 0x57)))

def jmpOrCall (mem : Nat → UInt8) (sys window : Nat) : Nat :=
  let jmp := memmem mem sys window [0xe9]
  if jmp = 0 then memmem mem sys window [0xe8] else jmp

/-- The loop of `__switch_do_fork` from a given distance on. Each turn adds at
least one to the distance, so `fuel` need not be more than what is left of 128
(`searchDoFork_fuel`). -/
def searchDoForkFrom (mem : Nat → UInt8) (origDoFork sys : Nat) : (fuel distance : Nat) → Search
  | 0, _ => .exhausted
  | fuel + 1, distance =>
    if distance < 128 then
      let p := jmpOrCall mem sys (128 - distance)
      if p = 0 then .notFound
      else if isDoFork mem origDoFork (doForkAddr mem (p + 1)) then .found (p + 1)
      else searchDoForkFrom mem origDoFork sys fuel (distance + (p + 1 - sys))
    else .exhausted

def searchDoFork (mem : Nat → UInt8) (origDoFork sys : Nat) : Search :=
  searchDoForkFrom mem origDoFork sys 128 0

def doForkPoints : List Point := [.cloneDoFork, .forkDoFork, .vforkDoFork]

def restoreDoFork (k : Kernel) : Kernel := k.restoreAll doForkPoints

def switchDoForkOf (agent : Nat) : List (Point × Nat) → Kernel → Int × Kernel
  | [], k => (0, k)
  | (pt, sys) :: rest, k =>
    match searchDoFork k.mem k.origDoFork sys with
    | .notFound => (-enosys, restoreDoFork k)
    | .found p => switchDoForkOf agent rest (k.switch pt p (rel32 agent p))
    | .exhausted => switchDoForkOf agent rest k

def sysForkFamily (k : Kernel) : List Nat :=
  [k.stubClone, k.stubFork, k.stubVfork].map (searchSysForkFamily k.mem)

def switchDoFork (env : Env) (k : Kernel) : Int × Kernel :=
  if 0 ∈ sysForkFamily k then (-enosys, k)
  else
    let k := { k with origDoFork := env.procKallsyms "_do_fork" }
    switchDoForkOf env.doForkAgent (doForkPoints.zip (sysForkFamily k)) k

-- ---------------------------------------------------------------------------
-- What an installer leaves behind
-- ---------------------------------------------------------------------------

/-- An installer exchanges words at its points and returns 0, or fails and
leaves memory as it was. -/
inductive Outcome (pts : List Point) (k : Kernel) : Int × Kernel → Prop
  | patched (h : Patched pts log k k') : Outcome pts k (0, k')
  | failed (hmem : k'.mem = k.mem) (hpoints : ∀ q, q ∉ pts → k'.points q = k.points q) :
    Outcome pts k (-enosys, k')

theorem Outcome.unchanged (k : Kernel) : Outcome pts k (-enosys, k) := .failed rfl fun _ _ => rfl

theorem Outcome.switch {k k₀ : Kernel} {word : List UInt8} (hmem : k.mem = k₀.mem)
    (hpoints : k.points = k₀.points) (hp : p ≠ 0) : Outcome [pt] k₀ (0, k.switch pt p word) :=
  .patched (Patched.switch hmem hpoints hp)

theorem switchExecve_outcome : Outcome [.doExecve] k (switchExecve env k) := by
  simp only [switchExecve]
  split
  · exact .unchanged k
  split
  · exact .unchanged k
  split
  · exact .unchanged k
  split
  · exact .unchanged k
  · exact .switch rfl rfl (Nat.succ_ne_zero _)

theorem switchSyscalls_outcome : Outcome [.doExecve] k (switchSyscalls env k) := by
  simp only [switchSyscalls]
  split
  · exact .unchanged k
  have hexecve : Outcome [.doExecve] k (switchExecve env k) := switchExecve_outcome
  cases hret : switchExecve env k with
  | mk ret k₁ =>
    rw [hret] at hexecve
    cases hexecve with
    | patched h => exact .patched (h.congr rfl rfl)
    | failed hmem hpoints => exact .failed hmem hpoints

theorem switchPgfaultHandler_outcome : Outcome [.pgfault] k (switchPgfaultHandler env k) := by
  simp only [switchPgfaultHandler]
  split
  · exact .unchanged k
  · exact .switch rfl rfl (Nat.succ_ne_zero _)

theorem switchScheduleCall_outcome (env : Env) (k : Kernel) :
    Outcome [] k (switchScheduleCall env k) :=
  .patched (Patched.refl k (by simp))

theorem switchSmpApicTimerInterrupt_outcome :
    Outcome [.timer] k (switchSmpApicTimerInterrupt env k) := by
  simp only [switchSmpApicTimerInterrupt, verifySymbol]
  split
  · exact .unchanged k
  split
  · exact .unchanged k
  split
  · exact .unchanged k
  split
  · exact .unchanged k
  · exact .switch rfl rfl (Nat.succ_ne_zero _)

theorem switchScheduleTail_outcome : Outcome [.scheduleTail] k (switchScheduleTail env k) := by
  simp only [switchScheduleTail]
  split
  · exact .unchanged k
  split
  · exact .unchanged k
  · exact .switch rfl rfl (Nat.succ_ne_zero _)

theorem kernelAddr_ne_zero (x : Int) : kernelAddr x ≠ 0 := by
  have hle : 0xffffffff00000000 ≤ kernelAddr x := Nat.left_le_or
  omega

theorem setupEnterScheduleHook_outcome :
    Outcome [.scheduleStart] k (setupEnterScheduleHook env k) := by
  simp only [setupEnterScheduleHook]
  split
  · exact .unchanged k
  split <;> split
  · exact .failed rfl fun _ _ => rfl
  · exact .switch rfl rfl (kernelAddr_ne_zero _)
  · exact .failed rfl fun _ _ => rfl
  · exact .switch rfl rfl (kernelAddr_ne_zero _)

theorem setupLeaveScheduleHook_outcome :
    Outcome [.scheduleEnd] k (setupLeaveScheduleHook env k) := by
  simp only [setupLeaveScheduleHook]
  split
  case isTrue =>
    refine .failed rfl fun q hq => ?_
    exact Function.update_of_ne (by simpa using hq) ..
  case isFalse hp => exact .switch rfl rfl hp

theorem setupEnterExitHook_outcome : Outcome [.doExitStart] k (setupEnterExitHook env k) := by
  simp only [setupEnterExitHook]
  split
  · exact .unchanged k
  rename_i hstart
  split <;> split
  · exact .failed rfl fun _ _ => rfl
  · exact .switch rfl rfl hstart
  · exact .failed rfl fun _ _ => rfl
  · exact .switch rfl rfl hstart

-- ---------------------------------------------------------------------------
-- switch_do_fork
-- ---------------------------------------------------------------------------

theorem jmpOrCall_ge (h : jmpOrCall mem sys window ≠ 0) : sys ≤ jmpOrCall mem sys window := by
  simp only [jmpOrCall] at h ⊢
  split at h
  case isTrue hjmp => simpa only [hjmp, ↓reduceIte] using (memmem_spec h).1
  case isFalse hjmp => simpa only [hjmp, ↓reduceIte] using (memmem_spec h).1

/-- 128 turns are enough for the loop: more fuel changes nothing. -/
theorem searchDoFork_fuel (hfuel : 128 ≤ fuel + distance) :
    searchDoForkFrom mem origDoFork sys (fuel + 1) distance =
      searchDoForkFrom mem origDoFork sys fuel distance := by
  induction fuel generalizing distance with
  | zero =>
    have hend : ¬ distance < 128 := by omega
    simp [searchDoForkFrom, hend]
  | succ fuel ih =>
    rw [searchDoForkFrom, searchDoForkFrom]
    by_cases hp : jmpOrCall mem sys (128 - distance) = 0
    · simp [hp]
    · -- The turn adds at least one, the distance from `sys` to behind the opcode.
      have hge := jmpOrCall_ge hp
      simp only [hp, ↓reduceIte]
      rw [ih (by omega)]

/-- What `switch_do_fork` exchanges when memory is `mem`, if nothing but the
searches decides. -/
def doForkPatches (agent origDoFork : Nat) (mem : Nat → UInt8) : List Nat → List (Patch UInt8)
  | [] => []
  | sys :: rest =>
    match searchDoFork mem origDoFork sys with
    | .notFound => []
    | .found p =>
      let patch := { point := p, word := rel32 agent p }
      patch :: doForkPatches agent origDoFork (exchange mem patch).1 rest
    | .exhausted => doForkPatches agent origDoFork mem rest

theorem searchDoForkFrom_found (h : searchDoForkFrom mem origDoFork sys fuel distance = .found p) :
    p ≠ 0 := by
  induction fuel generalizing distance with
  | zero => cases h
  | succ fuel ih =>
    rw [searchDoForkFrom] at h
    split at h
    case isFalse => cases h
    case isTrue =>
      generalize jmpOrCall mem sys (128 - distance) = q at h
      simp only at h
      split at h
      · cases h
      split at h
      · cases h
        exact Nat.succ_ne_zero _
      · exact ih h

theorem switchDoForkOf_patched (agent : Nat) (k : Kernel) (pairs : List (Point × Nat))
    (hnodup : (pairs.map (·.1)).Nodup)
    (hdead : ∀ q ∈ pairs.map (·.1), (k.points q).point = 0) :
    ∃ k', Patched (pairs.map (·.1))
        (doForkPatches agent k.origDoFork k.mem (pairs.map (·.2))) k k' ∧
      (switchDoForkOf agent pairs k = (0, k') ∨
        switchDoForkOf agent pairs k = (-enosys, restoreDoFork k')) := by
  induction pairs generalizing k with
  | nil => exact ⟨k, Patched.refl k hdead, .inl rfl⟩
  | cons pair pairs ih =>
    obtain ⟨pt, sys⟩ := pair
    obtain ⟨hpt, hnodup⟩ := List.nodup_cons.mp hnodup
    have hne : ∀ q ∈ pairs.map (·.1), q ≠ pt := fun q hq heq => hpt (heq ▸ hq)
    have hdead' : ∀ q ∈ pairs.map (·.1), (k.points q).point = 0 :=
      fun q hq => hdead q (List.mem_cons_of_mem _ hq)
    simp only [switchDoForkOf, doForkPatches, List.map_cons]
    cases hsearch : searchDoFork k.mem k.origDoFork sys with
    | notFound => exact ⟨k, Patched.refl k hdead, .inr rfl⟩
    | found p =>
      have hswitch : Patched [pt] [{ point := p, word := rel32 agent p }] k
          (k.switch pt p (rel32 agent p)) :=
        Patched.switch rfl rfl (searchDoForkFrom_found hsearch)
      obtain ⟨k', hpatched, hret⟩ := ih (k.switch pt p (rel32 agent p)) hnodup fun q hq => by
        rw [hswitch.frame q (by simpa using hne q hq)]
        exact hdead' q hq
      refine ⟨k', ?_, hret⟩
      have hmem : (k.switch pt p (rel32 agent p)).mem =
          (exchange k.mem { point := p, word := rel32 agent p }).1 := hswitch.mem
      rw [hmem] at hpatched
      exact hswitch.trans hpatched (by simpa using hpt)
    | exhausted =>
      obtain ⟨k', hpatched, hret⟩ := ih k hnodup hdead'
      have hnone : Patched [pt] [] k k := Patched.refl k fun q hq => by
        obtain rfl : q = pt := by simpa using hq
        exact hdead q List.mem_cons_self
      exact ⟨k', hnone.trans hpatched (by simpa using hpt), hret⟩

end Yasched
