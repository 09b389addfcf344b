import Yasched.Patches
import Mathlib.Data.List.Nodup

/-!
# The kernel's text and what the module knows of it

`Kernel` is memory without the module's own objects, and beside it those of
the module's variables and trampolines that the installers read or write. An
address is a `Nat` and no object goes past the last one; `NULL` is 0. `uint16`
to `uint64` and `int32` read a number through a pointer to that type, and
`kernelAddr` is `0xffffffff00000000 | x`.

Every place where the module changes memory has a pair of variables, a pointer
`*_switch_point` (or `*_start`, `*_end`) and the word to exchange with what it
points to. They are a `Patch` each, named by `Point`. `change_privilege`
switches write protection and changes no byte, so `xchg` leaves it out.
-/

namespace Yasched

open Bytes Patch

def enosys : Int := 38

def maxOffset : Nat := 512

/-- The pairs of variables `do_execve_switch_point` and `do_execve_offset`,
`switch_point` and `offset`, and so on. -/
inductive Point
  | doExecve
  | pgfault
  | timer
  | scheduleTail
  | scheduleStart
  | scheduleEnd
  | doExitStart
  | cloneDoFork
  | forkDoFork
  | vforkDoFork
  deriving DecidableEq, Repr

/-- What stays as it is while the module installs its hooks: the answers of
the symbol lookups, the addresses of the kernel and of the module, and the module's
code where it matters. -/
structure Env where
  /-- `kallsyms_lookup_name` -/
  kallsyms : String → Nat
  /-- `get_symbol_from_kallsyms` -/
  procKallsyms : String → Nat
  idtBase : Nat
  localTimerVector : Nat
  schedule : Nat
  execveAgent : Nat
  pgfaultAgent : Nat
  satInterruptAgent : Nat
  scheduleTailAgent : Nat
  enterScheduleHook : Nat
  leaveScheduleHook : Nat
  enterExitHook : Nat
  doForkAgent : Nat
  enterSchedule : Nat
  leaveSchedule : Nat
  enterExit : Nat
  jmpEnterSchedule : Nat → UInt8
  jmpLeaveSchedule : Nat → UInt8
  jmpDoExit : Nat → UInt8
  enterHookVar : Nat
  scheduleStartVar : Nat
  /-- `enter_hook` of `exit.c` -/
  exitHookVar : Nat
  doExitReenterVar : Nat
  /-- What comes behind the two trampolines in the module. -/
  behindEnterSchedule : Nat → UInt8
  behindEnterExit : Nat → UInt8

/-- `enterSchedule` and `enterExit` are the code at the labels `enter_schedule`
and `enter_exit`, by offset. -/
structure Kernel where
  mem : Nat → UInt8
  enterSchedule : Nat → UInt8
  enterExit : Nat → UInt8
  points : Point → Patch UInt8 := fun _ => { point := 0, word := [] }
  stubClone : Nat := 0
  stubFork : Nat := 0
  stubVfork : Nat := 0
  origDoExecve : Nat := 0
  linuxDoPgfault : Nat := 0
  origSmpApicTimerInterrupt : Nat := 0
  origScheduleTail : Nat := 0
  origDoFork : Nat := 0
  /-- `__schedule_addr` -/
  scheduleAddr : Nat := 0
  /-- `schedule_start`, where `enter_schedule` jumps back to. -/
  scheduleStart : Nat := 0
  doExitReenterPoint : Nat := 0
  enterHook : Nat := 0
  leaveHook : Nat := 0
  /-- `enter_hook` of `exit.c` -/
  exitHook : Nat := 0

-- ---------------------------------------------------------------------------
-- Numbers in memory
-- ---------------------------------------------------------------------------

def uint16 (mem : Nat → UInt8) (p : Nat) : Nat := (mem p).toNat + (mem (p + 1)).toNat * 0x100

def uint32 (mem : Nat → UInt8) (p : Nat) : Nat := uint16 mem p + uint16 mem (p + 2) * 0x10000

def int32 (mem : Nat → UInt8) (p : Nat) : Int :=
  if uint32 mem p < 0x80000000 then uint32 mem p else (uint32 mem p : Int) - 0x100000000

def uint64 (mem : Nat → UInt8) (p : Nat) : Nat := uint32 mem p + uint32 mem (p + 4) * 0x100000000

def kernelAddr (x : Int) : Nat := 0xffffffff00000000 ||| (x % 0x10000000000000000).toNat

def le32 (x : Int) : List UInt8 :=
  [.ofInt x, .ofInt (x / 0x100), .ofInt (x / 0x10000), .ofInt (x / 0x1000000)]

/-- The displacement by which a call or jump whose displacement is at `p`
reaches `agent`. -/
def rel32 (agent p : Nat) : List UInt8 := le32 ((agent : Int) - p - 4)

-- ---------------------------------------------------------------------------
-- lib.c and vector.c
-- ---------------------------------------------------------------------------

def memmem (mem : Nat → UInt8) (haystack haystackLen : Nat) (needle : List UInt8) : Nat :=
  if needle.length = 0 then haystack
  else if haystackLen < needle.length then 0
  else
    ((List.range' haystack (haystackLen - needle.length + 1)).find? fun p =>
      read mem p needle.length = needle).getD 0

def verifySymbol (_addr : Nat) (_symbol : String) : Bool := true

def irqVectorEntry (env : Env) (mem : Nat → UInt8) (v : Nat) : Nat :=
  let id := env.idtBase + 16 * v
  uint32 mem (id + 8) * 0x100000000 + (uint16 mem (id + 6) * 0x10000 + uint16 mem id)

-- ---------------------------------------------------------------------------
-- Searches
-- ---------------------------------------------------------------------------

theorem memmem_at (hne : needle ≠ []) (hstart : a ≤ p) (hroom : p + needle.length ≤ a + n)
    (hread : read mem p needle.length = needle)
    (hbefore : ∀ q, a ≤ q → q < p → read mem q needle.length ≠ needle) :
    memmem mem a n needle = p := by
  have hlen : needle.length ≠ 0 := fun h => hne (List.length_eq_zero_iff.mp h)
  have hfind : ((List.range' a (n - needle.length + 1)).find? fun p =>
      read mem p needle.length = needle) = some p := by
    rw [List.find?_range'_eq_some]
    refine ⟨decide_eq_true hread, List.mem_range'_1.mpr ⟨hstart, by omega⟩, fun q hge hlt => ?_⟩
    simpa using hbefore q hge hlt
  rw [memmem, if_neg hlen, if_neg (by omega), hfind, Option.getD_some]

theorem memmem_nowhere (hne : needle ≠ [])
    (h : ∀ q, a ≤ q → q + needle.length ≤ a + n → read mem q needle.length ≠ needle) :
    memmem mem a n needle = 0 := by
  have hlen : needle.length ≠ 0 := fun h => hne (List.length_eq_zero_iff.mp h)
  rw [memmem, if_neg hlen]
  split
  case isTrue => rfl
  case isFalse hroom =>
    rw [List.find?_range'_eq_none.mpr, Option.getD_none]
    intro q hge hlt
    simpa using h q hge (by omega)

theorem memmem_spec (h : memmem mem a n needle ≠ 0) :
    a ≤ memmem mem a n needle ∧
      read mem (memmem mem a n needle) needle.length = needle := by
  revert h
  unfold memmem
  split
  case isTrue hlen =>
    intro
    rw [List.length_eq_zero_iff.mp hlen]
    exact ⟨Nat.le_refl a, rfl⟩
  split
  case isTrue => exact fun h => absurd rfl h
  intro h
  cases hfind : (List.range' a (n - needle.length + 1)).find? fun p =>
      decide (read mem p needle.length = needle) with
  | none =>
    rw [hfind] at h
    exact absurd rfl h
  | some p =>
    have hread := List.find?_some hfind
    exact ⟨(List.mem_range'_1.mp (List.mem_of_find?_eq_some hfind)).1, of_decide_eq_true hread⟩

-- ---------------------------------------------------------------------------
-- Exchanging and restoring
-- ---------------------------------------------------------------------------

namespace Kernel

/-- `__ya_xchgl` or `__ya_xchgq` -/
def xchg (k : Kernel) (pt : Point) : Kernel :=
  { k with
    mem := (exchange k.mem (k.points pt)).1
    points := Function.update k.points pt (exchange k.mem (k.points pt)).2 }

def switch (k : Kernel) (pt : Point) (p : Nat) (word : List UInt8) : Kernel :=
  { k with points := Function.update k.points pt { point := p, word } }.xchg pt

def restore (k : Kernel) (pt : Point) : Kernel :=
  if (k.points pt).point ≠ 0 then k.xchg pt else k

def restoreAll (k : Kernel) (pts : List Point) : Kernel := pts.foldl Kernel.restore k

def live (k : Kernel) (pts : List Point) : List (Patch UInt8) :=
  (pts.map k.points).filter (·.point ≠ 0)

end Kernel

/-- From `k` to `k'` the patches `log` were made, each at one of the points
`pts`, and no other point was touched. -/
structure Patched (pts : List Point) (log : List (Patch UInt8)) (k k' : Kernel) : Prop where
  mem : k'.mem = (exchangeAll k.mem log).1
  live : k'.live pts = (exchangeAll k.mem log).2
  frame : ∀ q, q ∉ pts → k'.points q = k.points q

namespace Kernel

theorem live_append (k : Kernel) : k.live (pts ++ qs) = k.live pts ++ k.live qs := by simp [live]

theorem live_reverse (k : Kernel) : k.live pts.reverse = (k.live pts).reverse := by
  simp [live, List.filter_reverse]

theorem live_congr {k k' : Kernel} (h : ∀ q ∈ pts, k'.points q = k.points q) :
    k'.live pts = k.live pts := by
  rw [live, List.map_congr_left h, live]

theorem live_dead {k : Kernel} (h : ∀ q ∈ pts, (k.points q).point = 0) : k.live pts = [] := by
  simpa [live] using h

theorem restore_mem (k : Kernel) : (k.restore pt).mem = (exchangeAll k.mem (k.live [pt])).1 := by
  unfold restore
  split <;> simp_all [live, xchg, exchangeAll]

theorem restore_points (k : Kernel) (h : q ≠ pt) : (k.restore pt).points q = k.points q := by
  unfold restore
  split
  · exact Function.update_of_ne h ..
  · rfl

theorem restoreAll_append (k : Kernel) :
    k.restoreAll (pts ++ qs) = (k.restoreAll pts).restoreAll qs := List.foldl_append ..

theorem restoreAll_points (k : Kernel) (h : q ∉ pts) :
    (k.restoreAll pts).points q = k.points q := by
  induction pts generalizing k with
  | nil => rfl
  | cons pt pts ih =>
    obtain ⟨hne, hq⟩ : q ≠ pt ∧ q ∉ pts := by simpa using h
    show ((k.restore pt).restoreAll pts).points q = _
    rw [ih _ hq, restore_points k hne]

theorem restoreAll_mem (k : Kernel) (hnodup : pts.Nodup) :
    (k.restoreAll pts).mem = (exchangeAll k.mem (k.live pts)).1 := by
  induction pts generalizing k with
  | nil => rfl
  | cons pt pts ih =>
    obtain ⟨hpt, hnodup⟩ := List.nodup_cons.mp hnodup
    have hlive : (k.restore pt).live pts = k.live pts :=
      live_congr fun q hq => restore_points k fun heq => hpt (heq ▸ hq)
    show ((k.restore pt).restoreAll pts).mem = _
    rw [ih _ hnodup, hlive, restore_mem, show pt :: pts = [pt] ++ pts from rfl, live_append,
      exchangeAll_append]

end Kernel

namespace Patched

theorem refl (k : Kernel) (h : ∀ q ∈ pts, (k.points q).point = 0) : Patched pts [] k k :=
  ⟨rfl, Kernel.live_dead h, fun _ _ => rfl⟩

theorem congr (h : Patched pts log k k₁) (hmem : k₂.mem = k₁.mem)
    (hpoints : k₂.points = k₁.points) : Patched pts log k k₂ := by
  refine ⟨hmem.trans h.mem, ?_, ?_⟩
  · rw [Kernel.live_congr fun q _ => congrFun hpoints q, h.live]
  · intro q hq
    rw [hpoints, h.frame q hq]

theorem switch {k₀ k : Kernel} {word : List UInt8} (hmem : k.mem = k₀.mem)
    (hpoints : k.points = k₀.points) (hp : p ≠ 0) :
    Patched [pt] [{ point := p, word }] k₀ (k.switch pt p word) := by
  refine ⟨?_, ?_, ?_⟩
  · simp [Kernel.switch, Kernel.xchg, exchangeAll, hmem]
  · simp [Kernel.switch, Kernel.xchg, Kernel.live, exchangeAll, hmem, hp]
  · intro q hq
    have hne : q ≠ pt := by simpa using hq
    simp [Kernel.switch, Kernel.xchg, hne, hpoints]

theorem trans (h : Patched pts log k k₁) (h' : Patched qs log' k₁ k₂)
    (hdisjoint : ∀ q ∈ pts, q ∉ qs) : Patched (pts ++ qs) (log ++ log') k k₂ := by
  have hlive : k₂.live pts = k₁.live pts :=
    Kernel.live_congr fun q hq => h'.frame q (hdisjoint q hq)
  refine ⟨?_, ?_, ?_⟩
  · rw [h'.mem, h.mem, exchangeAll_append]
  · rw [Kernel.live_append, hlive, h.live, h'.live, h.mem, exchangeAll_append]
  · intro q hq
    obtain ⟨hpts, hqs⟩ : q ∉ pts ∧ q ∉ qs := by simpa using hq
    rw [h'.frame q hqs, h.frame q hpts]

/-- Taken back in reverse, the patches bring back what they cover, whatever
happened to memory meanwhile. -/
theorem undone {k₂ : Kernel} (h : Patched pts log k k₁)
    (hsame : ∀ q ∈ pts, k₂.points q = k₁.points q) (hnodup : pts.Nodup) :
    (k₂.restoreAll pts.reverse).mem x = if bytesAt log x = [] then k₂.mem x else k.mem x := by
  rw [Kernel.restoreAll_mem k₂ (List.nodup_reverse.mpr hnodup), Kernel.live_reverse,
    Kernel.live_congr hsame, h.live, undo_reverse]

theorem undone_mem {k₂ : Kernel} (h : Patched pts log k k₁)
    (hsame : ∀ q ∈ pts, k₂.points q = k₁.points q) (hmem : k₂.mem = k₁.mem) (hnodup : pts.Nodup) :
    (k₂.restoreAll pts.reverse).mem = k.mem := by
  funext x
  rw [h.undone hsame hnodup, hmem, h.mem, exchangeAll_mem]
  split
  case isTrue hx => simp [hx]
  case isFalse => rfl

theorem covered (h : Patched pts log k k₁) :
    bytesAt log x = [] ↔ ∀ p ∈ k₁.live pts, ¬ p.Covers x := by
  rw [h.live, ← bytesAt_eq_nil, exchangeAll_bytesAt]
  cases bytesAt log x <;> simp

end Patched

-- ---------------------------------------------------------------------------
-- The module as it is loaded
-- ---------------------------------------------------------------------------

def numOfNop : Nat := 64

def callIndirect (var : Nat) : List UInt8 := [0xff, 0x14, 0x25] ++ le32 var

def jmpIndirect (var : Nat) : List UInt8 := [0xff, 0x24, 0x25] ++ le32 var

/-- The 14 bytes behind the nops of `enter_schedule`. -/
def enterScheduleStub (env : Env) : List UInt8 :=
  callIndirect env.enterHookVar ++ jmpIndirect env.scheduleStartVar

/-- The 18 bytes behind the nops of `enter_exit`: `push %rbx`, `push %rdi`, the
call, `pop %rdi`, `pop %rbx`, the jump. -/
def enterExitStub (env : Env) : List UInt8 :=
  [0x53, 0x57] ++ callIndirect env.exitHookVar ++ [0x5f, 0x5b] ++ jmpIndirect env.doExitReenterVar

def assembled (stub : List UInt8) (behind : Nat → UInt8) : Nat → UInt8 :=
  write behind 0 (List.replicate numOfNop 0x90 ++ stub)

/-- The module is loaded beside the text `mem`; no pointer is set. -/
def load (env : Env) (mem : Nat → UInt8) : Kernel :=
  { mem
    enterSchedule := assembled (enterScheduleStub env) env.behindEnterSchedule
    enterExit := assembled (enterExitStub env) env.behindEnterExit }

end Yasched
