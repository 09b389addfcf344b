import Yasched.SwitchDoFork
import Yasched.Rel

/-!
# The displacement of a call, exchanged

Five functions take the 32-bit displacement behind an opcode for an unsigned
number, compute from it where the call or jump goes, and exchange it with one
that leads to an agent. `addr` and `offset` are the two expressions as each of
them writes them, on machine words; `addr_rel` and `offset_rel` say that they
are the same for all five.
-/

namespace Yasched

open Bytes Patch

-- ---------------------------------------------------------------------------
-- Displacements on machine words
-- ---------------------------------------------------------------------------

def displacement (mem : Nat → UInt8) (p : Nat) : BitVec 32 := .ofNat 32 (uint32 mem (p + 1))

theorem toInt_displacement (mem : Nat → UInt8) (p : Nat) :
    (displacement mem p).toInt = int32 mem (p + 1) := by
  have hlt := uint32_lt mem (p + 1)
  rw [displacement, BitVec.toInt_eq_toNat_cond, BitVec.toNat_ofNat, Nat.mod_eq_of_lt hlt, int32]
  split <;> split <;> omega

theorem calledAddr_rel (mem : Nat → UInt8) (p : Nat) :
    calledAddr mem p = (Rel.target (.ofNat 64 (p + 5)) (displacement mem p)).toNat := by
  rw [calledAddr, Rel.target, BitVec.signExtend, toInt_displacement, BitVec.toNat_add,
    BitVec.toNat_ofNat, BitVec.toNat_ofInt]
  omega

theorem callTarget_rel (mem : Nat → UInt8) (p : Nat) :
    callTarget mem p = (Rel.unsignedTarget (.ofNat 64 (p + 5)) (displacement mem p)).toNat := by
  have hlt := uint32_lt mem (p + 1)
  have hmask : (Rel.highBits 64 32).toNat = 0xffffffff00000000 := rfl
  rw [callTarget, kernelAddr, Rel.unsignedTarget, BitVec.toNat_or, hmask, BitVec.toNat_add,
    displacement, BitVec.toNat_setWidth, BitVec.toNat_ofNat, BitVec.toNat_ofNat]
  congr 1
  omega

theorem doForkAddr_callTarget (mem : Nat → UInt8) (p : Nat) :
    doForkAddr mem (p + 1) = callTarget mem p := by
  rw [doForkAddr_eq, callTarget, kernelAddr_eq]
  omega

theorem toNat_disp (a next : Nat) :
    ((Rel.disp 32 (.ofNat 64 next) (.ofNat 64 a)).toNat : Int) =
      ((a : Int) - next) % 0x100000000 := by
  rw [Rel.disp, BitVec.toNat_setWidth, BitVec.toNat_sub, BitVec.toNat_ofNat, BitVec.toNat_ofNat]
  omega

theorem displacement_eq (mem : Nat → UInt8) (p a : Nat) :
    displacement mem p = Rel.disp 32 (.ofNat 64 (p + 5)) (.ofNat 64 a) ↔
      (uint32 mem (p + 1) : Int) = ((a : Int) - (p + 5 : Nat)) % 0x100000000 := by
  have hlt := uint32_lt mem (p + 1)
  rw [← toNat_disp, ← BitVec.toNat_inj, displacement, BitVec.toNat_ofNat, Nat.mod_eq_of_lt hlt]
  omega

theorem le32_congr (h : x % 0x100000000 = y % 0x100000000) : le32 x = le32 y := by
  have hbyte {a b : Int} (h : a % 0x100 = b % 0x100) : UInt8.ofInt a = .ofInt b := by
    rw [← UInt8.toNat_inj, toNat_ofInt, toNat_ofInt, h]
  have h₀ : x % 0x100 = y % 0x100 := by omega
  have h₁ : x / 0x100 % 0x100 = y / 0x100 % 0x100 := by omega
  have h₂ : x / 0x10000 % 0x100 = y / 0x10000 % 0x100 := by omega
  have h₃ : x / 0x1000000 % 0x100 = y / 0x1000000 % 0x100 := by omega
  rw [le32, le32, hbyte h₀, hbyte h₁, hbyte h₂, hbyte h₃]

theorem rel32_disp (a p : Nat) :
    rel32 a (p + 1) = le32 (Rel.disp 32 (.ofNat 64 (p + 5)) (.ofNat 64 a)).toNat := by
  refine le32_congr ?_
  rw [toNat_disp]
  omega

theorem displacement_rel32 : displacement mem p = Rel.disp 32 (.ofNat 64 (p + 5)) (.ofNat 64 a) ↔
    read mem (p + 1) 4 = rel32 a (p + 1) := by
  rw [displacement_eq, rel32, read_le32]
  constructor <;> intro h <;> omega

theorem InText.top (h : InText a) : Rel.Top 31 (BitVec.ofNat 64 a) := by
  unfold InText at h
  unfold Rel.Top
  rw [BitVec.toNat_ofNat]
  omega

theorem InText.toNat (h : InText a) : (BitVec.ofNat 64 a).toNat = a := by
  rw [BitVec.toNat_ofNat, Nat.mod_eq_of_lt h.2]

theorem calledAddr_disp (hnext : InText (p + 5)) (ha : InText a)
    (hd : displacement mem p = Rel.disp 32 (.ofNat 64 (p + 5)) (.ofNat 64 a)) :
    calledAddr mem p = a := by
  rw [calledAddr_rel, hd, Rel.target_disp (by decide) hnext.top ha.top, ha.toNat]

theorem callTarget_disp (ha : InText a)
    (hd : displacement mem p = Rel.disp 32 (.ofNat 64 (p + 5)) (.ofNat 64 a)) :
    callTarget mem p = a := by
  rw [callTarget_rel, hd, Rel.unsignedTarget_disp (by decide) (ha.top.mono (by decide)), ha.toNat]

-- ---------------------------------------------------------------------------
-- One search, and one pair of variables
-- ---------------------------------------------------------------------------

theorem DoForkLoop.found_leads (h : DoForkLoop mem a sys distance (.found s)) :
    ∃ p, s = p + 1 ∧ leads mem a p := by
  generalize hr : Search.found s = r at h
  induction h with
  | bound => cases hr
  | missing => cases hr
  | @found distance p _ _ _ hleads =>
    cases hr
    exact ⟨p, rfl, hleads⟩
  | again _ _ _ _ _ ih => exact ih hr

theorem Kernel.restoreAll_at (k : Kernel) (hnodup : pts.Nodup) (hpt : pt ∈ pts)
    (hset : (k.points pt).point ≠ 0)
    (hapart : ∀ q ∈ pts, q ≠ pt → (k.points q).point ≠ 0 → ¬ (k.points q).Covers x) :
    (k.restoreAll pts).mem x = ((k.points pt).at? x).getD (k.mem x) := by
  obtain ⟨before, behind, rfl⟩ := List.append_of_mem hpt
  obtain ⟨hmem, -⟩ := List.nodup_cons.mp (List.nodup_middle.mp hnodup)
  have hnone : ∀ qs, (∀ q ∈ qs, q ∈ before ++ behind) → bytesAt (k.live qs) x = [] := by
    intro qs hqs
    rw [bytesAt_eq_nil]
    intro p hp
    obtain ⟨hp, hlive⟩ := List.mem_filter.mp hp
    obtain ⟨q, hq, rfl⟩ := List.mem_map.mp hp
    have hin := hqs q hq
    refine hapart q ?_ ?_ (of_decide_eq_true hlive)
    · rw [List.mem_append] at hin ⊢
      exact hin.imp_right (List.mem_cons_of_mem _)
    · exact fun heq => hmem (heq ▸ hin)
  have hlive : k.live (before ++ pt :: behind) =
      k.live before ++ k.points pt :: k.live behind := by
    simp [Kernel.live, hset]
  have hbytes : bytesAt (k.live (before ++ pt :: behind)) x = ((k.points pt).at? x).toList := by
    have hbefore := hnone before fun q hq => List.mem_append_left _ hq
    have hbehind := hnone behind fun q hq => List.mem_append_right _ hq
    unfold bytesAt at hbefore hbehind ⊢
    rw [hlive, List.filterMap_append, hbefore, List.nil_append, List.filterMap_cons, hbehind]
    cases (k.points pt).at? x <;> rfl
  rw [Kernel.restoreAll_mem k hnodup, exchangeAll_mem, hbytes]
  cases (k.points pt).at? x <;> rfl

-- ---------------------------------------------------------------------------
-- The five functions
-- ---------------------------------------------------------------------------

/-- The functions that `__switch_do_fork` is used for. -/
inductive SysFork
  | clone
  | fork
  | vfork
  deriving DecidableEq, Repr

def SysFork.point : SysFork → Point
  | clone => .cloneDoFork
  | fork => .forkDoFork
  | vfork => .vforkDoFork

/-- The functions that exchange the displacement of a call. `__switch_do_fork`
searches the function at `sys` for it. -/
inductive CallSite
  | timer
  | pgfault
  | scheduleTail
  | execve
  | doFork (f : SysFork) (sys : Nat)
  deriving DecidableEq, Repr

namespace CallSite

-- ---------------------------------------------------------------------------
-- On machine words
-- ---------------------------------------------------------------------------

/-- Where the call whose opcode is at `p` goes, as the function computes it. -/
def addr (c : CallSite) (p : BitVec 64) (field : BitVec 32) : BitVec 64 :=
  match c with
  | timer =>
    let timerSwitchPoint := p + 1
    0xffffffff00000000 ||| (field.setWidth 64 + timerSwitchPoint + 4)
  | pgfault => 0xffffffff00000000 ||| (field.setWidth 64 + p + 5)
  | scheduleTail =>
    let p := p + 1
    0xffffffff00000000 ||| (p + 4 + field.setWidth 64)
  | execve => 0xffffffff00000000 ||| (p + 5 + field.setWidth 64)
  | doFork .. =>
    let p := p + 1
    ((p + 4 + field.setWidth 64) &&& 0x00000000ffffffff) ||| 0xffffffff00000000

/-- The `unsigned int` that the function exchanges. Where the variable for it is
an `unsigned long`, `xchgl` takes its low half. -/
def offset (c : CallSite) (agent p : BitVec 64) : BitVec 32 :=
  match c with
  | pgfault => (agent - p - 5).setWidth 32
  | timer | scheduleTail | execve | doFork .. =>
    let switchPoint := p + 1
    (agent - switchPoint - 4).setWidth 32

theorem addr_rel (c : CallSite) (p : BitVec 64) (field : BitVec 32) :
    c.addr p field = Rel.unsignedTarget (p + 5) field := by
  have hnext : p + 1 + 4 = p + 5 := BitVec.add_assoc p 1 4
  rw [Rel.unsignedTarget]
  cases c with
  | timer =>
    simp only [addr, BitVec.add_assoc]
    rfl
  | pgfault =>
    simp only [addr, BitVec.add_assoc]
    rfl
  | scheduleTail =>
    simp only [addr, hnext, BitVec.add_comm]
    rfl
  | execve =>
    simp only [addr, BitVec.add_comm]
    rfl
  | doFork f sys =>
    simp only [addr, hnext, BitVec.add_comm (field.setWidth 64)]
    exact Rel.highBits_or_low _ 32

theorem offset_rel (c : CallSite) (agent p : BitVec 64) :
    c.offset agent p = Rel.disp 32 (p + 5) agent := by
  have hnext : p + 1 + 4 = p + 5 := BitVec.add_assoc p 1 4
  cases c <;> simp only [offset, BitVec.sub_sub, hnext] <;> rfl

-- ---------------------------------------------------------------------------
-- On memory
-- ---------------------------------------------------------------------------

def install (c : CallSite) (env : Env) (k : Kernel) : Int × Kernel :=
  match c with
  | timer => switchSmpApicTimerInterrupt env k
  | pgfault => switchPgfaultHandler env k
  | scheduleTail => switchScheduleTail env k
  | execve => switchExecve env k
  | doFork f sys => switchDoForkOf env.doForkAgent [(f.point, sys)] k

def restore : CallSite → Kernel → Kernel
  | timer => restoreSmpApicTimerInterrupt
  | pgfault => restorePgfaultHandler
  | scheduleTail => restoreScheduleTail
  | execve => restoreExecve
  | doFork .. => restoreDoFork

def point : CallSite → Point
  | timer => .timer
  | pgfault => .pgfault
  | scheduleTail => .scheduleTail
  | execve => .doExecve
  | doFork f _ => f.point

def points : CallSite → List Point
  | doFork .. => doForkPoints
  | c => [c.point]

def agent (c : CallSite) (env : Env) : Nat :=
  match c with
  | timer => env.satInterruptAgent
  | pgfault => env.pgfaultAgent
  | scheduleTail => env.scheduleTailAgent
  | execve => env.execveAgent
  | doFork .. => env.doForkAgent

def orig (c : CallSite) (k : Kernel) : Nat :=
  match c with
  | timer => k.origSmpApicTimerInterrupt
  | pgfault => k.linuxDoPgfault
  | scheduleTail => k.origScheduleTail
  | execve => k.origDoExecve
  | doFork .. => k.origDoFork

def Finds (c : CallSite) (env : Env) (k : Kernel) (s : Nat) : Prop :=
  match c with
  | doFork _ sys => searchDoFork k.mem k.origDoFork sys = .found s
  | c => (c.install env k).1 = 0 ∧ ((c.install env k).2.points c.point).point = s

-- ---------------------------------------------------------------------------
-- What they do
-- ---------------------------------------------------------------------------

theorem restore_eq (c : CallSite) (k : Kernel) : c.restore k = k.restoreAll c.points := by
  cases c <;> rfl

def saved (c : CallSite) (k : Kernel) (p : Nat) : Nat :=
  match c with
  | doFork .. => k.origDoFork
  | _ => callTarget k.mem p

theorem orig_switch (c : CallSite) (k : Kernel) (pt : Point) (p : Nat) (word : List UInt8) :
    c.orig (k.switch pt p word) = c.orig k := by
  cases c <;> rfl

inductive Outcome (c : CallSite) (env : Env) (k : Kernel) : Int × Kernel → Prop
  | failed : Outcome c env k (-enosys, k')
  | exchanged (p : Nat) (hmem : k₁.mem = k.mem) (horig : c.orig k₁ = c.saved k p) :
    Outcome c env k (0, k₁.switch c.point (p + 1) (rel32 (c.agent env) (p + 1)))

theorem orig_timer (k : Kernel) (v : Nat) :
    orig timer { k with origSmpApicTimerInterrupt := v } = v := rfl

theorem orig_pgfault (k : Kernel) (v : Nat) :
    orig pgfault { k with linuxDoPgfault := v } = v := rfl

theorem orig_scheduleTail (k : Kernel) (v : Nat) :
    orig scheduleTail { k with origScheduleTail := v } = v := rfl

theorem orig_execve (k : Kernel) (v : Nat) :
    orig execve { k with origDoExecve := v } = v := rfl

theorem timer_outcome : timer.Outcome env k (timer.install env k) := by
  simp only [install, switchSmpApicTimerInterrupt, verifySymbol]
  split
  · exact .failed
  split
  · exact .failed
  split
  · exact .failed
  split
  · exact .failed
  · exact .exchanged _ rfl (orig_timer k _)

theorem pgfault_outcome : pgfault.Outcome env k (pgfault.install env k) := by
  simp only [install, switchPgfaultHandler]
  split
  · exact .failed
  · exact .exchanged _ rfl (orig_pgfault k _)

theorem scheduleTail_outcome : scheduleTail.Outcome env k (scheduleTail.install env k) := by
  simp only [install, switchScheduleTail]
  split
  · exact .failed
  split
  · exact .failed
  · exact .exchanged _ rfl (orig_scheduleTail k _)

theorem execve_outcome : execve.Outcome env k (execve.install env k) := by
  simp only [install, switchExecve]
  split
  · exact .failed
  split
  · exact .failed
  split
  · exact .failed
  split
  · exact .failed
  · exact .exchanged _ rfl (orig_execve k _)

/-- What becomes of the kernel when the displacement behind the opcode at `p` is
exchanged. -/
structure Exchanged (c : CallSite) (env : Env) (k : Kernel) (p : Nat) (k' : Kernel) : Prop where
  mem : k'.mem = write k.mem (p + 1) (rel32 (c.agent env) (p + 1))
  point : k'.points c.point = { point := p + 1, word := read k.mem (p + 1) 4 }
  orig : c.orig k' = c.saved k p

theorem Exchanged.switch {k₁ : Kernel} (hmem : k₁.mem = k.mem) (horig : c.orig k₁ = c.saved k p) :
    Exchanged c env k p (k₁.switch c.point (p + 1) (rel32 (c.agent env) (p + 1))) := by
  refine ⟨?_, ?_, (orig_switch c k₁ ..).trans horig⟩
  · simp only [Kernel.switch, Kernel.xchg, hmem, Function.update_self, exchange]
  · simp only [Kernel.switch, Kernel.xchg, hmem, Function.update_self, exchange, length_rel32]

theorem Outcome.spec (h : Outcome c env k r) (hret : r.1 = 0)
    (hpoint : (r.2.points c.point).point = s) : ∃ p, s = p + 1 ∧ Exchanged c env k p r.2 := by
  cases h with
  | failed => cases hret
  | @exchanged k₁ p hmem horig =>
    have hswitch : Exchanged c env k p
        (k₁.switch c.point (p + 1) (rel32 (c.agent env) (p + 1))) := .switch hmem horig
    refine ⟨p, ?_, hswitch⟩
    rw [← hpoint, hswitch.point]

theorem doFork_found (h : Finds (.doFork f sys) env k s) : ∃ p, s = p + 1 ∧
    leads k.mem k.origDoFork p ∧
    install (.doFork f sys) env k = (0, k.switch f.point s (rel32 env.doForkAgent s)) := by
  have hfound : searchDoFork k.mem k.origDoFork sys = .found s := h
  have hloop : DoForkLoop k.mem k.origDoFork sys 0 (.found s) := by
    rw [← hfound]
    exact searchDoForkFrom_loop (Nat.le_refl _)
  obtain ⟨p, hs, hleads⟩ := hloop.found_leads
  refine ⟨p, hs, hleads, ?_⟩
  simp only [install, switchDoForkOf, hfound]

theorem Finds.exchanged (h : Finds c env k s) :
    ∃ p, s = p + 1 ∧ Exchanged c env k p (c.install env k).2 := by
  cases c with
  | timer => exact timer_outcome.spec h.1 h.2
  | pgfault => exact pgfault_outcome.spec h.1 h.2
  | scheduleTail => exact scheduleTail_outcome.spec h.1 h.2
  | execve => exact execve_outcome.spec h.1 h.2
  | doFork f sys =>
    obtain ⟨p, rfl, -, hinstall⟩ := doFork_found h
    refine ⟨p, rfl, ?_⟩
    rw [hinstall]
    exact Exchanged.switch rfl rfl

/-- The pair of variables is still as the function left it; none of the others
that `restore` exchanges covers the displacement. -/
structure Keeps (c : CallSite) (k₁ k₂ : Kernel) (s : Nat) : Prop where
  point : k₂.points c.point = k₁.points c.point
  apart : ∀ q ∈ c.points, q ≠ c.point → (k₂.points q).point ≠ 0 →
    ∀ i < 4, ¬ (k₂.points q).Covers (s + i)

/-- The displacement at `s`, which led to `t`, is exchanged with the one that
the function computes and leads to the agent; `t` is computed, and is where the
call goes after `restore`. -/
structure Arithmetic (c : CallSite) (env : Env) (k : Kernel) (s t : Nat) : Prop where
  addr : (c.addr (.ofNat 64 (s - 1)) (.ofNat 32 (uint32 k.mem s))).toNat = t
  written : (c.install env k).2.mem =
    write k.mem s (le32 (c.offset (.ofNat 64 (c.agent env)) (.ofNat 64 (s - 1))).toNat)
  installed : calledAddr (c.install env k).2.mem (s - 1) = c.agent env
  restored : ∀ k₂, c.Keeps (c.install env k).2 k₂ s → calledAddr (c.restore k₂).mem (s - 1) = t

structure Exact (c : CallSite) (env : Env) (k : Kernel) (s t : Nat) : Prop
    extends Arithmetic c env k s t where
  saved : c.orig (c.install env k).2 = t

/-- `__switch_do_fork` saves nothing: it has the target from the lookup of the
symbol, or not at all. -/
def Saves (c : CallSite) (k : Kernel) : Prop :=
  match c with
  | doFork .. => k.origDoFork ≠ 0
  | timer | pgfault | scheduleTail | execve => True

theorem toNat_addr (c : CallSite) (mem : Nat → UInt8) (p : Nat) :
    (c.addr (.ofNat 64 p) (displacement mem p)).toNat = callTarget mem p := by
  rw [addr_rel, callTarget_rel, BitVec.ofNat_add]
  rfl

theorem le32_offset (c : CallSite) (a p : Nat) :
    le32 (c.offset (.ofNat 64 a) (.ofNat 64 p)).toNat = rel32 a (p + 1) := by
  rw [offset_rel, rel32_disp, BitVec.ofNat_add]
  rfl

theorem saved_iff (h : Finds c env k (p + 1)) (ht : t ≠ 0) (htarget : callTarget k.mem p = t) :
    c.saved k p = t ↔ c.Saves k := by
  cases c with
  | timer => exact iff_of_true htarget trivial
  | pgfault => exact iff_of_true htarget trivial
  | scheduleTail => exact iff_of_true htarget trivial
  | execve => exact iff_of_true htarget trivial
  | doFork f sys =>
    obtain ⟨q, heq, hleads, -⟩ := doFork_found h
    obtain rfl : p = q := Nat.succ.inj heq
    rw [leads, doForkAddr_callTarget, htarget] at hleads
    show k.origDoFork = t ↔ k.origDoFork ≠ 0
    constructor
    · intro horig hzero
      exact ht (horig.symm.trans hzero)
    · intro hknown
      simpa [isDoFork, hknown, eq_comm] using hleads

theorem nodup_points (c : CallSite) : c.points.Nodup := by
  cases c with
  | doFork f sys =>
    show doForkPoints.Nodup
    decide
  | _ => exact List.nodup_singleton _

theorem point_mem (c : CallSite) : c.point ∈ c.points := by
  cases c with
  | doFork f sys =>
    show f.point ∈ doForkPoints
    cases f <;> decide
  | _ => exact List.mem_singleton.mpr rfl

theorem restored_read (hs : s ≠ 0) (hpoint : k₂.points c.point = { point := s, word := read m s 4 })
    (hapart : ∀ q ∈ c.points, q ≠ c.point → (k₂.points q).point ≠ 0 →
      ∀ i < 4, ¬ (k₂.points q).Covers (s + i)) :
    read (restore c k₂).mem s 4 = read m s 4 := by
  refine read_congr fun i hi => ?_
  rw [restore_eq, Kernel.restoreAll_at k₂ (nodup_points c) (point_mem c) (by rwa [hpoint])
    fun q hq hne hset => hapart q hq hne hset i hi, hpoint]
  simp [at?, hi]

section
variable {c : CallSite} {env : Env} {k : Kernel} {s t : Nat}

theorem displacement_of (hfield : (uint32 k.mem (p + 1) : Int) = ((t : Int) - (p + 1 : Nat) - 4) %
    0x100000000) : displacement k.mem p = Rel.disp 32 (.ofNat 64 (p + 5)) (.ofNat 64 t) := by
  rw [displacement_eq]
  omega

theorem Finds.arithmetic (hfinds : Finds c env k s) (hnext : InText (s + 4))
    (ha : InText (c.agent env)) (ht : InText t)
    (hfield : (uint32 k.mem s : Int) = ((t : Int) - s - 4) % 0x100000000) :
    c.Arithmetic env k s t := by
  obtain ⟨p, rfl, hexchanged⟩ := hfinds.exchanged
  have hdisp := displacement_of hfield
  refine ⟨(toNat_addr c k.mem p).trans (callTarget_disp ht hdisp), ?_, ?_, ?_⟩
  · rw [hexchanged.mem, Nat.add_sub_cancel, le32_offset]
  · show calledAddr (c.install env k).2.mem p = c.agent env
    refine calledAddr_disp hnext ha (displacement_rel32.mpr ?_)
    rw [hexchanged.mem]
    exact read_write k.mem
  · intro k₂ hkeeps
    have hread := restored_read (Nat.succ_ne_zero p) (hkeeps.point.trans hexchanged.point)
      hkeeps.apart
    show calledAddr (c.restore k₂).mem p = t
    refine calledAddr_disp hnext ht ?_
    rw [← hdisp, displacement, displacement, uint32_inj.mpr hread]

end

/-- Whatever the distance and its sign: a function is exact unless it is
`__switch_do_fork` and does not know the target. -/
theorem exact_iff (c : CallSite) (env : Env) (k : Kernel) (s t : Nat) (hfinds : c.Finds env k s)
    (hnext : InText (s + 4)) (ha : InText (c.agent env)) (ht : InText t)
    (hfield : (uint32 k.mem s : Int) = ((t : Int) - s - 4) % 0x100000000) :
    c.Exact env k s t ↔ c.Saves k := by
  have harithmetic := hfinds.arithmetic hnext ha ht hfield
  obtain ⟨p, rfl, hexchanged⟩ := hfinds.exchanged
  have hzero : t ≠ 0 := fun heq => absurd (heq ▸ ht) (by decide)
  rw [← saved_iff hfinds hzero (callTarget_disp ht (displacement_of hfield)), ← hexchanged.orig]
  constructor
  · exact fun h => h.saved
  · exact fun hsaved => ⟨harithmetic, hsaved⟩

def backwardCall : Kernel :=
  load sampleEnv (write (fun _ => 0x90) 0xffffffff81200000 [0xe8, 0xfb, 0xff, 0xef, 0xff])

theorem exact_iff_backwardCall :
    Exact .scheduleTail sampleEnv backwardCall 0xffffffff81200001 0xffffffff81100000 :=
  (exact_iff .scheduleTail sampleEnv backwardCall 0xffffffff81200001 0xffffffff81100000
    ⟨by decide, by decide⟩ (by decide) (by decide) (by decide) (by decide)).mpr trivial

/-- The symbol was not found; what the call leads to begins with `push %rbp`. -/
def unknownFork : Kernel :=
  load sampleEnv (write (write (fun _ => 0x90) 0xffffffff81700200 [0x55])
    0xffffffff81700000 [0xe8, 0xfb, 0x01, 0, 0])

theorem exact_fails :
    ¬ ∀ (c : CallSite) env k s t, c.Finds env k s → InText s → InText (s + 4) →
      InText (c.agent env) → InText t →
      (uint32 k.mem s : Int) = ((t : Int) - s - 4) % 0x100000000 → c.Exact env k s t := by
  intro h
  have hfound : searchDoFork unknownFork.mem 0 0xffffffff81700000 = .found 0xffffffff81700001 := by
    decide
  have hexact := h (.doFork .clone 0xffffffff81700000) sampleEnv unknownFork 0xffffffff81700001
    0xffffffff81700200 hfound (by decide) (by decide) (by decide) (by decide) (by decide)
  have hsaved : unknownFork.origDoFork = 0xffffffff81700200 := by
    rw [← hexact.saved]
    decide
  revert hsaved
  decide

end CallSite

end Yasched
