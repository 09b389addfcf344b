import Yasched.Installers
import Yasched.Jobs
import Mathlib.Data.List.Nodup

/-!
# Taking the hooks out again

`perform_inception` puts nine hooks in; at the first failure it jumps into the
chain of labels that takes out what is in, latest first. `remove_inception`
takes all of them out, latest first.

Every hook but the last exchanges at most one word, so that reverse order is
the order of undoing (`undo_reverse`). `switch_do_fork` exchanges up to three
and `restore_do_fork` undoes them in the order in which they were made.
-/

namespace Yasched

open Bytes Patch

/-- A line of `perform_inception`, the label that undoes it, and the points
where it may exchange a word. -/
structure Stage where
  points : List Point
  switch : Kernel → Int × Kernel
  restore : Kernel → Kernel

def earlyStages (env : Env) : List Stage :=
  [{ points := [.doExecve], switch := switchSyscalls env, restore := restoreSyscalls },
   { points := [.pgfault], switch := switchPgfaultHandler env, restore := restorePgfaultHandler },
   { points := [], switch := switchScheduleCall env, restore := restoreScheduleCall },
   { points := [.timer], switch := switchSmpApicTimerInterrupt env
     restore := restoreSmpApicTimerInterrupt },
   { points := [.scheduleTail], switch := switchScheduleTail env, restore := restoreScheduleTail },
   { points := [.scheduleStart], switch := setupEnterScheduleHook env
     restore := removeEnterScheduleHook },
   { points := [.scheduleEnd], switch := setupLeaveScheduleHook env
     restore := removeLeaveScheduleHook },
   { points := [.doExitStart], switch := setupEnterExitHook env, restore := removeEnterExitHook }]

def forkStage (env : Env) : Stage :=
  { points := doForkPoints, switch := switchDoFork env, restore := restoreDoFork }

/-- The lines one after another; `cleanup` is what the label does to which a
failure goes. -/
def perform (cleanup : Kernel → Kernel) : List Stage → Kernel → Int × Kernel
  | [], k => (0, k)
  | s :: rest, k =>
    match s.switch k with
    | (ret, k) => if ret ≠ 0 then (-einval, cleanup k) else perform (cleanup ∘ s.restore) rest k

def performInception (env : Env) (k : Kernel) : Int × Kernel :=
  perform id (earlyStages env ++ [forkStage env]) k

/-- What follows the restoring, the wait for `ya_count`, changes no text. -/
def removeInception (k : Kernel) : Kernel :=
  let k := restoreDoFork k
  let k := removeEnterExitHook k
  let k := removeLeaveScheduleHook k
  let k := removeEnterScheduleHook k
  let k := restoreScheduleTail k
  let k := restoreSmpApicTimerInterrupt k
  let k := restoreScheduleCall k
  let k := restorePgfaultHandler k
  restoreSyscalls k

-- ---------------------------------------------------------------------------
-- The lines before switch_do_fork
-- ---------------------------------------------------------------------------

/-- The line leaves nothing behind when it fails, and its label takes its
patches back latest first. -/
structure Stage.Orderly (s : Stage) : Prop where
  outcome : ∀ k, Outcome s.points k (s.switch k)
  restore : ∀ k, s.restore k = k.restoreAll s.points.reverse

theorem earlyStages_orderly : ∀ s ∈ earlyStages env, s.Orderly := by
  simp only [earlyStages, List.forall_mem_cons]
  refine ⟨?_, ?_, ?_, ?_, ?_, ?_, ?_, ?_, by simp⟩
  · exact ⟨fun _ => switchSyscalls_outcome, fun _ => rfl⟩
  · exact ⟨fun _ => switchPgfaultHandler_outcome, fun _ => rfl⟩
  · exact ⟨switchScheduleCall_outcome env, fun _ => rfl⟩
  · exact ⟨fun _ => switchSmpApicTimerInterrupt_outcome, fun _ => rfl⟩
  · exact ⟨fun _ => switchScheduleTail_outcome, fun _ => rfl⟩
  · exact ⟨fun _ => setupEnterScheduleHook_outcome, fun _ => rfl⟩
  · exact ⟨fun _ => setupLeaveScheduleHook_outcome, fun _ => rfl⟩
  · exact ⟨fun _ => setupEnterExitHook_outcome, fun _ => rfl⟩

/-- The state in which the line after `stages` runs, if none of them fails. -/
def switchAll : List Stage → Kernel → Option Kernel
  | [], k => some k
  | s :: rest, k =>
    match s.switch k with
    | (ret, k) => if ret ≠ 0 then none else switchAll rest k

theorem switchAll_cons : switchAll (s :: stages) k =
    if (s.switch k).1 ≠ 0 then none else switchAll stages (s.switch k).2 := rfl

theorem perform_cons : perform cleanup (s :: stages) k =
    if (s.switch k).1 ≠ 0 then (-einval, cleanup (s.switch k).2)
    else perform (cleanup ∘ s.restore) stages (s.switch k).2 := rfl

def earlyPoints : List Point :=
  [.doExecve, .pgfault, .timer, .scheduleTail, .scheduleStart, .scheduleEnd, .doExitStart]

/-- Orderly lines either fail and leave memory as it was before the first of
them, or get to the line after them, whose failure takes everything back. -/
theorem perform_orderly (stages : List Stage) (last : Stage) (horderly : ∀ s ∈ stages, s.Orderly)
    (hnodup : (pts ++ stages.flatMap (·.points)).Nodup) (h : Patched pts log k₀ k)
    (hcleanup : ∀ k, cleanup k = k.restoreAll pts.reverse) :
    (switchAll stages k = none ∧ ∃ k',
      perform cleanup (stages ++ [last]) k = (-einval, k') ∧ k'.mem = k₀.mem) ∨
    ∃ k' log' cleanup', switchAll stages k = some k' ∧
      Patched (pts ++ stages.flatMap (·.points)) log' k₀ k' ∧
      (∀ k, cleanup' k = k.restoreAll (pts ++ stages.flatMap (·.points)).reverse) ∧
      perform cleanup (stages ++ [last]) k = perform cleanup' [last] k' := by
  induction stages generalizing pts log k cleanup with
  | nil =>
    simp only [List.flatMap_nil, List.append_nil, List.nil_append]
    exact .inr ⟨k, log, cleanup, rfl, h, hcleanup, rfl⟩
  | cons s stages ih =>
    have hs := horderly s List.mem_cons_self
    have hout := hs.outcome k
    rw [List.flatMap_cons, ← List.append_assoc] at hnodup ⊢
    have hpts : (pts ++ s.points).Nodup := (List.nodup_append.mp hnodup).1
    have hdisjoint : ∀ q ∈ pts, q ∉ s.points :=
      fun q hq hq' => (List.nodup_append.mp hpts).2.2 q hq q hq' rfl
    rw [switchAll_cons, List.cons_append, perform_cons]
    generalize s.switch k = r at hout
    cases hout with
    | @failed k' hmem hpoints =>
      have hret : -enosys ≠ 0 := by decide
      simp only [hret, ne_eq, not_false_eq_true, ↓reduceIte]
      refine .inl ⟨trivial, cleanup k', rfl, ?_⟩
      rw [hcleanup]
      exact h.undone_mem (fun q hq => hpoints q (hdisjoint q hq)) hmem (List.nodup_append.mp hpts).1
    | @patched log' k' hswitched =>
      simp only [ne_eq, not_true_eq_false, ↓reduceIte]
      refine ih (fun s hs => horderly s (List.mem_cons_of_mem _ hs)) hnodup
        (h.trans hswitched hdisjoint) fun k => ?_
      rw [Function.comp_apply, hcleanup, hs.restore, List.reverse_append, Kernel.restoreAll_append]

-- ---------------------------------------------------------------------------
-- switch_do_fork and the whole
-- ---------------------------------------------------------------------------

def forkPatches (env : Env) (k : Kernel) : List (Patch UInt8) :=
  doForkPatches env.doForkAgent (env.procKallsyms "_do_fork") k.mem (sysForkFamily k)

theorem switchDoFork_patched (env : Env) (k : Kernel)
    (hdead : ∀ q ∈ doForkPoints, (k.points q).point = 0) :
    ∃ k', Patched doForkPoints (forkPatches env k) k k' ∧
      (switchDoFork env k = (0, k') ∨ switchDoFork env k = (-enosys, restoreDoFork k')) := by
  have hsys : 0 ∉ sysForkFamily k := by
    intro h
    obtain ⟨stub, -, hzero⟩ := List.mem_map.mp h
    exact kernelAddr_ne_zero _ hzero
  obtain ⟨k', hpatched, hret⟩ := switchDoForkOf_patched env.doForkAgent
    { k with origDoFork := env.procKallsyms "_do_fork" }
    (doForkPoints.zip (sysForkFamily k)) (by simp [doForkPoints, sysForkFamily]) hdead
  rw [switchDoFork, if_neg hsys]
  exact ⟨k', ⟨hpatched.mem, hpatched.live, hpatched.frame⟩, hret⟩

theorem removeInception_eq (k : Kernel) :
    removeInception k = (restoreDoFork k).restoreAll earlyPoints.reverse := by
  have hreverse : earlyPoints.reverse = [.doExitStart, .scheduleEnd, .scheduleStart,
      .scheduleTail, .timer, .pgfault, .doExecve] := rfl
  simp only [hreverse, Kernel.restoreAll, List.foldl_cons, List.foldl_nil, removeInception,
    restoreSyscalls, restoreExecve, restorePgfaultHandler, restoreScheduleCall,
    restoreSmpApicTimerInterrupt, restoreScheduleTail, removeEnterScheduleHook,
    removeLeaveScheduleHook, removeEnterExitHook]

theorem final_text {k : Kernel} (h : Patched earlyPoints log k₀ k)
    (hfork : Patched doForkPoints (forkPatches env k) k k') :
    ((restoreDoFork k').restoreAll earlyPoints.reverse).mem x = k₀.mem x ↔
      (bytesAt log x = [] → Returns k.mem (forkPatches env k) x) := by
  have hsame : ∀ q ∈ earlyPoints, (restoreDoFork k').points q = k.points q := by
    intro q hq
    have hother : q ∉ doForkPoints := by revert q; decide
    rw [restoreDoFork, Kernel.restoreAll_points _ hother, hfork.frame q hother]
  have hrestored : (restoreDoFork k').mem x = k.mem x ↔ Returns k.mem (forkPatches env k) x := by
    rw [restoreDoFork, Kernel.restoreAll_mem _ (by decide), hfork.mem, hfork.live, undo_inOrder_iff]
  have hmem : bytesAt log x = [] → k.mem x = k₀.mem x := by
    intro hx
    rw [h.mem, exchangeAll_mem, hx]
    rfl
  rw [h.undone hsame (by decide)]
  split
  case isTrue hx => rw [← hmem hx, hrestored]; simp [hx]
  case isFalse hx => simp [hx]

/-- Every run of `perform_inception`: it ends before `switch_do_fork`, or with
what that makes of the state it finds. -/
theorem performInception_cases (env : Env) (mem : Nat → UInt8) :
    (switchAll (earlyStages env) (load env mem) = none ∧ ∃ k',
      performInception env (load env mem) = (-einval, k') ∧ k'.mem = mem) ∨
    ∃ k log k', switchAll (earlyStages env) (load env mem) = some k ∧
      Patched earlyPoints log (load env mem) k ∧
      Patched doForkPoints (forkPatches env k) k k' ∧
      (performInception env (load env mem) = (0, k') ∨
        performInception env (load env mem) =
          (-einval, (restoreDoFork k').restoreAll earlyPoints.reverse)) := by
  have hload : Patched [] [] (load env mem) (load env mem) := Patched.refl _ (by simp)
  have hnodup : ([] ++ (earlyStages env).flatMap Stage.points).Nodup :=
    show earlyPoints.Nodup by decide
  have hid : ∀ k : Kernel, id k = k.restoreAll [].reverse := fun _ => rfl
  rcases perform_orderly (earlyStages env) (forkStage env) earlyStages_orderly hnodup hload hid with
    ⟨hnone, hfailed⟩ | ⟨k, log, cleanup, hsome, hpatched, hcleanup, hperform⟩
  · exact .inl ⟨hnone, hfailed⟩
  · refine .inr ⟨k, log, ?_⟩
    have hdead : ∀ q ∈ doForkPoints, (k.points q).point = 0 := by
      intro q hq
      have hearly : q ∉ earlyPoints := by revert q; decide
      rw [hpatched.frame q hearly]
      rfl
    obtain ⟨k', hfork, hret⟩ := switchDoFork_patched env k hdead
    refine ⟨k', hsome, hpatched, hfork, ?_⟩
    rw [performInception, hperform, perform_cons]
    rcases hret with hret | hret
    · left
      simp [forkStage, hret, perform]
    · right
      have herr : -enosys ≠ 0 := by decide
      simp only [forkStage, hret, herr, ne_eq, not_false_eq_true, ↓reduceIte, hcleanup]
      rfl

/-- A failing `perform_inception` leaves the text as it was; after one that
succeeds, `remove_inception` brings it back. -/
def TextRestored (env : Env) (k : Kernel) : Prop :=
  let r := performInception env k
  (r.1 ≠ 0 → r.2.mem = k.mem) ∧ (r.1 = 0 → (removeInception r.2).mem = k.mem)

theorem TextRestored.removed (h : TextRestored env k) (hret : (performInception env k).1 = 0) :
    (removeInception (performInception env k).2).mem = k.mem := h.2 hret

/-- The text comes back exactly when, in the state in which `switch_do_fork`
runs, it comes back byte for byte where no earlier patch lies. -/
theorem text_restored_iff (env : Env) (mem : Nat → UInt8) :
    TextRestored env (load env mem) ↔
      ∀ k, switchAll (earlyStages env) (load env mem) = some k →
        ∀ x, (∀ p ∈ k.live earlyPoints, ¬ p.Covers x) → Returns k.mem (forkPatches env k) x := by
  have hret : -einval ≠ 0 := by decide
  have hmem : (load env mem).mem = mem := rfl
  rcases performInception_cases env mem with
    ⟨hnone, k', hperform, hsame⟩ | ⟨k, log, k', hsome, hpatched, hfork, hperform⟩
  · -- A line before `switch_do_fork` fails.
    simp [TextRestored, hperform, hnone, hret, hsame, hmem]
  · have hfinal : ((restoreDoFork k').restoreAll earlyPoints.reverse).mem = (load env mem).mem ↔
        ∀ x, (∀ p ∈ k.live earlyPoints, ¬ p.Covers x) → Returns k.mem (forkPatches env k) x := by
      rw [funext_iff]
      exact forall_congr' fun x => (final_text hpatched hfork).trans (by rw [hpatched.covered])
    -- Success and failure leave the same text, once everything is undone.
    rcases hperform with hperform | hperform
    · simp [TextRestored, hperform, removeInception_eq, hsome, hfinal]
    · simp [TextRestored, hperform, hret, hsome, hfinal]

-- ---------------------------------------------------------------------------
-- Three entries of the system call table that lead to one call
-- ---------------------------------------------------------------------------

def image (regions : List (Patch UInt8)) (x : Nat) : UInt8 :=
  (regions.findSome? (·.at? x)).getD 0xe8

def sampleEnv : Env where
  kallsyms symbol :=
    if symbol = "sys_call_table" then 0xffffffff81000000
    else if symbol = "SyS_execve" then 0xffffffff81100000
    else if symbol = "getname" then 0xffffffff81100105
    else if symbol = "ret_from_fork" then 0xffffffff81200000
    else 0
  procKallsyms symbol := if symbol = "do_exit" then 0xffffffff81300000 else 0
  idtBase := 0xffffffff81400000
  localTimerVector := 0xef
  schedule := 0xffffffff81500000
  execveAgent := 0xffffffffa0000000
  pgfaultAgent := 0xffffffffa0000100
  satInterruptAgent := 0xffffffffa0000200
  scheduleTailAgent := 0xffffffffa0000300
  enterScheduleHook := 0xffffffffa0000400
  leaveScheduleHook := 0xffffffffa0000500
  enterExitHook := 0xffffffffa0000600
  doForkAgent := 0xffffffffa0000700
  enterSchedule := 0xffffffffa0001000
  leaveSchedule := 0xffffffffa0001100
  enterExit := 0xffffffffa0001200
  jmpEnterSchedule i := if i = 0 then 0xe9 else 0
  jmpLeaveSchedule i := if i = 0 then 0xe9 else 0
  jmpDoExit i := if i = 0 then 0xe9 else 0
  enterHookVar := 0xffffffffa0002000
  scheduleStartVar := 0xffffffffa0002008
  exitHookVar := 0xffffffffa0002010
  doExitReenterVar := 0xffffffffa0002018
  behindEnterSchedule _ := 0
  behindEnterExit _ := 0

/-- `push %rbp` and more, eight bytes in all, and `sub $0x30, %rsp`. -/
def sampleProlog : List UInt8 :=
  [0x55, 0x48, 0x89, 0xe5, 0x41, 0x57, 0x41, 0x56, 0x48, 0x83, 0xec, 0x30]

def sampleGate (x : UInt8) : List UInt8 :=
  [0, x, 0x10, 0, 0, 0x8e, 0x60, 0x81, 0xff, 0xff, 0xff, 0xff, 0, 0, 0, 0]

/-- The entries 56, 57 and 58 of the table are one stub, whose function calls
something at `0xffffffff81700200` that starts like a function, as the agent
does. -/
def sharedText : Nat → UInt8 := image
  [{ point := 0xffffffff810001c0
     word := (List.replicate 3 [0, 0, 0x70, 0x81, 0xff, 0xff, 0xff, 0xff]).flatten },
   { point := 0xffffffff81100000, word := [0xe8, 0, 0x01, 0, 0] },
   { point := 0xffffffff814000e0, word := sampleGate 0 },
   { point := 0xffffffff81400ef0, word := sampleGate 0x10 },
   { point := 0xffffffff81500000, word := [0xe8, 0xfb, 0, 0, 0] },
   { point := 0xffffffff81500100, word := sampleProlog ++ sig },
   { point := 0xffffffff81300000, word := sampleProlog },
   { point := 0xffffffff81700000, word := [0x48, 0x8d, 0x05, 0xf9, 0, 0, 0] },
   { point := 0xffffffff81700100, word := [0xe8, 0xfb, 0, 0, 0] },
   { point := 0xffffffff81700200, word := [0x55] },
   { point := 0xffffffffa0000700, word := [0x55] }]

/-- The one field is exchanged three times, and undone in the same order it
keeps the displacement of the agent. -/
theorem text_restored_fails : ¬ ∀ env mem, TextRestored env (load env mem) := by
  intro h
  have hret : (performInception sampleEnv (load sampleEnv sharedText)).1 = 0 := by decide +kernel
  have hbyte : (removeInception (performInception sampleEnv (load sampleEnv sharedText)).2).mem
      0xffffffff81700102 ≠ sharedText 0xffffffff81700102 := by decide +kernel
  rw [(h sampleEnv sharedText).removed hret] at hbyte
  exact hbyte rfl

end Yasched
