import Yasched.Names
import Yasched.Orders
import Yasched.Teardown

/-!
# From the command line to the CPU

What an operator types reaches the job through the client, the device and the
zone's list, and each thread of the job with the next tick of the timer that
finds it in user mode. From there on the thread executes no instruction, unless
the job is released or something else wakes the thread.
-/

namespace Yasched.Tick

open Client Names

theorem orderly_of_run (hr : Runs.run tickStep (start n) es = some x) : Orderly x.sys := by
  refine Runs.invariant (I := fun x => Orderly x.sys) (fun x e x' ho hs => ?_) (init_orderly n) hr
  rcases (tick_cases hs).sys_eq with hsame | ⟨e', -, hstep⟩
  · rwa [hsame]
  · exact step_orderly ho hstep

/-- A suspension wakes nobody, so that it is one step. -/
theorem control_suspend (hw : s.waking = none) :
    control s .suspend zid jid = some (jobOp .suspend h keep s zid jid).2 := by
  unfold control jobOp
  rw [hw]
  cases searchZoneById zid with
  | none => rfl
  | some zone =>
    cases searchJobById s jid with
    | none => rfl
    | some p => simp [writeState, JobOp.write, wakeUp]

def Released (p : Nat) (x : Ticked) : TickEvent → Prop
  | .sys e => Orders .resume p x.sys e ∨ Orders .kill p x.sys e
  | _ => False

def Rests (p : Nat) (x : Ticked) : Prop := p < x.sys.njobs ∧ x.sys.jobState p = .suspended

theorem Rests.step (h : Rests p x) (hn : ¬ Released p x e) (hs : tickStep x e = some x') :
    Rests p x' := by
  rcases (tick_cases hs).sys_eq with hsame | ⟨e', rfl, hstep⟩
  · unfold Rests
    rwa [hsame]
  · refine ⟨Nat.lt_of_lt_of_le h.1 (step_njobs hstep), ?_⟩
    rcases step_state h.1 hstep with hsame | horder
    · exact hsame.trans h.2
    · cases hj : x'.sys.jobState p with
      | suspended => rfl
      | running =>
        rw [hj] at horder
        exact absurd (.inl horder) hn
      | killed =>
        rw [hj] at horder
        exact absurd (.inr horder) hn

/-- Unless another command is under way, this one ends with 0. From then on, while
the job is not released, a tick that finds one of its threads in user mode is the
end of the instructions of this thread, until something other than the queue of
the job wakes it. -/
theorem suspend_takes_effect {process : Process} {x : Ticked}
    (hr : Runs.run tickStep (start n) es = some x) (hidle : x.sys.waking = none)
    (hb : x.sys.njobs < jidBound) (hp : x.sys.Live p) (hid : (x.sys.jobs p).id ≤ maxJobId)
    (hzone : 14 ≤ zoneSize) (hjob : 24 ≤ jobSize) (hopen : process.openErrno = none)
    (herrno : process.errno = 0) (keep : List Nat)
    (hargv : argv ∈ usageLines name .suspend ((zoneName zoneSize yaSchedZoneId).drop 5)
      ((jobName jobSize (x.sys.jobs p).id).drop 4)) :
    ∃ r, yasadmin process .all keep x.sys argv = some r ∧ r.code = 0 ∧
      ∀ fs y t thread resched fs', Runs.run tickStep { x with sys := r.sys } fs = some y →
        y.kernel t = false → (y.sys.tasks t).thread = some thread → thread.job = p →
        Runs.Along tickStep (fun x e => ¬ Released p x e) { x with sys := r.sys }
          (fs ++ .tick t resched :: fs') →
        Runs.Along tickStep (fun _ e => e ≠ .sys (.wake t)) y (.tick t resched :: fs') →
        Runs.Along tickStep (fun _ e => e ≠ .user t) y (.tick t resched :: fs') := by
  obtain ⟨r, hmain, hcode, hsys, hjobs⟩ := named_performs (orderly_of_run hr).numbered hb hp hid
    hzone hjob hopen herrno hargv
  refine ⟨r, hmain, hcode, ?_⟩
  rintro fs y t thread resched fs' hfs huser ht rfl hkept hwake
  have hcontrol : step .all x.sys (.control .suspend yaSchedZoneId (x.sys.jobs thread.job).id) =
      some r.sys := hsys ▸ control_suspend hidle
  have hstep : tickStep x (.sys (.control .suspend yaSchedZoneId (x.sys.jobs thread.job).id)) =
      some { x with sys := r.sys } := by
    simp [tickStep, current, Event.target, cleared, hcontrol]
  have hrun : Runs.run tickStep (start n) (es ++ [.sys (.control .suspend yaSchedZoneId
      (x.sys.jobs thread.job).id)]) = some { x with sys := r.sys } :=
    Runs.run_append.mpr ⟨x, hr, by simp [Runs.run, hstep]⟩
  have hy : UserMode y := userMode_of_run (Runs.run_append.mpr ⟨_, hrun, hfs⟩)
  have hstart : Rests thread.job { x with sys := r.sys } := by
    refine ⟨Nat.lt_of_lt_of_le hp.1 (step_njobs hcontrol), ?_⟩
    simp [Sys.jobState, hjobs, JobOp.write]
  obtain ⟨hbefore, hafter⟩ := Runs.along_append.mp hkept
  have hrests : Rests thread.job y := Runs.invariant_along (fun _ _ _ h hn hs => h.step hn hs)
    hstart hbefore hfs
  refine tick_detains hy huser ht ?_ hwake
  exact Runs.always_of_along (fun _ h => h.2) (fun _ _ _ h hn hs => h.step hn hs) hrests
    (hafter y hfs)

theorem suspend_takes_effect_only : ∃ x r, Runs.run tickStep (start 1) admitted = some x ∧
    yasadmin sampleProcess .all [] x.sys (sampleLine .suspend) = some r ∧ r.code = 0 ∧
      Runs.Along tickStep (fun _ e => e ≠ .user 0) { x with sys := r.sys }
        (.tick 0 false :: tripped) := by
  obtain ⟨x, thread, hr, hidle, hnjobs, hfreed, hid, huser, ht, hjob⟩ : ∃ x thread,
      Runs.run tickStep (start 1) admitted = some x ∧ x.sys.waking = none ∧ x.sys.njobs = 1 ∧
      (x.sys.jobs 0).freed = 0 ∧ (x.sys.jobs 0).id = 0 ∧ x.kernel 0 = false ∧
      ((jobOp .suspend .all [] x.sys 0 0).2.tasks 0).thread = some thread ∧ thread.job = 0 :=
    ⟨_, _, rfl, rfl, rfl, rfl, rfl, rfl, rfl, rfl⟩
  have hb : x.sys.njobs < jidBound := by
    rw [hnjobs]
    decide
  have hp : x.sys.Live 0 := ⟨by rw [hnjobs]; decide, hfreed⟩
  have hle : (x.sys.jobs 0).id ≤ maxJobId := by
    rw [hid]
    exact Nat.zero_le _
  have hopen : sampleProcess.openErrno = none := rfl
  have hargv : sampleLine .suspend ∈ usageLines [0x79] .suspend ((zoneName 16 yaSchedZoneId).drop 5)
      ((jobName 32 (x.sys.jobs 0).id).drop 4) := by
    rw [hid]
    exact List.mem_cons_self
  obtain ⟨r, hmain, hcode, heffect⟩ := suspend_takes_effect hr hidle hb hp hle
    (show 14 ≤ 16 by decide) (show 24 ≤ 32 by decide) hopen rfl [] hargv
  have hnamed : ∃ r', yasadmin sampleProcess .all [] x.sys (sampleLine .suspend) = some r' ∧
      r'.code = 0 ∧ r'.sys = (jobOp .suspend .all [] x.sys yaSchedZoneId (x.sys.jobs 0).id).2 ∧ _ :=
    named_performs (orderly_of_run hr).numbered hb hp hle (show 14 ≤ 16 by decide)
      (show 24 ≤ 32 by decide) hopen rfl hargv
  obtain ⟨r', hmain', -, hsys, -⟩ := hnamed
  obtain rfl : r = r' := Option.some.inj (hmain.symm.trans hmain')
  refine ⟨x, r, hr, hmain, hcode, heffect [] _ 0 thread false tripped rfl huser ?_ hjob ?_ ?_⟩
  · rw [hsys, hid]
    exact ht
  · refine Runs.along_of_mem fun e he x hreleased => ?_
    have hevents : ∀ e ∈ [] ++ .tick 0 false :: tripped,
        e = .tick 0 false ∨ e = .sys (.call 0) ∨ e = .sys (.hook 0) := by decide
    rcases hevents e he with rfl | rfl | rfl <;> simp [Released, Orders] at hreleased
  · exact Runs.along_of_mem fun e he _ => by
      revert e
      decide

end Yasched.Tick
