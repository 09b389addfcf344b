import Yasched.Loading

/-!
# When nobody is in the module any more

The functions of the module that the kernel is led into, as sequences of the
instructions that matter: the two atomic operations on `ya_count`, the early
exits of a body, calls inside the module, and the one that leaves it. Every
task has a stack of the activations of these functions, and an interrupt or a
call of the kernel can add one wherever the task is.

`ya_count` is the sum of what the bodies in progress have added. It covers
neither what comes before the addition nor what comes after the subtraction,
and `remove_inception` waits for nothing else.
-/

namespace Yasched

open Finset

def execveYaCount : Nat := 100333
def doForkYaCount : Nat := 65719
def schedTailYaCount : Nat := 47111
def enterExitYaCount : Nat := 787
def enterSchedYaCount : Nat := 104711
def leaveSchedYaCount : Nat := 102233
def pgfaultYaCount : Nat := 95597
def timerYaCount : Nat := 100801

/-- The agents, the trampolines and the functions that these call. -/
inductive Func
  | execveAgent
  | doForkAgent
  | scheduleTailAgent
  | pgfaultAgent
  | satInterruptAgent
  | enterSchedule
  | enterScheduleHook
  | leaveSchedule
  | leaveScheduleHook
  | enterExit
  | enterExitHook
  deriving DecidableEq, Repr

/-- `work` is a statement of a body, the call of the kernel's own function
among them, or a moved instruction of a trampoline; `out` is an early exit, a
`goto out` or an `if` around the rest, that may be taken; `leave` returns to
the kernel or jumps there. -/
inductive Instr
  | add (w : Nat)
  | sub (w : Nat)
  | work
  | out (target : Nat)
  | call (f : Func)
  | leave
  deriving DecidableEq, Repr

def code : Func → List Instr
  | .execveAgent =>
    -- try_new_job, the kernel's do_execve, init_job
    [.add execveYaCount, .work, .work, .out 5, .work, .sub execveYaCount, .leave]
  | .doForkAgent =>
    -- search_job_by_task, get_thread, the kernel's _do_fork, put_thread
    [.add doForkYaCount, .work, .out 4, .work, .work, .out 7, .work, .sub doForkYaCount, .leave]
  | .scheduleTailAgent =>
    -- the kernel's schedule_tail, search_job_by_task, ya_new_thread, the procfs entry
    [.add schedTailYaCount, .work, .work, .out 7, .work, .out 7, .work, .sub schedTailYaCount,
      .leave]
  | .pgfaultAgent => [.add pgfaultYaCount, .work, .sub pgfaultYaCount, .leave]
  | .satInterruptAgent =>
    -- the kernel's handler, search_job_by_task, set_tsk_need_resched
    [.add timerYaCount, .work, .work, .out 6, .out 6, .work, .sub timerYaCount, .leave]
  | .enterSchedule => [.work, .call .enterScheduleHook, .leave]
  | .enterScheduleHook =>
    -- no thread; TASK_DEAD; go_to_bed and the switch
    [.add enterSchedYaCount, .work, .out 6, .out 6, .work, .work, .sub enterSchedYaCount, .leave]
  | .leaveSchedule => [.call .leaveScheduleHook, .work, .leave]
  | .leaveScheduleHook =>
    -- no thread; not suspended; get_up
    [.add leaveSchedYaCount, .work, .out 5, .out 5, .work, .sub leaveSchedYaCount, .leave]
  | .enterExit => [.work, .work, .call .enterExitHook, .work, .leave]
  | .enterExitHook =>
    -- search_thread_by_task, ya_del_thread
    [.add enterExitYaCount, .work, .out 4, .work, .sub enterExitYaCount, .leave]

/-- What a function adds to `ya_count`; the trampolines leave it to the
functions that they call. -/
def Func.weight : Func → Nat
  | .execveAgent => execveYaCount
  | .doForkAgent => doForkYaCount
  | .scheduleTailAgent => schedTailYaCount
  | .pgfaultAgent => pgfaultYaCount
  | .satInterruptAgent => timerYaCount
  | .enterScheduleHook => enterSchedYaCount
  | .leaveScheduleHook => leaveSchedYaCount
  | .enterExitHook => enterExitYaCount
  | .enterSchedule | .leaveSchedule | .enterExit => 0

/-- The line that leads the kernel into the function. -/
def Func.line : Func → Option Line
  | .execveAgent => some .switchSyscalls
  | .doForkAgent => some .switchDoFork
  | .scheduleTailAgent => some .switchScheduleTail
  | .pgfaultAgent => some .switchPgfaultHandler
  | .satInterruptAgent => some .switchSmpApicTimerInterrupt
  | .enterSchedule => some .setupEnterScheduleHook
  | .leaveSchedule => some .setupLeaveScheduleHook
  | .enterExit => some .setupEnterExitHook
  | .enterScheduleHook | .leaveScheduleHook | .enterExitHook => none

def Instr.isAdd : Instr → Bool
  | .add _ => true
  | _ => false

def Instr.isSub : Instr → Bool
  | .sub _ => true
  | _ => false

/-- An activation; `pc` is its next instruction, for all but the innermost the
one to return to. -/
structure Frame where
  func : Func
  pc : Nat := 0
  deriving DecidableEq, Repr

def Frame.inBody (fr : Frame) : Bool :=
  ((code fr.func).take fr.pc).any Instr.isAdd && !((code fr.func).take fr.pc).any Instr.isSub

def Frame.held (fr : Frame) : Nat := if fr.inBody then fr.func.weight else 0

-- ---------------------------------------------------------------------------
-- Tasks and the loader
-- ---------------------------------------------------------------------------

/-- `yaCount` is an `Int`: with fewer than 2^22 tasks and their bounded stacks
the `atomic64_t` does not come near its bounds. -/
structure Calls where
  frames : Nat → List Frame
  yaCount : Int
  loader : Loader

/-- `jump` is a jump of the kernel into a hooked function, `exec` the next
instruction of the innermost activation. -/
inductive CallEvent
  | jump (t : Nat) (f : Func)
  | exec (t : Nat) (taken : Bool)
  | loader (e : LoaderEvent)
  deriving DecidableEq, Repr

namespace Calls

def setFrames (s : Calls) (t : Nat) (stack : List Frame) : Calls :=
  { s with frames := Function.update s.frames t stack }

def exec (s : Calls) (t : Nat) (taken : Bool) : Option Calls :=
  match s.frames t with
  | [] => none
  | fr :: rest =>
    let next := { fr with pc := fr.pc + 1 }
    match (code fr.func)[fr.pc]? with
    | none => none
    | some (.add w) => some { s.setFrames t (next :: rest) with yaCount := s.yaCount + w }
    | some (.sub w) => some { s.setFrames t (next :: rest) with yaCount := s.yaCount - w }
    | some .work => some (s.setFrames t (next :: rest))
    | some (.out target) =>
      some (s.setFrames t ((if taken then { fr with pc := target } else next) :: rest))
    | some (.call f) => some (s.setFrames t ({ func := f } :: next :: rest))
    | some .leave => some (s.setFrames t rest)

/-- `n` is the number of tasks there are. -/
def step (n : Nat) (s : Calls) : CallEvent → Option Calls
  | .jump t f =>
    if t < n ∧ f.line.any s.loader.has then some (s.setFrames t ({ func := f } :: s.frames t))
    else none
  | .exec t taken => if t < n then s.exec t taken else none
  | .loader (.read zero) =>
    if zero = decide (s.yaCount = 0) then
      (s.loader.step (.read zero)).map fun loader => { s with loader }
    else none
  | .loader e => (s.loader.step e).map fun loader => { s with loader }

def init : Calls := { frames := fun _ => [], yaCount := 0, loader := {} }

def bodies (n : Nat) (s : Calls) : Nat := ∑ t ∈ range n, ((s.frames t).map Frame.held).sum

/-- The task executes an instruction of the module that no body covers: in
front of the addition, behind the subtraction, or of a trampoline. -/
def Uncovered (s : Calls) (t : Nat) : Prop := ∃ fr ∈ (s.frames t).head?, fr.inBody = false

instance (s : Calls) (t : Nat) : Decidable (s.Uncovered t) :=
  inferInstanceAs (Decidable (∃ fr ∈ (s.frames t).head?, _))

/-- When the loop of `remove_inception` finds `ya_count` to be 0, no task
executes such an instruction. -/
def ReadsIdle (n : Nat) (s : Calls) (e : CallEvent) : Prop :=
  e = .loader (.read true) → ∀ t < n, ¬ s.Uncovered t

instance (n : Nat) (s : Calls) (e : CallEvent) : Decidable (s.ReadsIdle n e) :=
  inferInstanceAs (Decidable (_ → ∀ t < n, _))

end Calls

-- ---------------------------------------------------------------------------
-- The code of one function
-- ---------------------------------------------------------------------------

/-- What an instruction at `pc` does to the body and to `ya_count` agrees, on
both ways out of an early exit. -/
def Instr.Balanced (f : Func) (pc : Nat) : Instr → Prop
  | .add w => Frame.held ⟨f, pc⟩ = 0 ∧ Frame.held ⟨f, pc + 1⟩ = w
  | .sub w => Frame.held ⟨f, pc⟩ = w ∧ Frame.held ⟨f, pc + 1⟩ = 0
  | .work | .call _ => Frame.held ⟨f, pc + 1⟩ = Frame.held ⟨f, pc⟩
  | .out target => Frame.held ⟨f, pc + 1⟩ = Frame.held ⟨f, pc⟩ ∧
      Frame.held ⟨f, target⟩ = Frame.held ⟨f, pc⟩
  | .leave => Frame.held ⟨f, pc⟩ = 0

instance (f : Func) (pc : Nat) (i : Instr) : Decidable (i.Balanced f pc) := by
  unfold Instr.Balanced
  split <;> infer_instance

theorem code_balanced {i : Instr} (h : (code f)[pc]? = some i) : i.Balanced f pc := by
  have hall : ∀ pc (hpc : pc < (code f).length), ((code f)[pc]).Balanced f pc := by
    cases f <;> decide
  obtain ⟨hpc, rfl⟩ := List.getElem?_eq_some_iff.mp h
  exact hall pc hpc

theorem Frame.held_start (f : Func) : Frame.held { func := f } = 0 := by
  cases f <;> rfl

theorem Frame.held_pos {fr : Frame} (h : fr.inBody = true) : 0 < fr.held := by
  have hadd : ((code fr.func).take fr.pc).any Instr.isAdd = true := by
    rw [inBody, Bool.and_eq_true] at h
    exact h.1
  have hany : (code fr.func).any Instr.isAdd = true := by
    obtain ⟨i, hi, hisAdd⟩ := List.any_eq_true.mp hadd
    exact List.any_eq_true.mpr ⟨i, List.mem_of_mem_take hi, hisAdd⟩
  rw [held, if_pos h]
  revert hany
  cases fr.func <;> decide

-- ---------------------------------------------------------------------------
-- One step
-- ---------------------------------------------------------------------------

namespace Calls

def heldOf (stack : List Frame) : Nat := (stack.map Frame.held).sum

@[simp] theorem heldOf_nil : heldOf [] = 0 := rfl
@[simp] theorem heldOf_cons : heldOf (fr :: rest) = fr.held + heldOf rest := rfl

theorem bodies_setFrames (s : Calls) (stack : List Frame) (ht : t < n) :
    (s.setFrames t stack).bodies n + heldOf (s.frames t) = s.bodies n + heldOf stack :=
  Runs.sum_update (w := fun _ stack => heldOf stack) ht

theorem exec_cases {s : Calls} (hs : s.exec t taken = some s') :
    s.frames t ≠ [] ∧ ∃ stack c, s' = { s.setFrames t stack with yaCount := c } ∧
      c - heldOf stack = s.yaCount - heldOf (s.frames t) := by
  unfold exec at hs
  split at hs
  · cases hs
  · rename_i fr rest hstack
    refine ⟨by simp [hstack], ?_⟩
    have hbalanced (i) (hi : (code fr.func)[fr.pc]? = some i) := code_balanced hi
    have hheld : Frame.held ⟨fr.func, fr.pc⟩ = fr.held := rfl
    rw [hstack, heldOf_cons]
    dsimp only at hs
    split at hs <;> cases hs <;> rename_i hi <;> have hb := hbalanced _ hi <;>
      refine ⟨_, _, rfl, ?_⟩
    case h_2 w =>
      obtain ⟨hold, hnew⟩ := hb
      rw [heldOf_cons, hnew, ← hheld, hold]
      omega
    case h_3 w =>
      obtain ⟨hold, hnew⟩ := hb
      rw [heldOf_cons, hnew, ← hheld, hold]
      omega
    case h_4 =>
      have hnew : Frame.held ⟨fr.func, fr.pc + 1⟩ = fr.held := hb
      rw [heldOf_cons, hnew]
    case h_5 target =>
      obtain ⟨hnext, htarget⟩ := hb
      have hnew : (if taken = true then { fr with pc := target }
          else { fr with pc := fr.pc + 1 } : Frame).held = fr.held := by
        cases taken
        · exact hnext
        · exact htarget
      rw [heldOf_cons, hnew]
    case h_6 f =>
      have hnew : Frame.held ⟨fr.func, fr.pc + 1⟩ = fr.held := hb
      rw [heldOf_cons, heldOf_cons, Frame.held_start, hnew, Nat.zero_add]
    case h_7 =>
      have hold : fr.held = 0 := hb
      rw [hold, Nat.zero_add]

-- ---------------------------------------------------------------------------
-- Whole runs
-- ---------------------------------------------------------------------------

/-- Once `remove_inception` waits every hook is out, and once it has read 0
nobody is in the module, if it read 0 while no task was outside every body. -/
structure Inv (n : Nat) (s : Calls) : Prop where
  count : s.yaCount = s.bodies n
  out : s.loader.pc = .wait ∨ s.loader.pc = .schedule ∨ s.loader.pc = .removed →
    s.loader.count = 0
  outside : ∀ t, n ≤ t → s.frames t = []

def Empty (s : Calls) : Prop := ∀ t, s.frames t = []

theorem init_inv (n : Nat) : init.Inv n := by
  refine ⟨?_, by simp [init], fun _ _ => rfl⟩
  simp [init, bodies]

theorem Inv.setFrames (hi : Inv n s) (ht : t < n)
    (hc : c - heldOf stack = s.yaCount - heldOf (s.frames t)) :
    Inv n { s.setFrames t stack with yaCount := c } := by
  refine ⟨?_, hi.out, fun i hge => ?_⟩
  · have hsum := s.bodies_setFrames stack ht
    have hcount := hi.count
    show c = (s.setFrames t stack).bodies n
    omega
  · have hne : i ≠ t := by omega
    exact (Function.update_of_ne hne _ _).trans (hi.outside i hge)

theorem step_loader (hs : step n s (.loader e) = some s') :
    ∃ loader, s.loader.step e = some loader ∧ s' = { s with loader } ∧
      (e = .read true → s.yaCount = 0) := by
  cases e with
  | read zero =>
    simp only [step] at hs
    split at hs
    · rename_i hzero
      obtain ⟨loader, hl, rfl⟩ := Option.map_eq_some_iff.mp hs
      refine ⟨loader, hl, rfl, ?_⟩
      rintro ⟨⟩
      exact of_decide_eq_true hzero.symm
    · cases hs
  | _ =>
    obtain ⟨loader, hl, rfl⟩ := Option.map_eq_some_iff.mp hs
    exact ⟨loader, hl, rfl, by simp⟩

theorem step_inv (hi : Inv n s) (hs : s.step n e = some s') : Inv n s' := by
  cases e with
  | jump t f =>
    simp only [step] at hs
    split at hs <;> cases hs
    rename_i ht
    exact hi.setFrames (c := s.yaCount) ht.1
      (by rw [heldOf_cons, Frame.held_start, Nat.zero_add])
  | exec t taken =>
    simp only [step] at hs
    split at hs
    · rename_i ht
      obtain ⟨-, stack, c, rfl, hc⟩ := exec_cases hs
      exact hi.setFrames ht hc
    · cases hs
  | loader e =>
    obtain ⟨loader, hl, rfl, -⟩ := step_loader hs
    exact ⟨hi.count, Loader.step_out hi.out hl, hi.outside⟩

def Drained (s : Calls) : Prop :=
  s.loader.pc = .schedule ∨ s.loader.pc = .removed → ∀ t, s.frames t = []

theorem Inv.drained (hi : Inv n s) (hzero : s.yaCount = 0) (hidle : ∀ t < n, ¬ s.Uncovered t)
    (t : Nat) : s.frames t = [] := by
  rcases Nat.lt_or_ge t n with ht | ht
  · have hsum : s.bodies n = 0 := by
      have hcount := hi.count
      omega
    have hheld : heldOf (s.frames t) = 0 := sum_eq_zero_iff.mp hsum t (mem_range.mpr ht)
    cases hstack : s.frames t with
    | nil => rfl
    | cons fr rest =>
      rw [hstack, heldOf_cons] at hheld
      cases hbody : fr.inBody with
      | true =>
        have hpos := Frame.held_pos hbody
        omega
      | false => exact absurd ⟨fr, by simp [hstack], hbody⟩ (hidle t ht)
  · exact hi.outside t ht

theorem step_drained (hi : Inv n s) (hd : s.Drained) (hw : s.ReadsIdle n e)
    (hs : s.step n e = some s') : s'.Drained := by
  cases e with
  | jump t f =>
    simp only [step] at hs
    split at hs <;> cases hs
    rename_i hjump
    intro hpc
    -- with no line in effect there is no way in
    have hout : s.loader.count = 0 := hi.out (.inr hpc)
    obtain ⟨line, -, hline⟩ := (Option.any_eq_true _ _).mp hjump.2
    simp [Loader.has, hout] at hline
  | exec t taken =>
    simp only [step] at hs
    split at hs
    · obtain ⟨hne, stack, c, rfl, -⟩ := exec_cases hs
      exact fun hpc => absurd (hd hpc t) hne
    · cases hs
  | loader e =>
    obtain ⟨loader, hl, rfl, hzero⟩ := step_loader hs
    cases Loader.step_cases hl with
    | zero => exact fun _ => hi.drained (hzero rfl) (hw rfl)
    | again => exact hd
    | schedule hpc => exact fun _ => hd (.inl hpc)
    | line hpc | undo hpc | restore hpc => simp [Drained, hpc]
    | _ => simp [Drained]

/-- In every state `ya_count` is what the bodies in progress have added. And if
no task executes an uncovered instruction when `remove_inception` reads 0, then
when it returns no task is in the module and none has a return address there. -/
theorem removed_drained (n : Nat) (es : List CallEvent) :
    Runs.Always (step n) (fun s => s.yaCount = s.bodies n) init es ∧
    (Runs.Along (step n) (ReadsIdle n) init es →
      Runs.Always (step n) (fun s => s.loader.pc = .removed → ∀ t, s.frames t = []) init es) := by
  constructor
  · exact Runs.always_of_step (fun _ hi => Inv.count hi) (fun _ _ _ hi hs => step_inv hi hs)
      (init_inv n)
  · intro hw
    refine Runs.always_of_along (I := fun s => s.Inv n ∧ s.Drained)
      (fun s hi hpc => hi.2 (.inr hpc)) ?_ ⟨init_inv n, ?_⟩ hw
    · rintro s e s' ⟨hi, hd⟩ hw hs
      exact ⟨step_inv hi hs, step_drained hi hd hw hs⟩
    · simp [Drained, init]

def loadLines : List CallEvent := List.replicate 9 (.loader (.line true))

def restoreLines : List CallEvent := List.replicate 10 (.loader .restore)

/-- One task is in the body of `execve_agent` while the hooks are taken out,
and leaves it before the loop reads 0. -/
theorem removed_drained_execve : Runs.Always (step 1)
    (fun s => s.loader.pc = .removed → ∀ t, s.frames t = []) init
    (loadLines ++ [.jump 0 .execveAgent, .exec 0 false, .exec 0 false, .exec 0 false,
      .loader .unload] ++ restoreLines ++ [.loader (.read false), .exec 0 true, .exec 0 false,
      .exec 0 false, .loader (.read true), .loader .schedule]) :=
  (removed_drained 1 _).2 (by decide)

/-- A task that has jumped into `execve_agent` and not yet added its weight is
still there when `remove_inception` returns. -/
theorem removed_drained_fails :
    ¬ ∀ n es s, Runs.run (step n) init es = some s → s.loader.pc = .removed →
      ∀ t < n, s.frames t = [] := by
  intro h
  have hrun : (Runs.run (step 1) init (loadLines ++ [.jump 0 .execveAgent, .loader .unload] ++
      restoreLines ++ [.loader (.read true), .loader .schedule])).map
      (fun s => (s.loader.pc, s.frames 0)) = some (.removed, [{ func := .execveAgent }]) := by
    decide
  obtain ⟨s, hs, hend⟩ := Option.map_eq_some_iff.mp hrun
  obtain ⟨hpc, hframes⟩ := Prod.mk.inj hend
  rw [h _ _ _ hs hpc 0 (by decide)] at hframes
  cases hframes

end Calls

end Yasched
