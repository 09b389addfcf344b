import Yasched.Inception

/-!
# What a trampoline leaves to the function it interrupts

The stubs of `enter_schedule` and `enter_exit` run behind the moved prologue
and jump to what follows it in the hooked function. They call a hook that keeps
to the calling convention, in the middle of a function that has its argument in
`rdi`. `enter_exit` saves `rdi` around the call, `enter_schedule` does not.
-/

namespace Yasched

-- ---------------------------------------------------------------------------
-- The machine
-- ---------------------------------------------------------------------------

inductive Reg
  | rax | rcx | rdx | rbx | rbp | rsi | rdi
  | r8 | r9 | r10 | r11 | r12 | r13 | r14 | r15
  deriving DecidableEq, Repr

def Reg.number : Reg → UInt8
  | .rax => 0 | .rcx => 1 | .rdx => 2 | .rbx => 3 | .rbp => 5 | .rsi => 6 | .rdi => 7
  | .r8 => 8 | .r9 => 9 | .r10 => 10 | .r11 => 11 | .r12 => 12 | .r13 => 13 | .r14 => 14
  | .r15 => 15

def Reg.calleeSaved : Reg → Bool
  | .rbx | .rbp | .r12 | .r13 | .r14 | .r15 => true
  | _ => false

/-- The task's stack is a memory of its own beside the rest of memory, and no
stack wraps around the address space. -/
structure Machine where
  reg : Reg → BitVec 64
  rsp : Int
  flags : BitVec 64
  stack : Int → BitVec 8
  mem : Nat → BitVec 8

def storeWord (stack : Int → BitVec 8) (a : Int) (v : BitVec 64) : Int → BitVec 8 :=
  fun x => if a ≤ x ∧ x < a + 8 then v.extractLsb' (8 * (x - a).toNat) 8 else stack x

def loadWord (stack : Int → BitVec 8) (a : Int) : BitVec 64 :=
  stack (a + 7) ++ stack (a + 6) ++ stack (a + 5) ++ stack (a + 4) ++
    stack (a + 3) ++ stack (a + 2) ++ stack (a + 1) ++ stack a

namespace Machine

def push (m : Machine) (v : BitVec 64) : Machine :=
  { m with rsp := m.rsp - 8, stack := storeWord m.stack (m.rsp - 8) v }

def pop (m : Machine) (r : Reg) : Machine :=
  { m with rsp := m.rsp + 8, reg := Function.update m.reg r (loadWord m.stack m.rsp) }

end Machine

/-- A function that a stub calls, from its first instruction, with the return
address on top of the stack, to where it returns. It may change every register
that is not callee-saved, the flags, what is below its frame and all memory
beside the stack. -/
structure HookFn where
  run : Machine → Machine
  rsp : ∀ m, (run m).rsp = m.rsp + 8
  calleeSaved : ∀ m r, r.calleeSaved = true → (run m).reg r = m.reg r
  stack : ∀ m a, m.rsp + 8 ≤ a → (run m).stack a = m.stack a

-- ---------------------------------------------------------------------------
-- The stubs
-- ---------------------------------------------------------------------------

/-- `var` is the address of the variable through which the stub calls or
jumps. -/
inductive StubInstr
  | push (r : Reg)
  | pop (r : Reg)
  | call (var : Nat)
  | jmp (var : Nat)
  deriving DecidableEq, Repr

def StubInstr.encode : StubInstr → List UInt8
  | .push r => if r.number < 8 then [0x50 + r.number] else [0x41, 0x48 + r.number]
  | .pop r => if r.number < 8 then [0x58 + r.number] else [0x41, 0x50 + r.number]
  | .call var => callIndirect var
  | .jmp var => jmpIndirect var

def enterScheduleInstrs (env : Env) : List StubInstr :=
  [.call env.enterHookVar, .jmp env.scheduleStartVar]

def enterExitInstrs (env : Env) : List StubInstr :=
  [.push .rbx, .push .rdi, .call env.exitHookVar, .pop .rdi, .pop .rbx, .jmp env.doExitReenterVar]

theorem enterSchedule_encode (env : Env) :
    (enterScheduleInstrs env).flatMap StubInstr.encode = enterScheduleStub env := rfl

theorem enterExit_encode (env : Env) :
    (enterExitInstrs env).flatMap StubInstr.encode = enterExitStub env := rfl

/-- Runs a stub up to its jump; gives the variable that it jumps through.
`ret` is the address behind its call. -/
def execStub (hook : HookFn) (ret : BitVec 64) :
    List StubInstr → Machine → Option (Nat × Machine)
  | [], _ => none
  | .push r :: rest, m => execStub hook ret rest (m.push (m.reg r))
  | .pop r :: rest, m => execStub hook ret rest (m.pop r)
  | .call _ :: rest, m => execStub hook ret rest (hook.run (m.push ret))
  | .jmp var :: _, m => some (var, m)

/-- What a function keeps for its caller. -/
structure Keeps (m m' : Machine) : Prop where
  rsp : m'.rsp = m.rsp
  stack : ∀ a, m.rsp ≤ a → m'.stack a = m.stack a
  calleeSaved : ∀ r, r.calleeSaved = true → m'.reg r = m.reg r

/-- What the hooked function reads behind its prologue is in `m'` as it is in
`m`. -/
structure SameInputs (m m' : Machine) : Prop extends Keeps m m' where
  rdi : m'.reg .rdi = m.reg .rdi

-- ---------------------------------------------------------------------------
-- Pushing and popping
-- ---------------------------------------------------------------------------

theorem bytes_append (v : BitVec 64) :
    v.extractLsb' 56 8 ++ v.extractLsb' 48 8 ++ v.extractLsb' 40 8 ++ v.extractLsb' 32 8 ++
      v.extractLsb' 24 8 ++ v.extractLsb' 16 8 ++ v.extractLsb' 8 8 ++ v.extractLsb' 0 8 = v := by
  rw [BitVec.extractLsb'_append_extractLsb'_eq_extractLsb' (by rfl),
    BitVec.extractLsb'_append_extractLsb'_eq_extractLsb' (by rfl),
    BitVec.extractLsb'_append_extractLsb'_eq_extractLsb' (by rfl),
    BitVec.extractLsb'_append_extractLsb'_eq_extractLsb' (by rfl),
    BitVec.extractLsb'_append_extractLsb'_eq_extractLsb' (by rfl),
    BitVec.extractLsb'_append_extractLsb'_eq_extractLsb' (by rfl),
    BitVec.extractLsb'_append_extractLsb'_eq_extractLsb' (by rfl)]
  exact BitVec.extractLsb'_eq_self

theorem loadWord_storeWord (stack : Int → BitVec 8) (a : Int) (v : BitVec 64) :
    loadWord (storeWord stack a v) a = v := by
  have hbyte (x : Int) (k : Nat) (hk : k < 8) (hx : x = a + k) :
      storeWord stack a v x = v.extractLsb' (8 * k) 8 := by
    have hoffset : (x - a).toNat = k := by omega
    rw [storeWord, if_pos (by omega), hoffset]
  unfold loadWord
  rw [hbyte (a + 7) 7 (by decide) rfl, hbyte (a + 6) 6 (by decide) rfl,
    hbyte (a + 5) 5 (by decide) rfl, hbyte (a + 4) 4 (by decide) rfl,
    hbyte (a + 3) 3 (by decide) rfl, hbyte (a + 2) 2 (by decide) rfl,
    hbyte (a + 1) 1 (by decide) rfl, hbyte a 0 (by decide) (by simp)]
  exact bytes_append v

theorem storeWord_above (stack : Int → BitVec 8) (v : BitVec 64) {a x : Int} (hx : a + 8 ≤ x) :
    storeWord stack a v x = stack x := by
  rw [storeWord, if_neg (by omega)]

theorem loadWord_congr {f g : Int → BitVec 8} {a : Int} (h : ∀ x, a ≤ x → f x = g x) :
    loadWord f a = loadWord g a := by
  unfold loadWord
  rw [h a (by omega), h (a + 1) (by omega), h (a + 2) (by omega), h (a + 3) (by omega),
    h (a + 4) (by omega), h (a + 5) (by omega), h (a + 6) (by omega), h (a + 7) (by omega)]

-- ---------------------------------------------------------------------------
-- A call between pushes and pops
-- ---------------------------------------------------------------------------

namespace Machine

variable (m : Machine) (v : BitVec 64) (r : Reg)

@[simp] theorem push_rsp : (m.push v).rsp = m.rsp - 8 := rfl
@[simp] theorem push_reg : (m.push v).reg = m.reg := rfl
@[simp] theorem pop_rsp : (m.pop r).rsp = m.rsp + 8 := rfl
@[simp] theorem pop_stack : (m.pop r).stack = m.stack := rfl

theorem push_stack {a : Int} (h : m.rsp ≤ a) : (m.push v).stack a = m.stack a :=
  storeWord_above m.stack v (by omega)

theorem push_top : loadWord (m.push v).stack (m.push v).rsp = v :=
  loadWord_storeWord m.stack (m.rsp - 8) v

theorem pop_self : (m.pop r).reg r = loadWord m.stack m.rsp := Function.update_self ..

theorem pop_of_ne {r' : Reg} (h : r' ≠ r) : (m.pop r).reg r' = m.reg r' :=
  Function.update_of_ne h ..

end Machine

theorem HookFn.keeps (hook : HookFn) (m : Machine) (ret : BitVec 64) :
    Keeps m (hook.run (m.push ret)) where
  rsp := by
    rw [hook.rsp, Machine.push_rsp]
    omega
  stack a ha := by
    rw [hook.stack _ a (by rw [Machine.push_rsp]; omega), m.push_stack ret ha]
  calleeSaved r hr := by rw [hook.calleeSaved _ r hr, Machine.push_reg]

namespace Keeps

variable {m m' : Machine}

theorem pop_pushed (h : Keeps (m.push v) m') (r : Reg) : (m'.pop r).reg r = v := by
  rw [Machine.pop_self, h.rsp, loadWord_congr h.stack, Machine.push_top]

theorem pop_reg (h : Keeps (m.push (m.reg r)) m') : (m'.pop r).reg r = m.reg r :=
  h.pop_pushed r

theorem pop (h : Keeps (m.push (m.reg r)) m') : Keeps m (m'.pop r) where
  rsp := by
    rw [Machine.pop_rsp, h.rsp, Machine.push_rsp]
    omega
  stack a ha := by
    rw [Machine.pop_stack, h.stack a (by rw [Machine.push_rsp]; omega), m.push_stack _ ha]
  calleeSaved r' hr' := by
    rcases eq_or_ne r' r with rfl | hne
    · exact h.pop_reg
    · rw [Machine.pop_of_ne _ _ hne, h.calleeSaved r' hr', Machine.push_reg]

end Keeps

-- ---------------------------------------------------------------------------
-- The two trampolines
-- ---------------------------------------------------------------------------

def Forwards (instrs : List StubInstr) (var : Nat) (hook : HookFn) (ret : BitVec 64)
    (m : Machine) : Prop :=
  ∃ m', execStub hook ret instrs m = some (var, m') ∧ SameInputs m m'

theorem enterExit_forwards (env : Env) (hook : HookFn) (ret : BitVec 64) (m : Machine) :
    Forwards (enterExitInstrs env) env.doExitReenterVar hook ret m := by
  have hcall := hook.keeps ((m.push (m.reg .rbx)).push (m.reg .rdi)) ret
  have hrdi : Keeps (m.push (m.reg .rbx)) _ := Keeps.pop (r := .rdi) hcall
  have hrbx : Keeps m _ := Keeps.pop (r := .rbx) hrdi
  refine ⟨_, rfl, hrbx, ?_⟩
  rw [Machine.pop_of_ne _ _ (by decide)]
  exact hcall.pop_pushed .rdi

/-- `enter_schedule` has the `rdi` that its hook happens to leave. -/
theorem enterSchedule_forwards_iff (env : Env) (hook : HookFn) (ret : BitVec 64) (m : Machine) :
    Forwards (enterScheduleInstrs env) env.scheduleStartVar hook ret m ↔
      (hook.run (m.push ret)).reg .rdi = m.reg .rdi := by
  constructor
  · rintro ⟨m', hexec, hsame⟩
    cases hexec
    exact hsame.rdi
  · intro hrdi
    exact ⟨_, rfl, hook.keeps m ret, hrdi⟩

structure PassesOn (env : Env) (scheduleHook exitHook : HookFn)
    (scheduleProlog exitProlog : Machine → Machine) (ret : BitVec 64) (m : Machine) : Prop where
  enterSchedule : Forwards (enterScheduleInstrs env) env.scheduleStartVar scheduleHook ret
    (scheduleProlog m)
  enterExit : Forwards (enterExitInstrs env) env.doExitReenterVar exitHook ret (exitProlog m)

theorem passes_on_iff (env : Env) (scheduleHook exitHook : HookFn)
    (scheduleProlog exitProlog : Machine → Machine) (ret : BitVec 64) (m : Machine) :
    PassesOn env scheduleHook exitHook scheduleProlog exitProlog ret m ↔
      (scheduleHook.run ((scheduleProlog m).push ret)).reg .rdi = (scheduleProlog m).reg .rdi :=
  ⟨fun h => (enterSchedule_forwards_iff ..).mp h.enterSchedule,
    fun h => ⟨(enterSchedule_forwards_iff ..).mpr h, enterExit_forwards ..⟩⟩

/-- A hook that calls a function with `current` as its argument, as
`enter_schedule_hook` calls `search_thread_by_task`. -/
def passesCurrent (current : BitVec 64) : HookFn where
  run m := { m with rsp := m.rsp + 8, reg := Function.update m.reg .rdi current }
  rsp _ := rfl
  calleeSaved m r hr := Function.update_of_ne (by rintro rfl; cases hr) ..
  stack _ _ _ := rfl

theorem passes_on_fails : ¬ ∀ (env : Env) (scheduleHook exitHook : HookFn)
    (scheduleProlog exitProlog : Machine → Machine) (ret : BitVec 64) (m : Machine),
    PassesOn env scheduleHook exitHook scheduleProlog exitProlog ret m := by
  intro h
  let hook := passesCurrent 0xffff880012345680
  let m : Machine :=
    { reg := fun _ => 0, rsp := 0x10000, flags := 0, stack := fun _ => 0, mem := fun _ => 0 }
  have hschedule := (h sampleEnv hook hook id id 0xffffffffa0001047 m).enterSchedule
  obtain ⟨m', hexec, hsame⟩ := hschedule
  cases hexec
  exact absurd hsame.rdi (by decide)

end Yasched
