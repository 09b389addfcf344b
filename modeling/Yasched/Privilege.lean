import Yasched.Patches
import Yasched.Runs
import Mathlib.Data.Fintype.Basic

/-!
# Write protection while text is patched

`__ya_xchgl` and `__ya_xchgq` clear CR0.WP, exchange a word of the text and set
the bit again. The bit belongs to a CPU; a task that is preempted between two
instructions may go on on another one.
-/

namespace Yasched

open Patch Runs

-- ---------------------------------------------------------------------------
-- The instructions of the two macros
-- ---------------------------------------------------------------------------

inductive Privilege
  | pageRdonly
  | pageRdwr
  deriving DecidableEq, Repr

/-- What `change_privilege` writes to CR0 for what it has read there. -/
def changePrivilege (oldCr0 : BitVec 64) : Privilege → BitVec 64
  | .pageRdonly => oldCr0 ||| ~~~0xfffffffffffeffff
  | .pageRdwr => oldCr0 &&& 0xfffffffffffeffff

def wp (cr0 : BitVec 64) : Bool := cr0.getLsbD 16

/-- How far a task is in a macro, with what it has read from CR0 and not yet
written back. `cleared` is the CPU on which it has cleared the bit; the code
knows nothing of it. -/
inductive Position (Cpu : Type u)
  | outside
  | readRdwr (oldCr0 : BitVec 64)
  | rdwr (cleared : Cpu)
  | exchanged (cleared : Cpu)
  | readRdonly (cleared : Cpu) (oldCr0 : BitVec 64)
  deriving DecidableEq, Repr

def Position.owes {Cpu : Type u} : Position Cpu → Option Cpu
  | .rdwr cleared | .exchanged cleared | .readRdonly cleared _ => some cleared
  | _ => none

/-- `args` holds `addr` and `val` of the macro that a task is in or was in
last. -/
structure Smp (Cpu : Type u) (Task : Type v) where
  cr0 : Cpu → BitVec 64
  mem : Nat → UInt8
  args : Task → Patch UInt8
  pos : Task → Position Cpu

/-- A task begins a macro or goes on in it, with one instruction on one CPU;
`val` has four bytes for `__ya_xchgl` and eight for `__ya_xchgq`. -/
inductive XchgEvent (Cpu : Type u) (Task : Type v)
  | enter (t : Task) (cpu : Cpu) (addr : Nat) (val : List UInt8)
  | next (t : Task) (cpu : Cpu)
  deriving DecidableEq, Repr

namespace Smp

section

variable {Cpu : Type u} {Task : Type v} [DecidableEq Cpu] [DecidableEq Task]

/-- The exchange is done whatever CR0.WP is. -/
def step (s : Smp Cpu Task) : XchgEvent Cpu Task → Option (Smp Cpu Task)
  | .enter t cpu addr val =>
    match s.pos t with
    | .outside =>
      some { s with
        args := Function.update s.args t { point := addr, word := val }
        pos := Function.update s.pos t (.readRdwr (s.cr0 cpu)) }
    | _ => none
  | .next t cpu =>
    match s.pos t with
    | .outside => none
    | .readRdwr oldCr0 =>
      some { s with
        cr0 := Function.update s.cr0 cpu (changePrivilege oldCr0 .pageRdwr)
        pos := Function.update s.pos t (.rdwr cpu) }
    | .rdwr cleared =>
      some { s with
        mem := (exchange s.mem (s.args t)).1
        args := Function.update s.args t (exchange s.mem (s.args t)).2
        pos := Function.update s.pos t (.exchanged cleared) }
    | .exchanged cleared =>
      some { s with pos := Function.update s.pos t (.readRdonly cleared (s.cr0 cpu)) }
    | .readRdonly _ oldCr0 =>
      some { s with
        cr0 := Function.update s.cr0 cpu (changePrivilege oldCr0 .pageRdonly)
        pos := Function.update s.pos t .outside }

def ExchangesClear (s : Smp Cpu Task) : XchgEvent Cpu Task → Prop
  | .enter .. => True
  | .next t cpu =>
    match s.pos t with
    | .rdwr _ => wp (s.cr0 cpu) = false
    | _ => True

def AllOutside (s : Smp Cpu Task) : Prop := ∀ t, s.pos t = .outside

def AllProtected (s : Smp Cpu Task) : Prop := ∀ cpu, wp (s.cr0 cpu) = true

def Restored (s : Smp Cpu Task) : Prop := s.AllOutside → s.AllProtected

/-- A task exchanges, and sets the bit again, on the CPU where it has cleared
it, and does not set it where another task is about to exchange. -/
def Pinned (s : Smp Cpu Task) : XchgEvent Cpu Task → Prop
  | .enter .. => True
  | .next t cpu =>
    match s.pos t with
    | .rdwr cleared => cpu = cleared
    | .readRdonly cleared _ => cpu = cleared ∧ ∀ t', s.pos t' ≠ .rdwr cpu
    | _ => True

instance (s : Smp Cpu Task) (e : XchgEvent Cpu Task) : Decidable (s.ExchangesClear e) := by
  unfold ExchangesClear
  split
  · infer_instance
  · split <;> infer_instance

instance [Fintype Task] (s : Smp Cpu Task) : Decidable s.AllOutside :=
  inferInstanceAs (Decidable (∀ _, _))

instance [Fintype Cpu] (s : Smp Cpu Task) : Decidable s.AllProtected :=
  inferInstanceAs (Decidable (∀ _, _))

instance [Fintype Cpu] [Fintype Task] (s : Smp Cpu Task) : Decidable s.Restored :=
  inferInstanceAs (Decidable (_ → _))

instance [Fintype Task] (s : Smp Cpu Task) (e : XchgEvent Cpu Task) : Decidable (s.Pinned e) := by
  unfold Pinned
  split
  · infer_instance
  · split <;> infer_instance

end

end Smp

-- ---------------------------------------------------------------------------
-- One macro alone
-- ---------------------------------------------------------------------------

@[simp] theorem wp_pageRdonly (oldCr0 : BitVec 64) :
    wp (changePrivilege oldCr0 .pageRdonly) = true := by
  have hbit : (~~~0xfffffffffffeffff : BitVec 64).getLsbD 16 = true := by decide
  rw [wp, changePrivilege, BitVec.getLsbD_or, hbit, Bool.or_true]

@[simp] theorem wp_pageRdwr (oldCr0 : BitVec 64) :
    wp (changePrivilege oldCr0 .pageRdwr) = false := by
  have hbit : (0xfffffffffffeffff : BitVec 64).getLsbD 16 = false := by decide
  rw [wp, changePrivilege, BitVec.getLsbD_and, hbit, Bool.and_false]

theorem changePrivilege_twice {cr0 : BitVec 64} (h : wp cr0 = true) :
    changePrivilege (changePrivilege cr0 .pageRdwr) .pageRdonly = cr0 := by
  have hmask : (0xfffffffffffeffff : BitVec 64) = ~~~BitVec.twoPow 64 16 := by decide
  refine BitVec.eq_of_getLsbD_eq fun i hi => ?_
  rw [changePrivilege, changePrivilege, hmask, BitVec.getLsbD_or, BitVec.getLsbD_and,
    BitVec.not_not, BitVec.getLsbD_not, BitVec.getLsbD_twoPow]
  rw [wp] at h
  by_cases h16 : 16 = i
  · subst h16
    simp [h]
  · simp [h16, hi]

namespace Smp

section

variable {Cpu : Type u} {Task : Type v} [DecidableEq Cpu] [DecidableEq Task]
variable {s s' : Smp Cpu Task} {t : Task}

/-- A macro that nobody comes between on one CPU is one exchange, and nothing
else. -/
theorem run_alone (hpos : s.pos t = .outside) (cpu : Cpu) (hwp : wp (s.cr0 cpu) = true)
    (addr : Nat) (val : List UInt8) :
    run step s (.enter t cpu addr val :: List.replicate 4 (.next t cpu)) = some { s with
      mem := (exchange s.mem { point := addr, word := val }).1
      args := Function.update s.args t (exchange s.mem { point := addr, word := val }).2 } := by
  have hcr0 := changePrivilege_twice hwp
  have hout : Function.update s.pos t .outside = s.pos := Function.update_eq_self_iff.mpr hpos.symm
  simp [run, step, hpos, List.replicate, hcr0, hout]

end

-- ---------------------------------------------------------------------------
-- The invariant
-- ---------------------------------------------------------------------------

section

variable {Cpu : Type u} {Task : Type v} {s s' : Smp Cpu Task} {t : Task}

/-- Where a task has cleared the bit, it is clear until the task exchanges; and
wherever it is clear, there is a task that still has to set it. -/
structure Inv (s : Smp Cpu Task) : Prop where
  clear : ∀ t cpu, s.pos t = .rdwr cpu → wp (s.cr0 cpu) = false
  owed : ∀ cpu, wp (s.cr0 cpu) = false → ∃ t, (s.pos t).owes = some cpu

theorem Inv.exchangesClear (h : Inv s) (hpinned : s.Pinned e) : s.ExchangesClear e := by
  unfold ExchangesClear
  split
  · trivial
  · split
    next t cpu _ cleared hpos =>
      rw [Pinned, hpos] at hpinned
      dsimp only at hpinned
      rw [hpinned]
      exact h.clear t cleared hpos
    next => trivial

theorem Inv.restored (h : Inv s) : s.Restored := by
  intro houtside cpu
  refine Bool.not_eq_false _ ▸ fun hclear => ?_
  obtain ⟨t, ht⟩ := h.owed cpu hclear
  rw [houtside t] at ht
  cases ht

theorem inv_of_outside (houtside : s.AllOutside) (hwp : s.AllProtected) : Inv s where
  clear t cpu ht := by
    rw [houtside t] at ht
    cases ht
  owed cpu hclear := by
    rw [hwp cpu] at hclear
    cases hclear

variable [DecidableEq Task]

/-- Only `t` moves. What is to be seen to is where it clears the bit, where
others have it clear, and who owes it where it is clear now. -/
theorem Inv.update (h : Inv s) {p : Position Cpu} (hpos : s'.pos = Function.update s.pos t p)
    (hself : ∀ cpu, p = .rdwr cpu → wp (s'.cr0 cpu) = false)
    (hothers : ∀ t' cpu, s.pos t' = .rdwr cpu → t' ≠ t → wp (s'.cr0 cpu) = false)
    (howes : ∀ cpu, wp (s'.cr0 cpu) = false →
      p.owes = some cpu ∨ wp (s.cr0 cpu) = false ∧ (s.pos t).owes ≠ some cpu) : Inv s' where
  clear t' cpu ht' := by
    rw [hpos] at ht'
    rcases eq_or_ne t' t with rfl | hne
    · rw [Function.update_self] at ht'
      exact hself cpu ht'
    · rw [Function.update_of_ne hne] at ht'
      exact hothers t' cpu ht' hne
  owed cpu hwp := by
    rw [hpos]
    rcases howes cpu hwp with hp | ⟨hwas, hnot⟩
    · exact ⟨t, by rwa [Function.update_self]⟩
    · obtain ⟨t', ht'⟩ := h.owed cpu hwas
      have hne : t' ≠ t := by
        rintro rfl
        exact hnot ht'
      exact ⟨t', by rwa [Function.update_of_ne hne]⟩

end

section

variable {Cpu : Type u} {Task : Type v} [DecidableEq Cpu] [DecidableEq Task]
variable {s s' : Smp Cpu Task} {t : Task}

theorem Inv.move (h : Inv s) (hcr0 : s'.cr0 = s.cr0) {p : Position Cpu}
    (hpos : s'.pos = Function.update s.pos t p) (howes : p.owes = (s.pos t).owes)
    (hp : ∀ cpu, p ≠ .rdwr cpu) : Inv s' := by
  refine h.update hpos (fun cpu heq => absurd heq (hp cpu)) ?_ ?_
  · intro t' cpu ht' _
    rw [hcr0]
    exact h.clear t' cpu ht'
  · intro cpu hwp
    rw [hcr0] at hwp
    rw [howes]
    by_cases hown : (s.pos t).owes = some cpu
    · exact .inl hown
    · exact .inr ⟨hwp, hown⟩

theorem Inv.clears (h : Inv s) {oldCr0 cr0 : BitVec 64} (ht : s.pos t = .readRdwr oldCr0)
    (hcr0 : wp cr0 = false) {cpu : Cpu} (hs' : s'.cr0 = Function.update s.cr0 cpu cr0)
    (hpos : s'.pos = Function.update s.pos t (.rdwr cpu)) : Inv s' := by
  have hself : wp (s'.cr0 cpu) = false := by rw [hs', Function.update_self, hcr0]
  refine h.update hpos ?_ ?_ ?_
  · rintro _ ⟨⟩
    exact hself
  · intro t' cpu' ht' _
    rcases eq_or_ne cpu' cpu with rfl | hne
    · exact hself
    · rw [hs', Function.update_of_ne hne]
      exact h.clear t' cpu' ht'
  · intro cpu' hwp
    rcases eq_or_ne cpu' cpu with rfl | hne
    · exact .inl rfl
    · rw [hs', Function.update_of_ne hne] at hwp
      exact .inr ⟨hwp, by rw [ht]; exact nofun⟩

theorem Inv.sets (h : Inv s) {oldCr0 cr0 : BitVec 64} {cpu : Cpu}
    (ht : s.pos t = .readRdonly cpu oldCr0) (hcr0 : wp cr0 = true)
    (hothers : ∀ t', s.pos t' ≠ .rdwr cpu) (hs' : s'.cr0 = Function.update s.cr0 cpu cr0)
    (hpos : s'.pos = Function.update s.pos t .outside) : Inv s' := by
  refine h.update hpos nofun ?_ ?_
  · intro t' cpu' ht' _
    have hne : cpu' ≠ cpu := by
      rintro rfl
      exact hothers t' ht'
    rw [hs', Function.update_of_ne hne]
    exact h.clear t' cpu' ht'
  · intro cpu' hwp
    rw [hs'] at hwp
    rcases eq_or_ne cpu' cpu with rfl | hne
    · rw [Function.update_self, hcr0] at hwp
      cases hwp
    · rw [Function.update_of_ne hne] at hwp
      refine .inr ⟨hwp, ?_⟩
      rw [ht]
      exact fun heq => hne (Option.some.inj heq).symm

theorem step_inv (h : Inv s) (hpinned : s.Pinned e) (hs : step s e = some s') : Inv s' := by
  cases e with
  | enter t cpu addr val =>
    rw [step] at hs
    split at hs
    next hpos =>
      cases hs
      exact h.move rfl rfl (by rw [hpos]; rfl) (fun _ h => nomatch h)
    next => cases hs
  | next t cpu =>
    rw [step] at hs
    rw [Pinned] at hpinned
    split at hs
    next => cases hs
    next oldCr0 hpos =>
      cases hs
      exact h.clears hpos (wp_pageRdwr oldCr0) rfl rfl
    next cleared hpos =>
      cases hs
      exact h.move rfl rfl (by rw [hpos]; rfl) (fun _ h => nomatch h)
    next cleared hpos =>
      cases hs
      exact h.move rfl rfl (by rw [hpos]; rfl) (fun _ h => nomatch h)
    next cleared oldCr0 hpos =>
      rw [hpos] at hpinned
      obtain ⟨rfl, hothers⟩ := hpinned
      cases hs
      exact h.sets hpos (wp_pageRdonly oldCr0) hothers rfl rfl

-- ---------------------------------------------------------------------------
-- Main theorem
-- ---------------------------------------------------------------------------

theorem protection_restored (houtside : s.AllOutside) (hwp : s.AllProtected)
    (hpinned : Along step Pinned s es) :
    Along step ExchangesClear s es ∧ Always step Restored s es := by
  have hinv : Inv s := inv_of_outside houtside hwp
  have hstep : ∀ (s : Smp Cpu Task) e s', Inv s → s.Pinned e → step s e = some s' → Inv s' :=
    fun _ _ _ => step_inv
  constructor
  · exact along_of_along (fun _ _ hi hp => hi.exchangesClear hp) hstep hinv hpinned
  · exact always_of_along (fun _ hi => hi.restored) hstep hinv hpinned

end

def sample : Smp (Fin 2) (Fin 2) where
  cr0 _ := 0x80050033
  mem _ := 0x90
  args _ := { point := 0, word := [] }
  pos _ := .outside

/-- Two tasks on two CPUs; the first is elsewhere when it reads CR0 again. -/
def sampleRun : List (XchgEvent (Fin 2) (Fin 2)) :=
  [.enter 0 0 0 [0xe9], .next 0 0, .enter 1 1 8 [0xe9], .next 0 0, .next 1 1, .next 0 1, .next 0 0,
    .next 1 1, .next 1 1, .next 1 1]

theorem protection_restored_sample :
    Along step ExchangesClear sample sampleRun ∧ Always step Restored sample sampleRun :=
  protection_restored (by decide) (by decide) (by decide)

/-- One CPU is enough: the second task sets the bit before the first exchanges. -/
example : ¬ Along step ExchangesClear sample [.enter 0 0 0 [0xe9], .next 0 0, .enter 1 0 8 [0xe9],
    .next 1 0, .next 1 0, .next 1 0, .next 1 0, .next 0 0] := by decide

/-- A task that has cleared the bit on one CPU goes on on the other. -/
def migrated : List (XchgEvent (Fin 2) (Fin 2)) :=
  [.enter 0 0 0 [0xe9], .next 0 0, .next 0 1, .next 0 1, .next 0 1]

theorem protection_restored_fails :
    (¬ ∀ (Cpu Task : Type) [DecidableEq Cpu] [DecidableEq Task] (s : Smp Cpu Task)
      (es : List (XchgEvent Cpu Task)), s.AllOutside → s.AllProtected →
      Along step ExchangesClear s es) ∧
    ¬ ∀ (Cpu Task : Type) [DecidableEq Cpu] [DecidableEq Task] (s : Smp Cpu Task)
      (es : List (XchgEvent Cpu Task)), s.AllOutside → s.AllProtected →
      Always step Restored s es := by
  constructor
  · intro h
    exact absurd (h (Fin 2) (Fin 2) sample migrated (by decide) (by decide)) (by decide)
  · intro h
    exact absurd (h (Fin 2) (Fin 2) sample migrated (by decide) (by decide)) (by decide)

end Smp

end Yasched
