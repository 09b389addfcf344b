import Mathlib.Algebra.BigOperators.Group.Finset.Piecewise
import Mathlib.Algebra.Order.Ring.Nat

/-!
# Runs of a partial step

A system is a step `σ → ε → Option σ`: from a state, an event either is not
enabled or leads to one next state. A run is a list of events, so that every
interleaving of the parties that issue events is one list.

`Along` and `Always` say something of every step and of every state of a run.
Neither assumes that the whole list is enabled: they speak of the steps the
run does take.

`simulation` is for two systems: one follows the runs of the other. `amortized`
counts the events of a run against a potential of its states.

`sum_update` is for what the parties of a system hold together, when one of
them moves.
-/

namespace Yasched.Runs

open Finset

variable {σ : Type u} {ε : Type v} {step : σ → ε → Option σ}

/-- Takes the events one after another, as long as each is enabled. -/
def run (step : σ → ε → Option σ) : σ → List ε → Option σ
  | s, [] => some s
  | s, e :: es => (step s e).bind (run step · es)

/-- Every step taken satisfies `P`, a condition on the state before the step
and on its event. -/
def Along (step : σ → ε → Option σ) (P : σ → ε → Prop) : σ → List ε → Prop
  | _, [] => True
  | s, e :: es => ∀ s', step s e = some s' → P s e ∧ Along step P s' es

/-- Every state reached satisfies `Q`, the first one included. -/
def Always (step : σ → ε → Option σ) (Q : σ → Prop) : σ → List ε → Prop
  | s, [] => Q s
  | s, e :: es => Q s ∧ ∀ s', step s e = some s' → Always step Q s' es

/-- Some step taken satisfies `P`. -/
def Occurs (step : σ → ε → Option σ) (P : σ → ε → Prop) : σ → List ε → Prop
  | _, [] => False
  | s, e :: es => ∃ s', step s e = some s' ∧ (P s e ∨ Occurs step P s' es)

instance decidableAlong [∀ s e, Decidable (P s e)] :
    (s : σ) → (es : List ε) → Decidable (Along step P s es)
  | _, [] => .isTrue trivial
  | s, e :: es =>
    match hs : step s e with
    | none => .isTrue fun _ h => nomatch hs.symm.trans h
    | some m =>
      have := decidableAlong (P := P) m es
      decidable_of_iff (P s e ∧ Along step P m es) (by simp [Along, hs])

instance decidableAlways [DecidablePred Q] :
    (s : σ) → (es : List ε) → Decidable (Always step Q s es)
  | s, [] => inferInstanceAs (Decidable (Q s))
  | s, e :: es =>
    match hs : step s e with
    | none => decidable_of_iff (Q s) (by simp [Always, hs])
    | some m =>
      have := decidableAlways (Q := Q) m es
      decidable_of_iff (Q s ∧ Always step Q m es) (by simp [Always, hs])

instance decidableOccurs [∀ s e, Decidable (P s e)] :
    (s : σ) → (es : List ε) → Decidable (Occurs step P s es)
  | _, [] => .isFalse id
  | s, e :: es =>
    match hs : step s e with
    | none => .isFalse fun ⟨_, h, _⟩ => nomatch hs.symm.trans h
    | some m =>
      have := decidableOccurs (P := P) m es
      decidable_of_iff (P s e ∨ Occurs step P m es) (by simp [Occurs, hs])

-- ---------------------------------------------------------------------------
-- Taking runs apart
-- ---------------------------------------------------------------------------

@[simp] theorem run_nil (s : σ) : run step s [] = some s := rfl

theorem run_cons : run step s (e :: es) = some s' ↔
    ∃ m, step s e = some m ∧ run step m es = some s' := by
  simp [run, Option.bind_eq_some_iff]

theorem run_append : run step s (es ++ es') = some s' ↔
    ∃ m, run step s es = some m ∧ run step m es' = some s' := by
  induction es generalizing s with
  | nil => simp
  | cons e es ih =>
    simp only [List.cons_append, run_cons, ih]
    constructor
    · rintro ⟨a, ha, m, hm, hr⟩
      exact ⟨m, ⟨a, ha, hm⟩, hr⟩
    · rintro ⟨m, ⟨a, ha, hm⟩, hr⟩
      exact ⟨a, ha, m, hm, hr⟩

theorem Always.first (h : Always step Q s es) : Q s := by
  cases es with
  | nil => exact h
  | cons => exact h.1

theorem Always.last (h : Always step Q s es) (hr : run step s es = some s') : Q s' := by
  induction es generalizing s with
  | nil => cases hr; exact h
  | cons e es ih =>
    obtain ⟨a, ha, hr⟩ := run_cons.mp hr
    exact ih (h.2 a ha) hr

theorem Always.along (h : Always step Q s es) : Along step (fun s _ => Q s) s es := by
  induction es generalizing s with
  | nil => trivial
  | cons e es ih => exact fun a hs => ⟨h.1, ih (h.2 a hs)⟩

theorem Along.and (h : Along step P s es) (h' : Along step R s es) :
    Along step (fun s e => P s e ∧ R s e) s es := by
  induction es generalizing s with
  | nil => trivial
  | cons e es ih =>
    intro a hs
    obtain ⟨hp, h⟩ := h a hs
    obtain ⟨hr, h'⟩ := h' a hs
    exact ⟨⟨hp, hr⟩, ih h h'⟩

theorem Along.last (h : Along step P s (es ++ [e])) (hr : run step s es = some m)
    (hs : step m e = some s') : P m e := by
  induction es generalizing s with
  | nil =>
    cases hr
    exact (h s' hs).1
  | cons e es ih =>
    obtain ⟨a, ha, hr⟩ := run_cons.mp hr
    exact ih (h a ha).2 hr

theorem along_append : Along step P s (es ++ es') ↔
    Along step P s es ∧ ∀ m, run step s es = some m → Along step P m es' := by
  induction es generalizing s with
  | nil => simp [Along]
  | cons e es ih =>
    simp only [List.cons_append, Along, ih, run_cons]
    constructor
    · exact fun h => ⟨fun a hs => ⟨(h a hs).1, (h a hs).2.1⟩,
        fun m ⟨a, hs, hr⟩ => (h a hs).2.2 m hr⟩
    · exact fun h a hs => ⟨(h.1 a hs).1, (h.1 a hs).2, fun m hr => h.2 m ⟨a, hs, hr⟩⟩

theorem along_of_mem {P : σ → ε → Prop} (h : ∀ e ∈ es, ∀ s, P s e) : Along step P s es := by
  induction es generalizing s with
  | nil => trivial
  | cons e es ih =>
    obtain ⟨hfirst, hrest⟩ := List.forall_mem_cons.mp h
    exact fun a _ => ⟨hfirst s, ih hrest⟩

theorem Along.enabled (h : Along step P s es) :
    Along step (fun s e => P s e ∧ ∃ s', step s e = some s') s es := by
  induction es generalizing s with
  | nil => trivial
  | cons e es ih =>
    intro a hs
    obtain ⟨hp, h⟩ := h a hs
    exact ⟨⟨hp, a, hs⟩, ih h⟩

-- ---------------------------------------------------------------------------
-- Invariant rules
-- ---------------------------------------------------------------------------

/-- What every step preserves holds after every run. -/
theorem invariant {I : σ → Prop} (hstep : ∀ s e s', I s → step s e = some s' → I s')
    (h : I s) (hr : run step s es = some s') : I s' := by
  induction es generalizing s with
  | nil => cases hr; exact h
  | cons e es ih =>
    obtain ⟨a, ha, hr⟩ := run_cons.mp hr
    exact ih (hstep s e a h ha) hr

/-- What every step that satisfies `P` preserves holds after every run whose
steps all satisfy `P`. -/
theorem invariant_along {I : σ → Prop} {P : σ → ε → Prop}
    (hstep : ∀ s e s', I s → P s e → step s e = some s' → I s')
    (h : I s) (ha : Along step P s es) (hr : run step s es = some s') : I s' := by
  induction es generalizing s with
  | nil => cases hr; exact h
  | cons e es ih =>
    obtain ⟨a, hs, hr⟩ := run_cons.mp hr
    obtain ⟨hp, ha⟩ := ha a hs
    exact ih (hstep s e a h hp hs) ha hr

/-- An invariant that also says whether some step so far has satisfied `P`. -/
theorem invariant_occurs {I : Prop → σ → Prop} {P R : σ → ε → Prop}
    (hstep : ∀ K s e s', I K s → R s e → step s e = some s' → I (K ∨ P s e) s')
    (h : I K s) (ha : Along step R s es) (hr : run step s es = some s') :
    I (K ∨ Occurs step P s es) s' := by
  induction es generalizing s K with
  | nil => cases hr; simpa [Occurs] using h
  | cons e es ih =>
    obtain ⟨a, hs, hr⟩ := run_cons.mp hr
    obtain ⟨hp, ha⟩ := ha a hs
    have hi := ih (hstep K s e a h hp hs) ha hr
    simpa only [Occurs, hs, Option.some.injEq, exists_eq_left', or_assoc] using hi

theorem always_of_along {I Q : σ → Prop} {P : σ → ε → Prop} (hq : ∀ s, I s → Q s)
    (hstep : ∀ s e s', I s → P s e → step s e = some s' → I s')
    (h : I s) (ha : Along step P s es) : Always step Q s es := by
  induction es generalizing s with
  | nil => exact hq s h
  | cons e es ih =>
    refine ⟨hq s h, fun a hs => ?_⟩
    obtain ⟨hp, ha⟩ := ha a hs
    exact ih (hstep s e a h hp hs) ha

theorem always_of_step {I Q : σ → Prop} (hq : ∀ s, I s → Q s)
    (hstep : ∀ s e s', I s → step s e = some s' → I s') (h : I s) : Always step Q s es := by
  induction es generalizing s with
  | nil => exact hq s h
  | cons e es ih => exact ⟨hq s h, fun a hs => ih (hstep s e a h hs)⟩

theorem along_of_along {I : σ → Prop} {P R : σ → ε → Prop} (hr : ∀ s e, I s → P s e → R s e)
    (hstep : ∀ s e s', I s → P s e → step s e = some s' → I s')
    (h : I s) (ha : Along step P s es) : Along step R s es := by
  induction es generalizing s with
  | nil => trivial
  | cons e es ih =>
    intro a hs
    obtain ⟨hp, ha⟩ := ha a hs
    exact ⟨hr s e h hp, ih (hstep s e a h hp hs) ha⟩

/-- If, inside an invariant `I`, a step keeps `Q` exactly when it satisfies
`P`, then a run stays in `Q` exactly when all its steps satisfy `P`. -/
theorem always_iff_along {I Q : σ → Prop} {P : σ → ε → Prop}
    (hI : ∀ s e s', I s → step s e = some s' → I s')
    (hQ : ∀ s e s', I s → Q s → step s e = some s' → (Q s' ↔ P s e))
    (hi : I s) (hq : Q s) : Always step Q s es ↔ Along step P s es := by
  induction es generalizing s with
  | nil => simp [Always, Along, hq]
  | cons e es ih =>
    simp only [Always, Along, hq, true_and]
    refine forall₂_congr fun a ha => ?_
    constructor
    · intro h
      have hqa : Q a := h.first
      exact ⟨(hQ s e a hi hq ha).mp hqa, (ih (hI s e a hi ha) hqa).mp h⟩
    · rintro ⟨hp, h⟩
      exact (ih (hI s e a hi ha) ((hQ s e a hi hq ha).mpr hp)).mpr h

-- ---------------------------------------------------------------------------
-- What runs cost
-- ---------------------------------------------------------------------------

/-- A step costs no more than the potential loses, but for its credit; so does
a run. -/
theorem amortized {I : σ → Prop} {cost credit : ε → Nat} (potential : σ → Nat)
    (hI : ∀ s e s', I s → step s e = some s' → I s')
    (hstep : ∀ s e s', I s → step s e = some s' →
      cost e + potential s' ≤ potential s + credit e)
    (h : I s) (hr : run step s es = some s') :
    (es.map cost).sum + potential s' ≤ potential s + (es.map credit).sum := by
  induction es generalizing s with
  | nil => cases hr; simp
  | cons e es ih =>
    obtain ⟨a, hs, hr⟩ := run_cons.mp hr
    have hfirst := hstep s e a h hs
    have hrest := ih (hI s e a h hs) hr
    simp only [List.map_cons, List.sum_cons]
    omega

theorem sum_count [DecidableEq ε] (x : ε) (c : Nat) (es : List ε) :
    (es.map fun e => if e = x then c else 0).sum = c * es.count x := by
  induction es with
  | nil => rfl
  | cons e es ih =>
    rw [List.map_cons, List.sum_cons, ih, List.count_cons]
    by_cases he : e = x
    · simp [he, Nat.mul_add, Nat.add_comm]
    · simp [he]

-- ---------------------------------------------------------------------------
-- Two systems
-- ---------------------------------------------------------------------------

/-- The run of another system that the steps of a run stand for, each for the
events that `tr` gives. -/
def translate (step : σ → ε → Option σ) (tr : σ → ε → List δ) : σ → List ε → List δ
  | _, [] => []
  | s, e :: es =>
    match step s e with
    | none => []
    | some s' => tr s e ++ translate step tr s' es

/-- If the other system can follow every step that satisfies `P`, it can follow
every run of such steps. -/
theorem simulation {τ : Type w} {δ : Type x} {z : τ} {R : σ → τ → Prop} {P : σ → ε → Prop}
    {step' : τ → δ → Option τ} {tr : σ → ε → List δ}
    (hstep : ∀ s e s' z, R s z → P s e → step s e = some s' →
      ∃ z', run step' z (tr s e) = some z' ∧ R s' z')
    (h : R s z) (ha : Along step P s es) (hr : run step s es = some s') :
    ∃ z', run step' z (translate step tr s es) = some z' ∧ R s' z' := by
  induction es generalizing s z with
  | nil =>
    cases hr
    exact ⟨z, rfl, h⟩
  | cons e es ih =>
    obtain ⟨m, hs, hr⟩ := run_cons.mp hr
    obtain ⟨hp, ha⟩ := ha m hs
    obtain ⟨y, hy, hm⟩ := hstep s e m z h hp hs
    obtain ⟨z', hz, h'⟩ := ih hm ha hr
    refine ⟨z', ?_, h'⟩
    simp only [translate, hs]
    exact run_append.mpr ⟨y, hy, hz⟩

-- ---------------------------------------------------------------------------
-- What numbered parties hold
-- ---------------------------------------------------------------------------

theorem sum_update {w : Nat → α → Nat} {f : Nat → α} (ht : t < n) :
    (∑ i ∈ range n, w i (Function.update f t x i)) + w t (f t) =
      (∑ i ∈ range n, w i (f i)) + w t x := by
  have hm : t ∈ range n := mem_range.mpr ht
  have hne : ∀ i ∈ (range n).erase t, w i (Function.update f t x i) = w i (f i) := by
    intro i hi
    rw [Function.update_of_ne (ne_of_mem_erase hi)]
  rw [← add_sum_erase _ _ hm, ← add_sum_erase (range n) (fun i => w i (f i)) hm, sum_congr rfl hne,
    Function.update_self]
  omega

end Yasched.Runs
