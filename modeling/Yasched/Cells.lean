import Mathlib.Data.Finset.Card
import Mathlib.Algebra.Order.Ring.Int

/-!
# Objects by address

A heap gives the object at an address, if one is allocated there. Code over
heaps runs in `HeapM`: a lookup of the null address or of one where nothing is
allocated is a fault, and a fault ends the code where it is, with the state
that it has reached.

`AtMost` counts: at most `n` things satisfy a predicate. It is what a
reference count says of the references there are, and `Covered` says it of all
objects at once.
-/

namespace Yasched.Cells

inductive Fault
  | null
  | freed (a : Nat)
  deriving DecidableEq, Repr

abbrev Heap (α : Type u) := Nat → Option α

abbrev HeapM (σ : Type) := ExceptT Fault (StateM σ)

variable {σ α β : Type}

/-- The answer or the fault, and the state that is reached. -/
def exec (x : HeapM σ α) (s : σ) : Except Fault α × σ := x.run.run s

/-- `heap` is where the objects are in the state. -/
def load (heap : σ → Heap α) (a : Nat) : HeapM σ α := do
  match heap (← get) a with
  | some x => return x
  | none => throw (if a = 0 then .null else .freed a)

-- ---------------------------------------------------------------------------
-- Running code
-- ---------------------------------------------------------------------------

@[simp] theorem exec_pure (x : α) (s : σ) : exec (pure x) s = (.ok x, s) := rfl

@[simp] theorem exec_get (s : σ) : exec get s = (.ok s, s) := rfl

@[simp] theorem exec_modify (f : σ → σ) (s : σ) : exec (modify f) s = (.ok (), f s) := rfl

@[simp] theorem exec_throw (e : Fault) (s : σ) :
    exec (throw e : HeapM σ α) s = (.error e, s) := rfl

theorem exec_bind (x : HeapM σ α) (f : α → HeapM σ β) (s : σ) :
    exec (x >>= f) s = match exec x s with
      | (.ok a, s') => exec (f a) s'
      | (.error e, s') => (.error e, s') := by
  simp only [exec, ExceptT.run_bind, StateT.run_bind]
  rcases x.run.run s with ⟨a | e, s'⟩ <;> rfl

theorem exec_map (f : α → β) (x : HeapM σ α) (s : σ) :
    exec (f <$> x) s = match exec x s with
      | (.ok a, s') => (.ok (f a), s')
      | (.error e, s') => (.error e, s') := by
  simp only [exec, ExceptT.run_map, StateT.run_map]
  rcases x.run.run s with ⟨a | e, s'⟩ <;> rfl

theorem exec_bind_ok {x : HeapM σ α} {f : α → HeapM σ β} (h : exec x s = (.ok a, s')) :
    exec (x >>= f) s = exec (f a) s' := by
  rw [exec_bind, h]

theorem exec_load {heap : σ → Heap α} (h : heap s a = some x) :
    exec (load heap a) s = (.ok x, s) := by
  simp [load, exec_bind, h]

theorem exec_load_null {heap : σ → Heap α} (h : heap s 0 = none) :
    exec (load heap 0) s = (.error .null, s) := by
  simp [load, exec_bind, h]

theorem exec_load_freed {heap : σ → Heap α} (h : heap s a = none) (ha : a ≠ 0) :
    exec (load heap a) s = (.error (.freed a), s) := by
  simp [load, exec_bind, h, ha]

theorem map_update (heap : Heap α) (f : α → β) (a : Nat) (o : Option α) :
    (fun i => (Function.update heap a o i).map f) =
      Function.update (fun i => (heap i).map f) a (o.map f) :=
  funext fun i => Function.apply_update (fun _ => Option.map f) heap a o i

-- ---------------------------------------------------------------------------
-- Counting
-- ---------------------------------------------------------------------------

def AtMost {ι : Type u} (P : ι → Prop) (n : Int) : Prop :=
  ∀ H : Finset ι, (∀ x ∈ H, P x) → (H.card : Int) ≤ n

namespace AtMost

variable {ι : Type u} {P Q : ι → Prop} {n : Int} {a b : ι}

theorem mono (h : AtMost P n) (hn : n ≤ m) (hq : ∀ x, Q x → P x) : AtMost Q m :=
  fun H hH => le_trans (h H fun x hx => hq x (hH x hx)) hn

theorem congr (h : AtMost P n) (hq : ∀ x, Q x ↔ P x) : AtMost Q n :=
  h.mono le_rfl fun x => (hq x).mp

theorem gain (h : AtMost P n) (hq : ∀ x, Q x → P x ∨ x = a) : AtMost Q (n + 1) := by
  classical
  intro H hH
  have herase : ∀ x ∈ H.erase a, P x := by
    intro x hx
    obtain ⟨hne, hx⟩ := Finset.mem_erase.mp hx
    exact (hq x (hH x hx)).resolve_right hne
  have hcard : H.card - 1 ≤ (H.erase a).card := Finset.pred_card_le_card_erase
  have hle := h _ herase
  omega

theorem lose (h : AtMost P n) (ha : P a) (hq : ∀ x, Q x → P x ∧ x ≠ a) : AtMost Q (n - 1) := by
  classical
  intro H hH
  have hnew : a ∉ H := fun hm => (hq a (hH a hm)).2 rfl
  have hinsert : ∀ x ∈ insert a H, P x := by
    intro x hx
    rcases Finset.mem_insert.mp hx with rfl | hx
    · exact ha
    · exact (hq x (hH x hx)).1
  have hle := h _ hinsert
  rw [Finset.card_insert_of_notMem hnew] at hle
  omega

theorem move (h : AtMost P n) (ha : P a) (hq : ∀ x, Q x → P x ∧ x ≠ a ∨ x = b) : AtMost Q n := by
  have hlost : AtMost (fun x => P x ∧ x ≠ a) (n - 1) := h.lose ha fun _ hx => hx
  exact (hlost.gain hq).mono (by omega) fun _ hx => hx

theorem pos (h : AtMost P n) (ha : P a) : 1 ≤ n := by
  simpa using h {a} (by simpa using ha)

theorem none (h : AtMost P 0) : ∀ x, ¬P x :=
  fun _ hx => absurd (h.pos hx) (by decide)

theorem unique (h : AtMost P 1) (ha : P a) (hb : P b) : b = a := by
  by_contra hne
  have hzero : AtMost (fun x => P x ∧ x ≠ a) 0 := h.lose ha fun _ hx => hx
  exact hzero.none b ⟨hb, hne⟩

end AtMost

-- ---------------------------------------------------------------------------
-- Reference counts
-- ---------------------------------------------------------------------------

/-- What is referred to is there, with a count that covers the references. -/
structure Covered {ι : Type u} (count : Nat → Option Int) (refs : Nat → ι → Prop) : Prop where
  live : ∀ a x, refs a x → ∃ n, count a = some n
  atMost : ∀ a n, count a = some n → AtMost (refs a) n

namespace Covered

variable {ι : Type u} {count : Nat → Option Int} {refs refs' : Nat → ι → Prop}

theorem shrink (h : Covered count refs) (hr : ∀ i y, refs' i y → refs i y) :
    Covered count refs' where
  live i y hy := h.live i y (hr i y hy)
  atMost i n hi := (h.atMost i n hi).mono le_rfl (hr i)

/-- References change only where the count is set. -/
theorem update (h : Covered count refs) (hr : ∀ i y, i ≠ a → refs' i y → refs i y)
    (hlive : ∀ y, refs' a y → ∃ n, o = some n) (hcount : ∀ n, o = some n → AtMost (refs' a) n) :
    Covered (Function.update count a o) refs' where
  live i y hy := by
    rcases eq_or_ne i a with rfl | hne
    · rw [Function.update_self]
      exact hlive y hy
    · rw [Function.update_of_ne hne]
      exact h.live i y (hr i y hne hy)
  atMost i n hi := by
    rcases eq_or_ne i a with rfl | hne
    · rw [Function.update_self] at hi
      exact hcount n hi
    · rw [Function.update_of_ne hne] at hi
      exact (h.atMost i n hi).mono le_rfl fun y => hr i y hne

theorem fresh (h : Covered count refs) (ha : count a = none)
    (hr : ∀ i y, refs' i y → refs i y ∨ i = a ∧ y = x) :
    Covered (Function.update count a (some 1)) refs' := by
  refine h.update (fun i y hne hy => (hr i y hy).resolve_right fun hx => hne hx.1)
    (fun _ _ => ⟨1, rfl⟩) ?_
  rintro n ⟨⟩
  have hempty : AtMost (refs a) 0 := fun H hH => by
    have hnone : H = ∅ := Finset.eq_empty_of_forall_notMem fun y hy => by
      obtain ⟨n, hn⟩ := h.live a y (hH y hy)
      cases ha.symm.trans hn
    simp [hnone]
  exact hempty.gain fun y hy => (hr a y hy).imp_right And.right

theorem take (h : Covered count refs) (ha : count a = some n)
    (hr : ∀ i y, refs' i y → refs i y ∨ i = a ∧ y = x) :
    Covered (Function.update count a (some (n + 1))) refs' := by
  refine h.update (fun i y hne hy => (hr i y hy).resolve_right fun hx => hne hx.1)
    (fun _ _ => ⟨_, rfl⟩) ?_
  rintro m ⟨⟩
  exact (h.atMost a n ha).gain fun y hy => (hr a y hy).imp_right And.right

theorem hand (h : Covered count refs) (hx : refs a x)
    (hr : ∀ i y, refs' i y → refs i y ∧ (i = a → y ≠ x) ∨ i = a ∧ y = z) :
    Covered count refs' := by
  obtain ⟨n, hn⟩ := h.live a x hx
  have hkept : Function.update count a (some n) = count := by rw [← hn, Function.update_eq_self]
  rw [← hkept]
  refine h.update (fun i y hne hy => ((hr i y hy).resolve_right fun hz => hne hz.1).1)
    (fun _ _ => ⟨n, rfl⟩) ?_
  rintro m ⟨⟩
  exact (h.atMost a n hn).move hx fun y hy =>
    (hr a y hy).imp (fun hy => ⟨hy.1, hy.2 rfl⟩) And.right

/-- A reference is given back, and the last one takes its object with it. -/
theorem drop (h : Covered count refs) (ha : count a = some n) (hx : refs a x)
    (hr : ∀ i y, refs' i y → refs i y ∧ (i = a → y ≠ x)) :
    Covered (Function.update count a (if n = 1 then none else some (n - 1))) refs' := by
  have hlost : AtMost (refs' a) (n - 1) :=
    (h.atMost a n ha).lose hx fun y hy => ⟨(hr a y hy).1, (hr a y hy).2 rfl⟩
  refine h.update (fun i y _ hy => (hr i y hy).1) (fun y hy => ?_) fun m hm => ?_
  · have hpos : 1 ≤ n - 1 := hlost.pos hy
    exact ⟨n - 1, if_neg (by omega)⟩
  · split at hm
    · cases hm
    · cases hm
      exact hlost

end Covered

end Yasched.Cells
