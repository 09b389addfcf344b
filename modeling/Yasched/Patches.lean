import Yasched.Bytes

/-!
# Words exchanged with memory

A patch is a word and the place where it goes. `exchange` puts the word there
and keeps in its place what it found, so that a second exchange of the same
patch undoes the first when nobody wrote to the place between the two.

`exchangeAll` exchanges one patch after another. Undone in reverse, a list of
patches brings back every cell that it covers, whatever became of memory
meanwhile (`undo_reverse`). Undone in the order in which it was made, it
leaves in a cell what its last patch found there (`undo_inOrder`).
-/

namespace Yasched

open Bytes

structure Patch (β : Type u) where
  point : Nat
  word : List β
  deriving DecidableEq, Repr

namespace Patch

variable {β : Type u}

def at? (p : Patch β) (x : Nat) : Option β :=
  if p.point ≤ x then p.word[x - p.point]? else none

def Covers (p : Patch β) (x : Nat) : Prop := p.point ≤ x ∧ x < p.point + p.word.length

instance (p : Patch β) (x : Nat) : Decidable (p.Covers x) := inferInstanceAs (Decidable (_ ∧ _))

def exchange (m : Nat → β) (p : Patch β) : (Nat → β) × Patch β :=
  (write m p.point p.word, { p with word := read m p.point p.word.length })

def exchangeAll (m : Nat → β) : List (Patch β) → (Nat → β) × List (Patch β)
  | [] => (m, [])
  | p :: ps =>
    let (m, p) := exchange m p
    let (m, ps) := exchangeAll m ps
    (m, p :: ps)

def bytesAt (ps : List (Patch β)) (x : Nat) : List β := ps.filterMap (·.at? x)

/-- The cell comes back when the patches are undone in the order in which they
were made: what the last but one of those that cover it put there is what it
held at first. -/
def Returns (m : Nat → β) (ps : List (Patch β)) (x : Nat) : Prop :=
  ∀ b ∈ (bytesAt ps x).dropLast.getLast?, b = m x

/-- Memory holds the word of the patch. -/
def InPlace (m : Nat → β) (p : Patch β) : Prop := read m p.point p.word.length = p.word

/-- Where two patches or more cover a cell, they all put there what it holds
already. -/
def Harmless (m : Nat → β) (ps : List (Patch β)) : Prop :=
  ∀ x, 1 < (bytesAt ps x).length → ∀ b ∈ bytesAt ps x, m x = b

-- ---------------------------------------------------------------------------
-- One patch
-- ---------------------------------------------------------------------------

theorem at?_eq_none : p.at? x = none ↔ ¬ Covers (β := β) p x := by
  unfold at? Covers
  split <;> simp <;> omega

theorem exchange_mem (m : Nat → β) (p : Patch β) : (exchange m p).1 x = (p.at? x).getD (m x) := by
  simp only [exchange, write, at?]
  split <;> rfl

theorem exchange_at? (m : Nat → β) (p : Patch β) :
    (exchange m p).2.at? x = (p.at? x).map fun _ => m x := by
  unfold exchange at?
  split
  case isTrue h =>
    rw [getElem?_read, Nat.add_sub_of_le h]
    cases hb : p.word[x - p.point]? with
    | none => simp [List.getElem?_eq_none_iff.mp hb]
    | some b =>
      obtain ⟨hlt, -⟩ := List.getElem?_eq_some_iff.mp hb
      simp [hlt]
  case isFalse => rfl

@[simp] theorem exchange_point (m : Nat → β) (p : Patch β) : (exchange m p).2.point = p.point := rfl

-- ---------------------------------------------------------------------------
-- Many patches
-- ---------------------------------------------------------------------------

theorem exchangeAll_append (m : Nat → β) (ps qs : List (Patch β)) :
    exchangeAll m (ps ++ qs) =
      ((exchangeAll (exchangeAll m ps).1 qs).1,
        (exchangeAll m ps).2 ++ (exchangeAll (exchangeAll m ps).1 qs).2) := by
  induction ps generalizing m with
  | nil => rfl
  | cons p ps ih => simp [exchangeAll, ih]

theorem exchangeAll_points (m : Nat → β) (ps : List (Patch β)) :
    (exchangeAll m ps).2.map (·.point) = ps.map (·.point) := by
  induction ps generalizing m with
  | nil => rfl
  | cons p ps ih => exact congrArg (p.point :: ·) (ih (exchange m p).1)

theorem bytesAt_eq_nil : bytesAt ps x = [] ↔ ∀ p ∈ ps, ¬ Covers (β := β) p x := by
  simp [bytesAt, List.filterMap_eq_nil_iff, at?_eq_none]

theorem exchangeAll_mem (m : Nat → β) (ps : List (Patch β)) :
    (exchangeAll m ps).1 x = (bytesAt ps x).getLast?.getD (m x) := by
  induction ps generalizing m with
  | nil => rfl
  | cons p ps ih =>
    show (exchangeAll (exchange m p).1 ps).1 x = _
    rw [ih, exchange_mem]
    cases hp : p.at? x with
    | none =>
      have hbytes : bytesAt (p :: ps) x = bytesAt ps x := List.filterMap_cons_none hp
      rw [hbytes, Option.getD_none]
    | some b =>
      have hbytes : bytesAt (p :: ps) x = b :: bytesAt ps x := List.filterMap_cons_some hp
      rw [hbytes, List.getLast?_cons, Option.getD_some, Option.getD_some]

theorem exchangeAll_bytesAt (m : Nat → β) (ps : List (Patch β)) :
    bytesAt (exchangeAll m ps).2 x = (m x :: bytesAt ps x).dropLast := by
  induction ps generalizing m with
  | nil => rfl
  | cons p ps ih =>
    show bytesAt ((exchange m p).2 :: (exchangeAll (exchange m p).1 ps).2) x = _
    have htail := ih (exchange m p).1
    rw [exchange_mem] at htail
    cases hp : p.at? x with
    | none =>
      have hsaved : (exchange m p).2.at? x = none := by rw [exchange_at?, hp, Option.map_none]
      simpa [bytesAt, hsaved, hp] using htail
    | some b =>
      have hsaved : (exchange m p).2.at? x = some (m x) := by rw [exchange_at?, hp, Option.map_some]
      rw [hp] at htail
      simpa [bytesAt, hsaved, hp] using htail

-- ---------------------------------------------------------------------------
-- Undoing
-- ---------------------------------------------------------------------------

theorem bytesAt_reverse (ps : List (Patch β)) : bytesAt ps.reverse x = (bytesAt ps x).reverse := by
  simp [bytesAt, List.filterMap_reverse]

theorem undo_reverse (m m' : Nat → β) (ps : List (Patch β)) :
    (exchangeAll m' (exchangeAll m ps).2.reverse).1 x =
      if bytesAt ps x = [] then m' x else m x := by
  rw [exchangeAll_mem, bytesAt_reverse, exchangeAll_bytesAt]
  cases bytesAt ps x with
  | nil => rfl
  | cons b bs => simp

theorem undo_inOrder (m m' : Nat → β) (ps : List (Patch β)) :
    (exchangeAll m' (exchangeAll m ps).2).1 x =
      if bytesAt ps x = [] then m' x else (bytesAt ps x).dropLast.getLast?.getD (m x) := by
  rw [exchangeAll_mem, exchangeAll_bytesAt]
  cases h : bytesAt ps x with
  | nil => rfl
  | cons b bs => cases hbs : (b :: bs).dropLast <;> simp_all [List.getLast?_cons]

theorem undo_inOrder_iff (m : Nat → β) (ps : List (Patch β)) :
    (exchangeAll (exchangeAll m ps).1 (exchangeAll m ps).2).1 x = m x ↔ Returns m ps x := by
  rw [undo_inOrder, exchangeAll_mem]
  unfold Returns
  split
  case isTrue h => simp [h]
  case isFalse => cases (bytesAt ps x).dropLast.getLast? <;> simp

-- ---------------------------------------------------------------------------
-- Patches that do not hurt one another
-- ---------------------------------------------------------------------------

theorem inPlace_at? : InPlace m p ↔ ∀ x, ∀ b ∈ at? (β := β) p x, m x = b := by
  constructor
  · intro h x b hb
    unfold at? at hb
    split at hb
    case isFalse => cases hb
    case isTrue hle =>
      obtain ⟨hlt, rfl⟩ := List.getElem?_eq_some_iff.mp hb
      have hcell : (read m p.point p.word.length)[x - p.point]? = p.word[x - p.point]? := by rw [h]
      rw [getElem?_read, if_pos hlt, List.getElem?_eq_getElem hlt, Nat.add_sub_of_le hle] at hcell
      exact Option.some.inj hcell
  · intro h
    refine List.ext_getElem (length_read m) fun i hi hi' => ?_
    rw [getElem_read]
    refine h _ _ ?_
    simp [at?, hi']

theorem inPlace_all : (∀ p ∈ ps, InPlace (β := β) m p) ↔ ∀ x, ∀ b ∈ bytesAt ps x, m x = b := by
  simp only [inPlace_at?, bytesAt, List.mem_filterMap, Option.mem_def]
  constructor
  · rintro h x b ⟨p, hp, hb⟩
    exact h p hp x b hb
  · intro h p hp x b hb
    exact h x b ⟨p, hp, hb⟩

theorem alike_iff {b c d : β} :
    (∀ e ∈ b :: c :: bs, d = e) ↔
      (∀ e ∈ b :: c :: bs, (b :: c :: bs).getLast?.getD d = e) ∧
        ∀ e ∈ (d :: b :: c :: bs).dropLast, d = e := by
  obtain ⟨last, hlast⟩ : ∃ last, (b :: c :: bs).getLast? = some last :=
    ⟨_, List.getLast?_eq_some_getLast (List.cons_ne_nil b _)⟩
  have hmem : last ∈ b :: c :: bs := List.mem_of_getLast? hlast
  rw [hlast, Option.getD_some]
  constructor
  · intro h
    refine ⟨fun e he => (h last hmem).symm.trans (h e he), fun e he => ?_⟩
    rcases List.mem_cons.mp (List.dropLast_subset _ he) with rfl | he
    · rfl
    · exact h e he
  · rintro ⟨hall, hfound⟩ e he
    have hfirst : d = b := hfound b (by simp)
    rw [hfirst, ← hall b List.mem_cons_self]
    exact hall e he

/-- All words are in place in the end, and all that was found was there at
first, just when the patches do not hurt one another. -/
theorem harmless_iff (m : Nat → β) (ps : List (Patch β)) :
    Harmless m ps ↔ (∀ p ∈ ps, InPlace (exchangeAll m ps).1 p) ∧
      ∀ p ∈ (exchangeAll m ps).2, InPlace m p := by
  rw [inPlace_all, inPlace_all, ← forall_and, Harmless]
  refine forall_congr' fun x => ?_
  rw [exchangeAll_bytesAt, exchangeAll_mem]
  rcases bytesAt ps x with _ | ⟨b, _ | ⟨c, bs⟩⟩
  · simp
  · simp
  · rw [← alike_iff]
    simp

end Patch

end Yasched
