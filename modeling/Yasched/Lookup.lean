import Mathlib.Data.List.Sort

/-!
# Sorted tables

`strcmp`, `qsort` and `bsearch` of the C library. A string is the list of its
bytes without the NUL, a table a list.

A comparison is an order where it turns round with its arguments and is
transitive. Sorted by such a one, a table has what compares less than a key in
front and what compares greater behind, and halving finds what is in between.
-/

namespace Yasched.Lookup

-- ---------------------------------------------------------------------------
-- Comparisons
-- ---------------------------------------------------------------------------

structure Compares (compar : α → α → Int) : Prop where
  neg : ∀ a b, compar b a = -compar a b
  trans : ∀ a b c, compar a b ≤ 0 → compar b c ≤ 0 → compar a c ≤ 0

/-- The bytes are compared as `unsigned char`, and the NUL is the least. -/
def strcmp : List UInt8 → List UInt8 → Int
  | [], [] => 0
  | [], _ :: _ => -1
  | _ :: _, [] => 1
  | c :: cs, d :: ds => if c = d then strcmp cs ds else if c < d then -1 else 1

theorem strcmp_eq_zero (cs ds : List UInt8) : strcmp cs ds = 0 ↔ cs = ds := by
  induction cs generalizing ds with
  | nil => cases ds <;> simp [strcmp]
  | cons c cs ih =>
    cases ds with
    | nil => simp [strcmp]
    | cons d ds =>
      rw [strcmp, List.cons.injEq]
      split
      case isTrue hcd => rw [ih, and_iff_right hcd]
      case isFalse hcd =>
        refine iff_of_false ?_ fun h => hcd h.1
        split <;> decide

theorem strcmp_neg (cs ds : List UInt8) : strcmp ds cs = -strcmp cs ds := by
  induction cs generalizing ds with
  | nil => cases ds <;> rfl
  | cons c cs ih =>
    cases ds with
    | nil => rfl
    | cons d ds =>
      rw [strcmp, strcmp]
      by_cases hcd : c = d
      · rw [if_pos hcd, if_pos hcd.symm, ih]
      · rw [if_neg hcd, if_neg (Ne.symm hcd)]
        rcases UInt8.lt_or_lt_of_ne hcd with hlt | hlt
        · rw [if_pos hlt, if_neg (UInt8.lt_asymm hlt)]
          rfl
        · rw [if_neg (UInt8.lt_asymm hlt), if_pos hlt]

theorem strcmp_cons_le : strcmp (c :: cs) (d :: ds) ≤ 0 ↔ c < d ∨ c = d ∧ strcmp cs ds ≤ 0 := by
  rw [strcmp]
  split
  case isTrue hcd =>
    subst hcd
    simp [UInt8.lt_irrefl]
  case isFalse hcd =>
    simp only [hcd, false_and, or_false]
    split
    case isTrue hlt => simp [hlt]
    case isFalse hlt => simp [hlt]

theorem strcmp_trans (as bs cs : List UInt8) (hab : strcmp as bs ≤ 0) (hbc : strcmp bs cs ≤ 0) :
    strcmp as cs ≤ 0 := by
  induction as generalizing bs cs with
  | nil => cases cs <;> simp [strcmp]
  | cons a as ih =>
    cases bs with
    | nil => exact absurd hab (by simp [strcmp])
    | cons b bs =>
      cases cs with
      | nil => exact absurd hbc (by simp [strcmp])
      | cons c cs =>
        rw [strcmp_cons_le] at hab hbc ⊢
        rcases hab with hab | ⟨rfl, hab⟩
        · rcases hbc with hbc | ⟨rfl, -⟩
          · exact .inl (UInt8.lt_trans hab hbc)
          · exact .inl hab
        · rcases hbc with hbc | ⟨rfl, hbc⟩
          · exact .inl hbc
          · exact .inr ⟨rfl, ih bs cs hab hbc⟩

theorem strcmp_compares : Compares strcmp := ⟨strcmp_neg, strcmp_trans⟩

theorem Compares.on {compar : α → α → Int} (hc : Compares compar) (f : β → α) :
    Compares fun x y => compar (f x) (f y) :=
  ⟨fun x y => hc.neg (f x) (f y), fun x y z => hc.trans (f x) (f y) (f z)⟩

-- ---------------------------------------------------------------------------
-- Sorting and searching
-- ---------------------------------------------------------------------------

def qsort (compar : α → α → Int) (base : List α) : List α :=
  base.mergeSort fun a b => compar a b ≤ 0

/-- The loop of `bsearch` on `[l, u)`. `compar` has its key already; `fuel` is
for the turns. -/
def halve (compar : α → Int) (base : List α) : (fuel l u : Nat) → Option α
  | 0, _, _ => none
  | fuel + 1, l, u =>
    if l < u then
      match base[(l + u) / 2]? with
      | none => none
      | some p =>
        if compar p < 0 then halve compar base fuel l ((l + u) / 2)
        else if 0 < compar p then halve compar base fuel ((l + u) / 2 + 1) u
        else some p
    else none

def bsearch (compar : α → Int) (base : List α) : Option α :=
  halve compar base base.length 0 base.length

/-- Where the key is less than an entry, it is less than all behind it; where it
is greater, than all in front. -/
def Partitioned (compar : α → Int) (base : List α) : Prop :=
  base.Pairwise fun x y => (compar x < 0 → compar y < 0) ∧ (0 < compar y → 0 < compar x)

section

variable {compar : α → Int} {base : List α}

theorem halve_some (h : halve compar base fuel l u = some p) : p ∈ base ∧ compar p = 0 := by
  induction fuel generalizing l u with
  | zero => cases h
  | succ fuel ih =>
    rw [halve] at h
    split at h
    case isFalse => cases h
    case isTrue =>
      split at h
      next => cases h
      next q hq =>
        split at h
        case isTrue => exact ih h
        case isFalse hless =>
          split at h
          case isTrue => exact ih h
          case isFalse hgreater =>
            cases h
            exact ⟨List.mem_of_getElem? hq, by omega⟩

theorem Partitioned.less {i j : Nat} (hp : Partitioned compar base) (hi : i ≤ j)
    (hx : base[i]? = some x) (hy : base[j]? = some y) :
    (compar x < 0 → compar y < 0) ∧ (0 < compar y → 0 < compar x) := by
  obtain ⟨hil, rfl⟩ := List.getElem?_eq_some_iff.mp hx
  obtain ⟨hjl, rfl⟩ := List.getElem?_eq_some_iff.mp hy
  rcases Nat.lt_or_eq_of_le hi with hlt | rfl
  · exact List.pairwise_iff_getElem.mp hp i j hil hjl hlt
  · exact ⟨id, id⟩

theorem halve_none (hp : Partitioned compar base) (hu : u ≤ base.length) (hfuel : u - l ≤ fuel)
    (h : halve compar base fuel l u = none) (hl : l ≤ i) (hi : i < u) (hx : base[i]? = some x) :
    compar x ≠ 0 := by
  induction fuel generalizing l u with
  | zero => omega
  | succ fuel ih =>
    rw [halve, if_pos (Nat.lt_of_le_of_lt hl hi)] at h
    split at h
    next hnone =>
      have hlen := List.getElem?_eq_none_iff.mp hnone
      omega
    next q hq =>
      split at h
      case isTrue hless =>
        rcases Nat.lt_or_ge i ((l + u) / 2) with hlt | hge
        · exact ih (by omega) (by omega) h hl hlt
        · have hneg := (hp.less hge hq hx).1 hless
          omega
      case isFalse =>
        split at h
        case isTrue hgreater =>
          rcases Nat.lt_or_ge ((l + u) / 2) i with hlt | hge
          · exact ih hu (by omega) h hlt hi
          · have hpos := (hp.less hge hx hq).2 hgreater
            omega
        case isFalse => cases h

/-- An entry that compares equal is found if there is one. -/
theorem bsearch_none (hp : Partitioned compar base) :
    bsearch compar base = none ↔ ∀ p ∈ base, compar p ≠ 0 := by
  constructor
  · intro h p hmem
    obtain ⟨i, hi⟩ := List.mem_iff_getElem?.mp hmem
    have hlt := (List.getElem?_eq_some_iff.mp hi).1
    exact halve_none hp (Nat.le_refl _) (Nat.sub_le _ _) h (Nat.zero_le i) hlt hi
  · intro h
    cases hb : bsearch compar base with
    | none => rfl
    | some p =>
      obtain ⟨hmem, hzero⟩ := halve_some hb
      exact absurd hzero (h p hmem)

end

section

variable {compar : α → α → Int}

theorem Compares.total (hc : Compares compar) (a b : α) : compar a b ≤ 0 ∨ compar b a ≤ 0 := by
  rw [hc.neg a b]
  omega

theorem sorted_qsort (hc : Compares compar) (base : List α) :
    (qsort compar base).Pairwise fun a b => compar a b ≤ 0 := by
  have hsorted : (qsort compar base).Pairwise fun a b => decide (compar a b ≤ 0) :=
    List.pairwise_mergeSort
      (fun a b c hab hbc => decide_eq_true
        (hc.trans a b c (of_decide_eq_true hab) (of_decide_eq_true hbc)))
      (fun a b => by simpa using hc.total a b) base
  exact hsorted.imp of_decide_eq_true

theorem Compares.partitioned (hc : Compares compar) (key : α)
    (hs : base.Pairwise fun a b => compar a b ≤ 0) : Partitioned (compar key) base := by
  refine hs.imp fun {x y} hxy => ⟨fun hx => ?_, fun hy => ?_⟩
  · have hle := hc.trans key x y (Int.le_of_lt hx) hxy
    by_contra hnot
    have hyk : compar y key ≤ 0 := by
      rw [hc.neg key y]
      omega
    have hxk := hc.trans x y key hxy hyk
    rw [hc.neg key x] at hxk
    omega
  · by_contra hnot
    have hky := hc.trans key x y (Int.not_lt.mp hnot) hxy
    omega

/-- `qsort`, then `bsearch` with the same comparison. -/
theorem bsearch_qsort (hc : Compares compar) (key : α) (base : List α) :
    (∀ p, bsearch (compar key) (qsort compar base) = some p → p ∈ base ∧ compar key p = 0) ∧
      (bsearch (compar key) (qsort compar base) = none ↔ ∀ p ∈ base, compar key p ≠ 0) := by
  have hmem (p : α) : p ∈ qsort compar base ↔ p ∈ base := List.mem_mergeSort
  constructor
  · intro p hp
    obtain ⟨hin, hzero⟩ := halve_some hp
    exact ⟨(hmem p).mp hin, hzero⟩
  · rw [bsearch_none (hc.partitioned key (sorted_qsort hc base))]
    exact forall_congr' fun p => by rw [hmem]

end

end Yasched.Lookup
