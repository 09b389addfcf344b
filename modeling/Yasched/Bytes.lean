import Mathlib.Logic.Function.Basic

/-!
# Cells under consecutive addresses

A memory is a function from addresses to cells. `read` and `write` work on
consecutive cells; `copy` moves cells one at a time from the lowest address up,
so that overlapping ranges have a meaning.
-/

namespace Yasched.Bytes

variable {β : Type u}

def read (m : Nat → β) (a n : Nat) : List β := (List.range n).map fun i => m (a + i)

def write (m : Nat → β) (a : Nat) (bs : List β) : Nat → β :=
  fun x => if a ≤ x then (bs[x - a]?).getD (m x) else m x

/-- `n` cells from `src` on, lowest first, to `dst` on. -/
def copy (m : Nat → β) (dst src : Nat) : Nat → Nat → β
  | 0 => m
  | n + 1 => copy (Function.update m dst (m src)) (dst + 1) (src + 1) n

-- ---------------------------------------------------------------------------
-- Reading and writing
-- ---------------------------------------------------------------------------

@[simp] theorem length_read (m : Nat → β) : (read m a n).length = n := by simp [read]

theorem getElem?_read (m : Nat → β) :
    (read m a n)[i]? = if i < n then some (m (a + i)) else none := by
  by_cases hi : i < n <;> simp [read, hi]

@[simp] theorem getElem_read (m : Nat → β) (hi : i < (read m a n).length) :
    (read m a n)[i] = m (a + i) := by
  simp [read]

theorem read_congr (h : ∀ i < n, m (a + i) = m' (b + i)) : read m a n = read m' b n := by
  apply List.ext_getElem (by simp)
  intro i hi _
  simpa using h i (by simpa using hi)

theorem read_add (m : Nat → β) (a n k : Nat) :
    read m a (n + k) = read m a n ++ read m (a + n) k := by
  simp [read, List.range_add, Nat.add_assoc]

theorem read_append {xs ys : List β} : read m a (xs ++ ys).length = xs ++ ys ↔
    read m a xs.length = xs ∧ read m (a + xs.length) ys.length = ys := by
  rw [List.length_append, read_add]
  constructor
  · exact fun h => List.append_inj h (by simp)
  · rintro ⟨hxs, hys⟩
    rw [hxs, hys]

theorem write_before (m : Nat → β) (hx : x < a) : write m a bs x = m x := by
  rw [write, if_neg (Nat.not_le.mpr hx)]

theorem write_after (m : Nat → β) (hx : a + bs.length ≤ x) : write m a bs x = m x := by
  have hlen : bs.length ≤ x - a := by omega
  simp [write, hlen]

theorem write_within (m : Nat → β) (hi : i < bs.length) : write m a bs (a + i) = bs[i] := by
  simp [write, hi]

@[simp] theorem read_write (m : Nat → β) : read (write m a bs) a bs.length = bs := by
  apply List.ext_getElem (by simp)
  intro i _ hi
  simpa using write_within m hi

-- ---------------------------------------------------------------------------
-- Copying
-- ---------------------------------------------------------------------------

theorem copy_outside (m : Nat → β) (hx : x < dst ∨ dst + n ≤ x) : copy m dst src n x = m x := by
  induction n generalizing m dst src with
  | zero => rfl
  | succ n ih =>
    have hne : x ≠ dst := by omega
    rw [copy, ih _ (by omega), Function.update_of_ne hne]

theorem copy_down (m : Nat → β) (hle : dst ≤ src) (hi : i < n) :
    copy m dst src n (dst + i) = m (src + i) := by
  induction n generalizing m dst src i with
  | zero => exact absurd hi (Nat.not_lt_zero i)
  | succ n ih =>
    cases i with
    | zero =>
      simp only [Nat.add_zero]
      rw [copy, copy_outside _ (by omega), Function.update_self]
    | succ i =>
      have hne : src + 1 + i ≠ dst := by omega
      have hstep := ih (Function.update m dst (m src)) (Nat.succ_le_succ hle)
        (Nat.lt_of_succ_lt_succ hi)
      rw [Function.update_of_ne hne] at hstep
      rw [copy, show dst + (i + 1) = dst + 1 + i by omega, hstep]
      congr 1
      omega

/-- Upwards, every cell gets what its source holds in the end, which need not
be what it held at first. -/
theorem copy_up (m : Nat → β) (hle : src ≤ dst) (hi : i < n) :
    copy m dst src n (dst + i) = copy m dst src n (src + i) := by
  induction n generalizing m dst src i with
  | zero => exact absurd hi (Nat.not_lt_zero i)
  | succ n ih =>
    cases i with
    | zero =>
      rcases Nat.eq_or_lt_of_le hle with rfl | hlt
      · rfl
      · have hne : src ≠ dst := Nat.ne_of_lt hlt
        simp only [Nat.add_zero]
        rw [copy, copy_outside _ (by omega), copy_outside _ (by omega), Function.update_self,
          Function.update_of_ne hne]
    | succ i =>
      have hstep := ih (Function.update m dst (m src)) (Nat.succ_le_succ hle)
        (Nat.lt_of_succ_lt_succ hi)
      rw [copy, show dst + (i + 1) = dst + 1 + i by omega,
        show src + (i + 1) = src + 1 + i by omega]
      exact hstep

end Yasched.Bytes
