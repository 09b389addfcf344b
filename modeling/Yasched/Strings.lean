import Yasched.Bytes
import Mathlib.Data.List.TakeWhile
import Mathlib.Tactic.Ring

/-!
# C strings and numerals

A string is a function from offsets to bytes, read up to its first NUL;
`str` is the one that holds given bytes and nothing behind them. Numerals are
digits with the highest first, in any base up to 36.
-/

namespace Yasched.Strings

-- ---------------------------------------------------------------------------
-- Comparing
-- ---------------------------------------------------------------------------

def str (bytes : List UInt8) (i : Nat) : UInt8 := bytes[i]?.getD 0

/-- The first `n` bytes are compared, but none behind a common NUL. -/
def strncmp (cs ct : Nat → UInt8) : Nat → Int
  | 0 => 0
  | n + 1 =>
    if cs 0 ≠ ct 0 then (if cs 0 < ct 0 then -1 else 1)
    else if cs 0 = 0 then 0
    else strncmp (fun i => cs (i + 1)) (fun i => ct (i + 1)) n

theorem strncmp_eq_zero (cs ct : Nat → UInt8) (n : Nat) :
    strncmp cs ct n = 0 ↔ ∀ i < n, (∀ j < i, cs j ≠ 0) → cs i = ct i := by
  induction n generalizing cs ct with
  | zero => simp [strncmp]
  | succ n ih =>
    rw [strncmp]
    split
    case isTrue hne =>
      refine iff_of_false (by split <;> decide) fun h => ?_
      exact hne (h 0 (Nat.succ_pos n) fun j hj => absurd hj (Nat.not_lt_zero j))
    case isFalse heq =>
      have hfirst : cs 0 = ct 0 := Decidable.not_not.mp heq
      split
      case isTrue hnul =>
        refine iff_of_true rfl fun i _ hbefore => ?_
        rcases Nat.eq_zero_or_pos i with rfl | hi
        · exact hfirst
        · exact absurd hnul (hbefore 0 hi)
      case isFalse hnul =>
        rw [ih]
        constructor
        · intro h i hi hbefore
          cases i with
          | zero => exact hfirst
          | succ i =>
            exact h i (Nat.lt_of_succ_lt_succ hi) fun j hj => hbefore (j + 1) (Nat.succ_lt_succ hj)
        · intro h i hi hbefore
          refine h (i + 1) (Nat.succ_lt_succ hi) fun j hj => ?_
          cases j with
          | zero => exact hnul
          | succ j => exact hbefore j (Nat.lt_of_succ_lt_succ hj)

theorem str_getElem {bytes : List UInt8} (hi : i < bytes.length) : str bytes i = bytes[i] := by
  simp [str, hi]

theorem str_end (bytes : List UInt8) : str bytes bytes.length = 0 := by simp [str]

/-- Compared over the length of the second string, the first has to begin with
it. -/
theorem strncmp_begins {cs : Nat → UInt8} {text sought : List UInt8}
    (hcs : ∀ i ≤ text.length, cs i = str text i) (hsought : 0 ∉ sought) :
    strncmp cs (str sought) sought.length = 0 ↔ sought <+: text := by
  rw [strncmp_eq_zero, List.prefix_iff_getElem]
  constructor
  · intro h
    have hsame (i : Nat) (hi : i < sought.length) : cs i = sought[i] := by
      induction i using Nat.strongRecOn with
      | ind i ih =>
        rw [← str_getElem hi]
        refine h i hi fun j hj hnul => ?_
        have hlt : j < sought.length := Nat.lt_trans hj hi
        have hbyte := ih j hj hlt
        rw [hnul] at hbyte
        exact hsought (hbyte ▸ List.getElem_mem hlt)
    have hlen : sought.length ≤ text.length := by
      refine Nat.le_of_not_lt fun hlt => ?_
      have hend := hsame text.length hlt
      rw [hcs _ (Nat.le_refl _), str_end] at hend
      exact hsought (hend ▸ List.getElem_mem hlt)
    refine ⟨hlen, fun i hi => ?_⟩
    rw [← hsame i hi, hcs i (by omega), str_getElem]
  · rintro ⟨hlen, hsame⟩ i hi -
    rw [hcs i (by omega), str_getElem (Nat.lt_of_lt_of_le hi hlen), str_getElem hi, hsame i hi]

-- ---------------------------------------------------------------------------
-- Numerals
-- ---------------------------------------------------------------------------

/-- `isspace` -/
def IsSpace (c : UInt8) : Bool := c = 0x20 ∨ 0x09 ≤ c ∧ c ≤ 0x0d

/-- A byte as a digit; letters of either case count from 10 on. -/
def digit? (c : UInt8) : Option Nat :=
  if 0x30 ≤ c ∧ c ≤ 0x39 then some (c.toNat - 0x30)
  else if 0x61 ≤ c ∧ c ≤ 0x7a then some (c.toNat - 0x61 + 10)
  else if 0x41 ≤ c ∧ c ≤ 0x5a then some (c.toNat - 0x41 + 10)
  else none

def IsDigit (base : Nat) (c : UInt8) : Bool := (digit? c).any (· < base)

def digitOf (d : Nat) : UInt8 := if d < 10 then .ofNat (0x30 + d) else .ofNat (0x61 + (d - 10))

def numeral (base : Nat) (text : List UInt8) : List UInt8 := text.takeWhile (IsDigit base)

def value (base : Nat) (digits : List UInt8) : Nat :=
  digits.foldl (fun acc c => acc * base + (digit? c).getD 0) 0

/-- The last `n` digits of a number. -/
def digits (base : Nat) : (n v : Nat) → List UInt8
  | 0, _ => []
  | n + 1, v => digits base n (v / base) ++ [digitOf (v % base)]

theorem not_isSpace (hc : 0x21 ≤ c) : IsSpace c = false := by
  refine decide_eq_false ?_
  rintro (rfl | ⟨-, hle⟩)
  · exact absurd hc (by decide)
  · exact absurd (UInt8.le_trans hc hle) (by decide)

theorem le_of_isDigit (hc : IsDigit base c = true) : 0x30 ≤ c := by
  unfold IsDigit digit? at hc
  split at hc
  next h => exact h.1
  split at hc
  next h => exact UInt8.le_trans (by decide) h.1
  split at hc
  next h => exact UInt8.le_trans (by decide) h.1
  next => cases hc

theorem digit?_digitOf (hd : d < 36) : digit? (digitOf d) = some d := by
  have hall : ∀ d : Fin 36, digit? (digitOf d) = some d.val := by decide
  exact hall ⟨d, hd⟩

@[simp] theorem length_digits (base n v : Nat) : (digits base n v).length = n := by
  induction n generalizing v with
  | zero => rfl
  | succ n ih => simp [digits, ih]

section

variable {base : Nat}

theorem digit?_mod (hbase : 0 < base) (hmax : base ≤ 36) (v : Nat) :
    digit? (digitOf (v % base)) = some (v % base) :=
  digit?_digitOf (Nat.lt_of_lt_of_le (Nat.mod_lt v hbase) hmax)

theorem isDigit_digits (hbase : 0 < base) (hmax : base ≤ 36) (n v : Nat) :
    ∀ c ∈ digits base n v, IsDigit base c = true := by
  induction n generalizing v with
  | zero =>
    intro c hc
    cases hc
  | succ n ih =>
    intro c hc
    rcases List.mem_append.mp hc with hc | hc
    · exact ih (v / base) c hc
    · rw [List.mem_singleton.mp hc, IsDigit, digit?_mod hbase hmax]
      exact decide_eq_true (Nat.mod_lt v hbase)

theorem numeral_digits (hbase : 0 < base) (hmax : base ≤ 36) (n v : Nat) :
    numeral base (digits base n v) = digits base n v :=
  List.takeWhile_eq_self_iff.mpr (isDigit_digits hbase hmax n v)

theorem value_digits (hbase : 0 < base) (hmax : base ≤ 36) (n v : Nat) :
    value base (digits base n v) = v % base ^ n := by
  induction n generalizing v with
  | zero => simp [value, digits, Nat.mod_one]
  | succ n ih =>
    have hstep : value base (digits base (n + 1) v) =
        value base (digits base n (v / base)) * base + v % base := by
      simp [value, digits, digit?_mod hbase hmax]
    rw [hstep, ih, Nat.pow_succ', Nat.mod_mul, Nat.mul_comm, Nat.add_comm]

end

end Yasched.Strings
