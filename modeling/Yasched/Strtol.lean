import Yasched.Strings

/-!
# strtol with base 0

The base follows from how the digits begin. `Numeral` says which whole strings
are numerals and of what value; `scanLong` reads the longest one that a string
begins with.
-/

namespace Yasched.Strings

-- ---------------------------------------------------------------------------
-- The numerals
-- ---------------------------------------------------------------------------

/-- Digits with the prefix that tells their base. -/
inductive Magnitude : List UInt8 → Nat → Prop
  | decimal (hfirst : IsDigit 10 c = true) (hzero : c ≠ 0x30)
      (hdigits : ∀ d ∈ text, IsDigit 10 d = true) : Magnitude (c :: text) (value 10 (c :: text))
  | octal (hdigits : ∀ d ∈ text, IsDigit 8 d = true) :
      Magnitude (0x30 :: text) (value 8 (0x30 :: text))
  | hex (hx : x = 0x78 ∨ x = 0x58) (hne : text ≠ [])
      (hdigits : ∀ d ∈ text, IsDigit 16 d = true) : Magnitude (0x30 :: x :: text) (value 16 text)

inductive Signed : List UInt8 → Int → Prop
  | bare (h : Magnitude text n) : Signed text n
  | plus (h : Magnitude text n) : Signed (0x2b :: text) n
  | minus (h : Magnitude text n) : Signed (0x2d :: text) (-n)

/-- The whole string, but for blanks at its beginning, is a numeral. -/
def Numeral (text : List UInt8) (v : Int) : Prop :=
  ∃ blanks rest, text = blanks ++ rest ∧ (∀ c ∈ blanks, IsSpace c = true) ∧ Signed rest v

-- ---------------------------------------------------------------------------
-- The scanner
-- ---------------------------------------------------------------------------

def sign : List UInt8 → Int × List UInt8
  | 0x2d :: text => (-1, text)
  | 0x2b :: text => (1, text)
  | text => (1, text)

/-- The base and where its digits begin. `0x` is a prefix only if a digit
follows; else its `0` is a digit and the numeral ends there. -/
def radix : List UInt8 → Nat × List UInt8
  | 0x30 :: x :: c :: text =>
    if (x = 0x78 ∨ x = 0x58) ∧ IsDigit 16 c = true then (16, c :: text)
    else (8, 0x30 :: x :: c :: text)
  | 0x30 :: text => (8, 0x30 :: text)
  | text => (10, text)

/-- The number and what is left behind it; nothing if there are no digits. -/
def scanLong (text : List UInt8) : Option (Int × List UInt8) :=
  let (factor, text) := sign (text.dropWhile IsSpace)
  let (base, text) := radix text
  if numeral base text = [] then none
  else some (factor * value base (numeral base text), text.dropWhile (IsDigit base))

def longMax : Int := 0x7fffffffffffffff
def longMin : Int := -0x8000000000000000

def erange : Int := 34

/-- The result, `*endptr` and `errno` afterwards. -/
def strtol (text : List UInt8) (errno : Int) : Int × List UInt8 × Int :=
  match scanLong text with
  | none => (0, text, errno)
  | some (v, endptr) =>
    if longMax < v then (longMax, endptr, erange)
    else if v < longMin then (longMin, endptr, erange)
    else (v, endptr, errno)

-- ---------------------------------------------------------------------------
-- The scanner reads the numerals
-- ---------------------------------------------------------------------------

theorem Magnitude.first (h : Magnitude text n) : ∃ c rest, text = c :: rest ∧ 0x30 ≤ c := by
  cases h with
  | decimal hfirst _ _ => exact ⟨_, _, rfl, le_of_isDigit hfirst⟩
  | octal _ => exact ⟨_, _, rfl, by decide⟩
  | hex _ _ _ => exact ⟨_, _, rfl, by decide⟩

theorem Signed.first (h : Signed text v) : ∃ c rest, text = c :: rest ∧ 0x21 ≤ c := by
  cases h with
  | bare h =>
    obtain ⟨c, rest, rfl, hc⟩ := h.first
    exact ⟨c, rest, rfl, UInt8.le_trans (by decide) hc⟩
  | plus h => exact ⟨_, _, rfl, by decide⟩
  | minus h => exact ⟨_, _, rfl, by decide⟩

theorem radix_decimal (hzero : c ≠ 0x30) (text : List UInt8) :
    radix (c :: text) = (10, c :: text) := by
  unfold radix
  split
  · rename_i heq
    exact absurd (List.cons.inj heq).1 hzero
  · rename_i heq
    exact absurd (List.cons.inj heq).1 hzero
  · rfl

theorem radix_octal (hdigits : ∀ d ∈ text, IsDigit 8 d = true) :
    radix (0x30 :: text) = (8, 0x30 :: text) := by
  unfold radix
  split
  · rename_i x c rest heq
    obtain ⟨-, rfl⟩ := List.cons.inj heq
    have hx := hdigits x List.mem_cons_self
    refine if_neg fun hhex => ?_
    rcases hhex.1 with rfl | rfl <;> exact absurd hx (by decide)
  · rename_i heq
    rw [(List.cons.inj heq).2]
  · rename_i hne
    exact absurd rfl (hne text)

theorem magnitude_iff : Magnitude text n ↔
    (radix text).2 ≠ [] ∧ (∀ c ∈ (radix text).2, IsDigit (radix text).1 c = true) ∧
      value (radix text).1 (radix text).2 = n := by
  constructor
  · intro h
    cases h with
    | decimal hfirst hzero hdigits =>
      rw [radix_decimal hzero]
      exact ⟨List.cons_ne_nil _ _, List.forall_mem_cons.mpr ⟨hfirst, hdigits⟩, rfl⟩
    | octal hdigits =>
      have hzero : IsDigit 8 0x30 = true := by decide
      rw [radix_octal hdigits]
      exact ⟨List.cons_ne_nil _ _, List.forall_mem_cons.mpr ⟨hzero, hdigits⟩, rfl⟩
    | @hex x text hx hne hdigits =>
      obtain ⟨c, rest, rfl⟩ := List.exists_cons_of_ne_nil hne
      have hradix : radix (0x30 :: x :: c :: rest) = (16, c :: rest) :=
        if_pos ⟨hx, hdigits c List.mem_cons_self⟩
      rw [hradix]
      exact ⟨hne, hdigits, rfl⟩
  · rintro ⟨hne, hdigits, rfl⟩
    revert hne hdigits
    unfold radix
    split
    next x c rest =>
      split
      case isTrue hhex =>
        intro hne hdigits
        exact .hex hhex.1 hne hdigits
      case isFalse =>
        intro _ hdigits
        exact .octal fun d hd => hdigits d (List.mem_cons_of_mem _ hd)
    next rest _ =>
      intro _ hdigits
      exact .octal fun d hd => hdigits d (List.mem_cons_of_mem _ hd)
    next hzero =>
      intro hne hdigits
      obtain ⟨c, rest, rfl⟩ := List.exists_cons_of_ne_nil hne
      refine .decimal (hdigits c List.mem_cons_self) ?_ fun d hd =>
        hdigits d (List.mem_cons_of_mem _ hd)
      rintro rfl
      exact hzero rest rfl

theorem sign_magnitude (h : Magnitude text n) : sign text = (1, text) := by
  obtain ⟨c, rest, rfl, hc⟩ := h.first
  unfold sign
  split
  · rename_i heq
    obtain ⟨rfl, -⟩ := List.cons.inj heq
    exact absurd hc (by decide)
  · rename_i heq
    obtain ⟨rfl, -⟩ := List.cons.inj heq
    exact absurd hc (by decide)
  · rfl

theorem signed_iff : Signed text v ↔
    ∃ n : Nat, Magnitude (sign text).2 n ∧ v = (sign text).1 * n := by
  constructor
  · intro h
    cases h with
    | @bare _ n h =>
      rw [sign_magnitude h]
      exact ⟨n, h, (Int.one_mul _).symm⟩
    | @plus _ n h => exact ⟨n, h, (Int.one_mul _).symm⟩
    | @minus _ n h => exact ⟨n, h, (Int.neg_one_mul _).symm⟩
  · rintro ⟨n, h, rfl⟩
    revert h
    unfold sign
    split
    · intro h
      rw [Int.neg_one_mul]
      exact .minus h
    · intro h
      rw [Int.one_mul]
      exact .plus h
    · intro h
      rw [Int.one_mul]
      exact .bare h

theorem numeral_iff : Numeral text v ↔ Signed (text.dropWhile IsSpace) v := by
  constructor
  · rintro ⟨blanks, rest, rfl, hblanks, h⟩
    obtain ⟨c, rest, rfl, hc⟩ := h.first
    rw [List.dropWhile_append_of_pos hblanks, List.dropWhile_cons, not_isSpace hc]
    exact h
  · intro h
    exact ⟨_, _, List.takeWhile_append_dropWhile.symm, fun c hc => List.mem_takeWhile_imp hc, h⟩

/-- The scanner reads a string to its end where it is a numeral, and only
there. -/
theorem scanLong_eq_some : scanLong text = some (v, []) ↔ Numeral text v := by
  rw [numeral_iff, signed_iff]
  unfold scanLong
  generalize sign (text.dropWhile IsSpace) = signed
  obtain ⟨factor, rest⟩ := signed
  simp only [magnitude_iff]
  generalize radix rest = based
  obtain ⟨base, ds⟩ := based
  dsimp only
  constructor
  · intro h
    split at h
    case isTrue => cases h
    case isFalse hne =>
      obtain ⟨hvalue, hend⟩ := Prod.mk.inj (Option.some.inj h)
      have hdigits : ∀ c ∈ ds, IsDigit base c = true := List.dropWhile_eq_nil_iff.mp hend
      have hall : numeral base ds = ds := List.takeWhile_eq_self_iff.mpr hdigits
      rw [hall] at hne hvalue
      exact ⟨_, ⟨hne, hdigits, rfl⟩, hvalue.symm⟩
  · rintro ⟨n, ⟨hne, hdigits, rfl⟩, rfl⟩
    have hall : numeral base ds = ds := List.takeWhile_eq_self_iff.mpr hdigits
    rw [hall, if_neg hne, List.dropWhile_eq_nil_iff.mpr hdigits]

theorem Numeral.unique (h : Numeral text v) (h' : Numeral text v') : v = v' := by
  have heq := (scanLong_eq_some.mpr h).symm.trans (scanLong_eq_some.mpr h')
  exact (Prod.mk.inj (Option.some.inj heq)).1

/-- `0x` and sixteen digits are a numeral for every number of 64 bits. -/
theorem numeral_hex (hn : n < 16 ^ 16) : Numeral (0x30 :: 0x78 :: digits 16 16 n) n := by
  refine ⟨[], _, rfl, fun c hc => absurd hc List.not_mem_nil, .bare ?_⟩
  have hdigits : ∀ c ∈ digits 16 16 n, IsDigit 16 c = true :=
    isDigit_digits (by decide) (by decide) 16 n
  have hvalue : value 16 (digits 16 16 n) = n := by
    rw [value_digits (by decide) (by decide), Nat.mod_eq_of_lt hn]
  have hne : digits 16 16 n ≠ [] := List.ne_nil_of_length_eq_add_one (length_digits 16 16 n)
  have h : Magnitude (0x30 :: 0x78 :: digits 16 16 n) (value 16 (digits 16 16 n)) :=
    .hex (.inl rfl) hne hdigits
  rwa [hvalue] at h

end Yasched.Strings
