import Mathlib.Algebra.Order.Ring.Nat

/-!
# Vectors of strings in memory

Not all of this memory can be read: an address gives a byte or nothing, and
nothing from a limit on. A word is a number of bytes, the least significant
first. A vector is a row of words that a zero ends, each of them the address of
a string that a NUL ends.

`layout` is a vector with its strings behind it, as bytes. Words may have any
width.
-/

namespace Yasched.Vectors

structure Memory where
  byte : Nat → Option UInt8
  limit : Nat
  outside : ∀ a, limit ≤ a → byte a = none

namespace Memory

variable (m : Memory)

def word (a : Nat) : Nat → Option Nat
  | 0 => some 0
  | w + 1 =>
    match m.byte a, word (a + 1) w with
    | some b, some v => some (b.toNat + 0x100 * v)
    | _, _ => none

/-- At most `n` bytes of the string at an address, without its NUL. An address
that cannot be read ends the copy with what there is. -/
def string (a : Nat) : (n : Nat) → Except (List UInt8) (List UInt8)
  | 0 => .ok []
  | n + 1 =>
    match m.byte a with
    | none => .error []
    | some b =>
      if b = 0 then .ok []
      else
        match string (a + 1) n with
        | .ok bytes => .ok (b :: bytes)
        | .error bytes => .error (b :: bytes)

def Lies (a : Nat) : List UInt8 → Prop
  | [] => True
  | b :: bytes => m.byte a = some b ∧ Lies (a + 1) bytes

def HasVector (w a : Nat) : List (List UInt8) → Prop
  | [] => m.word a w = some 0
  | s :: strs => (∃ p, m.word a w = some p ∧ p ≠ 0 ∧ m.Lies p (s ++ [0])) ∧
    HasVector w (a + w) strs

end Memory

-- ---------------------------------------------------------------------------
-- Layout
-- ---------------------------------------------------------------------------

def le : (w v : Nat) → List UInt8
  | 0, _ => []
  | w + 1, v => UInt8.ofNat v :: le w (v / 0x100)

def addresses (q : Nat) : List (List UInt8) → List Nat
  | [] => []
  | s :: strs => q :: addresses (q + (s.length + 1)) strs

def strings : List (List UInt8) → List UInt8
  | [] => []
  | s :: strs => (s ++ [0]) ++ strings strs

def vector (w : Nat) : List Nat → List UInt8
  | [] => le w 0
  | p :: ps => le w p ++ vector w ps

def layout (w a : Nat) (strs : List (List UInt8)) : List UInt8 :=
  vector w (addresses (a + w * (strs.length + 1)) strs) ++ strings strs

/-- Memory that holds nothing but a block of bytes. -/
def place (a : Nat) (bytes : List UInt8) : Memory where
  byte x := if a ≤ x then bytes[x - a]? else none
  limit := a + bytes.length
  outside x hx := by
    split
    · exact List.getElem?_eq_none (by omega)
    · rfl

-- ---------------------------------------------------------------------------
-- Reading what lies in memory
-- ---------------------------------------------------------------------------

theorem length_le (w v : Nat) : (le w v).length = w := by
  induction w generalizing v with
  | zero => rfl
  | succ w ih => rw [le, List.length_cons, ih]

theorem length_addresses (q : Nat) (strs : List (List UInt8)) :
    (addresses q strs).length = strs.length := by
  induction strs generalizing q with
  | nil => rfl
  | cons s strs ih => rw [addresses, List.length_cons, ih, List.length_cons]

theorem length_vector (w : Nat) (ps : List Nat) : (vector w ps).length = w * (ps.length + 1) := by
  induction ps with
  | nil => simp [vector, length_le]
  | cons p ps ih =>
    rw [vector, List.length_append, length_le, ih, List.length_cons, Nat.mul_succ w (ps.length + 1)]
    omega

theorem length_layout (w a : Nat) (strs : List (List UInt8)) :
    (layout w a strs).length = w * (strs.length + 1) + (strings strs).length := by
  rw [layout, List.length_append, length_vector, length_addresses]

namespace Memory

variable {m : Memory}

theorem Lies.append (h : m.Lies a (xs ++ ys)) : m.Lies a xs ∧ m.Lies (a + xs.length) ys := by
  induction xs generalizing a with
  | nil => exact ⟨trivial, h⟩
  | cons x xs ih =>
    obtain ⟨hx, hrest⟩ := h
    obtain ⟨hxs, hys⟩ := ih hrest
    refine ⟨⟨hx, hxs⟩, ?_⟩
    rwa [List.length_cons, Nat.add_comm xs.length, ← Nat.add_assoc]

theorem Lies.le_limit (h : m.Lies a bytes) (hne : bytes ≠ []) :
    a + bytes.length ≤ m.limit := by
  induction bytes generalizing a with
  | nil => exact absurd rfl hne
  | cons b bytes ih =>
    obtain ⟨hb, hrest⟩ := h
    have hlt : a < m.limit := by
      rcases Nat.lt_or_ge a m.limit with hlt | hge
      · exact hlt
      · cases (m.outside a hge).symm.trans hb
    cases bytes with
    | nil => exact hlt
    | cons c bytes =>
      have hle := ih hrest (by simp)
      rw [List.length_cons]
      omega

theorem lies_of_getElem (h : ∀ i b, bytes[i]? = some b → m.byte (a + i) = some b) :
    m.Lies a bytes := by
  induction bytes generalizing a with
  | nil => trivial
  | cons b bytes ih =>
    refine ⟨h 0 b rfl, ih fun i c hc => ?_⟩
    rw [Nat.add_assoc, Nat.add_comm 1]
    exact h (i + 1) c hc

theorem lies_place (a : Nat) (bytes : List UInt8) : (place a bytes).Lies a bytes := by
  refine lies_of_getElem fun i b hi => ?_
  simpa [place] using hi

theorem Lies.word (h : m.Lies a (le w v)) (hv : v < 0x100 ^ w) : m.word a w = some v := by
  induction w generalizing a v with
  | zero =>
    obtain rfl : v = 0 := by simpa using hv
    rfl
  | succ w ih =>
    obtain ⟨hb, hrest⟩ := h
    have hlt : v / 0x100 < 0x100 ^ w := by
      rw [Nat.div_lt_iff_lt_mul (by decide)]
      exact hv
    have hbyte : (UInt8.ofNat v).toNat = v % 0x100 := UInt8.toNat_ofNat'
    simp only [Memory.word, hb, ih hrest hlt, hbyte]
    exact congrArg some (Nat.mod_add_div v 0x100)

theorem word_lt (h : m.word a w = some v) (hw : w ≠ 0) : a < m.limit := by
  obtain ⟨n, rfl⟩ := Nat.exists_eq_succ_of_ne_zero hw
  rcases Nat.lt_or_ge a m.limit with hlt | hge
  · exact hlt
  · simp [Memory.word, m.outside a hge] at h

theorem Lies.string (h : m.Lies a (s ++ [0])) (hs : (0 : UInt8) ∉ s) (n : Nat) :
    m.string a n = .ok (s.take n) := by
  induction n generalizing a s with
  | zero => rfl
  | succ n ih =>
    cases s with
    | nil => simp [Memory.string, h.1]
    | cons b s =>
      have hb : b ≠ 0 := fun hb => hs (hb ▸ List.mem_cons_self)
      have hrest := ih h.2 fun hmem => hs (List.mem_cons_of_mem b hmem)
      simp [Memory.string, h.1, hb, hrest]

/-- By induction on the strings, with the rest of the vector at `a` and the rest
of the strings at `q`. -/
theorem hasVector_of_lies (hvec : m.Lies a (vector w (addresses q strs)))
    (hstr : m.Lies q (strings strs)) (hq : q ≠ 0) (hfit : q + (strings strs).length ≤ 0x100 ^ w) :
    m.HasVector w a strs := by
  induction strs generalizing a q with
  | nil => exact Lies.word hvec (Nat.pow_pos (by decide))
  | cons s strs ih =>
    obtain ⟨hword, hvec⟩ := Lies.append hvec
    obtain ⟨hs, hstr⟩ := Lies.append hstr
    rw [length_le] at hvec
    simp only [strings, List.length_append, List.length_singleton] at hfit hstr
    refine ⟨⟨q, hword.word (by omega), hq, hs⟩, ?_⟩
    exact ih hvec hstr (by omega) (by omega)

/-- A layout that the words can address is a vector of its strings. -/
theorem hasVector_layout (h : m.Lies a (layout w a strs)) (hw : w ≠ 0)
    (hfit : a + (layout w a strs).length ≤ 0x100 ^ w) : m.HasVector w a strs := by
  obtain ⟨hvec, hstr⟩ := Lies.append h
  rw [length_vector, length_addresses] at hstr
  rw [length_layout, ← Nat.add_assoc] at hfit
  have hpos : a + w * (strs.length + 1) ≠ 0 := by
    have hmul : 0 < w * (strs.length + 1) :=
      Nat.mul_pos (Nat.pos_of_ne_zero hw) (Nat.succ_pos _)
    omega
  exact hasVector_of_lies hvec hstr hpos hfit

end Memory

end Yasched.Vectors
