import Yasched.Inception
import Yasched.Vectors

/-!
# The interrupt descriptor table

`irq_vector_entry` takes the place of the table from the register, which `sidt`
stores into a packed structure, and puts the address of a handler together from
the three parts that a gate has of it. The middle part goes through `int`, where
its upper half makes a negative number.
-/

namespace Yasched.Idt

open Bytes Vectors

-- ---------------------------------------------------------------------------
-- Words in memory
-- ---------------------------------------------------------------------------

def wordAt (mem : Nat → UInt8) (a : Nat) : Nat → Nat
  | 0 => 0
  | w + 1 => (mem a).toNat + 0x100 * wordAt mem (a + 1) w

theorem uint16_wordAt (mem : Nat → UInt8) (a : Nat) : uint16 mem a = wordAt mem a 2 := by
  simp only [uint16, wordAt]
  omega

theorem uint32_wordAt (mem : Nat → UInt8) (a : Nat) : uint32 mem a = wordAt mem a 4 := by
  simp only [uint32, uint16, wordAt, Nat.add_assoc, Nat.reduceAdd]
  omega

theorem uint64_wordAt (mem : Nat → UInt8) (a : Nat) : uint64 mem a = wordAt mem a 8 := by
  simp only [uint64, uint32, uint16, wordAt, Nat.add_assoc, Nat.reduceAdd]
  omega

theorem wordAt_le (h : read mem a w = le w v) : wordAt mem a w = v % 0x100 ^ w := by
  induction w generalizing a v with
  | zero => simp [wordAt, Nat.mod_one]
  | succ w ih =>
    have hparts : read mem a ([UInt8.ofNat v] ++ le w (v / 0x100)).length =
        [UInt8.ofNat v] ++ le w (v / 0x100) := by
      rw [List.length_append, length_le, List.length_singleton, Nat.add_comm]
      exact h
    obtain ⟨hfirst, hrest⟩ := read_append.mp hparts
    rw [length_le, List.length_singleton] at hrest
    have hbyte : mem a = .ofNat v := by simpa [Bytes.read] using hfirst
    calc wordAt mem a (w + 1)
        = v % 0x100 + 0x100 * (v / 0x100 % 0x100 ^ w) := by
          rw [wordAt, ih hrest, hbyte, UInt8.toNat_ofNat']
      _ = v % 0x100 ^ (w + 1) := by rw [Nat.pow_succ', Nat.mod_mul]

theorem read_block {xs : List α} {f : α → List β} {m : Nat → β} (hlen : ∀ x, (f x).length = k)
    (h : read m a (xs.flatMap f).length = xs.flatMap f) (hi : xs[i]? = some x) :
    read m (a + k * i) k = f x := by
  induction xs generalizing a i with
  | nil => simp at hi
  | cons y xs ih =>
    rw [List.flatMap_cons] at h
    obtain ⟨hfirst, hrest⟩ := read_append.mp h
    cases i with
    | zero =>
      cases hi
      simpa [hlen] using hfirst
    | succ i =>
      rw [hlen] at hrest
      have hblock := ih hrest hi
      rwa [Nat.add_assoc, Nat.add_comm k, ← Nat.mul_succ] at hblock

-- ---------------------------------------------------------------------------
-- vector.c
-- ---------------------------------------------------------------------------

/-- `struct idt` -/
structure Gate where
  offsetLow : BitVec 16
  segment : BitVec 16
  ist : BitVec 3
  zero : BitVec 5
  type : BitVec 5
  dpl : BitVec 2
  p : BitVec 1
  offsetMiddle : BitVec 16
  offsetHigh : BitVec 32
  zero1 : BitVec 32
  deriving DecidableEq, Repr

/-- The bit fields, from the lowest bit on. -/
def Gate.fields (g : Gate) : BitVec 16 := g.p ++ g.dpl ++ g.type ++ g.zero ++ g.ist

def Gate.bytes (g : Gate) : List UInt8 :=
  le 2 g.offsetLow.toNat ++ le 2 g.segment.toNat ++ le 2 g.fields.toNat ++
    le 2 g.offsetMiddle.toNat ++ le 4 g.offsetHigh.toNat ++ le 4 g.zero1.toNat

/-- The address that the processor takes from a gate. -/
def Gate.handler (g : Gate) : BitVec 64 := g.offsetHigh ++ g.offsetMiddle ++ g.offsetLow

/-- `struct idtr` -/
structure Idtr where
  limit : BitVec 16
  base : BitVec 64
  deriving DecidableEq, Repr

/-- What `sidt` stores. -/
def Idtr.bytes (reg : Idtr) : List UInt8 := le 2 reg.limit.toNat ++ le 8 reg.base.toNat

def irqVectorEntry (mem : Nat → UInt8) (reg : Idtr) (v : BitVec 32) : BitVec 64 :=
  let idtr := write (fun _ => 0) 0 reg.bytes
  let base : BitVec 64 := .ofNat 64 (uint64 idtr 2)
  let id := (base + (16 * v).signExtend 64).toNat
  let offsetLow : BitVec 16 := .ofNat 16 (uint16 mem id)
  let offsetMiddle : BitVec 16 := .ofNat 16 (uint16 mem (id + 6))
  let offsetHigh : BitVec 32 := .ofNat 32 (uint32 mem (id + 8))
  -- an int up to here, the mask is unsigned
  let low : BitVec 32 := offsetMiddle.setWidth 32 <<< 16 ||| offsetLow.setWidth 32
  offsetHigh.setWidth 64 <<< 32 ||| (low &&& 0x00000000ffffffff#32).setWidth 64

theorem handler_eq (g : Gate) :
    g.offsetHigh.setWidth 64 <<< 32 ||| ((g.offsetMiddle.setWidth 32 <<< 16 |||
      g.offsetLow.setWidth 32) &&& 0xffffffff#32).setWidth 64 = g.handler := by
  refine BitVec.eq_of_getLsbD_eq fun i hi => ?_
  have hones : (0xffffffff#32).getLsbD i = decide (i < 32) := by
    rw [show 0xffffffff#32 = BitVec.allOnes 32 from rfl, BitVec.getLsbD_allOnes]
  simp only [Gate.handler, BitVec.getLsbD_append, BitVec.getLsbD_or, BitVec.getLsbD_shiftLeft,
    BitVec.getLsbD_setWidth, BitVec.getLsbD_and, hones]
  rcases Nat.lt_or_ge i 16 with hlow | hlow
  · have hlt : i < 32 := by omega
    simp [hlow, hlt, hi]
  · rcases Nat.lt_or_ge i 32 with hmiddle | hhigh
    · have hpart : i - 16 < 16 := by omega
      have hwide : i - 16 < 32 := by omega
      have hout : g.offsetLow.getLsbD i = false := BitVec.getLsbD_of_ge _ _ hlow
      simp [Nat.not_lt.mpr hlow, hmiddle, hpart, hwide, hi, hout]
    · have hpart : ¬ i - 16 < 16 := by omega
      have hwide : i - 32 < 64 := by omega
      simp [Nat.not_lt.mpr hlow, Nat.not_lt.mpr hhigh, hi, hpart, hwide, Nat.sub_sub]

theorem length_bytes (g : Gate) : g.bytes.length = 16 := by
  simp only [Gate.bytes, List.length_append, length_le]

theorem wordAt_toNat {x : BitVec n} (hn : n = 8 * w) (h : read mem a w = le w x.toNat) :
    wordAt mem a w = x.toNat := by
  have hlt : x.toNat < 0x100 ^ w := by
    calc x.toNat < 2 ^ n := x.isLt
      _ = 0x100 ^ w := by rw [hn, Nat.pow_mul]
  rw [wordAt_le h, Nat.mod_eq_of_lt hlt]

theorem idtr_base (reg : Idtr) :
    uint64 (write (fun _ => 0) 0 reg.bytes) 2 = reg.base.toNat := by
  have hread : read (write (fun _ => (0 : UInt8)) 0 reg.bytes) 0 reg.bytes.length = reg.bytes :=
    read_write ..
  obtain ⟨-, hbase⟩ := read_append.mp hread
  rw [length_le, length_le] at hbase
  exact (uint64_wordAt ..).trans (wordAt_toNat rfl hbase)

theorem parts (hg : read mem a 16 = Gate.bytes g) :
    uint16 mem a = g.offsetLow.toNat ∧ uint16 mem (a + 6) = g.offsetMiddle.toNat ∧
      uint32 mem (a + 8) = g.offsetHigh.toNat := by
  rw [← length_bytes g, Gate.bytes] at hg
  obtain ⟨hg, -⟩ := read_append.mp hg
  obtain ⟨hg, hhigh⟩ := read_append.mp hg
  obtain ⟨hg, hmiddle⟩ := read_append.mp hg
  obtain ⟨hg, -⟩ := read_append.mp hg
  obtain ⟨hlow, -⟩ := read_append.mp hg
  simp only [List.length_append, length_le, Nat.reduceAdd] at hlow hmiddle hhigh
  refine ⟨?_, ?_, ?_⟩
  · exact (uint16_wordAt ..).trans (wordAt_toNat rfl hlow)
  · exact (uint16_wordAt ..).trans (wordAt_toNat rfl hmiddle)
  · exact (uint32_wordAt ..).trans (wordAt_toNat rfl hhigh)

theorem handler_toNat (g : Gate) : g.handler.toNat =
    g.offsetHigh.toNat * 0x100000000 + (g.offsetMiddle.toNat * 0x10000 + g.offsetLow.toNat) := by
  have hlow : g.offsetLow.toNat < 2 ^ 16 := g.offsetLow.isLt
  have hmiddle : g.offsetMiddle.toNat < 2 ^ 16 := g.offsetMiddle.isLt
  rw [Gate.handler, BitVec.toNat_append, BitVec.toNat_append, ← Nat.shiftLeft_add_eq_or_of_lt hlow,
    ← Nat.shiftLeft_add_eq_or_of_lt hmiddle]
  simp only [Nat.shiftLeft_eq]
  omega

theorem gate_place (base : BitVec 64) (hv : v < 0x100) (hfits : base.toNat + 16 * v < 2 ^ 64) :
    (base + (16 * BitVec.ofNat 32 v).signExtend 64).toNat = base.toNat + 16 * v := by
  have hprod : (16 * BitVec.ofNat 32 v).toNat = 16 * v := by
    have hsixteen : (16 : BitVec 32).toNat = 16 := rfl
    rw [BitVec.toNat_mul, BitVec.toNat_ofNat, hsixteen]
    omega
  have hmsb : (16 * BitVec.ofNat 32 v).msb = false := by
    rw [BitVec.msb_eq_false_iff_two_mul_lt, hprod]
    omega
  rw [BitVec.signExtend_eq_setWidth_of_msb_false hmsb, BitVec.toNat_add, BitVec.toNat_setWidth,
    hprod]
  omega

/-- The table may lie anywhere and hold any gates. `Yasched.irqVectorEntry`, which
the installers use, finds the same handler. -/
theorem irqVectorEntry_handler {reg : Idtr} {gates : List Gate} (hlen : gates.length ≤ 0x100)
    (htable : read mem reg.base.toNat (gates.flatMap Gate.bytes).length =
      gates.flatMap Gate.bytes)
    (hfits : reg.base.toNat + 16 * gates.length ≤ 2 ^ 64) (hv : gates[v]? = some g)
    (henv : env.idtBase = reg.base.toNat) :
    irqVectorEntry mem reg (.ofNat 32 v) = g.handler ∧
      Yasched.irqVectorEntry env mem v = g.handler.toNat := by
  have hlt : v < gates.length := (List.getElem?_eq_some_iff.mp hv).1
  obtain ⟨hlow, hmiddle, hhigh⟩ := parts (read_block length_bytes htable hv)
  constructor
  · have hplace := gate_place reg.base (show v < 0x100 by omega) (by omega)
    rw [← handler_eq]
    simp only [irqVectorEntry, idtr_base, BitVec.ofNat_toNat, BitVec.setWidth_eq, hplace, hlow,
      hmiddle, hhigh]
  · simp only [Yasched.irqVectorEntry, henv, hlow, hmiddle, hhigh, handler_toNat]

def pageFault : Gate :=
  { offsetLow := 0xa6a0, segment := 0x10, ist := 0, zero := 0, type := 14, dpl := 0, p := 1
    offsetMiddle := 0x8167, offsetHigh := 0xffffffff, zero1 := 0 }

def faults : List Gate := List.replicate 15 pageFault

/-- The sign of the middle part does not reach the upper half. -/
theorem irqVectorEntry_handler_pageFault :
    irqVectorEntry (write (fun _ => 0) 0xff578000 (faults.flatMap Gate.bytes))
        ⟨0xef, 0xff578000⟩ (.ofNat 32 14) = pageFault.handler ∧
      Yasched.irqVectorEntry { sampleEnv with idtBase := 0xff578000 }
        (write (fun _ => 0) 0xff578000 (faults.flatMap Gate.bytes)) 14 =
          pageFault.handler.toNat :=
  irqVectorEntry_handler  (by decide) (read_write ..) (by decide) rfl rfl

end Yasched.Idt
