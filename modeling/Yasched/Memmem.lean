import Yasched.Text

/-!
# The search in memory

`memmem` of `lib.c` on machine words: pointers and sizes of 64 bits, whose sums
and differences wrap. Beside its result stand the addresses that were read for
it. The loop runs on `fuel`, which it needs because a pointer that wraps would
never get past the last possible place.

`memcmp` is the kernel's; a `Memcmp` is what is documented of it. `Lib.memmem_found`
says what the search returns, `memmem_lib` that it is the one the installers
are modelled with.
-/

namespace Yasched

-- ---------------------------------------------------------------------------
-- Occurrences in a list
-- ---------------------------------------------------------------------------

section
variable {α : Type u} {hs ns : List α}

def Occurs (ns hs : List α) (i : Nat) : Prop := ns <+: hs.drop i

structure Leftmost (ns hs : List α) (i : Nat) : Prop where
  occurs : Occurs ns hs i
  before : ∀ j < i, ¬ Occurs ns hs j

theorem occurs_iff :
    Occurs ns hs i ↔ ∀ j, j < ns.length → hs[i + j]? = ns[j]? := by
  unfold Occurs
  rw [List.prefix_iff_getElem?]
  simp only [List.getElem?_drop]
  constructor
  · intro h j hj
    rw [h j hj, List.getElem?_eq_getElem hj]
  · intro h j hj
    rw [h j hj, List.getElem?_eq_getElem hj]

theorem Occurs.le (h : Occurs ns hs i) (hne : ns ≠ []) : i + ns.length ≤ hs.length := by
  have hlen := List.IsPrefix.length_le h
  have hpos := List.length_pos_of_ne_nil hne
  rw [List.length_drop] at hlen
  omega

theorem infix_occurs : ns <:+: hs ↔ ∃ i, Occurs ns hs i := by
  constructor
  · rintro ⟨before, behind, rfl⟩
    refine ⟨before.length, behind, ?_⟩
    simp [List.append_assoc]
  · rintro ⟨i, hprefix⟩
    exact hprefix.isInfix.trans (List.drop_suffix i hs).isInfix

theorem absent_of_before (hne : ns ≠ []) (hbefore : ∀ j < i, ¬ Occurs ns hs j)
    (hend : hs.length < i + ns.length) : ¬ ns <:+: hs := by
  intro hinfix
  obtain ⟨j, hoccurs⟩ := infix_occurs.mp hinfix
  have hroom := hoccurs.le hne
  exact hbefore j (by omega) hoccurs

theorem Leftmost.unique (h : Leftmost ns hs i) (h' : Leftmost ns hs j) : i = j := by
  rcases Nat.lt_trichotomy i j with hlt | heq | hlt
  · exact absurd h.occurs (h'.before i hlt)
  · exact heq
  · exact absurd h'.occurs (h.before j hlt)

theorem leftmost_empty : Leftmost ([] : List α) hs i ↔ i = 0 := by
  constructor
  · intro h
    exact h.unique ⟨List.nil_prefix, nofun⟩
  · rintro rfl
    exact ⟨List.nil_prefix, nofun⟩

theorem Leftmost.le (h : Leftmost ns hs i) : i ≤ hs.length := by
  by_cases hne : ns = []
  · subst hne
    rw [leftmost_empty] at h
    omega
  · exact Nat.le_trans (Nat.le_add_right ..) (h.occurs.le hne)

end

namespace Lib

-- ---------------------------------------------------------------------------
-- The code
-- ---------------------------------------------------------------------------

abbrev Ptr := BitVec 64

def Within (a : Ptr) (n : Nat) (x : Ptr) : Prop := ∃ i < n, x = a + .ofNat 64 i

/-- Neither the `n` bytes from `a` on nor the address behind them wrap. -/
def Fits (a : Ptr) (n : Nat) : Prop := a.toNat + n < 0x10000000000000000

instance (a : Ptr) (n : Nat) : Decidable (Fits a n) := inferInstanceAs (Decidable (_ < _))

/-- `memcmp(p, q, n)`: its result, and what it reads. -/
structure Memcmp where
  run : (Ptr → UInt8) → Ptr → Ptr → BitVec 64 → Int × List Ptr
  zero_iff : Fits p n.toNat → Fits q n.toNat →
    ((run mem p q n).1 = 0 ↔ ∀ i < n.toNat, mem (p + .ofNat 64 i) = mem (q + .ofNat 64 i))
  reads : Fits p n.toNat → Fits q n.toNat → x ∈ (run mem p q n).2 →
    Within p n.toNat x ∨ Within q n.toNat x

/-- The loop from `begin` on, when `reads` were read before. -/
def memmemLoop (memcmp : Memcmp) (mem : Ptr → UInt8) (needle : Ptr) (needleLen : BitVec 64)
    (lastPossible : Ptr) :
    (fuel : Nat) → (begin : Ptr) → (reads : List Ptr) → Option (Ptr × List Ptr)
  | 0, _, _ => none
  | fuel + 1, begin, reads =>
    if begin ≤ lastPossible then
      let reads := begin :: needle :: reads
      if mem begin = mem needle then
        let (diff, compared) := memcmp.run mem (begin + 1) (needle + 1) (needleLen - 1)
        let reads := compared ++ reads
        if diff = 0 then some (begin, reads)
        else memmemLoop memcmp mem needle needleLen lastPossible fuel (begin + 1) reads
      else memmemLoop memcmp mem needle needleLen lastPossible fuel (begin + 1) reads
    else some (0, reads)

def memmem (memcmp : Memcmp) (mem : Ptr → UInt8) (fuel : Nat) (haystack : Ptr)
    (haystackLen : BitVec 64) (needle : Ptr) (needleLen : BitVec 64) : Option (Ptr × List Ptr) :=
  let lastPossible := haystack + haystackLen - needleLen
  if needleLen = 0 then some (haystack, [])
  else if haystackLen < needleLen then some (0, [])
  else memmemLoop memcmp mem needle needleLen lastPossible fuel haystack []

/-- The object at `a` is `bytes`. -/
structure Object (mem : Ptr → UInt8) (a : Ptr) (bytes : List UInt8) : Prop where
  fits : Fits a bytes.length
  byte : ∀ i < bytes.length, bytes[i]? = some (mem (a + .ofNat 64 i))

-- ---------------------------------------------------------------------------
-- Addresses
-- ---------------------------------------------------------------------------

theorem Fits.toNat_at (h : Fits a n) (hi : i ≤ n) : (a + .ofNat 64 i).toNat = a.toNat + i := by
  unfold Fits at h
  rw [BitVec.toNat_add, BitVec.toNat_ofNat]
  omega

theorem at_at (a : Ptr) (i j : Nat) :
    a + .ofNat 64 i + .ofNat 64 j = a + .ofNat 64 (i + j) := by
  rw [BitVec.add_assoc, BitVec.ofNat_add]

theorem at_succ (a : Ptr) (i : Nat) : a + .ofNat 64 i + 1 = a + .ofNat 64 (i + 1) := at_at a i 1

theorem succ_at (a : Ptr) (i : Nat) : a + 1 + .ofNat 64 i = a + .ofNat 64 (i + 1) := by
  rw [Nat.add_comm]
  exact at_at a 1 i

theorem at_zero (a : Ptr) : a + .ofNat 64 0 = a := BitVec.add_zero a

theorem Fits.part (h : Fits a n) (hle : i + m ≤ n) : Fits (a + .ofNat 64 i) m := by
  unfold Fits
  rw [h.toNat_at (Nat.le_trans (Nat.le_add_right i m) hle)]
  unfold Fits at h
  omega

theorem Within.part (h : Within (a + .ofNat 64 i) m x) (hle : i + m ≤ n) : Within a n x := by
  obtain ⟨j, hj, rfl⟩ := h
  exact ⟨i + j, by omega, at_at a i j⟩

-- ---------------------------------------------------------------------------
-- One turn
-- ---------------------------------------------------------------------------

section
variable {mem : Ptr → UInt8} {haystack needle : Ptr} {hs ns : List UInt8}

theorem occurs_mem (hh : Object mem haystack hs) (hn : Object mem needle ns)
    (hle : i + ns.length ≤ hs.length) :
    Occurs ns hs i ↔
      ∀ j < ns.length, mem (haystack + .ofNat 64 (i + j)) = mem (needle + .ofNat 64 j) := by
  rw [occurs_iff]
  refine forall₂_congr fun j hj => ?_
  rw [hh.byte (i + j) (by omega), hn.byte j hj, Option.some.injEq]

theorem toNat_rest (hn : Object mem needle ns) (hne : ns ≠ []) :
    (BitVec.ofNat 64 ns.length - 1).toNat + 1 = ns.length := by
  have hpos := List.length_pos_of_ne_nil hne
  have hbound : needle.toNat + ns.length < 0x10000000000000000 := hn.fits
  have hone : (1 : BitVec 64).toNat = 1 := rfl
  rw [BitVec.toNat_sub, BitVec.toNat_ofNat, hone]
  omega

structure Ranges (haystack needle : Ptr) (ns : List UInt8) (i n : Nat) : Prop where
  length : n + 1 = ns.length
  haystack : Fits (haystack + .ofNat 64 i + 1) n
  needle : Fits (needle + 1) n

theorem ranges (hh : Object mem haystack hs) (hn : Object mem needle ns) (hne : ns ≠ [])
    (hle : i + ns.length ≤ hs.length) :
    Ranges haystack needle ns i (BitVec.ofNat 64 ns.length - 1).toNat := by
  have hlen := toNat_rest hn hne
  refine ⟨hlen, ?_, ?_⟩
  · rw [at_succ]
    exact hh.fits.part (by omega)
  · exact Fits.part (i := 1) hn.fits (by omega)

theorem occurs_compare (memcmp : Memcmp) (hh : Object mem haystack hs)
    (hn : Object mem needle ns) (hne : ns ≠ []) (hle : i + ns.length ≤ hs.length) :
    Occurs ns hs i ↔ mem (haystack + .ofNat 64 i) = mem needle ∧
      (memcmp.run mem (haystack + .ofNat 64 i + 1) (needle + 1)
        (.ofNat 64 ns.length - 1)).1 = 0 := by
  have hranges := ranges hh hn hne hle
  rw [occurs_mem hh hn hle]
  generalize BitVec.ofNat 64 ns.length - 1 = count at hranges ⊢
  rw [← hranges.length, Nat.forall_lt_succ_left, memcmp.zero_iff hranges.haystack hranges.needle]
  refine and_congr ?_ (forall₂_congr fun j hj => ?_)
  · rw [Nat.add_zero, at_zero]
  · rw [at_succ, at_at, succ_at, Nat.add_comm j 1, Nat.add_assoc]

theorem compare_reads (memcmp : Memcmp) (hh : Object mem haystack hs)
    (hn : Object mem needle ns) (hne : ns ≠ []) (hle : i + ns.length ≤ hs.length)
    (hx : x ∈ (memcmp.run mem (haystack + .ofNat 64 i + 1) (needle + 1)
      (.ofNat 64 ns.length - 1)).2) :
    Within haystack hs.length x ∨ Within needle ns.length x := by
  have hranges := ranges hh hn hne hle
  have hlen := hranges.length
  refine (memcmp.reads hranges.haystack hranges.needle hx).imp ?_ ?_
  · intro h
    rw [at_succ] at h
    exact h.part (by omega)
  · exact fun h => Within.part (i := 1) h (by omega)

theorem le_lastPossible (hh : Object mem haystack hs) (hle : ns.length ≤ hs.length)
    (hi : i ≤ hs.length) :
    haystack + .ofNat 64 i ≤ haystack + .ofNat 64 hs.length - .ofNat 64 ns.length ↔
      i + ns.length ≤ hs.length := by
  have hbound : haystack.toNat + hs.length < 0x10000000000000000 := hh.fits
  have hend := hh.fits.toNat_at (Nat.le_refl hs.length)
  rw [BitVec.le_def, hh.fits.toNat_at hi, BitVec.toNat_sub, hend, BitVec.toNat_ofNat]
  omega

-- ---------------------------------------------------------------------------
-- The search
-- ---------------------------------------------------------------------------

/-- What `memmem` may read. -/
def Reads (haystack needle : Ptr) (hs ns : List UInt8) (reads : List Ptr) : Prop :=
  ∀ x ∈ reads, Within haystack hs.length x ∨ Within needle ns.length x

def Result (haystack : Ptr) (hs ns : List UInt8) (r : Ptr) : Prop :=
  (∃ i, Leftmost ns hs i ∧ r = haystack + .ofNat 64 i) ∨ (¬ ns <:+: hs ∧ r = 0)

theorem Reads.cons {x : Ptr} (hx : Within haystack hs.length x ∨ Within needle ns.length x)
    (h : Reads haystack needle hs ns reads) : Reads haystack needle hs ns (x :: reads) :=
  List.forall_mem_cons.mpr ⟨hx, h⟩

theorem Reads.append (h : Reads haystack needle hs ns reads)
    (h' : Reads haystack needle hs ns reads') : Reads haystack needle hs ns (reads ++ reads') :=
  List.forall_mem_append.mpr ⟨h, h'⟩

theorem memmemLoop_result (memcmp : Memcmp) (hh : Object mem haystack hs)
    (hn : Object mem needle ns) (hne : ns ≠ []) (hlen : ns.length ≤ hs.length)
    (hi : i + ns.length ≤ hs.length + 1) (hbefore : ∀ j < i, ¬ Occurs ns hs j)
    (hreads : Reads haystack needle hs ns reads) (hfuel : hs.length + 1 < fuel + (i + ns.length)) :
    ∃ r reads', memmemLoop memcmp mem needle (.ofNat 64 ns.length)
        (haystack + .ofNat 64 hs.length - .ofNat 64 ns.length) fuel (haystack + .ofNat 64 i) reads =
      some (r, reads') ∧ Result haystack hs ns r ∧ Reads haystack needle hs ns reads' := by
  have hpos := List.length_pos_of_ne_nil hne
  induction fuel generalizing i reads with
  | zero => omega
  | succ fuel ih =>
    have hbound := le_lastPossible hh (i := i) hlen (by omega)
    rw [memmemLoop]
    split
    case isFalse hout =>
      rw [hbound, Nat.not_le] at hout
      exact ⟨0, reads, rfl, .inr ⟨absent_of_before hne hbefore hout, rfl⟩, hreads⟩
    case isTrue hin =>
      have hroom := hbound.mp hin
      have hcompare := occurs_compare memcmp hh hn hne hroom
      have hbytes : Reads haystack needle hs ns ((haystack + .ofNat 64 i) :: needle :: reads) :=
        .cons (.inl ⟨i, by omega, rfl⟩) (.cons (.inr ⟨0, hpos, (at_zero needle).symm⟩) hreads)
      have hnext (hmiss : ¬ Occurs ns hs i) : ∀ j < i + 1, ¬ Occurs ns hs j :=
        Nat.forall_lt_succ_right.mpr ⟨hbefore, hmiss⟩
      have hall := Reads.append (fun x => compare_reads memcmp hh hn hne hroom) hbytes
      dsimp only
      split
      case isFalse hfirst =>
        rw [at_succ]
        exact ih (by omega) (hnext fun h => hfirst (hcompare.mp h).1) hbytes (by omega)
      case isTrue hfirst =>
        split
        case isTrue hrest =>
          exact ⟨_, _, rfl, .inl ⟨i, ⟨hcompare.mpr ⟨hfirst, hrest⟩, hbefore⟩, rfl⟩, hall⟩
        case isFalse hrest =>
          rw [at_succ] at hall ⊢
          exact ih (by omega) (hnext fun h => hrest (hcompare.mp h).2) hall (by omega)

end

/-- For the bytes `hs` of the haystack and `ns` of the needle. -/
structure Found (haystack needle : Ptr) (hs ns : List UInt8) (r : Ptr) (reads : List Ptr) :
    Prop where
  leftmost : ns <:+: hs → ∃ i, Leftmost ns hs i ∧ r = haystack + .ofNat 64 i
  missing : ¬ ns <:+: hs → r = 0
  /-- An object is not at `NULL`. -/
  null : haystack ≠ 0 → (r = 0 ↔ ¬ ns <:+: hs)
  empty : ns = [] → r = haystack
  reads : Reads haystack needle hs ns reads

theorem Result.found (h : Result haystack hs ns r) (hfits : Fits haystack hs.length)
    (hreads : Reads haystack needle hs ns reads) : Found haystack needle hs ns r reads := by
  rcases h with ⟨i, hleftmost, rfl⟩ | ⟨hmissing, rfl⟩
  · have hinfix : ns <:+: hs := infix_occurs.mpr ⟨i, hleftmost.occurs⟩
    refine ⟨fun _ => ⟨i, hleftmost, rfl⟩, fun h => absurd hinfix h, fun hset => ?_, ?_, hreads⟩
    · refine iff_of_false (fun hnull => hset ?_) fun h => h hinfix
      have hat := hfits.toNat_at hleftmost.le
      rw [hnull] at hat
      have hzero : haystack.toNat = 0 := (Nat.add_eq_zero_iff.mp hat.symm).1
      exact BitVec.eq_of_toNat_eq hzero
    · rintro rfl
      rw [leftmost_empty.mp hleftmost, at_zero]
  · refine ⟨fun h => absurd h hmissing, fun _ => rfl, fun _ => iff_of_true rfl hmissing, ?_, hreads⟩
    rintro rfl
    exact absurd List.nil_infix hmissing

theorem memmem_result (memcmp : Memcmp) (hh : Object mem haystack hs) (hn : Object mem needle ns)
    (hfuel : hs.length < fuel) :
    ∃ r reads, memmem memcmp mem fuel haystack (.ofNat 64 hs.length) needle (.ofNat 64 ns.length) =
      some (r, reads) ∧ Result haystack hs ns r ∧ Reads haystack needle hs ns reads := by
  have hbound : haystack.toNat + hs.length < 0x10000000000000000 := hh.fits
  have hbound' : needle.toNat + ns.length < 0x10000000000000000 := hn.fits
  have hzero : BitVec.ofNat 64 ns.length = 0 ↔ ns = [] := by
    rw [← BitVec.toNat_inj, BitVec.toNat_ofNat, ← List.length_eq_zero_iff,
      show (0 : BitVec 64).toNat = 0 from rfl]
    omega
  have hless : BitVec.ofNat 64 hs.length < BitVec.ofNat 64 ns.length ↔ hs.length < ns.length := by
    rw [BitVec.lt_def, BitVec.toNat_ofNat, BitVec.toNat_ofNat]
    omega
  simp only [memmem, hzero, hless]
  have hnone : Reads haystack needle hs ns [] := nofun
  split
  case isTrue hempty =>
    subst hempty
    exact ⟨_, _, rfl, .inl ⟨0, leftmost_empty.mpr rfl, (at_zero haystack).symm⟩, hnone⟩
  case isFalse hne =>
    split
    case isTrue hlt =>
      refine ⟨_, _, rfl, .inr ⟨fun hinfix => ?_, rfl⟩, hnone⟩
      exact absurd hinfix.length_le (Nat.not_le.mpr hlt)
    case isFalse hge =>
      have hpos := List.length_pos_of_ne_nil hne
      have hloop := memmemLoop_result memcmp (i := 0) hh hn hne (Nat.le_of_not_lt hge)
        (by omega) nofun hnone (by omega : hs.length + 1 < fuel + (0 + ns.length))
      rwa [at_zero] at hloop

/-- For every haystack, every needle and all their lengths. -/
theorem memmem_found (memcmp : Memcmp) (mem : Ptr → UInt8) (fuel : Nat) (haystack needle : Ptr)
    (hs ns : List UInt8) (hh : Object mem haystack hs) (hn : Object mem needle ns)
    (hfuel : hs.length < fuel) :
    ∃ r reads, memmem memcmp mem fuel haystack (.ofNat 64 hs.length) needle (.ofNat 64 ns.length) =
      some (r, reads) ∧ Found haystack needle hs ns r reads := by
  obtain ⟨r, reads, hrun, hresult, hreads⟩ := memmem_result memcmp hh hn hfuel
  exact ⟨r, reads, hrun, hresult.found hh.fits hreads⟩

-- ---------------------------------------------------------------------------
-- A `memcmp`
-- ---------------------------------------------------------------------------

def compareBytes (mem : Ptr → UInt8) : (n : Nat) → (p q : Ptr) → Int × List Ptr
  | 0, _, _ => (0, [])
  | n + 1, p, q =>
    if mem p = mem q then
      let (diff, reads) := compareBytes mem n (p + 1) (q + 1)
      (diff, p :: q :: reads)
    else ((mem p).toNat - (mem q).toNat, [p, q])

theorem compareBytes_zero (mem : Ptr → UInt8) (n : Nat) (p q : Ptr) :
    (compareBytes mem n p q).1 = 0 ↔
      ∀ i < n, mem (p + .ofNat 64 i) = mem (q + .ofNat 64 i) := by
  induction n generalizing p q with
  | zero => exact iff_of_true rfl nofun
  | succ n ih =>
    rw [Nat.forall_lt_succ_left, at_zero, at_zero, compareBytes]
    split
    case isTrue hfirst =>
      dsimp only
      rw [ih, and_iff_right hfirst]
      refine forall₂_congr fun i hi => ?_
      rw [succ_at, succ_at]
    case isFalse hfirst =>
      refine iff_of_false (fun hzero => hfirst ?_) fun h => hfirst h.1
      rw [← UInt8.toNat_inj]
      dsimp only at hzero
      omega

theorem compareBytes_reads (hx : x ∈ (compareBytes mem n p q).2) :
    Within p n x ∨ Within q n x := by
  induction n generalizing p q with
  | zero => cases hx
  | succ n ih =>
    have hp : Within p (n + 1) p := ⟨0, Nat.succ_pos n, (at_zero p).symm⟩
    have hq : Within q (n + 1) q := ⟨0, Nat.succ_pos n, (at_zero q).symm⟩
    rw [compareBytes] at hx
    split at hx
    case isTrue =>
      rcases List.mem_cons.mp hx with rfl | hx
      · exact .inl hp
      rcases List.mem_cons.mp hx with rfl | hx
      · exact .inr hq
      · exact (ih hx).imp (Within.part (i := 1) · (by omega)) (Within.part (i := 1) · (by omega))
    case isFalse =>
      rcases List.mem_cons.mp hx with rfl | hx
      · exact .inl hp
      · rw [List.mem_singleton.mp hx]
        exact .inr hq

def bytewise : Memcmp where
  run mem p q n := compareBytes mem n.toNat p q
  zero_iff _ _ := compareBytes_zero ..
  reads _ _ := compareBytes_reads

theorem memmem_found_overlap :
    ∃ r reads, memmem bytewise (fun a => if a = 0x1003 ∨ a = 0x2002 then 0x62 else 0x61) 5 0x1000 4
      0x2000 3 = some (r, reads) ∧
        Found 0x1000 0x2000 [0x61, 0x61, 0x61, 0x62] [0x61, 0x61, 0x62] r reads :=
  memmem_found bytewise _ 5 0x1000 0x2000 [0x61, 0x61, 0x61, 0x62] [0x61, 0x61, 0x62]
    ⟨by decide, by decide⟩ ⟨by decide, by decide⟩ (by decide)

end Lib

-- ---------------------------------------------------------------------------
-- The search of the installers
-- ---------------------------------------------------------------------------

theorem occurs_read (hle : i + ns.length ≤ n) :
    Occurs ns (Bytes.read mem a n) i ↔ Bytes.read mem (a + i) ns.length = ns := by
  rw [occurs_iff]
  constructor
  · intro h
    refine List.ext_getElem? fun j => ?_
    rw [Bytes.getElem?_read]
    split
    case isTrue hj =>
      rw [← h j hj, Bytes.getElem?_read, if_pos (by omega), Nat.add_assoc]
    case isFalse hj => rw [List.getElem?_eq_none (Nat.le_of_not_lt hj)]
  · intro h j hj
    have hat : (Bytes.read mem (a + i) ns.length)[j]? = ns[j]? := by rw [h]
    rw [← hat, Bytes.getElem?_read, Bytes.getElem?_read, if_pos (by omega), if_pos hj,
      Nat.add_assoc]

theorem memmem_leftmost (h : Leftmost ns (Bytes.read mem a n) i) : memmem mem a n ns = a + i := by
  by_cases hne : ns = []
  · subst hne
    rw [leftmost_empty.mp h]
    rfl
  · have hroom := h.occurs.le hne
    rw [Bytes.length_read] at hroom
    refine memmem_at hne (Nat.le_add_right a i) (by omega) ((occurs_read hroom).mp h.occurs) ?_
    intro q hge hlt hread
    obtain ⟨j, rfl⟩ := Nat.exists_eq_add_of_le hge
    exact h.before j (by omega) ((occurs_read (by omega)).mpr hread)

theorem memmem_absent (h : ¬ ns <:+: Bytes.read mem a n) : memmem mem a n ns = 0 := by
  have hne : ns ≠ [] := fun heq => h (heq ▸ List.nil_infix)
  refine memmem_nowhere hne fun q hge hroom hread => ?_
  obtain ⟨i, rfl⟩ := Nat.exists_eq_add_of_le hge
  exact h (infix_occurs.mpr ⟨i, (occurs_read (by omega)).mpr hread⟩)

def words (mem : Nat → UInt8) (a : Lib.Ptr) : UInt8 := mem a.toNat

theorem words_object (mem : Nat → UInt8) (hfits : a + n < 0x10000000000000000) :
    Lib.Object (words mem) (.ofNat 64 a) (Bytes.read mem a n) := by
  have hat : (BitVec.ofNat 64 a).toNat = a := by
    rw [BitVec.toNat_ofNat]
    omega
  have hobject : Lib.Fits (.ofNat 64 a) n := by
    unfold Lib.Fits
    rwa [hat]
  refine ⟨by rwa [Bytes.length_read], fun i hi => ?_⟩
  rw [Bytes.length_read] at hi
  rw [Bytes.getElem?_read, if_pos hi, words, hobject.toNat_at (Nat.le_of_lt hi), hat]

/-- What the installers call `memmem` in this model is what the code's loop
comes to, for a needle anywhere in memory. -/
theorem memmem_lib (memcmp : Lib.Memcmp) (mem : Nat → UInt8)
    (hfits : haystack + n < 0x10000000000000000) (hn : Lib.Object (words mem) needle ns)
    (hfuel : n < fuel) :
    ∃ reads, Lib.memmem memcmp (words mem) fuel (.ofNat 64 haystack) (.ofNat 64 n) needle
      (.ofNat 64 ns.length) = some (.ofNat 64 (memmem mem haystack n ns), reads) := by
  have hh := words_object mem hfits
  have hlen : (Bytes.read mem haystack n).length = n := Bytes.length_read mem
  obtain ⟨r, reads, hrun, hresult, -⟩ := Lib.memmem_result memcmp hh hn (by rwa [hlen])
  rw [hlen] at hrun
  refine ⟨reads, hrun.trans ?_⟩
  rcases hresult with ⟨i, hleftmost, rfl⟩ | ⟨hmissing, rfl⟩
  · rw [memmem_leftmost hleftmost, BitVec.ofNat_add]
  · rw [memmem_absent hmissing]
    rfl

end Yasched
