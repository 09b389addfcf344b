import Yasched.DoFork
import Mathlib.Data.List.Forall2

/-!
# What `switch_do_fork` says and what it did

It returns 0 also when a loop ran into its bound and left a pointer null, or
when the symbol was not found; and it takes back what it has done in the order
in which it did it. `truthful_iff` says for which texts it keeps its word all
the same.
-/

namespace Yasched

open Bytes Patch

-- ---------------------------------------------------------------------------
-- Displacements
-- ---------------------------------------------------------------------------

theorem uint32_inj : uint32 m p = uint32 m' p ↔ read m p 4 = read m' p 4 := by
  have hbytes : read m p 4 = read m' p 4 ↔
      m p = m' p ∧ m (p + 1) = m' (p + 1) ∧ m (p + 2) = m' (p + 2) ∧ m (p + 3) = m' (p + 3) := by
    simp [Bytes.read, List.range_succ]
  rw [hbytes]
  constructor
  · intro h
    have h₀ := (m p).toNat_lt
    have h₁ := (m (p + 1)).toNat_lt
    have h₂ := (m (p + 2)).toNat_lt
    have h₃ := (m (p + 3)).toNat_lt
    have h₀' := (m' p).toNat_lt
    have h₁' := (m' (p + 1)).toNat_lt
    have h₂' := (m' (p + 2)).toNat_lt
    have h₃' := (m' (p + 3)).toNat_lt
    rw [uint32_eq, uint32_eq] at h
    simp only [← UInt8.toNat_inj]
    omega
  · rintro ⟨h₀, h₁, h₂, h₃⟩
    rw [uint32_eq, uint32_eq, h₀, h₁, h₂, h₃]

theorem toNat_ofInt (x : Int) : (UInt8.ofInt x).toNat = (x % 0x100).toNat := by
  simp [UInt8.ofInt, UInt8.toNat_ofNat']
  omega

theorem uint32_le32 (h : read m p 4 = le32 x) : (uint32 m p : Int) = x % 0x100000000 := by
  have hbytes : m p = .ofInt x ∧ m (p + 1) = .ofInt (x / 0x100) ∧
      m (p + 2) = .ofInt (x / 0x10000) ∧ m (p + 3) = .ofInt (x / 0x1000000) := by
    simpa [Bytes.read, List.range_succ, le32] using h
  obtain ⟨h₀, h₁, h₂, h₃⟩ := hbytes
  rw [uint32_eq, h₀, h₁, h₂, h₃, toNat_ofInt, toNat_ofInt, toNat_ofInt, toNat_ofInt]
  omega

theorem read_le32 : read m p 4 = le32 x ↔ (uint32 m p : Int) = x % 0x100000000 := by
  constructor
  · exact uint32_le32
  · intro h
    have hword : read (write m p (le32 x)) p 4 = le32 x := read_write m
    have hsame : uint32 m p = uint32 (write m p (le32 x)) p := by
      have hwritten := uint32_le32 hword
      omega
    rw [← hword, uint32_inj.mp hsame]

/-- A displacement of 32 bits gets from behind `p` to `a`. -/
def InReach (a p : Nat) : Prop :=
  ∃ d : Int, -0x80000000 ≤ d ∧ d < 0x80000000 ∧ (p + 4 + d) % 0x10000000000000000 = a

theorem int32_spec (m : Nat → UInt8) (p : Nat) :
    -0x80000000 ≤ int32 m p ∧ int32 m p < 0x80000000 ∧
      int32 m p % 0x100000000 = uint32 m p := by
  have hlt := uint32_lt m p
  unfold int32
  split <;> omega

theorem calledAddr_agent (hp : 0 < p) :
    calledAddr m (p - 1) = a ↔ InReach a p ∧ read m p 4 = rel32 a p := by
  obtain ⟨hge, hlt, hmod⟩ := int32_spec m p
  rw [rel32, read_le32]
  obtain ⟨c, rfl⟩ : ∃ c, p = c + 1 := ⟨p - 1, by omega⟩
  simp only [Nat.add_sub_cancel, calledAddr]
  generalize int32 m (c + 1) = d at hge hlt hmod
  constructor
  · rintro rfl
    refine ⟨⟨d, hge, hlt, by omega⟩, by omega⟩
  · rintro ⟨⟨d', hge', hlt', htarget⟩, hword⟩
    obtain rfl : d = d' := by omega
    omega

/-- A site that the loop took as it found `word` there is one in `m` too if
`m` holds the word and its target is where the kernel's code is. -/
theorem calledAddr_orig (hp : 0 < p) (hfound : doForkAddr m' p = a) :
    calledAddr m (p - 1) = a ↔ High (calledAddr m (p - 1)) ∧ read m p 4 = read m' p 4 := by
  obtain ⟨hge, hlt, hmod⟩ := int32_spec m p
  have hword := uint32_lt m' p
  rw [← uint32_inj, ← hfound, doForkAddr_eq, High]
  obtain ⟨c, rfl⟩ : ∃ c, p = c + 1 := ⟨p - 1, by omega⟩
  simp only [Nat.add_sub_cancel, calledAddr]
  generalize int32 m (c + 1) = d at hge hlt hmod
  generalize uint32 m' (c + 1) = u' at hword
  generalize uint32 m (c + 1) = u at hmod
  constructor
  · intro h
    constructor <;> omega
  · rintro ⟨hhigh, rfl⟩
    omega

-- ---------------------------------------------------------------------------
-- What the three searches find
-- ---------------------------------------------------------------------------

/-- Each search looks at what the ones before it have left; the first that
fails is the last. -/
def doForkSites (agent origDoFork : Nat) (mem : Nat → UInt8) : List Nat → List Search
  | [] => []
  | sys :: rest =>
    match doForkSite mem origDoFork sys with
    | .notFound => [.notFound]
    | .found p =>
      .found p :: doForkSites agent origDoFork (write mem p (rel32 agent p)) rest
    | .exhausted => .exhausted :: doForkSites agent origDoFork mem rest

def Search.place? : Search → Option Nat
  | .found p => some p
  | .notFound | .exhausted => none

def redirect (agent p : Nat) : Patch UInt8 := { point := p, word := rel32 agent p }

def places (agent origDoFork : Nat) (mem : Nat → UInt8) (syss : List Nat) : List Nat :=
  (doForkSites agent origDoFork mem syss).filterMap Search.place?

theorem doForkPatches_places (h : 0 ∉ syss) :
    doForkPatches agent a mem syss = (places agent a mem syss).map (redirect agent) := by
  induction syss generalizing mem with
  | nil => rfl
  | cons sys rest ih =>
    have hsys : sys ≠ 0 := fun heq => h (heq ▸ List.mem_cons_self)
    have hrest : 0 ∉ rest := fun hmem => h (List.mem_cons_of_mem _ hmem)
    rw [doForkPatches, searchDoFork_eq hsys, places, doForkSites]
    cases doForkSite mem a sys with
    | notFound => rfl
    | found p =>
      rw [List.filterMap_cons_some (by rfl), List.map_cons]
      exact congrArg (redirect agent p :: ·) (ih hrest)
    | exhausted =>
      rw [List.filterMap_cons_none (by rfl)]
      exact ih hrest

theorem switchDoForkOf_ret (h : 0 ∉ pairs.map (·.2)) :
    (switchDoForkOf agent pairs k).1 =
      if .notFound ∈ doForkSites agent k.origDoFork k.mem (pairs.map (·.2)) then -enosys
      else 0 := by
  induction pairs generalizing k with
  | nil => rfl
  | cons pair pairs ih =>
    obtain ⟨pt, sys⟩ := pair
    have hsys : sys ≠ 0 := fun heq => h (heq ▸ List.mem_cons_self)
    have hrest : 0 ∉ pairs.map (·.2) := fun hmem => h (List.mem_cons_of_mem _ hmem)
    simp only [switchDoForkOf, searchDoFork_eq hsys, List.map_cons, doForkSites]
    cases doForkSite k.mem k.origDoFork sys with
    | notFound => simp
    | found p =>
      have hmem : (k.switch pt p (rel32 agent p)).mem = write k.mem p (rel32 agent p) := by
        simp [Kernel.switch, Kernel.xchg, exchange]
      have horig : (k.switch pt p (rel32 agent p)).origDoFork = k.origDoFork := rfl
      simp only [ih hrest, hmem, horig, List.mem_cons, reduceCtorEq, false_or]
    | exhausted => simp only [ih hrest, List.mem_cons, reduceCtorEq, false_or]

theorem restoreAll_orig (k : Kernel) : (k.restoreAll pts).origDoFork = k.origDoFork := by
  induction pts generalizing k with
  | nil => rfl
  | cons pt pts ih =>
    have hone : (k.restore pt).origDoFork = k.origDoFork := by
      unfold Kernel.restore
      split <;> rfl
    exact (ih (k.restore pt)).trans hone

theorem switchDoForkOf_orig :
    (switchDoForkOf agent pairs k).2.origDoFork = k.origDoFork := by
  induction pairs generalizing k with
  | nil => rfl
  | cons pair pairs ih =>
    simp only [switchDoForkOf]
    split
    · exact restoreAll_orig k
    · exact ih
    · exact ih

theorem places_within (hfail : .notFound ∉ doForkSites agent a mem syss) :
    .exhausted ∈ doForkSites agent a mem syss ∨
      List.Forall₂ (fun p sys => sys < p ∧ p ≤ sys + 128) (places agent a mem syss) syss := by
  induction syss generalizing mem with
  | nil => exact .inr .nil
  | cons sys rest ih =>
    simp only [places, doForkSites] at hfail ⊢
    cases hsite : doForkSite mem a sys with
    | notFound => simp [hsite] at hfail
    | exhausted => exact .inl List.mem_cons_self
    | found p =>
      simp only [hsite, List.mem_cons, reduceCtorEq, false_or] at hfail
      obtain ⟨i, hi, rfl, -⟩ := siteIn_site hsite
      rcases ih hfail with hbound | hwithin
      · exact .inl (List.mem_cons_of_mem _ hbound)
      · exact .inr (.cons ⟨by omega, by omega⟩ hwithin)

theorem length_doForkSites : (doForkSites agent a mem syss).length ≤ syss.length := by
  induction syss generalizing mem with
  | nil => exact Nat.le_refl _
  | cons sys rest ih =>
    rw [doForkSites]
    split
    · exact Nat.succ_le_succ (Nat.zero_le _)
    · exact Nat.succ_le_succ ih
    · exact Nat.succ_le_succ ih

theorem exhausted_places (hbound : .exhausted ∈ doForkSites agent a mem syss) :
    (places agent a mem syss).length < syss.length :=
  Nat.lt_of_lt_of_le
    (List.length_filterMap_lt_length_iff_exists.mpr ⟨.exhausted, hbound, rfl⟩) length_doForkSites

theorem saved_seen (h : 0 ∉ syss) :
    ∀ q ∈ (exchangeAll mem (doForkPatches agent a mem syss)).2,
      0 < q.point ∧ ∃ m, leads m a (q.point - 1) ∧ read m q.point 4 = q.word := by
  induction syss generalizing mem with
  | nil =>
    intro q hq
    cases hq
  | cons sys rest ih =>
    have hsys : sys ≠ 0 := fun heq => h (heq ▸ List.mem_cons_self)
    have hrest : 0 ∉ rest := fun hmem => h (List.mem_cons_of_mem _ hmem)
    rw [doForkPatches, searchDoFork_eq hsys]
    cases hsite : doForkSite mem a sys with
    | notFound =>
      intro q hq
      cases hq
    | exhausted => exact ih hrest
    | found p =>
      obtain ⟨i, -, rfl, -, hleads⟩ := siteIn_site hsite
      intro q hq
      rcases List.mem_cons.mp hq with rfl | hq
      · exact ⟨Nat.succ_pos _, mem, hleads, rfl⟩
      · exact ih hrest q hq

-- ---------------------------------------------------------------------------
-- The words kept
-- ---------------------------------------------------------------------------

/-- What the module holds when it has set the addresses of the three entry
stubs and nothing else. -/
def entryStubs (env : Env) (mem : Nat → UInt8) (clone fork vfork : Nat) : Kernel :=
  { load env mem with stubClone := clone, stubFork := fork, stubVfork := vfork }

/-- The site in front of `p`, in the first 128 bytes of `sys`, led to
`_do_fork` and leads to the agent. -/
structure Redirected (mem mem' : Nat → UInt8) (origDoFork agent p sys : Nat) : Prop where
  within : sys < p ∧ p ≤ sys + 128
  before : Site mem origDoFork (p - 1)
  after : Site mem' agent (p - 1)

def doForkPlaces (k : Kernel) : List Nat := doForkPoints.map fun pt => (k.points pt).point

structure Truthful (env : Env) (k : Kernel) : Prop where
  redirected : (switchDoFork env k).1 = 0 →
    (switchDoFork env k).2.origDoFork ≠ 0 ∧ (doForkPlaces (switchDoFork env k).2).Nodup ∧
      List.Forall₂ (Redirected k.mem (switchDoFork env k).2.mem
        (switchDoFork env k).2.origDoFork env.doForkAgent)
        (doForkPlaces (switchDoFork env k).2) (sysForkFamily k)
  unchanged : (switchDoFork env k).1 ≠ 0 → (switchDoFork env k).2.mem = k.mem

def Opcode (mem : Nat → UInt8) (c : Nat) : Prop := mem c = 0xe9 ∨ mem c = 0xe8

/-- The opcode in front of `p` is there before and after, its target is where
the kernel's code is, and the agent is in reach. -/
structure Fits (mem mem' : Nat → UInt8) (agent p : Nat) : Prop where
  before : Opcode mem (p - 1)
  after : Opcode mem' (p - 1)
  high : High (calledAddr mem (p - 1))
  reach : InReach agent p

/-- When all searches succeed or run into their bound: none does the latter,
the symbol is known, and the sites do not get in each other's way. -/
structure AllFit (agent origDoFork : Nat) (mem : Nat → UInt8) (syss : List Nat) : Prop where
  bound : .exhausted ∉ doForkSites agent origDoFork mem syss
  known : origDoFork ≠ 0
  nodup : (places agent origDoFork mem syss).Nodup
  harmless : Harmless mem ((places agent origDoFork mem syss).map (redirect agent))
  fits : ∀ p ∈ places agent origDoFork mem syss,
    Fits mem (exchangeAll mem ((places agent origDoFork mem syss).map (redirect agent))).1 agent p

/-- When a search fails: what was exchanged until then comes back in the order
in which it was. -/
def AllReturn (agent origDoFork : Nat) (mem : Nat → UInt8) (syss : List Nat) : Prop :=
  ∀ x, Returns mem ((places agent origDoFork mem syss).map (redirect agent)) x

theorem zero_sysForkFamily (k : Kernel) : 0 ∉ sysForkFamily k := by
  intro h
  obtain ⟨stub, -, hzero⟩ := List.mem_map.mp h
  exact kernelAddr_ne_zero _ hzero

theorem forkPatches_places (env : Env) (k : Kernel) : forkPatches env k =
    (places env.doForkAgent (env.procKallsyms "_do_fork") k.mem (sysForkFamily k)).map
      (redirect env.doForkAgent) := doForkPatches_places (zero_sysForkFamily k)

theorem switchDoFork_ret (env : Env) (k : Kernel) : (switchDoFork env k).1 =
    if .notFound ∈ doForkSites env.doForkAgent (env.procKallsyms "_do_fork") k.mem
      (sysForkFamily k) then -enosys else 0 := by
  rw [switchDoFork, if_neg (zero_sysForkFamily k)]
  exact switchDoForkOf_ret (zero_sysForkFamily k)

theorem switchDoFork_orig (env : Env) (k : Kernel) :
    (switchDoFork env k).2.origDoFork = env.procKallsyms "_do_fork" := by
  rw [switchDoFork, if_neg (zero_sysForkFamily k), switchDoForkOf_orig]

theorem restored_iff (h : Patched doForkPoints log k k') :
    (restoreDoFork k').mem = k.mem ↔ ∀ x, Returns k.mem log x := by
  rw [restoreDoFork, Kernel.restoreAll_mem k' (by decide), h.live, h.mem, funext_iff]
  exact forall_congr' fun x => undo_inOrder_iff k.mem log

theorem doForkPlaces_iff (h : Patched doForkPoints log k k') :
    0 ∉ doForkPlaces k' ↔ log.length = 3 := by
  have hlen : (k'.live doForkPoints).length = log.length := by
    rw [h.live, ← List.length_map (·.point), exchangeAll_points, List.length_map]
  have hset : 0 ∉ doForkPlaces k' ↔
      ∀ q ∈ doForkPoints.map k'.points, decide (q.point ≠ 0) := by
    simp [doForkPlaces]
  rw [← hlen, hset, ← List.length_filter_eq_length_iff]
  rfl

theorem doForkPlaces_eq (h : Patched doForkPoints log k k') (hset : 0 ∉ doForkPlaces k') :
    doForkPlaces k' = log.map (·.point) := by
  have hlive : k'.live doForkPoints = doForkPoints.map k'.points := by
    refine List.filter_eq_self.mpr fun q hq => ?_
    obtain ⟨pt, hpt, rfl⟩ := List.mem_map.mp hq
    rw [decide_eq_true_eq]
    exact fun hzero => hset (List.mem_map.mpr ⟨pt, hpt, hzero⟩)
  rw [← exchangeAll_points k.mem log, ← h.live, hlive, List.map_map]
  rfl

theorem saved_iff (ha : a ≠ 0) (hq : 0 < q.point)
    (hseen : ∃ m', leads m' a (q.point - 1) ∧ read m' q.point 4 = q.word) :
    calledAddr m (q.point - 1) = a ↔ High (calledAddr m (q.point - 1)) ∧ InPlace m q := by
  obtain ⟨m', hleads, hword⟩ := hseen
  have hfound : doForkAddr m' q.point = a := by
    simpa [leads, isDoFork, ha, Nat.sub_add_cancel hq] using hleads
  have hlen : q.word.length = 4 := by rw [← hword, length_read]
  rw [calledAddr_orig hq hfound, InPlace, hlen, hword]

theorem sites_iff (ha : a ≠ 0) (hsyss : 0 ∉ syss)
    (hlog : log = (places agent a mem syss).map (redirect agent)) :
    (∀ p ∈ places agent a mem syss,
      Site mem a (p - 1) ∧ Site (exchangeAll mem log).1 agent (p - 1)) ↔
      Harmless mem log ∧
        ∀ p ∈ places agent a mem syss, Fits mem (exchangeAll mem log).1 agent p := by
  have hseen : ∀ q ∈ (exchangeAll mem (doForkPatches agent a mem syss)).2,
      0 < q.point ∧ ∃ m, leads m a (q.point - 1) ∧ read m q.point 4 = q.word := saved_seen hsyss
  rw [doForkPatches_places hsyss, ← hlog] at hseen
  have hpoints : (exchangeAll mem log).2.map (·.point) = places agent a mem syss := by
    rw [exchangeAll_points, hlog, List.map_map]
    exact List.map_id _
  have hbefore : (∀ p ∈ places agent a mem syss, calledAddr mem (p - 1) = a) ↔
      (∀ p ∈ places agent a mem syss, High (calledAddr mem (p - 1))) ∧
        ∀ q ∈ (exchangeAll mem log).2, InPlace mem q := by
    simp only [← hpoints, List.forall_mem_map, ← forall_and]
    refine forall₂_congr fun q hq => ?_
    exact saved_iff ha (hseen q hq).1 (hseen q hq).2
  have hpos : ∀ p ∈ places agent a mem syss, 0 < p := by
    simp only [← hpoints, List.forall_mem_map]
    exact fun q hq => (hseen q hq).1
  have hafter : (∀ p ∈ places agent a mem syss,
        calledAddr (exchangeAll mem log).1 (p - 1) = agent) ↔
      (∀ p ∈ places agent a mem syss, InReach agent p) ∧
        ∀ q ∈ log, InPlace (exchangeAll mem log).1 q := by
    have hwords : (∀ q ∈ log, InPlace (exchangeAll mem log).1 q) ↔
        ∀ p ∈ places agent a mem syss, read (exchangeAll mem log).1 p 4 = rel32 agent p := by
      rw [hlog, List.forall_mem_map]
      exact Iff.rfl
    rw [hwords, ← forall₂_and]
    exact forall₂_congr fun p hp => calledAddr_agent (hpos p hp)
  rw [harmless_iff]
  constructor
  · intro h
    obtain ⟨hhigh, hfound⟩ := hbefore.mp fun p hp => (h p hp).1.target
    obtain ⟨hreach, hkept⟩ := hafter.mp fun p hp => (h p hp).2.target
    exact ⟨⟨hkept, hfound⟩,
      fun p hp => ⟨(h p hp).1.opcode, (h p hp).2.opcode, hhigh p hp, hreach p hp⟩⟩
  · rintro ⟨⟨hkept, hfound⟩, hfits⟩ p hp
    have htarget := hbefore.mpr ⟨fun p hp => (hfits p hp).high, hfound⟩
    have hagent := hafter.mpr ⟨fun p hp => (hfits p hp).reach, hkept⟩
    exact ⟨⟨(hfits p hp).before, htarget p hp⟩, ⟨(hfits p hp).after, hagent p hp⟩⟩

theorem redirected_all : List.Forall₂ (Redirected m m' a agent) ps syss ↔
    (∀ p ∈ ps, Site m a (p - 1) ∧ Site m' agent (p - 1)) ∧
      List.Forall₂ (fun p sys => sys < p ∧ p ≤ sys + 128) ps syss := by
  rw [← List.forall₂_and_left]
  constructor
  · exact fun h => h.imp fun p sys hr => ⟨⟨hr.before, hr.after⟩, hr.within⟩
  · exact fun h => h.imp fun p sys ⟨⟨hbefore, hafter⟩, hwithin⟩ => ⟨hwithin, hbefore, hafter⟩

theorem within_pos (h : List.Forall₂ (fun p sys => sys < p ∧ p ≤ sys + 128) ps syss) : 0 ∉ ps := by
  induction h with
  | nil => exact List.not_mem_nil
  | cons hwithin _ ih =>
    rintro (_ | ⟨_, hmem⟩)
    · exact absurd hwithin.1 (Nat.not_lt_zero _)
    · exact ih hmem

theorem redirected_iff (h : Patched doForkPoints (forkPatches env k) k k')
    (hfail : .notFound ∉ doForkSites env.doForkAgent (env.procKallsyms "_do_fork") k.mem
      (sysForkFamily k)) :
    (env.procKallsyms "_do_fork" ≠ 0 ∧ (doForkPlaces k').Nodup ∧
      List.Forall₂ (Redirected k.mem k'.mem (env.procKallsyms "_do_fork") env.doForkAgent)
        (doForkPlaces k') (sysForkFamily k)) ↔
      AllFit env.doForkAgent (env.procKallsyms "_do_fork") k.mem (sysForkFamily k) := by
  have hsyss := zero_sysForkFamily k
  have hmem := h.mem
  have hset := doForkPlaces_iff h
  have hplaces := doForkPlaces_eq h
  rw [forkPatches_places] at hmem hset hplaces
  rw [List.length_map] at hset
  have hid : ((places env.doForkAgent (env.procKallsyms "_do_fork") k.mem (sysForkFamily k)).map
      (redirect env.doForkAgent)).map (·.point) =
        places env.doForkAgent (env.procKallsyms "_do_fork") k.mem (sysForkFamily k) := by
    rw [List.map_map]
    exact List.map_id _
  rw [hid] at hplaces
  rw [redirected_all, hmem]
  constructor
  · rintro ⟨ha, hnodup, hsites, hwithin⟩
    have hnonzero := within_pos hwithin
    rw [hplaces hnonzero] at hnodup hsites
    obtain ⟨hharmless, hfits⟩ := (sites_iff ha hsyss rfl).mp hsites
    refine ⟨fun hbound => ?_, ha, hnodup, hharmless, hfits⟩
    have hlt := exhausted_places hbound
    rw [hset.mp hnonzero] at hlt
    exact Nat.lt_irrefl 3 hlt
  · rintro ⟨hbound, ha, hnodup, hharmless, hfits⟩
    have hwithin := (places_within hfail).resolve_left hbound
    have hnonzero := hset.mpr hwithin.length_eq
    rw [hplaces hnonzero]
    exact ⟨ha, hnodup, (sites_iff ha hsyss rfl).mpr ⟨hharmless, hfits⟩, hwithin⟩

/-- For every text, every three stubs and every answer of the symbol lookup:
`switch_do_fork` keeps its word exactly when all that it finds fits, or, where
a search fails, all that it exchanged returns. -/
theorem truthful_iff (env : Env) (mem : Nat → UInt8) (clone fork vfork : Nat) :
    Truthful env (entryStubs env mem clone fork vfork) ↔
      if .notFound ∈ doForkSites env.doForkAgent (env.procKallsyms "_do_fork") mem
          (sysForkFamily (entryStubs env mem clone fork vfork)) then
        AllReturn env.doForkAgent (env.procKallsyms "_do_fork") mem
          (sysForkFamily (entryStubs env mem clone fork vfork))
      else
        AllFit env.doForkAgent (env.procKallsyms "_do_fork") mem
          (sysForkFamily (entryStubs env mem clone fork vfork)) := by
  obtain ⟨k', hpatched, hret⟩ := switchDoFork_patched env (entryStubs env mem clone fork vfork)
    fun _ _ => rfl
  have hcode := switchDoFork_ret env (entryStubs env mem clone fork vfork)
  have horig := switchDoFork_orig env (entryStubs env mem clone fork vfork)
  split
  case isTrue hfail =>
    rw [show (entryStubs env mem clone fork vfork).mem = mem from rfl, if_pos hfail] at hcode
    have heq : switchDoFork env (entryStubs env mem clone fork vfork) =
        (-enosys, restoreDoFork k') := by
      refine hret.resolve_left fun heq => ?_
      rw [heq] at hcode
      cases hcode
    have hreturn := restored_iff hpatched
    rw [forkPatches_places] at hreturn
    constructor
    · intro h
      have hunchanged := h.unchanged (by rw [hcode]; decide)
      rw [heq] at hunchanged
      exact hreturn.mp hunchanged
    · intro h
      refine ⟨fun hzero => ?_, fun _ => ?_⟩
      · rw [hcode] at hzero
        cases hzero
      · rw [heq]
        exact hreturn.mpr h
  case isFalse hfail =>
    rw [show (entryStubs env mem clone fork vfork).mem = mem from rfl, if_neg hfail] at hcode
    have heq : switchDoFork env (entryStubs env mem clone fork vfork) = (0, k') := by
      refine hret.resolve_right fun heq => ?_
      rw [heq] at hcode
      cases hcode
    have hfits := redirected_iff hpatched hfail
    constructor
    · intro h
      have hredirected := h.redirected hcode
      rw [horig, heq] at hredirected
      exact hfits.mp hredirected
    · intro h
      refine ⟨fun _ => ?_, fun hzero => absurd hcode hzero⟩
      rw [horig, heq]
      exact hfits.mpr h

def forkEnv : Env :=
  { sampleEnv with
    procKallsyms := fun symbol => if symbol = "_do_fork" then 0xffffffff81700200 else 0 }

/-- The three stubs are one, and its function starts with a call of something
else: `switch_do_fork` returns 0 and has redirected nothing. -/
theorem truthful_fails :
    ¬ Truthful forkEnv (entryStubs forkEnv
      (write (write (fun _ => 0x90) 0xffffffff81600003 [0xf9, 0xff, 0x0f, 0])
        0xffffffff81700000 [0xe8, 0, 0, 0, 0])
      0xffffffff81600000 0xffffffff81600000 0xffffffff81600000) := by
  intro h
  have hnodup := (h.redirected (by decide +kernel)).2.1
  revert hnodup
  decide +kernel

end Yasched
