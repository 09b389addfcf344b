import Yasched.Procfs

/-!
# `yasched_init` and `yasched_exit`

The four components register a device, a directory, two caches and the hooks,
one after another. A component that fails in the middle undoes nothing of its
own, and `yasched_init` undoes only the components before it.

The answers of the kernel's functions are parameters, and so is the result of
`perform_inception`, which leaves nothing registered when it fails.
-/

namespace Yasched

-- ---------------------------------------------------------------------------
-- What is registered
-- ---------------------------------------------------------------------------

/-- The kernel's tables: device regions and character devices by number, proc
entries by path, slab caches by handle. -/
@[ext]
structure Registered where
  regions : List Nat
  cdevs : List Nat
  proc : Finset Path
  caches : List Nat
  deriving DecidableEq

/-- The tables and the static variables of the module. -/
structure YaModule extends Registered where
  dev : Nat := 0
  rootdir : Option Path := none
  zoneDir : DirEntry := { name := .other "", entry := none, written := false }
  jobCache : Option Nat := none
  threadCache : Option Nat := none
  deriving DecidableEq

/-- `alloc_chrdev_region` gives a result and a number, `kmem_cache_create` a
cache or `NULL`. -/
structure Answers where
  allocChrdevRegion : Int × Nat
  cdevAdd : Int
  mkdirRootFails : Bool
  mkdirZoneFails : Bool
  createJobCache : Option Nat
  createThreadCache : Option Nat
  performInception : Int
  deriving DecidableEq, Repr

-- ---------------------------------------------------------------------------
-- yacdev.c
-- ---------------------------------------------------------------------------

def createCharDevice (a : Answers) (m : YaModule) : Int × YaModule :=
  let (res, dev) := a.allocChrdevRegion
  if res < 0 then (res, m)
  else
    let m := { m with regions := dev :: m.regions, dev }
    if a.cdevAdd < 0 then (a.cdevAdd, m) else (0, { m with cdevs := dev :: m.cdevs })

def destroyCharDevice (m : YaModule) : YaModule :=
  { m with cdevs := m.cdevs.erase m.dev, regions := m.regions.erase m.dev }

-- ---------------------------------------------------------------------------
-- procfs.c
-- ---------------------------------------------------------------------------

def initProcfs (a : Answers) (m : YaModule) : Int × YaModule :=
  let (rootdir, proc) := procCreate a.mkdirRootFails .yasched none m.proc
  (if rootdir = none then -enomem else 0, { m with rootdir, proc })

def finiProcfs (m : YaModule) : YaModule :=
  { m with proc := removeProcEntry .yasched none m.proc }

-- ---------------------------------------------------------------------------
-- sched.c
-- ---------------------------------------------------------------------------

def yaSchedZoneId : Nat := 0

/-- `__init_zone` as far as others see it; it does not look at the result. -/
def initZone (a : Answers) (m : YaModule) : YaModule :=
  let added := addZoneProcfsEntry a.mkdirZoneFails yaSchedZoneId m.rootdir m.zoneDir m.proc
  { m with zoneDir := added.dir, proc := added.proc }

def exitZone (m : YaModule) : YaModule :=
  { m with proc := delZoneProcfsEntry m.zoneDir m.rootdir m.proc }

def initSched (a : Answers) (m : YaModule) : Int × YaModule :=
  let m := initZone a m
  match a.createJobCache with
  | none => (-enomem, m)
  | some cache =>
    let m := { m with caches := cache :: m.caches, jobCache := some cache }
    match a.createThreadCache with
    | none => (-enomem, m)
    | some cache => (0, { m with caches := cache :: m.caches, threadCache := some cache })

def kmemCacheDestroy (cache : Option Nat) (caches : List Nat) : List Nat :=
  match cache with
  | none => caches
  | some cache => caches.erase cache

def exitSched (m : YaModule) : YaModule :=
  let m := exitZone m
  { m with caches := kmemCacheDestroy m.threadCache (kmemCacheDestroy m.jobCache m.caches) }

-- ---------------------------------------------------------------------------
-- main.c
-- ---------------------------------------------------------------------------

/-- `if ((err = component())) goto label`, with what runs from the label on and
what runs otherwise. -/
def orGoto (result : Int × YaModule) (label : YaModule → YaModule)
    (rest : YaModule → Int × YaModule) : Int × YaModule :=
  if result.1 ≠ 0 then (result.1, label result.2) else rest result.2

def yaschedInit (a : Answers) (m : YaModule) : Int × YaModule :=
  orGoto (createCharDevice a m) id fun m =>
  orGoto (initProcfs a m) destroyCharDevice fun m =>
  orGoto (initSched a m) (destroyCharDevice ∘ finiProcfs) fun m =>
  orGoto (a.performInception, m) (destroyCharDevice ∘ finiProcfs ∘ exitSched) fun m => (0, m)

/-- `yasched_exit` behind `remove_inception`. -/
def yaschedExit (m : YaModule) : YaModule := destroyCharDevice (finiProcfs (exitSched m))

def loaded (tables : Registered) : YaModule := { toRegistered := tables }

-- ---------------------------------------------------------------------------
-- All or nothing
-- ---------------------------------------------------------------------------

structure YaModule.Present (m : YaModule) : Prop where
  region : m.dev ∈ m.regions
  device : m.dev ∈ m.cdevs
  rootdir : ∃ path ∈ m.rootdir, path ∈ m.proc
  zoneDir : m.zoneDir.Exists m.proc
  jobCache : ∃ cache ∈ m.jobCache, cache ∈ m.caches
  threadCache : ∃ cache ∈ m.threadCache, cache ∈ m.caches

/-- What a result of `yasched_init` means for tables that were `tables`. -/
structure AllOrNothing (tables : Registered) (result : Int × YaModule) : Prop where
  nothing : result.1 ≠ 0 → result.2.toRegistered = tables
  all : result.1 = 0 → result.2.Present

namespace Answers

def RegionOk (a : Answers) : Prop := 0 ≤ a.allocChrdevRegion.1

def DeviceOk (a : Answers) : Prop := 0 ≤ a.cdevAdd

def RootOk (a : Answers) (tables : Registered) : Prop :=
  a.mkdirRootFails = false ∧ [.yasched] ∉ tables.proc

def ZoneOk (a : Answers) (tables : Registered) : Prop :=
  a.mkdirZoneFails = false ∧ [.yasched, .zone yaSchedZoneId] ∉ tables.proc

/-- Every failure is one that is undone and seen: `cdev_add` does not fail
behind a region, `kmem_cache_create` not behind the directory of the zone nor
behind the other cache, and that directory is there when nothing else fails. -/
def Undone (a : Answers) (tables : Registered) : Prop :=
  a.RegionOk → a.DeviceOk ∧ (a.RootOk tables →
    match a.createJobCache, a.createThreadCache with
    | none, _ => ¬a.ZoneOk tables
    | some _, none => False
    | some _, some _ => a.performInception = 0 → a.ZoneOk tables)

end Answers

-- ---------------------------------------------------------------------------
-- The components
-- ---------------------------------------------------------------------------

variable {a : Answers} {tables : Registered} {m : YaModule}

theorem orGoto_ok : orGoto (0, m) label rest = rest m := rfl

theorem orGoto_err (h : err ≠ 0) : orGoto (err, m) label rest = (err, label m) := if_pos h

theorem createCharDevice_ok (hregion : a.RegionOk) (hdevice : a.DeviceOk) :
    createCharDevice a m = (0, { m with
      dev := a.allocChrdevRegion.2
      regions := a.allocChrdevRegion.2 :: m.regions
      cdevs := a.allocChrdevRegion.2 :: m.cdevs }) := by
  simp [createCharDevice, not_lt.mpr hregion, not_lt.mpr hdevice]

theorem createCharDevice_fails (h : ¬(a.RegionOk ∧ a.DeviceOk)) :
    (createCharDevice a m).1 ≠ 0 ∧
      ((createCharDevice a m).2.toRegistered = m.toRegistered ↔ ¬a.RegionOk) := by
  by_cases hregion : a.RegionOk
  · have hdevice : a.cdevAdd < 0 := not_le.mp fun hd => h ⟨hregion, hd⟩
    simp [createCharDevice, not_lt.mpr hregion, hdevice, hregion, hdevice.ne, Registered.ext_iff]
  · have hneg : a.allocChrdevRegion.1 < 0 := not_le.mp hregion
    simp [createCharDevice, hneg, hregion, hneg.ne]

theorem initProcfs_ok (hfails : a.mkdirRootFails = false) (hnew : [.yasched] ∉ m.proc) :
    initProcfs a m = (0, { m with
      rootdir := some [.yasched]
      proc := insert [.yasched] m.proc }) := by
  simp [initProcfs, procCreate, below, hfails, hnew]

theorem initProcfs_fails (h : ¬(a.mkdirRootFails = false ∧ [.yasched] ∉ m.proc)) :
    initProcfs a m = (-enomem, { m with rootdir := none }) := by
  have hfails : a.mkdirRootFails = true ∨ below none .yasched ∈ m.proc := by
    by_contra hno
    exact h ⟨Bool.eq_false_of_not_eq_true fun hf => hno (.inl hf), fun hm => hno (.inr hm)⟩
  simp [initProcfs, procCreate, hfails]

theorem exitZone_initZone : (exitZone (initZone a m)).proc = m.proc := delEntry_addEntry

-- ---------------------------------------------------------------------------
-- The whole function
-- ---------------------------------------------------------------------------

def started (a : Answers) (tables : Registered) : YaModule where
  regions := a.allocChrdevRegion.2 :: tables.regions
  cdevs := a.allocChrdevRegion.2 :: tables.cdevs
  proc := insert [.yasched] tables.proc
  caches := tables.caches
  dev := a.allocChrdevRegion.2
  rootdir := some [.yasched]

theorem yaschedInit_started (hregion : a.RegionOk) (hdevice : a.DeviceOk)
    (hroot : a.RootOk tables) : yaschedInit a (loaded tables) =
      orGoto (initSched a (started a tables)) (destroyCharDevice ∘ finiProcfs) fun m =>
      orGoto (a.performInception, m) (destroyCharDevice ∘ finiProcfs ∘ exitSched) fun m =>
        (0, m) := by
  unfold yaschedInit
  rw [createCharDevice_ok hregion hdevice, orGoto_ok, initProcfs_ok hroot.1 hroot.2, orGoto_ok]
  rfl

theorem destroy_fini (hdev : m.dev = (started a tables).dev)
    (hregions : m.regions = (started a tables).regions)
    (hcdevs : m.cdevs = (started a tables).cdevs) :
    (destroyCharDevice (finiProcfs m)).toRegistered =
      { tables with proc := m.proc.erase [.yasched], caches := m.caches } := by
  simp [destroyCharDevice, finiProcfs, removeProcEntry, below, hdev, hregions, hcdevs, started]

theorem initZone_added : initZone a (started a tables) =
    let (zoneDir, proc) := addEntry a.mkdirZoneFails (.zone yaSchedZoneId) (some [.yasched])
      (started a tables).proc
    { started a tables with zoneDir, proc } := rfl

theorem zone_created : (procCreate a.mkdirZoneFails (.zone yaSchedZoneId) (some [.yasched])
    (started a tables).proc).1 ≠ none ↔ a.ZoneOk tables := by
  simp [Answers.ZoneOk, procCreate_none, started, below]

theorem zone_exists : (initZone a (started a tables)).zoneDir.Exists
    (initZone a (started a tables)).proc ↔ a.ZoneOk tables := by
  rw [← zone_created, initZone_added]
  exact addEntry_exists

theorem zone_proc (hroot : a.RootOk tables) :
    (initZone a (started a tables)).proc.erase [.yasched] = tables.proc ↔ ¬a.ZoneOk tables := by
  have hproc : (started a tables).proc.erase [.yasched] = tables.proc :=
    Finset.erase_insert hroot.2
  constructor
  · intro herase hzone
    obtain ⟨-, path, hentry, hmem⟩ := zone_exists.mpr hzone
    have hpath : path = [.yasched, .zone yaSchedZoneId] := by
      rw [initZone_added] at hentry
      rcases procCreate_cases a.mkdirZoneFails (.zone yaSchedZoneId) (some [.yasched])
        (started a tables).proc with hc | ⟨-, hc⟩
      · exact absurd (congrArg Prod.fst hc) (zone_created.mpr hzone)
      · simpa [addEntry, hc, below, eq_comm] using hentry
    subst hpath
    exact hzone.2 (herase ▸ Finset.mem_erase.mpr ⟨by decide, hmem⟩)
  · intro hzone
    rw [← zone_created, not_not] at hzone
    exact (congrArg (·.erase [.yasched]) (addEntry_proc.mpr hzone)).trans hproc

theorem label_initSched (hroot : a.RootOk tables) (hdev : m.dev = (started a tables).dev)
    (hregions : m.regions = (started a tables).regions)
    (hcdevs : m.cdevs = (started a tables).cdevs)
    (hproc : m.proc = (initZone a (started a tables)).proc) :
    (destroyCharDevice (finiProcfs m)).toRegistered = tables ↔
      ¬a.ZoneOk tables ∧ m.caches = tables.caches := by
  rw [destroy_fini hdev hregions hcdevs, Registered.ext_iff, ← zone_proc hroot, hproc]
  simp

theorem allOrNothing_err (h : err ≠ 0) :
    AllOrNothing tables (err, m) ↔ m.toRegistered = tables :=
  ⟨fun hr => hr.nothing h, fun hm => ⟨fun _ => hm, fun h0 => absurd h0 h⟩⟩

theorem allOrNothing_ok : AllOrNothing tables (0, m) ↔ m.Present :=
  ⟨fun hr => hr.all rfl, fun hm => ⟨fun h => absurd rfl h, fun _ => hm⟩⟩

theorem enomem_ne_zero : -enomem ≠ 0 := by decide

def complete (a : Answers) (tables : Registered) (jobCache threadCache : Nat) : YaModule :=
  { initZone a (started a tables) with
    caches := threadCache :: jobCache :: tables.caches
    jobCache := some jobCache
    threadCache := some threadCache }

theorem complete_present :
    (complete a tables jobCache threadCache).Present ↔ a.ZoneOk tables := by
  rw [← zone_exists]
  refine ⟨fun h => h.zoneDir, fun hzone => ⟨?_, ?_, ?_, hzone, ?_, ?_⟩⟩
  · exact List.mem_cons_self
  · exact List.mem_cons_self
  · exact ⟨[.yasched], rfl, procCreate_subset (Finset.mem_insert_self _ _)⟩
  · exact ⟨jobCache, rfl, List.mem_cons_of_mem _ List.mem_cons_self⟩
  · exact ⟨threadCache, rfl, List.mem_cons_self⟩

/-- The labels from `inception_err` on undo everything, and so does
`yasched_exit`. -/
theorem yaschedExit_complete (hroot : a.RootOk tables) :
    (yaschedExit (complete a tables jobCache threadCache)).toRegistered = tables := by
  have hproc : (exitSched (complete a tables jobCache threadCache)).proc =
      (started a tables).proc :=
    exitZone_initZone (m := started a tables)
  have hcaches : (exitSched (complete a tables jobCache threadCache)).caches = tables.caches := by
    calc ((threadCache :: jobCache :: tables.caches).erase jobCache).erase threadCache
        = ((threadCache :: jobCache :: tables.caches).erase threadCache).erase jobCache :=
          List.erase_comm ..
      _ = tables.caches := by simp
  rw [yaschedExit, destroy_fini (a := a) (by rfl) (by rfl) (by rfl), hproc, hcaches]
  exact Registered.ext rfl rfl (Finset.erase_insert hroot.2) rfl

theorem started_allOrNothing (hregion : a.RegionOk) (hdevice : a.DeviceOk)
    (hroot : a.RootOk tables) : AllOrNothing tables (yaschedInit a (loaded tables)) ↔
      match a.createJobCache, a.createThreadCache with
      | none, _ => ¬a.ZoneOk tables
      | some _, none => False
      | some _, some _ => a.performInception = 0 → a.ZoneOk tables := by
  rw [yaschedInit_started hregion hdevice hroot]
  unfold initSched
  cases a.createJobCache with
  | none =>
    rw [orGoto_err enomem_ne_zero, allOrNothing_err enomem_ne_zero]
    refine (label_initSched hroot (by rfl) (by rfl) (by rfl) (by rfl)).trans ?_
    exact and_iff_left (by rfl)
  | some jobCache =>
    cases a.createThreadCache with
    | none =>
      dsimp only
      rw [orGoto_err enomem_ne_zero, allOrNothing_err enomem_ne_zero]
      refine (label_initSched hroot (by rfl) (by rfl) (by rfl) (by rfl)).trans ?_
      exact iff_false_intro fun h => List.cons_ne_self jobCache tables.caches h.2
    | some threadCache =>
      dsimp only
      rw [orGoto_ok]
      by_cases hperform : a.performInception = 0
      · rw [hperform, orGoto_ok, allOrNothing_ok]
        refine complete_present.trans ?_
        simp
      · rw [orGoto_err hperform, allOrNothing_err hperform]
        exact iff_of_true (yaschedExit_complete hroot) fun h => absurd h hperform

/-- `yasched_init` is all or nothing exactly where nothing fails that nobody
undoes. -/
theorem all_or_nothing_iff (a : Answers) (tables : Registered) :
    AllOrNothing tables (yaschedInit a (loaded tables)) ↔ a.Undone tables := by
  by_cases hdevice : a.RegionOk ∧ a.DeviceOk
  · by_cases hroot : a.RootOk tables
    · rw [started_allOrNothing hdevice.1 hdevice.2 hroot]
      simp only [Answers.Undone, hdevice, hroot, true_and, true_implies]
    · unfold yaschedInit
      rw [createCharDevice_ok hdevice.1 hdevice.2, orGoto_ok, initProcfs_fails (by exact hroot),
        orGoto_err enomem_ne_zero, allOrNothing_err enomem_ne_zero]
      simp [Answers.Undone, hdevice, hroot, destroyCharDevice, loaded]
  · obtain ⟨herr, htables⟩ := createCharDevice_fails (m := loaded tables) hdevice
    unfold yaschedInit
    rw [orGoto_err herr, allOrNothing_err herr]
    refine htables.trans ⟨fun hregion h => absurd h hregion, fun h hregion => ?_⟩
    exact hdevice ⟨hregion, (h hregion).1⟩

theorem yaschedInit_zero (h : yaschedInit a (loaded tables) = (0, m)) :
    a.RootOk tables ∧ ∃ jobCache threadCache, m = complete a tables jobCache threadCache := by
  have hret : (yaschedInit a (loaded tables)).1 = 0 := congrArg Prod.fst h
  by_cases hdevice : a.RegionOk ∧ a.DeviceOk
  · by_cases hroot : a.RootOk tables
    · refine ⟨hroot, ?_⟩
      rw [yaschedInit_started hdevice.1 hdevice.2 hroot] at h hret
      unfold initSched at h hret
      cases hjob : a.createJobCache with
      | none =>
        simp only [hjob] at hret
        rw [orGoto_err enomem_ne_zero] at hret
        exact absurd hret enomem_ne_zero
      | some jobCache =>
        cases hthread : a.createThreadCache with
        | none =>
          simp only [hjob, hthread] at hret
          rw [orGoto_err enomem_ne_zero] at hret
          exact absurd hret enomem_ne_zero
        | some threadCache =>
          simp only [hjob, hthread] at h hret
          rw [orGoto_ok] at h hret
          have hperform : a.performInception = 0 := by
            by_contra hne
            rw [orGoto_err hne] at hret
            exact hne hret
          rw [hperform, orGoto_ok] at h
          exact ⟨jobCache, threadCache, (congrArg Prod.snd h).symm⟩
    · unfold yaschedInit at hret
      rw [createCharDevice_ok hdevice.1 hdevice.2, orGoto_ok, initProcfs_fails (by exact hroot),
        orGoto_err enomem_ne_zero] at hret
      exact absurd hret enomem_ne_zero
  · obtain ⟨herr, -⟩ := createCharDevice_fails (m := loaded tables) hdevice
    unfold yaschedInit at hret
    rw [orGoto_err herr] at hret
    exact absurd hret herr

/-- The region that `alloc_chrdev_region` gave stays when `cdev_add` fails. -/
theorem all_or_nothing_fails : ¬ ∀ (a : Answers) (tables : Registered),
    AllOrNothing tables (yaschedInit a (loaded tables)) := by
  intro h
  let a : Answers :=
    { allocChrdevRegion := (0, 250)
      cdevAdd := -enomem
      mkdirRootFails := false
      mkdirZoneFails := false
      createJobCache := some 1
      createThreadCache := some 2
      performInception := 0 }
  have hregions := congrArg Registered.regions
    ((h a { regions := [], cdevs := [], proc := ∅, caches := [] }).nothing (by decide))
  exact absurd hregions (by decide)

end Yasched
