import Yasched.Jobs
import Mathlib.Data.Finset.Basic

/-!
# The entries of `user/procfs.c`

A directory entry is named by its path from `/proc`. `proc_mkdir` and
`proc_create_data` give `NULL` when they fail, and take a parent `NULL` for
`/proc` itself; `remove_proc_entry` takes the entry out that has the name it is
given, and leaves what is below it.

The three `add_*` functions go by the same steps. `add_job_procfs_entry` has
its last check the other way round.
-/

namespace Yasched

def enomem : Int := 12

inductive EntryName
  | yasched
  | zone (id : Nat)
  | job (id : Nat)
  | thread (pid : Nat)
  | other (name : String)
  deriving DecidableEq, Repr

abbrev Path := List EntryName

def below (parent : Option Path) (name : EntryName) : Path := parent.getD [] ++ [name]

/-- The name and the pointer that an object keeps of its own entry. Until they
are `written` they hold what the allocator left there. -/
structure DirEntry where
  name : EntryName
  entry : Option Path
  written : Bool
  deriving DecidableEq, Repr

def DirEntry.Exists (dir : DirEntry) (proc : Finset Path) : Prop :=
  dir.written = true ∧ ∃ path, dir.entry = some path ∧ path ∈ proc

instance (dir : DirEntry) (proc : Finset Path) : Decidable (dir.Exists proc) :=
  match h : dir.entry with
  | none => .isFalse fun ⟨_, path, hp, _⟩ => nomatch h.symm.trans hp
  | some path => decidable_of_iff (dir.written = true ∧ path ∈ proc) (by simp [DirEntry.Exists, h])

def DirEntry.IsAt (dir : DirEntry) (path : Path) : Prop :=
  dir.written = true ∧ dir.entry = some path

def DirEntry.Contains (dir : DirEntry) (path : Path) : Prop :=
  ∃ parent name, dir.IsAt parent ∧ path = parent ++ [name]

-- ---------------------------------------------------------------------------
-- The kernel's functions
-- ---------------------------------------------------------------------------

/-- `proc_mkdir` and `proc_create_data`; `fails` is for the failures that do
not come from the name. -/
def procCreate (fails : Bool) (name : EntryName) (parent : Option Path) (proc : Finset Path) :
    Option Path × Finset Path :=
  if fails ∨ below parent name ∈ proc then (none, proc)
  else (some (below parent name), insert (below parent name) proc)

def removeProcEntry (name : EntryName) (parent : Option Path) (proc : Finset Path) :
    Finset Path :=
  proc.erase (below parent name)

-- ---------------------------------------------------------------------------
-- The functions of procfs.c
-- ---------------------------------------------------------------------------

structure Added where
  ret : Int
  dir : DirEntry
  proc : Finset Path
  deriving DecidableEq

def Added.made (added : Added) : Option Path :=
  if added.dir.Exists added.proc then added.dir.entry else none

def addEntry (fails : Bool) (name : EntryName) (parent : Option Path) (proc : Finset Path) :
    DirEntry × Finset Path :=
  let (entry, proc) := procCreate fails name parent proc
  ({ name, entry, written := true }, proc)

def addZoneProcfsEntry (fails : Bool) (zoneId : Nat) (rootdir : Option Path) (dir : DirEntry)
    (proc : Finset Path) : Added :=
  if zoneId > 9999999 then { ret := -efault, dir, proc }
  else
    let (dir, proc) := addEntry fails (.zone zoneId) rootdir proc
    { ret := if dir.entry = none then -enomem else 0, dir, proc }

def maxJobId : Nat := 0x800000000000000

def addJobProcfsEntry (fails : Bool) (id : Nat) (zoneDir dir : DirEntry) (proc : Finset Path) :
    Added :=
  if id > maxJobId then { ret := -efault, dir, proc }
  else
    let (dir, proc) := addEntry fails (.job id) zoneDir.entry proc
    { ret := if dir.entry ≠ none then -enomem else 0, dir, proc }

def addThreadProcfsEntry (fails : Bool) (pid : Nat) (jobDir : DirEntry) (proc : Finset Path) :
    Added :=
  let (dir, proc) := addEntry fails (.thread pid) jobDir.entry proc
  { ret := if dir.entry = none then -enomem else 0, dir, proc }

def delEntry (dir : DirEntry) (parent : Option Path) (proc : Finset Path) : Finset Path :=
  if dir.entry ≠ none then removeProcEntry dir.name parent proc else proc

def delZoneProcfsEntry (dir : DirEntry) (rootdir : Option Path) (proc : Finset Path) :
    Finset Path :=
  delEntry dir rootdir proc

def delJobProcfsEntry (dir zoneDir : DirEntry) (proc : Finset Path) : Finset Path :=
  delEntry dir zoneDir.entry proc

def delThreadProcfsEntry (dir jobDir : DirEntry) (proc : Finset Path) : Finset Path :=
  delEntry dir jobDir.entry proc

-- ---------------------------------------------------------------------------
-- What the functions leave
-- ---------------------------------------------------------------------------

theorem procCreate_none : (procCreate fails name parent proc).1 = none ↔
    fails = true ∨ below parent name ∈ proc := by
  unfold procCreate
  split <;> simp [*]

theorem procCreate_cases (fails : Bool) (name : EntryName) (parent : Option Path)
    (proc : Finset Path) :
    procCreate fails name parent proc = (none, proc) ∨
      below parent name ∉ proc ∧ procCreate fails name parent proc =
        (some (below parent name), insert (below parent name) proc) := by
  unfold procCreate
  split
  · exact .inl rfl
  · rename_i h
    exact .inr ⟨fun hm => h (.inr hm), rfl⟩

theorem procCreate_subset : proc ⊆ (procCreate fails name parent proc).2 := by
  rcases procCreate_cases fails name parent proc with h | ⟨-, h⟩ <;> rw [h]
  exact Finset.subset_insert _ _

theorem addEntry_exists : (addEntry fails name parent proc).1.Exists
    (addEntry fails name parent proc).2 ↔ (procCreate fails name parent proc).1 ≠ none := by
  rcases procCreate_cases fails name parent proc with h | ⟨-, h⟩ <;>
    simp [addEntry, DirEntry.Exists, h]

theorem addEntry_proc : (addEntry fails name parent proc).2 = proc ↔
    (procCreate fails name parent proc).1 = none := by
  rcases procCreate_cases fails name parent proc with h | ⟨hnew, h⟩ <;> simp [addEntry, *]

theorem mem_addEntry (h : path ∈ (addEntry fails name parent proc).2) :
    path ∈ proc ∨ (addEntry fails name parent proc).1.IsAt path := by
  rcases procCreate_cases fails name parent proc with hc | ⟨-, hc⟩
  · exact .inl (by simpa [addEntry, hc] using h)
  · rcases Finset.mem_insert.mp (by simpa [addEntry, hc] using h) with rfl | h
    · exact .inr (by simp [addEntry, DirEntry.IsAt, hc])
    · exact .inl h

theorem entry_addEntry (h : (addEntry fails name parent proc).1.entry = some path) :
    path = below parent name := by
  rcases procCreate_cases fails name parent proc with hc | ⟨-, hc⟩ <;> simp_all [addEntry]

theorem mem_delEntry {dir : DirEntry} (h : path ∈ delEntry dir parent proc) :
    path ∈ proc ∧ (dir.entry ≠ none → path ≠ below parent dir.name) := by
  unfold delEntry at h
  split at h
  · obtain ⟨hne, h⟩ := Finset.mem_erase.mp h
    exact ⟨h, fun _ => hne⟩
  · rename_i hnone
    exact ⟨h, fun hsome => absurd hsome hnone⟩

/-- What makes an entry is that nothing fails and the name is free. -/
theorem addEntry_isAt (hfails : fails = false) (hnew : below parent name ∉ proc) :
    (addEntry fails name parent proc).1.IsAt (below parent name) := by
  simp [addEntry, procCreate, DirEntry.IsAt, hfails, hnew]

theorem made_addEntry {ret : Int} :
    Added.made { ret, dir := (addEntry fails name parent proc).1
                 proc := (addEntry fails name parent proc).2 } =
      (procCreate fails name parent proc).1 := by
  rcases procCreate_cases fails name parent proc with h | ⟨-, h⟩ <;>
    simp [Added.made, addEntry, DirEntry.Exists, h]

theorem addZoneProcfsEntry_made (hid : zoneId ≤ 9999999) :
    (addZoneProcfsEntry fails zoneId rootdir dir proc).made =
      (procCreate fails (.zone zoneId) rootdir proc).1 := by
  rw [addZoneProcfsEntry, if_neg (not_lt.mpr hid)]
  exact made_addEntry

theorem addJobProcfsEntry_dir {id : Nat} (hid : id ≤ maxJobId) :
    (addJobProcfsEntry fails id zoneDir dir proc).dir =
      (addEntry fails (.job id) zoneDir.entry proc).1 := by
  rw [addJobProcfsEntry, if_neg (not_lt.mpr hid)]

theorem addJobProcfsEntry_proc {id : Nat} (hid : id ≤ maxJobId) :
    (addJobProcfsEntry fails id zoneDir dir proc).proc =
      (addEntry fails (.job id) zoneDir.entry proc).2 := by
  rw [addJobProcfsEntry, if_neg (not_lt.mpr hid)]

theorem addJobProcfsEntry_made {id : Nat} (hid : id ≤ maxJobId) :
    (addJobProcfsEntry fails id zoneDir dir proc).made =
      (procCreate fails (.job id) zoneDir.entry proc).1 := by
  rw [addJobProcfsEntry, if_neg (not_lt.mpr hid)]
  exact made_addEntry

theorem addThreadProcfsEntry_made :
    (addThreadProcfsEntry fails pid jobDir proc).made =
      (procCreate fails (.thread pid) jobDir.entry proc).1 :=
  made_addEntry

theorem ret_zero_iff {entry : Option Path} :
    (if entry = none then -enomem else (0 : Int)) = 0 ↔ entry ≠ none := by
  cases entry <;> simp [enomem]

theorem addZoneProcfsEntry_ret (hid : zoneId ≤ 9999999) :
    (addZoneProcfsEntry fails zoneId rootdir dir proc).ret = 0 ↔
      (addZoneProcfsEntry fails zoneId rootdir dir proc).made ≠ none := by
  rw [addZoneProcfsEntry_made hid, addZoneProcfsEntry, if_neg (not_lt.mpr hid)]
  exact ret_zero_iff

theorem addThreadProcfsEntry_ret : (addThreadProcfsEntry fails pid jobDir proc).ret = 0 ↔
    (addThreadProcfsEntry fails pid jobDir proc).made ≠ none := by
  rw [addThreadProcfsEntry_made]
  exact ret_zero_iff

/-- A job's directory is made exactly when the call says that it was not. -/
theorem addJobProcfsEntry_ret {id : Nat} (hid : id ≤ maxJobId) :
    (addJobProcfsEntry fails id zoneDir dir proc).ret = 0 ↔
      (addJobProcfsEntry fails id zoneDir dir proc).made = none := by
  rw [addJobProcfsEntry_made hid, addJobProcfsEntry, if_neg (not_lt.mpr hid)]
  show (if (procCreate fails (.job id) zoneDir.entry proc).1 ≠ none then -enomem else 0) = 0 ↔ _
  cases (procCreate fails (.job id) zoneDir.entry proc).1 <;> simp [enomem]

/-- An entry that its object names can be taken out again. -/
theorem delEntry_addEntry : delEntry (addEntry fails name parent proc).1 parent
    (addEntry fails name parent proc).2 = proc := by
  rcases procCreate_cases fails name parent proc with h | ⟨hnew, h⟩
  · simp [addEntry, delEntry, h]
  · simp [addEntry, delEntry, removeProcEntry, h, Finset.erase_insert hnew]

-- ---------------------------------------------------------------------------
-- Owners
-- ---------------------------------------------------------------------------

/-- What may have an entry of its own; jobs and threads by number or address. -/
inductive Owner
  | zone
  | job (a : Nat)
  | thread (b : Nat)
  deriving DecidableEq, Repr

/-- Every path was there before or is that of an entry in `held`. -/
def Owned (proc₀ : Finset Path) (held : Owner → Option DirEntry) (proc : Finset Path) : Prop :=
  ∀ path ∈ proc, path ∈ proc₀ ∨ ∃ owner dir, held owner = some dir ∧ dir.IsAt path

namespace Owned

variable {proc₀ proc : Finset Path} {held : Owner → Option DirEntry} {owner : Owner}

theorem subset (h : Owned proc₀ held proc) (hsub : proc' ⊆ proc) : Owned proc₀ held proc' :=
  fun path hpath => h path (hsub hpath)

theorem add (h : Owned proc₀ held proc) (hnew : held owner = none)
    (hmade : ∀ path ∈ proc', path ∈ proc ∨ dir.IsAt path) :
    Owned proc₀ (Function.update held owner (some dir)) proc' := by
  intro path hpath
  rcases hmade path hpath with hpath | hat
  · refine (h path hpath).imp_right ?_
    rintro ⟨other, old, hold, hat⟩
    have hne : other ≠ owner := by
      rintro rfl
      cases hnew.symm.trans hold
    exact ⟨other, old, (Function.update_of_ne hne ..).trans hold, hat⟩
  · exact .inr ⟨owner, dir, Function.update_self .., hat⟩

theorem del {dir : DirEntry} (h : Owned proc₀ held proc) (howner : held owner = some dir)
    (hat : ∀ path, dir.IsAt path → path = below parent dir.name) :
    Owned proc₀ (Function.update held owner none) (delEntry dir parent proc) := by
  intro path hpath
  obtain ⟨hpath, hgone⟩ := mem_delEntry hpath
  refine (h path hpath).imp_right ?_
  rintro ⟨other, old, hold, hat'⟩
  have hne : other ≠ owner := by
    rintro rfl
    obtain rfl : dir = old := Option.some.inj (howner.symm.trans hold)
    exact hgone (by simp [hat'.2]) (hat path hat')
  exact ⟨other, old, (Function.update_of_ne hne ..).trans hold, hat'⟩

end Owned

/-- An entry is made below `parent`, or none is. -/
structure Makes (parent : Option Path) (dir : DirEntry) (proc proc' : Finset Path) : Prop where
  new : ∀ path ∈ proc', path ∈ proc ∨ dir.IsAt path
  named : ∀ path, dir.IsAt path → path = below parent dir.name

theorem addEntry_makes : Makes parent (addEntry fails name parent proc).1 proc
    (addEntry fails name parent proc).2 :=
  ⟨fun _ => mem_addEntry, fun _ hat => entry_addEntry hat.2⟩

theorem addJobProcfsEntry_makes {id : Nat} {dir : DirEntry} (hdir : dir.written = false) :
    Makes zoneDir.entry (addJobProcfsEntry fails id zoneDir dir proc).dir proc
      (addJobProcfsEntry fails id zoneDir dir proc).proc := by
  unfold addJobProcfsEntry
  split
  · exact ⟨fun _ => .inl, fun _ hat => absurd (hat.1.symm.trans hdir) (by decide)⟩
  · exact addEntry_makes

/-- The owners' entries are below those of the objects above them. -/
structure Placed (proc₀ : Finset Path) (parent : Owner → Option Path)
    (held : Owner → Option DirEntry) (proc : Finset Path) : Prop where
  owned : Owned proc₀ held proc
  named : ∀ owner dir path, held owner = some dir → dir.IsAt path →
    path = below (parent owner) dir.name

namespace Placed

variable {proc₀ proc : Finset Path} {parent parent' : Owner → Option Path}
  {held : Owner → Option DirEntry} {owner : Owner} {dir : DirEntry}

theorem subset (h : Placed proc₀ parent held proc) (hsub : proc' ⊆ proc) :
    Placed proc₀ parent held proc' :=
  ⟨h.owned.subset hsub, h.named⟩

theorem add (h : Placed proc₀ parent held proc) (hnew : held owner = none)
    (hparent : ∀ other old, held other = some old → parent' other = parent other)
    (hmade : Makes (parent' owner) dir proc proc') :
    Placed proc₀ parent' (Function.update held owner (some dir)) proc' := by
  refine ⟨h.owned.add hnew hmade.new, fun other old path hold hat => ?_⟩
  rcases eq_or_ne other owner with rfl | hne
  · rw [Function.update_self] at hold
    cases hold
    exact hmade.named path hat
  · rw [Function.update_of_ne hne] at hold
    rw [hparent other old hold]
    exact h.named other old path hold hat

theorem del (h : Placed proc₀ parent held proc)
    (howner : ∀ old, held owner = some old → old = dir ∧ parent owner = parentDir)
    (hparent : ∀ other old, other ≠ owner → held other = some old → parent' other = parent other) :
    Placed proc₀ parent' (Function.update held owner none) (delEntry dir parentDir proc) := by
  constructor
  · cases hold : held owner with
    | none =>
      rw [Function.update_eq_self_iff.mpr hold.symm]
      exact h.owned.subset fun path hpath => (mem_delEntry hpath).1
    | some old =>
      obtain ⟨rfl, rfl⟩ := howner old hold
      exact h.owned.del hold fun path => h.named owner old path hold
  · intro other old path hold hat
    have hne : other ≠ owner := by
      rintro rfl
      simp at hold
    rw [Function.update_of_ne hne] at hold
    rw [hparent other old hne hold]
    exact h.named other old path hold hat

theorem congr (h : Placed proc₀ parent held proc) (hheld : held' = held)
    (hparent : ∀ other old, held other = some old → parent' other = parent other) :
    Placed proc₀ parent' held' proc := by
  subst hheld
  refine ⟨h.owned, fun other old path hold hat => ?_⟩
  rw [hparent other old hold]
  exact h.named other old path hold hat

end Placed

end Yasched
