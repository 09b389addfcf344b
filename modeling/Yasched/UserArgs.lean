import Yasched.Grammar
import Yasched.Vectors

/-!
# The environment as the caller has it

`new_job` walks the environment in the memory of the caller: a vector of
pointers, of eight bytes each or of four for a 32-bit caller, and a string behind
each. A pointer that cannot be read comes back as an address where nothing can
be read either, and there the walk ends.

`scanUser` is that walk. It is the scan of a list of strings, whatever is in
memory (`scanUser_eq`), and for a caller that has put its environment there it is
the scan of that environment.
-/

namespace Yasched

open Bytes Vectors

/-- `TASK_SIZE_MAX`, which no user address reaches. -/
def taskSizeMax : Nat := 0x7ffffffff000

structure UserMemory extends Memory where
  below : limit ≤ taskSizeMax

/-- `struct user_arg_ptr`, with the two pointers of its union in one. -/
structure UserArgPtr where
  isCompat : Bool
  ptr : Nat
  deriving DecidableEq, Repr

/-- `sizeof` of what the vector is made of. -/
def UserArgPtr.size (argv : UserArgPtr) : Nat := if argv.isCompat then 4 else 8

def errPtr : Nat := 0x10000000000000000 - 14

/-- `get_user` copies the word or fails. -/
def getUserArgPtr (m : UserMemory) (argv : UserArgPtr) (nr : Nat) : Nat :=
  if argv.isCompat then
    match m.word (argv.ptr + 4 * nr) 4 with
    | none => errPtr
    | some compat => compat
  else
    match m.word (argv.ptr + 8 * nr) 8 with
    | none => errPtr
    | some native => native

theorem getUserArgPtr_eq (m : UserMemory) (argv : UserArgPtr) (nr : Nat) :
    getUserArgPtr m argv nr =
      (m.word (argv.ptr + argv.size * nr) argv.size).getD errPtr := by
  unfold getUserArgPtr UserArgPtr.size
  split <;> split <;> simp_all

theorem string_errPtr (m : UserMemory) (n : Nat) : m.string errPtr (n + 1) = .error [] := by
  have hnone : m.byte errPtr = none := m.outside _ (m.below.trans (by decide))
  simp [Memory.string, hnone]

theorem getUserArgPtr_lt {m : UserMemory}
    (h : m.string (getUserArgPtr m argv i) (envMaxLength - 1) = .ok bytes) :
    argv.ptr + argv.size * i < m.limit := by
  rw [getUserArgPtr_eq] at h
  cases hword : m.word (argv.ptr + argv.size * i) argv.size with
  | none =>
    have herr := string_errPtr m (envMaxLength - 2)
    rw [hword] at h
    cases herr.symm.trans h
  | some p =>
    refine Memory.word_lt hword ?_
    unfold UserArgPtr.size
    split <;> decide

theorem UserArgPtr.size_pos (argv : UserArgPtr) : 0 < argv.size := by
  unfold size
  split <;> decide

/-- The loop of `new_job`. The pointers go up to the end of user memory, and a
string past that cannot be copied. The source counts them in an `int`. -/
def scanUser (m : UserMemory) (argv : UserArgPtr) (envbuf : Nat → UInt8) (i : Nat) : Option Zone :=
  if getUserArgPtr m argv i = 0 then none
  else
    match h : m.string (getUserArgPtr m argv i) (envMaxLength - 1) with
    | .error _ => none
    | .ok bytes =>
      let envbuf := strncpyFromUser envbuf bytes
      if read envbuf 0 8 = yaZoneStr ∧ read envbuf 9 8 = zoneIdStr then
        searchZoneByName (read envbuf 17 20)
      else scanUser m argv envbuf (i + 1)
termination_by m.limit - (argv.ptr + argv.size * i)
decreasing_by
  have hlt := getUserArgPtr_lt h
  have hpos := argv.size_pos
  rw [Nat.mul_succ]
  omega

def userStrs (m : UserMemory) (argv : UserArgPtr) (i : Nat) : List UserStr :=
  if getUserArgPtr m argv i = 0 then []
  else
    match h : m.string (getUserArgPtr m argv i) (envMaxLength - 1) with
    | .error copied => [.fault copied]
    | .ok bytes => .str bytes :: userStrs m argv (i + 1)
termination_by m.limit - (argv.ptr + argv.size * i)
decreasing_by
  have hlt := getUserArgPtr_lt h
  have hpos := argv.size_pos
  rw [Nat.mul_succ]
  omega

section
variable {m : UserMemory}

theorem userStrs_null (h : getUserArgPtr m argv i = 0) : userStrs m argv i = [] := by
  rw [userStrs, if_pos h]

theorem userStrs_fault (hnull : getUserArgPtr m argv i ≠ 0)
    (h : m.string (getUserArgPtr m argv i) (envMaxLength - 1) = .error copied) :
    userStrs m argv i = [.fault copied] := by
  rw [userStrs, if_neg hnull]
  split
  · rename_i h'
    cases h.symm.trans h'
    rfl
  · rename_i h'
    cases h.symm.trans h'

theorem userStrs_str (hnull : getUserArgPtr m argv i ≠ 0)
    (h : m.string (getUserArgPtr m argv i) (envMaxLength - 1) = .ok bytes) :
    userStrs m argv i = .str bytes :: userStrs m argv (i + 1) := by
  rw [userStrs, if_neg hnull]
  split
  · rename_i h'
    cases h.symm.trans h'
  · rename_i h'
    cases h.symm.trans h'
    rfl

end

/-- Whatever is in memory, the walk ends, and is the scan of what is there. -/
theorem scanUser_eq (m : UserMemory) (argv : UserArgPtr) (envbuf : Nat → UInt8) (i : Nat) :
    scanUser m argv envbuf i = scan envbuf (userStrs m argv i) := by
  fun_induction scanUser m argv envbuf i with
  | case1 envbuf i hnull => rw [userStrs_null hnull, scan]
  | case2 envbuf i hnull copied hstr => rw [userStrs_fault hnull hstr, scan]
  | case3 envbuf i hnull bytes hstr envbuf' hread =>
    rw [userStrs_str hnull hstr, scan]
    exact (if_pos hread).symm
  | case4 envbuf i hnull bytes hstr envbuf' hread ih =>
    rw [userStrs_str hnull hstr, scan, ih]
    exact (if_neg hread).symm

-- ---------------------------------------------------------------------------
-- An environment that has been put there
-- ---------------------------------------------------------------------------

theorem content_take (bytes : List UInt8) (n : Nat) :
    (content (bytes.take n) ++ [0]).take n = (content bytes ++ [0]).take n := by
  induction bytes generalizing n with
  | nil => rw [List.take_nil]
  | cons b bytes ih =>
    cases n with
    | zero => rfl
    | succ n =>
      have hrest : (content (bytes.take n) ++ [0]).take n = _ := ih n
      by_cases hb : b = 0
      · simp [content, hb]
      · simpa [content, hb] using hrest

theorem strncpyFromUser_take (envbuf : Nat → UInt8) (bytes : List UInt8) :
    strncpyFromUser envbuf (bytes.take (envMaxLength - 1)) = strncpyFromUser envbuf bytes := by
  rw [strncpyFromUser, content_take, strncpyFromUser]

theorem scan_take (envbuf : Nat → UInt8) (envs : List (List UInt8)) :
    scan envbuf (envs.map fun bytes => .str (bytes.take (envMaxLength - 1))) =
      scan envbuf (envs.map .str) := by
  induction envs generalizing envbuf with
  | nil => rfl
  | cons bytes envs ih => simp only [List.map_cons, scan, strncpyFromUser_take, ih]

theorem userStrs_vector {m : UserMemory} {argv : UserArgPtr}
    (h : m.HasVector argv.size (argv.ptr + argv.size * i) envs) (hs : ∀ s ∈ envs, (0 : UInt8) ∉ s) :
    userStrs m argv i = envs.map fun bytes => .str (bytes.take (envMaxLength - 1)) := by
  induction envs generalizing i with
  | nil =>
    refine userStrs_null ?_
    rw [getUserArgPtr_eq, h, Option.getD_some]
  | cons bytes envs ih =>
    obtain ⟨⟨p, hword, hp, hbytes⟩, hrest⟩ := h
    have hptr : getUserArgPtr m argv i = p := by rw [getUserArgPtr_eq, hword, Option.getD_some]
    have hstr : m.string (getUserArgPtr m argv i) (envMaxLength - 1) =
        .ok (bytes.take (envMaxLength - 1)) := by
      rw [hptr]
      exact hbytes.string (hs bytes List.mem_cons_self) _
    rw [userStrs_str (hptr ▸ hp) hstr, List.map_cons]
    rw [Nat.add_assoc, ← Nat.mul_succ] at hrest
    rw [ih hrest fun s hmem => hs s (List.mem_cons_of_mem bytes hmem)]

theorem scanUser_vector {m : UserMemory} {argv : UserArgPtr}
    (h : m.HasVector argv.size argv.ptr envs) (hs : ∀ s ∈ envs, (0 : UInt8) ∉ s) :
    scanUser m argv envbuf 0 = scan envbuf (envs.map .str) := by
  rw [scanUser_eq, userStrs_vector h hs, scan_take]

/-- Wherever a caller has its strings, and with pointers of either width, it is
taken for a job just where the first string that looks like a request, in the
buffer as it is, has a number that is 0 modulo 2^32. -/
theorem scanUser_takesZone (m : UserMemory) (argv : UserArgPtr) (envs : Environ)
    (envbuf : Nat → UInt8) (h : m.HasVector argv.size argv.ptr envs.strs)
    (hs : ∀ s ∈ envs.strs, (0 : UInt8) ∉ s) :
    scanUser m argv envbuf 0 = some .yaSchedZone ↔ TakesZone envbuf envs.strs := by
  rw [scanUser_vector h hs, scan_some_iff]

/-- An environment can be laid out, and a 32-bit caller has to have it within
its reach. -/
theorem hasVector_layout {m : UserMemory} {argv : UserArgPtr} {envs : List (List UInt8)}
    (hm : m.Lies argv.ptr (layout argv.size argv.ptr envs))
    (hcompat : argv.isCompat = true → argv.ptr + (layout 4 argv.ptr envs).length ≤ 0x100000000) :
    m.HasVector argv.size argv.ptr envs := by
  have hne : layout argv.size argv.ptr envs ≠ [] := by
    intro hnil
    have hlen := congrArg List.length hnil
    have hpos : 0 < argv.size * (envs.length + 1) := Nat.mul_pos argv.size_pos (by omega)
    rw [length_layout, List.length_nil] at hlen
    omega
  have hfit : argv.ptr + (layout argv.size argv.ptr envs).length ≤ 0x100 ^ argv.size := by
    cases hwidth : argv.isCompat with
    | true => simpa [UserArgPtr.size, hwidth] using hcompat hwidth
    | false =>
      have hlimit := (hm.le_limit hne).trans m.below
      have hsize : argv.size = 8 := by simp [UserArgPtr.size, hwidth]
      rw [hsize] at hlimit ⊢
      exact hlimit.trans (by decide)
  exact Memory.hasVector_layout hm argv.size_pos.ne' hfit

def callerMemory (a : Nat) (bytes : List UInt8) (h : a + bytes.length ≤ taskSizeMax) : UserMemory :=
  { place a bytes with below := h }

def sampleEnvs : Environ where
  strs := [[0x48, 0x4f, 0x4d, 0x45, 0x3d, 0x2f], zonePrefix ++ [0x30]]
  counted := by decide

theorem scanUser_takesZone_compat : ∃ m : UserMemory,
    scanUser m ⟨true, 0x1000⟩ (fun _ => 0) 0 = some .yaSchedZone := by
  let argv : UserArgPtr := ⟨true, 0x1000⟩
  have hvector : (callerMemory 0x1000 (layout 4 0x1000 sampleEnvs.strs) (by decide)).HasVector
      argv.size argv.ptr sampleEnvs.strs :=
    hasVector_layout (Memory.lies_place _ _) fun _ => by decide
  have hscan : scan (fun _ => 0) (sampleEnvs.strs.map .str) = some .yaSchedZone := by decide
  have htakes := scan_some_iff.mp hscan
  exact ⟨_, (scanUser_takesZone _ argv sampleEnvs _ hvector (by decide)).mpr htakes⟩

end Yasched
