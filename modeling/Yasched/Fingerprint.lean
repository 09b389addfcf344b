import Yasched.Inception
import Mathlib.Data.Nat.Find

/-!
# Which call a fingerprint finds

Three installers know a call in the code of a handler only by its number: they
look for the byte `0xe8` once or more and take the last place for the call. Two
of them go on looking one byte behind a place they have found, in the
displacement of that very call, and `switch_pgfault_handler` does not look at
what its searches return.

A handler's code is a list of `HandlerInstr` here, so that `calls` are the places that
are meant.
-/

namespace Yasched

open Bytes

-- ---------------------------------------------------------------------------
-- Looking for one byte
-- ---------------------------------------------------------------------------

/-- The first `b` among the `n` bytes from `start` on is at `p`. -/
structure FirstAt (mem : Nat → UInt8) (b : UInt8) (start n p : Nat) : Prop where
  start_le : start ≤ p
  lt : p < start + n
  byte : mem p = b
  before : ∀ q, start ≤ q → q < p → mem q ≠ b

theorem read_byte : read mem p 1 = [b] ↔ mem p = b := by simp [Bytes.read]

theorem memmem_first (h : FirstAt mem b start n p) : memmem mem start n [b] = p := by
  refine memmem_at (List.cons_ne_nil b []) h.start_le h.lt (read_byte.mpr h.byte) ?_
  intro q hstart hq hread
  exact h.before q hstart hq (read_byte.mp hread)

theorem memmem_missing (h : ∀ q, start ≤ q → q < start + n → mem q ≠ b) :
    memmem mem start n [b] = 0 := by
  refine memmem_nowhere (List.cons_ne_nil b []) ?_
  intro q hstart hq hread
  exact h q hstart hq (read_byte.mp hread)

theorem first_of_byte (hstart : start ≤ q) (hq : q < start + n) (hb : mem q = b) :
    ∃ p, FirstAt mem b start n p ∧ p ≤ q := by
  have hex : ∃ p, start ≤ p ∧ mem p = b := ⟨q, hstart, hb⟩
  obtain ⟨hle, hbyte⟩ := Nat.find_spec hex
  have hpq : Nat.find hex ≤ q := Nat.find_min' hex ⟨hstart, hb⟩
  refine ⟨Nat.find hex, ⟨hle, Nat.lt_of_le_of_lt hpq hq, hbyte, ?_⟩, hpq⟩
  intro p hp hlt hp'
  exact Nat.find_min hex hlt ⟨hp, hp'⟩

theorem first_or_missing (mem : Nat → UInt8) (b : UInt8) (start n : Nat) :
    (∃ p, FirstAt mem b start n p) ∨ ∀ q, start ≤ q → q < start + n → mem q ≠ b := by
  by_cases h : ∃ q, start ≤ q ∧ q < start + n ∧ mem q = b
  · obtain ⟨q, hstart, hq, hb⟩ := h
    obtain ⟨p, hp, -⟩ := first_of_byte hstart hq hb
    exact .inl ⟨p, hp⟩
  · exact .inr fun q hstart hq hb => h ⟨q, hstart, hq, hb⟩

theorem FirstAt.ne_zero (h : FirstAt mem b start n p) (hstart : start ≠ 0) : p ≠ 0 := by
  have hle := h.start_le
  omega

-- ---------------------------------------------------------------------------
-- The code of a handler
-- ---------------------------------------------------------------------------

/-- A near call, or any other code in which the byte of its opcode is not found. -/
inductive HandlerInstr
  | call (d₀ d₁ d₂ d₃ : UInt8)
  | run (bytes : { bytes : List UInt8 // 0xe8 ∉ bytes })
  deriving DecidableEq

def HandlerInstr.bytes : HandlerInstr → List UInt8
  | .call d₀ d₁ d₂ d₃ => [0xe8, d₀, d₁, d₂, d₃]
  | .run bytes => bytes.val

def Code (mem : Nat → UInt8) : Nat → List HandlerInstr → Prop
  | _, [] => True
  | p, i :: is => read mem p i.bytes.length = i.bytes ∧ Code mem (p + i.bytes.length) is

def calls : Nat → List HandlerInstr → List Nat
  | _, [] => []
  | p, .call .. :: is => p :: calls (p + 5) is
  | p, .run bytes :: is => calls (p + bytes.val.length) is

instance decidableCode (mem : Nat → UInt8) : (p : Nat) → (is : List HandlerInstr) →
    Decidable (Code mem p is)
  | _, [] => .isTrue trivial
  | p, i :: is =>
    have := decidableCode mem (p + i.bytes.length) is
    inferInstanceAs (Decidable (_ ∧ _))

theorem byte_of_code {bytes : List UInt8} (h : read mem p bytes.length = bytes)
    (hi : i < bytes.length) : mem (p + i) = bytes[i] := by
  have hread : (read mem p bytes.length)[i]? = bytes[i]? := by rw [h]
  simpa [getElem?_read, hi] using hread

theorem calls_cons (hcode : Code mem p is) (hcalls : calls p is = c :: cs) :
    p ≤ c ∧ mem c = 0xe8 ∧ (∀ q, p ≤ q → q < c → mem q ≠ 0xe8) ∧
      ∃ is', Code mem (c + 5) is' ∧ calls (c + 5) is' = cs := by
  induction is generalizing p with
  | nil => cases hcalls
  | cons i is ih =>
    obtain ⟨hread, hcode⟩ := hcode
    cases i with
    | call d₀ d₁ d₂ d₃ =>
      obtain ⟨rfl, rfl⟩ := List.cons.inj hcalls
      have hopcode := byte_of_code hread (i := 0) (by simp [HandlerInstr.bytes])
      refine ⟨Nat.le_refl _, hopcode, ?_, is, hcode, rfl⟩
      intro q hle hlt
      omega
    | run bytes =>
      obtain ⟨bytes, hno⟩ := bytes
      obtain ⟨hle, hbyte, hbefore, hrest⟩ := ih hcode hcalls
      have hlen : p + bytes.length ≤ c := hle
      refine ⟨by omega, hbyte, ?_, hrest⟩
      intro q hle hlt
      rcases Nat.lt_or_ge q (p + bytes.length) with hq | hq
      · obtain ⟨i, rfl⟩ := Nat.exists_eq_add_of_le hle
        have hi : i < bytes.length := by omega
        have hbytes : read mem p bytes.length = bytes := hread
        rw [byte_of_code hbytes hi]
        exact fun heq => hno (heq ▸ List.getElem_mem hi)
      · exact hbefore q hq hlt

/-- The four bytes behind the opcode do not hold it again. -/
def Clear (mem : Nat → UInt8) (c : Nat) : Prop := 0xe8 ∉ read mem (c + 1) 4

instance (mem : Nat → UInt8) (c : Nat) : Decidable (Clear mem c) :=
  inferInstanceAs (Decidable (¬ _))

theorem clear_iff : Clear mem c ↔ ∀ q, c + 1 ≤ q → q < c + 5 → mem q ≠ 0xe8 := by
  simp only [Clear, Bytes.read, List.mem_map, List.mem_range, not_exists, not_and]
  constructor
  · intro h q hle hlt
    obtain ⟨i, rfl⟩ := Nat.exists_eq_add_of_le hle
    exact h i (by omega)
  · intro h i hi
    exact h (c + 1 + i) (by omega) (by omega)

-- ---------------------------------------------------------------------------
-- Where a call goes
-- ---------------------------------------------------------------------------

def calledAddr (mem : Nat → UInt8) (c : Nat) : Nat :=
  (((c : Int) + 5 + int32 mem (c + 1)) % 0x10000000000000000).toNat

/-- In the last 4 GiB, where the kernel's code is. -/
def High (a : Nat) : Prop := 0xffffffff00000000 ≤ a

instance (a : Nat) : Decidable (High a) := inferInstanceAs (Decidable (_ ≤ _))

theorem high_or (hy : y < 0x10000000000000000) :
    0xffffffff00000000 ||| y = 0xffffffff00000000 + y % 0x100000000 := by
  have hdiv : (0xffffffff00000000 ||| y) / 2 ^ 32 = 0xffffffff := by
    rw [Nat.or_div_two_pow]
    have hlt : 0xffffffff00000000 / 2 ^ 32 ||| y / 2 ^ 32 < 2 ^ 32 :=
      Nat.or_lt_two_pow (by decide) (by omega)
    have hge : 0xffffffff00000000 / 2 ^ 32 ≤ 0xffffffff00000000 / 2 ^ 32 ||| y / 2 ^ 32 :=
      Nat.left_le_or
    omega
  have hmod : (0xffffffff00000000 ||| y) % 2 ^ 32 = y % 2 ^ 32 := by
    rw [Nat.or_mod_two_pow]
    simp
  omega

theorem kernelAddr_eq (x : Int) :
    kernelAddr x = 0xffffffff00000000 + (x % 0x100000000).toNat := by
  rw [kernelAddr, high_or (by omega)]
  omega

theorem callTarget_iff (mem : Nat → UInt8) (c : Nat) :
    callTarget mem c = calledAddr mem c ↔ High (calledAddr mem c) := by
  have hword : (int32 mem (c + 1) - uint32 mem (c + 1)) % 0x100000000 = 0 := by
    unfold int32
    split <;> omega
  unfold callTarget calledAddr High
  rw [kernelAddr_eq]
  generalize int32 mem (c + 1) = d at hword ⊢
  generalize uint32 mem (c + 1) = u at hword ⊢
  constructor <;> omega

-- ---------------------------------------------------------------------------
-- The three installers
-- ---------------------------------------------------------------------------

inductive Handler
  | timer
  | pgfault
  | execve
  deriving DecidableEq, Repr

namespace Handler

def entry (h : Handler) (env : Env) (k : Kernel) : Nat :=
  match h with
  | timer => irqVectorEntry env k.mem env.localTimerVector
  | pgfault => irqVectorEntry env k.mem 14
  | execve => env.kallsyms "SyS_execve"

def install : Handler → Env → Kernel → Int × Kernel
  | timer => switchSmpApicTimerInterrupt
  | pgfault => switchPgfaultHandler
  | execve => switchExecve

def point : Handler → Point
  | timer => .timer
  | pgfault => .pgfault
  | execve => .doExecve

def agent (h : Handler) (env : Env) : Nat :=
  match h with
  | timer => env.satInterruptAgent
  | pgfault => env.pgfaultAgent
  | execve => env.execveAgent

def orig (h : Handler) (k : Kernel) : Nat :=
  match h with
  | timer => k.origSmpApicTimerInterrupt
  | pgfault => k.linuxDoPgfault
  | execve => k.origDoExecve

def window : Handler → Nat
  | timer | pgfault => maxOffset
  | execve => 64

/-- How far behind a place found the next search starts. -/
def skip : Handler → Nat
  | timer | pgfault => 1
  | execve => 5

/-- How many calls come before the one that is meant. -/
def before : Handler → Nat
  | timer => 2
  | pgfault | execve => 1

/-- The pointers that are searched from, or from a little behind, in order. -/
def starts (h : Handler) (env : Env) (k : Kernel) : List Nat :=
  let p := h.entry env k
  if p = 0 then []
  else
    let p₁ := memmem k.mem p h.window [0xe8]
    match h with
    | timer =>
      if p₁ = 0 then [p]
      else
        let p₂ := memmem k.mem (p₁ + 1) maxOffset [0xe8]
        if p₂ = 0 then [p, p₁] else [p, p₁, p₂]
    | pgfault => [p, p₁]
    | execve =>
      if p₁ = 0 then [p]
      else if callTarget k.mem p₁ ≠ env.kallsyms "getname" then [p]
      else [p, p₁]

/-- The call at `c` is exchanged, and nothing else; its target is saved. -/
structure Hits (h : Handler) (env : Env) (k : Kernel) (c : Nat) : Prop where
  ret : (h.install env k).1 = 0
  mem : (h.install env k).2.mem = write k.mem (c + 1) (rel32 (h.agent env) (c + 1))
  point : (h.install env k).2.points h.point = { point := c + 1, word := read k.mem (c + 1) 4 }
  orig : h.orig (h.install env k).2 = calledAddr k.mem c

def Refuses (h : Handler) (env : Env) (k : Kernel) : Prop :=
  h.install env k = (-enosys, k) ∧ 0 ∉ h.starts env k

end Handler

/-- Each call is within the window of the search that starts behind the one
before it. -/
def Near (window skip : Nat) : Nat → List Nat → Prop
  | _, [] => True
  | start, c :: cs => c < start + window ∧ Near window skip (c + skip) cs

instance decidableNear (window skip : Nat) : (start : Nat) → (cs : List Nat) →
    Decidable (Near window skip start cs)
  | _, [] => .isTrue trivial
  | _, c :: cs =>
    have := decidableNear window skip (c + skip) cs
    inferInstanceAs (Decidable (_ ∧ _))

/-- The windows of `n` searches, each from behind what the one before it has
found, hold a byte `0xe8` each. -/
def Enough (mem : Nat → UInt8) (window skip : Nat) : (n start : Nat) → Prop
  | 0, _ => True
  | n + 1, start => ∃ p, FirstAt mem 0xe8 start window p ∧ Enough mem window skip n (p + skip)

/-- The code of the handler is `is`: the calls `earlier`, and then the call at
`c` that is meant, are near enough to be found, and `execve` calls `getname`
first. -/
structure Framed (h : Handler) (env : Env) (k : Kernel) (is : List HandlerInstr)
    (earlier : List Nat) (c : Nat) : Prop where
  entry : h.entry env k ≠ 0
  code : Code k.mem (h.entry env k) is
  calls : ∃ more, calls (h.entry env k) is = earlier ++ c :: more
  before : earlier.length = h.before
  near : Near h.window h.skip (h.entry env k) (earlier ++ [c])
  getname : h = .execve → ∀ p ∈ earlier, calledAddr k.mem p = env.kallsyms "getname"

/-- The displacements that are searched do not hold the opcode, and the calls
that are looked at lead into the kernel's code. -/
structure Findable (h : Handler) (k : Kernel) (earlier : List Nat) (c : Nat) : Prop where
  clear : h ≠ .execve → ∀ p ∈ earlier, Clear k.mem p
  high : High (calledAddr k.mem c)
  getname : h = .execve → ∀ p ∈ earlier, High (calledAddr k.mem p)

-- ---------------------------------------------------------------------------
-- Enough calls
-- ---------------------------------------------------------------------------

theorem first_call (hcode : Code mem p is) (hcalls : calls p is = c :: cs) (hnear : c < p + n) :
    FirstAt mem 0xe8 p n c := by
  obtain ⟨hle, hbyte, hbefore, -⟩ := calls_cons hcode hcalls
  exact ⟨hle, hnear, hbyte, hbefore⟩

theorem after_call (hcode : Code mem (c + 5) is) (hcalls : calls (c + 5) is = c' :: cs)
    (hnear : c' < c + 1 + n) :
    ∃ p, FirstAt mem 0xe8 (c + 1) n p ∧ p ≤ c' ∧ (p = c' ↔ Clear mem c) := by
  obtain ⟨hle, hbyte, hbefore, -⟩ := calls_cons hcode hcalls
  have hstart : c + 1 ≤ c' := by omega
  obtain ⟨p, hp, hpc⟩ := first_of_byte hstart hnear hbyte
  refine ⟨p, hp, hpc, ?_⟩
  rw [clear_iff]
  constructor
  · rintro rfl q hq hlt
    exact hp.before q hq (by omega)
  · intro hclear
    have hstart := hp.start_le
    rcases Nat.lt_or_ge p (c + 5) with hlt | hge
    · exact absurd hp.byte (hclear p hstart hlt)
    · refine Nat.le_antisymm hpc ?_
      exact Nat.le_of_not_lt fun hlt => hbefore p hge hlt hp.byte

theorem length_rel32 (agent p : Nat) : (rel32 agent p).length = 4 := rfl

theorem Handler.orig_switch (h : Handler) (k : Kernel) (pt : Point) (p : Nat) (word : List UInt8) :
    h.orig (k.switch pt p word) = h.orig k := by
  cases h <;> rfl

theorem Handler.orig_timer (k : Kernel) (v : Nat) :
    timer.orig { k with origSmpApicTimerInterrupt := v } = v := rfl

theorem Handler.orig_pgfault (k : Kernel) (v : Nat) :
    pgfault.orig { k with linuxDoPgfault := v } = v := rfl

theorem Handler.orig_execve (k : Kernel) (v : Nat) :
    execve.orig { k with origDoExecve := v } = v := rfl

theorem Handler.hits_switch {h : Handler} {k k₁ : Kernel}
    (hinstall : h.install env k =
      (0, k₁.switch h.point (q + 1) (rel32 (h.agent env) (q + 1))))
    (hmem : k₁.mem = k.mem) (hsaved : h.orig k₁ = callTarget k.mem q) :
    h.Hits env k c ↔ q = c ∧ High (calledAddr k.mem c) := by
  have horig : h.orig (h.install env k).2 = callTarget k.mem q := by
    rw [hinstall, h.orig_switch, hsaved]
  have hpoint : (h.install env k).2.points h.point =
      { point := q + 1, word := read k.mem (q + 1) 4 } := by
    rw [hinstall, Kernel.switch, Kernel.xchg, hmem]
    simp only [Function.update_self, Patch.exchange, length_rel32]
  constructor
  · intro hits
    have heq := congrArg Patch.point (hpoint.symm.trans hits.point)
    obtain rfl : q = c := Nat.succ.inj heq
    exact ⟨rfl, (callTarget_iff _ _).mp (horig.symm.trans hits.orig)⟩
  · rintro ⟨rfl, hhigh⟩
    refine ⟨by rw [hinstall], ?_, hpoint, horig.trans ((callTarget_iff _ _).mpr hhigh)⟩
    rw [hinstall, Kernel.switch, Kernel.xchg, hmem]
    simp only [Function.update_self, Patch.exchange]

theorem switchPgfaultHandler_eq (hentry : irqVectorEntry env k.mem 14 ≠ 0)
    (h₁ : memmem k.mem (irqVectorEntry env k.mem 14) maxOffset [0xe8] = p₁)
    (h₂ : memmem k.mem (p₁ + 1) maxOffset [0xe8] = p₂) :
    switchPgfaultHandler env k = (0, { k with linuxDoPgfault := callTarget k.mem p₂ }.switch
      .pgfault (p₂ + 1) (rel32 env.pgfaultAgent (p₂ + 1))) := by
  simp only [switchPgfaultHandler, h₁, h₂]
  rw [if_neg hentry]

theorem switchSmpApicTimerInterrupt_eq (hentry : irqVectorEntry env k.mem env.localTimerVector ≠ 0)
    (h₁ : memmem k.mem (irqVectorEntry env k.mem env.localTimerVector) maxOffset [0xe8] = p₁)
    (hp₁ : p₁ ≠ 0) (h₂ : memmem k.mem (p₁ + 1) maxOffset [0xe8] = p₂) (hp₂ : p₂ ≠ 0)
    (h₃ : memmem k.mem (p₂ + 1) maxOffset [0xe8] = p₃) (hp₃ : p₃ ≠ 0) :
    switchSmpApicTimerInterrupt env k =
      (0, { k with origSmpApicTimerInterrupt := callTarget k.mem p₃ }.switch
        .timer (p₃ + 1) (rel32 env.satInterruptAgent (p₃ + 1))) := by
  simp only [switchSmpApicTimerInterrupt, h₁, h₂, h₃]
  rw [if_neg hentry, if_neg hp₁, if_neg hp₂, if_neg hp₃]
  rfl

theorem switchExecve_eq (hentry : env.kallsyms "SyS_execve" ≠ 0)
    (h₁ : memmem k.mem (env.kallsyms "SyS_execve") 64 [0xe8] = p₁) (hp₁ : p₁ ≠ 0)
    (hgetname : callTarget k.mem p₁ = env.kallsyms "getname")
    (h₂ : memmem k.mem (p₁ + 5) 64 [0xe8] = p₂) (hp₂ : p₂ ≠ 0) :
    switchExecve env k = (0, { k with origDoExecve := callTarget k.mem p₂ }.switch
      .doExecve (p₂ + 1) (rel32 env.execveAgent (p₂ + 1))) := by
  simp only [switchExecve, h₁, h₂]
  rw [if_neg hentry, if_neg hp₁, if_neg (by simpa using hgetname), if_neg hp₂]

theorem hits_pgfault (hf : Framed .pgfault env k is earlier c) :
    Handler.pgfault.Hits env k c ↔ Findable .pgfault k earlier c := by
  obtain ⟨hentry, hcode, ⟨more, hcalls⟩, hlen, hnear, -⟩ := hf
  obtain ⟨c₁, rfl⟩ := List.length_eq_one_iff.mp hlen
  obtain ⟨hc₁, hc, -⟩ := hnear
  obtain ⟨-, -, -, is', hcode', hcalls'⟩ := calls_cons hcode hcalls
  obtain ⟨p, hp, -, hclear⟩ := after_call hcode' hcalls' hc
  have hfirst := memmem_first (first_call hcode hcalls hc₁)
  have hinstall : Handler.pgfault.install env k = _ :=
    switchPgfaultHandler_eq hentry hfirst (memmem_first hp)
  rw [Handler.hits_switch hinstall rfl (Handler.orig_pgfault k _), hclear]
  constructor
  · rintro ⟨hclear, hhigh⟩
    exact ⟨fun _ q hq => List.mem_singleton.mp hq ▸ hclear, hhigh, nofun⟩
  · rintro ⟨hclear, hhigh, -⟩
    exact ⟨hclear (by decide) c₁ List.mem_cons_self, hhigh⟩

/-- The second search stops in the first displacement, or at the second call;
only from the second call does the third search get to the third. -/
theorem hits_timer (hf : Framed .timer env k is earlier c) :
    Handler.timer.Hits env k c ↔ Findable .timer k earlier c := by
  obtain ⟨hentry, hcode, ⟨more, hcalls⟩, hlen, hnear, -⟩ := hf
  obtain ⟨c₁, c₂, rfl⟩ := List.length_eq_two.mp hlen
  obtain ⟨hc₁, hc₂, hc, -⟩ := hnear
  obtain ⟨-, -, -, is₁, hcode₁, hcalls₁⟩ := calls_cons hcode hcalls
  obtain ⟨hle₂, hbyte₂, -, is₂, hcode₂, hcalls₂⟩ := calls_cons hcode₁ hcalls₁
  obtain ⟨hle, -⟩ := calls_cons hcode₂ hcalls₂
  have hfirst := first_call hcode hcalls hc₁
  obtain ⟨p, hp, hpc₂, hclear₁⟩ := after_call hcode₁ hcalls₁ hc₂
  have hthird : ∃ q, FirstAt k.mem 0xe8 (p + 1) maxOffset q ∧
      (q = c ↔ Clear k.mem c₁ ∧ Clear k.mem c₂) := by
    rcases Nat.eq_or_lt_of_le hpc₂ with rfl | hlt
    · obtain ⟨q, hq, -, hclear⟩ := after_call hcode₂ hcalls₂ hc
      have hfirst : Clear k.mem c₁ := hclear₁.mp rfl
      exact ⟨q, hq, by simp [hclear, hfirst]⟩
    · have hle := hp.start_le
      have hc₂' : c₂ < c₁ + 1 + maxOffset := hc₂
      have hstart : p + 1 ≤ c₂ := hlt
      obtain ⟨q, hq, hqc⟩ := first_of_byte (n := maxOffset) hstart (by omega) hbyte₂
      have hdirty : ¬ Clear k.mem c₁ := fun hclear => Nat.ne_of_lt hlt (hclear₁.mpr hclear)
      exact ⟨q, hq, iff_of_false (by omega) fun h => hdirty h.1⟩
  obtain ⟨q, hq, hclear⟩ := hthird
  have hinstall : Handler.timer.install env k = _ :=
    switchSmpApicTimerInterrupt_eq hentry (memmem_first hfirst) (hfirst.ne_zero hentry)
      (memmem_first hp) (hp.ne_zero (Nat.succ_ne_zero _))
      (memmem_first hq) (hq.ne_zero (Nat.succ_ne_zero _))
  rw [Handler.hits_switch hinstall rfl (Handler.orig_timer k _), hclear]
  constructor
  · rintro ⟨⟨hclear₁, hclear₂⟩, hhigh⟩
    refine ⟨fun _ p hp => ?_, hhigh, nofun⟩
    simp only [List.mem_cons, List.not_mem_nil, or_false] at hp
    rcases hp with rfl | rfl
    · exact hclear₁
    · exact hclear₂
  · rintro ⟨hclear, hhigh, -⟩
    have hboth := hclear (by decide)
    exact ⟨⟨hboth c₁ (by simp), hboth c₂ (by simp)⟩, hhigh⟩

theorem hits_execve (hf : Framed .execve env k is earlier c) :
    Handler.execve.Hits env k c ↔ Findable .execve k earlier c := by
  obtain ⟨hentry, hcode, ⟨more, hcalls⟩, hlen, hnear, hgetname⟩ := hf
  obtain ⟨c₁, rfl⟩ := List.length_eq_one_iff.mp hlen
  obtain ⟨hc₁, hc, -⟩ := hnear
  obtain ⟨-, -, -, is', hcode', hcalls'⟩ := calls_cons hcode hcalls
  have hgetname : calledAddr k.mem c₁ = env.kallsyms "getname" :=
    hgetname rfl c₁ List.mem_cons_self
  have hfirst := first_call hcode hcalls hc₁
  have hsecond := first_call hcode' hcalls' hc
  by_cases hhigh : High (calledAddr k.mem c₁)
  · have hinstall : Handler.execve.install env k = _ :=
      switchExecve_eq hentry (memmem_first hfirst) (hfirst.ne_zero hentry)
        (((callTarget_iff _ _).mpr hhigh).trans hgetname)
        (memmem_first hsecond) (hsecond.ne_zero (Nat.succ_ne_zero _))
    rw [Handler.hits_switch hinstall rfl (Handler.orig_execve k _)]
    constructor
    · rintro ⟨-, hc⟩
      exact ⟨nofun, hc, fun _ p hp => List.mem_singleton.mp hp ▸ hhigh⟩
    · rintro ⟨-, hc, -⟩
      exact ⟨rfl, hc⟩
  · refine iff_of_false ?_ fun h => hhigh (h.getname rfl c₁ List.mem_cons_self)
    have hother : callTarget k.mem c₁ ≠ env.kallsyms "getname" := by
      rw [← hgetname]
      exact fun heq => hhigh ((callTarget_iff _ _).mp heq)
    have hinstall : switchExecve env k = (-enosys, k) := by
      have hc₁ : memmem k.mem (env.kallsyms "SyS_execve") 64 [0xe8] = c₁ := memmem_first hfirst
      have hentry : env.kallsyms "SyS_execve" ≠ 0 := hentry
      simp only [switchExecve, hc₁]
      rw [if_neg hentry, if_neg (hfirst.ne_zero hentry), if_pos hother]
    intro hits
    have hret : (switchExecve env k).1 = 0 := hits.ret
    rw [hinstall] at hret
    cases hret

theorem hits_iff (hf : Framed h env k is earlier c) : h.Hits env k c ↔ Findable h k earlier c := by
  cases h with
  | timer => exact hits_timer hf
  | pgfault => exact hits_pgfault hf
  | execve => exact hits_execve hf

-- ---------------------------------------------------------------------------
-- Too few
-- ---------------------------------------------------------------------------

theorem not_enough (hstart : start ≠ 0) (h : ¬ Enough mem window skip (n + 1) start) :
    memmem mem start window [0xe8] = 0 ∨
      ∃ p, memmem mem start window [0xe8] = p ∧ p ≠ 0 ∧ ¬ Enough mem window skip n (p + skip) := by
  rcases first_or_missing mem 0xe8 start window with ⟨p, hp⟩ | hmissing
  · exact .inr ⟨p, memmem_first hp, hp.ne_zero hstart, fun hrest => h ⟨p, hp, hrest⟩⟩
  · exact .inl (memmem_missing hmissing)

theorem not_enough_nop (h : ∀ p, start ≤ p → p < start + window → mem p = 0x90) :
    ¬ Enough mem window skip (n + 1) start := by
  rintro ⟨p, hp, -⟩
  have hopcode := hp.byte
  rw [h p hp.start_le hp.lt] at hopcode
  cases hopcode

theorem refuses_timer (hentry : irqVectorEntry env k.mem env.localTimerVector ≠ 0)
    (hfew : ¬ Enough k.mem maxOffset 1 3 (irqVectorEntry env k.mem env.localTimerVector)) :
    Handler.timer.Refuses env k := by
  unfold Handler.Refuses Handler.install Handler.starts Handler.entry Handler.window
  rcases not_enough hentry hfew with h₁ | ⟨p₁, h₁, hp₁, hfew⟩
  · simp [switchSmpApicTimerInterrupt, h₁, hentry, hentry.symm]
  rcases not_enough (Nat.succ_ne_zero _) hfew with h₂ | ⟨p₂, h₂, hp₂, hfew⟩
  · simp [switchSmpApicTimerInterrupt, h₁, h₂, hentry, hp₁, hp₁.symm, hentry.symm]
  rcases not_enough (Nat.succ_ne_zero _) hfew with h₃ | ⟨p₃, -, -, hfew⟩
  · simp [switchSmpApicTimerInterrupt, h₁, h₂, h₃, hentry, hp₁, hp₂, hp₁.symm, hp₂.symm,
      hentry.symm]
  · exact absurd trivial hfew

theorem refuses_execve (hentry : env.kallsyms "SyS_execve" ≠ 0)
    (hfew : ¬ Enough k.mem 64 5 2 (env.kallsyms "SyS_execve")) :
    Handler.execve.Refuses env k := by
  unfold Handler.Refuses Handler.install Handler.starts Handler.entry Handler.window
  rcases not_enough hentry hfew with h₁ | ⟨p₁, h₁, hp₁, hfew⟩
  · simp [switchExecve, h₁, hentry, hentry.symm]
  rcases not_enough (Nat.succ_ne_zero _) hfew with h₂ | ⟨p₂, -, -, hfew⟩
  · by_cases hgetname : callTarget k.mem p₁ = env.kallsyms "getname"
    · simp [switchExecve, h₁, h₂, hentry, hp₁, hgetname, hp₁.symm, hentry.symm]
    · simp [switchExecve, h₁, hentry, hp₁, hgetname, hentry.symm]
  · exact absurd trivial hfew

/-- `switch_pgfault_handler` never refuses a handler that it has an address of. -/
theorem not_refuses_pgfault (hentry : Handler.pgfault.entry env k ≠ 0) :
    ¬ Handler.pgfault.Refuses env k := by
  rintro ⟨hinstall, -⟩
  have hret : (switchPgfaultHandler env k).1 = -enosys := congrArg Prod.fst hinstall
  rw [switchPgfaultHandler_eq hentry rfl rfl] at hret
  cases hret

/-- A handler with enough calls is patched at the call that is meant exactly
when no displacement on the way holds the opcode and the calls looked at lead
into the kernel's code; one with too few is refused, except by
`switch_pgfault_handler`. -/
theorem fingerprint_iff (h : Handler) (env : Env) (k : Kernel) :
    (∀ is earlier c, Framed h env k is earlier c →
      (h.Hits env k c ↔ Findable h k earlier c)) ∧
    (h.entry env k ≠ 0 → ¬ Enough k.mem h.window h.skip (h.before + 1) (h.entry env k) →
      (h.Refuses env k ↔ h ≠ .pgfault)) := by
  refine ⟨fun is earlier c hf => hits_iff hf, fun hentry hfew => ?_⟩
  cases h with
  | timer => exact iff_of_true (refuses_timer hentry hfew) (by decide)
  | pgfault => exact iff_of_false (not_refuses_pgfault hentry) (by decide)
  | execve => exact iff_of_true (refuses_execve hentry hfew) (by decide)

/-- The gate of vector `v` leads to the code `text` at `0xffffffff81600200`;
everything else is `nop`. -/
def handlerText (v : Nat) (text : List UInt8) : Kernel :=
  load sampleEnv (write (write (fun _ => 0x90) (0xffffffff81400000 + 16 * v) (sampleGate 2))
    0xffffffff81600200 text)

def threeCalls : List HandlerInstr :=
  [.run ⟨[0x90], by decide⟩, .call 0 1 0 0, .call 0 2 0 0, .call 0 3 0 0]

theorem fingerprint_iff_threeCalls :
    Handler.timer.Hits sampleEnv (handlerText 0xef (threeCalls.flatMap HandlerInstr.bytes))
        0xffffffff8160020b ∧
      Handler.execve.Refuses sampleEnv (handlerText 0 []) := by
  have hmissing : ¬ Enough (handlerText 0 []).mem 64 5 2 0xffffffff81100000 := by
    refine not_enough_nop fun p hle hlt => ?_
    simp only [handlerText, load, write]
    rw [if_neg (by omega), if_neg (by omega)]
  refine ⟨((fingerprint_iff .timer sampleEnv _).1 threeCalls
    [0xffffffff81600201, 0xffffffff81600206] 0xffffffff8160020b ?_).mpr ?_,
    ((fingerprint_iff .execve sampleEnv _).2 ?_ hmissing).mpr ?_⟩
  · exact ⟨by decide, by decide, ⟨[], by decide⟩, by decide, by decide,
      fun h => absurd h (by decide)⟩
  · exact ⟨by decide, by decide, fun h => absurd h (by decide)⟩
  · decide
  · decide

/-- The first call of a page fault handler leads `0xe8` bytes on; and one
without any call. -/
theorem fingerprint_fails :
    ¬ (∀ h env k is earlier c, Framed h env k is earlier c → h.Hits env k c) ∧
      ¬ ∀ (h : Handler) env k, h.entry env k ≠ 0 →
        ¬ Enough k.mem h.window h.skip (h.before + 1) (h.entry env k) → h.Refuses env k := by
  constructor
  · intro h
    have hf : Framed .pgfault sampleEnv
        (handlerText 14 [0xe8, 0xe8, 0, 0, 0, 0xe8, 0, 1, 0, 0])
        [.call 0xe8 0 0 0, .call 0 1 0 0] [0xffffffff81600200] 0xffffffff81600205 :=
      ⟨by decide, by decide, ⟨[], by decide⟩, by decide, by decide, fun h => absurd h (by decide)⟩
    have hclear := ((hits_iff hf).mp (h _ _ _ _ _ _ hf)).clear (by decide) _ List.mem_cons_self
    revert hclear
    decide
  · intro h
    have hentry : Handler.pgfault.entry sampleEnv (handlerText 14 []) ≠ 0 := by decide
    refine not_refuses_pgfault hentry (h _ _ _ hentry (not_enough_nop fun p hle _ => ?_))
    have hstart : Handler.pgfault.entry sampleEnv (handlerText 14 []) = 0xffffffff81600200 := by
      decide
    rw [hstart] at hle
    show write (write _ _ (sampleGate 2)) _ [] p = _
    rw [write_after _ (by simp; omega), write_after _ (by simp [sampleGate]; omega)]

end Yasched
