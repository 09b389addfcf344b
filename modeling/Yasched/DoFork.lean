import Yasched.Fingerprint

/-!
# Where the search for `_do_fork` gets to

`__switch_do_fork` searches the first 128 bytes of a function for a jump or a
call that leads to `_do_fork`. After a byte that leads elsewhere it makes the
window smaller, and searches it from the start again: it finds the same byte as
long as the window still holds it. So of all the bytes `0xe9` it looks at the
first, and of all the bytes `0xe8` at the first, within what is then left of
the window. `doForkSite` says so without a loop.
-/

namespace Yasched

open Bytes

-- ---------------------------------------------------------------------------
-- Candidates
-- ---------------------------------------------------------------------------

def firstByte (mem : Nat → UInt8) (b : UInt8) (sys n : Nat) : Option Nat :=
  (List.range n).find? fun i => mem (sys + i) = b

theorem firstByte_some : firstByte mem b sys n = some i ↔ FirstAt mem b sys n (sys + i) := by
  rw [firstByte, List.find?_range_eq_some]
  simp only [decide_eq_true_eq, List.mem_range, Bool.not_eq_eq_eq_not, Bool.not_true,
    decide_eq_false_iff_not]
  constructor
  · rintro ⟨hbyte, hi, hbefore⟩
    refine ⟨by omega, by omega, hbyte, ?_⟩
    intro q hle hlt
    obtain ⟨j, rfl⟩ := Nat.exists_eq_add_of_le hle
    exact hbefore j (by omega)
  · rintro ⟨-, hi, hbyte, hbefore⟩
    exact ⟨hbyte, by omega, fun j hj => hbefore (sys + j) (by omega) (by omega)⟩

theorem firstByte_none : firstByte mem b sys n = none ↔ ∀ i < n, mem (sys + i) ≠ b := by
  simp [firstByte]

theorem firstByte_lt (h : firstByte mem b sys n = some i) : i < n := by
  have hlt := (firstByte_some.mp h).lt
  omega

theorem firstByte_less (h : firstByte mem b sys n = some i) :
    firstByte mem b sys m = if i < m then some i else none := by
  have hfirst := firstByte_some.mp h
  split
  case isTrue hlt =>
    rw [firstByte_some]
    exact ⟨hfirst.start_le, by omega, hfirst.byte, hfirst.before⟩
  case isFalse hge =>
    rw [firstByte_none]
    exact fun j hj => hfirst.before (sys + j) (by omega) (by omega)

theorem firstByte_less_none (h : firstByte mem b sys n = none) (hle : m ≤ n) :
    firstByte mem b sys m = none := by
  rw [firstByte_none] at h ⊢
  exact fun i hi => h i (Nat.lt_of_lt_of_le hi hle)

theorem memmem_firstByte (mem : Nat → UInt8) (b : UInt8) (sys n : Nat) :
    memmem mem sys n [b] = (firstByte mem b sys n).elim 0 (sys + ·) := by
  cases h : firstByte mem b sys n with
  | some i => exact memmem_first (firstByte_some.mp h)
  | none =>
    refine memmem_missing fun q hle hlt => ?_
    obtain ⟨i, rfl⟩ := Nat.exists_eq_add_of_le hle
    exact firstByte_none.mp h i (by omega)

/-- The jump or call at `c` leads to `_do_fork`, as the loop sees it. -/
def leads (mem : Nat → UInt8) (origDoFork c : Nat) : Bool :=
  isDoFork mem origDoFork (doForkAddr mem (c + 1))

-- ---------------------------------------------------------------------------
-- The loop
-- ---------------------------------------------------------------------------

/-- The loop of `__switch_do_fork`, entered with this distance, ends with `r`. -/
inductive DoForkLoop (mem : Nat → UInt8) (origDoFork sys : Nat) : Nat → Search → Prop
  | bound (hbound : ¬ distance < 128) : DoForkLoop mem origDoFork sys distance .exhausted
  | missing (hbound : distance < 128) (hp : jmpOrCall mem sys (128 - distance) = 0) :
    DoForkLoop mem origDoFork sys distance .notFound
  | found (hbound : distance < 128) (hp : jmpOrCall mem sys (128 - distance) = p) (hne : p ≠ 0)
    (hleads : leads mem origDoFork p) :
    DoForkLoop mem origDoFork sys distance (.found (p + 1))
  | again (hbound : distance < 128) (hp : jmpOrCall mem sys (128 - distance) = p) (hne : p ≠ 0)
    (hleads : ¬ leads mem origDoFork p)
    (h : DoForkLoop mem origDoFork sys (distance + (p + 1 - sys)) r) :
    DoForkLoop mem origDoFork sys distance r

theorem searchDoForkFrom_loop (hfuel : 128 ≤ fuel + distance) :
    DoForkLoop mem origDoFork sys distance
      (searchDoForkFrom mem origDoFork sys fuel distance) := by
  induction fuel generalizing distance with
  | zero => exact .bound (by omega)
  | succ fuel ih =>
    rw [searchDoForkFrom]
    split
    case isFalse hbound => exact .bound hbound
    case isTrue hbound =>
      dsimp only
      split
      case isTrue hp => exact .missing hbound hp
      case isFalse hp =>
        split
        case isTrue hleads => exact .found hbound rfl hp hleads
        case isFalse hleads =>
          have hge := jmpOrCall_ge hp
          exact .again hbound rfl hp hleads (ih (by omega))

-- ---------------------------------------------------------------------------
-- The loop as one look
-- ---------------------------------------------------------------------------

/-- With no `0xe9` in the window: the first `0xe8`, if the window holds one. -/
def callSite (mem : Nat → UInt8) (origDoFork sys window : Nat) : Search :=
  match firstByte mem 0xe8 sys window with
  | none => if window = 0 then .exhausted else .notFound
  | some e =>
    if leads mem origDoFork (sys + e) then .found (sys + e + 1)
    else if window % (e + 1) = 0 then .exhausted
    else .notFound

def siteIn (mem : Nat → UInt8) (origDoFork sys window : Nat) : Search :=
  match firstByte mem 0xe9 sys window with
  | none => callSite mem origDoFork sys window
  | some d =>
    if leads mem origDoFork (sys + d) then .found (sys + d + 1)
    else callSite mem origDoFork sys (window % (d + 1))

def doForkSite (mem : Nat → UInt8) (origDoFork sys : Nat) : Search := siteIn mem origDoFork sys 128

theorem jmpOrCall_firstByte (hsys : sys ≠ 0) :
    jmpOrCall mem sys n = match firstByte mem 0xe9 sys n with
      | some d => sys + d
      | none => (firstByte mem 0xe8 sys n).elim 0 (sys + ·) := by
  simp only [jmpOrCall, memmem_firstByte]
  cases firstByte mem 0xe9 sys n with
  | none => rfl
  | some d => simp [hsys]

theorem mod_window (h : d < n) : n % (d + 1) = (n - (d + 1)) % (d + 1) := Nat.mod_eq_sub_mod h

/-- After a `0xe8` that leads elsewhere the rest of the window is looked at in
the same way. -/
theorem callSite_again (he : firstByte mem 0xe8 sys n = some e)
    (hleads : ¬ leads mem origDoFork (sys + e)) :
    callSite mem origDoFork sys (n - (e + 1)) = callSite mem origDoFork sys n := by
  have hmod := mod_window (firstByte_lt he)
  have hrest := firstByte_less (m := n - (e + 1)) he
  simp only [callSite, he, hrest, hmod]
  rcases Nat.lt_or_ge e (n - (e + 1)) with hlt | hge
  · simp only [hlt, hleads, Bool.false_eq_true, ↓reduceIte]
  · rw [Nat.mod_eq_of_lt (by omega : n - (e + 1) < e + 1)]
    simp only [hleads, Nat.not_lt.mpr hge, Bool.false_eq_true, ↓reduceIte]

theorem siteIn_again (hd : firstByte mem 0xe9 sys n = some d)
    (hleads : ¬ leads mem origDoFork (sys + d)) :
    siteIn mem origDoFork sys (n - (d + 1)) = siteIn mem origDoFork sys n := by
  have hmod := mod_window (firstByte_lt hd)
  have hrest := firstByte_less (m := n - (d + 1)) hd
  simp only [siteIn, hd, hrest, hmod]
  rcases Nat.lt_or_ge d (n - (d + 1)) with hlt | hge
  · simp only [hlt, hleads, Bool.false_eq_true, ↓reduceIte]
  · rw [Nat.mod_eq_of_lt (by omega : n - (d + 1) < d + 1)]
    simp only [hleads, Nat.not_lt.mpr hge, Bool.false_eq_true, ↓reduceIte]

/-- By induction on the turns: a turn that does not end the loop leaves what
`siteIn` says as it is. -/
theorem DoForkLoop.siteIn (hsys : sys ≠ 0) (h : DoForkLoop mem origDoFork sys distance r) :
    r = siteIn mem origDoFork sys (128 - distance) := by
  induction h with
  | bound hbound =>
    rw [Nat.sub_eq_zero_of_le (Nat.le_of_not_lt hbound)]
    rfl
  | @missing distance hbound hp =>
    rw [jmpOrCall_firstByte hsys] at hp
    cases hd : firstByte mem 0xe9 sys (128 - distance) with
    | some d => simp [hd, hsys] at hp
    | none =>
      cases he : firstByte mem 0xe8 sys (128 - distance) with
      | some e => simp [hd, he, hsys] at hp
      | none =>
        have hwindow : 128 - distance ≠ 0 := by omega
        simp [Yasched.siteIn, callSite, hd, he, hwindow]
  | @found distance p hbound hp hne hleads =>
    rw [jmpOrCall_firstByte hsys] at hp
    cases hd : firstByte mem 0xe9 sys (128 - distance) with
    | some d =>
      obtain rfl : sys + d = p := by simpa [hd] using hp
      simp [Yasched.siteIn, hd, hleads]
    | none =>
      cases he : firstByte mem 0xe8 sys (128 - distance) with
      | none => exact absurd (by simpa [hd, he] using hp.symm) hne
      | some e =>
        obtain rfl : sys + e = p := by simpa [hd, he] using hp
        simp [Yasched.siteIn, callSite, hd, he, hleads]
  | @again distance p r hbound hp hne hleads h ih =>
    rw [jmpOrCall_firstByte hsys] at hp
    cases hd : firstByte mem 0xe9 sys (128 - distance) with
    | some d =>
      obtain rfl : sys + d = p := by simpa [hd] using hp
      rw [ih, ← siteIn_again hd hleads]
      congr 1
      omega
    | none =>
      cases he : firstByte mem 0xe8 sys (128 - distance) with
      | none => exact absurd (by simpa [hd, he] using hp.symm) hne
      | some e =>
        obtain rfl : sys + e = p := by simpa [hd, he] using hp
        have hless : 128 - (distance + (sys + e + 1 - sys)) = 128 - distance - (e + 1) := by omega
        have hnone := firstByte_less_none hd (Nat.sub_le (128 - distance) (e + 1))
        rw [ih, hless]
        simp only [Yasched.siteIn, hd, hnone]
        exact callSite_again he hleads

theorem searchDoFork_eq (hsys : sys ≠ 0) :
    searchDoFork mem origDoFork sys = doForkSite mem origDoFork sys :=
  (searchDoForkFrom_loop (Nat.le_refl _)).siteIn hsys

-- ---------------------------------------------------------------------------
-- Sites
-- ---------------------------------------------------------------------------

structure Site (mem : Nat → UInt8) (a c : Nat) : Prop where
  opcode : mem c = 0xe9 ∨ mem c = 0xe8
  target : calledAddr mem c = a

/-- In the last 2 GiB, where the kernel's text and its modules are. -/
def InText (a : Nat) : Prop := 0xffffffff80000000 ≤ a ∧ a < 0x10000000000000000

instance (a : Nat) : Decidable (InText a) := inferInstanceAs (Decidable (_ ∧ _))

theorem doForkAddr_eq (mem : Nat → UInt8) (p : Nat) :
    doForkAddr mem p = 0xffffffff00000000 + (p + 4 + uint32 mem p) % 0x100000000 := by
  rw [doForkAddr, Nat.or_comm, high_or (by omega), Nat.mod_mod]

theorem uint32_eq (mem : Nat → UInt8) (p : Nat) :
    uint32 mem p = (mem p).toNat + (mem (p + 1)).toNat * 0x100 + (mem (p + 2)).toNat * 0x10000 +
      (mem (p + 3)).toNat * 0x1000000 := by
  show (mem p).toNat + (mem (p + 1)).toNat * 0x100 +
    ((mem (p + 2)).toNat + (mem (p + 3)).toNat * 0x100) * 0x10000 = _
  omega

theorem uint32_lt (mem : Nat → UInt8) (p : Nat) : uint32 mem p < 0x100000000 := by
  have h₀ := (mem p).toNat_lt
  have h₁ := (mem (p + 1)).toNat_lt
  have h₂ := (mem (p + 2)).toNat_lt
  have h₃ := (mem (p + 3)).toNat_lt
  rw [uint32_eq]
  omega

theorem callSite_found : callSite mem a sys n = .found p ↔
    ∃ e, firstByte mem 0xe8 sys n = some e ∧ leads mem a (sys + e) ∧ sys + e + 1 = p := by
  unfold callSite
  cases firstByte mem 0xe8 sys n with
  | none => by_cases hn : n = 0 <;> simp [hn]
  | some e =>
    simp only [Option.some.injEq, exists_eq_left']
    split
    case isTrue hleads => simp [hleads]
    case isFalse hleads => split <;> simp [hleads]

theorem siteIn_site (h : siteIn mem a sys n = .found p) :
    ∃ i < n, p = sys + i + 1 ∧ (mem (sys + i) = 0xe9 ∨ mem (sys + i) = 0xe8) ∧
      leads mem a (sys + i) := by
  unfold siteIn at h
  cases hd : firstByte mem 0xe9 sys n with
  | none =>
    simp only [hd] at h
    obtain ⟨e, he, hleads, rfl⟩ := callSite_found.mp h
    exact ⟨e, firstByte_lt he, rfl, .inr (firstByte_some.mp he).byte, hleads⟩
  | some d =>
    simp only [hd] at h
    split at h
    case isTrue hleads =>
      cases h
      exact ⟨d, firstByte_lt hd, rfl, .inl (firstByte_some.mp hd).byte, hleads⟩
    case isFalse =>
      obtain ⟨e, he, hleads, rfl⟩ := callSite_found.mp h
      have hlt := Nat.lt_of_lt_of_le (firstByte_lt he) (Nat.mod_le n (d + 1))
      exact ⟨e, hlt, rfl, .inr (firstByte_some.mp he).byte, hleads⟩

-- ---------------------------------------------------------------------------
-- Completeness of one search
-- ---------------------------------------------------------------------------

/-- The loop ends with the switch point at a site below offset 123, and the
site is redirected. -/
def Redirects (agent : Nat) (pt : Point) (sys : Nat) (k : Kernel) : Prop :=
  ∃ i < 123, Site k.mem k.origDoFork (sys + i) ∧
    DoForkLoop k.mem k.origDoFork sys 0 (.found (sys + i + 1)) ∧
    ((switchDoForkOf agent [(pt, sys)] k).2.points pt).point = sys + i + 1 ∧
    (switchDoForkOf agent [(pt, sys)] k).2.mem =
      write k.mem (sys + i + 1) (rel32 agent (sys + i + 1))

def HasSite (mem : Nat → UInt8) (a sys : Nat) : Prop := ∃ i < 123, Site mem a (sys + i)

/-- The jump or call at offset `i` is one that the loop takes, and a site. -/
def Taken (mem : Nat → UInt8) (a sys i : Nat) : Prop :=
  i < 123 ∧ leads mem a (sys + i) ∧ calledAddr mem (sys + i) = a

def CallExamined (mem : Nat → UInt8) (a sys window : Nat) : Prop :=
  ∃ e, firstByte mem 0xe8 sys window = some e ∧ Taken mem a sys e

/-- The first `0xe9` of the 128 bytes leads to `a`; or it leads elsewhere, or
there is none, and then the first `0xe8` does, within what is left over when the
window is divided by the distance to behind that `0xe9`. -/
def Examined (mem : Nat → UInt8) (a sys : Nat) : Prop :=
  match firstByte mem 0xe9 sys 128 with
  | none => CallExamined mem a sys 128
  | some d =>
    if leads mem a (sys + d) then Taken mem a sys d else CallExamined mem a sys (128 % (d + 1))

def Finds (mem : Nat → UInt8) (a sys : Nat) (r : Search) : Prop :=
  ∃ i < 123, r = .found (sys + i + 1) ∧ calledAddr mem (sys + i) = a

theorem callSite_examined : Finds mem a sys (callSite mem a sys n) ↔ CallExamined mem a sys n := by
  simp only [Finds, callSite_found, CallExamined, Taken]
  constructor
  · rintro ⟨i, hi, ⟨e, he, hleads, heq⟩, htarget⟩
    obtain rfl : e = i := by omega
    exact ⟨e, he, hi, hleads, htarget⟩
  · rintro ⟨e, he, hi, hleads, htarget⟩
    exact ⟨e, hi, ⟨e, he, hleads, rfl⟩, htarget⟩

theorem doForkSite_examined : Finds mem a sys (doForkSite mem a sys) ↔ Examined mem a sys := by
  unfold doForkSite siteIn Examined
  cases firstByte mem 0xe9 sys 128 with
  | none => exact callSite_examined
  | some d =>
    dsimp only
    split
    case isFalse => exact callSite_examined
    case isTrue hleads =>
      constructor
      · rintro ⟨i, hi, heq, htarget⟩
        obtain rfl : d = i := by simpa using heq
        exact ⟨hi, hleads, htarget⟩
      · rintro ⟨hi, -, htarget⟩
        exact ⟨d, hi, rfl, htarget⟩

theorem redirects_iff (hsys : sys ≠ 0) :
    Redirects agent pt sys k ↔
      Finds k.mem k.origDoFork sys (doForkSite k.mem k.origDoFork sys) := by
  constructor
  · rintro ⟨i, hi, hsite, hloop, -⟩
    exact ⟨i, hi, (hloop.siteIn hsys).symm, hsite.target⟩
  · rintro ⟨i, hi, hfound, htarget⟩
    obtain ⟨j, -, heq, hopcode, -⟩ := siteIn_site hfound
    obtain rfl : i = j := by omega
    have hsearch : searchDoFork k.mem k.origDoFork sys = .found (sys + i + 1) :=
      (searchDoFork_eq hsys).trans hfound
    have hloop : DoForkLoop k.mem k.origDoFork sys 0 (.found (sys + i + 1)) := by
      rw [← hsearch]
      exact searchDoForkFrom_loop (Nat.le_refl _)
    refine ⟨i, hi, ⟨hopcode, htarget⟩, hloop, ?_, ?_⟩
    · simp [switchDoForkOf, hsearch, Kernel.switch, Kernel.xchg]
    · simp [switchDoForkOf, hsearch, Kernel.switch, Kernel.xchg, Patch.exchange]

/-- When there is a site, the loop finds one exactly if a site is what it looks
at; and it ends. -/
theorem siteSearch_iff (agent : Nat) (pt : Point) (k : Kernel) (hsys : sys ≠ 0) :
    ((HasSite k.mem k.origDoFork sys → Redirects agent pt sys k) ↔
      (HasSite k.mem k.origDoFork sys → Examined k.mem k.origDoFork sys)) ∧
    ∃ r, DoForkLoop k.mem k.origDoFork sys 0 r := by
  refine ⟨?_, _, searchDoForkFrom_loop (Nat.le_refl 128)⟩
  rw [redirects_iff hsys, doForkSite_examined]

def callerText (text : List UInt8) : Kernel :=
  { load sampleEnv (write (fun _ => 0x90) 0xffffffff81700000 text) with
    origDoFork := 0xffffffff81700200 }

/-- Ten `nop`s and a call of `_do_fork`. -/
theorem siteSearch_iff_call :
    Redirects 0xffffffffa0000700 .cloneDoFork 0xffffffff81700000
      (callerText (List.replicate 10 0x90 ++ [0xe8, 0xf1, 0x01, 0, 0])) := by
  have hsys : 0xffffffff81700000 ≠ 0 := by decide
  refine (siteSearch_iff _ _ _ hsys).1.mpr (fun _ => ?_) ⟨10, by decide, by decide, by decide⟩
  have hjmp : firstByte (callerText (List.replicate 10 0x90 ++ [0xe8, 0xf1, 0x01, 0, 0])).mem 0xe9
      0xffffffff81700000 128 = none := by decide
  unfold Examined
  rw [hjmp]
  exact ⟨10, by decide, by decide, by decide, by decide⟩

theorem siteSearch_fails :
    ¬ ∀ agent pt sys (k : Kernel), InText k.origDoFork → InText sys →
      HasSite k.mem k.origDoFork sys → Redirects agent pt sys k := by
  intro h
  have hredirects := h 0xffffffffa0000700 .cloneDoFork 0xffffffff81700000
    (callerText ([0xe8, 0, 0, 0, 0] ++ List.replicate 5 0x90 ++ [0xe8, 0xf1, 0x01, 0, 0]))
    (by decide) (by decide) ⟨10, by decide, by decide, by decide⟩
  obtain ⟨i, -, hfound, -⟩ := (redirects_iff (by decide)).mp hredirects
  have hgiven : doForkSite (callerText ([0xe8, 0, 0, 0, 0] ++ List.replicate 5 0x90 ++
      [0xe8, 0xf1, 0x01, 0, 0])).mem 0xffffffff81700200 0xffffffff81700000 = .exhausted := by decide
  cases hgiven.symm.trans hfound

end Yasched
