import Yasched.Strings

/-!
# getopt_long

What `getopt_long` returns, call after call, for the elements of a vector
behind its first, until it returns -1. An option has no argument or needs one;
there are no flags to be set instead of a value being returned.
-/

namespace Yasched.Getopt

structure Got where
  c : UInt8
  optarg : Option (List UInt8)
  deriving DecidableEq, Repr

/-- `'?'` -/
def Got.error : Got := ⟨0x3f, none⟩

structure LongOption where
  name : List UInt8
  hasArg : Bool
  val : UInt8
  deriving DecidableEq, Repr

section

variable (optstring : List UInt8) (longopts : List LongOption)

/-- Whether a character is an option, and then whether it needs an argument. -/
def hasArg? (c : UInt8) : Option Bool :=
  if c = 0x3a ∨ c = 0x3b then none
  else
    match optstring.dropWhile (· ≠ c) with
    | [] => none
    | _ :: 0x3a :: _ => some true
    | _ :: _ => some false

/-- The characters behind a dash. The second component is the option that still
needs the next element. -/
def short : List UInt8 → List Got × Option UInt8
  | [] => ([], none)
  | c :: nextchar =>
    match hasArg? optstring c with
    | none => (.error :: (short nextchar).1, (short nextchar).2)
    | some false => (⟨c, none⟩ :: (short nextchar).1, (short nextchar).2)
    | some true => if nextchar = [] then ([], some c) else ([⟨c, some nextchar⟩], none)

/-- An exact match, else the one option that has the name as an abbreviation;
several may have it if they mean the same. -/
def findLong (name : List UInt8) : Option LongOption :=
  match longopts.find? (·.name = name) with
  | some p => some p
  | none =>
    match longopts.filter (name <+: ·.name) with
    | [] => none
    | pfound :: others =>
      if others.all fun p => p.hasArg = pfound.hasArg ∧ p.val = pfound.val then some pfound
      else none

def long (text : List UInt8) : List Got × Option UInt8 :=
  match findLong longopts (text.takeWhile (· ≠ 0x3d)), text.dropWhile (· ≠ 0x3d) with
  | none, _ => ([.error], none)
  | some p, _ :: arg => if p.hasArg then ([⟨p.val, some arg⟩], none) else ([.error], none)
  | some p, [] => if p.hasArg then ([], some p.val) else ([⟨p.val, none⟩], none)

inductive Element
  | operand
  | terminator
  | options (gots : List Got) (needs : Option UInt8)
  deriving DecidableEq, Repr

def element : List UInt8 → Element
  | [0x2d, 0x2d] => .terminator
  | 0x2d :: 0x2d :: text => .options (long longopts text).1 (long longopts text).2
  | 0x2d :: c :: nextchar =>
    .options (short optstring (c :: nextchar)).1 (short optstring (c :: nextchar)).2
  | _ => .operand

/-- `posixlyCorrect` is whether the environment has `POSIXLY_CORRECT`; operands
are passed over if it has not. -/
def getoptLong (posixlyCorrect : Bool) : List (List UInt8) → List Got
  | [] => []
  | arg :: args =>
    match element optstring longopts arg with
    | .operand => if posixlyCorrect then [] else getoptLong posixlyCorrect args
    | .terminator => []
    | .options gots none => gots ++ getoptLong posixlyCorrect args
    | .options gots (some c) =>
      match args with
      | [] => gots ++ [.error]
      | optarg :: args => gots ++ ⟨c, some optarg⟩ :: getoptLong posixlyCorrect args

-- ---------------------------------------------------------------------------
-- What can be returned
-- ---------------------------------------------------------------------------

def Known (got : Got) : Prop := got = .error ∨ hasArg? optstring got.c = some got.optarg.isSome

def Agree : Prop := ∀ p ∈ longopts, hasArg? optstring p.val = some p.hasArg

variable {optstring longopts}

theorem short_known (nextchar : List UInt8) :
    (∀ got ∈ (short optstring nextchar).1, Known optstring got) ∧
      ∀ c, (short optstring nextchar).2 = some c → hasArg? optstring c = some true := by
  induction nextchar with
  | nil => exact ⟨fun _ h => absurd h List.not_mem_nil, fun _ h => nomatch h⟩
  | cons c nextchar ih =>
    rw [short]
    split
    next => exact ⟨List.forall_mem_cons.mpr ⟨.inl rfl, ih.1⟩, ih.2⟩
    next hflag => exact ⟨List.forall_mem_cons.mpr ⟨.inr hflag, ih.1⟩, ih.2⟩
    next harg =>
      split
      case isTrue =>
        refine ⟨fun _ h => absurd h List.not_mem_nil, fun c' h => ?_⟩
        rwa [← Option.some.inj h]
      case isFalse => exact ⟨List.forall_mem_singleton.mpr (.inr harg), fun _ h => nomatch h⟩

theorem findLong_mem (h : findLong longopts name = some p) : p ∈ longopts := by
  unfold findLong at h
  split at h
  next q hfind =>
    rw [← Option.some.inj h]
    exact List.mem_of_find?_eq_some hfind
  next =>
    split at h
    next => cases h
    next pfound others hfilter =>
      split at h
      case isTrue =>
        have hmem : pfound ∈ longopts.filter (name <+: ·.name) := by simp [hfilter]
        rw [← Option.some.inj h]
        exact (List.mem_filter.mp hmem).1
      case isFalse => cases h

theorem long_known (hagree : Agree optstring longopts) (text : List UInt8) :
    (∀ got ∈ (long longopts text).1, Known optstring got) ∧
      ∀ c, (long longopts text).2 = some c → hasArg? optstring c = some true := by
  unfold long
  split
  next => exact ⟨List.forall_mem_singleton.mpr (.inl rfl), fun _ h => nomatch h⟩
  next p _ arg hfind _ =>
    have hp := hagree p (findLong_mem hfind)
    split
    case isTrue harg =>
      rw [harg] at hp
      exact ⟨List.forall_mem_singleton.mpr (.inr hp), fun _ h => nomatch h⟩
    case isFalse => exact ⟨List.forall_mem_singleton.mpr (.inl rfl), fun _ h => nomatch h⟩
  next p hfind _ =>
    have hp := hagree p (findLong_mem hfind)
    split
    case isTrue harg =>
      rw [harg] at hp
      refine ⟨fun _ h => absurd h List.not_mem_nil, fun c h => ?_⟩
      rwa [← Option.some.inj h]
    case isFalse harg =>
      rw [Bool.eq_false_iff.mpr harg] at hp
      exact ⟨List.forall_mem_singleton.mpr (.inr hp), fun _ h => nomatch h⟩

theorem element_known (hagree : Agree optstring longopts)
    (h : element optstring longopts arg = .options gots needs) :
    (∀ got ∈ gots, Known optstring got) ∧
      ∀ c, needs = some c → hasArg? optstring c = some true := by
  unfold element at h
  split at h
  next => cases h
  next =>
    cases h
    exact long_known hagree _
  next =>
    cases h
    exact short_known _
  next => cases h

theorem getoptLong_known (hagree : Agree optstring longopts) (posixlyCorrect : Bool)
    (args : List (List UInt8)) :
    ∀ got ∈ getoptLong optstring longopts posixlyCorrect args, Known optstring got := by
  fun_induction getoptLong optstring longopts posixlyCorrect args with
  | case1 => exact fun _ h => absurd h List.not_mem_nil
  | case2 => exact fun _ h => absurd h List.not_mem_nil
  | case3 _ _ _ _ ih => exact ih
  | case4 => exact fun _ h => absurd h List.not_mem_nil
  | case5 arg args gots helement ih =>
    exact List.forall_mem_append.mpr ⟨(element_known hagree helement).1, ih⟩
  | case6 arg gots c helement =>
    refine List.forall_mem_append.mpr ⟨(element_known hagree helement).1, ?_⟩
    exact List.forall_mem_singleton.mpr (.inl rfl)
  | case7 arg gots c helement optarg args ih =>
    obtain ⟨hgots, hneeds⟩ := element_known hagree helement
    refine List.forall_mem_append.mpr ⟨hgots, List.forall_mem_cons.mpr ⟨.inr ?_, ih⟩⟩
    exact hneeds c rfl

end

end Yasched.Getopt
