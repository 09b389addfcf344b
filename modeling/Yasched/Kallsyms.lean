import Yasched.Strings

/-!
# Looking a symbol up in /proc/kallsyms

`get_symbol_from_kallsyms` has one symbol after the other shown in its buffer
and compares the bytes from a fixed column on with the name it looks for, over
the length of that name only.
-/

namespace Yasched

open Bytes Strings

-- ---------------------------------------------------------------------------
-- Symbols and how they are shown
-- ---------------------------------------------------------------------------

section

variable (nameLen moduleLen : Nat)

/-- `struct kallsym_iter` at one symbol, as far as it is shown; `nameLen` is
`KSYM_NAME_LEN`, `moduleLen` is `MODULE_NAME_LEN`. The name of the module is
empty for a symbol of the kernel itself. -/
structure KallsymIter where
  value : UInt64
  type : UInt8
  name : List UInt8
  moduleName : List UInt8
  type_ne : type ≠ 0
  name_lt : name.length < nameLen
  name_nul : 0 ∉ name
  module_lt : moduleName.length < moduleLen
  module_nul : 0 ∉ moduleName

/-- `KSYM_SYMBOL_LEN`, with `BITS_PER_LONG` 64. -/
def ksymSymbolLen : Nat := 18 + (nameLen - 1) + 2 * (64 * 3 / 10) + (moduleLen - 1) + 1

/-- The column of the name: `sizeof("%s+%#lx/%#lx [%s]") + 1`. -/
def nameColumn : Nat := 18 + 1

end

variable {nameLen moduleLen : Nat}

namespace KallsymIter

def fromName (iter : KallsymIter nameLen moduleLen) : List UInt8 :=
  iter.name ++ (if iter.moduleName = [] then [] else [0x09, 0x5b] ++ iter.moduleName ++ [0x5d]) ++
    [0x0a]

/-- `"%016lx %c %s\n"` or `"%016lx %c %s\t[%s]\n"` -/
def line (iter : KallsymIter nameLen moduleLen) : List UInt8 :=
  digits 16 16 iter.value.toNat ++ [0x20, iter.type, 0x20] ++ iter.fromName

end KallsymIter

/-- `seq_printf` into an empty buffer of `size` bytes. -/
def seqPrintf (size : Nat) (buf : Nat → UInt8) (text : List UInt8) : Nat → UInt8 :=
  write buf 0 (text.take (size - 1) ++ [0])

/-- `"0x"` or `"0X"` is passed over. -/
def skipRadix : List UInt8 → List UInt8
  | 0x30 :: 0x78 :: text => text
  | 0x30 :: 0x58 :: text => text
  | text => text

/-- `sscanf(…, "%lx", &addr)` -/
def scanHex (text : List UInt8) : UInt64 :=
  .ofNat (value 16 (numeral 16 (skipRadix (text.dropWhile IsSpace))))

-- ---------------------------------------------------------------------------
-- The search
-- ---------------------------------------------------------------------------

/-- The calls of `m->op`, with the position they are for. -/
inductive SeqCall
  | start (index : Nat)
  | show (index : Nat)
  | stop (index : Nat)
  deriving DecidableEq, Repr

/-- The loop from position `index` on, where the symbols `iters` are left;
`start` gives `NULL` when none is. -/
def kallsymsFrom (symbol : List UInt8) :
    (buf : Nat → UInt8) → (index : Nat) → (iters : List (KallsymIter nameLen moduleLen)) →
      UInt64 × List SeqCall
  | _, index, [] => (0, [.start index, .stop index])
  | buf, index, iter :: iters =>
    let buf := seqPrintf (ksymSymbolLen nameLen moduleLen) buf iter.line
    if strncmp (fun i => buf (nameColumn + i)) (str symbol) symbol.length = 0 then
      -- the byte behind the address becomes the end of the text
      let buf := Function.update buf 16 0
      (scanHex ((read buf 0 17).takeWhile (· ≠ 0)), [.start index, .show index, .stop index])
    else
      let (addr, calls) := kallsymsFrom symbol buf (index + 1) iters
      (addr, [.start index, .show index, .stop index] ++ calls)

/-- `buf` is what `kmalloc` gives. -/
def getSymbolFromKallsyms (iters : List (KallsymIter nameLen moduleLen)) (symbol : List UInt8)
    (buf : Nat → UInt8) : UInt64 × List SeqCall :=
  kallsymsFrom symbol buf 0 iters

-- ---------------------------------------------------------------------------
-- What is in the buffer
-- ---------------------------------------------------------------------------

theorem seqPrintf_shown {text : List UInt8} (h : text.length < size) (buf : Nat → UInt8)
    (hi : i ≤ text.length) : seqPrintf size buf text i = str text i := by
  have hlen : i < (text ++ [0]).length := by
    rw [List.length_append, List.length_singleton]
    omega
  have hbyte := write_within (a := 0) buf hlen
  rw [Nat.zero_add] at hbyte
  rw [seqPrintf, List.take_of_length_le (by omega), hbyte]
  rcases Nat.lt_or_eq_of_le hi with hlt | rfl
  · rw [List.getElem_append_left hlt, str_getElem hlt]
  · rw [List.getElem_append_right (Nat.le_refl _), str_end]
    simp

theorem skipRadix_digits {text : List UInt8} (h : ∀ c ∈ text, IsDigit 16 c = true) :
    skipRadix text = text := by
  unfold skipRadix
  split
  · exact absurd (h 0x78 (by simp)) (by decide)
  · exact absurd (h 0x58 (by simp)) (by decide)
  · rfl

theorem scanHex_digits (v : UInt64) : scanHex (digits 16 16 v.toNat) = v := by
  have hdigits : ∀ c ∈ digits 16 16 v.toNat, IsDigit 16 c = true :=
    isDigit_digits (by decide) (by decide) 16 v.toNat
  have hspace : (digits 16 16 v.toNat).dropWhile IsSpace = digits 16 16 v.toNat := by
    refine List.dropWhile_eq_self_iff.mpr fun hl => ?_
    rw [not_isSpace (UInt8.le_trans (by decide) (le_of_isDigit (hdigits _ (List.getElem_mem hl))))]
    exact Bool.false_ne_true
  have hlt : v.toNat < 16 ^ 16 := v.toNat_lt
  rw [scanHex, hspace, skipRadix_digits hdigits, numeral_digits (by decide) (by decide),
    value_digits (by decide) (by decide), Nat.mod_eq_of_lt hlt, UInt64.ofNat_toNat]

namespace KallsymIter

variable (iter : KallsymIter nameLen moduleLen)

theorem line_lt : iter.line.length < ksymSymbolLen nameLen moduleLen := by
  have hname := iter.name_lt
  have hmodule := iter.module_lt
  simp only [line, fromName, List.length_append, length_digits, ksymSymbolLen]
  split <;> simp <;> omega

def shown (buf : Nat → UInt8) : Nat → UInt8 :=
  seqPrintf (ksymSymbolLen nameLen moduleLen) buf iter.line

theorem shown_line (buf : Nat → UInt8) (hi : i ≤ iter.line.length) :
    iter.shown buf i = str iter.line i :=
  seqPrintf_shown iter.line_lt buf hi

theorem length_line : iter.line.length = nameColumn + iter.fromName.length := by
  simp [line, nameColumn]
  omega

theorem shown_name (buf : Nat → UInt8) (hi : i ≤ iter.fromName.length) :
    iter.shown buf (nameColumn + i) = str iter.fromName i := by
  rw [iter.shown_line buf (by rw [length_line]; omega), str, line, List.getElem?_append_right]
  · simp [nameColumn, str]
  · simp [nameColumn]

theorem shown_address (buf : Nat → UInt8) :
    scanHex ((read (Function.update (iter.shown buf) 16 0) 0 17).takeWhile (· ≠ 0)) =
      iter.value := by
  have hbytes : read (Function.update (iter.shown buf) 16 0) 0 16 =
      digits 16 16 iter.value.toNat := by
    refine List.ext_getElem (by simp) fun i hi _ => ?_
    rw [length_read] at hi
    have hline : i < iter.line.length := by
      rw [length_line, nameColumn]
      omega
    rw [getElem_read, Nat.zero_add, Function.update_of_ne (Nat.ne_of_lt hi),
      iter.shown_line buf (Nat.le_of_lt hline), str_getElem hline]
    simp [line, hi]
  have hnul : read (Function.update (iter.shown buf) 16 0) (0 + 16) 1 = [0] := by
    simp [Bytes.read]
  have hdigits : ∀ c ∈ digits 16 16 iter.value.toNat, decide (c ≠ 0) = true := by
    intro c hc
    refine decide_eq_true fun hzero => ?_
    have hdigit := isDigit_digits (by decide) (by decide) 16 iter.value.toNat c hc
    rw [hzero] at hdigit
    exact absurd hdigit (by decide)
  rw [read_add _ 0 16 1, hbytes, hnul, List.takeWhile_append_of_pos hdigits]
  simp [scanHex_digits]

end KallsymIter

-- ---------------------------------------------------------------------------
-- Which symbol is taken
-- ---------------------------------------------------------------------------

def Begins (symbol : List UInt8) (iter : KallsymIter nameLen moduleLen) : Bool :=
  symbol <+: iter.fromName

def visit (index : Nat) : List SeqCall := [.start index, .show index, .stop index]

/-- The calls from `index` on: one visit for each symbol up to the one that is
taken, and a last start if none is. -/
def visits (symbol : List UInt8) (index : Nat) (iters : List (KallsymIter nameLen moduleLen)) :
    List SeqCall :=
  (List.range' index (min (iters.findIdx (Begins symbol) + 1) iters.length)).flatMap visit ++
    if iters.any (Begins symbol) then []
    else [.start (index + iters.length), .stop (index + iters.length)]

theorem strncmp_shown (iter : KallsymIter nameLen moduleLen) (hnul : 0 ∉ symbol)
    (buf : Nat → UInt8) :
    strncmp (fun i => iter.shown buf (nameColumn + i)) (str symbol) symbol.length = 0 ↔
      Begins symbol iter = true := by
  rw [strncmp_begins (fun i hi => iter.shown_name buf hi) hnul, Begins, decide_eq_true_iff]

theorem kallsymsFrom_cons (iter : KallsymIter nameLen moduleLen) (hnul : 0 ∉ symbol)
    (buf : Nat → UInt8) (index : Nat) (iters : List (KallsymIter nameLen moduleLen)) :
    kallsymsFrom symbol buf index (iter :: iters) =
      if Begins symbol iter = true then (iter.value, visit index)
      else
        ((kallsymsFrom symbol (iter.shown buf) (index + 1) iters).1,
          visit index ++ (kallsymsFrom symbol (iter.shown buf) (index + 1) iters).2) := by
  have hcompare := strncmp_shown iter hnul buf
  have haddr := iter.shown_address buf
  unfold KallsymIter.shown at hcompare haddr ⊢
  rw [kallsymsFrom]
  dsimp only
  split
  case isTrue hsame => rw [if_pos (hcompare.mp hsame), haddr, visit]
  case isFalse hne => rw [if_neg (hcompare.not.mp hne), visit]

theorem visits_cons (symbol : List UInt8) (index : Nat) (iter : KallsymIter nameLen moduleLen)
    (iters : List (KallsymIter nameLen moduleLen)) : visits symbol index (iter :: iters) =
      if Begins symbol iter = true then visit index
      else visit index ++ visits symbol (index + 1) iters := by
  cases hbegins : Begins symbol iter with
  | true => simp [visits, List.findIdx_cons, hbegins, List.range'_one]
  | false =>
    have hnext : index + (iters.length + 1) = index + 1 + iters.length := by omega
    have hcount (n : Nat) : min (n + 1 + 1) (iters.length + 1) = min (n + 1) iters.length + 1 := by
      omega
    simp [visits, List.findIdx_cons, hbegins, hcount, List.range'_succ, hnext]

theorem kallsymsFrom_eq (hnul : 0 ∉ symbol) (iters : List (KallsymIter nameLen moduleLen))
    (buf : Nat → UInt8) (index : Nat) : kallsymsFrom symbol buf index iters =
      (((iters.find? (Begins symbol)).map KallsymIter.value).getD 0,
        visits symbol index iters) := by
  induction iters generalizing buf index with
  | nil => rfl
  | cons iter iters ih =>
    rw [kallsymsFrom_cons iter hnul, visits_cons, ih, List.find?_cons]
    cases Begins symbol iter <;> rfl

-- ---------------------------------------------------------------------------
-- Main theorem
-- ---------------------------------------------------------------------------

def symbolAddr (iters : List (KallsymIter nameLen moduleLen)) (symbol : List UInt8) : UInt64 :=
  ((iters.find? (·.name = symbol)).map KallsymIter.value).getD 0

def SeqCall.isShow : SeqCall → Bool
  | .show _ => true
  | _ => false

/-- The first `n` symbols are shown one after the other, and every start is
followed by its stop before the next. -/
structure InOrder (n : Nat) (calls : List SeqCall) : Prop where
  shows : calls.filter SeqCall.isShow = (List.range n).map .show
  stops : ∃ m, calls.filter (!·.isShow) = (List.range m).flatMap fun i => [.start i, .stop i]

structure ExactSearch (iters : List (KallsymIter nameLen moduleLen)) (symbol : List UInt8)
    (buf : Nat → UInt8) : Prop where
  addr : (getSymbolFromKallsyms iters symbol buf).1 = symbolAddr iters symbol
  order : ∃ n ≤ iters.length, InOrder n (getSymbolFromKallsyms iters symbol buf).2

theorem begins_of_name {iter : KallsymIter nameLen moduleLen} (h : iter.name = symbol) :
    Begins symbol iter = true := by
  rw [Begins, decide_eq_true_iff, KallsymIter.fromName, List.append_assoc, h]
  exact List.prefix_append ..

theorem find_name {iters : List (KallsymIter nameLen moduleLen)}
    (h : iters.find? (Begins symbol) = some iter) (hname : iter.name = symbol) :
    symbolAddr iters symbol = iter.value := by
  obtain ⟨-, before, after, rfl, hbefore⟩ := List.find?_eq_some_iff_append.mp h
  have hfind : (before ++ iter :: after).find? (·.name = symbol) = some iter := by
    refine List.find?_eq_some_iff_append.mpr ⟨decide_eq_true hname, before, after, rfl, ?_⟩
    intro x hx
    have hno := hbefore x hx
    rw [Bool.not_eq_true'] at hno ⊢
    refine decide_eq_false fun hname => ?_
    rw [begins_of_name hname] at hno
    cases hno
  rw [symbolAddr, hfind, Option.map_some, Option.getD_some]

theorem filter_visits (n : Nat) :
    ((List.range n).flatMap visit).filter SeqCall.isShow = (List.range n).map .show ∧
      ((List.range n).flatMap visit).filter (!·.isShow) =
        (List.range n).flatMap fun i => [.start i, .stop i] := by
  induction n with
  | zero => exact ⟨rfl, rfl⟩
  | succ n ih =>
    obtain ⟨hshows, hstops⟩ := ih
    simp only [List.range_succ, List.flatMap_append, List.filter_append, List.map_append, hshows,
      hstops]
    exact ⟨rfl, rfl⟩

theorem visits_inOrder (symbol : List UInt8) (iters : List (KallsymIter nameLen moduleLen)) :
    ∃ n ≤ iters.length, InOrder n (visits symbol 0 iters) := by
  refine ⟨min (iters.findIdx (Begins symbol) + 1) iters.length, Nat.min_le_right .., ?_⟩
  cases hany : iters.any (Begins symbol) with
  | true =>
    obtain ⟨hshows, hstops⟩ :=
      filter_visits (min (iters.findIdx (Begins symbol) + 1) iters.length)
    rw [visits, hany, if_pos rfl, List.append_nil, ← List.range_eq_range']
    exact ⟨hshows, _, hstops⟩
  | false =>
    have hall : iters.findIdx (Begins symbol) = iters.length := by
      refine List.findIdx_eq_length.mpr fun iter hiter => ?_
      exact Bool.eq_false_iff.mpr (List.any_eq_false.mp hany iter hiter)
    obtain ⟨hshows, hstops⟩ := filter_visits iters.length
    rw [visits, hany, hall, Nat.min_eq_right (Nat.le_succ _), ← List.range_eq_range', Nat.zero_add]
    refine ⟨?_, iters.length + 1, ?_⟩
    · rw [List.filter_append, hshows]
      exact List.append_nil _
    · rw [List.filter_append, hstops, List.range_succ, List.flatMap_append]
      rfl

theorem kallsyms_exact_iff (iters : List (KallsymIter nameLen moduleLen)) (buf : Nat → UInt8)
    (hnul : 0 ∉ symbol) : ExactSearch iters symbol buf ↔
      ∀ iter, iters.find? (Begins symbol) = some iter →
        iter.name = symbol ∨ iter.value = symbolAddr iters symbol := by
  have hsearch := kallsymsFrom_eq hnul iters buf 0
  constructor
  · rintro ⟨haddr, -⟩ iter hfind
    right
    rw [← haddr, getSymbolFromKallsyms, hsearch, hfind]
    rfl
  · intro h
    refine ⟨?_, ?_⟩
    · rw [getSymbolFromKallsyms, hsearch]
      cases hfind : iters.find? (Begins symbol) with
      | none =>
        have hnone : iters.find? (·.name = symbol) = none := by
          refine List.find?_eq_none.mpr fun iter hiter hname => ?_
          exact List.find?_eq_none.mp hfind iter hiter (begins_of_name (of_decide_eq_true hname))
        rw [symbolAddr, hnone]
      | some iter =>
        rcases h iter hfind with hname | hvalue
        · exact (find_name hfind hname).symm
        · exact hvalue
    · rw [getSymbolFromKallsyms, hsearch]
      exact visits_inOrder symbol iters

def sampleIter (value : UInt64) (name : List UInt8) (hlen : name.length < 128) (hnul : 0 ∉ name) :
    KallsymIter 128 56 where
  value := value
  type := 0x54
  name := name
  moduleName := []
  type_ne := by decide
  name_lt := hlen
  name_nul := hnul
  module_lt := by decide
  module_nul := by decide

def doExit : List UInt8 := [0x64, 0x6f, 0x5f, 0x65, 0x78, 0x69, 0x74]

theorem kallsyms_exact_iff_doExit :
    ExactSearch [sampleIter 0xffffffff81300000 doExit (by decide) (by decide)] doExit
      (fun _ => 0) := by
  refine (kallsyms_exact_iff _ _ (by decide)).mpr fun iter hfind => .inl ?_
  rw [List.mem_singleton.mp (List.mem_of_find?_eq_some hfind)]
  rfl

/-- `do_exits` comes before `do_exit`. -/
theorem kallsyms_exact_fails :
    ¬ ∀ (nameLen moduleLen : Nat) (iters : List (KallsymIter nameLen moduleLen))
      (symbol : List UInt8) (buf : Nat → UInt8), symbol ≠ [] → 0 ∉ symbol →
      ExactSearch iters symbol buf := by
  intro h
  have hexact := h 128 56
    [sampleIter 0xffffffff81200000 (doExit ++ [0x73]) (by decide) (by decide),
      sampleIter 0xffffffff81300000 doExit (by decide) (by decide)]
    doExit (fun _ => 0) (by decide) (by decide)
  have haddr := hexact.addr
  rw [getSymbolFromKallsyms, kallsymsFrom_eq (by decide)] at haddr
  exact absurd haddr (by decide)

end Yasched
