import Yasched.Inception

/-!
# What a trampoline holds and where it jumps back to

`setup_enter_schedule_hook` and `setup_enter_exit_hook` move the first
instructions of a function to a trampoline, the stub to the place behind them,
and exchange the first eight bytes of the function for a jump.

The number of bytes moved depends on where the function adjusts its stack
pointer. The 64 nops of the trampoline are an upper bound for it and the eight
bytes of the jump a lower one; the code checks neither.
-/

namespace Yasched

open Bytes Patch

/-- A trampoline to which `k` bytes were moved from `start` when memory was
`mem`, and memory `mem'` behind the point to which it jumps back. -/
structure Intact (code : Nat → UInt8) (stub : List UInt8) (mem mem' : Nat → UInt8)
    (start k resume : Nat) : Prop where
  prolog : read code 0 k = read mem start k
  stub : read code k stub.length = stub
  target : resume = start + k
  behind : ∀ x, resume ≤ x → mem' x = mem x ∧ ¬ (start ≤ x ∧ x < start + 8)

-- ---------------------------------------------------------------------------
-- Moving
-- ---------------------------------------------------------------------------

theorem assembled_stub (stub : List UInt8) (behind : Nat → UInt8) (hi : i < stub.length) :
    assembled stub behind (numOfNop + i) = stub[i] := by
  have hlt : numOfNop + i < (List.replicate numOfNop 0x90 ++ stub).length := by
    simp only [List.length_append, List.length_replicate]
    omega
  have hbyte := write_within (a := 0) behind hlt
  rw [Nat.zero_add] at hbyte
  rw [assembled, hbyte, List.getElem_append_right (by simp)]
  simp

theorem moveProlog_prolog (code : Nat → UInt8) (prolog : List UInt8) (n : Nat) :
    read (moveProlog code prolog n) 0 prolog.length = prolog := by
  have hread : read (moveProlog code prolog n) 0 prolog.length =
      read (write code 0 prolog) 0 prolog.length :=
    read_congr fun i hi => by rw [moveProlog, copy_outside _ (by omega)]
  rw [hread, read_write]

/-- The stub moves down over the nops that are left. -/
theorem moveProlog_stub (stub : List UInt8) (behind : Nat → UInt8) (h : prolog.length ≤ numOfNop) :
    read (moveProlog (assembled stub behind) prolog stub.length) prolog.length stub.length =
      stub := by
  apply List.ext_getElem (by simp)
  intro i _ hi
  rw [getElem_read, moveProlog, copy_down _ h hi, write_after _ (by omega),
    assembled_stub stub behind hi]

/-- The stub moves up, over itself: it would have to repeat itself at the
distance of the move. -/
theorem moveProlog_overlap {code : Nat → UInt8} (h : numOfNop ≤ prolog.length)
    (hd : prolog.length - numOfNop < stub.length)
    (hmoved : read (moveProlog code prolog stub.length) prolog.length stub.length = stub) :
    stub[prolog.length - numOfNop] = stub[0] := by
  have hbyte (i : Nat) (hi : i < stub.length) :
      moveProlog code prolog stub.length (prolog.length + i) = stub[i] := by
    have hread := getElem_read (a := prolog.length) (moveProlog code prolog stub.length)
      (n := stub.length) (i := i) (by simpa using hi)
    simp only [hmoved] at hread
    exact hread.symm
  calc stub[prolog.length - numOfNop]
      = moveProlog code prolog stub.length (prolog.length + (prolog.length - numOfNop)) :=
        (hbyte _ hd).symm
    _ = moveProlog code prolog stub.length (numOfNop + (prolog.length - numOfNop)) :=
        copy_up _ h hd
    _ = moveProlog code prolog stub.length (prolog.length + 0) := by
        rw [Nat.add_sub_of_le h, Nat.add_zero]
    _ = stub[0] := hbyte 0 (Nat.zero_lt_of_lt hd)

-- ---------------------------------------------------------------------------
-- One hook
-- ---------------------------------------------------------------------------

theorem jmpHex_length (code : Nat → UInt8) : (jmpHex code agent start).length = 8 := by
  simp [jmpHex]

theorem signature?_lt (h : signature? mem start = some i) : i < numOfNop :=
  List.mem_range.mp (List.mem_of_find?_eq_some h)

theorem intact_of_le {word stub : List UInt8} (behind : Nat → UInt8) (hword : word.length = 8)
    (hlo : 8 ≤ k) (hhi : k ≤ numOfNop) :
    Intact (moveProlog (assembled stub behind) (read mem start k) stub.length) stub mem
      (write mem start word) start k (start + k) := by
  have hlen : (read mem start k).length = k := length_read mem
  refine ⟨?_, ?_, rfl, ?_⟩
  · have hprolog := moveProlog_prolog (assembled stub behind) (read mem start k) stub.length
    rwa [hlen] at hprolog
  · have hstub := moveProlog_stub stub behind (hlen ▸ hhi)
    rwa [hlen] at hstub
  · intro x hx
    exact ⟨write_after mem (by omega), by omega⟩

theorem Intact.le {code : Nat → UInt8} {stub : List UInt8}
    (h : Intact code stub mem mem' start k resume) : 8 ≤ k := by
  obtain rfl := h.target
  have hout := (h.behind (start + k) (Nat.le_refl _)).2
  omega

/-- `__schedule_addr`, where the first call of `schedule` goes. -/
def scheduleEntry (env : Env) (mem : Nat → UInt8) : Nat :=
  let p := memmem mem env.schedule 64 [0xe8]
  kernelAddr (p + 5 + int32 mem (p + 1))

theorem setupEnterScheduleHook_moved (hnop : k.enterSchedule 0 = 0x90)
    (hret : setupEnterScheduleHook env k = (0, k')) :
    ∃ i word, signature? k.mem (scheduleEntry env k.mem) = some i ∧ word.length = 8 ∧
      k'.enterSchedule = moveProlog k.enterSchedule (read k.mem (scheduleEntry env k.mem) i) 14 ∧
      k'.mem = write k.mem (scheduleEntry env k.mem) word ∧
      k'.scheduleStart = scheduleEntry env k.mem + i := by
  simp only [setupEnterScheduleHook] at hret
  split at hret
  · cases hret
  split at hret
  case h_1 i hsig =>
    split at hret
    · cases hret
    · cases hret
      exact ⟨i, _, hsig, jmpHex_length _, rfl, rfl, rfl⟩
  case h_2 hsig =>
    rw [if_pos hnop] at hret
    cases hret

theorem setupEnterExitHook_moved (hnop : k.enterExit 0 = 0x90)
    (hret : setupEnterExitHook env k = (0, k')) :
    ∃ i word, signature? k.mem (env.procKallsyms "do_exit") = some i ∧ word.length = 8 ∧
      k'.enterExit =
        moveProlog k.enterExit (read k.mem (env.procKallsyms "do_exit") (i + 4)) 18 ∧
      k'.mem = write k.mem (env.procKallsyms "do_exit") word ∧
      k'.doExitReenterPoint = env.procKallsyms "do_exit" + i + 4 := by
  simp only [setupEnterExitHook] at hret
  split at hret
  · cases hret
  split at hret
  case h_1 i hsig =>
    split at hret
    · cases hret
    · cases hret
      exact ⟨i, _, hsig, jmpHex_length _, rfl, rfl, rfl⟩
  case h_2 hsig =>
    rw [if_pos hnop] at hret
    cases hret

-- ---------------------------------------------------------------------------
-- Both hooks
-- ---------------------------------------------------------------------------

def withTrampolines (env : Env) (k : Kernel) : Kernel :=
  { k with
    enterSchedule := (load env k.mem).enterSchedule
    enterExit := (load env k.mem).enterExit }

theorem enterExitStub_ne (env : Env) (hlo : 0 < d) (hhi : d < 4) :
    (enterExitStub env)[d]? ≠ (enterExitStub env)[0]? := by
  match d with
  | 1 | 2 | 3 => simp [enterExitStub, callIndirect]

theorem enterExit_overlap {code : Nat → UInt8} (hlo : numOfNop < k) (hhi : k < numOfNop + 4)
    (hprolog : prolog.length = k) :
    read (moveProlog code prolog (enterExitStub env).length) k (enterExitStub env).length ≠
      enterExitStub env := by
  subst hprolog
  intro hmoved
  have hlen : (enterExitStub env).length = 18 := rfl
  have hd : prolog.length - numOfNop < (enterExitStub env).length := by omega
  have hsame := moveProlog_overlap (Nat.le_of_lt hlo) hd hmoved
  apply enterExitStub_ne env (Nat.sub_pos_of_lt hlo)
    (Nat.sub_lt_left_of_lt_add (Nat.le_of_lt hlo) hhi)
  rw [List.getElem?_eq_getElem hd, List.getElem?_eq_getElem (by omega), hsame]

/-- A setup that succeeds leaves an intact trampoline exactly when the stack
pointer is adjusted at offset 8 or later in `__schedule`, and at one of the
offsets 4 to 60 in `do_exit`. -/
theorem trampolines_intact_iff (env : Env) (k : Kernel) :
    (∀ k', setupEnterScheduleHook env (withTrampolines env k) = (0, k') →
      ∃ i, signature? k.mem (scheduleEntry env k.mem) = some i ∧
        (Intact k'.enterSchedule (enterScheduleStub env) k.mem k'.mem (scheduleEntry env k.mem) i
          k'.scheduleStart ↔ 8 ≤ i)) ∧
    (∀ k', setupEnterExitHook env (withTrampolines env k) = (0, k') →
      ∃ i, signature? k.mem (env.procKallsyms "do_exit") = some i ∧
        (Intact k'.enterExit (enterExitStub env) k.mem k'.mem (env.procKallsyms "do_exit") (i + 4)
          k'.doExitReenterPoint ↔ 4 ≤ i ∧ i ≤ 60)) := by
  refine ⟨fun k' hret => ?_, fun k' hret => ?_⟩
  · obtain ⟨i, word, hsig, hword, hcode, hmem, hstart⟩ := setupEnterScheduleHook_moved rfl hret
    refine ⟨i, hsig, fun h => h.le, fun hi => ?_⟩
    rw [hcode, hmem, hstart]
    exact intact_of_le env.behindEnterSchedule hword hi (Nat.le_of_lt (signature?_lt hsig))
  · obtain ⟨i, word, hsig, hword, hcode, hmem, hstart⟩ := setupEnterExitHook_moved rfl hret
    have hlt : i < 64 := signature?_lt hsig
    refine ⟨i, hsig, fun h => ⟨Nat.le_of_add_le_add_right (b := 4) h.le, ?_⟩, fun hi => ?_⟩
    · by_contra hover
      have hstub := h.stub
      rw [hcode] at hstub
      exact enterExit_overlap (k := i + 4) (by simp [numOfNop]; omega) (by simp [numOfNop]; omega)
        (length_read _) hstub
    · rw [hcode, hmem, hstart]
      exact intact_of_le env.behindEnterExit hword (by omega) (by simp [numOfNop]; omega)

theorem trampolines_intact_sample :
    Intact (setupEnterScheduleHook sampleEnv (load sampleEnv sharedText)).2.enterSchedule
      (enterScheduleStub sampleEnv) sharedText
      (setupEnterScheduleHook sampleEnv (load sampleEnv sharedText)).2.mem
      (scheduleEntry sampleEnv sharedText) 8
      (setupEnterScheduleHook sampleEnv (load sampleEnv sharedText)).2.scheduleStart ∧
    Intact (setupEnterExitHook sampleEnv (load sampleEnv sharedText)).2.enterExit
      (enterExitStub sampleEnv) sharedText
      (setupEnterExitHook sampleEnv (load sampleEnv sharedText)).2.mem 0xffffffff81300000 12
      (setupEnterExitHook sampleEnv (load sampleEnv sharedText)).2.doExitReenterPoint := by
  have hschedule : (setupEnterScheduleHook sampleEnv (load sampleEnv sharedText)).1 = 0 := by
    decide +kernel
  have hexit : (setupEnterExitHook sampleEnv (load sampleEnv sharedText)).1 = 0 := by
    decide +kernel
  obtain ⟨hfirst, hsecond⟩ := trampolines_intact_iff sampleEnv (load sampleEnv sharedText)
  obtain ⟨i, hi, hiff⟩ := hfirst _ (Prod.ext hschedule rfl)
  obtain ⟨j, hj, hjff⟩ := hsecond _ (Prod.ext hexit rfl)
  have hsig : signature? sharedText (scheduleEntry sampleEnv sharedText) = some 8 := by
    decide +kernel
  have hsig' : signature? sharedText 0xffffffff81300000 = some 8 := by decide +kernel
  obtain rfl : i = 8 := Option.some.inj (hi.symm.trans hsig)
  obtain rfl : j = 8 := Option.some.inj (hj.symm.trans hsig')
  exact ⟨hiff.mpr (by decide), hjff.mpr (by decide)⟩

/-- `__schedule` saves one register before it adjusts the stack pointer,
`do_exit` goes on for 61 bytes. -/
def lopsidedText : Nat → UInt8 := image
  [{ point := 0xffffffff81500000, word := [0xe8, 0xfb, 0, 0, 0] },
   { point := 0xffffffff81500100, word := [0x55, 0x48, 0x83, 0xec, 0x30] },
   { point := 0xffffffff81300000, word := List.replicate 61 0x51 ++ [0x48, 0x83, 0xec, 0x40] }]

/-- The first resumes inside the jump, the second loses the stub. -/
theorem trampolines_intact_fails :
    ¬ (∀ env k k' i, setupEnterScheduleHook env (withTrampolines env k) = (0, k') →
        signature? k.mem (scheduleEntry env k.mem) = some i →
        Intact k'.enterSchedule (enterScheduleStub env) k.mem k'.mem (scheduleEntry env k.mem) i
          k'.scheduleStart) ∧
    ¬ (∀ env k k' i, setupEnterExitHook env (withTrampolines env k) = (0, k') →
        signature? k.mem (env.procKallsyms "do_exit") = some i →
        Intact k'.enterExit (enterExitStub env) k.mem k'.mem (env.procKallsyms "do_exit") (i + 4)
          k'.doExitReenterPoint) := by
  refine ⟨fun h => ?_, fun h => ?_⟩
  · have hret : (setupEnterScheduleHook sampleEnv (load sampleEnv lopsidedText)).1 = 0 := by
      decide +kernel
    have hsig : signature? lopsidedText (scheduleEntry sampleEnv lopsidedText) = some 1 := by
      decide +kernel
    have hle := (h sampleEnv (load sampleEnv lopsidedText) _ 1 (Prod.ext hret rfl) hsig).le
    exact absurd hle (by decide)
  · have hret : (setupEnterExitHook sampleEnv (load sampleEnv lopsidedText)).1 = 0 := by
      decide +kernel
    have hsig : signature? lopsidedText 0xffffffff81300000 = some 61 := by decide +kernel
    have hstub := (h sampleEnv (load sampleEnv lopsidedText) _ 61 (Prod.ext hret rfl) hsig).stub
    have hlost :
        read (setupEnterExitHook sampleEnv (load sampleEnv lopsidedText)).2.enterExit 65 18 ≠
          enterExitStub sampleEnv := by decide +kernel
    exact hlost hstub

end Yasched
