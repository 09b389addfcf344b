import Mathlib.Tactic.Ring

/-!
# Relative jumps

A jump with a displacement of `d` bits goes to the address behind it plus the
displacement, taken with its sign; addresses have `w` bits. `unsignedTarget`
takes it without its sign and sets all bits above the displacement's, which
comes to the same for targets where these bits are set.
-/

namespace Yasched.Rel

variable {w d k : Nat} {next a b t : BitVec w}

/-- Where a jump goes whose last byte is before `next`. -/
def target (next : BitVec w) (field : BitVec d) : BitVec w := next + field.signExtend w

def disp (d : Nat) (next t : BitVec w) : BitVec d := (t - next).setWidth d

def highBits (w d : Nat) : BitVec w := BitVec.allOnes w <<< d

def unsignedTarget (next : BitVec w) (field : BitVec d) : BitVec w :=
  highBits w d ||| (field.setWidth w + next)

/-- Among the last `2 ^ k` addresses. -/
def Top (k : Nat) (a : BitVec w) : Prop := 2 ^ w ≤ a.toNat + 2 ^ k

instance (k : Nat) (a : BitVec w) : Decidable (Top k a) := inferInstanceAs (Decidable (_ ≤ _))

theorem Top.mono (h : Top k a) (hle : k ≤ d) : Top d a :=
  Nat.le_trans h (Nat.add_le_add_left (Nat.pow_le_pow_right (by decide) hle) _)

-- ---------------------------------------------------------------------------
-- With the sign
-- ---------------------------------------------------------------------------

theorem Top.toInt (h : Top k a) (hk : k < w) : a.toInt = a.toNat - 2 ^ w := by
  have hpow : 2 ^ (k + 1) ≤ 2 ^ w := Nat.pow_le_pow_right (by decide) hk
  rw [Nat.pow_succ] at hpow
  unfold Top at h
  rw [BitVec.toInt_eq_toNat_cond, if_neg (by omega)]
  push_cast
  rfl

/-- Two of the last `2 ^ k` addresses are less than `2 ^ k` apart. -/
theorem Top.toInt_sub (ha : Top k a) (hb : Top k b) (hk : k < w) :
    -2 ^ k < (a - b).toInt ∧ (a - b).toInt < 2 ^ k := by
  have hpow : 2 ^ (k + 1) ≤ 2 ^ w := Nat.pow_le_pow_right (by decide) hk
  rw [Nat.pow_succ] at hpow
  have hlt := a.isLt
  have hlt' := b.isLt
  have heq := ha.toInt hk
  have heq' := hb.toInt hk
  unfold Top at ha hb
  have hcast : ((2 ^ k : Nat) : Int) = 2 ^ k := by push_cast; rfl
  have hsmall : a.toInt - b.toInt < 2 ^ k ∧ -2 ^ k < a.toInt - b.toInt := by
    rw [heq, heq', ← hcast]
    constructor <;> omega
  obtain ⟨hhigh, hlow⟩ := hsmall
  have hsame : (a - b).toInt = a.toInt - b.toInt := by
    rw [BitVec.toInt_sub]
    refine Int.bmod_eq_of_le_mul_two ?_ ?_ <;> omega
  rw [hsame]
  exact ⟨hlow, hhigh⟩

theorem target_of_fits (hd : d ≤ w) (hlow : -2 ^ d ≤ (t - next).toInt * 2)
    (hhigh : (t - next).toInt * 2 < 2 ^ d) : target next (disp d next t) = t := by
  have hdvd : 2 ^ d ∣ 2 ^ w := Nat.pow_dvd_pow 2 hd
  have hsame : (disp d next t).signExtend w = t - next := by
    apply BitVec.eq_of_toInt_eq
    calc ((disp d next t).signExtend w).toInt
        = (disp d next t).toInt := BitVec.toInt_signExtend_of_le hd
      _ = Int.bmod (t - next).toNat (2 ^ d) := BitVec.toInt_setWidth _
      _ = Int.bmod (t - next).toInt (2 ^ d) := by
        rw [BitVec.toInt_eq_toNat_bmod, Int.bmod_bmod_of_dvd hdvd]
      _ = (t - next).toInt := Int.bmod_eq_of_le_mul_two (by push_cast; exact hlow)
        (by push_cast; exact hhigh)
  rw [target, hsame, BitVec.add_comm, BitVec.sub_add_cancel]

theorem target_disp (hk : k < w) (hnext : Top k next) (ht : Top k t) :
    target next (disp (k + 1) next t) = t := by
  obtain ⟨hlow, hhigh⟩ := ht.toInt_sub hnext hk
  have hpow : (2 : Int) ^ (k + 1) = 2 ^ k * 2 := Int.pow_succ 2 k
  refine target_of_fits hk ?_ ?_ <;> rw [hpow] <;> omega

-- ---------------------------------------------------------------------------
-- Without it
-- ---------------------------------------------------------------------------

@[simp] theorem getLsbD_highBits (w d i : Nat) :
    (highBits w d).getLsbD i = (decide (i < w) && decide (d ≤ i)) := by
  by_cases hd : d ≤ i
  · have hlt : i < w → i - d < w := fun hi => Nat.lt_of_le_of_lt (Nat.sub_le i d) hi
    simpa [highBits, hd, Nat.not_lt.mpr hd] using hlt
  · simp [highBits, hd, Nat.not_le.mp hd]

theorem highBits_or_low (x : BitVec w) (d : Nat) :
    (x &&& ~~~highBits w d) ||| highBits w d = highBits w d ||| x := by
  refine BitVec.eq_of_getLsbD_eq fun i hi => ?_
  rw [BitVec.getLsbD_or, BitVec.getLsbD_and, BitVec.getLsbD_not, BitVec.getLsbD_or]
  cases (highBits w d).getLsbD i <;> simp [hi]

theorem Top.getLsbD (h : Top d a) (hi : d ≤ i) (hw : i < w) : a.getLsbD i = true := by
  have hsmall : (~~~a).toNat < 2 ^ i := by
    have hpow : 2 ^ d ≤ 2 ^ i := Nat.pow_le_pow_right (by decide) hi
    unfold Top at h
    rw [BitVec.toNat_not]
    omega
  have hclear : (~~~a).getLsbD i = false := Nat.testBit_lt_two_pow hsmall
  rw [BitVec.getLsbD_not] at hclear
  simpa [hw] using hclear

/-- The low bits of the sum are those of the target, whatever carries out of
them. -/
theorem unsignedTarget_disp (hd : d ≤ w) (ht : Top d t) :
    unsignedTarget next (disp d next t) = t := by
  have hlow : ((disp d next t).setWidth w + next).setWidth d = t.setWidth d := by
    rw [BitVec.setWidth_add _ _ hd, BitVec.setWidth_setWidth_of_le _ hd, BitVec.setWidth_eq, disp,
      ← BitVec.setWidth_add _ _ hd, BitVec.sub_add_cancel]
  refine BitVec.eq_of_getLsbD_eq fun i hi => ?_
  rw [unsignedTarget, BitVec.getLsbD_or, getLsbD_highBits]
  by_cases hdi : d ≤ i
  · simp [hi, hdi, ht.getLsbD hdi hi]
  · have hbit := congrArg (BitVec.getLsbD · i) hlow
    simpa [hdi, Nat.not_le.mp hdi] using hbit

end Yasched.Rel
