/-
  File:      Xf100/Sync/Compare.lean
  Subject:   Comparison by a subtractor one bit wider than its operands.

  * `toInt_sub_signExtend` -- sign-extended by one bit, a difference cannot overflow, so its
    top bit is the signed comparison (`getLsbD_sub_signExtend`);
  * `getLsbD_sub_setWidth` -- zero-extended by one bit, the top bit is the borrow;
  * `slt_and_sub_eq_one_iff`, `ult_and_sub_eq_one_iff` -- the one pair that is less by a
    difference of 1, the wrap.
-/
import Mathlib.Data.BitVec

namespace Sync

variable {n : Nat}

section Widened

variable (x y : BitVec n)

/-- **No overflow**: one extra bit holds every difference of two `n`-bit signed values. -/
theorem toInt_sub_signExtend :
    (x.signExtend (n + 1) - y.signExtend (n + 1)).toInt = x.toInt - y.toInt := by
  have hx := x.toInt_signExtend_of_le (Nat.le_succ n)
  have hy := y.toInt_signExtend_of_le (Nat.le_succ n)
  have hxl := x.le_two_mul_toInt
  have hxu := x.two_mul_toInt_lt
  have hyl := y.le_two_mul_toInt
  have hyu := y.two_mul_toInt_lt
  have hpow : ((2 ^ (n + 1) : Nat) : Int) = 2 ^ n * 2 := by
    push_cast
    exact pow_succ 2 n
  rw [BitVec.toInt_sub, hx, hy]
  exact Int.bmod_eq_of_le_mul_two (by omega) (by omega)

/-- The top bit of the widened difference is the sign. -/
theorem getLsbD_sub_signExtend :
    (x.signExtend (n + 1) - y.signExtend (n + 1)).getLsbD n = x.slt y := by
  have hmsb := BitVec.msb_eq_getLsbD_last (x.signExtend (n + 1) - y.signExtend (n + 1))
  rw [Nat.add_sub_cancel] at hmsb
  rw [← hmsb, BitVec.msb_eq_toInt, toInt_sub_signExtend, BitVec.slt_eq_decide, decide_eq_decide]
  exact sub_neg

/-- **The borrow**: the top bit of the difference widened with zeros. -/
theorem getLsbD_sub_setWidth :
    (x.setWidth (n + 1) - y.setWidth (n + 1)).getLsbD n = x.ult y := by
  have hmsb := BitVec.msb_eq_getLsbD_last (x.setWidth (n + 1) - y.setWidth (n + 1))
  rw [Nat.add_sub_cancel] at hmsb
  have hx : x.toNat % 2 ^ (n + 1) = x.toNat :=
    Nat.mod_eq_of_lt (x.isLt.trans (Nat.pow_lt_pow_succ (by decide)))
  have hy : y.toNat % 2 ^ (n + 1) = y.toNat :=
    Nat.mod_eq_of_lt (y.isLt.trans (Nat.pow_lt_pow_succ (by decide)))
  rw [← hmsb, BitVec.msb_eq_decide, BitVec.ult_eq_decide, decide_eq_decide, BitVec.toNat_sub,
    BitVec.toNat_setWidth, BitVec.toNat_setWidth, hx, hy, Nat.add_sub_cancel, pow_succ]
  have hxl := x.isLt
  have hyl := y.isLt
  generalize 2 ^ n = p at *
  by_cases h : x.toNat < y.toNat
  · rw [Nat.mod_eq_of_lt (by omega)]
    omega
  · rw [show p * 2 - y.toNat + x.toNat = x.toNat - y.toNat + p * 2 by omega, Nat.add_mod_right,
      Nat.mod_eq_of_lt (by omega)]
    omega

end Widened

/-- A difference of 1 is a successor, or the wrap from the largest value to 0. -/
theorem toNat_of_sub_eq_one {a b : BitVec (n + 1)} (h : a - b = 1#(n + 1)) :
    (b.toNat + 1 < 2 ^ (n + 1) ∧ a.toNat = b.toNat + 1) ∨
      (b.toNat + 1 = 2 ^ (n + 1) ∧ a.toNat = 0) := by
  have hone : (1#(n + 1)).toNat = 1 := by
    rw [BitVec.toNat_ofNat, Nat.mod_eq_of_lt (Nat.one_lt_two_pow n.succ_ne_zero)]
  have ha : a.toNat = (b.toNat + 1) % 2 ^ (n + 1) := by
    rw [(BitVec.sub_eq_iff_eq_add.mp h : a = 1#(n + 1) + b), BitVec.toNat_add, hone, Nat.add_comm]
  have hb := b.isLt
  by_cases hlt : b.toNat + 1 < 2 ^ (n + 1)
  · exact Or.inl ⟨hlt, ha.trans (Nat.mod_eq_of_lt hlt)⟩
  · have htop : b.toNat + 1 = 2 ^ (n + 1) := by omega
    exact Or.inr ⟨htop, by rw [ha, htop, Nat.mod_self]⟩

/-- **Less by a difference of 1**: signed, that is the wrap from the largest to the least value. -/
theorem slt_and_sub_eq_one_iff (a b : BitVec (n + 1)) : (a.slt b = true ∧ a - b = 1#(n + 1)) ↔
    a = BitVec.intMin (n + 1) ∧ b = BitVec.intMax (n + 1) := by
  have hmin : (BitVec.intMin (n + 1)).toNat = 2 ^ n := BitVec.toNat_intMin_of_pos n.succ_pos
  have hmax : (BitVec.intMax (n + 1)).toNat = 2 ^ n - 1 := BitVec.toNat_intMax
  have hpow : 2 ^ (n + 1) = 2 ^ n * 2 := pow_succ 2 n
  have hpos := Nat.two_pow_pos n
  constructor
  · intro h
    obtain ⟨hlt, hsub⟩ := h
    rw [BitVec.slt_iff_toInt_lt, BitVec.toInt_eq_toNat_cond, BitVec.toInt_eq_toNat_cond] at hlt
    rcases toNat_of_sub_eq_one hsub with ⟨hb, ha⟩ | ⟨hb, ha⟩
    · constructor
      · apply BitVec.eq_of_toNat_eq
        rw [hmin]
        split at hlt <;> split at hlt <;> omega
      · apply BitVec.eq_of_toNat_eq
        rw [hmax]
        split at hlt <;> split at hlt <;> omega
    · rw [if_pos (by omega), if_neg (by omega)] at hlt
      omega
  · intro h
    obtain ⟨rfl, rfl⟩ := h
    constructor
    · rw [BitVec.slt_iff_toInt_lt, BitVec.toInt_eq_toNat_cond, BitVec.toInt_eq_toNat_cond, hmin,
        hmax, if_neg (by omega), if_pos (by omega)]
      omega
    · exact sub_sub_cancel _ _

/-- Unsigned, the wrap from the largest value to 0. -/
theorem ult_and_sub_eq_one_iff (a b : BitVec (n + 1)) : (a.ult b = true ∧ a - b = 1#(n + 1)) ↔
    a = 0#(n + 1) ∧ b = BitVec.allOnes (n + 1) := by
  constructor
  · intro h
    obtain ⟨hlt, hsub⟩ := h
    rw [BitVec.ult_iff_toNat_lt] at hlt
    rcases toNat_of_sub_eq_one hsub with ⟨hb, ha⟩ | ⟨hb, ha⟩
    · omega
    · constructor
      · exact BitVec.eq_of_toNat_eq ha
      · apply BitVec.eq_of_toNat_eq
        rw [BitVec.toNat_allOnes]
        omega
  · intro h
    obtain ⟨rfl, rfl⟩ := h
    constructor
    · rw [BitVec.ult_iff_toNat_lt, BitVec.toNat_allOnes, BitVec.toNat_zero]
      have hone := Nat.one_lt_two_pow n.succ_ne_zero
      omega
    · rw [← BitVec.neg_one_eq_allOnes, BitVec.zero_sub, BitVec.neg_neg]

end Sync
