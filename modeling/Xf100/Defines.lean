/-
  File:      Xf100/Defines.lean
  Subject:   The constants of `xf100_defines.v`.

  The bit positions on the two info buses follow the chain of the source: each
  `_LSB` is the `_MSB` before it plus one, and every field is one bit wide.
-/
import Mathlib.Logic.Basic

namespace Xf100

/-! ## 1. The core -/

/-- `XF100_DATA_RAM_AW` -/
abbrev dataRamAw : Nat := 16
/-- `XF100_DATA_RAM_DP` -/
abbrev dataRamDp : Nat := 16384

/-! ## 2. Bits of the ALU info bus -/

abbrev aluInfoDefHasImm : Nat := 0
abbrev aluInfoDefAdd : Nat := aluInfoDefHasImm + 1
abbrev aluInfoDefSub : Nat := aluInfoDefAdd + 1
abbrev aluInfoDefSll : Nat := aluInfoDefSub + 1
abbrev aluInfoDefSlt : Nat := aluInfoDefSll + 1
abbrev aluInfoDefSltu : Nat := aluInfoDefSlt + 1
abbrev aluInfoDefXor : Nat := aluInfoDefSltu + 1
abbrev aluInfoDefSrl : Nat := aluInfoDefXor + 1
abbrev aluInfoDefSra : Nat := aluInfoDefSrl + 1
abbrev aluInfoDefOr : Nat := aluInfoDefSra + 1
abbrev aluInfoDefAnd : Nat := aluInfoDefOr + 1
abbrev aluInfoDefLui : Nat := aluInfoDefAnd + 1
/-- `ALU_INFO_WIDTH` -/
abbrev aluInfoWidth : Nat := aluInfoDefLui + 1

/-! ## 3. Bits of the AGU info bus -/

abbrev aguInfoDefHasImm : Nat := 0
abbrev aguInfoDefLb : Nat := aguInfoDefHasImm + 1
abbrev aguInfoDefLh : Nat := aguInfoDefLb + 1
abbrev aguInfoDefLw : Nat := aguInfoDefLh + 1
abbrev aguInfoDefLbu : Nat := aguInfoDefLw + 1
abbrev aguInfoDefLhu : Nat := aguInfoDefLbu + 1
abbrev aguInfoDefSb : Nat := aguInfoDefLhu + 1
abbrev aguInfoDefSh : Nat := aguInfoDefSb + 1
abbrev aguInfoDefSw : Nat := aguInfoDefSh + 1
/-- `AGU_INFO_WIDTH` -/
abbrev aguInfoWidth : Nat := aguInfoDefSw + 1

/-! ## 4. Reading an info bus -/

/-- The bus carries the operation bit `k` and no other; bit 0 is `HAS_IMM` and free, so
    `OnlyOp info 0` is the bus with no operation. -/
def OnlyOp {n : Nat} (info : BitVec n) (k : Nat) : Prop :=
  ∀ j, 0 < j → j < n → info.getLsbD j = decide (j = k)

instance {n : Nat} (info : BitVec n) (k : Nat) : Decidable (OnlyOp info k) :=
  decidable_of_iff (∀ j, j < n → 0 < j → info.getLsbD j = decide (j = k))
    ⟨fun h j h0 hj => h j hj h0, fun h j hj h0 => h j h0 hj⟩

/-- Some operation bit is set. -/
def HasOp {n : Nat} (info : BitVec n) : Prop := ∃ k, 0 < k ∧ info.getLsbD k = true

instance {n : Nat} (info : BitVec n) : Decidable (HasOp info) :=
  decidable_of_iff (∃ k, k < n ∧ 0 < k ∧ info.getLsbD k = true)
    ⟨fun ⟨k, _, h⟩ => ⟨k, h⟩, fun ⟨k, h⟩ => ⟨k, BitVec.lt_of_getLsbD h.2, h⟩⟩

/-- Without an operation every bit but `HAS_IMM` is clear. -/
theorem getLsbD_of_not_hasOp {n : Nat} {info : BitVec n} (h : ¬ HasOp info) {k : Nat}
    (h0 : 0 < k) : info.getLsbD k = false := by
  rw [Bool.eq_false_iff]
  intro hk
  exact h ⟨k, h0, hk⟩

theorem onlyOp_of_not_hasOp {n : Nat} {info : BitVec n} (h : ¬ HasOp info) : OnlyOp info 0 := by
  intro j h0 _
  rw [getLsbD_of_not_hasOp h h0, decide_eq_false (Nat.ne_of_gt h0)]

end Xf100
