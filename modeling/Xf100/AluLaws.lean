/-
  File:      Xf100/AluLaws.lean
  Subject:   What the ALU computes when its bus carries one operation, and when it carries none.

  * `adderRes_add`, `adderRes_sub` -- the low half of the 33-bit adder is the 32-bit sum or
    difference: neither the extension bit nor the carry-in reaches further than it should;
  * `wbckData_add` to `wbckData_lui` -- one operation on the bus, one result;
  * `wbckData_none` -- no operation on the bus, all zeros;
  * `adderRes_slt`, `adderRes_sltu`, `wbckData_cmp` -- a comparison on the bus.
-/
import Xf100.Alu
import Xf100.Sync.Compare

namespace Xf100

open Sync

namespace Alu

variable {i : AluIn}

/-! ## 1. The adder -/

theorem setWidth_miscOp1 : (miscOp1 i).setWidth 32 = aluRs1 i := by
  unfold miscOp1
  split <;> exact BitVec.extractLsb'_append_eq_right

theorem setWidth_miscOp2 : (miscOp2 i).setWidth 32 = aluRs2 i := by
  unfold miscOp2
  split <;> exact BitVec.extractLsb'_append_eq_right

theorem extractLsb_adderRes :
    (adderRes i).extractLsb 31 0 =
      aluRs1 i + (addOp2 i).setWidth 32 + (addCi i).setWidth 32 := by
  have h : (adderRes i).extractLsb 31 0 = (adderRes i).setWidth 32 := by
    apply BitVec.eq_of_getLsbD_eq
    intro k hk
    rw [BitVec.getLsbD_extractLsb, BitVec.getLsbD_setWidth, Nat.zero_add]
  rw [h, adderRes, BitVec.setWidth_add _ _ (by decide), BitVec.setWidth_add _ _ (by decide),
    addOp1, setWidth_miscOp1]

/-- **Addition**: with no subtracting operation the low half is the sum. -/
theorem adderRes_add (h : sub i = false) :
    (adderRes i).extractLsb 31 0 = aluRs1 i + aluRs2 i := by
  rw [extractLsb_adderRes, addOp2, addCi, h]
  simp [setWidth_miscOp2]

/-- **Subtraction**: the operand is inverted and the carry-in makes up the one. -/
theorem adderRes_sub (h : sub i = true) :
    (adderRes i).extractLsb 31 0 = aluRs1 i - aluRs2 i := by
  rw [extractLsb_adderRes, addOp2, addCi, h, if_pos rfl, BitVec.setWidth_not (by decide),
    setWidth_miscOp2, BitVec.sub_eq_add_neg, BitVec.neg_eq_not_add, BitVec.add_assoc]
  rfl

/-- The two extensions of an operand to 33 bits. -/
theorem extend_signed (x : BitVec 32) : BitVec.ofBool (x.getLsbD 31) ++ x = x.signExtend 33 := by
  rw [show BitVec.ofBool (x.getLsbD 31) = BitVec.fill 1 (x.getLsbD 31) by
    cases x.getLsbD 31 <;> rfl]
  exact fill_append_eq_signExtend x

theorem extend_unsigned (x : BitVec 32) : 0#1 ++ x = x.setWidth 33 :=
  (BitVec.setWidth_eq_append (by decide)).symm

/-- The whole adder subtracts, at 33 bits. -/
theorem adderRes_eq_sub (h : sub i = true) : adderRes i = miscOp1 i - miscOp2 i := by
  unfold adderRes addOp1 addOp2 addCi
  rw [h, if_pos rfl, BitVec.sub_eq_add_neg, BitVec.neg_eq_not_add, BitVec.add_assoc]
  rfl

/-! ## 2. One operation on the bus -/

/-- The result, every gate read as a choice. -/
theorem wbckData_eq : wbckData i =
    (if addOp i || (subOp i || sltOp i || sltuOp i) then (adderRes i).extractLsb 31 0 else 0#32)
      ||| (if sltOp i || sltuOp i then sltRes i else 0#32)
      ||| (if andOp i then andRes i else 0#32)
      ||| (if orOp i then orRes i else 0#32)
      ||| (if xorOp i then xorRes i else 0#32)
      ||| (if luiOp i then imm i else 0#32) := by
  simp only [wbckData, fill_and]
  rfl

/-- The operation wires of a bus that carries one operation. -/
theorem ops_of_onlyOp {k : Nat} (h : OnlyOp i.aluIAluInfo k) :
    addOp i = decide (aluInfoDefAdd = k) ∧ subOp i = decide (aluInfoDefSub = k) ∧
      sltOp i = decide (aluInfoDefSlt = k) ∧ sltuOp i = decide (aluInfoDefSltu = k) ∧
      xorOp i = decide (aluInfoDefXor = k) ∧ orOp i = decide (aluInfoDefOr = k) ∧
      andOp i = decide (aluInfoDefAnd = k) ∧ luiOp i = decide (aluInfoDefLui = k) :=
  ⟨h _ (by decide) (by decide), h _ (by decide) (by decide), h _ (by decide) (by decide),
    h _ (by decide) (by decide), h _ (by decide) (by decide), h _ (by decide) (by decide),
    h _ (by decide) (by decide), h _ (by decide) (by decide)⟩

/-- **One operation on the bus opens its own gates.** -/
theorem wbckData_of_onlyOp {k : Nat} (h : OnlyOp i.aluIAluInfo k) : wbckData i =
    (if aluInfoDefAdd = k ∨ aluInfoDefSub = k ∨ aluInfoDefSlt = k ∨ aluInfoDefSltu = k then
        (adderRes i).extractLsb 31 0 else 0#32)
      ||| (if aluInfoDefSlt = k ∨ aluInfoDefSltu = k then sltRes i else 0#32)
      ||| (if aluInfoDefAnd = k then andRes i else 0#32)
      ||| (if aluInfoDefOr = k then orRes i else 0#32)
      ||| (if aluInfoDefXor = k then xorRes i else 0#32)
      ||| (if aluInfoDefLui = k then imm i else 0#32) := by
  obtain ⟨h1, h2, h3, h4, h5, h6, h7, h8⟩ := ops_of_onlyOp h
  rw [wbckData_eq, h1, h2, h3, h4, h5, h6, h7, h8]
  simp only [Bool.or_eq_true, decide_eq_true_eq, or_assoc]

/-- The adder subtracts for a subtraction and for both comparisons. -/
theorem sub_of_onlyOp {k : Nat} (h : OnlyOp i.aluIAluInfo k) :
    sub i = decide (aluInfoDefSub = k ∨ aluInfoDefSlt = k ∨ aluInfoDefSltu = k) := by
  obtain ⟨-, h2, h3, h4, -⟩ := ops_of_onlyOp h
  rw [sub, h2, h3, h4]
  simp only [Bool.decide_or, Bool.or_assoc]

/-- **No operation, no result**: whatever the operands are. -/
theorem wbckData_none (h : OnlyOp i.aluIAluInfo 0) : wbckData i = 0#32 := by
  rw [wbckData_of_onlyOp h]
  simp

theorem wbckData_add (h : OnlyOp i.aluIAluInfo aluInfoDefAdd) :
    wbckData i = aluRs1 i + aluRs2 i := by
  have hsub : sub i = false := (sub_of_onlyOp h).trans (by decide)
  rw [wbckData_of_onlyOp h, adderRes_add hsub]
  simp

theorem wbckData_sub (h : OnlyOp i.aluIAluInfo aluInfoDefSub) :
    wbckData i = aluRs1 i - aluRs2 i := by
  have hsub : sub i = true := (sub_of_onlyOp h).trans (by decide)
  rw [wbckData_of_onlyOp h, adderRes_sub hsub]
  simp

theorem wbckData_xor (h : OnlyOp i.aluIAluInfo aluInfoDefXor) :
    wbckData i = aluRs1 i ^^^ aluRs2 i := by
  rw [wbckData_of_onlyOp h]
  simp [xorRes]

theorem wbckData_or (h : OnlyOp i.aluIAluInfo aluInfoDefOr) :
    wbckData i = aluRs1 i ||| aluRs2 i := by
  rw [wbckData_of_onlyOp h]
  simp [orRes]

theorem wbckData_and (h : OnlyOp i.aluIAluInfo aluInfoDefAnd) :
    wbckData i = aluRs1 i &&& aluRs2 i := by
  rw [wbckData_of_onlyOp h]
  simp [andRes]

theorem wbckData_lui (h : OnlyOp i.aluIAluInfo aluInfoDefLui) : wbckData i = i.aluIImm := by
  rw [wbckData_of_onlyOp h]
  simp [imm]

/-! ## 3. The comparator -/

/-- **A signed comparison subtracts the sign-extended operands.** -/
theorem adderRes_slt (h : OnlyOp i.aluIAluInfo aluInfoDefSlt) :
    adderRes i = (aluRs1 i).signExtend 33 - (aluRs2 i).signExtend 33 := by
  have hsub : sub i = true := (sub_of_onlyOp h).trans (by decide)
  obtain ⟨-, -, h3, -⟩ := ops_of_onlyOp h
  have hsign : signFlag i = true := by simp [signFlag, h3]
  rw [adderRes_eq_sub hsub, miscOp1, miscOp2, if_pos hsign, if_pos hsign, extend_signed,
    extend_signed]

/-- **An unsigned one the zero-extended operands.** -/
theorem adderRes_sltu (h : OnlyOp i.aluIAluInfo aluInfoDefSltu) :
    adderRes i = (aluRs1 i).setWidth 33 - (aluRs2 i).setWidth 33 := by
  have hsub : sub i = true := (sub_of_onlyOp h).trans (by decide)
  obtain ⟨h1, h2, h3, -⟩ := ops_of_onlyOp h
  have hsign : ¬ signFlag i = true := by simp [signFlag, h1, h2, h3]
  rw [adderRes_eq_sub hsub, miscOp1, miscOp2, if_neg hsign, if_neg hsign, extend_unsigned,
    extend_unsigned]

/-- `slt_res` is the top bit of the adder. -/
theorem sltRes_eq : sltRes i = if (adderRes i).getLsbD 32 then 1#32 else 0#32 := by
  unfold sltRes
  cases (adderRes i).getLsbD 32 <;> rfl

/-- **A comparison on the bus** raises both the adder's gate and the comparison's. -/
theorem wbckData_cmp
    (h : OnlyOp i.aluIAluInfo aluInfoDefSlt ∨ OnlyOp i.aluIAluInfo aluInfoDefSltu) :
    wbckData i = (aluRs1 i - aluRs2 i) ||| sltRes i := by
  rcases h with h | h
  · have hsub : sub i = true := (sub_of_onlyOp h).trans (by decide)
    rw [wbckData_of_onlyOp h, adderRes_sub hsub]
    simp
  · have hsub : sub i = true := (sub_of_onlyOp h).trans (by decide)
    rw [wbckData_of_onlyOp h, adderRes_sub hsub]
    simp

end Alu

end Xf100
