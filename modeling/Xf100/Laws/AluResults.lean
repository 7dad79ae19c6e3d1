/-
  File:      Xf100/Laws/AluResults.lean
  Subject:   What the ALU answers when its bus carries one operation, for all operands.

  * `results` -- addition, subtraction, the logic and LUI: exactly their value;
  * `comparator` -- the 33-bit subtractor decides both comparisons;
  * `setLessThan_iff` -- the answer to a comparison all the same carries the difference too,
    and is right for two kinds of operands only.
-/
import Xf100.AluLaws

namespace Xf100

namespace Alu

/-! ## 1. Operands and operations -/

/-- The second operand: the immediate, if the bus says there is one. -/
def operand2 (i : AluIn) : BitVec 32 :=
  if i.aluIAluInfo.getLsbD aluInfoDefHasImm then i.aluIImm else i.aluIRs2

/-- The operations whose result is one term of the answer. -/
inductive ResultOp where
  | add | sub | xor | or | and | lui
  deriving DecidableEq, Repr

/-- Their bits on the bus. -/
def ResultOp.bit : ResultOp → Nat
  | .add => aluInfoDefAdd
  | .sub => aluInfoDefSub
  | .xor => aluInfoDefXor
  | .or => aluInfoDefOr
  | .and => aluInfoDefAnd
  | .lui => aluInfoDefLui

/-- What each is for, `a` and `b` being the operands, modulo 2^32. -/
def ResultOp.value (a b imm : BitVec 32) : ResultOp → BitVec 32
  | .add => a + b
  | .sub => a - b
  | .xor => a ^^^ b
  | .or => a ||| b
  | .and => a &&& b
  | .lui => imm

/-- The two comparisons. -/
inductive CmpOp where
  | slt | sltu
  deriving DecidableEq, Repr

def CmpOp.bit : CmpOp → Nat
  | .slt => aluInfoDefSlt
  | .sltu => aluInfoDefSltu

/-- Signed and unsigned "less than". -/
def CmpOp.less (a b : BitVec 32) : CmpOp → Bool
  | .slt => a.slt b
  | .sltu => a.ult b

/-- The least and the greatest value of each order. -/
def CmpOp.least : CmpOp → BitVec 32
  | .slt => 0x80000000#32
  | .sltu => 0#32

def CmpOp.greatest : CmpOp → BitVec 32
  | .slt => 0x7FFFFFFF#32
  | .sltu => 0xFFFFFFFF#32

/-! ## 2. One term, one result -/

/-- **The ALU's results**: with ADD, SUB, XOR, OR, AND or LUI alone on the bus, the answer is the
    value of the operation, for all operands. -/
theorem results (o : ResultOp) (i : AluIn) (h : OnlyOp i.aluIAluInfo o.bit) :
    (xf100ExuAlu i).aluOWbckData = o.value i.aluIRs1 (operand2 i) i.aluIImm := by
  cases o with
  | add => exact wbckData_add h
  | sub => exact wbckData_sub h
  | xor => exact wbckData_xor h
  | or => exact wbckData_or h
  | and => exact wbckData_and h
  | lui => exact wbckData_lui h

/-- 2^31 - 1 and 1, added. -/
theorem results_add_overflow : (xf100ExuAlu ⟨0b10#12, true, 0x7FFFFFFF#32, 1#32, 1#5,
    0#32⟩).aluOWbckData = 0x80000000#32 :=
  results .add _ (by decide)

/-! ## 3. The comparator -/

/-- **The subtractor on a signed comparison**: no overflow, the sign is the comparison. -/
structure ComparesSigned (i : AluIn) : Prop where
  difference : (adderRes i).toInt = (aluRs1 i).toInt - (aluRs2 i).toInt
  bit : (adderRes i).getLsbD 32 = true ↔ (aluRs1 i).toInt < (aluRs2 i).toInt
  slt_res : sltRes i = if (aluRs1 i).toInt < (aluRs2 i).toInt then 1#32 else 0#32

/-- **On an unsigned one**: the top bit is the borrow, the rest the difference. -/
structure ComparesUnsigned (i : AluIn) : Prop where
  bit : (adderRes i).getLsbD 32 = true ↔ (aluRs1 i).toNat < (aluRs2 i).toNat
  difference : (adderRes i).extractLsb 31 0 = aluRs1 i - aluRs2 i
  slt_res : sltRes i = if (aluRs1 i).toNat < (aluRs2 i).toNat then 1#32 else 0#32

theorem comparesSigned {i : AluIn} (h : OnlyOp i.aluIAluInfo aluInfoDefSlt) :
    ComparesSigned i := by
  have hbit : (adderRes i).getLsbD 32 = (aluRs1 i).slt (aluRs2 i) := by
    rw [adderRes_slt h]
    exact Sync.getLsbD_sub_signExtend _ _
  constructor
  · rw [adderRes_slt h]
    exact Sync.toInt_sub_signExtend _ _
  · rw [hbit]
    exact BitVec.slt_iff_toInt_lt
  · rw [sltRes_eq, hbit, BitVec.slt_eq_decide]
    simp only [decide_eq_true_eq]

theorem comparesUnsigned {i : AluIn} (h : OnlyOp i.aluIAluInfo aluInfoDefSltu) :
    ComparesUnsigned i := by
  have hbit : (adderRes i).getLsbD 32 = (aluRs1 i).ult (aluRs2 i) := by
    rw [adderRes_sltu h]
    exact Sync.getLsbD_sub_setWidth _ _
  have hsub : sub i = true := (sub_of_onlyOp h).trans (by decide)
  constructor
  · rw [hbit]
    exact BitVec.ult_iff_toNat_lt
  · exact adderRes_sub hsub
  · rw [sltRes_eq, hbit, BitVec.ult_eq_decide]
    simp only [decide_eq_true_eq]

/-- **The widened subtractor is a comparator**, for all operands and both comparisons. -/
theorem comparator (i : AluIn) :
    (OnlyOp i.aluIAluInfo aluInfoDefSlt → ComparesSigned i) ∧
      (OnlyOp i.aluIAluInfo aluInfoDefSltu → ComparesUnsigned i) :=
  ⟨comparesSigned, comparesUnsigned⟩

/-- -2^31 against 2^31 - 1: the two ends of the signed order. -/
theorem comparator_ends : ComparesSigned ⟨0b10000#12, true, 0x80000000#32, 0x7FFFFFFF#32, 1#5,
    0#32⟩ :=
  (comparator _).1 (by decide)

/-! ## 4. Set less than -/

/-- The answer to a comparison: the difference ORed with the outcome. -/
theorem wbckData_less {c : CmpOp} {i : AluIn} (h : OnlyOp i.aluIAluInfo c.bit) :
    wbckData i = (aluRs1 i - aluRs2 i) |||
      (if c.less (aluRs1 i) (aluRs2 i) then 1#32 else 0#32) := by
  cases c with
  | slt =>
      rw [wbckData_cmp (Or.inl h), (comparesSigned h).slt_res, CmpOp.less, BitVec.slt_eq_decide]
      simp only [decide_eq_true_eq]
  | sltu =>
      rw [wbckData_cmp (Or.inr h), (comparesUnsigned h).slt_res, CmpOp.less, BitVec.ult_eq_decide]
      simp only [decide_eq_true_eq]

/-- Less by a difference of 1 is the wrap around the order. -/
theorem CmpOp.less_and_sub_iff (c : CmpOp) (a b : BitVec 32) :
    (c.less a b = true ∧ a - b = 1#32) ↔ a = c.least ∧ b = c.greatest := by
  cases c with
  | slt => exact Sync.slt_and_sub_eq_one_iff a b
  | sltu => exact Sync.ult_and_sub_eq_one_iff a b

/-- **Set less than.** The answer is the outcome of the comparison if and only if the operands are
    equal, or the least and the greatest value of the order. -/
theorem setLessThan_iff (c : CmpOp) (i : AluIn) (h : OnlyOp i.aluIAluInfo c.bit) :
    (xf100ExuAlu i).aluOWbckData = (if c.less i.aluIRs1 (operand2 i) then 1#32 else 0#32) ↔
      i.aluIRs1 = operand2 i ∨ (i.aluIRs1 = c.least ∧ operand2 i = c.greatest) := by
  have hdata : (xf100ExuAlu i).aluOWbckData = (i.aluIRs1 - operand2 i) |||
      (if c.less i.aluIRs1 (operand2 i) then 1#32 else 0#32) := wbckData_less h
  have hzero : i.aluIRs1 - operand2 i = 0#32 ↔ i.aluIRs1 = operand2 i := sub_eq_zero
  rw [hdata, Sync.or_bit_eq_iff, c.less_and_sub_iff, hzero]

/-- 5 against 5. -/
theorem setLessThan_equal : (xf100ExuAlu ⟨0b10000#12, true, 5#32, 5#32, 1#5, 0#32⟩).aluOWbckData =
    0#32 :=
  (setLessThan_iff .slt ⟨0b10000#12, true, 5#32, 5#32, 1#5, 0#32⟩ (by decide)).mpr
    (Or.inl rfl)

/-- 0 against 2: the answer is the difference, with bit 0 set. -/
theorem setLessThan_lost : ¬ ∀ (c : CmpOp) (i : AluIn), OnlyOp i.aluIAluInfo c.bit →
    (xf100ExuAlu i).aluOWbckData = if c.less i.aluIRs1 (operand2 i) then 1#32 else 0#32 := by
  intro h
  have h0 := h .slt ⟨0b10000#12, true, 0#32, 2#32, 1#5, 0#32⟩ (by decide)
  revert h0
  decide

end Alu

end Xf100
