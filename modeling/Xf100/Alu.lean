/-
  File:      Xf100/Alu.lean
  Subject:   The ALU, `xf100_exu_alu`.

  One 33-bit adder serves addition, subtraction and comparison; the result is the OR
  of gated terms. `alu_i_alu_op` and the two source enables are ports nothing reads.
  The write-back enable is the decoder's `rd_en`, whatever the operation.
-/
import Xf100.Defines
import Xf100.Sync.Bits

namespace Xf100

/-- The input ports of `xf100_exu_alu` it reads. -/
structure AluIn where
  aluIAluInfo : BitVec aluInfoWidth
  aluIRdEn : Bool
  aluIRs1 : BitVec 32
  aluIRs2 : BitVec 32
  aluIRdidx : BitVec 5
  aluIImm : BitVec 32

namespace Alu

variable (i : AluIn)

/-! ## 1. The operation bits -/

def immEn : Bool := i.aluIAluInfo.getLsbD aluInfoDefHasImm
def addOp : Bool := i.aluIAluInfo.getLsbD aluInfoDefAdd
def subOp : Bool := i.aluIAluInfo.getLsbD aluInfoDefSub
def sltOp : Bool := i.aluIAluInfo.getLsbD aluInfoDefSlt
def sltuOp : Bool := i.aluIAluInfo.getLsbD aluInfoDefSltu
def xorOp : Bool := i.aluIAluInfo.getLsbD aluInfoDefXor
def orOp : Bool := i.aluIAluInfo.getLsbD aluInfoDefOr
def andOp : Bool := i.aluIAluInfo.getLsbD aluInfoDefAnd
def luiOp : Bool := i.aluIAluInfo.getLsbD aluInfoDefLui

/-! ## 2. Adder, comparison, logic -/

def add : Bool := addOp i
def sub : Bool := subOp i || sltOp i || sltuOp i
def addsub : Bool := add i || sub i
def signFlag : Bool := addOp i || subOp i || sltOp i
def imm : BitVec 32 := i.aluIImm

def aluRs1 : BitVec 32 := i.aluIRs1
def aluRs2 : BitVec 32 := if immEn i then i.aluIImm else i.aluIRs2

def miscOp1 : BitVec 33 :=
  if signFlag i then BitVec.ofBool ((aluRs1 i).getLsbD 31) ++ aluRs1 i else 0#1 ++ aluRs1 i
def miscOp2 : BitVec 33 :=
  if signFlag i then BitVec.ofBool ((aluRs2 i).getLsbD 31) ++ aluRs2 i else 0#1 ++ aluRs2 i

def addOp1 : BitVec 33 := miscOp1 i
def addOp2 : BitVec 33 := if sub i then ~~~miscOp2 i else miscOp2 i
def addCi : BitVec 33 := 0#32 ++ BitVec.ofBool (sub i)
def adderRes : BitVec 33 := addOp1 i + addOp2 i + addCi i

def slt : Bool := sltOp i || sltuOp i
def sltRes : BitVec 32 := 0#31 ++ BitVec.ofBool ((adderRes i).getLsbD 32)

def andRes : BitVec 32 := aluRs1 i &&& aluRs2 i
def orRes : BitVec 32 := aluRs1 i ||| aluRs2 i
def xorRes : BitVec 32 := aluRs1 i ^^^ aluRs2 i

/-- `alu_o_wbck_data`. A comparison raises `addsub` as well as `slt`; the shifts have no term. -/
def wbckData : BitVec 32 :=
  (BitVec.fill 32 (addsub i) &&& (adderRes i).extractLsb 31 0)
    ||| (BitVec.fill 32 (slt i) &&& sltRes i)
    ||| (BitVec.fill 32 (andOp i) &&& andRes i)
    ||| (BitVec.fill 32 (orOp i) &&& orRes i)
    ||| (BitVec.fill 32 (xorOp i) &&& xorRes i)
    ||| (BitVec.fill 32 (luiOp i) &&& imm i)

end Alu

/-- The output ports of `xf100_exu_alu`. -/
structure AluOut where
  aluOWbckEn : Bool
  aluOWbckData : BitVec 32
  aluOWbckRdidx : BitVec 5

/-- **The ALU**, combinational. -/
def xf100ExuAlu (i : AluIn) : AluOut where
  aluOWbckEn := i.aluIRdEn
  aluOWbckData := Alu.wbckData i
  aluOWbckRdidx := i.aluIRdidx

end Xf100
