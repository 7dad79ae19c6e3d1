/-
  File:      Xf100/Exu.lean
  Subject:   The write-back block `xf100_exu_wbck` and the wiring of `xf100_exu`.

  `exu_i_instr` is declared as an output and driven by nothing inside, so it is the
  instruction input. The net `agu_wbck_idx` feeds the write-back block and has no driver:
  the AGU's index goes to the misspelt `agu_wbck_rdidx` instead. Its value is the free
  argument `aguWbckIdx`.
-/
import Xf100.Agu
import Xf100.Alu
import Xf100.Decode
import Xf100.Regfile

namespace Xf100

/-! ## 1. The write-back block -/

/-- The input ports of `xf100_exu_wbck`. -/
structure WbckIn where
  wbckIWbckEn0 : Bool
  wbckIWbckData0 : BitVec 32
  wbckIWbckRdidx0 : BitVec 5
  wbckIWbckEn1 : Bool
  wbckIWbckData1 : BitVec 32
  wbckIWbckRdidx1 : BitVec 5

/-- The output ports of `xf100_exu_wbck`. -/
structure WbckOut where
  wbckOWbckEn : Bool
  wbckOWbckData : BitVec 32
  wbckOWbckRdidx : BitVec 5

/-- **The write-back block**: it ORs the two ports without looking at their enables. -/
def xf100ExuWbck (i : WbckIn) : WbckOut where
  wbckOWbckEn := i.wbckIWbckEn0 || i.wbckIWbckEn1
  wbckOWbckData := i.wbckIWbckData0 ||| i.wbckIWbckData1
  wbckOWbckRdidx := i.wbckIWbckRdidx0 ||| i.wbckIWbckRdidx1

/-! ## 2. The wiring -/

namespace Exu

variable (rf : Regfile) (exuIInstr : BitVec 32)

/-- The outputs of `u_xf100_exu_decode`. -/
def dec : DecodeOut := xf100ExuDecode exuIInstr

def rfRs1 : BitVec 32 :=
  Regfile.rfOReadData1 rf (dec exuIInstr).decORs1En (dec exuIInstr).decORs1Idx

def rfRs2 : BitVec 32 :=
  Regfile.rfOReadData2 rf (dec exuIInstr).decORs2En (dec exuIInstr).decORs2Idx

/-- The connections of `u_xf100_exu_alu`. -/
def aluIn : AluIn where
  aluIAluInfo := (dec exuIInstr).decOAluInfo
  aluIRdEn := (dec exuIInstr).decORdEn
  aluIRs1 := rfRs1 rf exuIInstr
  aluIRs2 := rfRs2 rf exuIInstr
  aluIRdidx := (dec exuIInstr).decORdIdx
  aluIImm := (dec exuIInstr).decOImm

/-- The outputs of `u_xf100_exu_alu`. -/
def alu : AluOut := xf100ExuAlu (aluIn rf exuIInstr)

/-- The connections of `u_xf100_exu_agu`, less the read lanes. -/
def aguIn : AguIn where
  aguIAguOp := (dec exuIInstr).decOAguOp
  aguIAguInfo := (dec exuIInstr).decOAguInfo
  aguIRs1 := rfRs1 rf exuIInstr
  aguIRs2 := rfRs2 rf exuIInstr
  aguIRdidx := (dec exuIInstr).decORdIdx
  aguIImm := (dec exuIInstr).decOImm

/-- The data RAM ports of `xf100_exu`. -/
def aguRam : AguRamOut := xf100ExuAguRam (aguIn rf exuIInstr)

/-- The write-back outputs of `u_xf100_exu_agu`. -/
def agu (r : RamOut) : AguWbckOut := xf100ExuAguWbck (aguIn rf exuIInstr) r

/-- The connections of `u_xf100_exu_wbck`: port 1 takes its index from the undriven net. -/
def wbckIn (aguWbckIdx : BitVec 5) (r : RamOut) : WbckIn where
  wbckIWbckEn0 := (alu rf exuIInstr).aluOWbckEn
  wbckIWbckData0 := (alu rf exuIInstr).aluOWbckData
  wbckIWbckRdidx0 := (alu rf exuIInstr).aluOWbckRdidx
  wbckIWbckEn1 := (agu rf exuIInstr r).aguOWbckEn
  wbckIWbckData1 := (agu rf exuIInstr r).aguOWbckData
  wbckIWbckRdidx1 := aguWbckIdx

/-- `rf_wbck_en`, `rf_wbck_data`, `rf_wbck_idx`. -/
def rfWbck (aguWbckIdx : BitVec 5) (r : RamOut) : WbckOut :=
  xf100ExuWbck (wbckIn rf exuIInstr aguWbckIdx r)

end Exu

end Xf100
