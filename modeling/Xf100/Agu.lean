/-
  File:      Xf100/Agu.lean
  Subject:   The address generation unit, `xf100_exu_agu`.

  The unit talks to the data RAM through `agu_o_ram_*` and takes the four read lanes
  back in the same cycle, so its outputs come in two parts: what it drives into the RAM
  (`xf100ExuAguRam`) and what it writes back once the lanes have answered
  (`xf100ExuAguWbck`). `agu_i_rd_en` and the two source enables are ports nothing reads:
  the write-back enable is `load_op` alone.
-/
import Xf100.Gnrl

namespace Xf100

/-- The input ports of `xf100_exu_agu` it reads, less the four read lanes. -/
structure AguIn where
  aguIAguOp : Bool
  aguIAguInfo : BitVec aguInfoWidth
  aguIRs1 : BitVec 32
  aguIRs2 : BitVec 32
  aguIRdidx : BitVec 5
  aguIImm : BitVec 32

/-- The output ports of `xf100_exu_agu` to the data RAM. -/
structure AguRamOut where
  aguORamCs : Bool
  aguORamWen : Bool
  aguORamMask : BitVec 4
  aguORamAddr : BitVec dataRamAw
  aguORamWdat0 : BitVec 8
  aguORamWdat1 : BitVec 8
  aguORamWdat2 : BitVec 8
  aguORamWdat3 : BitVec 8

/-- The output ports of `xf100_exu_agu` to the write-back block. -/
structure AguWbckOut where
  aguOWbckEn : Bool
  aguOWbckData : BitVec 32
  aguOWbckRdidx : BitVec 5

namespace Agu

variable (i : AguIn)

/-! ## 1. The operation bits -/

def lbOp : Bool := i.aguIAguInfo.getLsbD aguInfoDefLb
def lhOp : Bool := i.aguIAguInfo.getLsbD aguInfoDefLh
def lwOp : Bool := i.aguIAguInfo.getLsbD aguInfoDefLw
def lbuOp : Bool := i.aguIAguInfo.getLsbD aguInfoDefLbu
def lhuOp : Bool := i.aguIAguInfo.getLsbD aguInfoDefLhu
def sbOp : Bool := i.aguIAguInfo.getLsbD aguInfoDefSb
def shOp : Bool := i.aguIAguInfo.getLsbD aguInfoDefSh
def swOp : Bool := i.aguIAguInfo.getLsbD aguInfoDefSw

def loadOp : Bool := lbOp i || lhOp i || lwOp i || lbuOp i || lhuOp i
def storeOp : Bool := sbOp i || shOp i || swOp i

/-! ## 2. The RAM side -/

def ramWen : Bool := storeOp i

def destAddr : BitVec 32 := i.aguIRs1 + i.aguIImm
-- a byte address: the two lowest bits are not dropped
def ramAddr : BitVec dataRamAw := (destAddr i).extractLsb 15 0

def ramCs : Bool := i.aguIAguOp

def size1B : Bool := lbOp i || sbOp i || lbuOp i
def size2B : Bool := lhOp i || shOp i || lhuOp i
def size4B : Bool := lwOp i || swOp i

/-- `ram_mask`. The second term is three bits wide, so `size_2B` raises the lowest lane only. -/
def ramMask : BitVec 4 :=
  (0b000#3 ++ BitVec.ofBool (size1B i))
    ||| (0b00#2 ++ BitVec.ofBool (size2B i)).setWidth 4
    ||| BitVec.fill 4 (size4B i)

/-! ## 3. The write-back side -/

/-- `agu_wbck_wdat`: the read lanes, extended according to the load. -/
def aguWbckWdat (r : RamOut) : BitVec 32 :=
  (BitVec.fill 32 (lbOp i) &&& (BitVec.fill 24 (r.ramRdat0.getLsbD 7) ++ r.ramRdat0))
    ||| (BitVec.fill 32 (lbuOp i) &&& (BitVec.fill 24 false ++ r.ramRdat0))
    ||| (BitVec.fill 32 (lhOp i) &&&
          (BitVec.fill 16 (r.ramRdat1.getLsbD 7) ++ r.ramRdat1 ++ r.ramRdat0))
    ||| (BitVec.fill 32 (lhuOp i) &&& (BitVec.fill 16 false ++ r.ramRdat1 ++ r.ramRdat0))
    ||| (BitVec.fill 32 (lwOp i) &&&
          (r.ramRdat3 ++ r.ramRdat2 ++ r.ramRdat1 ++ r.ramRdat0))

end Agu

/-- **What the unit drives into the data RAM.** -/
def xf100ExuAguRam (i : AguIn) : AguRamOut where
  aguORamCs := Agu.ramCs i
  aguORamWen := Agu.ramWen i
  aguORamMask := Agu.ramMask i
  aguORamAddr := Agu.ramAddr i
  aguORamWdat0 := i.aguIRs2.extractLsb 7 0
  aguORamWdat1 := i.aguIRs2.extractLsb 15 8
  aguORamWdat2 := i.aguIRs2.extractLsb 23 16
  aguORamWdat3 := i.aguIRs2.extractLsb 31 24

/-- **What the unit writes back**, `r` being the lanes on `agu_o_ram_rdat0` to `3`. -/
def xf100ExuAguWbck (i : AguIn) (r : RamOut) : AguWbckOut where
  aguOWbckEn := Agu.loadOp i
  aguOWbckData := Agu.aguWbckWdat i r
  aguOWbckRdidx := i.aguIRdidx

end Xf100
