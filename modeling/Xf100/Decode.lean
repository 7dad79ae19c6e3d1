/-
  File:      Xf100/Decode.lean
  Subject:   The decoder, `xf100_exu_decode`.

  Every wire of the source is a function of the instruction word, under its own
  name; `xf100ExuDecode` collects the outputs. Three things to know when reading
  the source beside it:

  * the loads and stores are recognised by `funct7`, not by `opcode`
    (`funct7_0000011`, `funct7_0100011`);
  * `rs2_en` is gated by the index of rs1;
  * `bxx_op` is the constant 0.
-/
import Xf100.Defines
import Xf100.Sync.Bits

namespace Xf100

open Sync

namespace Decode

variable (instr : BitVec 32)

/-! ## 1. Fields -/

def opcode : BitVec 7 := instr.extractLsb 6 0

def opcode_0110011 : Bool := opcode instr == 0b0110011#7
def opcode_0010011 : Bool := opcode instr == 0b0010011#7
def opcode_0110111 : Bool := opcode instr == 0b0110111#7

def funct3 : BitVec 3 := instr.extractLsb 14 12

def funct3_000 : Bool := funct3 instr == 0b000#3
def funct3_001 : Bool := funct3 instr == 0b001#3
def funct3_010 : Bool := funct3 instr == 0b010#3
def funct3_011 : Bool := funct3 instr == 0b011#3
def funct3_100 : Bool := funct3 instr == 0b100#3
def funct3_101 : Bool := funct3 instr == 0b101#3
def funct3_110 : Bool := funct3 instr == 0b110#3
def funct3_111 : Bool := funct3 instr == 0b111#3

def rdIdx : BitVec 5 := instr.extractLsb 11 7
def rs1Idx : BitVec 5 := instr.extractLsb 19 15
def rs2Idx : BitVec 5 := instr.extractLsb 24 20

def funct7 : BitVec 7 := instr.extractLsb 31 25

def funct7_0000000 : Bool := funct7 instr == 0b0000000#7
def funct7_0100000 : Bool := funct7 instr == 0b0100000#7
def funct7_0000011 : Bool := funct7 instr == 0b0000011#7
def funct7_0100011 : Bool := funct7 instr == 0b0100011#7

/-! ## 2. Operations -/

def luiOp : Bool := opcode_0110111 instr

def addOp : Bool := funct7_0000000 instr && funct3_000 instr && opcode_0110011 instr
def subOp : Bool := funct7_0100000 instr && funct3_000 instr && opcode_0110011 instr
def sllOp : Bool := funct7_0000000 instr && funct3_001 instr && opcode_0110011 instr
def sltOp : Bool := funct7_0000000 instr && funct3_010 instr && opcode_0110011 instr
def sltuOp : Bool := funct7_0000000 instr && funct3_011 instr && opcode_0110011 instr
def xorOp : Bool := funct7_0000000 instr && funct3_100 instr && opcode_0110011 instr
def srlOp : Bool := funct7_0000000 instr && funct3_101 instr && opcode_0110011 instr
def sraOp : Bool := funct7_0100000 instr && funct3_101 instr && opcode_0110011 instr
def orOp : Bool := funct7_0000000 instr && funct3_110 instr && opcode_0110011 instr
def andOp : Bool := funct7_0000000 instr && funct3_111 instr && opcode_0110011 instr

def addiOp : Bool := funct3_000 instr && opcode_0010011 instr
def sltiOp : Bool := funct3_010 instr && opcode_0010011 instr
def sltiuOp : Bool := funct3_011 instr && opcode_0010011 instr
def xoriOp : Bool := funct3_100 instr && opcode_0010011 instr
def oriOp : Bool := funct3_110 instr && opcode_0010011 instr
def andiOp : Bool := funct3_111 instr && opcode_0010011 instr
def slliOp : Bool := funct7_0000000 instr && funct3_001 instr && opcode_0010011 instr
def srliOp : Bool := funct7_0000000 instr && funct3_101 instr && opcode_0010011 instr
def sraiOp : Bool := funct7_0100000 instr && funct3_101 instr && opcode_0010011 instr

-- no `opcode` here: the loads and stores are told apart by `funct7` alone
def lbOp : Bool := funct7_0000011 instr && funct3_000 instr
def lhOp : Bool := funct7_0000011 instr && funct3_001 instr
def lwOp : Bool := funct7_0000011 instr && funct3_010 instr
def lbuOp : Bool := funct7_0000011 instr && funct3_100 instr
def lhuOp : Bool := funct7_0000011 instr && funct3_101 instr
def sbOp : Bool := funct7_0100011 instr && funct3_000 instr
def shOp : Bool := funct7_0100011 instr && funct3_001 instr
def swOp : Bool := funct7_0100011 instr && funct3_010 instr

def ldOp : Bool := lbOp instr || lhOp instr || lwOp instr || lbuOp instr || lhuOp instr
def stOp : Bool := sbOp instr || shOp instr || swOp instr

/-! ## 3. The immediate -/

def aluImm20bit : Bool := luiOp instr

def contiImm12bit : Bool :=
  false || addiOp instr || sltiOp instr || sltiuOp instr || xoriOp instr || oriOp instr
    || andiOp instr || lbOp instr || lhOp instr || lwOp instr || lbuOp instr || lhuOp instr

def swImm12bit : Bool := false || stOp instr

def aluImm5bit : Bool := false || slliOp instr || srliOp instr || sraiOp instr

def decImm : BitVec 32 :=
  0#32
    ||| (BitVec.fill 32 (aluImm20bit instr) &&& (instr.extractLsb 31 12 ++ 0#12))
    ||| (BitVec.fill 32 (contiImm12bit instr) &&&
          (BitVec.fill 20 (instr.getLsbD 31) ++ instr.extractLsb 31 20))
    ||| (BitVec.fill 32 (swImm12bit instr) &&&
          (BitVec.fill 20 (instr.getLsbD 31) ++ instr.extractLsb 31 25 ++ instr.extractLsb 11 7))
    ||| (BitVec.fill 32 (aluImm5bit instr) &&& (0#27 ++ instr.extractLsb 24 20))

/-! ## 4. Register enables -/

def bxxOp : Bool := false -- TODO in the source

def opNoRd : Bool := (rdIdx instr == 0b00000#5) || bxxOp || stOp instr

def rdEn : Bool := !opNoRd instr

def opNoRs1 : Bool := (rs1Idx instr == 0b00000#5) || luiOp instr

def rs1En : Bool := !opNoRs1 instr

-- the first factor reads `rs1_idx` in the source as well
def rs2En : Bool :=
  (rs1Idx instr != 0b00000#5) &&
    (bxxOp || stOp instr || addOp instr || subOp instr || sllOp instr || sltOp instr
      || sltuOp instr || xorOp instr || srlOp instr || sraOp instr || orOp instr || andOp instr)

def immEn : Bool :=
  false || aluImm20bit instr || contiImm12bit instr || swImm12bit instr || aluImm5bit instr

/-! ## 5. The info buses -/

-- the immediate forms are not listed
def aluOp : Bool :=
  false || luiOp instr || addOp instr || subOp instr || sllOp instr || sltOp instr
    || sltuOp instr || xorOp instr || srlOp instr || sraOp instr || orOp instr || andOp instr

def aluInfo : BitVec aluInfoWidth :=
  bus aluInfoWidth
    [immEn instr,
     addOp instr || addiOp instr,
     subOp instr || false,
     sllOp instr || slliOp instr,
     sltOp instr || sltiOp instr,
     sltuOp instr || sltiuOp instr,
     xorOp instr || xoriOp instr,
     srlOp instr || srliOp instr,
     sraOp instr || sraiOp instr,
     orOp instr || oriOp instr,
     andOp instr || andiOp instr,
     luiOp instr || false]

def aguOp : Bool := ldOp instr || stOp instr

def aguInfo : BitVec aguInfoWidth :=
  bus aguInfoWidth
    [immEn instr, lbOp instr, lhOp instr, lwOp instr, lbuOp instr, lhuOp instr,
     sbOp instr, shOp instr, swOp instr]

end Decode

/-- The output ports of `xf100_exu_decode`. -/
structure DecodeOut where
  decOAluOp : Bool
  decOAluInfo : BitVec aluInfoWidth
  decOAguOp : Bool
  decOAguInfo : BitVec aguInfoWidth
  decORs1En : Bool
  decORs2En : Bool
  decORdEn : Bool
  decORs1Idx : BitVec 5
  decORs2Idx : BitVec 5
  decORdIdx : BitVec 5
  decOImm : BitVec 32

/-- **The decoder**: combinational, the clock and the reset are placeholders. -/
def xf100ExuDecode (decIInstr : BitVec 32) : DecodeOut where
  decOAluOp := Decode.aluOp decIInstr
  decOAluInfo := Decode.aluInfo decIInstr
  decOAguOp := Decode.aguOp decIInstr
  decOAguInfo := Decode.aguInfo decIInstr
  decORs1En := Decode.rs1En decIInstr
  decORs2En := Decode.rs2En decIInstr
  decORdEn := Decode.rdEn decIInstr
  decORs1Idx := Decode.rs1Idx decIInstr
  decORs2Idx := Decode.rs2Idx decIInstr
  decORdIdx := Decode.rdIdx decIInstr
  decOImm := Decode.decImm decIInstr

end Xf100
