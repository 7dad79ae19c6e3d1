/-
  File:      Xf100/Rv32iMachine.lean
  Subject:   RV32I as a machine: program counter, registers, bytes.

  Rv32i.lean has the instructions the core decodes and what the arithmetic ones do to the
  registers. Here is the rest of the instruction set -- AUIPC, the jumps, the branches,
  FENCE -- and what every instruction does to the whole machine. ECALL and EBREAK are left
  out: what they do is for the environment to say. Instructions and data are kept apart, as in
  the core; the data memory has 2^16 bytes, so of a data address the low 16 bits count.
-/
import Xf100.Rv32i

namespace Rv32i

/-! ## 1. The rest of the instruction set -/

inductive BranchOp where
  | beq | bne | blt | bge | bltu | bgeu
  deriving DecidableEq, Repr

def BranchOp.funct3 : BranchOp → BitVec 3
  | .beq => 0b000#3 | .bne => 0b001#3 | .blt => 0b100#3
  | .bge => 0b101#3 | .bltu => 0b110#3 | .bgeu => 0b111#3

def BranchOp.taken (a b : BitVec 32) : BranchOp → Bool
  | .beq => a == b
  | .bne => a != b
  | .blt => a.slt b
  | .bge => !a.slt b
  | .bltu => a.ult b
  | .bgeu => !a.ult b

def auipcOpcode : BitVec 7 := 0b0010111#7
def jalOpcode : BitVec 7 := 0b1101111#7
def jalrOpcode : BitVec 7 := 0b1100111#7
def branchOpcode : BitVec 7 := 0b1100011#7
def fenceOpcode : BitVec 7 := 0b0001111#7

/-- The base instruction set without ECALL and EBREAK. The offset of a jump or a branch is given
    without its lowest bit, which is 0; `sets` are the fields of FENCE. -/
inductive Base where
  | instr (i : Instr)
  | auipc (rd : BitVec 5) (imm : BitVec 20)
  | jal (rd : BitVec 5) (off : BitVec 20)
  | jalr (rd rs1 : BitVec 5) (imm : BitVec 12)
  | branch (o : BranchOp) (rs1 rs2 : BitVec 5) (off : BitVec 12)
  | fence (sets : BitVec 12)
  deriving DecidableEq, Repr

/-- The encoding; the bits of an offset are shuffled between the fields. -/
def Base.encode : Base → BitVec 32
  | .instr i => i.encode
  | .auipc rd imm =>
      word (imm.extractLsb 19 13) (imm.extractLsb 12 8) (imm.extractLsb 7 3) (imm.extractLsb 2 0)
        rd auipcOpcode
  | .jal rd off =>
      word (off.extractLsb 19 19 ++ off.extractLsb 9 4) (off.extractLsb 3 0 ++ off.extractLsb 10 10)
        (off.extractLsb 18 14) (off.extractLsb 13 11) rd jalOpcode
  | .jalr rd rs1 imm =>
      word (imm.extractLsb 11 5) (imm.extractLsb 4 0) rs1 0b000#3 rd jalrOpcode
  | .branch o rs1 rs2 off =>
      word (off.extractLsb 11 11 ++ off.extractLsb 9 4) rs2 rs1 o.funct3
        (off.extractLsb 3 0 ++ off.extractLsb 10 10) branchOpcode
  | .fence sets => word (sets.extractLsb 11 5) (sets.extractLsb 4 0) 0#5 0b000#3 0#5 fenceOpcode

/-- `bne x5, x6, -4`, `jal x1, -20` and `fence`. -/
example : (Base.branch .bne 5#5 6#5 0xFFE#12).encode = 0xfe629ee3#32 ∧
    (Base.jal 1#5 0xFFFF6#20).encode = 0xfedff0ef#32 ∧
    (Base.fence 0x0FF#12).encode = 0x0ff0000f#32 := by decide

/-! ## 2. The machine -/

/-- The state of the machine. -/
@[ext] structure Machine where
  pc : BitVec 32
  regs : Regs
  mem : BitVec 16 → BitVec 8

namespace Machine

variable (m : Machine)

/-- On to the next instruction, with these registers. -/
def next (r : Regs) : Machine where
  pc := m.pc + 4#32
  regs := r
  mem := m.mem

/-- The data address of a load or a store. -/
def dataAddr (rs1 : BitVec 5) (imm : BitVec 12) : BitVec 16 :=
  (m.regs.x rs1 + imm.signExtend 32).setWidth 16

/-- The bytes from `a` on. -/
def bytesAt (a : BitVec 16) (k : Nat) : BitVec 8 := m.mem (a + BitVec.ofNat 16 k)

/-- The memory with the lowest `size` bytes of `v` from `a` on. -/
def storeAt (a : BitVec 16) (size : Nat) (v : BitVec 32) : BitVec 16 → BitVec 8 := fun b =>
  if (b - a).toNat < size then v.extractLsb' (8 * (b - a).toNat) 8 else m.mem b

theorem storeAt_self (a : BitVec 16) {size : Nat} (h : 0 < size) (v : BitVec 32) :
    m.storeAt a size v a = v.extractLsb' 0 8 := by
  unfold storeAt
  rw [BitVec.sub_self]
  exact if_pos h

end Machine

/-- The meaning of the instructions the core decodes. -/
def Instr.exec (m : Machine) : Instr → Machine
  | .arith i => m.next (i.exec m.regs)
  | .load o rd rs1 imm => m.next (m.regs.set rd (o.value (m.bytesAt (m.dataAddr rs1 imm))))
  | .store o rs1 rs2 imm =>
      { m.next m.regs with mem := m.storeAt (m.dataAddr rs1 imm) o.size (m.regs.x rs2) }

/-- An offset with its lowest bit. -/
def jumpOffset (off : BitVec 20) : BitVec 32 := (off ++ 0#1).signExtend 32
def branchOffset (off : BitVec 12) : BitVec 32 := (off ++ 0#1).signExtend 32

/-- **The meaning of an instruction.** A target that is no multiple of 4 is taken as it is. -/
def Base.exec (m : Machine) : Base → Machine
  | .instr i => i.exec m
  | .auipc rd imm => m.next (m.regs.set rd (m.pc + (imm ++ 0#12)))
  | .jal rd off => ⟨m.pc + jumpOffset off, m.regs.set rd (m.pc + 4#32), m.mem⟩
  | .jalr rd rs1 imm =>
      ⟨(m.regs.x rs1 + imm.signExtend 32) &&& ~~~1#32, m.regs.set rd (m.pc + 4#32), m.mem⟩
  | .branch o rs1 rs2 off =>
      if o.taken (m.regs.x rs1) (m.regs.x rs2) then ⟨m.pc + branchOffset off, m.regs, m.mem⟩
      else m.next m.regs
  | .fence _ => m.next m.regs

end Rv32i
