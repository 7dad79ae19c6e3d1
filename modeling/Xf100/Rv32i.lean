/-
  File:      Xf100/Rv32i.lean
  Subject:   What the core is for: the RV32I instructions it knows, their encodings and
             their meaning on the registers.

  This file states the instruction set and nothing of the hardware. A word is six fields
  (`word`), an instruction is encoded into them (`Arith.encode`, `LoadOp`/`StoreOp` with
  `loadWord`, `storeWord`), and the register part of the meaning is `Arith.exec` on `Regs`,
  a register file that cannot hold anything but 0 in x0.
-/
import Mathlib.Logic.Function.Basic
import Xf100.Sync.Bits

namespace Rv32i

open Sync

/-! ## 1. Words and fields -/

/-- A word from its six fields, `funct7` at the top. -/
def word (f7 : BitVec 7) (rs2 rs1 : BitVec 5) (f3 : BitVec 3) (rd : BitVec 5) (opc : BitVec 7) :
    BitVec 32 :=
  f7 ++ rs2 ++ rs1 ++ f3 ++ rd ++ opc

def opcodeOf (w : BitVec 32) : BitVec 7 := w.extractLsb 6 0
def rdOf (w : BitVec 32) : BitVec 5 := w.extractLsb 11 7
def funct3Of (w : BitVec 32) : BitVec 3 := w.extractLsb 14 12
def rs1Of (w : BitVec 32) : BitVec 5 := w.extractLsb 19 15
def rs2Of (w : BitVec 32) : BitVec 5 := w.extractLsb 24 20
def funct7Of (w : BitVec 32) : BitVec 7 := w.extractLsb 31 25

section Fields

variable (f7 : BitVec 7) (rs2 rs1 : BitVec 5) (f3 : BitVec 3) (rd : BitVec 5) (opc : BitVec 7)

/-- A slice of a word that starts above `opc`, `rd`, `funct3` or `rs1`. -/
theorem extractLsb'_word_above (lo len : Nat) :
    (word f7 rs2 rs1 f3 rd opc).extractLsb' (7 + lo) len =
        (f7 ++ rs2 ++ rs1 ++ f3 ++ rd).extractLsb' lo len ∧
      (word f7 rs2 rs1 f3 rd opc).extractLsb' (7 + (5 + lo)) len =
        (f7 ++ rs2 ++ rs1 ++ f3).extractLsb' lo len ∧
      (word f7 rs2 rs1 f3 rd opc).extractLsb' (7 + (5 + (3 + lo))) len =
        (f7 ++ rs2 ++ rs1).extractLsb' lo len ∧
      (word f7 rs2 rs1 f3 rd opc).extractLsb' (7 + (5 + (3 + (5 + lo)))) len =
        (f7 ++ rs2).extractLsb' lo len := by
  have above_opc (k : Nat) : (word f7 rs2 rs1 f3 rd opc).extractLsb' (7 + k) len =
      (f7 ++ rs2 ++ rs1 ++ f3 ++ rd).extractLsb' k len := extractLsb'_append_above _ opc k len
  have above_rd (k : Nat) := extractLsb'_append_above (f7 ++ rs2 ++ rs1 ++ f3) rd k len
  have above_f3 (k : Nat) := extractLsb'_append_above (f7 ++ rs2 ++ rs1) f3 k len
  have above_rs1 (k : Nat) := extractLsb'_append_above (f7 ++ rs2) rs1 k len
  refine ⟨above_opc lo, ?_, ?_, ?_⟩
  · rw [above_opc, above_rd]
  · rw [above_opc, above_rd, above_f3]
  · rw [above_opc, above_rd, above_f3, above_rs1]

@[simp] theorem opcodeOf_word : opcodeOf (word f7 rs2 rs1 f3 rd opc) = opc :=
  BitVec.extractLsb'_append_eq_right

@[simp] theorem rdOf_word : rdOf (word f7 rs2 rs1 f3 rd opc) = rd :=
  (extractLsb'_word_above f7 rs2 rs1 f3 rd opc 0 5).1.trans BitVec.extractLsb'_append_eq_right

@[simp] theorem funct3Of_word : funct3Of (word f7 rs2 rs1 f3 rd opc) = f3 :=
  (extractLsb'_word_above f7 rs2 rs1 f3 rd opc 0 3).2.1.trans BitVec.extractLsb'_append_eq_right

@[simp] theorem rs1Of_word : rs1Of (word f7 rs2 rs1 f3 rd opc) = rs1 :=
  (extractLsb'_word_above f7 rs2 rs1 f3 rd opc 0 5).2.2.1.trans BitVec.extractLsb'_append_eq_right

@[simp] theorem rs2Of_word : rs2Of (word f7 rs2 rs1 f3 rd opc) = rs2 :=
  (extractLsb'_word_above f7 rs2 rs1 f3 rd opc 0 5).2.2.2.trans BitVec.extractLsb'_append_eq_right

@[simp] theorem funct7Of_word : funct7Of (word f7 rs2 rs1 f3 rd opc) = f7 :=
  (extractLsb'_word_above f7 rs2 rs1 f3 rd opc 5 7).2.2.2.trans BitVec.extractLsb'_append_eq_left

/-- The I-format immediate field across its two fields. -/
theorem iSlice_word : (word f7 rs2 rs1 f3 rd opc).extractLsb 31 20 = f7 ++ rs2 :=
  (extractLsb'_word_above f7 rs2 rs1 f3 rd opc 0 12).2.2.2.trans BitVec.extractLsb'_eq_self

/-- The U-format immediate field across its four fields. -/
theorem uSlice_word : (word f7 rs2 rs1 f3 rd opc).extractLsb 31 12 = f7 ++ rs2 ++ rs1 ++ f3 :=
  (extractLsb'_word_above f7 rs2 rs1 f3 rd opc 0 20).2.1.trans BitVec.extractLsb'_eq_self

/-- **Every word is the word of its fields.** -/
theorem word_fields (w : BitVec 32) :
    word (funct7Of w) (rs2Of w) (rs1Of w) (funct3Of w) (rdOf w) (opcodeOf w) = w := by
  show (w.extractLsb' 25 7 ++ w.extractLsb' 20 5 ++ w.extractLsb' 15 5 ++ w.extractLsb' 12 3 ++
    w.extractLsb' 7 5 ++ w.extractLsb' 0 7 : BitVec (7 + 5 + 5 + 3 + 5 + 7)) = w
  -- adjacent slices join, from the top down
  rw [BitVec.extractLsb'_append_extractLsb'_eq_extractLsb' (by omega),
    BitVec.extractLsb'_append_extractLsb'_eq_extractLsb' (by omega),
    BitVec.extractLsb'_append_extractLsb'_eq_extractLsb' (by omega),
    BitVec.extractLsb'_append_extractLsb'_eq_extractLsb' (by omega),
    BitVec.extractLsb'_append_extractLsb'_eq_extractLsb' (by omega)]
  exact BitVec.extractLsb'_eq_self

end Fields

/-! ## 2. Loads and stores -/

inductive LoadOp where
  | lb | lh | lw | lbu | lhu
  deriving DecidableEq, Repr

inductive StoreOp where
  | sb | sh | sw
  deriving DecidableEq, Repr

def LoadOp.funct3 : LoadOp → BitVec 3
  | .lb => 0b000#3 | .lh => 0b001#3 | .lw => 0b010#3 | .lbu => 0b100#3 | .lhu => 0b101#3

def StoreOp.funct3 : StoreOp → BitVec 3
  | .sb => 0b000#3 | .sh => 0b001#3 | .sw => 0b010#3

def loadOpcode : BitVec 7 := 0b0000011#7
def storeOpcode : BitVec 7 := 0b0100011#7

/-- A load or a store. -/
inductive MemOp where
  | load (o : LoadOp)
  | store (o : StoreOp)
  deriving DecidableEq, Repr

def MemOp.opcode : MemOp → BitVec 7
  | .load _ => loadOpcode
  | .store _ => storeOpcode

def MemOp.funct3 : MemOp → BitVec 3
  | .load o => o.funct3
  | .store o => o.funct3

/-- Bytes read or written. -/
def LoadOp.size : LoadOp → Nat
  | .lb => 1 | .lh => 2 | .lw => 4 | .lbu => 1 | .lhu => 2

def StoreOp.size : StoreOp → Nat
  | .sb => 1 | .sh => 2 | .sw => 4

def MemOp.size : MemOp → Nat
  | .load o => o.size
  | .store o => o.size

/-- **What a load makes of the bytes it reads**, `B 0` being the lowest. -/
def LoadOp.value (B : Nat → BitVec 8) : LoadOp → BitVec 32
  | .lb => (B 0).signExtend 32
  | .lh => (B 1 ++ B 0).signExtend 32
  | .lw => B 3 ++ B 2 ++ B 1 ++ B 0
  | .lbu => (B 0).setWidth 32
  | .lhu => (B 1 ++ B 0).setWidth 32

/-- Byte `k` of the value is the byte read there. -/
theorem LoadOp.getLsbD_value (B : Nat → BitVec 8) (o : LoadOp) {k i : Nat} (hk : k < o.size)
    (hi : i < 8) : (o.value B).getLsbD (8 * k + i) = (B k).getLsbD i := by
  cases o <;> simp only [LoadOp.size] at hk
  · obtain rfl : k = 0 := by omega
    simp [LoadOp.value, BitVec.getLsbD_signExtend, hi]
    omega
  · rw [LoadOp.value, BitVec.getLsbD_signExtend, if_pos (by omega), BitVec.getLsbD_append]
    obtain rfl | rfl : k = 0 ∨ k = 1 := by omega
    all_goals grind
  · rw [LoadOp.value, getLsbD_bytes]
    obtain rfl | rfl | rfl | rfl : k = 0 ∨ k = 1 ∨ k = 2 ∨ k = 3 := by omega
    all_goals grind
  · obtain rfl : k = 0 := by omega
    simp [LoadOp.value]
    omega
  · rw [LoadOp.value, BitVec.getLsbD_setWidth, BitVec.getLsbD_append]
    obtain rfl | rfl : k = 0 ∨ k = 1 := by omega
    all_goals grind

theorem LoadOp.value_congr {B C : Nat → BitVec 8} {o : LoadOp} (h : ∀ k, k < o.size → B k = C k) :
    o.value B = o.value C := by
  cases o <;> simp only [LoadOp.size] at h
  · rw [LoadOp.value, LoadOp.value, h 0 (by decide)]
  · rw [LoadOp.value, LoadOp.value, h 0 (by decide), h 1 (by decide)]
  · rw [LoadOp.value, LoadOp.value, h 0 (by decide), h 1 (by decide), h 2 (by decide),
      h 3 (by decide)]
  · rw [LoadOp.value, LoadOp.value, h 0 (by decide)]
  · rw [LoadOp.value, LoadOp.value, h 0 (by decide), h 1 (by decide)]

/-- **A word of which only the low part was stored**: its sign or zero extension. -/
def LoadOp.extend (v : BitVec 32) : LoadOp → BitVec 32
  | .lb => (v.setWidth 8).signExtend 32
  | .lh => (v.setWidth 16).signExtend 32
  | .lw => v
  | .lbu => (v.setWidth 8).setWidth 32
  | .lhu => (v.setWidth 16).setWidth 32

theorem setWidth_two_bytes (v : BitVec 32) :
    v.extractLsb' 8 8 ++ v.extractLsb' 0 8 = v.setWidth 16 := by
  rw [BitVec.setWidth_eq_extractLsb' (by omega)]
  exact BitVec.extractLsb'_append_extractLsb'_eq_extractLsb' rfl

/-- The bytes of a word, loaded. -/
theorem LoadOp.value_bytes (v : BitVec 32) (o : LoadOp) :
    o.value (fun k => v.extractLsb' (8 * k) 8) = o.extend v := by
  have hb : v.extractLsb' 0 8 = v.setWidth 8 := (BitVec.setWidth_eq_extractLsb' (by decide)).symm
  cases o
  · exact congrArg (BitVec.signExtend 32) hb
  · exact congrArg (BitVec.signExtend 32) (setWidth_two_bytes v)
  · show (v.extractLsb' 24 8 ++ v.extractLsb' 16 8 ++ v.extractLsb' 8 8 ++ v.extractLsb' 0 8
      : BitVec (8 + 8 + 8 + 8)) = v
    rw [BitVec.extractLsb'_append_extractLsb'_eq_extractLsb' (by omega),
      BitVec.extractLsb'_append_extractLsb'_eq_extractLsb' (by omega),
      BitVec.extractLsb'_append_extractLsb'_eq_extractLsb' (by omega)]
    exact BitVec.extractLsb'_eq_self
  · exact congrArg (BitVec.setWidth 32) hb
  · exact congrArg (BitVec.setWidth 32) (setWidth_two_bytes v)

/-- **`w` is an encoding of `o`**: opcode and funct3 are fixed, every other field is free. -/
def MemOp.Encodes (o : MemOp) (w : BitVec 32) : Prop :=
  opcodeOf w = o.opcode ∧ funct3Of w = o.funct3

instance (o : MemOp) (w : BitVec 32) : Decidable (o.Encodes w) :=
  inferInstanceAs (Decidable (_ ∧ _))

/-- The I-format word of a load. -/
def loadWord (o : LoadOp) (rd rs1 : BitVec 5) (imm : BitVec 12) : BitVec 32 :=
  word (imm.extractLsb 11 5) (imm.extractLsb 4 0) rs1 o.funct3 rd loadOpcode

/-- The S-format word of a store. -/
def storeWord (o : StoreOp) (rs1 rs2 : BitVec 5) (imm : BitVec 12) : BitVec 32 :=
  word (imm.extractLsb 11 5) rs2 rs1 o.funct3 (imm.extractLsb 4 0) storeOpcode

/-- An immediate is its two slices. -/
theorem imm_split (hi : BitVec 7) (lo : BitVec 5) :
    (hi ++ lo).extractLsb 11 5 = hi ∧ (hi ++ lo).extractLsb 4 0 = lo :=
  ⟨BitVec.extractLsb'_append_eq_left, BitVec.extractLsb'_append_eq_right⟩

/-- Put together again. -/
theorem imm12_join (imm : BitVec 12) : imm.extractLsb 11 5 ++ imm.extractLsb 4 0 = imm :=
  BitVec.extractLsb'_append_extractLsb'

theorem imm20_join (imm : BitVec 20) :
    imm.extractLsb 19 13 ++ imm.extractLsb 12 8 ++ imm.extractLsb 7 3 ++ imm.extractLsb 2 0 =
      imm := by
  show (imm.extractLsb' 13 7 ++ imm.extractLsb' 8 5 ++ imm.extractLsb' 3 5 ++ imm.extractLsb' 0 3
    : BitVec (7 + 5 + 5 + 3)) = imm
  rw [BitVec.extractLsb'_append_extractLsb'_eq_extractLsb' (by omega),
    BitVec.extractLsb'_append_extractLsb'_eq_extractLsb' (by omega),
    BitVec.extractLsb'_append_extractLsb'_eq_extractLsb' (by omega)]
  exact BitVec.extractLsb'_eq_self

theorem imm20_split (f7 : BitVec 7) (rs2 rs1 : BitVec 5) (f3 : BitVec 3) :
    (f7 ++ rs2 ++ rs1 ++ f3).extractLsb 19 13 = f7 ∧
      (f7 ++ rs2 ++ rs1 ++ f3).extractLsb 12 8 = rs2 ∧
      (f7 ++ rs2 ++ rs1 ++ f3).extractLsb 7 3 = rs1 ∧
      (f7 ++ rs2 ++ rs1 ++ f3).extractLsb 2 0 = f3 := by
  have above_f3 (lo len : Nat) := extractLsb'_append_above (f7 ++ rs2 ++ rs1) f3 lo len
  have above_rs1 (lo len : Nat) := extractLsb'_append_above (f7 ++ rs2) rs1 lo len
  refine ⟨?_, ?_, ?_, ?_⟩
  · exact (above_f3 10 7).trans ((above_rs1 5 7).trans BitVec.extractLsb'_append_eq_left)
  · exact (above_f3 5 5).trans ((above_rs1 0 5).trans BitVec.extractLsb'_append_eq_right)
  · exact (above_f3 0 5).trans BitVec.extractLsb'_append_eq_right
  · exact BitVec.extractLsb'_append_eq_right

theorem encodes_load_iff (o : LoadOp) (w : BitVec 32) :
    (MemOp.load o).Encodes w ↔ ∃ rd rs1 imm, loadWord o rd rs1 imm = w := by
  constructor
  · intro hx
    obtain ⟨hopc, hf3⟩ := hx
    obtain ⟨h7, h5⟩ := imm_split (funct7Of w) (rs2Of w)
    refine ⟨rdOf w, rs1Of w, funct7Of w ++ rs2Of w, ?_⟩
    rw [loadWord, h7, h5]
    conv_rhs => rw [← word_fields w, hopc, hf3]
    rfl
  · intro hx
    obtain ⟨rd, rs1, imm, rfl⟩ := hx
    exact ⟨opcodeOf_word _ _ _ _ _ _, funct3Of_word _ _ _ _ _ _⟩

theorem encodes_store_iff (o : StoreOp) (w : BitVec 32) :
    (MemOp.store o).Encodes w ↔ ∃ rs1 rs2 imm, storeWord o rs1 rs2 imm = w := by
  constructor
  · intro hx
    obtain ⟨hopc, hf3⟩ := hx
    obtain ⟨h7, h5⟩ := imm_split (funct7Of w) (rdOf w)
    refine ⟨rs1Of w, rs2Of w, funct7Of w ++ rdOf w, ?_⟩
    rw [storeWord, h7, h5]
    conv_rhs => rw [← word_fields w, hopc, hf3]
    rfl
  · intro hx
    obtain ⟨rs1, rs2, imm, rfl⟩ := hx
    exact ⟨opcodeOf_word _ _ _ _ _ _, funct3Of_word _ _ _ _ _ _⟩

/-! ## 3. Arithmetic -/

inductive AluOp where
  | add | sub | sll | slt | sltu | xor | srl | sra | or | and
  deriving DecidableEq, Repr

inductive ImmOp where
  | addi | slti | sltiu | xori | ori | andi
  deriving DecidableEq, Repr

inductive ShiftOp where
  | slli | srli | srai
  deriving DecidableEq, Repr

def AluOp.funct3 : AluOp → BitVec 3
  | .add => 0b000#3 | .sub => 0b000#3 | .sll => 0b001#3 | .slt => 0b010#3 | .sltu => 0b011#3
  | .xor => 0b100#3 | .srl => 0b101#3 | .sra => 0b101#3 | .or => 0b110#3 | .and => 0b111#3

def AluOp.funct7 : AluOp → BitVec 7
  | .sub => 0b0100000#7
  | .sra => 0b0100000#7
  | _ => 0b0000000#7

def ImmOp.aluOp : ImmOp → AluOp
  | .addi => .add | .slti => .slt | .sltiu => .sltu | .xori => .xor | .ori => .or | .andi => .and

def ShiftOp.aluOp : ShiftOp → AluOp
  | .slli => .sll | .srli => .srl | .srai => .sra

def opOpcode : BitVec 7 := 0b0110011#7
def opImmOpcode : BitVec 7 := 0b0010011#7
def luiOpcode : BitVec 7 := 0b0110111#7

/-- The instructions that compute on registers. -/
inductive Arith where
  | lui (rd : BitVec 5) (imm : BitVec 20)
  | op (o : AluOp) (rd rs1 rs2 : BitVec 5)
  | opImm (o : ImmOp) (rd rs1 : BitVec 5) (imm : BitVec 12)
  | shiftImm (o : ShiftOp) (rd rs1 shamt : BitVec 5)
  deriving DecidableEq, Repr

def Arith.rd : Arith → BitVec 5
  | .lui rd _ => rd
  | .op _ rd _ _ => rd
  | .opImm _ rd _ _ => rd
  | .shiftImm _ rd _ _ => rd

/-- The encoding; the U- and I-format immediates lie across the fields they displace. -/
def Arith.encode : Arith → BitVec 32
  | .lui rd imm =>
      word (imm.extractLsb 19 13) (imm.extractLsb 12 8) (imm.extractLsb 7 3) (imm.extractLsb 2 0)
        rd luiOpcode
  | .op o rd rs1 rs2 => word o.funct7 rs2 rs1 o.funct3 rd opOpcode
  | .opImm o rd rs1 imm =>
      word (imm.extractLsb 11 5) (imm.extractLsb 4 0) rs1 o.aluOp.funct3 rd opImmOpcode
  | .shiftImm o rd rs1 shamt => word o.aluOp.funct7 shamt rs1 o.aluOp.funct3 rd opImmOpcode

@[simp] theorem Arith.rdOf_encode (i : Arith) : rdOf i.encode = i.rd := by
  cases i <;> exact rdOf_word _ _ _ _ _ _

/-- **A word is an instruction with a destination**: one that computes on registers, or a load. -/
def HasDest (w : BitVec 32) : Prop :=
  (∃ i : Arith, i.encode = w) ∨ ∃ o : LoadOp, (MemOp.load o).Encodes w

/-- An instruction of the core: one that computes on registers, a load or a store. -/
inductive Instr where
  | arith (i : Arith)
  | load (o : LoadOp) (rd rs1 : BitVec 5) (imm : BitVec 12)
  | store (o : StoreOp) (rs1 rs2 : BitVec 5) (imm : BitVec 12)
  deriving DecidableEq, Repr

def Instr.encode : Instr → BitVec 32
  | .arith i => i.encode
  | .load o rd rs1 imm => loadWord o rd rs1 imm
  | .store o rs1 rs2 imm => storeWord o rs1 rs2 imm

/-- **The immediate operand of an instruction**, extended to 32 bits; a register form has none. -/
def Instr.imm : Instr → Option (BitVec 32)
  | .arith (.lui _ imm) => some (imm ++ 0#12)
  | .arith (.op _ _ _ _) => none
  | .arith (.opImm _ _ _ imm) => some (imm.signExtend 32)
  | .arith (.shiftImm _ _ _ shamt) => some (shamt.setWidth 32)
  | .load _ _ _ imm => some (imm.signExtend 32)
  | .store _ _ _ imm => some (imm.signExtend 32)

/-! ## 4. Meaning -/

/-- What an operation computes, modulo 2^32. -/
def AluOp.eval : AluOp → BitVec 32 → BitVec 32 → BitVec 32
  | .add, a, b => a + b
  | .sub, a, b => a - b
  | .sll, a, b => a <<< (b.extractLsb 4 0)
  | .slt, a, b => if a.slt b then 1#32 else 0#32
  | .sltu, a, b => if a.ult b then 1#32 else 0#32
  | .xor, a, b => a ^^^ b
  | .srl, a, b => a >>> (b.extractLsb 4 0)
  | .sra, a, b => a.sshiftRight' (b.extractLsb 4 0)
  | .or, a, b => a ||| b
  | .and, a, b => a &&& b

/-- The registers of the instruction set: x0 is 0 by construction. -/
@[ext] structure Regs where
  x : BitVec 5 → BitVec 32
  x_zero : x 0#5 = 0#32

namespace Regs

/-- Writing a register; a write to x0 is no write. -/
def set (r : Regs) (rd : BitVec 5) (v : BitVec 32) : Regs where
  x k := if k = rd ∧ rd ≠ 0#5 then v else r.x k
  x_zero := by
    rw [if_neg fun h => h.2 h.1.symm]
    exact r.x_zero

theorem set_self (r : Regs) {rd : BitVec 5} (h : rd ≠ 0#5) (v : BitVec 32) :
    (r.set rd v).x rd = v := if_pos ⟨rfl, h⟩

theorem set_of_ne (r : Regs) {rd k : BitVec 5} (h : k ≠ rd) (v : BitVec 32) :
    (r.set rd v).x k = r.x k := if_neg fun hk => h hk.1

theorem set_zero (r : Regs) (v : BitVec 32) : r.set 0#5 v = r := by
  apply Regs.ext
  funext k
  exact if_neg fun hk => hk.2 rfl

end Regs

/-- The value an instruction computes. -/
def Arith.value (r : Regs) : Arith → BitVec 32
  | .lui _ imm => imm ++ 0#12
  | .op o _ rs1 rs2 => o.eval (r.x rs1) (r.x rs2)
  | .opImm o _ rs1 imm => o.aluOp.eval (r.x rs1) (imm.signExtend 32)
  | .shiftImm o _ rs1 shamt => o.aluOp.eval (r.x rs1) (shamt.setWidth 32)

/-- **The meaning of an arithmetic instruction**: its value goes to its destination. -/
def Arith.exec (i : Arith) (r : Regs) : Regs := r.set i.rd (i.value r)

end Rv32i
