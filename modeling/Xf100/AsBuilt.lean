/-
  File:      Xf100/AsBuilt.lean
  Subject:   The instruction set the core implements, as it is built: an interpreter of words.

  A word is decoded by tables into at most one task for the ALU, at most one for the AGU and
  the formats its immediate is read in; `exec` is what these do to the registers and the
  data RAM. Where this is not RV32I:

  * the AGU task goes by `funct7` and not by the opcode, so a word can have both tasks;
  * every format the word selects is ORed into the immediate;
  * rs1 = x0 closes the second source as well;
  * the comparisons leave the difference in the result, the shifts leave nothing;
  * the byte address is a word index, a store turns the word round, SH stores one byte, and a
    load sees one bit of each byte;
  * a load to x0 is a write.
-/
import Xf100.Core
import Xf100.DecodeLaws
import Xf100.Sync.Table

namespace Xf100

open Rv32i

namespace AsBuilt

/-! ## 1. Decoding -/

def aluOps : List AluOp := [.add, .sub, .sll, .slt, .sltu, .xor, .srl, .sra, .or, .and]
def immOps : List ImmOp := [.addi, .slti, .sltiu, .xori, .ori, .andi]
def shiftOps : List ShiftOp := [.slli, .srli, .srai]
def memOps : List MemOp :=
  [.load .lb, .load .lh, .load .lw, .load .lbu, .load .lhu, .store .sb, .store .sh, .store .sw]

section Decoding

variable (w : BitVec 32)

/-- The register form of the word's `funct3` and `funct7`, the immediate form, and the shift. -/
def regForm : Option AluOp :=
  Sync.lookup aluOps (fun o => (o.funct3, o.funct7)) (funct3Of w, funct7Of w)

def immForm : Option ImmOp := Sync.lookup immOps (fun i => i.aluOp.funct3) (funct3Of w)

def shiftForm : Option ShiftOp :=
  Sync.lookup shiftOps (fun i => (i.aluOp.funct3, i.aluOp.funct7)) (funct3Of w, funct7Of w)

/-- What the ALU can be asked for. -/
inductive AluTask where
  | op (o : AluOp)
  | lui
  deriving DecidableEq, Repr

/-- **The task for the ALU**, by the opcode. -/
def aluTask : Option AluTask :=
  if opcodeOf w = luiOpcode then some .lui
  else if opcodeOf w = opOpcode then (regForm w).map .op
  else if opcodeOf w = opImmOpcode then
    ((immForm w).map fun i => .op i.aluOp).or ((shiftForm w).map fun i => .op i.aluOp)
  else none

/-- **The task for the AGU**, by `funct7` whatever the opcode. -/
def memTask : Option MemOp :=
  Sync.lookup memOps (fun o => (o.opcode, o.funct3)) (funct7Of w, funct3Of w)

def IsLoad : Prop := ∃ o, memTask w = some (.load o)
def IsStore : Prop := ∃ o, memTask w = some (.store o)

instance : Decidable (IsLoad w) :=
  decidable_of_iff (∃ o ∈ [LoadOp.lb, .lh, .lw, .lbu, .lhu], memTask w = some (.load o))
    ⟨fun ⟨o, _, h⟩ => ⟨o, h⟩, fun ⟨o, h⟩ => ⟨o, by cases o <;> simp, h⟩⟩

instance : Decidable (IsStore w) :=
  decidable_of_iff (∃ o ∈ [StoreOp.sb, .sh, .sw], memTask w = some (.store o))
    ⟨fun ⟨o, _, h⟩ => ⟨o, h⟩, fun ⟨o, h⟩ => ⟨o, by cases o <;> simp, h⟩⟩

/-- The readings of the word as an immediate: none, one or two of the four formats. -/
def formats : List (BitVec 32) :=
  (if opcodeOf w = luiOpcode then [Decode.uImm w] else [])
    ++ (if (opcodeOf w = opImmOpcode ∧ immForm w ≠ none) ∨ IsLoad w then [Decode.iImm w] else [])
    ++ (if IsStore w then [Decode.sImm w] else [])
    ++ (if opcodeOf w = opImmOpcode ∧ shiftForm w ≠ none then [Decode.shImm w] else [])

def imm : BitVec 32 := (formats w).foldr (· ||| ·) 0#32

end Decoding

/-! ## 2. Meaning -/

section Meaning

variable (rf : Regfile) (w : BitVec 32)

/-- The first source. -/
def src1 : BitVec 32 :=
  if rs1Of w = 0#5 ∨ opcodeOf w = luiOpcode then 0#32 else rf (rs1Of w).toFin

/-- The second source: read by the stores and the register forms, and not behind x0. -/
def src2 : BitVec 32 :=
  if rs1Of w ≠ 0#5 ∧ (IsStore w ∨ (opcodeOf w = opOpcode ∧ regForm w ≠ none)) then
    rf (rs2Of w).toFin
  else 0#32

def operand2 : BitVec 32 := if formats w = [] then src2 rf w else imm w

/-- **What the ALU makes of its task.** -/
def compute (a b imm : BitVec 32) : Option AluTask → BitVec 32
  | none => 0#32
  | some .lui => imm
  | some (.op .sll) => 0#32
  | some (.op .srl) => 0#32
  | some (.op .sra) => 0#32
  | some (.op .slt) => (a - b) ||| AluOp.slt.eval a b
  | some (.op .sltu) => (a - b) ||| AluOp.sltu.eval a b
  | some (.op o) => o.eval a b

def result : BitVec 32 := compute (src1 rf w) (operand2 rf w) (imm w) (aluTask w)

/-- The word index an AGU task goes to. -/
def address : BitVec dataRamAw := (src1 rf w + imm w).extractLsb 15 0

/-- The word a store leaves of `old`: lane `k` is new or old, and lane 0 goes to the top. -/
def stored (o : StoreOp) (v old : BitVec 32) : BitVec 32 :=
  lane 0 ++ lane 1 ++ lane 2 ++ lane 3
where
  lane (k : Nat) : BitVec 8 :=
    if o = .sw ∨ k = 0 then v.extractLsb' (8 * k) 8 else old.extractLsb' (8 * k) 8

/-- The value a load gets from `v`: byte `k` is bit `k` of it. -/
def loaded (o : LoadOp) (v : BitVec 32) : BitVec 32 :=
  o.value fun k => (BitVec.ofBool (v.getLsbD k)).setWidth 8

/-- The RAM with the word at `a` replaced; past the RAM there is none. -/
def modifyAt (memR : RamMem dataRamDp) (a : BitVec dataRamAw) (f : BitVec 32 → BitVec 32) :
    RamMem dataRamDp :=
  if h : a.toNat < dataRamDp then
    Function.update memR ⟨a.toNat, h⟩ (f (memR ⟨a.toNat, h⟩))
  else memR

end Meaning

/-- **One word, executed**; `x` answers a load past the RAM. -/
def exec (s : Core) (w x : BitVec 32) : Core :=
  match memTask w with
  | some (.store o) => ⟨s.rfR, modifyAt s.memR (address s.rfR w) (stored o (src2 s.rfR w))⟩
  | some (.load o) =>
      ⟨Function.update s.rfR (rdOf w).toFin
        (result s.rfR w ||| loaded o (Ram.memAt s.memR x (address s.rfR w))), s.memR⟩
  | none =>
      if rdOf w = 0#5 then s
      else ⟨Function.update s.rfR (rdOf w).toFin (result s.rfR w), s.memR⟩

end AsBuilt

end Xf100
