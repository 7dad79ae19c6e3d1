/-
  File:      Xf100/Laws/AluDecode.lean
  Subject:   The grammar of the ALU bus, and the two unit-select flags.

  Unlike the loads and stores, the ALU operations are recognised with the opcode, and the bus
  is right for every word. The flag beside it is a list of its own that stops after the
  register forms.

  * `aluBus` -- the operation bits accept exactly the encodings, one bit each;
  * `selectAgrees_iff` -- the flags agree with the buses except on the immediate forms.
-/
import Xf100.Laws.Arith

namespace Xf100

open Rv32i

namespace Decode

/-! ## 1. The grammar -/

/-- **The words of LUI, OP and OP-IMM**, by their fields. `funct7` belongs to the immediate except
    in the two shift forms. -/
def AluWord (w : BitVec 32) : Prop :=
  opcodeOf w = luiOpcode ∨
  (opcodeOf w = opOpcode ∧ (funct7Of w = 0b0000000#7 ∨
    (funct7Of w = 0b0100000#7 ∧ (funct3Of w = 0b000#3 ∨ funct3Of w = 0b101#3)))) ∨
  (opcodeOf w = opImmOpcode ∧ (funct3Of w = 0b001#3 → funct7Of w = 0b0000000#7) ∧
    (funct3Of w = 0b101#3 → funct7Of w = 0b0000000#7 ∨ funct7Of w = 0b0100000#7))

/-- The bus bit of an instruction: a register form and an immediate form share theirs. -/
def opBit : Rv32i.Arith → Nat
  | .lui _ _ => aluInfoDefLui
  | .op o _ _ _ => aluBit o
  | .opImm o _ _ _ => aluBit o.aluOp
  | .shiftImm o _ _ _ => aluBit o.aluOp

theorem aluBit_bounds (o : AluOp) : 0 < aluBit o ∧ aluBit o < aluInfoWidth := by
  cases o <;> decide

theorem funct3_cases (f : BitVec 3) :
    f = 0b000#3 ∨ f = 0b001#3 ∨ f = 0b010#3 ∨ f = 0b011#3 ∨ f = 0b100#3 ∨ f = 0b101#3 ∨
      f = 0b110#3 ∨ f = 0b111#3 := by
  revert f
  decide

/-- The register forms, by their fields. -/
theorem exists_isReg_iff (w : BitVec 32) : (∃ o, IsReg o w) ↔
    opcodeOf w = opOpcode ∧ (funct7Of w = 0b0000000#7 ∨
      (funct7Of w = 0b0100000#7 ∧ (funct3Of w = 0b000#3 ∨ funct3Of w = 0b101#3))) := by
  constructor
  · intro hx
    obtain ⟨o, hopc, h3, h7⟩ := hx
    refine ⟨hopc, ?_⟩
    rw [h3, h7]
    cases o <;> decide
  · intro hx
    obtain ⟨hopc, h7 | ⟨h7, h3 | h3⟩⟩ := hx
    · rcases funct3_cases (funct3Of w) with h3 | h3 | h3 | h3 | h3 | h3 | h3 | h3
      · exact ⟨.add, hopc, h3, h7⟩
      · exact ⟨.sll, hopc, h3, h7⟩
      · exact ⟨.slt, hopc, h3, h7⟩
      · exact ⟨.sltu, hopc, h3, h7⟩
      · exact ⟨.xor, hopc, h3, h7⟩
      · exact ⟨.srl, hopc, h3, h7⟩
      · exact ⟨.or, hopc, h3, h7⟩
      · exact ⟨.and, hopc, h3, h7⟩
    · exact ⟨.sub, hopc, h3, h7⟩
    · exact ⟨.sra, hopc, h3, h7⟩

/-- The immediate forms, by their fields. -/
theorem exists_isImm_iff (w : BitVec 32) : (∃ o, IsImm o w) ↔
    opcodeOf w = opImmOpcode ∧ (funct3Of w = 0b001#3 → funct7Of w = 0b0000000#7) ∧
      (funct3Of w = 0b101#3 → funct7Of w = 0b0000000#7 ∨ funct7Of w = 0b0100000#7) := by
  constructor
  · intro hx
    obtain ⟨o, hopc, ⟨i, rfl, h3⟩ | ⟨i, rfl, h3, h7⟩⟩ := hx
    · refine ⟨hopc, ?_⟩
      rw [h3]
      cases i <;> exact ⟨fun h => absurd h (by decide), fun h => absurd h (by decide)⟩
    · refine ⟨hopc, ?_⟩
      rw [h3, h7]
      cases i <;> decide
  · intro hx
    obtain ⟨hopc, h001, h101⟩ := hx
    rcases funct3_cases (funct3Of w) with h3 | h3 | h3 | h3 | h3 | h3 | h3 | h3
    · exact ⟨.add, hopc, Or.inl ⟨.addi, rfl, h3⟩⟩
    · exact ⟨.sll, hopc, Or.inr ⟨.slli, rfl, h3, h001 h3⟩⟩
    · exact ⟨.slt, hopc, Or.inl ⟨.slti, rfl, h3⟩⟩
    · exact ⟨.sltu, hopc, Or.inl ⟨.sltiu, rfl, h3⟩⟩
    · exact ⟨.xor, hopc, Or.inl ⟨.xori, rfl, h3⟩⟩
    · rcases h101 h3 with h7 | h7
      · exact ⟨.srl, hopc, Or.inr ⟨.srli, rfl, h3, h7⟩⟩
      · exact ⟨.sra, hopc, Or.inr ⟨.srai, rfl, h3, h7⟩⟩
    · exact ⟨.or, hopc, Or.inl ⟨.ori, rfl, h3⟩⟩
    · exact ⟨.and, hopc, Or.inl ⟨.andi, rfl, h3⟩⟩

theorem aluWord_iff (w : BitVec 32) :
    AluWord w ↔ opcodeOf w = luiOpcode ∨ ∃ o, IsReg o w ∨ IsImm o w := by
  rw [exists_or, exists_isReg_iff, exists_isImm_iff]
  rfl

/-! ## 2. The bus -/

/-- **An encoded instruction sets its own bit and no other.** -/
theorem onlyOp_encode (i : Rv32i.Arith) : OnlyOp (aluInfo i.encode) (opBit i) := by
  cases i with
  | lui rd u => exact onlyOp_lui (opcodeOf_word _ _ _ _ _ _)
  | op o rd rs1 rs2 => exact onlyOp_aluInfo (Or.inl (isReg_encode o rd rs1 rs2))
  | opImm o rd rs1 imm => exact onlyOp_aluInfo (Or.inr (isImm_encode o rd rs1 imm))
  | shiftImm o rd rs1 shamt => exact onlyOp_aluInfo (Or.inr (isImm_shift o rd rs1 shamt))

/-- The grammar is what the encodings make. -/
theorem aluWord_iff_encode (w : BitVec 32) : AluWord w ↔ ∃ i : Rv32i.Arith, i.encode = w := by
  rw [aluWord_iff]
  constructor
  · exact exists_encode
  · intro hx
    obtain ⟨i, rfl⟩ := hx
    cases i with
    | lui rd u => exact Or.inl (opcodeOf_word _ _ _ _ _ _)
    | op o rd rs1 rs2 => exact Or.inr ⟨o, Or.inl (isReg_encode o rd rs1 rs2)⟩
    | opImm o rd rs1 imm => exact Or.inr ⟨o.aluOp, Or.inr (isImm_encode o rd rs1 imm)⟩
    | shiftImm o rd rs1 shamt => exact Or.inr ⟨o.aluOp, Or.inr (isImm_shift o rd rs1 shamt)⟩

/-- An operation bit is set on the words of the grammar and on no other. -/
theorem hasOp_aluInfo (w : BitVec 32) : HasOp (aluInfo w) ↔ AluWord w := by
  rw [aluWord_iff]
  constructor
  · intro hx
    obtain ⟨k, h0, hk⟩ := hx
    rcases exists_aluBit h0 (BitVec.lt_of_getLsbD hk) with ⟨o, rfl⟩ | rfl
    · exact Or.inr ⟨o, (aluInfo_bit w o).mp hk⟩
    · rw [aluInfo_lui] at hk
      exact Or.inl ((luiOp_iff w).mp hk)
  · intro hx
    rcases hx with h | ⟨o, h⟩
    · exact ⟨aluInfoDefLui, by decide, by rw [aluInfo_lui, luiOp_iff]; exact h⟩
    · exact ⟨aluBit o, (aluBit_bounds o).1, (aluInfo_bit w o).mpr h⟩

/-- At most one bit, whatever the word. -/
theorem exists_onlyOp (w : BitVec 32) : ∃ k, OnlyOp (aluInfo w) k := by
  by_cases h : ∃ i : Rv32i.Arith, i.encode = w
  · obtain ⟨i, rfl⟩ := h
    exact ⟨opBit i, onlyOp_encode i⟩
  · have hno : ¬ (opcodeOf w = luiOpcode ∨ ∃ o, IsReg o w ∨ IsImm o w) := fun hd =>
      h (exists_encode hd)
    obtain ⟨hlui, hop⟩ := not_or.mp hno
    exact ⟨0, onlyOp_none (not_exists.mp hop) hlui⟩

/-- **The ALU bus accepts its grammar**: at most one operation bit, one exactly on the words of the
    grammar, the bit of the instruction the word encodes, and none on the M extension. -/
structure AluBus (w : BitVec 32) : Prop where
  one : ∀ j k, 0 < j → 0 < k → (xf100ExuDecode w).decOAluInfo.getLsbD j = true →
    (xf100ExuDecode w).decOAluInfo.getLsbD k = true → j = k
  grammar : HasOp (xf100ExuDecode w).decOAluInfo ↔ AluWord w
  encodings : AluWord w ↔ ∃ i : Rv32i.Arith, i.encode = w
  names : ∀ i : Rv32i.Arith, i.encode = w → OnlyOp (xf100ExuDecode w).decOAluInfo (opBit i) ∧
    (xf100ExuDecode w).decOAluInfo.getLsbD (opBit i) = true
  mExtension : opcodeOf w = opOpcode → funct7Of w = 0b0000001#7 →
    ¬ HasOp (xf100ExuDecode w).decOAluInfo

theorem opBit_bounds (i : Rv32i.Arith) : 0 < opBit i ∧ opBit i < aluInfoWidth := by
  cases i with
  | lui rd u => exact ⟨Nat.succ_pos _, Nat.lt_succ_self _⟩
  | op o rd rs1 rs2 => exact aluBit_bounds o
  | opImm o rd rs1 imm => exact aluBit_bounds o.aluOp
  | shiftImm o rd rs1 shamt => exact aluBit_bounds o.aluOp

/-- **Every word**: the ALU bus accepts its grammar. -/
theorem aluBus (w : BitVec 32) : AluBus w := by
  constructor
  case one =>
    intro j k hj hk hbj hbk
    obtain ⟨n, hn⟩ := exists_onlyOp w
    have ej := (hn j hj (BitVec.lt_of_getLsbD hbj)).symm.trans hbj
    have ek := (hn k hk (BitVec.lt_of_getLsbD hbk)).symm.trans hbk
    rw [decide_eq_true_eq] at ej ek
    exact ej.trans ek.symm
  case grammar => exact hasOp_aluInfo w
  case encodings => exact aluWord_iff_encode w
  case names =>
    intro i hi
    subst hi
    obtain ⟨h0, hlt⟩ := opBit_bounds i
    exact ⟨onlyOp_encode i, (onlyOp_encode i _ h0 hlt).trans (decide_eq_true rfl)⟩
  case mExtension =>
    intro hopc h7 hop
    rcases (hasOp_aluInfo w).mp hop with h | ⟨-, h | ⟨h, -⟩⟩ | ⟨h, -⟩
    · exact absurd (hopc.symm.trans h) (by decide)
    · exact absurd (h7.symm.trans h) (by decide)
    · exact absurd (h7.symm.trans h) (by decide)
    · exact absurd (hopc.symm.trans h) (by decide)

/-! ## 3. The unit-select flags -/

/-- **The flags agree with the buses**, and every encoding raises the flag of the ALU. -/
structure SelectAgrees (w : BitVec 32) : Prop where
  alu : (xf100ExuDecode w).decOAluOp = true ↔ HasOp (xf100ExuDecode w).decOAluInfo
  agu : (xf100ExuDecode w).decOAguOp = true ↔ HasOp (xf100ExuDecode w).decOAguInfo
  encodings : (∃ i : Rv32i.Arith, i.encode = w) → (xf100ExuDecode w).decOAluOp = true

/-- The flag of the ALU lists LUI and the register forms. -/
theorem aluOp_iff (w : BitVec 32) :
    aluOp w = true ↔ opcodeOf w = luiOpcode ∨ ∃ o, IsReg o w := by
  rw [← exists_congr (regWire_iff w), exists_aluOp, ← luiOp_iff]
  simp only [aluOp, regWire, Bool.or_eq_true, Bool.false_eq_true, false_or, or_assoc]

/-- **The select flags.** They agree with the buses if and only if the word is no immediate form. -/
theorem selectAgrees_iff (w : BitVec 32) : SelectAgrees w ↔ ¬ ∃ o, IsImm o w := by
  have hagu : aguOp w = true ↔ HasOp (aguInfo w) := (aguOp_iff w).trans (hasOp_aguInfo w).symm
  have halu : HasOp (aluInfo w) ↔ opcodeOf w = luiOpcode ∨ (∃ o, IsReg o w) ∨ ∃ o, IsImm o w := by
    rw [hasOp_aluInfo, aluWord_iff, exists_or]
  constructor
  · intro h himm
    have hop : aluOp w = true := h.alu.mpr (halu.mpr (Or.inr (Or.inr himm)))
    obtain ⟨o, hopc, -⟩ := himm
    rcases (aluOp_iff w).mp hop with hl | ⟨o', hr⟩
    · exact absurd (hopc.symm.trans hl) (by decide)
    · exact absurd (hopc.symm.trans hr.1) (by decide)
  · intro h
    have hsel : aluOp w = true ↔ HasOp (aluInfo w) := by
      rw [aluOp_iff, halu]
      exact or_congr_right (or_iff_left h).symm
    refine ⟨hsel, hagu, fun hi => hsel.mpr ?_⟩
    rw [hasOp_aluInfo, aluWord_iff_encode]
    exact hi

/-- `addi x1, x0, 0` carries ADD on the bus and leaves the flag down. -/
theorem select_drops_addi : ¬ ∀ w : BitVec 32, SelectAgrees w := by
  intro h
  have h0 := (h (Arith.opImm .addi 1#5 0#5 0#12).encode).encodings ⟨_, rfl⟩
  revert h0
  decide +kernel

end Decode

end Xf100
