/-
  File:      Xf100/DecodeLaws.lean
  Subject:   What the decoder sets, read off the fields of the word.

  * `memWire_iff` -- a load or store is known by `funct7` where the instruction set asks for
    the opcode; `aguInfo_bit` is its bit, `ldOp_iff`, `stOp_iff` are its unions, and no word
    is both;
  * `regWire_iff`, `immWire_iff`, `shiftWire_iff` -- the wires of the ALU forms;
  * `aluInfo_bit` -- an ALU bit, for every word;
  * `decImm_eq` -- the immediate is the OR of the formats the word selects.
-/
import Xf100.Decode
import Xf100.Rv32i

namespace Xf100

open Rv32i

namespace Decode

variable (w : BitVec 32)

/-! ## 1. Fields -/

theorem opcode_eq : opcode w = opcodeOf w := rfl
theorem rdIdx_eq : rdIdx w = rdOf w := rfl
theorem rs1Idx_eq : rs1Idx w = rs1Of w := rfl

/-! ## 2. Loads and stores -/

/-- The position of a load or store on the AGU info bus. -/
def aguBit : MemOp → Nat
  | .load .lb => aguInfoDefLb
  | .load .lh => aguInfoDefLh
  | .load .lw => aguInfoDefLw
  | .load .lbu => aguInfoDefLbu
  | .load .lhu => aguInfoDefLhu
  | .store .sb => aguInfoDefSb
  | .store .sh => aguInfoDefSh
  | .store .sw => aguInfoDefSw

/-- The wire of a load or store. -/
def memWire (w : BitVec 32) : MemOp → Bool
  | .load .lb => lbOp w
  | .load .lh => lhOp w
  | .load .lw => lwOp w
  | .load .lbu => lbuOp w
  | .load .lhu => lhuOp w
  | .store .sb => sbOp w
  | .store .sh => shOp w
  | .store .sw => swOp w

/-- **A load or store is known by `funct7`**, compared with what is the opcode of the
    instruction. -/
theorem memWire_iff (o : MemOp) :
    memWire w o = true ↔ funct7Of w = o.opcode ∧ funct3Of w = o.funct3 := by
  have h : memWire w o = ((funct7 w == o.opcode) && (funct3 w == o.funct3)) := by
    rcases o with o | o <;> cases o <;> rfl
  rw [h, Bool.and_eq_true, beq_iff_eq, beq_iff_eq]
  rfl

/-- A load or store bit is its wire. -/
theorem aguInfo_bit (o : MemOp) :
    (aguInfo w).getLsbD (aguBit o) = true ↔ funct7Of w = o.opcode ∧ funct3Of w = o.funct3 := by
  rw [← memWire_iff, aguInfo, Sync.getLsbD_bus]
  rcases o with o | o <;> cases o <;> rfl

/-- The word is taken for a load: its `funct7` is the opcode constant of the loads. -/
def TakenLoad (w : BitVec 32) : Prop :=
  funct7Of w = loadOpcode ∧ ∃ o : LoadOp, funct3Of w = o.funct3

/-- The word is taken for a store. -/
def TakenStore (w : BitVec 32) : Prop :=
  funct7Of w = storeOpcode ∧ ∃ o : StoreOp, funct3Of w = o.funct3

theorem exists_loadOp {p : LoadOp → Prop} :
    (∃ o, p o) ↔ p .lb ∨ p .lh ∨ p .lw ∨ p .lbu ∨ p .lhu := by
  constructor
  · intro hx
    obtain ⟨o, h⟩ := hx
    cases o <;> simp [h]
  · intro hx
    rcases hx with h | h | h | h | h <;> exact ⟨_, h⟩

theorem exists_storeOp {p : StoreOp → Prop} : (∃ o, p o) ↔ p .sb ∨ p .sh ∨ p .sw := by
  constructor
  · intro hx
    obtain ⟨o, h⟩ := hx
    cases o <;> simp [h]
  · intro hx
    rcases hx with h | h | h <;> exact ⟨_, h⟩

theorem ldOp_iff : ldOp w = true ↔ TakenLoad w := by
  have h : TakenLoad w ↔ ∃ o, memWire w (.load o) = true :=
    exists_and_left.symm.trans (exists_congr fun o => (memWire_iff w (.load o)).symm)
  rw [h, exists_loadOp]
  simp only [ldOp, memWire, Bool.or_eq_true, or_assoc]

theorem stOp_iff : stOp w = true ↔ TakenStore w := by
  have h : TakenStore w ↔ ∃ o, memWire w (.store o) = true :=
    exists_and_left.symm.trans (exists_congr fun o => (memWire_iff w (.store o)).symm)
  rw [h, exists_storeOp]
  simp only [stOp, memWire, Bool.or_eq_true, or_assoc]

instance : Decidable (TakenLoad w) := decidable_of_iff _ (ldOp_iff w)

instance : Decidable (TakenStore w) := decidable_of_iff _ (stOp_iff w)

theorem ldOp_eq_false : ldOp w = false ↔ ¬ TakenLoad w := by
  rw [Bool.eq_false_iff, ne_eq, ldOp_iff]

theorem stOp_eq_false : stOp w = false ↔ ¬ TakenStore w := by
  rw [Bool.eq_false_iff, ne_eq, stOp_iff]

/-- **No word is taken for a load and a store.** -/
theorem ldOp_of_stOp (h : stOp w = true) : ldOp w = false := by
  rw [Bool.eq_false_iff]
  intro hl
  have h1 := ((stOp_iff w).mp h).1
  have h2 := ((ldOp_iff w).mp hl).1
  rw [h1] at h2
  exact absurd h2 (by decide)

theorem stOp_of_ldOp (h : ldOp w = true) : stOp w = false := by
  rw [Bool.eq_false_iff]
  intro hs
  rw [ldOp_of_stOp w hs] at h
  cases h

/-- The AGU is selected exactly when some bit of its bus is set. -/
theorem aguOp_iff : aguOp w = true ↔ ∃ o : MemOp, (aguInfo w).getLsbD (aguBit o) = true := by
  unfold aguOp
  rw [Bool.or_eq_true, ldOp_iff, stOp_iff]
  constructor
  · intro hx
    rcases hx with ⟨h7, o, h3⟩ | ⟨h7, o, h3⟩
    · exact ⟨.load o, (aguInfo_bit w _).mpr ⟨h7, h3⟩⟩
    · exact ⟨.store o, (aguInfo_bit w _).mpr ⟨h7, h3⟩⟩
  · intro hx
    rcases hx with ⟨o | o, h⟩
    · obtain ⟨h7, h3⟩ := (aguInfo_bit w _).mp h
      exact Or.inl ⟨h7, o, h3⟩
    · obtain ⟨h7, h3⟩ := (aguInfo_bit w _).mp h
      exact Or.inr ⟨h7, o, h3⟩

/-! ## 3. ALU operations -/

/-- The position of an operation on the ALU info bus. -/
def aluBit : AluOp → Nat
  | .add => aluInfoDefAdd
  | .sub => aluInfoDefSub
  | .sll => aluInfoDefSll
  | .slt => aluInfoDefSlt
  | .sltu => aluInfoDefSltu
  | .xor => aluInfoDefXor
  | .srl => aluInfoDefSrl
  | .sra => aluInfoDefSra
  | .or => aluInfoDefOr
  | .and => aluInfoDefAnd

/-- The word is the register form of `o`. -/
def IsReg (o : AluOp) (w : BitVec 32) : Prop :=
  opcodeOf w = opOpcode ∧ funct3Of w = o.funct3 ∧ funct7Of w = o.funct7

/-- The word is the immediate form of `o`: only the shifts look at `funct7`. -/
def IsImm (o : AluOp) (w : BitVec 32) : Prop :=
  opcodeOf w = opImmOpcode ∧ ((∃ i : ImmOp, i.aluOp = o ∧ funct3Of w = o.funct3) ∨
    ∃ i : ShiftOp, i.aluOp = o ∧ funct3Of w = o.funct3 ∧ funct7Of w = o.funct7)

theorem exists_aluOp {p : AluOp → Prop} :
    (∃ o, p o) ↔ p .add ∨ p .sub ∨ p .sll ∨ p .slt ∨ p .sltu ∨ p .xor ∨ p .srl ∨ p .sra ∨ p .or ∨
      p .and := by
  constructor
  · intro hx
    obtain ⟨o, h⟩ := hx
    cases o <;> simp [h]
  · intro hx
    rcases hx with h | h | h | h | h | h | h | h | h | h <;> exact ⟨_, h⟩

theorem exists_immOp {p : ImmOp → Prop} :
    (∃ i, p i) ↔ p .addi ∨ p .slti ∨ p .sltiu ∨ p .xori ∨ p .ori ∨ p .andi := by
  constructor
  · intro hx
    obtain ⟨i, h⟩ := hx
    cases i <;> simp [h]
  · intro hx
    rcases hx with h | h | h | h | h | h <;> exact ⟨_, h⟩

theorem exists_shiftOp {p : ShiftOp → Prop} :
    (∃ i, p i) ↔ p .slli ∨ p .srli ∨ p .srai := by
  constructor
  · intro hx
    obtain ⟨i, h⟩ := hx
    cases i <;> simp [h]
  · intro hx
    rcases hx with h | h | h <;> exact ⟨_, h⟩

/-- A comparison of all three fields, in the order of the source. -/
theorem fields_iff (f7 : BitVec 7) (f3 : BitVec 3) (opc : BitVec 7) :
    ((funct7 w == f7) && (funct3 w == f3) && (opcode w == opc)) = true ↔
      opcodeOf w = opc ∧ funct3Of w = f3 ∧ funct7Of w = f7 := by
  rw [Bool.and_eq_true, Bool.and_eq_true, beq_iff_eq, beq_iff_eq, beq_iff_eq, and_comm,
    and_comm (a := funct7 w = f7)]
  rfl

/-- The wire of a register form. -/
def regWire (w : BitVec 32) : AluOp → Bool
  | .add => addOp w
  | .sub => subOp w
  | .sll => sllOp w
  | .slt => sltOp w
  | .sltu => sltuOp w
  | .xor => xorOp w
  | .srl => srlOp w
  | .sra => sraOp w
  | .or => orOp w
  | .and => andOp w

/-- The wire of an immediate form. -/
def immWire (w : BitVec 32) : ImmOp → Bool
  | .addi => addiOp w
  | .slti => sltiOp w
  | .sltiu => sltiuOp w
  | .xori => xoriOp w
  | .ori => oriOp w
  | .andi => andiOp w

/-- The wire of an immediate shift. -/
def shiftWire (w : BitVec 32) : ShiftOp → Bool
  | .slli => slliOp w
  | .srli => srliOp w
  | .srai => sraiOp w

theorem regWire_iff (w : BitVec 32) (o : AluOp) : regWire w o = true ↔ IsReg o w := by
  have h : regWire w o = ((funct7 w == o.funct7) && (funct3 w == o.funct3) &&
      (opcode w == opOpcode)) := by
    cases o <;> rfl
  rw [h, fields_iff]
  rfl

/-- Read port 2 is opened by a store and by a register form, and **closed by rs1**. -/
theorem rs2En_iff :
    rs2En w = true ↔ rs1Of w ≠ 0#5 ∧ (stOp w = true ∨ ∃ o, IsReg o w) := by
  rw [← exists_congr (regWire_iff w), exists_aluOp]
  simp only [rs2En, rs1Idx_eq, regWire, bxxOp, Bool.and_eq_true, bne_iff_ne, Bool.or_eq_true,
    Bool.false_eq_true, false_or, or_assoc]

theorem immWire_iff (i : ImmOp) :
    immWire w i = true ↔ opcodeOf w = opImmOpcode ∧ funct3Of w = i.aluOp.funct3 := by
  have h : immWire w i = ((funct3 w == i.aluOp.funct3) && (opcode w == opImmOpcode)) := by
    cases i <;> rfl
  rw [h, Bool.and_eq_true, beq_iff_eq, beq_iff_eq, and_comm]
  rfl

theorem shiftWire_iff (i : ShiftOp) : shiftWire w i = true ↔
    opcodeOf w = opImmOpcode ∧ funct3Of w = i.aluOp.funct3 ∧ funct7Of w = i.aluOp.funct7 := by
  have h : shiftWire w i = ((funct7 w == i.aluOp.funct7) && (funct3 w == i.aluOp.funct3) &&
      (opcode w == opImmOpcode)) := by
    cases i <;> rfl
  rw [h, fields_iff]

/-- An immediate form by its wire. -/
theorem isImm_iff (o : AluOp) : IsImm o w ↔
    (∃ i : ImmOp, i.aluOp = o ∧ immWire w i = true) ∨
      ∃ i : ShiftOp, i.aluOp = o ∧ shiftWire w i = true := by
  constructor
  · intro hx
    obtain ⟨hopc, ⟨i, rfl, h3⟩ | ⟨i, rfl, h3, h7⟩⟩ := hx
    · exact Or.inl ⟨i, rfl, (immWire_iff w i).mpr ⟨hopc, h3⟩⟩
    · exact Or.inr ⟨i, rfl, (shiftWire_iff w i).mpr ⟨hopc, h3, h7⟩⟩
  · intro hx
    rcases hx with ⟨i, rfl, hi⟩ | ⟨i, rfl, hi⟩
    · obtain ⟨hopc, h3⟩ := (immWire_iff w i).mp hi
      exact ⟨hopc, Or.inl ⟨i, rfl, h3⟩⟩
    · obtain ⟨hopc, h3, h7⟩ := (shiftWire_iff w i).mp hi
      exact ⟨hopc, Or.inr ⟨i, rfl, h3, h7⟩⟩

/-- **An ALU bit is set by the register form and the immediate form, and by nothing else.** -/
theorem aluInfo_bit (o : AluOp) :
    (aluInfo w).getLsbD (aluBit o) = true ↔ IsReg o w ∨ IsImm o w := by
  rw [← regWire_iff, isImm_iff, exists_immOp, exists_shiftOp, aluInfo, Sync.getLsbD_bus]
  cases o <;> simp [aluBit, regWire, immWire, shiftWire, ImmOp.aluOp, ShiftOp.aluOp]

theorem luiOp_iff : luiOp w = true ↔ opcodeOf w = luiOpcode := by
  simp [luiOp, opcode_0110111, opcode_eq, luiOpcode]

theorem aluInfo_lui : (aluInfo w).getLsbD aluInfoDefLui = luiOp w := by
  unfold aluInfo
  rw [Sync.getLsbD_bus]
  simp

theorem aluInfo_hasImm : (aluInfo w).getLsbD aluInfoDefHasImm = immEn w := by
  unfold aluInfo
  rw [Sync.getLsbD_bus]
  simp

/-! ## 4. Operations on a bus -/

theorem aguBit_pos (o : MemOp) : 0 < aguBit o := by
  rcases o with o | o <;> cases o <;> decide

theorem exists_aguBit {k : Nat} (h0 : 0 < k) (hk : k < aguInfoWidth) : ∃ o, aguBit o = k := by
  have h : k = 1 ∨ k = 2 ∨ k = 3 ∨ k = 4 ∨ k = 5 ∨ k = 6 ∨ k = 7 ∨ k = 8 := by
    have hk' : k < 9 := hk
    omega
  rcases h with rfl | rfl | rfl | rfl | rfl | rfl | rfl | rfl
  · exact ⟨.load .lb, rfl⟩
  · exact ⟨.load .lh, rfl⟩
  · exact ⟨.load .lw, rfl⟩
  · exact ⟨.load .lbu, rfl⟩
  · exact ⟨.load .lhu, rfl⟩
  · exact ⟨.store .sb, rfl⟩
  · exact ⟨.store .sh, rfl⟩
  · exact ⟨.store .sw, rfl⟩

theorem exists_aluBit {k : Nat} (h0 : 0 < k) (hk : k < aluInfoWidth) :
    (∃ o, aluBit o = k) ∨ k = aluInfoDefLui := by
  have h : k = 1 ∨ k = 2 ∨ k = 3 ∨ k = 4 ∨ k = 5 ∨ k = 6 ∨ k = 7 ∨ k = 8 ∨ k = 9 ∨ k = 10 ∨
      k = 11 := by
    have hk' : k < 12 := hk
    omega
  rcases h with rfl | rfl | rfl | rfl | rfl | rfl | rfl | rfl | rfl | rfl | rfl
  · exact Or.inl ⟨.add, rfl⟩
  · exact Or.inl ⟨.sub, rfl⟩
  · exact Or.inl ⟨.sll, rfl⟩
  · exact Or.inl ⟨.slt, rfl⟩
  · exact Or.inl ⟨.sltu, rfl⟩
  · exact Or.inl ⟨.xor, rfl⟩
  · exact Or.inl ⟨.srl, rfl⟩
  · exact Or.inl ⟨.sra, rfl⟩
  · exact Or.inl ⟨.or, rfl⟩
  · exact Or.inl ⟨.and, rfl⟩
  · exact Or.inr rfl

theorem hasOp_aguInfo : HasOp (aguInfo w) ↔ ∃ o : MemOp, (aguInfo w).getLsbD (aguBit o) = true := by
  constructor
  · intro hx
    obtain ⟨k, h0, h⟩ := hx
    obtain ⟨o, rfl⟩ := exists_aguBit h0 (BitVec.lt_of_getLsbD h)
    exact ⟨o, h⟩
  · intro hx
    obtain ⟨o, h⟩ := hx
    exact ⟨aguBit o, aguBit_pos o, h⟩

/-- **An ALU operation is only found on the opcodes OP, OP-IMM and LUI.** -/
theorem opcode_of_hasOp_aluInfo (h : HasOp (aluInfo w)) :
    opcodeOf w = opOpcode ∨ opcodeOf w = opImmOpcode ∨ opcodeOf w = luiOpcode := by
  obtain ⟨k, h0, hk⟩ := h
  rcases exists_aluBit h0 (BitVec.lt_of_getLsbD hk) with ⟨o, rfl⟩ | rfl
  · rcases (aluInfo_bit w o).mp hk with hr | hi
    · exact Or.inl hr.1
    · exact Or.inr (Or.inl hi.1)
  · rw [aluInfo_lui] at hk
    exact Or.inr (Or.inr ((luiOp_iff w).mp hk))

/-! ## 5. One operation -/

theorem aluBit_inj {o o' : AluOp} (h : aluBit o = aluBit o') : o = o' := by
  cases o <;> cases o' <;> first | rfl | exact absurd h (by decide)

theorem aluBit_ne_lui (o : AluOp) : aluInfoDefLui ≠ aluBit o := by
  cases o <;> decide

theorem aluOp_ext {o o' : AluOp} (h3 : o.funct3 = o'.funct3) (h7 : o.funct7 = o'.funct7) :
    o = o' := by
  cases o <;> cases o' <;> first | rfl | exact absurd h3 (by decide) | exact absurd h7 (by decide)

theorem immOp_ext {i i' : ImmOp} (h3 : i.aluOp.funct3 = i'.aluOp.funct3) : i = i' := by
  cases i <;> cases i' <;> first | rfl | exact absurd h3 (by decide)

theorem immOp_ne_shiftOp (i : ImmOp) (j : ShiftOp) : i.aluOp.funct3 ≠ j.aluOp.funct3 := by
  cases i <;> cases j <;> decide

variable {w}

theorem isImm_unique {o o' : AluOp} (h : IsImm o w) (h' : IsImm o' w) : o = o' := by
  obtain ⟨-, ⟨i, rfl, h3⟩ | ⟨i, rfl, h3, h7⟩⟩ := h <;>
    obtain ⟨-, ⟨j, rfl, k3⟩ | ⟨j, rfl, k3, k7⟩⟩ := h'
  · rw [immOp_ext (h3.symm.trans k3)]
  · exact absurd (h3.symm.trans k3) (immOp_ne_shiftOp i j)
  · exact absurd (k3.symm.trans h3) (immOp_ne_shiftOp j i)
  · exact aluOp_ext (h3.symm.trans k3) (h7.symm.trans k7)

/-- **The forms of the ten operations are pairwise disjoint**: on the ALU bus of a word that is a
    form of `o`, `o` stands alone. -/
theorem onlyOp_aluInfo {o : AluOp} (h : IsReg o w ∨ IsImm o w) :
    OnlyOp (aluInfo w) (aluBit o) := by
  have hopc : opcodeOf w ≠ luiOpcode := by
    rcases h with h | h <;> rw [h.1] <;> decide
  have uniq : ∀ o', IsReg o' w ∨ IsImm o' w → o' = o := by
    intro o' hx
    rcases hx with h' | h'
    · rcases h with h | h
      · exact aluOp_ext (h'.2.1.symm.trans h.2.1) (h'.2.2.symm.trans h.2.2)
      · exact absurd (h'.1.symm.trans h.1) (by decide)
    · rcases h with h | h
      · exact absurd (h.1.symm.trans h'.1) (by decide)
      · exact isImm_unique h' h
  intro j h0 hj
  rw [Bool.eq_iff_iff, decide_eq_true_eq]
  rcases exists_aluBit h0 hj with ⟨o', rfl⟩ | rfl
  · rw [aluInfo_bit]
    exact ⟨fun h' => congrArg aluBit (uniq o' h'), fun e => aluBit_inj e ▸ h⟩
  · rw [aluInfo_lui, luiOp_iff]
    exact ⟨fun e => absurd e hopc, fun e => absurd e (aluBit_ne_lui o)⟩

/-- A LUI word carries nothing but LUI on the ALU bus. -/
theorem onlyOp_lui (h : opcodeOf w = luiOpcode) : OnlyOp (aluInfo w) aluInfoDefLui := by
  intro j h0 hj
  rw [Bool.eq_iff_iff, decide_eq_true_eq]
  rcases exists_aluBit h0 hj with ⟨o, rfl⟩ | rfl
  · rw [aluInfo_bit]
    constructor
    · intro hx
      rcases hx with hr | hi
      · exact absurd (h.symm.trans hr.1) (by decide)
      · exact absurd (h.symm.trans hi.1) (by decide)
    · exact fun e => absurd e.symm (aluBit_ne_lui o)
  · rw [aluInfo_lui, luiOp_iff]
    exact iff_of_true h rfl

/-- A word that is no form of an operation and no LUI carries no operation. -/
theorem onlyOp_none (hop : ∀ o, ¬ (IsReg o w ∨ IsImm o w)) (hlui : opcodeOf w ≠ luiOpcode) :
    OnlyOp (aluInfo w) 0 := by
  intro j h0 hj
  rw [decide_eq_false (Nat.ne_of_gt h0), Bool.eq_false_iff]
  rcases exists_aluBit h0 hj with ⟨o, rfl⟩ | rfl
  · rw [ne_eq, aluInfo_bit]
    exact hop o
  · rw [ne_eq, aluInfo_lui, luiOp_iff]
    exact hlui

/-- A LUI word, a register form and an immediate form are encodings of an instruction. -/
theorem exists_encode (h : opcodeOf w = luiOpcode ∨ ∃ o, IsReg o w ∨ IsImm o w) :
    ∃ i : Arith, i.encode = w := by
  have hw := word_fields w
  rcases h with hopc | ⟨o, ⟨hopc, h3, h7⟩ | ⟨hopc, ⟨i, rfl, h3⟩ | ⟨i, rfl, h3, h7⟩⟩⟩
  · obtain ⟨e1, e2, e3, e4⟩ := imm20_split (funct7Of w) (rs2Of w) (rs1Of w) (funct3Of w)
    refine ⟨.lui (rdOf w) (funct7Of w ++ rs2Of w ++ rs1Of w ++ funct3Of w), ?_⟩
    rw [hopc] at hw
    rw [Arith.encode, e1, e2, e3, e4, hw]
  · refine ⟨.op o (rdOf w) (rs1Of w) (rs2Of w), ?_⟩
    rw [hopc, h3, h7] at hw
    exact hw
  · obtain ⟨e1, e2⟩ := imm_split (funct7Of w) (rs2Of w)
    refine ⟨.opImm i (rdOf w) (rs1Of w) (funct7Of w ++ rs2Of w), ?_⟩
    rw [hopc, h3] at hw
    rw [Arith.encode, e1, e2, hw]
  · refine ⟨.shiftImm i (rdOf w) (rs1Of w) (rs2Of w), ?_⟩
    rw [hopc, h3, h7] at hw
    exact hw

/-- **A word without a destination carries no operation on the ALU bus.** -/
theorem onlyOp_of_not_hasDest (h : ¬ HasDest w) : OnlyOp (aluInfo w) 0 := by
  have hno : ¬ (opcodeOf w = luiOpcode ∨ ∃ o, IsReg o w ∨ IsImm o w) := fun hd =>
    h (Or.inl (exists_encode hd))
  obtain ⟨hlui, hop⟩ := not_or.mp hno
  exact onlyOp_none (not_exists.mp hop) hlui

/-! ## 6. The immediate -/

/-- The four readings of a word as an immediate: U, I, S and shift amount. -/
def uImm (w : BitVec 32) : BitVec 32 := w.extractLsb 31 12 ++ 0#12
def iImm (w : BitVec 32) : BitVec 32 := (w.extractLsb 31 20).signExtend 32
def sImm (w : BitVec 32) : BitVec 32 := (funct7Of w ++ rdOf w).signExtend 32
def shImm (w : BitVec 32) : BitVec 32 := 0#27 ++ rs2Of w

theorem iImm_eq (w : BitVec 32) :
    BitVec.fill 20 (w.getLsbD 31) ++ w.extractLsb 31 20 = iImm w := by
  have h : (w.extractLsb 31 20).getLsbD (12 - 1) = w.getLsbD 31 := by
    rw [BitVec.getLsbD_extractLsb]
    rfl
  rw [← h]
  exact Sync.fill_append_eq_signExtend (n := 12) (m := 20) _

theorem sImm_eq (w : BitVec 32) :
    BitVec.fill 20 (w.getLsbD 31) ++ w.extractLsb 31 25 ++ w.extractLsb 11 7 = sImm w := by
  have h : (funct7Of w ++ rdOf w).getLsbD (12 - 1) = w.getLsbD 31 := by
    rw [BitVec.getLsbD_append]
    simp [funct7Of]
  unfold sImm
  rw [← Sync.fill_append_eq_signExtend (n := 12) (m := 20), h]
  exact BitVec.append_assoc

/-- **The immediate is the OR of every format the word selects.** -/
theorem decImm_eq (w : BitVec 32) : decImm w =
    (if opcodeOf w = luiOpcode then uImm w else 0#32)
      ||| (if contiImm12bit w then iImm w else 0#32)
      ||| (if stOp w then sImm w else 0#32)
      ||| (if aluImm5bit w then shImm w else 0#32) := by
  simp only [decImm, Sync.fill_and, iImm_eq, sImm_eq, BitVec.zero_or, swImm12bit, Bool.false_or,
    aluImm20bit, luiOp_iff]
  rfl

/-! ## 7. Which format a word selects -/

/-- The I format: the six immediate forms, and whatever is taken for a load. -/
theorem contiImm12bit_iff (w : BitVec 32) : contiImm12bit w = true ↔
    (opcodeOf w = opImmOpcode ∧ ∃ i : ImmOp, funct3Of w = i.aluOp.funct3) ∨ ldOp w = true := by
  rw [← exists_and_left, ← exists_congr (immWire_iff w), exists_immOp]
  simp only [contiImm12bit, ldOp, immWire, Bool.or_eq_true, Bool.false_eq_true, false_or, or_assoc]

theorem aluImm5bit_iff (w : BitVec 32) : aluImm5bit w = true ↔ opcodeOf w = opImmOpcode ∧
    ∃ i : ShiftOp, funct3Of w = i.aluOp.funct3 ∧ funct7Of w = i.aluOp.funct7 := by
  rw [← exists_and_left, ← exists_congr (shiftWire_iff w), exists_shiftOp]
  simp only [aluImm5bit, shiftWire, Bool.or_eq_true, Bool.false_eq_true, false_or, or_assoc]

/-- Off OP-IMM the I format is the loads' alone, and no shift amount is read. -/
theorem contiImm12bit_eq (h : opcodeOf w ≠ opImmOpcode) : contiImm12bit w = ldOp w := by
  rw [Bool.eq_iff_iff, contiImm12bit_iff]
  simp [h]

theorem aluImm5bit_ne (h : opcodeOf w ≠ opImmOpcode) : ¬ aluImm5bit w = true := fun hs =>
  h ((aluImm5bit_iff w).mp hs).1

theorem immEn_iff (w : BitVec 32) : immEn w = true ↔
    opcodeOf w = luiOpcode ∨ contiImm12bit w = true ∨ stOp w = true ∨ aluImm5bit w = true := by
  rw [← luiOp_iff]
  simp [immEn, aluImm20bit, swImm12bit, or_assoc]

end Decode

end Xf100
