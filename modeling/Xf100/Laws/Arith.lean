/-
  File:      Xf100/Laws/Arith.lean
  Subject:   Register-form arithmetic, end to end.

  `Follows` compares one step of the core with the meaning of an instruction: every
  register and every word of the data RAM. For a word the AGU does not answer to, that is
  a statement about the ALU alone (`follows_alu_iff`).

  * `aluData_eq` -- the five operations the ALU gets right, on whatever operands reach it;
  * `regArith_iff` -- ADD, SUB, XOR, OR, AND: right except when rs1 = x0 closes the read
    port of rs2 and that port mattered.
-/
import Xf100.Effect

namespace Xf100

open Rv32i

/-! ## 1. The forms of an encoded instruction -/

namespace Decode

theorem isReg_encode (o : AluOp) (rd rs1 rs2 : BitVec 5) :
    IsReg o (Arith.op o rd rs1 rs2).encode :=
  ⟨opcodeOf_word _ _ _ _ _ _, funct3Of_word _ _ _ _ _ _, funct7Of_word _ _ _ _ _ _⟩

theorem isImm_encode (o : ImmOp) (rd rs1 : BitVec 5) (imm : BitVec 12) :
    IsImm o.aluOp (Arith.opImm o rd rs1 imm).encode :=
  ⟨opcodeOf_word _ _ _ _ _ _, Or.inl ⟨o, rfl, funct3Of_word _ _ _ _ _ _⟩⟩

theorem isImm_shift (o : ShiftOp) (rd rs1 shamt : BitVec 5) :
    IsImm o.aluOp (Arith.shiftImm o rd rs1 shamt).encode :=
  ⟨opcodeOf_word _ _ _ _ _ _,
    Or.inr ⟨o, rfl, funct3Of_word _ _ _ _ _ _, funct7Of_word _ _ _ _ _ _⟩⟩

/-- The `funct7` of an operation is neither constant: no load, no store. -/
theorem mem_of_funct7 {o : AluOp} {w : BitVec 32} (h : funct7Of w = o.funct7) :
    ldOp w = false ∧ stOp w = false := by
  have h7 : funct7Of w ≠ loadOpcode ∧ funct7Of w ≠ storeOpcode := by
    rw [h]
    cases o <;> decide
  constructor
  · rw [Bool.eq_false_iff]
    exact fun hl => h7.1 ((ldOp_iff w).mp hl).1
  · rw [Bool.eq_false_iff]
    exact fun hs => h7.2 ((stOp_iff w).mp hs).1

/-- A register form is never taken for a load or a store. -/
theorem mem_of_isReg {o : AluOp} {w : BitVec 32} (h : IsReg o w) :
    ldOp w = false ∧ stOp w = false := mem_of_funct7 h.2.2

/-- A register form carries no immediate. -/
theorem immEn_of_isReg {o : AluOp} {w : BitVec 32} (h : IsReg o w) : immEn w = false := by
  have hopc : opcodeOf w ≠ luiOpcode ∧ opcodeOf w ≠ opImmOpcode := by
    rw [h.1]
    decide
  obtain ⟨hl, hs⟩ := mem_of_isReg h
  rw [Bool.eq_false_iff]
  intro hi
  rcases (immEn_iff w).mp hi with hi | hi | hi | hi
  · exact hopc.1 hi
  · rcases (contiImm12bit_iff w).mp hi with hi | hi
    · exact hopc.2 hi.1
    · rw [hl] at hi
      cases hi
  · rw [hs] at hi
    cases hi
  · exact hopc.2 ((aluImm5bit_iff w).mp hi).1

end Decode

/-! ## 2. What the ALU computes for a word -/

namespace Exu

variable {rf : Regfile} {w : BitVec 32}

/-- **The ALU's result for the five operations without a shift or a comparison.** -/
theorem aluData_eq {o : AluOp} (h : Decode.IsReg o w ∨ Decode.IsImm o w)
    (ho : o ∈ [AluOp.add, .sub, .xor, .or, .and]) :
    aluData rf w =
      o.eval (rfRs1 rf w) (if Decode.immEn w then Decode.decImm w else rfRs2 rf w) := by
  have hop : OnlyOp (aluIn rf w).aluIAluInfo (Decode.aluBit o) := Decode.onlyOp_aluInfo h
  have h1 : Alu.aluRs1 (aluIn rf w) = rfRs1 rf w := rfl
  have h2 : Alu.aluRs2 (aluIn rf w) =
      if Decode.immEn w then Decode.decImm w else rfRs2 rf w := by
    rw [← Decode.aluInfo_hasImm]
    rfl
  rw [← h1, ← h2]
  simp only [List.mem_cons, List.not_mem_nil, or_false] at ho
  rcases ho with rfl | rfl | rfl | rfl | rfl
  · exact Alu.wbckData_add hop
  · exact Alu.wbckData_sub hop
  · exact Alu.wbckData_xor hop
  · exact Alu.wbckData_or hop
  · exact Alu.wbckData_and hop

end Exu

namespace Core

/-! ## 3. A step and the meaning of an instruction -/

/-- The registers of a state whose entry 0 is 0. -/
def regs (s : Core) (h0 : s.rfR 0 = 0#32) : Regs where
  x k := s.rfR k.toFin
  x_zero := h0

/-- **One step does what the instruction means**: on every register and every RAM word. -/
structure Follows (s : Core) (h0 : s.rfR 0 = 0#32) (i : Rv32i.Arith) (x : BitVec 32) : Prop where
  regs : ∀ k : BitVec 5, (step s (.twoState i.encode x)).rfR k.toFin = (i.exec (s.regs h0)).x k
  memR : (step s (.twoState i.encode x)).memR = s.memR

section Follows

variable {s : Core} {h0 : s.rfR 0 = 0#32} {i : Rv32i.Arith} {x : BitVec 32}

/-- A register written is read back, every other keeps its value. -/
theorem update_toFin (rf : Regfile) (k d : BitVec 5) (v : BitVec 32) :
    Function.update rf d.toFin v k.toFin = if k = d then v else rf k.toFin := by
  by_cases h : k = d
  · subst h
    simp
  · rw [if_neg h]
    exact Function.update_of_ne (fun e => h (BitVec.eq_of_toFin_eq e)) _ _

/-- Writing the value and nothing else is what an instruction means. -/
theorem follows_of_update (hd : i.rd ≠ 0#5)
    (h : step s (.twoState i.encode x) =
      ⟨Function.update s.rfR i.rd.toFin (i.value (s.regs h0)), s.memR⟩) : Follows s h0 i x := by
  refine ⟨fun k => ?_, by rw [h]⟩
  have hk : (step s (.twoState i.encode x)).rfR k.toFin =
      if k = i.rd then i.value (s.regs h0) else s.rfR k.toFin := by rw [h, ← update_toFin]
  rw [hk, Arith.exec]
  by_cases he : k = i.rd
  · rw [if_pos he, he, Regs.set_self _ hd]
  · rw [if_neg he, Regs.set_of_ne _ he]
    rfl

/-- **Where the AGU is silent the step is right exactly when the ALU is**, or when the
    destination is x0. -/
theorem follows_alu_iff (hl : Decode.ldOp i.encode = false) (hs : Decode.stOp i.encode = false) :
    Follows s h0 i x ↔
      (i.rd = 0#5 ∨ Exu.aluData s.rfR i.encode = i.value (s.regs h0)) := by
  by_cases hd : i.rd = 0#5
  · have hst : step s (.twoState i.encode x) = s := step_idle hl hs (by rw [Arith.rdOf_encode, hd])
    refine iff_of_true ⟨fun k => ?_, by rw [hst]⟩ (Or.inl hd)
    rw [hst, Arith.exec, hd, Regs.set_zero]
    rfl
  · have hst := step_alu (s := s) (x := x) hl hs (by rwa [Arith.rdOf_encode])
    rw [Arith.rdOf_encode] at hst
    constructor
    · intro h
      have hk := h.regs i.rd
      rw [hst, Arith.exec, Regs.set_self _ hd] at hk
      simp only [Function.update_self] at hk
      exact Or.inr hk
    · intro h
      exact follows_of_update hd (by rw [hst, h.resolve_left hd])

end Follows

/-! ## 4. Register forms -/

/-- Read port 1 is right for every word that is no LUI. -/
theorem rfRs1_regs {s : Core} (h0 : s.rfR 0 = 0#32) {w : BitVec 32}
    (hw : opcodeOf w ≠ luiOpcode) : Exu.rfRs1 s.rfR w = (s.regs h0).x (rs1Of w) := by
  rw [rfRs1_eq]
  by_cases h : rs1Of w = 0#5
  · rw [if_pos (Or.inl h), h]
    exact h0.symm
  · rw [if_neg (by simp [h, hw])]
    rfl

/-- Read port 2 of a register form: open unless rs1 is x0. -/
theorem rfRs2_of_isReg {rf : Regfile} {o : AluOp} {w : BitVec 32} (h : Decode.IsReg o w) :
    Exu.rfRs2 rf w = if rs1Of w = 0#5 then 0#32 else rf (rs2Of w).toFin := by
  by_cases h1 : rs1Of w = 0#5
  · rw [if_pos h1, rfRs2_of_rs1_zero h1]
  · have he : Decode.rs2En w = true := (Decode.rs2En_iff w).mpr ⟨h1, Or.inr ⟨o, h⟩⟩
    rw [rfRs2_eq, he, if_pos rfl, if_neg h1]

/-- With 0 on the left, an operation other than AND tells its right operand from 0. -/
theorem eval_zero_left_iff {o : AluOp} (ho : o ∈ [AluOp.add, .sub, .xor, .or, .and])
    (b : BitVec 32) : o.eval 0#32 b = o.eval 0#32 0#32 ↔ o = .and ∨ b = 0#32 := by
  simp only [List.mem_cons, List.not_mem_nil, or_false] at ho
  rcases ho with rfl | rfl | rfl | rfl | rfl <;> simp [AluOp.eval]

/-- **ADD, SUB, XOR, OR and AND, end to end.** The step is right if and only if the operation is
    AND, or rs1 is not x0, or rd is x0, or the register rs2 names holds 0. -/
theorem regArith_iff {o : AluOp} (ho : o ∈ [AluOp.add, .sub, .xor, .or, .and])
    (rd rs1 rs2 : BitVec 5) (s : Core) (h0 : s.rfR 0 = 0#32) (x : BitVec 32) :
    Follows s h0 (.op o rd rs1 rs2) x ↔
      (o = .and ∨ rs1 ≠ 0#5 ∨ rd = 0#5 ∨ s.rfR rs2.toFin = 0#32) := by
  have hi := Decode.isReg_encode o rd rs1 rs2
  obtain ⟨hl, hs⟩ := Decode.mem_of_isReg hi
  have hrs1 : rs1Of (Arith.op o rd rs1 rs2).encode = rs1 := rs1Of_word _ _ _ _ _ _
  have hrs2 : rs2Of (Arith.op o rd rs1 rs2).encode = rs2 := rs2Of_word _ _ _ _ _ _
  have hnl : opcodeOf (Arith.op o rd rs1 rs2).encode ≠ luiOpcode := by
    rw [hi.1]
    decide
  have hdata : Exu.aluData s.rfR (Arith.op o rd rs1 rs2).encode =
      o.eval ((s.regs h0).x rs1) (if rs1 = 0#5 then 0#32 else s.rfR rs2.toFin) := by
    rw [Exu.aluData_eq (Or.inl hi) ho, Decode.immEn_of_isReg hi, rfRs1_regs h0 hnl,
      rfRs2_of_isReg hi, hrs1, hrs2]
    rfl
  rw [follows_alu_iff hl hs, hdata]
  show rd = 0#5 ∨ _ = o.eval ((s.regs h0).x rs1) (s.rfR rs2.toFin) ↔ _
  by_cases h1 : rs1 = 0#5
  · -- both operands reach the ALU as 0
    have hx : (s.regs h0).x rs1 = 0#32 := by rw [h1]; exact (s.regs h0).x_zero
    have hz := eval_zero_left_iff ho (s.rfR rs2.toFin)
    rw [if_pos h1, hx, eq_comm (a := o.eval 0#32 0#32), hz]
    simp only [h1, ne_eq, not_true_eq_false, false_or]
    exact or_left_comm
  · rw [if_neg h1]
    exact iff_of_true (Or.inr rfl) (Or.inr (Or.inl h1))

/-- `add x3, x1, x1` with 5 in x1: both read ports are open. -/
theorem add_x1_x1 : Follows ⟨fun k => if k = 1 then 5#32 else 0#32, fun _ => 0#32⟩ (by decide)
    (.op .add 3#5 1#5 1#5) 0#32 :=
  (regArith_iff (by decide) 3#5 1#5 1#5 _ (by decide) 0#32).mpr (by decide)

/-- `add x3, x0, x1` with 5 in x1 leaves 0 in x3. -/
theorem add_zero_src1 : ¬ ∀ (o : AluOp), o ∈ [AluOp.add, .sub, .xor, .or, .and] →
    ∀ (rd rs1 rs2 : BitVec 5) (s : Core) (h0 : s.rfR 0 = 0#32) (x : BitVec 32),
      Follows s h0 (.op o rd rs1 rs2) x := by
  intro h
  have h3 := (h .add (by decide) 3#5 0#5 1#5 ⟨fun k => if k = 1 then 5#32 else 0#32, fun _ => 0#32⟩
    (by decide) 0#32).regs 3#5
  revert h3
  decide +kernel

end Core

end Xf100
