/-
  File:      Xf100/Laws/Safe.lean
  Subject:   The arithmetic instructions that are right in every state, all twenty of them.

  `Safe` lists them: the rest of RV32I's register arithmetic goes wrong in some state. The
  ALU's answer to an encoded instruction is the interpreter's (`aluData_op`); against the
  meaning of the instruction that leaves a condition on the fields alone, because each field
  pattern outside the list has a state that shows the difference.

  * `follows_iff_safe` -- one instruction, every state;
  * `runs_iff_safe` -- programs over a set of instructions, every state and every run, in the
    two-state model.
-/
import Xf100.Laws.ImmArith
import Xf100.Laws.Interpreter

namespace Xf100

open Rv32i

namespace Exu

/-! ## 1. What the ALU answers to an encoded instruction -/

variable {rf : Regfile} {w : BitVec 32}

/-- An operation computes from its two operands alone. -/
theorem compute_op (a b v : BitVec 32) (o : AluOp) :
    AsBuilt.compute a b v (some (.op o)) = AsBuilt.compute a b 0#32 (some (.op o)) := by
  cases o <;> rfl

/-- **The ALU on any form of any of the ten operations.** -/
theorem aluData_form {o : AluOp} (h : Decode.IsReg o w ∨ Decode.IsImm o w) :
    aluData rf w = AsBuilt.compute (rfRs1 rf w)
      (if Decode.immEn w then Decode.decImm w else rfRs2 rf w) 0#32 (some (.op o)) := by
  have hbus : OnlyOp (aluIn rf w).aluIAluInfo (Decode.aluBit o) := Decode.onlyOp_aluInfo h
  have h2 : Alu.aluRs2 (aluIn rf w) =
      if Decode.immEn w then Decode.decImm w else rfRs2 rf w := by
    rw [← Decode.aluInfo_hasImm]
    rfl
  rw [← h2, ← compute_op _ _ (aluIn rf w).aluIImm]
  exact AsBuilt.wbckData_op hbus

end Exu

namespace Core

variable {s : Core} {h0 : s.rfR 0 = 0#32} {x : BitVec 32}

/-- A register form: the second operand is 0 behind x0. -/
theorem aluData_op (h0 : s.rfR 0 = 0#32) (o : AluOp) (rd rs1 rs2 : BitVec 5) :
    Exu.aluData s.rfR (Arith.op o rd rs1 rs2).encode =
      AsBuilt.compute ((s.regs h0).x rs1) (if rs1 = 0#5 then 0#32 else (s.regs h0).x rs2) 0#32
        (some (.op o)) := by
  have hi := Decode.isReg_encode o rd rs1 rs2
  have hrs1 : rs1Of (Arith.op o rd rs1 rs2).encode = rs1 := rs1Of_word _ _ _ _ _ _
  have hrs2 : rs2Of (Arith.op o rd rs1 rs2).encode = rs2 := rs2Of_word _ _ _ _ _ _
  have hnl : opcodeOf (Arith.op o rd rs1 rs2).encode ≠ luiOpcode := by
    rw [hi.1]
    decide
  rw [Exu.aluData_form (Or.inl hi), Decode.immEn_of_isReg hi, rfRs1_regs h0 hnl,
    rfRs2_of_isReg hi, hrs1, hrs2]
  rfl

/-- An immediate form, unless its immediate is read in the S format too. -/
theorem aluData_imm (h0 : s.rfR 0 = 0#32) (o : ImmOp) (rd rs1 : BitVec 5) (imm : BitVec 12)
    (hs : Decode.stOp (Arith.opImm o rd rs1 imm).encode = false) :
    Exu.aluData s.rfR (Arith.opImm o rd rs1 imm).encode =
      AsBuilt.compute ((s.regs h0).x rs1) (imm.signExtend 32) 0#32 (some (.op o.aluOp)) := by
  have hnl : opcodeOf (Arith.opImm o rd rs1 imm).encode ≠ luiOpcode := by
    rw [Decode.opcodeOf_opImm]
    decide
  rw [Exu.aluData_form (Or.inr (Decode.isImm_encode o rd rs1 imm)), Decode.immEn_opImm,
    if_pos rfl, rfRs1_regs h0 hnl, Decode.rs1Of_opImm, Decode.decImm_opImm, hs,
    if_neg (by decide), BitVec.or_zero]

/-- An immediate shift answers 0. -/
theorem aluData_shift (rf : Regfile) (o : ShiftOp) (rd rs1 shamt : BitVec 5) :
    Exu.aluData rf (Arith.shiftImm o rd rs1 shamt).encode = 0#32 := by
  rw [Exu.aluData_form (Or.inr (Decode.isImm_shift o rd rs1 shamt))]
  cases o <;> rfl

theorem mem_shift (o : ShiftOp) (rd rs1 shamt : BitVec 5) :
    Decode.ldOp (Arith.shiftImm o rd rs1 shamt).encode = false ∧
      Decode.stOp (Arith.shiftImm o rd rs1 shamt).encode = false :=
  Decode.mem_of_funct7 (o := o.aluOp) (funct7Of_word _ _ _ _ _ _)

/-! ## 2. The instructions -/

/-- When a register form is right whatever the registers hold: a shift of x0 is 0 as it should be, a
    comparison is right between equal operands, AND does not miss what x0 hides. -/
def OpSafe (rs1 rs2 : BitVec 5) : AluOp → Prop
  | .and => True
  | .slt | .sltu => rs1 = rs2
  | .sll | .srl | .sra => rs1 = 0#5
  | .add | .sub | .xor | .or => rs1 ≠ 0#5 ∨ rs2 = 0#5

/-- **The safe instructions**; those of `ImmSafe` as there. -/
def Safe : Rv32i.Arith → Prop
  | .op o rd rs1 rs2 => rd = 0#5 ∨ OpSafe rs1 rs2 o
  | .shiftImm _ rd rs1 _ => rd = 0#5 ∨ rs1 = 0#5
  | .opImm .slti rd rs1 imm =>
      (¬ Decode.TakenLoad (Arith.opImm .slti rd rs1 imm).encode ∧
        ¬ Decode.TakenStore (Arith.opImm .slti rd rs1 imm).encode) ∧
        (rd = 0#5 ∨ (rs1 = 0#5 ∧ imm = 0#12))
  | .opImm .sltiu rd rs1 imm => rd = 0#5 ∨ (rs1 = 0#5 ∧ (imm = 0#12 ∨ imm = 0xFFF#12))
  | i => ImmSafe i

instance decidableOpSafe (rs1 rs2 : BitVec 5) : (o : AluOp) → Decidable (OpSafe rs1 rs2 o)
  | .and => inferInstanceAs (Decidable True)
  | .slt | .sltu => inferInstanceAs (Decidable (_ = _))
  | .sll | .srl | .sra => inferInstanceAs (Decidable (_ = _))
  | .add | .sub | .xor | .or => inferInstanceAs (Decidable (_ ∨ _))

instance decidableSafe : (i : Rv32i.Arith) → Decidable (Safe i)
  | .op _ _ _ _ => inferInstanceAs (Decidable (_ ∨ _))
  | .shiftImm _ _ _ _ => inferInstanceAs (Decidable (_ ∨ _))
  | .opImm .slti _ _ _ => inferInstanceAs (Decidable (_ ∧ _))
  | .opImm .sltiu _ _ _ => inferInstanceAs (Decidable (_ ∨ _))
  | .opImm .addi _ _ _ => inferInstanceAs (Decidable (_ ∨ _))
  | .opImm .xori _ _ _ => inferInstanceAs (Decidable (_ ∨ _))
  | .opImm .ori _ _ _ => inferInstanceAs (Decidable (_ ∨ _))
  | .opImm .andi _ _ _ => inferInstanceAs (Decidable (_ ∨ _))
  | .lui _ _ => inferInstanceAs (Decidable (_ ∨ _))

/-! ## 3. Register forms -/

/-- The states that show the rest: all registers but x0 hold one value, or x`r` one and the others
    another. -/
def only (r : BitVec 5) (v u : BitVec 32) : Core where
  rfR := Function.update (fun k => if k = r.toFin then v else u) (0#5).toFin 0#32
  memR _ := 0#32

theorem only_zero (r : BitVec 5) (v u : BitVec 32) : (only r v u).rfR 0 = 0#32 := rfl

theorem only_regs (r : BitVec 5) (v u : BitVec 32) (k : BitVec 5) :
    ((only r v u).regs (only_zero r v u)).x k =
      if k = 0#5 then 0#32 else if k = r then v else u := by
  refine (update_toFin (fun k => if k = r.toFin then v else u) k 0#5 0#32).trans ?_
  have hk : k.toFin = r.toFin ↔ k = r := ⟨BitVec.eq_of_toFin_eq, fun e => by rw [e]⟩
  simp only [hk]

theorem only_rfR (r : BitVec 5) (v u : BitVec 32) {k : BitVec 5} (hk : k ≠ 0#5) :
    (only r v u).rfR k.toFin = if k = r then v else u :=
  (only_regs r v u k).trans (if_neg hk)

/-- All zeros, and ones in the data RAM. -/
def zeros : Core := reset fun _ => 0#32
def ones : Core := reset fun _ => BitVec.allOnes 32

theorem memAt_zeros (a : BitVec dataRamAw) : Ram.memAt zeros.memR 0#32 a = 0#32 :=
  Ram.memAt_const _ _

theorem memAt_ones (a : BitVec dataRamAw) :
    Ram.memAt ones.memR (BitVec.allOnes 32) a = BitVec.allOnes 32 := Ram.memAt_const _ _

/-- A load of ones leaves a 1 in the register it names, whatever the ALU adds to it. -/
theorem load_changes {w : BitVec 32} (h : Decode.ldOp w = true) :
    (step ones (.twoState w (BitVec.allOnes 32))).rfR (rdOf w).toFin ≠ 0#32 := by
  obtain ⟨-, o, h3⟩ := (Decode.ldOp_iff w).mp h
  intro hk
  rw [step_load h, aguData_load h h3, memAt_ones] at hk
  simp only [Function.update_self] at hk
  have hzero : Agu.laneData (fun k => (BitVec.allOnes 32).getLsbD k) o = 0#32 :=
    (BitVec.or_eq_zero_iff.mp hk).2
  revert hzero
  cases o <;> decide

/-- The operation of a comparison. -/
def cmpOp : Alu.CmpOp → AluOp
  | .slt => .slt
  | .sltu => .sltu

/-- The ten operations by what can go wrong with them. -/
theorem aluOp_kind (o : AluOp) : o = .and ∨ (∃ c, o = cmpOp c) ∨ o ∈ [AluOp.sll, .srl, .sra] ∨
    o ∈ [AluOp.add, .sub, .xor, .or] := by
  cases o with
  | and => exact Or.inl rfl
  | slt => exact Or.inr (Or.inl ⟨.slt, rfl⟩)
  | sltu => exact Or.inr (Or.inl ⟨.sltu, rfl⟩)
  | sll | srl | sra => exact Or.inr (Or.inr (Or.inl (by decide)))
  | add | sub | xor | or => exact Or.inr (Or.inr (Or.inr (by decide)))

section Kinds

variable {o : AluOp} {rs1 rs2 : BitVec 5}

theorem opSafe_compare (c : Alu.CmpOp) : OpSafe rs1 rs2 (cmpOp c) ↔ rs1 = rs2 := by
  cases c <;> rfl

theorem opSafe_shift (ho : o ∈ [AluOp.sll, .srl, .sra]) : OpSafe rs1 rs2 o ↔ rs1 = 0#5 := by
  simp only [List.mem_cons, List.not_mem_nil, or_false] at ho
  rcases ho with rfl | rfl | rfl <;> rfl

theorem opSafe_open (ho : o ∈ [AluOp.add, .sub, .xor, .or]) :
    OpSafe rs1 rs2 o ↔ rs1 ≠ 0#5 ∨ rs2 = 0#5 := by
  simp only [List.mem_cons, List.not_mem_nil, or_false] at ho
  rcases ho with rfl | rfl | rfl | rfl <;> rfl

/-- Behind x0 a 1 is not seen. -/
theorem open_ne (ho : o ∈ [AluOp.add, .sub, .xor, .or]) :
    AsBuilt.compute 0#32 0#32 0#32 (some (.op o)) ≠ o.eval 0#32 1#32 := by
  simp only [List.mem_cons, List.not_mem_nil, or_false] at ho
  rcases ho with rfl | rfl | rfl | rfl <;> decide

theorem open_eq (ho : o ∈ [AluOp.add, .sub, .xor, .or]) (a b v : BitVec 32) :
    AsBuilt.compute a b v (some (.op o)) = o.eval a b := by
  simp only [List.mem_cons, List.not_mem_nil, or_false] at ho
  rcases ho with rfl | rfl | rfl | rfl <;> rfl

end Kinds

/-- The ALU leaves nothing of a shift; the shift itself leaves something of ones, nothing of 0. -/
theorem compute_shift {o : AluOp} (ho : o ∈ [AluOp.sll, .srl, .sra]) (a b v : BitVec 32) :
    AsBuilt.compute a b v (some (.op o)) = 0#32 := by
  simp only [List.mem_cons, List.not_mem_nil, or_false] at ho
  rcases ho with rfl | rfl | rfl <;> rfl

theorem shift_allOnes {o : AluOp} (ho : o ∈ [AluOp.sll, .srl, .sra]) (b : BitVec 32) :
    0#32 ≠ o.eval (BitVec.allOnes 32) b := by
  have hamt : ∀ n : BitVec 5, 0#32 ≠ BitVec.allOnes 32 <<< n ∧ 0#32 ≠ BitVec.allOnes 32 >>> n ∧
      0#32 ≠ (BitVec.allOnes 32).sshiftRight' n := by decide
  obtain ⟨h1, h2, h3⟩ := hamt (b.extractLsb 4 0)
  simp only [List.mem_cons, List.not_mem_nil, or_false] at ho
  rcases ho with rfl | rfl | rfl
  · exact h1
  · exact h2
  · exact h3

theorem shift_zero {o : AluOp} (ho : o ∈ [AluOp.sll, .srl, .sra]) (b : BitVec 32) :
    0#32 = o.eval 0#32 b := by
  simp only [List.mem_cons, List.not_mem_nil, or_false] at ho
  rcases ho with rfl | rfl | rfl <;> simp [AluOp.eval]

/-- **A comparison is right** if the difference that stays in its result is 0, or the bit itself. -/
theorem compare_eq_iff (c : Alu.CmpOp) (a b v : BitVec 32) :
    AsBuilt.compute a b v (some (.op (cmpOp c))) = (cmpOp c).eval a b ↔
      a = b ∨ (a = c.least ∧ b = c.greatest) := by
  have hzero : a - b = 0#32 ↔ a = b := sub_eq_zero
  have hl : AsBuilt.compute a b v (some (.op (cmpOp c))) =
      (a - b) ||| (if c.less a b then 1#32 else 0#32) := by
    cases c <;> rfl
  have hr : (cmpOp c).eval a b = if c.less a b then 1#32 else 0#32 := by
    cases c <;> rfl
  rw [hl, hr, Sync.or_bit_eq_iff, c.less_and_sub_iff, hzero]

/-- What a register form computes against what it means. -/
def OpRight (o : AluOp) (rs1 rs2 : BitVec 5) (r : Regs) : Prop :=
  AsBuilt.compute (r.x rs1) (if rs1 = 0#5 then 0#32 else r.x rs2) 0#32 (some (.op o)) =
    o.eval (r.x rs1) (r.x rs2)

/-- **Where a register form is not safe it is wrong somewhere.** -/
theorem opSafe_of_right {o : AluOp} {rs1 rs2 : BitVec 5}
    (h : ∀ (s : Core) (h0 : s.rfR 0 = 0#32), OpRight o rs1 rs2 (s.regs h0)) :
    OpSafe rs1 rs2 o := by
  have hs (r : BitVec 5) (v u : BitVec 32) := h (only r v u) (only_zero r v u)
  simp only [OpRight, only_regs] at hs
  rcases aluOp_kind o with rfl | ⟨c, rfl⟩ | ho | ho
  · trivial
  · -- 0 against 1 behind x0, 2 against 0 elsewhere
    rw [opSafe_compare]
    by_contra hne
    by_cases h1 : rs1 = 0#5
    · subst h1
      have h2 := hs rs2 1#32 0#32
      simp only [if_pos, if_neg (Ne.symm hne)] at h2
      cases c <;> exact absurd h2 (by decide)
    · have h2 := hs rs1 2#32 0#32
      simp only [if_neg h1, if_pos, if_neg (Ne.symm hne), ite_self, compare_eq_iff] at h2
      cases c <;> exact absurd h2 (by decide)
  · rw [opSafe_shift ho]
    by_contra h1
    have h2 := hs 0#5 0#32 (BitVec.allOnes 32)
    simp only [if_neg h1, compute_shift ho] at h2
    exact shift_allOnes ho _ h2
  · rw [opSafe_open ho]
    by_contra hc
    obtain ⟨h1, h2⟩ := not_or.mp hc
    rw [ne_eq, not_not] at h1
    have h3 := hs rs2 1#32 0#32
    simp only [if_pos h1, if_neg h2, if_pos] at h3
    exact open_ne ho h3

/-- **A safe register form is right.** -/
theorem right_of_opSafe {o : AluOp} {rs1 rs2 : BitVec 5} (h : OpSafe rs1 rs2 o) (r : Regs) :
    OpRight o rs1 rs2 r := by
  have hopen (hc : rs1 ≠ 0#5 ∨ rs2 = 0#5) :
      (if rs1 = 0#5 then 0#32 else r.x rs2) = r.x rs2 := by
    by_cases h1 : rs1 = 0#5
    · rw [if_pos h1, hc.resolve_left (not_not_intro h1), r.x_zero]
    · rw [if_neg h1]
  unfold OpRight
  rcases aluOp_kind o with rfl | ⟨c, rfl⟩ | ho | ho
  · by_cases h1 : rs1 = 0#5
    · rw [if_pos h1, h1, r.x_zero]
      exact (BitVec.zero_and).symm
    · rw [if_neg h1]
      rfl
  · obtain rfl := (opSafe_compare c).mp h
    rw [hopen (ne_or_eq _ _), compare_eq_iff]
    exact Or.inl rfl
  · rw [compute_shift ho, (opSafe_shift ho).mp h, r.x_zero]
    exact shift_zero ho _
  · rw [hopen ((opSafe_open ho).mp h), open_eq ho]

/-! ## 4. Immediate comparisons -/

/-- The immediate form of a comparison. -/
def cmpImm : Alu.CmpOp → ImmOp
  | .slt => .slti
  | .sltu => .sltiu

theorem aluOp_cmpImm (c : Alu.CmpOp) : (cmpImm c).aluOp = cmpOp c := by cases c <;> rfl

/-- **Against an immediate only x0 compares right in every state**, and only with the immediates it
    equals, or bounds. -/
theorem cmpImm_right_iff (c : Alu.CmpOp) (rs1 : BitVec 5) (imm : BitVec 12) :
    (∀ (s : Core) (h0 : s.rfR 0 = 0#32), AsBuilt.compute ((s.regs h0).x rs1)
      (imm.signExtend 32) 0#32 (some (.op (cmpOp c))) =
        (cmpOp c).eval ((s.regs h0).x rs1) (imm.signExtend 32)) ↔
      rs1 = 0#5 ∧ (imm = 0#12 ∨ (c = .sltu ∧ imm = 0xFFF#12)) := by
  have hzero : 0#32 = imm.signExtend 32 ↔ imm = 0#12 :=
    ⟨fun h => (Sync.eq_of_signExtend_eq (a := 0#12) (by decide) h).symm, fun h => by rw [h]; rfl⟩
  have hends : (0#32 = c.least ∧ imm.signExtend 32 = c.greatest) ↔
      (c = .sltu ∧ imm = 0xFFF#12) := by
    cases c with
    | slt => simp [Alu.CmpOp.least]
    | sltu =>
        exact ⟨fun h => ⟨rfl, Sync.eq_of_signExtend_eq (b := 0xFFF#12) (by decide) h.2⟩,
          fun h => ⟨rfl, by rw [h.2]; rfl⟩⟩
  simp only [compare_eq_iff]
  constructor
  · intro h
    have h1 : rs1 = 0#5 := by
      by_contra h1
      -- 1 and 2 cannot both be the immediate
      have hv (v : BitVec 32) (hv : v ≠ c.least) : v = imm.signExtend 32 := by
        have h2 := h (only rs1 v 0#32) (only_zero _ _ _)
        rw [only_regs, if_neg h1, if_pos rfl] at h2
        exact h2.resolve_right fun hc => hv hc.1
      have h12 : (1#32) = 2#32 :=
        (hv _ (by cases c <;> decide)).trans (hv _ (by cases c <;> decide)).symm
      exact absurd h12 (by decide)
    have h2 := h (reset fun _ => 0#32) rfl
    rw [h1, Regs.x_zero, hzero, hends] at h2
    exact ⟨h1, h2⟩
  · intro h s h0
    rw [h.1, Regs.x_zero, hzero, hends]
    exact h.2

/-- An SLTI that wakes the AGU is wrong from a reset: its immediate cannot vanish. -/
theorem not_follows_slti {rd rs1 : BitVec 5} {imm : BitVec 12}
    (ht : Decode.TakenLoad (Arith.opImm .slti rd rs1 imm).encode ∨
      Decode.TakenStore (Arith.opImm .slti rd rs1 imm).encode) :
    ¬ ∀ s h0 x, Follows s h0 (.opImm .slti rd rs1 imm) x := by
  intro h
  rcases ht with hl | hs
  · have hd : rd ≠ 0#5 := fun hd => not_follows_load_x0 hl hd h
    have hl' := (Decode.ldOp_iff _).mpr hl
    obtain ⟨-, o, h3⟩ := id hl
    have hr : (reset fun _ => 0#32).rfR 0 = 0#32 := rfl
    have hk : (step (reset fun _ => 0#32)
        (.twoState (Arith.opImm .slti rd rs1 imm).encode 0#32)).rfR rd.toFin =
          (Arith.opImm .slti rd rs1 imm).value ((reset fun _ => 0#32).regs hr) :=
      ((h _ hr 0#32).regs rd).trans (Regs.set_self _ hd _)
    have hm : Ram.memAt (reset fun _ => 0#32).memR 0#32
        (ramIdx (reset fun _ => 0#32) (Arith.opImm .slti rd rs1 imm).encode) = 0#32 :=
      Ram.memAt_const _ _
    have hz : Agu.laneData (fun k => (0#32).getLsbD k) o = 0#32 := by
      cases o <;> decide
    have hrd : (Arith.opImm .slti rd rs1 imm).rd = rd := rfl
    rw [step_load hl', aluData_imm hr _ _ _ _ (Decode.stOp_of_ldOp _ hl'), aguData_load hl' h3, hm,
      hz, BitVec.or_zero, Arith.rdOf_encode, hrd] at hk
    simp only [Function.update_self] at hk
    have hk' : AsBuilt.compute 0#32 (imm.signExtend 32) 0#32 (some (.op (cmpOp .slt))) =
        (cmpOp .slt).eval 0#32 (imm.signExtend 32) := hk
    rw [compare_eq_iff] at hk'
    have h5 := Decode.iImm_bit5_of_taken (Or.inl hl)
    rw [Decode.iImm_opImm, ← hk'.resolve_right fun hc => absurd hc.1 (by decide)] at h5
    exact absurd h5 (by decide)
  · refine store_changes ((Decode.stOp_iff _).mpr hs) (fun hlui => ?_)
      (h (reset fun _ => 0x100#32) rfl 0#32).memR
    rw [Decode.opcodeOf_opImm] at hlui
    exact absurd hlui.1 (by decide)

/-- SLTIU shares its funct3 with no load and no store. -/
theorem mem_sltiu (rd rs1 : BitVec 5) (imm : BitVec 12) :
    ¬ Decode.TakenLoad (Arith.opImm .sltiu rd rs1 imm).encode ∧
      ¬ Decode.TakenStore (Arith.opImm .sltiu rd rs1 imm).encode := by
  constructor
  · intro h
    obtain ⟨-, o, h3⟩ := h
    rw [Decode.funct3Of_opImm] at h3
    cases o <;> exact absurd h3 (by decide)
  · intro h
    obtain ⟨-, o, h3⟩ := h
    rw [Decode.funct3Of_opImm] at h3
    cases o <;> exact absurd h3 (by decide)

/-- **An immediate comparison that leaves the AGU alone.** -/
theorem cmpImm_iff (c : Alu.CmpOp) (rd rs1 : BitVec 5) (imm : BitVec 12)
    (hl : ¬ Decode.TakenLoad (Arith.opImm (cmpImm c) rd rs1 imm).encode)
    (hs : ¬ Decode.TakenStore (Arith.opImm (cmpImm c) rd rs1 imm).encode) :
    (∀ s h0 x, Follows s h0 (.opImm (cmpImm c) rd rs1 imm) x) ↔
      rd = 0#5 ∨ (rs1 = 0#5 ∧ (imm = 0#12 ∨ (c = .sltu ∧ imm = 0xFFF#12))) := by
  rw [← Decode.ldOp_eq_false] at hl
  rw [← Decode.stOp_eq_false] at hs
  have hstep (s : Core) (h0 : s.rfR 0 = 0#32) (x : BitVec 32) :
      Follows s h0 (.opImm (cmpImm c) rd rs1 imm) x ↔ rd = 0#5 ∨
        AsBuilt.compute ((s.regs h0).x rs1) (imm.signExtend 32) 0#32 (some (.op (cmpOp c))) =
          (cmpOp c).eval ((s.regs h0).x rs1) (imm.signExtend 32) := by
    rw [follows_alu_iff hl hs, aluData_imm h0 _ _ _ _ hs, aluOp_cmpImm]
    show rd = 0#5 ∨ _ = (cmpImm c).aluOp.eval _ _ ↔ _
    rw [aluOp_cmpImm]
  simp only [hstep, ← cmpImm_right_iff, forall_or_left, forall_const]

/-! ## 5. The classification -/

/-- **Which of the twenty arithmetic instructions are right**: in every state, on every register
    and the data RAM, exactly the safe ones. -/
theorem follows_iff_safe (i : Rv32i.Arith) : (∀ s h0 x, Follows s h0 i x) ↔ Safe i := by
  cases i with
  | lui rd u => exact lui_iff rd u
  | op o rd rs1 rs2 =>
      obtain ⟨hl, hs⟩ := Decode.mem_of_isReg (Decode.isReg_encode o rd rs1 rs2)
      have hstep (s : Core) (h0 : s.rfR 0 = 0#32) (x : BitVec 32) :
          Follows s h0 (.op o rd rs1 rs2) x ↔ rd = 0#5 ∨ OpRight o rs1 rs2 (s.regs h0) := by
        rw [follows_alu_iff hl hs, aluData_op h0]
        rfl
      simp only [hstep, forall_or_left, forall_const]
      exact or_congr_right ⟨opSafe_of_right, fun h s h0 => right_of_opSafe h (s.regs h0)⟩
  | shiftImm o rd rs1 shamt =>
      obtain ⟨hl, hs⟩ := mem_shift o rd rs1 shamt
      have ho : o.aluOp ∈ [AluOp.sll, .srl, .sra] := by cases o <;> decide
      have hstep (s : Core) (h0 : s.rfR 0 = 0#32) (x : BitVec 32) :
          Follows s h0 (.shiftImm o rd rs1 shamt) x ↔
            rd = 0#5 ∨ 0#32 = o.aluOp.eval ((s.regs h0).x rs1) (shamt.setWidth 32) := by
        rw [follows_alu_iff hl hs, aluData_shift]
        rfl
      simp only [hstep, forall_or_left, forall_const]
      refine or_congr_right ⟨fun h => ?_, fun h1 s h0 => ?_⟩
      · by_contra h1
        have h2 := h (only 0#5 0#32 (BitVec.allOnes 32)) (only_zero _ _ _)
        rw [only_regs, if_neg h1, if_neg h1] at h2
        exact shift_allOnes ho _ h2
      · rw [h1, Regs.x_zero]
        exact shift_zero ho _
  | opImm o rd rs1 imm =>
      cases o with
      | addi | xori | ori | andi => exact opImm_iff (by decide) rd rs1 imm
      | sltiu =>
          refine (cmpImm_iff .sltu rd rs1 imm (mem_sltiu rd rs1 imm).1
            (mem_sltiu rd rs1 imm).2).trans ?_
          simp [Safe]
      | slti =>
          by_cases ht : Decode.TakenLoad (Arith.opImm .slti rd rs1 imm).encode ∨
              Decode.TakenStore (Arith.opImm .slti rd rs1 imm).encode
          · exact iff_of_false (not_follows_slti ht) fun h => not_or.mpr h.1 ht
          · obtain ⟨hl, hs⟩ := not_or.mp ht
            refine (cmpImm_iff .slt rd rs1 imm hl hs).trans ?_
            simp [Safe, hl, hs]

/-! ## 6. Programs -/

/-- The words of a program, each with the answer a read past the data RAM would get. -/
def words (p : List (Rv32i.Arith × BitVec 32)) : List (BitVec 32 × BitVec 32) :=
  p.map fun q => (q.1.encode, q.2)

/-- The meaning of a program. -/
def execAll (r : Regs) (p : List Rv32i.Arith) : Regs := Sync.run (fun r i => i.exec r) r p

/-- **A run does what its program means**: on every register and every RAM word. -/
structure RunFollows (s : Core) (h0 : s.rfR 0 = 0#32) (p : List (Rv32i.Arith × BitVec 32)) :
    Prop where
  regs : ∀ k : BitVec 5, (runWords s (words p)).rfR k.toFin =
    (execAll (s.regs h0) (p.map Prod.fst)).x k
  memR : (runWords s (words p)).memR = s.memR

/-- The core shows the registers `r` over the RAM contents `m`. -/
def Shows (m : RamMem dataRamDp) (t : Core) (r : Regs) : Prop :=
  (∀ k : BitVec 5, t.rfR k.toFin = r.x k) ∧ t.memR = m

theorem Shows.entry {m : RamMem dataRamDp} {t : Core} {r : Regs} (h : Shows m t r) :
    t.rfR 0 = 0#32 := (h.1 0#5).trans r.x_zero

theorem Shows.regs_eq {m : RamMem dataRamDp} {t : Core} {r : Regs} (h : Shows m t r) :
    t.regs h.entry = r := Regs.ext (funext h.1)

/-- **A safe instruction is one step of the instruction set.** -/
theorem shows_step {m : RamMem dataRamDp} {t : Core} {r : Regs} {i : Rv32i.Arith}
    (h : Shows m t r) (hi : Safe i) (x : BitVec 32) :
    Shows m (step t (.twoState i.encode x)) (i.exec r) := by
  have hf := (follows_iff_safe i).mpr hi t h.entry x
  refine ⟨fun k => ?_, hf.memR.trans h.2⟩
  rw [hf.regs k, h.regs_eq]

theorem shows_run {m : RamMem dataRamDp} {t : Core} {r : Regs} (h : Shows m t r)
    {p : List (Rv32i.Arith × BitVec 32)} (hp : ∀ q ∈ p, Safe q.1) :
    Shows m (runWords t (words p)) (execAll r (p.map Prod.fst)) := by
  have hstep : ∀ t r (q : Rv32i.Arith × BitVec 32), Shows m t r → Safe q.1 →
      Shows m (stepWord t (q.1.encode, q.2)) (q.1.exec r) :=
    fun t r q hr hq => shows_step hr hq q.2
  unfold runWords words execAll
  rw [Sync.run_map]
  exact Sync.run_rel (R := Shows m) (f := Prod.fst) hstep h hp

/-- **Programs.** From every state with x0 at 0, every program over a set of arithmetic instructions
    does what it means if and only if every instruction of the set is safe. -/
theorem runs_iff_safe (S : Set Rv32i.Arith) :
    (∀ s h0 p, (∀ q ∈ p, q.1 ∈ S) → RunFollows s h0 p) ↔ ∀ i ∈ S, Safe i := by
  constructor
  · intro h i hi
    refine (follows_iff_safe i).mp fun s h0 x => ?_
    have hrun := h s h0 [(i, x)] (by simpa using hi)
    exact ⟨hrun.regs, hrun.memR⟩
  · intro h s h0 p hp
    have hrun : Shows s.memR (runWords s (words p)) (execAll (s.regs h0) (p.map Prod.fst)) :=
      shows_run ⟨fun _ => rfl, rfl⟩ fun q hq => h _ (hp q hq)
    exact ⟨hrun.1, hrun.2⟩

end Core

end Xf100
