/-
  File:      Xf100/Laws/ImmediateFormats.lean
  Subject:   The immediate of every instruction, encoded and decoded.

  The four formats are ORed, each under its own flag. The flags of the I format on a load and
  of the S format follow `funct7`, which in these words is the upper part of the immediate:
  a load or a store gets no immediate unless its upper bits happen to be the constant, and an
  immediate form or a LUI with those bits gets two.

  * `roundTrip_iff` -- the instructions whose immediate comes back.
-/
import Xf100.Laws.ImmArith

namespace Xf100

open Rv32i

namespace Decode

/-- **The immediate comes back**: on the immediate port, 0 for a register form, and announced on
    both buses exactly when there is one. -/
structure RoundTrip (i : Instr) : Prop where
  imm : (xf100ExuDecode i.encode).decOImm = i.imm.getD 0#32
  alu : (xf100ExuDecode i.encode).decOAluInfo.getLsbD aluInfoDefHasImm = i.imm.isSome
  agu : (xf100ExuDecode i.encode).decOAguInfo.getLsbD aguInfoDefHasImm = i.imm.isSome

/-- **The instructions whose immediate comes back.** A register form and a shift always; an
    immediate form unless it is taken for a store and rd shows; LUI unless it is taken for a load
    or a store; a load or a store only if it is taken for one, and if for the wrong one, only if
    the register field there is the lower part of the immediate. -/
def ImmDecodes : Instr → Prop
  | .arith (.lui rd imm) =>
      ¬ TakenLoad (Arith.lui rd imm).encode ∧ ¬ TakenStore (Arith.lui rd imm).encode
  | .arith (.op _ _ _ _) => True
  | .arith (.opImm o rd rs1 imm) =>
      ¬ TakenStore (Arith.opImm o rd rs1 imm).encode ∨ rd &&& ~~~imm.extractLsb 4 0 = 0#5
  | .arith (.shiftImm _ _ _ _) => True
  | .load o rd rs1 imm =>
      TakenLoad (loadWord o rd rs1 imm) ∨
        (TakenStore (loadWord o rd rs1 imm) ∧ rd = imm.extractLsb 4 0)
  | .store o rs1 rs2 imm =>
      TakenStore (storeWord o rs1 rs2 imm) ∨
        (TakenLoad (storeWord o rs1 rs2 imm) ∧ rs2 = imm.extractLsb 4 0)

/-! ## 1. Extended immediates -/

theorem signExtend_inj {x y : BitVec 12} : x.signExtend 32 = y.signExtend 32 ↔ x = y := by
  constructor
  · intro h
    apply BitVec.eq_of_getLsbD_eq
    intro k hk
    have hb := congrArg (fun v => BitVec.getLsbD v k) h
    simpa [-BitVec.getLsbD_eq_getElem, BitVec.getLsbD_signExtend, hk, show k < 32 by omega]
      using hb
  · intro h
    rw [h]

/-- Two immediates with one upper part, compared by their lower parts. -/
theorem signExtend_append_inj {hi : BitVec 7} {lo lo' : BitVec 5} :
    (hi ++ lo).signExtend 32 = (hi ++ lo').signExtend 32 ↔ lo = lo' := by
  rw [signExtend_inj]
  constructor
  · intro h
    rw [← (imm_split hi lo).2, h, (imm_split hi lo').2]
  · intro h
    rw [h]

/-- An immediate ORed with one of the same upper part. -/
theorem signExtend_append_or {hi : BitVec 7} {lo lo' : BitVec 5} :
    (hi ++ lo).signExtend 32 ||| (hi ++ lo').signExtend 32 = (hi ++ lo).signExtend 32 ↔
      lo' &&& ~~~lo = 0#5 := by
  rw [← BitVec.signExtend_or, BitVec.or_append, BitVec.or_self, signExtend_append_inj,
    BitVec.or_comm, Sync.or_eq_right_iff]

/-! ## 2. The two buses -/

theorem aguInfo_hasImm (w : BitVec 32) : (aguInfo w).getLsbD aguInfoDefHasImm = immEn w := by
  unfold aguInfo
  rw [Sync.getLsbD_bus]
  simp

/-- Both buses announce the same. -/
theorem roundTrip_def (i : Instr) :
    RoundTrip i ↔ decImm i.encode = i.imm.getD 0#32 ∧ immEn i.encode = i.imm.isSome := by
  constructor
  · intro h
    exact ⟨h.imm, (aluInfo_hasImm _).symm.trans h.alu⟩
  · intro h
    exact ⟨h.1, (aluInfo_hasImm _).trans h.2, (aguInfo_hasImm _).trans h.2⟩

/-- With an immediate announced, what is left is its value. -/
theorem roundTrip_some {i : Instr} {w v : BitVec 32} (hw : i.encode = w) (hv : i.imm = some v)
    (h : immEn w = true) : RoundTrip i ↔ decImm w = v := by
  rw [roundTrip_def, hw, hv, h]
  exact and_iff_left rfl

/-! ## 3. Loads and stores -/

section Mem

variable {w : BitVec 32}

/-- A word of neither ALU format gets an immediate only where the AGU wakes. -/
theorem decImm_mem (hlui : opcodeOf w ≠ luiOpcode) (himm : opcodeOf w ≠ opImmOpcode) :
    decImm w = (if ldOp w then iImm w else 0#32) ||| (if stOp w then sImm w else 0#32) ∧
      (immEn w = true ↔ ldOp w = true ∨ stOp w = true) := by
  have h2 := contiImm12bit_eq himm
  have h5 := aluImm5bit_ne himm
  constructor
  · rw [decImm_eq, if_neg hlui, h2, if_neg h5, BitVec.zero_or, BitVec.or_zero]
  · rw [immEn_iff, h2]
    simp [hlui, h5]

/-- **The immediate of such a word**, `l` and `s` being its I and S format: it is `v` and announced
    exactly when the format the word is taken for reads `v`. -/
theorem mem_iff (hlui : opcodeOf w ≠ luiOpcode) (himm : opcodeOf w ≠ opImmOpcode)
    (v : BitVec 32) : (decImm w = v ∧ immEn w = true) ↔
      (TakenLoad w ∧ iImm w = v) ∨ (TakenStore w ∧ sImm w = v) := by
  obtain ⟨hdec, hen⟩ := decImm_mem hlui himm
  rw [hen, ← ldOp_iff, ← stOp_iff]
  cases hl : ldOp w with
  | true =>
      have hs := stOp_of_ldOp w hl
      simp [hdec, hl, hs]
  | false =>
      cases hs : stOp w with
      | true => simp [hdec, hl, hs]
      | false => simp

theorem iImm_loadWord (o : LoadOp) (rd rs1 : BitVec 5) (imm : BitVec 12) :
    iImm (loadWord o rd rs1 imm) = imm.signExtend 32 := by
  unfold iImm
  rw [loadWord, iSlice_word, imm12_join]

theorem sImm_loadWord (o : LoadOp) (rd rs1 : BitVec 5) (imm : BitVec 12) :
    sImm (loadWord o rd rs1 imm) = (imm.extractLsb 11 5 ++ rd).signExtend 32 := by
  unfold sImm
  rw [loadWord, funct7Of_word, rdOf_word]

theorem sImm_storeWord (o : StoreOp) (rs1 rs2 : BitVec 5) (imm : BitVec 12) :
    sImm (storeWord o rs1 rs2 imm) = imm.signExtend 32 := by
  unfold sImm
  rw [storeWord, funct7Of_word, rdOf_word, imm12_join]

theorem iImm_storeWord (o : StoreOp) (rs1 rs2 : BitVec 5) (imm : BitVec 12) :
    iImm (storeWord o rs1 rs2 imm) = (imm.extractLsb 11 5 ++ rs2).signExtend 32 := by
  unfold iImm
  rw [storeWord, iSlice_word]

end Mem

/-- The lower part of an immediate, in the place of another register field. -/
theorem signExtend_field_iff (imm : BitVec 12) (r : BitVec 5) :
    (imm.extractLsb 11 5 ++ r).signExtend 32 = imm.signExtend 32 ↔ r = imm.extractLsb 4 0 := by
  conv_lhs => rw [← imm12_join imm, (imm_split _ _).1]
  exact signExtend_append_inj

theorem roundTrip_load (o : LoadOp) (rd rs1 : BitVec 5) (imm : BitVec 12) :
    RoundTrip (.load o rd rs1 imm) ↔ ImmDecodes (.load o rd rs1 imm) := by
  have hopc : opcodeOf (loadWord o rd rs1 imm) = loadOpcode := opcodeOf_word _ _ _ _ _ _
  have hmem := mem_iff (w := loadWord o rd rs1 imm) (by rw [hopc]; decide) (by rw [hopc]; decide)
    (imm.signExtend 32)
  rw [iImm_loadWord, sImm_loadWord, signExtend_field_iff, and_iff_left rfl] at hmem
  exact (roundTrip_def _).trans hmem

theorem roundTrip_store (o : StoreOp) (rs1 rs2 : BitVec 5) (imm : BitVec 12) :
    RoundTrip (.store o rs1 rs2 imm) ↔ ImmDecodes (.store o rs1 rs2 imm) := by
  have hopc : opcodeOf (storeWord o rs1 rs2 imm) = storeOpcode := opcodeOf_word _ _ _ _ _ _
  have hmem := mem_iff (w := storeWord o rs1 rs2 imm) (by rw [hopc]; decide)
    (by rw [hopc]; decide) (imm.signExtend 32)
  rw [iImm_storeWord, sImm_storeWord, signExtend_field_iff, and_iff_left rfl, or_comm] at hmem
  exact (roundTrip_def _).trans hmem

/-! ## 4. Instructions that compute on registers -/

/-- A register form: no format is selected. -/
theorem roundTrip_op (o : AluOp) (rd rs1 rs2 : BitVec 5) :
    RoundTrip (.arith (.op o rd rs1 rs2)) := by
  have hreg := isReg_encode o rd rs1 rs2
  have hopc : opcodeOf (Arith.op o rd rs1 rs2).encode = opOpcode := hreg.1
  obtain ⟨hl, hs⟩ := mem_of_isReg hreg
  obtain ⟨hdec, -⟩ := decImm_mem (w := (Arith.op o rd rs1 rs2).encode) (by rw [hopc]; decide)
    (by rw [hopc]; decide)
  rw [hl, hs, if_neg (by decide), if_neg (by decide), BitVec.or_self] at hdec
  exact (roundTrip_def _).mpr ⟨hdec, immEn_of_isReg hreg⟩

/-- The word of a shift: its `funct7` keeps the AGU asleep, and its funct3 the I format. -/
theorem decImm_shift {o : ShiftOp} {w : BitVec 32} (hopc : opcodeOf w = opImmOpcode)
    (h3 : funct3Of w = o.aluOp.funct3) (h7 : funct7Of w = o.aluOp.funct7) :
    decImm w = shImm w ∧ immEn w = true := by
  have hlui : ¬ opcodeOf w = luiOpcode := by
    rw [hopc]
    decide
  obtain ⟨hl, hst⟩ := mem_of_funct7 h7
  have hs : ¬ stOp w = true := Bool.eq_false_iff.mp hst
  have hi : ¬ contiImm12bit w = true := by
    rw [contiImm12bit_iff, hl]
    intro h
    rcases h with ⟨-, j, hj⟩ | h
    · exact immOp_ne_shiftOp j o (hj.symm.trans h3)
    · cases h
  have hsh : aluImm5bit w = true := (aluImm5bit_iff w).mpr ⟨hopc, o, h3, h7⟩
  constructor
  · rw [decImm_eq, if_neg hlui, if_neg hi, if_neg hs, if_pos hsh, BitVec.zero_or, BitVec.zero_or,
      BitVec.zero_or]
  · exact (immEn_iff w).mpr (Or.inr (Or.inr (Or.inr hsh)))

theorem roundTrip_shiftImm (o : ShiftOp) (rd rs1 shamt : BitVec 5) :
    RoundTrip (.arith (.shiftImm o rd rs1 shamt)) := by
  obtain ⟨hdec, hen⟩ := decImm_shift (o := o) (w := (Arith.shiftImm o rd rs1 shamt).encode)
    (opcodeOf_word _ _ _ _ _ _) (funct3Of_word _ _ _ _ _ _) (funct7Of_word _ _ _ _ _ _)
  have hamt : shImm (Arith.shiftImm o rd rs1 shamt).encode = shamt.setWidth 32 := by
    unfold shImm
    rw [Arith.encode, rs2Of_word]
    exact (BitVec.setWidth_eq_append (by decide)).symm
  exact (roundTrip_def _).mpr ⟨hdec.trans hamt, hen⟩

/-- An immediate form: the I format, with the S format over it when the store side wakes. -/
theorem roundTrip_opImm (o : ImmOp) (rd rs1 : BitVec 5) (imm : BitVec 12) :
    RoundTrip (.arith (.opImm o rd rs1 imm)) ↔ ImmDecodes (.arith (.opImm o rd rs1 imm)) := by
  have himm := immEn_opImm o rd rs1 imm
  have hsImm : sImm (Arith.opImm o rd rs1 imm).encode =
      (imm.extractLsb 11 5 ++ rd).signExtend 32 := by
    unfold sImm
    rw [Arith.encode, funct7Of_word, rdOf_word]
  have hor : imm.signExtend 32 ||| (imm.extractLsb 11 5 ++ rd).signExtend 32 =
      imm.signExtend 32 ↔ rd &&& ~~~imm.extractLsb 4 0 = 0#5 := by
    conv_lhs => rw [← imm12_join imm, (imm_split _ _).1]
    exact signExtend_append_or
  have hv : (Instr.arith (.opImm o rd rs1 imm)).imm = some (imm.signExtend 32) := rfl
  rw [roundTrip_some (w := (Arith.opImm o rd rs1 imm).encode) rfl hv himm, decImm_opImm, hsImm,
    ImmDecodes]
  cases hs : stOp (Arith.opImm o rd rs1 imm).encode with
  | true => simp [hor, (stOp_iff _).mp hs]
  | false => simp [(stOp_eq_false _).mp hs]

/-- Bit 5 of the S format is the lowest bit of `funct7`. -/
theorem sImm_bit5_of_taken {w : BitVec 32} (h : TakenStore w) : (sImm w).getLsbD 5 = true := by
  unfold sImm
  rw [h.1, BitVec.getLsbD_signExtend, if_pos (by decide), BitVec.getLsbD_append, if_neg (by decide)]
  decide

/-- LUI: the I or S format over the U format sets bit 5. -/
theorem roundTrip_lui (rd : BitVec 5) (u : BitVec 20) :
    RoundTrip (.arith (.lui rd u)) ↔ ImmDecodes (.arith (.lui rd u)) := by
  have himm : immEn (Arith.lui rd u).encode = true := (immEn_iff _).mpr (Or.inl (opcodeOf_lui rd u))
  have hbit : (u ++ 0#12).getLsbD 5 = false := by
    rw [← uImm_lui rd u, getLsbD_uImm]
    rfl
  have hv : (Instr.arith (.lui rd u)).imm = some (u ++ 0#12) := rfl
  rw [roundTrip_some (w := (Arith.lui rd u).encode) rfl hv himm, decImm_lui, ImmDecodes]
  constructor
  · intro h
    have hb := congrArg (fun v => BitVec.getLsbD v 5) h
    simp only [BitVec.getLsbD_or, hbit, Bool.or_eq_false_iff] at hb
    constructor
    · intro hl
      rw [(ldOp_iff _).mpr hl, if_pos rfl, iImm_bit5_of_taken (Or.inl hl)] at hb
      exact absurd hb.1.2 (by decide)
    · intro hs
      rw [(stOp_iff _).mpr hs, if_pos rfl, sImm_bit5_of_taken hs] at hb
      exact absurd hb.2 (by decide)
  · intro h
    rw [(ldOp_eq_false _).mpr h.1, (stOp_eq_false _).mpr h.2, if_neg (by decide), BitVec.or_zero,
      if_neg (by decide), BitVec.or_zero]

/-- **The immediate of every instruction**: it comes back if and only if the formats the word
    selects read nothing else. -/
theorem roundTrip_iff (i : Instr) : RoundTrip i ↔ ImmDecodes i := by
  cases i with
  | load o rd rs1 imm => exact roundTrip_load o rd rs1 imm
  | store o rs1 rs2 imm => exact roundTrip_store o rs1 rs2 imm
  | arith i =>
      cases i with
      | lui rd u => exact roundTrip_lui rd u
      | op o rd rs1 rs2 => exact iff_of_true (roundTrip_op o rd rs1 rs2) trivial
      | opImm o rd rs1 imm => exact roundTrip_opImm o rd rs1 imm
      | shiftImm o rd rs1 shamt => exact iff_of_true (roundTrip_shiftImm o rd rs1 shamt) trivial

/-- `lw x1, 4(x0)` is given no immediate. -/
theorem roundTrip_lost : ¬ ∀ i : Instr, RoundTrip i := by
  intro h
  have h0 := (h (.load .lw 1#5 0#5 4#12)).imm
  revert h0
  decide +kernel

end Decode

end Xf100
