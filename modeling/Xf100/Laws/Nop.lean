/-
  File:      Xf100/Laws/Nop.lean
  Subject:   The words that do nothing.

  A word is a no-operation if it leaves every state with x0 at 0 as it is, the undriven index
  carrying 0. Which words those are can be read off the fields: with x0 for a destination a
  word does nothing unless it wakes the AGU, and then only if it stores past the data RAM; with
  another destination it has to compute what is there already -- the register itself, through
  an operand that is neutral, or OR and AND of the register with itself. The source's SUB, XOR
  and SLTU have neutral operands as ADD and OR do; its shifts, and SLT, have none.

  * `keeps_imm_iff`, `keeps_reg_iff` -- the words with an ALU operation and a destination;
  * `nop_iff` -- all words.
-/
import Xf100.Laws.Safe

namespace Xf100

open Rv32i

namespace Core

/-! ## 1. Neutral operands -/

/-- The second operands an operation of the ALU leaves every first operand alone with. -/
def Neutral (c : BitVec 32) : AluOp → Prop
  | .add | .sub | .xor | .or | .sltu => c = 0#32
  | .and => c = BitVec.allOnes 32
  | .slt | .sll | .srl | .sra => False

theorem neutral_iff (o : AluOp) (c : BitVec 32) :
    (∀ a, AsBuilt.compute a c 0#32 (some (.op o)) = a) ↔ Neutral c o := by
  cases o with
  | add =>
      refine ⟨fun h => ?_, fun h a => ?_⟩
      · exact (BitVec.zero_add c).symm.trans (h 0#32)
      · rw [show c = 0#32 from h]
        exact BitVec.add_zero a
  | sub =>
      refine ⟨fun h => ?_, fun h a => ?_⟩
      · have h0 : 0#32 - c = 0#32 := h 0#32
        exact (sub_eq_zero.mp h0).symm
      · rw [show c = 0#32 from h]
        exact BitVec.sub_zero a
  | xor =>
      refine ⟨fun h => ?_, fun h a => ?_⟩
      · exact (BitVec.zero_xor).symm.trans (h 0#32)
      · rw [show c = 0#32 from h]
        exact BitVec.xor_zero
  | or =>
      refine ⟨fun h => ?_, fun h a => ?_⟩
      · exact (BitVec.zero_or).symm.trans (h 0#32)
      · rw [show c = 0#32 from h]
        exact BitVec.or_zero
  | and =>
      refine ⟨fun h => ?_, fun h a => ?_⟩
      · exact (BitVec.allOnes_and).symm.trans (h (BitVec.allOnes 32))
      · rw [show c = BitVec.allOnes 32 from h]
        exact BitVec.and_allOnes
  | sltu =>
      have hval (a : BitVec 32) : AsBuilt.compute a c 0#32 (some (.op .sltu)) =
          (a - c) ||| (if a.ult c then 1#32 else 0#32) := rfl
      refine ⟨fun h => ?_, fun h a => ?_⟩
      · have h0 := h 0#32
        rw [hval, BitVec.or_eq_zero_iff] at h0
        exact (sub_eq_zero.mp h0.1).symm
      · have hge : ¬ a.ult 0#32 = true :=
          fun e => Nat.not_lt_zero _ (BitVec.ult_iff_toNat_lt.mp e)
        rw [hval, show c = 0#32 from h, BitVec.sub_zero, if_neg hge, BitVec.or_zero]
  | slt =>
      refine iff_of_false (fun h => ?_) id
      have hval (a : BitVec 32) : AsBuilt.compute a c 0#32 (some (.op .slt)) =
          (a - c) ||| (if a.slt c then 1#32 else 0#32) := rfl
      have h0 := h 0#32
      rw [hval, BitVec.or_eq_zero_iff] at h0
      -- only 0 could be neutral, and the most negative value is less than it
      have hmin := h 0x80000000#32
      rw [hval, ← sub_eq_zero.mp h0.1] at hmin
      exact absurd hmin (by decide)
  | sll | srl | sra =>
      refine iff_of_false (fun h => ?_) id
      have h1 := h 1#32
      rw [compute_shift (by decide)] at h1
      exact absurd h1 (by decide)

/-- The operations that leave a value alone when it is both operands. -/
theorem idempotent_iff (o : AluOp) :
    (∀ a, AsBuilt.compute a a 0#32 (some (.op o)) = a) ↔ o = .or ∨ o = .and := by
  constructor
  · intro h
    have h1 := h 1#32
    cases o with
    | or => exact Or.inl rfl
    | and => exact Or.inr rfl
    | add | sub | sll | slt | sltu | xor | srl | sra => exact absurd h1 (by decide)
  · intro h a
    rcases h with rfl | rfl
    · exact BitVec.or_self
    · exact BitVec.and_self

/-- No operation is a projection. -/
theorem not_fst (o : AluOp) : AsBuilt.compute 0#32 1#32 0#32 (some (.op o)) ≠ 0#32 ∨
    AsBuilt.compute 1#32 0#32 0#32 (some (.op o)) ≠ 1#32 := by
  cases o <;> decide

theorem not_snd (o : AluOp) : AsBuilt.compute 1#32 0#32 0#32 (some (.op o)) ≠ 0#32 ∨
    AsBuilt.compute 0#32 1#32 0#32 (some (.op o)) ≠ 1#32 := by
  cases o <;> decide

/-! ## 2. Words with a destination -/

/-- The ALU's answer to `w` is what the destination holds, in every state. -/
def Keeps (w : BitVec 32) : Prop :=
  ∀ s : Core, s.rfR (0#5).toFin = 0#32 → Exu.aluData s.rfR w = s.rfR (rdOf w).toFin

section Keeps

variable {w : BitVec 32} {o : AluOp}

/-- An answer that does not depend on the destination is not it. -/
theorem not_keeps_const (hd : rdOf w ≠ 0#5) (c : BitVec 32)
    (h : ∀ v, Exu.aluData (only (rdOf w) v 0#32).rfR w = c) : ¬ Keeps w := by
  intro hk
  have hv (v : BitVec 32) : c = v := by
    rw [← h v, hk _ (only_zero _ _ _), only_rfR _ _ _ hd, if_pos rfl]
  exact absurd ((hv 0#32).symm.trans (hv 1#32)) (by decide)

/-- The first source of a word with an operation. -/
theorem rfRs1_op (h : Decode.IsReg o w ∨ Decode.IsImm o w) (rf : Regfile) :
    Exu.rfRs1 rf w = if rs1Of w = 0#5 then 0#32 else rf (rs1Of w).toFin := by
  have hnl : opcodeOf w ≠ luiOpcode := by
    rcases h with h | h <;> rw [h.1] <;> decide
  rw [rfRs1_eq]
  simp only [hnl, or_false]

theorem immEn_of_isImm (h : Decode.IsImm o w) : Decode.immEn w = true := by
  obtain ⟨hopc, h3 | h3⟩ := h
  · obtain ⟨i, rfl, h3⟩ := h3
    exact (Decode.immEn_iff w).mpr
      (Or.inr (Or.inl ((Decode.contiImm12bit_iff w).mpr (Or.inl ⟨hopc, i, h3⟩))))
  · obtain ⟨i, rfl, h37⟩ := h3
    exact (Decode.immEn_iff w).mpr
      (Or.inr (Or.inr (Or.inr ((Decode.aluImm5bit_iff w).mpr ⟨hopc, i, h37⟩))))

/-- **Immediate forms**: the register itself and a neutral immediate. -/
theorem keeps_imm_iff (h : Decode.IsImm o w) (hd : rdOf w ≠ 0#5) :
    Keeps w ↔ rs1Of w = rdOf w ∧ Neutral (Decode.decImm w) o := by
  have halu (rf : Regfile) : Exu.aluData rf w =
      AsBuilt.compute (if rs1Of w = 0#5 then 0#32 else rf (rs1Of w).toFin) (Decode.decImm w) 0#32
        (some (.op o)) := by
    rw [Exu.aluData_form (Or.inr h), immEn_of_isImm h, if_pos rfl, rfRs1_op (Or.inr h)]
  by_cases h1 : rs1Of w = rdOf w
  · rw [← neutral_iff]
    refine ⟨fun hk => ⟨h1, fun a => ?_⟩, fun hn s _ => ?_⟩
    · have ha := hk (only (rdOf w) a 0#32) (only_zero _ _ _)
      rwa [halu, h1, if_neg hd, only_rfR _ _ _ hd, if_pos rfl] at ha
    · rw [halu, h1, if_neg hd]
      exact hn.2 _
  · refine iff_of_false (not_keeps_const hd (AsBuilt.compute 0#32 (Decode.decImm w) 0#32
      (some (.op o))) fun v => ?_) fun hn => h1 hn.1
    have hsrc : (if rs1Of w = 0#5 then 0#32 else (only (rdOf w) v 0#32).rfR (rs1Of w).toFin) =
        0#32 := by
      by_cases h0 : rs1Of w = 0#5
      · exact if_pos h0
      · rw [if_neg h0, only_rfR _ _ _ h0, if_neg h1]
    rw [halu, hsrc]

/-- **Register forms**: the register itself and x0, if 0 is neutral, or twice the register. -/
theorem keeps_reg_iff (h : Decode.IsReg o w) (hd : rdOf w ≠ 0#5) : Keeps w ↔
    rs1Of w = rdOf w ∧ ((rs2Of w = 0#5 ∧ Neutral 0#32 o) ∨
      (rs2Of w = rdOf w ∧ (o = .or ∨ o = .and))) := by
  have halu (s : Core) (h0 : s.rfR 0 = 0#32) : Exu.aluData s.rfR w =
      AsBuilt.compute (s.rfR (rs1Of w).toFin)
        (if rs1Of w = 0#5 then 0#32 else s.rfR (rs2Of w).toFin) 0#32 (some (.op o)) := by
    have hsrc : (if rs1Of w = 0#5 then 0#32 else s.rfR (rs1Of w).toFin) =
        s.rfR (rs1Of w).toFin := by
      by_cases h1 : rs1Of w = 0#5
      · rw [if_pos h1, h1]
        exact h0.symm
      · exact if_neg h1
    rw [Exu.aluData_form (Or.inl h), Decode.immEn_of_isReg h, if_neg Bool.false_ne_true,
      rfRs1_op (Or.inl h), rfRs2_of_isReg h, hsrc]
  have honly (v u : BitVec 32) (k : BitVec 5) :
      (only (rdOf w) v u).rfR k.toFin = if k = 0#5 then 0#32 else if k = rdOf w then v else u :=
    only_regs _ v u k
  -- what a word that keeps its destination computes in a state of two values
  have hpair (hk : Keeps w) (v u : BitVec 32) := hk (only (rdOf w) v u) (only_zero _ _ _)
  simp only [halu _ (only_zero _ _ _), honly, if_neg hd, if_pos] at hpair
  by_cases h1 : rs1Of w = rdOf w
  · simp only [h1, if_neg hd, if_pos] at hpair
    rw [← neutral_iff, ← idempotent_iff]
    constructor
    · intro hk
      refine ⟨h1, ?_⟩
      by_cases h2 : rs2Of w = 0#5
      · refine Or.inl ⟨h2, fun a => ?_⟩
        have ha := hpair hk a 0#32
        rwa [if_pos h2] at ha
      · by_cases h3 : rs2Of w = rdOf w
        · refine Or.inr ⟨h3, fun a => ?_⟩
          have ha := hpair hk a 0#32
          rwa [if_neg h2, if_pos h3] at ha
        · have ha := hpair hk
          simp only [if_neg h2, if_neg h3] at ha
          exact absurd (ha 0#32 1#32) ((not_fst o).resolve_right (not_not_intro (ha 1#32 0#32)))
    · intro hc s h0
      rw [halu s h0, h1, if_neg hd]
      rcases hc.2 with hc | hc
      · rw [hc.1]
        exact (congrArg (fun b => AsBuilt.compute _ b _ _) h0).trans (hc.2 _)
      · rw [hc.1]
        exact hc.2 _
  · refine iff_of_false (fun hk => ?_) fun hc => h1 hc.1
    have hp := hpair hk
    by_cases h0 : rs1Of w = 0#5
    · -- behind x0 nothing of the destination is read
      simp only [h0, if_pos] at hp
      exact absurd ((hp 0#32 0#32).symm.trans (hp 1#32 0#32)) (by decide)
    · simp only [if_neg h0, if_neg h1] at hp
      by_cases h3 : rs2Of w = rdOf w
      · simp only [h3, if_neg hd, if_pos] at hp
        exact absurd (hp 0#32 1#32) ((not_snd o).resolve_right (not_not_intro (hp 1#32 0#32)))
      · simp only [if_neg h3] at hp
        exact absurd ((hp 0#32 0#32).symm.trans (hp 1#32 0#32)) (by decide)

end Keeps

/-! ## 3. All words -/

/-- **The no-operations**, by the fields of the word. -/
def Nop (w : BitVec 32) : Prop :=
  match AsBuilt.memTask w with
  | some (.store _) => opcodeOf w = luiOpcode ∧ w.getLsbD 15 = true
  | some (.load _) => False
  | none => rdOf w = 0#5 ∨ match AsBuilt.aluTask w with
    | some (.op o) => rs1Of w = rdOf w ∧
        if opcodeOf w = opImmOpcode then Neutral (Decode.decImm w) o
        else (rs2Of w = 0#5 ∧ Neutral 0#32 o) ∨ (rs2Of w = rdOf w ∧ (o = .or ∨ o = .and))
    | _ => False

/-- A word that leaves the AGU alone, by its destination. -/
theorem step_eq_iff_keeps {w : BitVec 32} (hl : Decode.ldOp w = false)
    (hs : Decode.stOp w = false) : (∀ s x, s.rfR 0 = 0#32 → step s (.twoState w x) = s) ↔
      rdOf w = 0#5 ∨ Keeps w := by
  by_cases hd : rdOf w = 0#5
  · exact iff_of_true (fun s x _ => step_idle hl hs hd) (Or.inl hd)
  · constructor
    · intro h
      refine Or.inr fun s h0 => ?_
      have hrf := congrArg Core.rfR (h s 0#32 h0)
      rw [step_alu hl hs hd] at hrf
      have hk := congrFun hrf (rdOf w).toFin
      simp only [Function.update_self] at hk
      exact hk
    · intro h s x h0
      rw [step_alu hl hs hd, (h.resolve_left hd) s h0, Function.update_eq_self]

/-- **The words that do nothing**: a word leaves every state with x0 at 0 alone, whatever reads past
    the data RAM answer, if and only if it is one of these. -/
theorem nop_iff (w : BitVec 32) :
    (∀ s x, s.rfR 0 = 0#32 → step s (.twoState w x) = s) ↔ Nop w := by
  unfold Nop
  cases hm : AsBuilt.memTask w with
  | some o =>
      cases o with
      | store o =>
          have hs : Decode.stOp w = true := (AsBuilt.isStore_iff w).mp ⟨o, hm⟩
          constructor
          · intro h
            by_contra hc
            exact store_changes (x := 0#32) hs hc (congrArg Core.memR (h _ 0#32 rfl))
          · intro h s x _
            refine step_store_past hs fun hidx => ?_
            rw [ramIdx_lui s h.1] at hidx
            exact (decImm_lt_iff hs).mp hidx h
      | load o =>
          have hl : Decode.ldOp w = true := (AsBuilt.isLoad_iff w).mp ⟨o, hm⟩
          exact iff_of_false
            (fun h => load_changes hl (congrFun (congrArg Core.rfR (h _ _ rfl)) _)) id
  | none =>
      have hl : Decode.ldOp w = false := by
        rw [Bool.eq_false_iff, ne_eq, ← AsBuilt.isLoad_iff, AsBuilt.IsLoad, hm]
        simp
      have hs : Decode.stOp w = false := by
        rw [Bool.eq_false_iff, ne_eq, ← AsBuilt.isStore_iff, AsBuilt.IsStore, hm]
        simp
      rw [step_eq_iff_keeps hl hs]
      by_cases hd : rdOf w = 0#5
      · exact iff_of_true (Or.inl hd) (Or.inl hd)
      · refine or_congr_right ?_
        cases ht : AsBuilt.aluTask w with
        | none =>
            refine iff_of_false (not_keeps_const hd 0#32 fun v => ?_) id
            rw [← AsBuilt.result_eq, AsBuilt.result, ht]
            rfl
        | some t =>
            cases t with
            | lui =>
                refine iff_of_false (not_keeps_const hd (AsBuilt.imm w) fun v => ?_) id
                rw [← AsBuilt.result_eq, AsBuilt.result, ht]
                rfl
            | op o =>
                rcases (AsBuilt.aluTask_eq_op w o).mp ht with hr | hi
                · have hopc : opcodeOf w ≠ opImmOpcode := by
                    rw [hr.1]
                    decide
                  show _ ↔ _ ∧ (if _ then _ else _)
                  rw [keeps_reg_iff hr hd, if_neg hopc]
                · show _ ↔ _ ∧ (if _ then _ else _)
                  rw [keeps_imm_iff hi hd, if_pos hi.1]

/-- `addi x0, x0, 0`, the canonical one. -/
example : Nop 0x00000013#32 := Or.inl (by decide)

end Core

end Xf100
