/-
  File:      Xf100/Effect.lean
  Subject:   Everything one clock cycle can do to the stored state.

  A word is taken for a store, for a load, for neither with a destination, or for neither
  without one, and never for two of these. `step_store`, `step_load`, `step_alu` and
  `step_idle` give the whole next state in each case, in the two-state model with the
  reset inactive, `step_cases` all four at once; every law about a step is derived from
  them.
-/
import Xf100.AguLaws
import Xf100.AluLaws
import Xf100.Core
import Xf100.DecodeLaws

namespace Xf100

open Rv32i

/-! ## 1. The enables, in terms of the word -/

/-- The AGU reads a load where the decoder puts it. -/
theorem Agu.ldBit_eq (i : AguIn) (o : LoadOp) :
    Agu.ldBit i o = i.aguIAguInfo.getLsbD (Decode.aguBit (.load o)) := by
  cases o <;> rfl

/-- A store raises the lowest lane, SW all four. -/
theorem Agu.ramMask_store {i : AguIn} {o : StoreOp}
    (h : ∀ k, i.aguIAguInfo.getLsbD (Decode.aguBit k) = decide (k = .store o)) :
    Agu.ramMask i = if o = .sw then 0b1111#4 else 0b0001#4 := by
  have hlb : Agu.lbOp i = false := (h (.load .lb)).trans (by simp)
  have hlh : Agu.lhOp i = false := (h (.load .lh)).trans (by simp)
  have hlw : Agu.lwOp i = false := (h (.load .lw)).trans (by simp)
  have hlbu : Agu.lbuOp i = false := (h (.load .lbu)).trans (by simp)
  have hlhu : Agu.lhuOp i = false := (h (.load .lhu)).trans (by simp)
  have hsb : Agu.sbOp i = decide (MemOp.store .sb = .store o) := h (.store .sb)
  have hsh : Agu.shOp i = decide (MemOp.store .sh = .store o) := h (.store .sh)
  have hsw : Agu.swOp i = decide (MemOp.store .sw = .store o) := h (.store .sw)
  unfold Agu.ramMask Agu.size1B Agu.size2B Agu.size4B
  rw [hlb, hlh, hlw, hlbu, hlhu, hsb, hsh, hsw]
  cases o <;> rfl

namespace Exu

variable (rf : Regfile) (w : BitVec 32)

theorem aguIn_bit (k : Nat) :
    (aguIn rf w).aguIAguInfo.getLsbD k = (Decode.aguInfo w).getLsbD k := rfl

theorem aguIn_loadOp : Agu.loadOp (aguIn rf w) = Decode.ldOp w := by
  simp only [Agu.loadOp, Agu.lbOp, Agu.lhOp, Agu.lwOp, Agu.lbuOp, Agu.lhuOp, aguIn_bit,
    Decode.aguInfo, Sync.getLsbD_bus]
  rfl

theorem aguIn_storeOp : Agu.storeOp (aguIn rf w) = Decode.stOp w := by
  simp only [Agu.storeOp, Agu.sbOp, Agu.shOp, Agu.swOp, aguIn_bit, Decode.aguInfo,
    Sync.getLsbD_bus]
  rfl

/-- What the ALU writes back. -/
def aluData : BitVec 32 := (alu rf w).aluOWbckData

/-- What the AGU writes back. -/
def aguData (r : RamOut) : BitVec 32 := (agu rf w r).aguOWbckData

/-- **The register write enable**: no reading of the state, no reading of the RAM. -/
theorem rfWbck_en (z : BitVec 5) (r : RamOut) :
    (rfWbck rf w z r).wbckOWbckEn = (Decode.rdEn w || Decode.ldOp w) := by
  show (Decode.rdEn w || Agu.loadOp (aguIn rf w)) = _
  rw [aguIn_loadOp]

/-- **The register write index**: the field, ORed with the undriven net. -/
theorem rfWbck_idx (z : BitVec 5) (r : RamOut) :
    (rfWbck rf w z r).wbckOWbckRdidx = rdOf w ||| z := rfl

theorem rfWbck_data (z : BitVec 5) (r : RamOut) :
    (rfWbck rf w z r).wbckOWbckData = aluData rf w ||| aguData rf w r := rfl

/-- **The AGU of a word that is not taken for a load is silent.** -/
theorem aguData_none (h : Decode.ldOp w = false) (r : RamOut) : aguData rf w r = 0#32 :=
  Agu.aguWbckWdat_none (by rw [aguIn_loadOp, h]) r

end Exu

namespace Core

variable {s : Core} {c : Cycle}

theorem ram_write_en :
    ((dataRamIn (aguRam s c)).ramCs && (dataRamIn (aguRam s c)).ramWen) =
      Decode.stOp c.exuIInstr := by
  show (Decode.aguOp c.exuIInstr && Agu.storeOp (Exu.aguIn (rfNow s c) c.exuIInstr)) = _
  rw [Exu.aguIn_storeOp, Decode.aguOp]
  cases Decode.stOp c.exuIInstr <;> simp

theorem ram_read_en :
    ((dataRamIn (aguRam s c)).ramCs && !(dataRamIn (aguRam s c)).ramWen) =
      Decode.ldOp c.exuIInstr := by
  show (Decode.aguOp c.exuIInstr && !Agu.storeOp (Exu.aguIn (rfNow s c) c.exuIInstr)) = _
  rw [Exu.aguIn_storeOp, Decode.aguOp]
  cases hs : Decode.stOp c.exuIInstr with
  | false => simp
  | true => simp [Decode.ldOp_of_stOp _ hs]

/-- A word that is not taken for a store leaves the data RAM alone, whatever the cycle's
    reset and free nets. -/
theorem step_memR_of_not_stOp (h : Decode.stOp c.exuIInstr = false) :
    (step s c).memR = s.memR :=
  xf100RamWrite_idle (by rw [ram_write_en, h])

/-! ## 2. What a word reads -/

section Read

variable {rf : Regfile} {w : BitVec 32}

/-- Read port 1 is closed for x0 and for LUI. -/
theorem rfRs1_eq : Exu.rfRs1 rf w =
    if rs1Of w = 0#5 ∨ opcodeOf w = luiOpcode then 0#32 else rf (rs1Of w).toFin := by
  have h : Decode.rs1En w = !decide (rs1Of w = 0#5 ∨ opcodeOf w = luiOpcode) := by
    rw [Bool.eq_iff_iff]
    simp [Decode.rs1En, Decode.opNoRs1, Decode.rs1Idx_eq, ← Decode.luiOp_iff]
  show Regfile.rfRs rf (Decode.rs1En w) (rs1Of w) = _
  rw [Regfile.rfRs_eq, h]
  by_cases hc : rs1Of w = 0#5 ∨ opcodeOf w = luiOpcode <;> simp [hc]

/-- **Read port 2 is closed by rs1**: with rs1 = x0 it answers 0 whatever rs2 is. -/
theorem rfRs2_eq : Exu.rfRs2 rf w = if Decode.rs2En w then rf (rs2Of w).toFin else 0#32 :=
  Regfile.rfRs_eq rf _ _

theorem rfRs2_of_rs1_zero (h : rs1Of w = 0#5) : Exu.rfRs2 rf w = 0#32 := by
  have he : Decode.rs2En w = false := by
    rw [Bool.eq_false_iff]
    intro hen
    exact ((Decode.rs2En_iff w).mp hen).1 h
  rw [rfRs2_eq, he]
  rfl

end Read

/-! ## 3. The four kinds of step -/

section Step

variable {w x : BitVec 32}

/-- The index a word drives into the data RAM. -/
def ramIdx (s : Core) (w : BitVec 32) : BitVec dataRamAw := (Exu.aguRam s.rfR w).aguORamAddr

/-- The lanes a word gets back from the data RAM. -/
def rdat (s : Core) (w x : BitVec 32) : RamOut := dataRamRdat s (.twoState w x)

theorem step_rfR : (step s (.twoState w x)).rfR =
    if Decode.rdEn w || Decode.ldOp w then
      Function.update s.rfR (rdOf w).toFin
        (Exu.aluData s.rfR w ||| Exu.aguData s.rfR w (rdat s w x))
    else s.rfR := by
  show Regfile.rfEdge s.rfR true (Exu.rfWbck s.rfR w 0#5 (rdat s w x)).wbckOWbckEn
    (Exu.rfWbck s.rfR w 0#5 (rdat s w x)).wbckOWbckData
    (Exu.rfWbck s.rfR w 0#5 (rdat s w x)).wbckOWbckRdidx = _
  rw [Regfile.rfEdge_eq, Exu.rfWbck_en, Exu.rfWbck_idx, Exu.rfWbck_data, BitVec.or_zero]

theorem rdEn_iff : Decode.rdEn w = true ↔ rdOf w ≠ 0#5 ∧ Decode.stOp w = false := by
  simp [Decode.rdEn, Decode.opNoRd, Decode.bxxOp, Decode.rdIdx_eq]

theorem rdEn_of_stOp (h : Decode.stOp w = true) : Decode.rdEn w = false := by
  rw [Bool.eq_false_iff]
  intro hd
  rw [(rdEn_iff.mp hd).2] at h
  cases h

/-- **A word taken for a store** writes the data RAM and no register. -/
theorem step_store (h : Decode.stOp w = true) : step s (.twoState w x) =
    ⟨s.rfR, xf100RamWrite s.memR (dataRamIn (Exu.aguRam s.rfR w))⟩ := by
  have hr : (step s (.twoState w x)).rfR = s.rfR := by
    rw [step_rfR, rdEn_of_stOp h, Decode.ldOp_of_stOp w h]
    rfl
  exact congrArg (Core.mk · _) hr

/-- **A word taken for a load** writes the register of its rd field, x0 not excepted. -/
theorem step_load (h : Decode.ldOp w = true) : step s (.twoState w x) =
    ⟨Function.update s.rfR (rdOf w).toFin
      (Exu.aluData s.rfR w ||| Exu.aguData s.rfR w (rdat s w x)), s.memR⟩ := by
  have hs := Decode.stOp_of_ldOp w h
  have hr := step_rfR (s := s) (w := w) (x := x)
  rw [h, Bool.or_true, if_pos rfl] at hr
  have hm : (step s (.twoState w x)).memR = s.memR := step_memR_of_not_stOp hs
  rw [← hr, ← hm]

theorem loadFunct3_inj {o o' : LoadOp} (h : o.funct3 = o'.funct3) : o = o' := by
  cases o <;> cases o' <;> first | rfl | exact absurd h (by decide)

/-- What a word taken for a load gets back: one bit of the addressed word for each byte. -/
theorem aguData_load {o : LoadOp} (h : Decode.ldOp w = true) (ho : funct3Of w = o.funct3) :
    Exu.aguData s.rfR w (rdat s w x) =
      Agu.laneData (fun k => (Ram.memAt s.memR x (ramIdx s w)).getLsbD k) o := by
  have h7 := ((Decode.ldOp_iff w).mp h).1
  have hr : rdat s w x =
      Agu.lanes fun k => (Ram.memAt s.memR x (ramIdx s w)).getLsbD k :=
    Agu.xf100RamRead_lanes _ _ _ (ram_read_en.trans h)
  rw [hr]
  refine Agu.aguWbckWdat_lanes (fun o' => ?_) _
  rw [Agu.ldBit_eq, Exu.aguIn_bit, Bool.eq_iff_iff, Decode.aguInfo_bit, decide_eq_true_eq]
  constructor
  · intro hx
    obtain ⟨-, h3⟩ := hx
    exact loadFunct3_inj (h3.symm.trans ho)
  · rintro rfl
    exact ⟨h7, ho⟩

/-- **Any other word with a non-zero rd field** writes that register from the ALU alone. -/
theorem step_alu (hl : Decode.ldOp w = false) (hs : Decode.stOp w = false) (hd : rdOf w ≠ 0#5) :
    step s (.twoState w x) =
      ⟨Function.update s.rfR (rdOf w).toFin (Exu.aluData s.rfR w), s.memR⟩ := by
  have hr := step_rfR (s := s) (w := w) (x := x)
  rw [rdEn_iff.mpr ⟨hd, hs⟩, Bool.true_or, if_pos rfl, Exu.aguData_none _ _ hl,
    BitVec.or_zero] at hr
  have hm : (step s (.twoState w x)).memR = s.memR := step_memR_of_not_stOp hs
  rw [← hr, ← hm]

/-- **Any other word** changes nothing. -/
theorem step_idle (hl : Decode.ldOp w = false) (hs : Decode.stOp w = false) (hd : rdOf w = 0#5) :
    step s (.twoState w x) = s := by
  have hd' : Decode.rdEn w = false := by
    rw [Bool.eq_false_iff]
    intro h
    exact (rdEn_iff.mp h).1 hd
  have hr := step_rfR (s := s) (w := w) (x := x)
  rw [hd', hl] at hr
  have hm : (step s (.twoState w x)).memR = s.memR := step_memR_of_not_stOp hs
  exact congrArg₂ Core.mk hr hm

/-- **The four kinds of step**, every word being of one of them. -/
theorem step_cases (s : Core) (w x : BitVec 32) :
    (Decode.stOp w = true ∧ step s (.twoState w x) =
      ⟨s.rfR, xf100RamWrite s.memR (dataRamIn (Exu.aguRam s.rfR w))⟩) ∨
    (Decode.ldOp w = true ∧ step s (.twoState w x) =
      ⟨Function.update s.rfR (rdOf w).toFin
        (Exu.aluData s.rfR w ||| Exu.aguData s.rfR w (rdat s w x)), s.memR⟩) ∨
    (rdOf w ≠ 0#5 ∧ step s (.twoState w x) =
      ⟨Function.update s.rfR (rdOf w).toFin (Exu.aluData s.rfR w), s.memR⟩) ∨
    step s (.twoState w x) = s := by
  cases hs : Decode.stOp w with
  | true => exact Or.inl ⟨rfl, step_store hs⟩
  | false =>
      cases hl : Decode.ldOp w with
      | true => exact Or.inr (Or.inl ⟨rfl, step_load hl⟩)
      | false =>
          by_cases hd : rdOf w = 0#5
          · exact Or.inr (Or.inr (Or.inr (step_idle hl hs hd)))
          · exact Or.inr (Or.inr (Or.inl ⟨hd, step_alu hl hs hd⟩))

end Step

end Core

end Xf100
