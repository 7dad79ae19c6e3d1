/-
  File:      Xf100/StoreEffect.lean
  Subject:   Where a word taken for a store writes, and that it does write.

  From reset every read port answers 0, so the address is the immediate alone. It leaves
  the data RAM only through the U format: `decImm_lt_iff`. Inside, there are RAM
  contents the write does not leave alone: `store_changes`.
-/
import Xf100.Effect

namespace Xf100

open Rv32i

namespace Decode

variable {w : BitVec 32}

/-! ## 1. The upper bits of the immediate -/

theorem getLsbD_uImm (k : Nat) : (uImm w).getLsbD k = (decide (12 ≤ k) && w.getLsbD k) := by
  unfold uImm
  show (w.extractLsb 31 12 ++ 0#12 : BitVec (20 + 12)).getLsbD k = _
  rw [BitVec.getLsbD_append, BitVec.getLsbD_extractLsb]
  grind

theorem getLsbD_iImm {k : Nat} (hk : k < 32) :
    (iImm w).getLsbD k = if k < 12 then w.getLsbD (20 + k) else w.getLsbD 31 := by
  unfold iImm
  rw [BitVec.getLsbD_signExtend, BitVec.msb_eq_getLsbD_last, BitVec.getLsbD_extractLsb,
    BitVec.getLsbD_extractLsb]
  grind

theorem getLsbD_sImm {k : Nat} (hk : k < 32) (h : 12 ≤ k) :
    (sImm w).getLsbD k = w.getLsbD 31 := by
  unfold sImm
  rw [BitVec.getLsbD_signExtend, BitVec.msb_eq_getLsbD_last, BitVec.getLsbD_append, funct7Of,
    BitVec.getLsbD_extractLsb]
  grind

theorem getLsbD_shImm {k : Nat} (h : 5 ≤ k) : (shImm w).getLsbD k = false := by
  unfold shImm
  show (0#27 ++ rs2Of w : BitVec (27 + 5)).getLsbD k = _
  rw [BitVec.getLsbD_append]
  grind

/-- **From bit 12 up only LUI and the sign speak.** -/
theorem getLsbD_decImm_high {k : Nat} (hk : k < 32) (h : 12 ≤ k) (hsign : w.getLsbD 31 = false) :
    (decImm w).getLsbD k = (decide (opcodeOf w = luiOpcode) && w.getLsbD k) := by
  have hi : (iImm w).getLsbD k = false := by
    rw [getLsbD_iImm hk, if_neg (by omega), hsign]
  have hs : (sImm w).getLsbD k = false := (getLsbD_sImm hk h).trans hsign
  have hsh : (shImm w).getLsbD k = false := getLsbD_shImm (by omega)
  have gate (b : Prop) [Decidable b] (x : BitVec 32) (hx : x.getLsbD k = false) :
      (if b then x else 0#32).getLsbD k = false := by
    split
    · exact hx
    · exact BitVec.getLsbD_zero
  rw [decImm_eq, BitVec.getLsbD_or, BitVec.getLsbD_or, BitVec.getLsbD_or, gate _ _ hi,
    gate _ _ hs, gate _ _ hsh]
  by_cases hl : opcodeOf w = luiOpcode
  · rw [if_pos hl, getLsbD_uImm]
    simp [-BitVec.getLsbD_eq_getElem, h, hl]
  · simp [hl]

/-- The bits of a word taken for a store that its `funct7` and funct3 fix. -/
theorem bits_of_stOp (h : stOp w = true) : w.getLsbD 31 = false ∧ w.getLsbD 14 = false := by
  obtain ⟨h7, o, h3⟩ := (stOp_iff w).mp h
  have h31 : (funct7Of w).getLsbD 6 = w.getLsbD 31 := by simp [funct7Of]
  have h14 : (funct3Of w).getLsbD 2 = w.getLsbD 14 := by simp [funct3Of]
  rw [← h31, ← h14, h7, h3]
  cases o <;> decide

end Decode

namespace Core

variable {w : BitVec 32}

/-! ## 2. The address -/

theorem ramIdx_eq (s : Core) (w : BitVec 32) :
    ramIdx s w = (Exu.rfRs1 s.rfR w + Decode.decImm w).extractLsb 15 0 := rfl

theorem rfRs1_reset (memR : RamMem dataRamDp) (w : BitVec 32) :
    Exu.rfRs1 (reset memR).rfR w = 0#32 := by
  rw [rfRs1_eq]
  exact ite_self _

theorem rfRs2_reset (memR : RamMem dataRamDp) (w : BitVec 32) :
    Exu.rfRs2 (reset memR).rfR w = 0#32 := by
  rw [rfRs2_eq]
  exact ite_self _

/-- LUI closes read port 1: its address is the immediate, in every state. -/
theorem ramIdx_lui (s : Core) (h : opcodeOf w = luiOpcode) :
    ramIdx s w = (Decode.decImm w).extractLsb 15 0 := by
  rw [ramIdx_eq, rfRs1_eq, if_pos (Or.inr h), BitVec.zero_add]

theorem ramIdx_reset (memR : RamMem dataRamDp) (w : BitVec 32) :
    ramIdx (reset memR) w = (Decode.decImm w).extractLsb 15 0 := by
  rw [ramIdx_eq, rfRs1_reset, BitVec.zero_add]

/-- The indices of the data RAM are those without the two upper bits. -/
theorem lt_dataRamDp_iff (a : BitVec dataRamAw) :
    a.toNat < dataRamDp ↔ a.getLsbD 14 = false ∧ a.getLsbD 15 = false := by
  have h : a.toNat < 65536 := a.isLt
  show a.toNat < 16384 ↔ _
  simp only [BitVec.getLsbD, Nat.testBit_eq_decide_div_mod_eq, decide_eq_false_iff_not,
    Nat.reducePow]
  omega

/-- **The immediate of a word taken for a store stays inside the data RAM** except for LUI words
    with bit 15 set. -/
theorem decImm_lt_iff (h : Decode.stOp w = true) :
    ((Decode.decImm w).extractLsb 15 0).toNat < dataRamDp ↔
      ¬ (opcodeOf w = luiOpcode ∧ w.getLsbD 15 = true) := by
  obtain ⟨h31, h14⟩ := Decode.bits_of_stOp h
  have hb {k : Nat} (hk : k ≤ 15) :
      ((Decode.decImm w).extractLsb 15 0).getLsbD k = (Decode.decImm w).getLsbD k := by
    rw [BitVec.getLsbD_extractLsb, Nat.zero_add]
    simp [-BitVec.getLsbD_eq_getElem, Nat.lt_succ_of_le hk]
  rw [lt_dataRamDp_iff, hb (by decide), hb (by decide),
    Decode.getLsbD_decImm_high (by decide) (by decide) h31,
    Decode.getLsbD_decImm_high (by decide) (by decide) h31, h14]
  simp [-BitVec.getLsbD_eq_getElem]

/-! ## 3. The write -/

/-- The data RAM port a word drives. -/
def ramIn (s : Core) (w : BitVec 32) : RamIn dataRamAw := dataRamIn (Exu.aguRam s.rfR w)

theorem ramIn_write_en (s : Core) (h : Decode.stOp w = true) :
    ((ramIn s w).ramCs && (ramIn s w).ramWen) = true :=
  (ram_write_en (s := s) (c := .twoState w 0#32)).trans h

/-- **Outside the data RAM a store changes nothing.** -/
theorem step_store_past {s : Core} {x : BitVec 32} (h : Decode.stOp w = true)
    (hp : ¬ (ramIdx s w).toNat < dataRamDp) : step s (.twoState w x) = s := by
  rw [step_store h]
  exact congrArg (Core.mk s.rfR) (xf100RamWrite_past hp)

/-- **Inside, it writes the addressed word.** -/
theorem step_store_hit {s : Core} {x : BitVec 32} (h : Decode.stOp w = true)
    (hidx : (ramIdx s w).toNat < dataRamDp) : step s (.twoState w x) =
      ⟨s.rfR, Function.update s.memR ⟨(ramIdx s w).toNat, hidx⟩
        (Ram.wrWord (ramIn s w) (s.memR ⟨(ramIdx s w).toNat, hidx⟩))⟩ := by
  rw [step_store h]
  exact congrArg (Core.mk s.rfR) (xf100RamWrite_hit (ramIn_write_en s h) hidx)

/-- There are contents a store inside the data RAM does not leave alone: 0x100 loses its bit 8,
    for lane 2 moves there and is 0, old or new. -/
theorem store_changes {x : BitVec 32} (h : Decode.stOp w = true)
    (hin : ¬ (opcodeOf w = luiOpcode ∧ w.getLsbD 15 = true)) :
    (step (reset fun _ => 0x100#32) (.twoState w x)).memR ≠ fun _ => 0x100#32 := by
  intro he
  have hidx : (ramIdx (reset fun _ => 0x100#32) w).toNat < dataRamDp := by
    rw [ramIdx_reset]
    exact (decImm_lt_iff h).mpr hin
  have hlane : (ramIn (reset fun _ => 0x100#32) w).ramWdat2 = 0#8 := by
    show (Exu.rfRs2 (reset fun _ => 0x100#32).rfR w).extractLsb 23 16 = 0#8
    rw [rfRs2_reset]
    rfl
  rw [step_store_hit h hidx] at he
  have hword : Ram.wrWord (ramIn (reset fun _ => 0x100#32) w) 0x100#32 = 0x100#32 := by
    have hw := congrFun he ⟨_, hidx⟩
    simp only [Function.update_self] at hw
    exact hw
  have hbyte := (Ram.wrWord_bytes (ramIn (reset fun _ => 0x100#32) w) 0x100#32).2.2.1
  rw [hword, hlane] at hbyte
  revert hbyte
  split <;> decide

end Core

end Xf100
