/-
  File:      Xf100/Laws/RamAccess.lean
  Subject:   Two laws of the data RAM: masked write and read-back, and the address mapping.

  `xf100_ram` packs a write with lane 0 at the top and reads each lane as one bit of the low
  byte, so what a read shows after a write comes from one byte alone: lane 3 as written, or
  the top byte of the old word.

  * `readBack_iff` -- when a masked write is read back, for every size of RAM;
  * `wordMapped_iff` -- when the index the AGU drives is that of the addressed word.
-/
import Xf100.AguLaws
import Xf100.Core

namespace Xf100

/-! ## 1. Masked write and read-back -/

namespace Ram

variable {aw dp : Nat}

/-- The ports with a write on them. -/
def writing (i : RamIn aw) : RamIn aw := { i with ramCs := true, ramWen := true }

/-- The ports with a read on them. -/
def reading (i : RamIn aw) : RamIn aw := { i with ramCs := true, ramWen := false }

/-- **A masked write is read back**: each lane answers the byte written, or what it answered
    before; every other address answers what it answered before. -/
structure ReadBack (memR : RamMem dp) (i : RamIn aw) : Prop where
  lane : ∀ memX (q : RamIn aw), q.ramAddr = i.ramAddr → ∀ k, k < 4 →
    (xf100RamRead (xf100RamWrite memR (writing i)) memX (reading q)).ramRdat k =
      if i.ramMask.getLsbD k then i.ramWdat k
      else (xf100RamRead memR memX (reading q)).ramRdat k
  other : ∀ memX (q : RamIn aw), q.ramAddr ≠ i.ramAddr →
    xf100RamRead (xf100RamWrite memR (writing i)) memX (reading q) =
      xf100RamRead memR memX (reading q)

/-- The byte a write leaves at the bottom of the word: lane 3 as written, or the old top byte. -/
def bottom (i : RamIn aw) (old : BitVec 32) : BitVec 8 :=
  if i.ramMask.getLsbD 3 then i.ramWdat3 else old.extractLsb 31 24

/-- **When a write is read back.** With lane 3 written, the bytes written must be 0, and so must
    the bits that show for the other lanes; with lane 3 kept, the old top byte must show, bit by
    bit, what is written and what the other lanes showed. -/
def Shows (i : RamIn aw) (old : BitVec 32) : Prop :=
  if i.ramMask.getLsbD 3 then
    ∀ k, k < 4 → if i.ramMask.getLsbD k then i.ramWdat k = 0#8 else old.getLsbD k = false
  else
    ∀ k, k < 4 → if i.ramMask.getLsbD k then i.ramWdat k = Agu.lane (old.getLsbD (24 + k))
      else old.getLsbD (24 + k) = old.getLsbD k

/-- A read lane shows one bit of the addressed word. -/
theorem ramRdat_reading (memR : RamMem dp) (memX : BitVec 32) (q : RamIn aw) {k : Nat}
    (hk : k < 4) : (xf100RamRead memR memX (reading q)).ramRdat k =
      Agu.lane ((memAt memR memX q.ramAddr).getLsbD k) := by
  rw [Agu.xf100RamRead_lanes memR memX (reading q) rfl, Agu.ramRdat_lanes _ hk]
  rfl

theorem memAt_write_same (memR : RamMem dp) (memX : BitVec 32) {i : RamIn aw}
    (h : i.ramAddr.toNat < dp) : memAt (xf100RamWrite memR (writing i)) memX i.ramAddr =
      wrWord (writing i) (memR ⟨i.ramAddr.toNat, h⟩) := by
  have hw : xf100RamWrite memR (writing i) = Function.update memR ⟨i.ramAddr.toNat, h⟩
      (wrWord (writing i) (memR ⟨i.ramAddr.toNat, h⟩)) := xf100RamWrite_hit (i := writing i) rfl h
  rw [hw, memAt_of_lt _ _ h, Function.update_self]

theorem memAt_write_other (memR : RamMem dp) (memX : BitVec 32) {i : RamIn aw} {a : BitVec aw}
    (h : a ≠ i.ramAddr) : memAt (xf100RamWrite memR (writing i)) memX a = memAt memR memX a := by
  by_cases ha : a.toNat < dp
  · rw [memAt_of_lt _ _ ha, memAt_of_lt _ _ ha]
    exact xf100RamWrite_frame (i := writing i) _ fun e => h (BitVec.eq_of_toNat_eq e)
  · rw [memAt_of_ge _ _ ha, memAt_of_ge _ _ ha]

/-- The low bits of the stored word are those of the byte left at the bottom. -/
theorem getLsbD_wrWord (i : RamIn aw) (old : BitVec 32) {k : Nat} (hk : k < 4) :
    (wrWord (writing i) old).getLsbD k = (bottom i old).getLsbD k := by
  have hbyte : (wrWord (writing i) old).extractLsb 7 0 = bottom i old :=
    (wrWord_bytes (writing i) old).2.2.2
  rw [← hbyte, BitVec.getLsbD_extractLsb, Nat.zero_add]
  simp [-BitVec.getLsbD_eq_getElem, show k < 8 by omega]

/-- A lane showing a bit of 0 is right exactly when what should show is 0. -/
theorem lane_zero_iff (k : Nat) (m b : Bool) (w : BitVec 8) :
    (Agu.lane ((0#8).getLsbD k) = if m then w else Agu.lane b) ↔
      if m then w = 0#8 else b = false := by
  rw [BitVec.getLsbD_zero]
  cases m
  · exact Agu.lane_inj.trans eq_comm
  · exact eq_comm

/-- A lane of one bit cannot show a bit above its lowest. -/
theorem eq_zero_of_lane {w : BitVec 8} (h : Agu.lane (w.getLsbD 3) = w) : w = 0#8 := by
  cases hb : w.getLsbD 3 with
  | false =>
      rw [hb] at h
      exact h.symm
  | true =>
      rw [hb] at h
      rw [← h] at hb
      cases hb

/-- The condition, lane by lane: the bit that shows is the one that should. -/
theorem shows_iff (i : RamIn aw) (old : BitVec 32) :
    Shows i old ↔ ∀ k, k < 4 → Agu.lane ((bottom i old).getLsbD k) =
      if i.ramMask.getLsbD k then i.ramWdat k else Agu.lane (old.getLsbD k) := by
  unfold Shows bottom
  cases h3 : i.ramMask.getLsbD 3 with
  | false =>
      have hlane (k : Nat) (hk : k < 4) :
          (if i.ramMask.getLsbD k then i.ramWdat k = Agu.lane (old.getLsbD (24 + k))
            else old.getLsbD (24 + k) = old.getLsbD k) ↔
          (Agu.lane ((old.extractLsb 31 24).getLsbD k) =
            if i.ramMask.getLsbD k then i.ramWdat k else Agu.lane (old.getLsbD k)) := by
        have hbit : (old.extractLsb 31 24).getLsbD k = old.getLsbD (24 + k) := by
          rw [BitVec.getLsbD_extractLsb]
          simp [-BitVec.getLsbD_eq_getElem, show k < 8 by omega]
        rw [hbit]
        cases i.ramMask.getLsbD k
        · exact Agu.lane_inj.symm
        · exact eq_comm
      exact forall₂_congr hlane
  | true =>
      -- lane 3 shows bit 3 of its own byte, so on either side that byte is 0
      constructor
      · intro h k hk
        have hzero : i.ramWdat3 = 0#8 := by
          simpa [h3, RamIn.ramWdat] using h 3 (by decide)
        rw [if_pos rfl, hzero, lane_zero_iff]
        exact h k hk
      · intro h k hk
        have hlane : Agu.lane (i.ramWdat3.getLsbD 3) = i.ramWdat3 := by
          simpa [-BitVec.getLsbD_eq_getElem, h3, RamIn.ramWdat] using h 3 (by decide)
        have hzero : i.ramWdat3 = 0#8 := eq_zero_of_lane hlane
        have hk' := h k hk
        rw [if_pos rfl, hzero, lane_zero_iff] at hk'
        exact hk'

/-- **Masked write and read-back**, on a RAM of any size with any contents: a write is read back
    if and only if the byte it leaves at the bottom of the word shows it. -/
theorem readBack_iff (memR : RamMem dp) (i : RamIn aw) (h : i.ramAddr.toNat < dp) :
    ReadBack memR i ↔ Shows i (memR ⟨i.ramAddr.toNat, h⟩) := by
  rw [shows_iff]
  constructor
  · intro hr k hk
    have hlane := hr.lane 0#32 i rfl k hk
    rw [ramRdat_reading _ _ _ hk, memAt_write_same _ _ h, getLsbD_wrWord _ _ hk,
      ramRdat_reading _ _ _ hk, memAt_of_lt _ _ h] at hlane
    exact hlane
  · intro hs
    constructor
    · intro memX q hq k hk
      rw [ramRdat_reading _ _ _ hk, ramRdat_reading _ _ _ hk, hq, memAt_write_same _ _ h,
        getLsbD_wrWord _ _ hk, memAt_of_lt _ _ h]
      exact hs k hk
    · intro memX q hq
      have hrd (m : RamMem dp) := Agu.xf100RamRead_lanes m memX (reading q) rfl
      rw [hrd, hrd, show (reading q).ramAddr = q.ramAddr from rfl, memAt_write_other _ _ hq]

/-- Lanes 0 to 2 written with 1, 0 and 1 and lane 3 kept, over a word with a 5 on top. -/
theorem readBack_kept : ReadBack (fun _ : Fin dataRamDp => 0x05000000#32)
    (⟨true, true, 0b0111#4, 0#16, 1#8, 0#8, 1#8, 0#8⟩ : RamIn dataRamAw) :=
  (readBack_iff _ _ (by decide)).mpr (by unfold Shows; decide)

/-- All lanes written, lane 0 with 1: lane 0 reads back 0. -/
theorem readBack_lost : ¬ ∀ (memR : RamMem dataRamDp) (i : RamIn dataRamAw),
    i.ramAddr.toNat < dataRamDp → ReadBack memR i := by
  intro h
  have h0 := (h (fun _ => 0#32) ⟨true, true, 0b1111#4, 0#16, 1#8, 0#8, 0#8, 0#8⟩ (by decide)).lane
    0#32 ⟨true, false, 0b1111#4, 0#16, 0#8, 0#8, 0#8, 0#8⟩ rfl 0 (by decide)
  revert h0
  decide +kernel

end Ram

/-! ## 2. The address mapping -/

namespace Agu

/-- The index the unit drives into the data RAM. -/
def ramIndex (i : AguIn) : Nat := (Core.dataRamIn (xf100ExuAguRam i)).ramAddr.toNat

/-- The byte address of an access, modulo 2^16. -/
def byteAddr (i : AguIn) : BitVec 16 := (i.aguIRs1 + i.aguIImm).setWidth 16

/-- **Accesses go to the words of the data RAM**: both indices lie inside it, and they are equal
    exactly for addresses in one aligned word. -/
structure WordMapped (i j : AguIn) : Prop where
  inside : ramIndex i < dataRamDp ∧ ramIndex j < dataRamDp
  aligned : ramIndex i = ramIndex j ↔ (byteAddr i).extractLsb 15 2 = (byteAddr j).extractLsb 15 2

/-- The index is the byte address, with its two lowest bits. -/
theorem ramIndex_eq (i : AguIn) : ramIndex i = (byteAddr i).toNat := by
  have haddr : (i.aguIRs1 + i.aguIImm).extractLsb 15 0 = byteAddr i := by
    apply BitVec.eq_of_getLsbD_eq
    intro k hk
    rw [byteAddr, BitVec.getLsbD_extractLsb, BitVec.getLsbD_setWidth]
    simp [-BitVec.getLsbD_eq_getElem, hk]
  exact congrArg BitVec.toNat haddr

/-- **The address mapping.** Two accesses go to the words of the data RAM if and only if both
    byte addresses are below its number of words and they are one address or in two words. -/
theorem wordMapped_iff (i j : AguIn) : WordMapped i j ↔
    (byteAddr i).toNat < dataRamDp ∧ (byteAddr j).toNat < dataRamDp ∧
      (byteAddr i = byteAddr j ∨
        (byteAddr i).extractLsb 15 2 ≠ (byteAddr j).extractLsb 15 2) := by
  constructor
  · intro h
    obtain ⟨⟨hi, hj⟩, hword⟩ := h
    rw [ramIndex_eq] at hi hj
    rw [ramIndex_eq, ramIndex_eq] at hword
    refine ⟨hi, hj, ?_⟩
    by_cases hne : byteAddr i = byteAddr j
    · exact Or.inl hne
    · exact Or.inr fun e => hne (BitVec.eq_of_toNat_eq (hword.mpr e))
  · intro h
    obtain ⟨hi, hj, hcase⟩ := h
    refine ⟨⟨(ramIndex_eq i).trans_lt hi, (ramIndex_eq j).trans_lt hj⟩, ?_⟩
    rw [ramIndex_eq, ramIndex_eq]
    rcases hcase with heq | hword
    · rw [heq]
      exact ⟨fun _ => rfl, fun _ => rfl⟩
    · constructor
      · intro e
        exact congrArg (BitVec.extractLsb 15 2) (BitVec.eq_of_toNat_eq e)
      · intro e
        exact absurd e hword

/-- Both halves fail: byte address 16384 indexes past the array, and the bytes 0 and 1 of one word
    have two indices. -/
theorem wordMapped_lost : (¬ ∀ i : AguIn, ramIndex i < dataRamDp) ∧
    ¬ ∀ i j : AguIn, ramIndex i = ramIndex j ↔
      (byteAddr i).extractLsb 15 2 = (byteAddr j).extractLsb 15 2 := by
  constructor
  · intro h
    have h0 := h ⟨true, 0#9, 16384#32, 0#32, 0#5, 0#32⟩
    revert h0
    decide
  · intro h
    have h0 := h ⟨true, 0#9, 0#32, 0#32, 0#5, 0#32⟩ ⟨true, 0#9, 0#32, 0#32, 0#5, 1#32⟩
    revert h0
    decide

end Agu

end Xf100
