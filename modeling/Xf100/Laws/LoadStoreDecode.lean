/-
  File:      Xf100/Laws/LoadStoreDecode.lean
  Subject:   How exactly the decoder recognises the loads and stores.

  The decoder compares `funct7` with the constants that are the opcodes of the loads and
  the stores, and never looks at the opcode. `loadStoreExact_iff` says on which words this
  comes out right.
-/
import Xf100.DecodeLaws

namespace Xf100

open Rv32i

namespace Decode

/-- **The loads and stores of the word are recognised**: each bus bit is set on the encodings of
    its instruction and on no other word, the unit is selected with it, and the word is no
    ALU operation at the same time. -/
structure LoadStoreExact (w : BitVec 32) : Prop where
  bits : ∀ o : MemOp,
    (xf100ExuDecode w).decOAguInfo.getLsbD (aguBit o) = true ↔ o.Encodes w
  select : (xf100ExuDecode w).decOAguOp = true ↔ ∃ o : MemOp, o.Encodes w
  disjoint : ¬ (HasOp (xf100ExuDecode w).decOAguInfo ∧ HasOp (xf100ExuDecode w).decOAluInfo)

/-- No load or store shares its opcode with an ALU instruction. -/
theorem memOpcode_ne (o : MemOp) :
    o.opcode ≠ opOpcode ∧ o.opcode ≠ opImmOpcode ∧ o.opcode ≠ luiOpcode := by
  cases o <;> simp only [MemOp.opcode] <;> decide

/-- **Exactly these words are decoded right**: those on which, for every load or store with the
    word's funct3, `funct7` equals the opcode constant just when the opcode does. -/
theorem loadStoreExact_iff (w : BitVec 32) :
    LoadStoreExact w ↔
      ∀ o : MemOp, funct3Of w = o.funct3 → (funct7Of w = o.opcode ↔ opcodeOf w = o.opcode) := by
  constructor
  · intro h o h3
    have hb : funct7Of w = o.opcode ∧ funct3Of w = o.funct3 ↔ o.Encodes w :=
      (aguInfo_bit w o).symm.trans (h.bits o)
    exact ⟨fun h7 => (hb.mp ⟨h7, h3⟩).1, fun ho => (hb.mpr ⟨ho, h3⟩).1⟩
  · intro h
    have hbits : ∀ o : MemOp, (aguInfo w).getLsbD (aguBit o) = true ↔ o.Encodes w := by
      intro o
      rw [aguInfo_bit]
      constructor
      · intro hx
        obtain ⟨h7, h3⟩ := hx
        exact ⟨(h o h3).mp h7, h3⟩
      · intro hx
        obtain ⟨ho, h3⟩ := hx
        exact ⟨(h o h3).mpr ho, h3⟩
    refine ⟨hbits, ?_, ?_⟩
    · exact (aguOp_iff w).trans (exists_congr hbits)
    · intro hx
      obtain ⟨hagu, halu⟩ := hx
      obtain ⟨o, ho⟩ := (hasOp_aguInfo w).mp hagu
      have hopc : opcodeOf w = o.opcode := ((hbits o).mp ho).1
      obtain ⟨h1, h2, h3⟩ := memOpcode_ne o
      rcases opcode_of_hasOp_aluInfo w halu with h' | h' | h'
      · exact h1 (hopc.symm.trans h')
      · exact h2 (hopc.symm.trans h')
      · exact h3 (hopc.symm.trans h')

/-- `lw x1, 0(x0)` is not recognised: its `funct7` is 0. -/
theorem lw_not_recognised : ¬ ∀ w : BitVec 32, LoadStoreExact w := by
  intro h
  have hb := ((h (loadWord .lw 1#5 0#5 0#12)).bits (.load .lw)).mpr ⟨by decide, by decide⟩
  revert hb
  decide +kernel

end Decode

end Xf100
