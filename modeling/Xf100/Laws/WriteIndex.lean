/-
  File:      Xf100/Laws/WriteIndex.lean
  Subject:   Which register a write goes to, with the undriven net left free.

  The AGU drives its index on `agu_wbck_rdidx`; the write-back block listens on
  `agu_wbck_idx`, which has no driver, and ORs what it finds there with the ALU's index.
  `writeIndex_iff` says for which words and values of that net the write goes to the rd field.
-/
import Xf100.Effect

namespace Xf100

open Rv32i

namespace Core

variable (s : Core) (c : Cycle)

/-! ## 1. The two ends of the AGU's index -/

/-- The write-back outputs of the AGU in a cycle. -/
def agu : AguWbckOut := Exu.agu (rfNow s c) c.exuIInstr (dataRamRdat s c)

/-- The inputs of the write-back block in a cycle. -/
def wbckIn : WbckIn := Exu.wbckIn (rfNow s c) c.exuIInstr c.aguWbckIdx (dataRamRdat s c)

/-- Both units drive the rd field; only the ALU's arrives. -/
theorem indices_eq : (agu s c).aguOWbckRdidx = rdOf c.exuIInstr ∧
    (wbckIn s c).wbckIWbckRdidx0 = rdOf c.exuIInstr ∧
    (wbckIn s c).wbckIWbckRdidx1 = c.aguWbckIdx :=
  ⟨rfl, rfl, rfl⟩

theorem rfWbck_rdidx : (rfWbck s c).wbckOWbckRdidx =
    (wbckIn s c).wbckIWbckRdidx0 ||| (wbckIn s c).wbckIWbckRdidx1 := rfl

/-- The enable is low for the words without `rd_en` that are not taken for a load. -/
theorem rfWbck_en_iff : (rfWbck s c).wbckOWbckEn = true ↔
    ¬ (Decode.rdEn c.exuIInstr = false ∧ Decode.ldOp c.exuIInstr = false) := by
  have hen : (rfWbck s c).wbckOWbckEn = (Decode.rdEn c.exuIInstr || Decode.ldOp c.exuIInstr) :=
    Exu.rfWbck_en _ _ _ _
  rw [hen, ← Bool.or_eq_false_iff, Bool.not_eq_false]

/-! ## 2. The write index -/

/-- **When the register written is the rd field.** A write has the right index, and the AGU's
    index arrives, if and only if the word writes nothing or the undriven net happens to carry
    rd. Taken alone, and for every word, the index is right if and only if the net has no bit
    outside rd; what the AGU drives is what the write-back block receives if and only if the
    net carries rd; and only for rd = x31 is the index right whatever the net carries. -/
theorem writeIndex_iff :
    (((rfWbck s c).wbckOWbckEn = true → (rfWbck s c).wbckOWbckRdidx = rdOf c.exuIInstr ∧
        (agu s c).aguOWbckRdidx = (wbckIn s c).wbckIWbckRdidx1) ↔
      (Decode.rdEn c.exuIInstr = false ∧ Decode.ldOp c.exuIInstr = false) ∨
        c.aguWbckIdx = rdOf c.exuIInstr) ∧
    ((rfWbck s c).wbckOWbckRdidx = rdOf c.exuIInstr ↔
      c.aguWbckIdx &&& ~~~rdOf c.exuIInstr = 0#5) ∧
    ((agu s c).aguOWbckRdidx = (wbckIn s c).wbckIWbckRdidx1 ↔ c.aguWbckIdx = rdOf c.exuIInstr) ∧
    ((∀ z, (rfWbck s { c with aguWbckIdx := z }).wbckOWbckRdidx = rdOf c.exuIInstr) ↔
      rdOf c.exuIInstr = 31#5) := by
  obtain ⟨hagu, h0, h1⟩ := indices_eq s c
  refine ⟨?_, ?_, ?_, ?_⟩
  · rw [rfWbck_en_iff, hagu, h1, rfWbck_rdidx, h0, h1, or_iff_not_imp_left]
    constructor
    · intro h hen
      exact (h hen).2.symm
    · intro h hen
      have hz := h hen
      rw [hz]
      exact ⟨BitVec.or_self, rfl⟩
  · rw [rfWbck_rdidx, h0, h1, BitVec.or_comm]
    exact Sync.or_eq_right_iff _ _
  · rw [hagu, h1]
    exact eq_comm
  · have hz (z : BitVec 5) : (rfWbck s { c with aguWbckIdx := z }).wbckOWbckRdidx =
        rdOf c.exuIInstr ||| z := rfl
    constructor
    · intro h
      have h31 := h 31#5
      rw [hz] at h31
      rw [← h31]
      exact BitVec.or_allOnes
    · intro h z
      rw [hz, h]
      exact BitVec.allOnes_or

/-- `addi x1, x0, 1` with a 2 on the undriven net writes x3. -/
theorem addi_writes_x3 : ¬ ∀ (s : Core) (c : Cycle), (rfWbck s c).wbckOWbckEn = true →
    (rfWbck s c).wbckOWbckRdidx = rdOf c.exuIInstr ∧
      (agu s c).aguOWbckRdidx = (wbckIn s c).wbckIWbckRdidx1 := by
  intro h
  have h1 := (h (reset fun _ => 0#32) ⟨(Arith.opImm .addi 1#5 0#5 1#12).encode, true, 2#5, 0#32⟩
    (by decide +kernel)).1
  revert h1
  decide +kernel

end Core

end Xf100
