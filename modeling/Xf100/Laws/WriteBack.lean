/-
  File:      Xf100/Laws/WriteBack.lean
  Subject:   The OR at write-back, where the data of both units meet.

  `xf100_exu_wbck` merges the two data ports without looking at an enable, so the merge is
  right only as long as a unit with nothing to do drives zeros.

  * `aluSilent`, `aguSilent` -- a unit whose bus carries no operation drives zeros, whatever
    else it is fed: every term of its result is gated by an operation bit;
  * `mergeExact` -- unless both buses carry an operation, what reaches the register file is the
    data of the unit that has one;
  * `both_hasOp_iff` -- the words on which both do.
-/
import Xf100.Laws.AluDecode

namespace Xf100

open Rv32i

/-! ## 1. Idle units -/

/-- The ALU drives zeros under this bus, for all operands and every immediate. -/
def AluSilent (info : BitVec aluInfoWidth) : Prop :=
  ∀ i : AluIn, i.aluIAluInfo = info → (xf100ExuAlu i).aluOWbckData = 0#32

/-- The AGU drives zeros under this bus, for all operands and every answer of the RAM. -/
def AguSilent (info : BitVec aguInfoWidth) : Prop :=
  ∀ (i : AguIn) (r : RamOut), i.aguIAguInfo = info → (xf100ExuAguWbck i r).aguOWbckData = 0#32

theorem aluSilent {info : BitVec aluInfoWidth} (h : ¬ HasOp info) : AluSilent info := by
  intro i hi
  subst hi
  exact Alu.wbckData_none (onlyOp_of_not_hasOp h)

theorem Agu.loadOp_of_not_hasOp {i : AguIn} (h : ¬ HasOp i.aguIAguInfo) : loadOp i = false := by
  have hbit : ∀ k, 0 < k → i.aguIAguInfo.getLsbD k = false := fun _ => getLsbD_of_not_hasOp h
  unfold loadOp lbOp lhOp lwOp lbuOp lhuOp
  rw [hbit _ (by decide), hbit _ (by decide), hbit _ (by decide), hbit _ (by decide),
    hbit _ (by decide)]
  rfl

theorem aguSilent {info : BitVec aguInfoWidth} (h : ¬ HasOp info) : AguSilent info := by
  intro i r hi
  subst hi
  exact Agu.aguWbckWdat_none (Agu.loadOp_of_not_hasOp h) r

/-! ## 2. The merge -/

namespace Core

/-- **The merge loses nothing in this cycle**: the register file is offered the data of the unit
    whose bus carries an operation, the other unit driving zeros, and 0 when neither does. -/
structure MergeExact (s : Core) (c : Cycle) : Prop where
  alu : HasOp (xf100ExuDecode c.exuIInstr).decOAluInfo →
    (rfWbck s c).wbckOWbckData = (Exu.alu (rfNow s c) c.exuIInstr).aluOWbckData ∧
      (Exu.agu (rfNow s c) c.exuIInstr (dataRamRdat s c)).aguOWbckData = 0#32 ∧
      AguSilent (xf100ExuDecode c.exuIInstr).decOAguInfo
  agu : HasOp (xf100ExuDecode c.exuIInstr).decOAguInfo →
    (rfWbck s c).wbckOWbckData =
        (Exu.agu (rfNow s c) c.exuIInstr (dataRamRdat s c)).aguOWbckData ∧
      (Exu.alu (rfNow s c) c.exuIInstr).aluOWbckData = 0#32 ∧
      AluSilent (xf100ExuDecode c.exuIInstr).decOAluInfo
  idle : ¬ HasOp (xf100ExuDecode c.exuIInstr).decOAluInfo →
    ¬ HasOp (xf100ExuDecode c.exuIInstr).decOAguInfo → (rfWbck s c).wbckOWbckData = 0#32

variable (s : Core) (c : Cycle)

theorem wbckData_of_aluSilent (h : AluSilent (xf100ExuDecode c.exuIInstr).decOAluInfo) :
    (rfWbck s c).wbckOWbckData =
      (Exu.agu (rfNow s c) c.exuIInstr (dataRamRdat s c)).aguOWbckData := by
  have hz : Exu.aluData (rfNow s c) c.exuIInstr = 0#32 := h _ rfl
  unfold rfWbck
  rw [Exu.rfWbck_data, hz, BitVec.zero_or]
  rfl

theorem wbckData_of_aguSilent (h : AguSilent (xf100ExuDecode c.exuIInstr).decOAguInfo) :
    (rfWbck s c).wbckOWbckData = (Exu.alu (rfNow s c) c.exuIInstr).aluOWbckData := by
  have hz : Exu.aguData (rfNow s c) c.exuIInstr (dataRamRdat s c) = 0#32 := h _ _ rfl
  unfold rfWbck
  rw [Exu.rfWbck_data, hz, BitVec.or_zero]
  rfl

/-- **Every cycle whose word puts an operation on at most one bus**: the merge loses nothing,
    whatever the registers and the data RAM hold. -/
theorem mergeExact (h : ¬ (HasOp (xf100ExuDecode c.exuIInstr).decOAguInfo ∧
    HasOp (xf100ExuDecode c.exuIInstr).decOAluInfo)) : MergeExact s c := by
  constructor
  case alu =>
    intro halu
    have hs := aguSilent fun hagu => h ⟨hagu, halu⟩
    exact ⟨wbckData_of_aguSilent s c hs, hs _ _ rfl, hs⟩
  case agu =>
    intro hagu
    have hs := aluSilent fun halu => h ⟨hagu, halu⟩
    exact ⟨wbckData_of_aluSilent s c hs, hs _ rfl, hs⟩
  case idle =>
    intro halu hagu
    rw [wbckData_of_aguSilent s c (aguSilent hagu)]
    exact aluSilent halu _ rfl

/-- `add x3, x1, x2`, a word taken for `lw x3, 96(x1)`, and the word 0, one for each case. -/
theorem merge_add_lw_zero :
    (rfWbck ⟨fun k => BitVec.ofFin (k.castLE (by decide)), fun _ => 15#32⟩
      (.twoState (Arith.op .add 3#5 1#5 2#5).encode 0#32)).wbckOWbckData = 3#32 ∧
    (rfWbck ⟨fun k => BitVec.ofFin (k.castLE (by decide)), fun _ => 15#32⟩
      (.twoState 0x0600A183#32 0#32)).wbckOWbckData = 0x01010101#32 ∧
    (rfWbck ⟨fun k => BitVec.ofFin (k.castLE (by decide)), fun _ => 15#32⟩
      (.twoState 0#32 0#32)).wbckOWbckData = 0#32 :=
  ⟨((mergeExact _ _ (by decide)).alu (by decide)).1.trans (by decide +kernel),
    ((mergeExact _ _ (by decide)).agu (by decide)).1.trans (by decide +kernel),
    (mergeExact _ _ (by decide)).idle (by decide) (by decide)⟩

end Core

/-! ## 3. The words on both buses -/

namespace Decode

theorem funct7_of_memOp {w : BitVec 32} {o : MemOp} (h : funct7Of w = o.opcode) :
    funct7Of w ≠ 0b0000000#7 ∧ funct7Of w ≠ 0b0100000#7 := by
  rw [h]
  cases o <;> simp only [MemOp.opcode] <;> decide

/-- **The words the merge mixes up** are the LUIs and the immediate forms other than the shifts
    whose immediate has a load or store constant where `funct7` would be. No register form and
    no shift is among them. -/
theorem both_hasOp_iff (w : BitVec 32) :
    HasOp (xf100ExuDecode w).decOAguInfo ∧ HasOp (xf100ExuDecode w).decOAluInfo ↔
      (∃ o : MemOp, funct7Of w = o.opcode ∧ funct3Of w = o.funct3) ∧
        (opcodeOf w = luiOpcode ∨
          (opcodeOf w = opImmOpcode ∧ funct3Of w ≠ 0b001#3 ∧ funct3Of w ≠ 0b101#3)) := by
  have hagu : HasOp (xf100ExuDecode w).decOAguInfo ↔
      ∃ o : MemOp, funct7Of w = o.opcode ∧ funct3Of w = o.funct3 :=
    (hasOp_aguInfo w).trans (exists_congr (aguInfo_bit w))
  have halu : HasOp (xf100ExuDecode w).decOAluInfo ↔ AluWord w := hasOp_aluInfo w
  rw [hagu, halu]
  apply and_congr_right
  intro hx
  obtain ⟨o, h7, -⟩ := hx
  obtain ⟨hz, hs⟩ := funct7_of_memOp h7
  unfold AluWord
  simp only [hz, hs, false_and, or_self, and_false, false_or, imp_false]

end Decode

end Xf100
