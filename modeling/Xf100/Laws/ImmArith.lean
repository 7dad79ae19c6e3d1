/-
  File:      Xf100/Laws/ImmArith.lean
  Subject:   Immediate-form arithmetic, end to end.

  The upper seven bits of an immediate are the word's `funct7`, so an immediate of 0x060 to
  0x07F wakes the load side of the AGU and one of 0x460 to 0x47F its store side, if funct3
  agrees. `immArith_iff` gives the instructions that are right in every state: those that
  wake neither, and the few where what they wake cannot be seen.
-/
import Xf100.Laws.Arith
import Xf100.Laws.ZeroRegister
import Xf100.StoreEffect

namespace Xf100

open Rv32i

namespace Decode

/-! ## 1. The fields and the immediate of an encoding -/

section Encoding

variable (o : ImmOp) (rd rs1 : BitVec 5) (imm : BitVec 12) (u : BitVec 20)

theorem opcodeOf_opImm : opcodeOf (Arith.opImm o rd rs1 imm).encode = opImmOpcode :=
  opcodeOf_word _ _ _ _ _ _

theorem funct3Of_opImm : funct3Of (Arith.opImm o rd rs1 imm).encode = o.aluOp.funct3 :=
  funct3Of_word _ _ _ _ _ _

theorem rs1Of_opImm : rs1Of (Arith.opImm o rd rs1 imm).encode = rs1 :=
  rs1Of_word _ _ _ _ _ _

theorem iImm_opImm : iImm (Arith.opImm o rd rs1 imm).encode = imm.signExtend 32 := by
  unfold iImm
  rw [Arith.encode, iSlice_word, imm12_join]

theorem opcodeOf_lui : opcodeOf (Arith.lui rd u).encode = luiOpcode :=
  opcodeOf_word _ _ _ _ _ _

theorem uSlice_lui : (Arith.lui rd u).encode.extractLsb 31 12 = u := by
  rw [Arith.encode, uSlice_word, imm20_join]

theorem uImm_lui : uImm (Arith.lui rd u).encode = u ++ 0#12 := by
  unfold uImm
  rw [uSlice_lui]

/-- Bit 15 of a LUI word is bit 3 of its immediate. -/
theorem bit15_lui : (Arith.lui rd u).encode.getLsbD 15 = u.getLsbD 3 := by
  have h := congrArg (fun v => BitVec.getLsbD v 3) (uSlice_lui rd u)
  simp only [BitVec.getLsbD_extractLsb] at h
  exact h

theorem contiImm12bit_opImm : contiImm12bit (Arith.opImm o rd rs1 imm).encode = true :=
  (contiImm12bit_iff _).mpr
    (Or.inl ⟨opcodeOf_opImm o rd rs1 imm, o, funct3Of_opImm o rd rs1 imm⟩)

theorem immEn_opImm : immEn (Arith.opImm o rd rs1 imm).encode = true :=
  (immEn_iff _).mpr (Or.inr (Or.inl (contiImm12bit_opImm o rd rs1 imm)))

/-- The I format of an immediate form, with the S format over it when the store side wakes. -/
theorem decImm_opImm : decImm (Arith.opImm o rd rs1 imm).encode =
    imm.signExtend 32 ||| (if stOp (Arith.opImm o rd rs1 imm).encode then
      sImm (Arith.opImm o rd rs1 imm).encode else 0#32) := by
  have hopc := opcodeOf_opImm o rd rs1 imm
  have h3 := funct3Of_opImm o rd rs1 imm
  have h1 : ¬ opcodeOf (Arith.opImm o rd rs1 imm).encode = luiOpcode := by
    rw [hopc]
    decide
  have h2 := contiImm12bit_opImm o rd rs1 imm
  have h5 : ¬ aluImm5bit (Arith.opImm o rd rs1 imm).encode = true := by
    intro h
    obtain ⟨-, i, hi, -⟩ := (aluImm5bit_iff _).mp h
    exact immOp_ne_shiftOp o i (h3.symm.trans hi)
  rw [decImm_eq, if_neg h1, if_pos h2, if_neg h5, iImm_opImm, BitVec.zero_or, BitVec.or_zero]

/-- The U format of a LUI word, with the I or S format over it when the AGU wakes. -/
theorem decImm_lui : decImm (Arith.lui rd u).encode =
    (u ++ 0#12) ||| (if ldOp (Arith.lui rd u).encode then iImm (Arith.lui rd u).encode else 0#32)
      ||| (if stOp (Arith.lui rd u).encode then sImm (Arith.lui rd u).encode else 0#32) := by
  have hopc := opcodeOf_lui rd u
  have hne : opcodeOf (Arith.lui rd u).encode ≠ opImmOpcode := by
    rw [hopc]
    decide
  rw [decImm_eq, if_pos hopc, contiImm12bit_eq hne, if_neg (aluImm5bit_ne hne), uImm_lui,
    BitVec.or_zero]

/-- Bit 25 is set in every word the AGU answers to. -/
theorem bit25_of_taken {w : BitVec 32} (h : TakenLoad w ∨ TakenStore w) :
    w.getLsbD 25 = true := by
  have h25 : (funct7Of w).getLsbD 0 = w.getLsbD 25 := by simp [funct7Of]
  rw [← h25]
  rcases h with h | h
  · rw [h.1]
    decide
  · rw [h.1]
    decide

/-- The I format of such a word has bit 5. -/
theorem iImm_bit5_of_taken {w : BitVec 32} (h : TakenLoad w ∨ TakenStore w) :
    (iImm w).getLsbD 5 = true := by
  rw [getLsbD_iImm (by decide), if_pos (by decide)]
  exact bit25_of_taken h

end Encoding

end Decode

namespace Core

open Decode

/-! ## 2. What reaches the register -/

theorem aluData_opImm {o : ImmOp} (ho : o ∈ [ImmOp.addi, .xori, .ori, .andi])
    (rd rs1 : BitVec 5) (imm : BitVec 12) {s : Core} (h0 : s.rfR 0 = 0#32)
    (hs : stOp (Arith.opImm o rd rs1 imm).encode = false) :
    Exu.aluData s.rfR (Arith.opImm o rd rs1 imm).encode =
      (Arith.opImm o rd rs1 imm).value (s.regs h0) := by
  have hop : o.aluOp ∈ [AluOp.add, .sub, .xor, .or, .and] := by
    simp only [List.mem_cons, List.not_mem_nil, or_false] at ho
    rcases ho with rfl | rfl | rfl | rfl <;> decide
  have hopc := opcodeOf_opImm o rd rs1 imm
  have himm := immEn_opImm o rd rs1 imm
  have hnl : opcodeOf (Arith.opImm o rd rs1 imm).encode ≠ luiOpcode := by
    rw [hopc]
    decide
  rw [Exu.aluData_eq (Or.inr (isImm_encode o rd rs1 imm)) hop, himm, if_pos rfl,
    rfRs1_regs h0 hnl, rs1Of_opImm, decImm_opImm, hs, if_neg (by decide), BitVec.or_zero]
  rfl

theorem aluData_lui (rf : Regfile) (rd : BitVec 5) (u : BitVec 20) :
    Exu.aluData rf (Arith.lui rd u).encode = decImm (Arith.lui rd u).encode :=
  Alu.wbckData_lui (onlyOp_lui (opcodeOf_lui rd u))

/-- One lane ORed into a value is unseen when its bit is there already. -/
theorem or_lane_eq (v : BitVec 32) (b : Bool) (h : v.getLsbD 0 = true) :
    v ||| (0#24 ++ Agu.lane b) = v := by
  apply BitVec.eq_of_getLsbD_eq
  intro k hk
  rw [BitVec.getLsbD_or]
  show (v.getLsbD k || (0#24 ++ Agu.lane b : BitVec (24 + 8)).getLsbD k) = _
  rw [BitVec.getLsbD_append, Agu.getLsbD_lane]
  by_cases hk0 : k = 0
  · subst hk0
    rw [h, Bool.true_or]
  · simp [hk0]

/-! ## 3. The instructions that are right -/

/-- **The safe instructions**: the upper immediate bits and funct3 wake neither side of the AGU, or
    what they wake cannot be seen -- a lane ORed into an odd immediate taken from x0, or a
    store past the data RAM by a LUI to x0. -/
def ImmSafe : Rv32i.Arith → Prop
  | .opImm o rd rs1 imm =>
      (¬ TakenLoad (Arith.opImm o rd rs1 imm).encode ∧
        ¬ TakenStore (Arith.opImm o rd rs1 imm).encode) ∨
      (TakenLoad (Arith.opImm o rd rs1 imm).encode ∧ rd ≠ 0#5 ∧ rs1 = 0#5 ∧ imm.getLsbD 0 = true)
  | .lui rd u =>
      (¬ TakenLoad (Arith.lui rd u).encode ∧ ¬ TakenStore (Arith.lui rd u).encode) ∨
      (TakenStore (Arith.lui rd u).encode ∧ rd = 0#5 ∧ u.getLsbD 3 = true)
  | _ => False

/-- ADDI, XORI, ORI, ANDI and LUI. -/
def IsImmArith : Rv32i.Arith → Prop
  | .opImm o _ _ _ => o ∈ [ImmOp.addi, .xori, .ori, .andi]
  | .lui _ _ => True
  | _ => False

/-- A load to x0 is seen in some state, whatever instruction it was meant to be. -/
theorem not_follows_load_x0 {i : Rv32i.Arith} (hl : TakenLoad i.encode) (hd : i.rd = 0#5) :
    ¬ ∀ s h0 x, Follows s h0 i x := by
  intro h
  have hrun := h (reset fun _ => BitVec.allOnes 32) rfl (BitVec.allOnes 32)
  have hk := hrun.regs 0#5
  rw [(i.exec _).x_zero] at hk
  exact entry_step_load hl (by rw [Arith.rdOf_encode, hd]) hk

/-- A store leaves the destination as it was: from reset, at 0. -/
theorem value_of_follows_store {i : Rv32i.Arith} (hs : TakenStore i.encode) (hd : i.rd ≠ 0#5)
    (h : ∀ s h0 x, Follows s h0 i x) :
    i.value ((reset fun _ => 0#32).regs rfl) = 0#32 := by
  have hk := (h (reset fun _ => 0#32) rfl 0#32).regs i.rd
  rw [step_store ((stOp_iff _).mpr hs), Arith.exec, Regs.set_self _ hd] at hk
  exact hk.symm

/-! ## 4. ADDI, XORI, ORI, ANDI -/

/-- Only ADDI and XORI share their funct3 with a load, with LB and LBU. -/
theorem op_of_takenLoad {o : ImmOp} (ho : o ∈ [ImmOp.addi, .xori, .ori, .andi])
    {rd rs1 : BitVec 5} {imm : BitVec 12} (hl : TakenLoad (Arith.opImm o rd rs1 imm).encode) :
    (o = .addi ∧ funct3Of (Arith.opImm o rd rs1 imm).encode = LoadOp.lb.funct3) ∨
      (o = .xori ∧ funct3Of (Arith.opImm o rd rs1 imm).encode = LoadOp.lbu.funct3) := by
  obtain ⟨-, l, h3⟩ := hl
  rw [funct3Of_opImm] at h3 ⊢
  simp only [List.mem_cons, List.not_mem_nil, or_false] at ho
  rcases ho with rfl | rfl | rfl | rfl
  · exact Or.inl ⟨rfl, rfl⟩
  · exact Or.inr ⟨rfl, rfl⟩
  · cases l <;> exact absurd h3 (by decide)
  · cases l <;> exact absurd h3 (by decide)

/-- The bit 0 of what ADDI and XORI compute: no carry reaches it. -/
theorem getLsbD_value_zero {o : ImmOp} (ho : o = .addi ∨ o = .xori) (rd rs1 : BitVec 5)
    (imm : BitVec 12) (r : Regs) :
    ((Arith.opImm o rd rs1 imm).value r).getLsbD 0 =
      ((r.x rs1).getLsbD 0 ^^ imm.getLsbD 0) := by
  have hx : (imm.signExtend 32).getLsbD 0 = imm.getLsbD 0 := by
    rw [BitVec.getLsbD_signExtend]
    simp
  rcases ho with rfl | rfl
  · show ((r.x rs1) + imm.signExtend 32).getLsbD 0 = _
    rw [BitVec.getLsbD_add (by decide), hx]
    simp
  · show ((r.x rs1) ^^^ imm.signExtend 32).getLsbD 0 = _
    rw [BitVec.getLsbD_xor, hx]

/-- What an immediate form taken for a load writes: its value with one lane over it. -/
theorem step_opImm_load {o : ImmOp} (ho : o ∈ [ImmOp.addi, .xori, .ori, .andi])
    {rd rs1 : BitVec 5} {imm : BitVec 12} (hl : TakenLoad (Arith.opImm o rd rs1 imm).encode)
    {s : Core} (h0 : s.rfR 0 = 0#32) (x : BitVec 32) :
    step s (.twoState (Arith.opImm o rd rs1 imm).encode x) =
      ⟨Function.update s.rfR rd.toFin ((Arith.opImm o rd rs1 imm).value (s.regs h0) |||
        (0#24 ++ Agu.lane ((Ram.memAt s.memR x
          (ramIdx s (Arith.opImm o rd rs1 imm).encode)).getLsbD 0))), s.memR⟩ := by
  have hl' := (ldOp_iff _).mpr hl
  have hs := stOp_of_ldOp _ hl'
  rw [step_load hl', aluData_opImm ho rd rs1 imm h0 hs, Arith.rdOf_encode]
  rcases op_of_takenLoad ho hl with ⟨-, h3⟩ | ⟨-, h3⟩
  · rw [aguData_load hl' h3]
    rfl
  · rw [aguData_load hl' h3]
    rfl

/-- A lane of 1 is not seen only on an odd value. -/
theorem odd_value_of_follows {o : ImmOp} (ho : o ∈ [ImmOp.addi, .xori, .ori, .andi])
    {rd rs1 : BitVec 5} {imm : BitVec 12} (hl : TakenLoad (Arith.opImm o rd rs1 imm).encode)
    (hd : rd ≠ 0#5) {s : Core} {h0 : s.rfR 0 = 0#32} {x : BitVec 32}
    (hm : Ram.memAt s.memR x (ramIdx s (Arith.opImm o rd rs1 imm).encode) = BitVec.allOnes 32)
    (h : Follows s h0 (.opImm o rd rs1 imm) x) :
    ((Arith.opImm o rd rs1 imm).value (s.regs h0)).getLsbD 0 = true := by
  have hk : (step s (.twoState (Arith.opImm o rd rs1 imm).encode x)).rfR rd.toFin =
      (Arith.opImm o rd rs1 imm).value (s.regs h0) :=
    (h.regs rd).trans (Regs.set_self _ hd _)
  rw [step_opImm_load ho hl h0, hm] at hk
  simp only [Function.update_self] at hk
  rw [← hk, BitVec.getLsbD_or]
  show (_ || (0#24 ++ Agu.lane true : BitVec (24 + 8)).getLsbD 0) = true
  rw [BitVec.getLsbD_append, if_pos (by decide), Agu.getLsbD_lane]
  exact Bool.or_true _

/-- Every register but x0 holds `v`, every RAM word is all ones. -/
def flat (v : BitVec 32) : Core where
  rfR := Function.update (fun _ => v) (0#5).toFin 0#32
  memR _ := BitVec.allOnes 32

/-- Only from x0, and then with an odd immediate, is the value odd in every state. -/
theorem odd_of_follows_load {o : ImmOp} (ho : o ∈ [ImmOp.addi, .xori, .ori, .andi])
    {rd rs1 : BitVec 5} {imm : BitVec 12} (hl : TakenLoad (Arith.opImm o rd rs1 imm).encode)
    (hd : rd ≠ 0#5) (h : ∀ s h0 x, Follows s h0 (.opImm o rd rs1 imm) x) :
    rs1 = 0#5 ∧ imm.getLsbD 0 = true := by
  have hop := (op_of_takenLoad ho hl).imp And.left And.left
  -- registers with the bit 0 of the immediate: sum and exclusive or with it are even
  have hodd := odd_value_of_follows ho hl hd (Ram.memAt_const _ _)
    (h (flat (imm.signExtend 32)) rfl (BitVec.allOnes 32))
  rw [getLsbD_value_zero hop] at hodd
  by_cases h1 : rs1 = 0#5
  · refine ⟨h1, ?_⟩
    rw [h1, Regs.x_zero] at hodd
    simpa using hodd
  · have hx : ((flat (imm.signExtend 32)).regs rfl).x rs1 = imm.signExtend 32 :=
      (update_toFin (fun _ => imm.signExtend 32) rs1 0#5 0#32).trans (if_neg h1)
    rw [hx, BitVec.getLsbD_signExtend] at hodd
    simp at hodd

/-- Only ADDI shares its funct3 with a store, and the immediate it then has is not 0. -/
theorem value_ne_of_takenStore {o : ImmOp} (ho : o ∈ [ImmOp.addi, .xori, .ori, .andi])
    {rd rs1 : BitVec 5} {imm : BitVec 12} (hs : TakenStore (Arith.opImm o rd rs1 imm).encode)
    (m : RamMem dataRamDp) : (Arith.opImm o rd rs1 imm).value ((reset m).regs rfl) ≠ 0#32 := by
  obtain ⟨-, t, h3⟩ := id hs
  rw [funct3Of_opImm] at h3
  have hadd : o = .addi := by
    simp only [List.mem_cons, List.not_mem_nil, or_false] at ho
    rcases ho with rfl | rfl | rfl | rfl
    · rfl
    all_goals cases t <;> exact absurd h3 (by decide)
  subst hadd
  intro hv
  change 0#32 + imm.signExtend 32 = 0#32 at hv
  rw [BitVec.zero_add, ← iImm_opImm .addi rd rs1 imm] at hv
  have h5 := iImm_bit5_of_taken (Or.inr hs)
  rw [hv] at h5
  exact absurd h5 (by decide)

theorem opImm_iff {o : ImmOp} (ho : o ∈ [ImmOp.addi, .xori, .ori, .andi]) (rd rs1 : BitVec 5)
    (imm : BitVec 12) :
    (∀ s h0 x, Follows s h0 (.opImm o rd rs1 imm) x) ↔ ImmSafe (.opImm o rd rs1 imm) := by
  -- a word taken for a load, for a store, for neither
  constructor
  · intro h
    by_cases hl : TakenLoad (Arith.opImm o rd rs1 imm).encode
    · have hd : rd ≠ 0#5 := fun hd => not_follows_load_x0 hl hd h
      exact Or.inr ⟨hl, hd, odd_of_follows_load ho hl hd h⟩
    · refine Or.inl ⟨hl, fun hs => ?_⟩
      by_cases hd : rd = 0#5
      · have hm := (h (reset fun _ => 0x100#32) rfl 0#32).memR
        refine store_changes ((stOp_iff _).mpr hs) (fun hlui => ?_) hm
        rw [opcodeOf_opImm] at hlui
        exact absurd hlui.1 (by decide)
      · exact value_ne_of_takenStore ho hs _ (value_of_follows_store hs hd h)
  · intro hsafe s h0 x
    rcases hsafe with ⟨hl, hs⟩ | ⟨hl, hd, h1, hbit⟩
    · rw [← ldOp_eq_false] at hl
      rw [← stOp_eq_false] at hs
      exact (follows_alu_iff hl hs).mpr (Or.inr (aluData_opImm ho rd rs1 imm h0 hs))
    · have hodd : ((Arith.opImm o rd rs1 imm).value (s.regs h0)).getLsbD 0 = true := by
        have hop := (op_of_takenLoad ho hl).imp And.left And.left
        rw [getLsbD_value_zero hop, h1, (s.regs h0).x_zero, hbit]
        rfl
      refine follows_of_update hd ?_
      rw [step_opImm_load ho hl h0, or_lane_eq _ _ hodd]
      rfl

/-! ## 5. LUI -/

/-- A LUI taken for a load ORs its I format into the value: bit 5 is wrong in every state. -/
theorem lui_load_wrong {rd : BitVec 5} {u : BitVec 20} (hl : TakenLoad (Arith.lui rd u).encode)
    (hd : rd ≠ 0#5) (s : Core) (h0 : s.rfR 0 = 0#32) (x : BitVec 32) :
    ¬ Follows s h0 (.lui rd u) x := by
  intro h
  have hl' := (ldOp_iff _).mpr hl
  have hk : (step s (.twoState (Arith.lui rd u).encode x)).rfR rd.toFin = u ++ 0#12 :=
    (h.regs rd).trans (Regs.set_self _ hd _)
  rw [step_load hl', Arith.rdOf_encode, aluData_lui, decImm_lui, hl', if_pos rfl] at hk
  have hrd : (Arith.lui rd u).rd = rd := rfl
  simp only [hrd, Function.update_self] at hk
  have hb := congrArg (fun v => BitVec.getLsbD v 5) hk
  simp only [BitVec.getLsbD_or, iImm_bit5_of_taken (Or.inl hl), Bool.or_true, Bool.true_or] at hb
  rw [← uImm_lui rd u, getLsbD_uImm] at hb
  simp at hb

theorem lui_iff (rd : BitVec 5) (u : BitVec 20) :
    (∀ s h0 x, Follows s h0 (.lui rd u) x) ↔ ImmSafe (.lui rd u) := by
  have hbit := bit15_lui rd u
  constructor
  · intro h
    have hl : ¬ TakenLoad (Arith.lui rd u).encode := by
      intro hl
      by_cases hd : rd = 0#5
      · exact not_follows_load_x0 hl hd h
      · exact lui_load_wrong hl hd (reset fun _ => 0#32) rfl 0#32 (h _ rfl 0#32)
    by_cases hs : TakenStore (Arith.lui rd u).encode
    · have hd : rd = 0#5 := by
        by_contra hd
        have hv : u ++ 0#12 = 0#32 := value_of_follows_store hs hd h
        have h25 := bit25_of_taken (Or.inr hs)
        rw [← uImm_lui rd u] at hv
        have hb := getLsbD_uImm (w := (Arith.lui rd u).encode) 25
        rw [hv, h25] at hb
        exact absurd hb (by decide)
      refine Or.inr ⟨hs, hd, ?_⟩
      by_contra hu
      have hm := (h (reset fun _ => 0x100#32) rfl 0#32).memR
      exact store_changes ((stOp_iff _).mpr hs) (fun hlui => hu (hbit ▸ hlui.2)) hm
    · exact Or.inl ⟨hl, hs⟩
  · intro hsafe s h0 x
    rcases hsafe with ⟨hl, hs⟩ | ⟨hs, hd, hu⟩
    · rw [← ldOp_eq_false] at hl
      rw [← stOp_eq_false] at hs
      refine (follows_alu_iff hl hs).mpr (Or.inr ?_)
      rw [aluData_lui, decImm_lui, hl, hs, if_neg (by decide), BitVec.or_zero, if_neg (by decide),
        BitVec.or_zero]
      rfl
    · -- the address of the write lies past the data RAM in every state
      have hs' := (stOp_iff _).mpr hs
      have hp : ¬ (ramIdx s (Arith.lui rd u).encode).toNat < dataRamDp := by
        rw [ramIdx_lui s (opcodeOf_lui rd u), decImm_lt_iff hs', hbit]
        exact fun hn => hn ⟨opcodeOf_lui rd u, hu⟩
      have hst := step_store_past (x := x) hs' hp
      refine ⟨fun k => ?_, by rw [hst]⟩
      subst hd
      rw [hst, Arith.exec, show (Arith.lui 0#5 u).rd = 0#5 from rfl, Regs.set_zero]
      rfl

/-! ## 6. The five instructions -/

/-- **ADDI, XORI, ORI, ANDI and LUI, end to end**: an instruction is right in every state if and
    only if it is safe. -/
theorem immArith_iff (i : Rv32i.Arith) (hi : IsImmArith i) :
    (∀ s h0 x, Follows s h0 i x) ↔ ImmSafe i := by
  cases i with
  | lui rd u => exact lui_iff rd u
  | opImm o rd rs1 imm => exact opImm_iff hi rd rs1 imm
  | op o rd rs1 rs2 => exact hi.elim
  | shiftImm o rd rs1 shamt => exact hi.elim

/-- `lui x1, 1` is safe. -/
theorem lui_one : Follows (reset fun _ => 1#32) rfl (.lui 1#5 1#20) 0#32 :=
  (immArith_iff (.lui 1#5 1#20) trivial).mpr (Or.inl (by decide)) _ _ _

/-- `addi x1, x0, 96` on a data RAM of ones leaves 97 in x1. -/
theorem addi_wakes_load : ¬ ∀ i, IsImmArith i → ∀ s h0 x, Follows s h0 i x := by
  intro h
  have hi : IsImmArith (.opImm .addi 1#5 0#5 96#12) := List.mem_cons_self
  have h1 := (h _ hi (reset fun _ => 1#32) rfl 0#32).regs 1#5
  revert h1
  decide +kernel

end Core

end Xf100
