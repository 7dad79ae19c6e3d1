/-
  File:      Xf100/Laws/Frame.lean
  Subject:   What a step leaves alone.

  * `oneCell` -- a step changes at most one register or one RAM word, and never both;
  * `ram_frame_iff` -- which words leave the data RAM alone, in one step and over runs;
  * `reg_frame_iff` -- which of the words without a destination leave the registers alone.
-/
import Mathlib.Data.Set.Defs
import Xf100.StoreEffect

namespace Xf100

open Rv32i

namespace Core

/-! ## 1. One cell at most -/

/-- **What a step of `w` can touch.** -/
structure OneCell (s : Core) (w x : BitVec 32) : Prop where
  /-- No cell, or the register of the rd field, or the RAM word at the index driven. -/
  cell : step s (.twoState w x) = s ∨
    (∃ v, step s (.twoState w x) = ⟨Function.update s.rfR (rdOf w).toFin v, s.memR⟩) ∨
    ∃ (h : (aguRam s (.twoState w x)).aguORamAddr.toNat < dataRamDp) (v : BitVec 32),
      step s (.twoState w x) =
        ⟨s.rfR, Function.update s.memR ⟨(aguRam s (.twoState w x)).aguORamAddr.toNat, h⟩ v⟩
  exclusive : ¬ ((step s (.twoState w x)).rfR ≠ s.rfR ∧ (step s (.twoState w x)).memR ≠ s.memR)
  store : ∀ o : StoreOp, (xf100ExuDecode w).decOAguInfo.getLsbD (Decode.aguBit (.store o)) = true →
    (rfWbck s (.twoState w x)).wbckOWbckEn = false
  load : ∀ o : LoadOp, (xf100ExuDecode w).decOAguInfo.getLsbD (Decode.aguBit (.load o)) = true →
    (aguRam s (.twoState w x)).aguORamWen = false

theorem stOp_of_bit {w : BitVec 32} {o : StoreOp}
    (h : (xf100ExuDecode w).decOAguInfo.getLsbD (Decode.aguBit (.store o)) = true) :
    Decode.stOp w = true := by
  obtain ⟨h7, h3⟩ := (Decode.aguInfo_bit w (.store o)).mp h
  exact (Decode.stOp_iff w).mpr ⟨h7, o, h3⟩

theorem ldOp_of_bit {w : BitVec 32} {o : LoadOp}
    (h : (xf100ExuDecode w).decOAguInfo.getLsbD (Decode.aguBit (.load o)) = true) :
    Decode.ldOp w = true := by
  obtain ⟨h7, h3⟩ := (Decode.aguInfo_bit w (.load o)).mp h
  exact (Decode.ldOp_iff w).mpr ⟨h7, o, h3⟩

/-- A word taken for a store enables no register write. -/
theorem wbckEn_of_stOp {s : Core} {w x : BitVec 32} (h : Decode.stOp w = true) :
    (rfWbck s (.twoState w x)).wbckOWbckEn = false := by
  have he : (rfWbck s (.twoState w x)).wbckOWbckEn = (Decode.rdEn w || Decode.ldOp w) :=
    Exu.rfWbck_en _ _ _ _
  rw [he, rdEn_of_stOp h, Decode.ldOp_of_stOp w h]
  rfl

/-- Where the write goes in the three cases of `cell`. -/
theorem step_cell (s : Core) (w x : BitVec 32) :
    step s (.twoState w x) = s ∨
    (∃ v, step s (.twoState w x) = ⟨Function.update s.rfR (rdOf w).toFin v, s.memR⟩) ∨
    ∃ (h : (ramIdx s w).toNat < dataRamDp) (v : BitVec 32), step s (.twoState w x) =
      ⟨s.rfR, Function.update s.memR ⟨(ramIdx s w).toNat, h⟩ v⟩ := by
  rcases step_cases s w x with ⟨hs, -⟩ | ⟨-, hst⟩ | ⟨-, hst⟩ | hst
  · by_cases hidx : (ramIdx s w).toNat < dataRamDp
    · exact Or.inr (Or.inr ⟨hidx, _, step_store_hit hs hidx⟩)
    · exact Or.inl (step_store_past hs hidx)
  · exact Or.inr (Or.inl ⟨_, hst⟩)
  · exact Or.inr (Or.inl ⟨_, hst⟩)
  · exact Or.inl hst

/-- **A step changes at most one cell**, whatever the word. -/
theorem oneCell (s : Core) (w x : BitVec 32) : OneCell s w x where
  cell := step_cell s w x
  exclusive := by
    intro hx
    obtain ⟨hr, hm⟩ := hx
    rcases step_cell s w x with h | ⟨v, h⟩ | ⟨hidx, v, h⟩
    · exact hr (by rw [h])
    · exact hm (by rw [h])
    · exact hr (by rw [h])
  store _ h := wbckEn_of_stOp (stOp_of_bit h)
  load _ h := by
    show Agu.storeOp (Exu.aguIn s.rfR w) = false
    rw [Exu.aguIn_storeOp]
    exact Decode.stOp_of_ldOp w (ldOp_of_bit h)

/-! ## 2. The data RAM -/

/-- The words that leave the data RAM alone: those not taken for a store, and the LUI words taken
    for one whose bit 15 puts the address past the RAM. -/
def KeepsRam (w : BitVec 32) : Prop :=
  ¬ Decode.TakenStore w ∨ (opcodeOf w = luiOpcode ∧ w.getLsbD 15 = true)

instance (w : BitVec 32) : Decidable (KeepsRam w) := inferInstanceAs (Decidable (_ ∨ _))

theorem step_memR_of_keepsRam (s : Core) {c : Cycle} (h : KeepsRam c.exuIInstr) :
    (step s c).memR = s.memR := by
  cases hs : Decode.stOp c.exuIInstr with
  | false => exact step_memR_of_not_stOp hs
  | true =>
      have hlui := h.resolve_left (not_not_intro ((Decode.stOp_iff _).mp hs))
      -- LUI closes read port 1, also while the reset holds the registers at 0
      have haddr : (dataRamIn (aguRam s c)).ramAddr =
          (Decode.decImm c.exuIInstr).extractLsb 15 0 :=
        ramIdx_lui ⟨rfNow s c, s.memR⟩ hlui.1
      refine xf100RamWrite_past ?_
      rw [haddr, decImm_lt_iff hs]
      exact not_not_intro hlui

/-- Any other word changes it from some state. -/
theorem keepsRam_of_step {w : BitVec 32}
    (h : (step (reset fun _ => 0x100#32) (.twoState w 0#32)).memR = fun _ => 0x100#32) :
    KeepsRam w := by
  by_contra hw
  obtain ⟨hs, hin⟩ := not_or.mp hw
  exact store_changes ((Decode.stOp_iff w).mpr (not_not.mp hs)) hin h

/-- **Which words leave the data RAM alone.** Every word of a set does, in one cycle from every
    state and over every run of words of the set, if and only if every one is of
    `KeepsRam`; for a single word the set has one element. -/
theorem ram_frame_iff (W : Set (BitVec 32)) :
    ((∀ w ∈ W, ∀ (s : Core) (c : Cycle), c.exuIInstr = w → (step s c).memR = s.memR) ∧
      ∀ (s : Core) (l : List Cycle), (∀ c ∈ l, c.exuIInstr ∈ W) →
        (Sync.run step s l).memR = s.memR) ↔
    ∀ w ∈ W, KeepsRam w := by
  constructor
  · intro hx w hw
    obtain ⟨h, -⟩ := hx
    exact keepsRam_of_step (h w hw _ _ rfl)
  · intro h
    have hstep : ∀ (t : Core) (c : Cycle), c.exuIInstr ∈ W → (step t c).memR = t.memR :=
      fun t c hc => step_memR_of_keepsRam t (h _ hc)
    refine ⟨fun w hw s c hc => hstep s c (hc.symm ▸ hw), fun s l hl => ?_⟩
    exact Sync.run_frame (f := Core.memR) hstep s hl

/-- `addi x0, x0, 1120` stores a byte. -/
theorem addi_writes_ram : ¬ ((∀ w : BitVec 32, (¬ ∃ o : StoreOp, (MemOp.store o).Encodes w) →
      ∀ (s : Core) (c : Cycle), c.exuIInstr = w → (step s c).memR = s.memR) ∧
    ∀ l : List Cycle, (∀ c ∈ l, ¬ ∃ o : StoreOp, (MemOp.store o).Encodes c.exuIInstr) →
      ∀ s : Core, (Sync.run step s l).memR = s.memR) := by
  intro hx
  obtain ⟨h, -⟩ := hx
  have hne : ¬ ∃ o : StoreOp,
      (MemOp.store o).Encodes (Arith.opImm .addi 0#5 0#5 1120#12).encode := by
    intro hx
    obtain ⟨o, ho, -⟩ := hx
    cases o <;> exact absurd ho (by decide)
  have hm := congrFun (h _ hne (reset fun _ => 0x100#32) (.twoState _ 0#32) rfl) ⟨1120, by decide⟩
  revert hm
  decide +kernel

/-! ## 3. The registers -/

/-- The words that leave the registers alone, of those without a destination. -/
def KeepsRegs (w : BitVec 32) : Prop :=
  ¬ Decode.TakenLoad w ∧ (rdOf w = 0#5 ∨ Decode.TakenStore w)

instance (w : BitVec 32) : Decidable (KeepsRegs w) := inferInstanceAs (Decidable (_ ∧ _))

theorem step_rfR_of_keepsRegs {w : BitVec 32} (h : KeepsRegs w) (s : Core) (x : BitVec 32) :
    (step s (.twoState w x)).rfR = s.rfR := by
  obtain ⟨hl, hd⟩ := h
  rw [← Decode.ldOp_eq_false] at hl
  cases hs : Decode.stOp w with
  | true => rw [step_store hs]
  | false =>
      rw [step_idle hl hs]
      exact hd.resolve_right ((Decode.stOp_eq_false w).mp hs)

/-- Without a destination, bit 1 of what would be written is 0. -/
theorem getLsbD_wbckData {w : BitVec 32} (hw : ¬ HasDest w) (s : Core) (x : BitVec 32) :
    (Exu.aluData s.rfR w ||| Exu.aguData s.rfR w (rdat s w x)).getLsbD 1 = false := by
  have halu : Exu.aluData s.rfR w = 0#32 := Alu.wbckData_none (Decode.onlyOp_of_not_hasDest hw)
  rw [halu, BitVec.zero_or]
  cases hl : Decode.ldOp w with
  | false =>
      rw [Exu.aguData_none _ _ hl]
      exact BitVec.getLsbD_zero
  | true =>
      obtain ⟨-, o, ho⟩ := (Decode.ldOp_iff w).mp hl
      rw [aguData_load hl ho]
      exact (Agu.getLsbD_laneData _ o).2

/-- **Which words without a destination leave the registers alone.** -/
theorem reg_frame_iff (w : BitVec 32) (hw : ¬ HasDest w) :
    (∀ s x, (step s (.twoState w x)).rfR = s.rfR) ↔ KeepsRegs w := by
  refine ⟨fun h => ?_, fun h s x => step_rfR_of_keepsRegs h s x⟩
  -- registers that all hold 2 show a write of a word with bit 1 at 0
  have hr := h ⟨fun _ => 2#32, fun _ => 0#32⟩ 0#32
  have hen : (Decode.rdEn w || Decode.ldOp w) = false := by
    rw [Bool.eq_false_iff]
    intro hen
    rw [step_rfR, if_pos hen] at hr
    have hv := congrFun hr (rdOf w).toFin
    rw [Function.update_self] at hv
    have hb := getLsbD_wbckData hw ⟨fun _ => 2#32, fun _ => 0#32⟩ 0#32
    rw [hv] at hb
    change (2#32).getLsbD 1 = false at hb
    exact absurd hb (by decide)
  obtain ⟨hrd, hl⟩ := Bool.or_eq_false_iff.mp hen
  refine ⟨(Decode.ldOp_eq_false w).mp hl, ?_⟩
  by_contra hn
  obtain ⟨hd, hs⟩ := not_or.mp hn
  rw [rdEn_iff.mpr ⟨hd, (Decode.stOp_eq_false w).mpr hs⟩] at hrd
  cases hrd

/-- The opcodes of the instructions with a destination. -/
theorem opcode_of_hasDest {w : BitVec 32} (h : HasDest w) :
    opcodeOf w ∈ [luiOpcode, opOpcode, opImmOpcode, loadOpcode] := by
  rcases h with ⟨i, rfl⟩ | ⟨o, ho, -⟩
  · cases i <;> simp [Arith.encode]
  · rw [ho]
    simp [MemOp.opcode]

/-- FENCE with rd = x0 leaves the registers alone. -/
theorem fence_keeps_regs :
    (step (reset fun _ => 1#32) (.twoState 0x0000000F#32 1#32)).rfR = (reset fun _ => 1#32).rfR :=
  (reg_frame_iff 0x0000000F#32 fun h => absurd (opcode_of_hasDest h) (by decide)).mpr
    (by decide) _ _

/-- `beq x0, x0, 8` clears x8: the field that would be rd is part of its offset. -/
theorem beq_clears_x8 : ¬ ∀ w : BitVec 32, ¬ HasDest w →
    ∀ s x, (step s (.twoState w x)).rfR = s.rfR := by
  intro h
  have hne : ¬ HasDest 0x00000463#32 := fun h => absurd (opcode_of_hasDest h) (by decide)
  have hr := congrFun (h _ hne ⟨fun k => if k = 8 then 1#32 else 0#32, fun _ => 0#32⟩ 0#32) 8
  revert hr
  decide +kernel

end Core

end Xf100
