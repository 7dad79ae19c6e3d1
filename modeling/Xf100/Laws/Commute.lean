/-
  File:      Xf100/Laws/Commute.lean
  Subject:   Independent instructions commute.

  The cells of the core are its registers and the words of its data RAM. `step_footprint`
  gives the cells a word can read and write from a state, whatever the word; the law is
  then the general one for footprints.
-/
import Xf100.StoreEffect
import Xf100.Sync.Footprint

namespace Xf100

open Rv32i

namespace Core

/-! ## 1. Cells -/

/-- A storage cell of the core. -/
inductive Cell where
  | reg (k : Fin 32)
  | ram (k : Fin dataRamDp)

/-- What a cell holds. -/
def get (s : Core) : Cell → BitVec 32
  | .reg k => s.rfR k
  | .ram k => s.memR k

theorem get_ext (s t : Core) (h : get s = get t) : s = t := by
  cases s
  cases t
  congr 1
  · funext k
    exact congrFun h (.reg k)
  · funext k
    exact congrFun h (.ram k)

/-! ## 2. The footprint of a word -/

/-- The cells a word can read in `s`: its two source registers, and as an AGU operation the RAM
    word at the index it drives. -/
def Reads (s : Core) (w : BitVec 32) : Cell → Prop
  | .reg k => k = (rs1Of w).toFin ∨ k = (rs2Of w).toFin
  | .ram k => Decode.aguOp w = true ∧ k.val = (ramIdx s w).toNat

/-- The cells a word writes in `s`. -/
def Writes (s : Core) (w : BitVec 32) : Cell → Prop
  | .reg k => (Decode.rdEn w || Decode.ldOp w) = true ∧ k = (rdOf w).toFin
  | .ram k => Decode.stOp w = true ∧ k.val = (ramIdx s w).toNat

section Footprint

variable {s t : Core} {w x : BitVec 32}

/-- The register file is read through the two source fields and nowhere else. -/
theorem rfRs_congr (h : Sync.Agree get (Reads s w) t s) :
    Exu.rfRs1 t.rfR w = Exu.rfRs1 s.rfR w ∧ Exu.rfRs2 t.rfR w = Exu.rfRs2 s.rfR w := by
  have h1 : t.rfR (rs1Of w).toFin = s.rfR (rs1Of w).toFin := h (.reg _) (Or.inl rfl)
  have h2 : t.rfR (rs2Of w).toFin = s.rfR (rs2Of w).toFin := h (.reg _) (Or.inr rfl)
  rw [rfRs1_eq, rfRs1_eq, rfRs2_eq, rfRs2_eq, h1, h2]
  exact ⟨rfl, rfl⟩

theorem aluData_congr (h : Sync.Agree get (Reads s w) t s) :
    Exu.aluData t.rfR w = Exu.aluData s.rfR w := by
  obtain ⟨h1, h2⟩ := rfRs_congr h
  simp only [Exu.aluData, Exu.alu, Exu.aluIn, h1, h2]

theorem aguIn_congr (h : Sync.Agree get (Reads s w) t s) :
    Exu.aguIn t.rfR w = Exu.aguIn s.rfR w := by
  obtain ⟨h1, h2⟩ := rfRs_congr h
  simp only [Exu.aguIn, h1, h2]

theorem ramIn_congr (h : Sync.Agree get (Reads s w) t s) : ramIn t w = ramIn s w := by
  simp only [ramIn, Exu.aguRam, aguIn_congr h]

theorem ramIdx_congr (h : Sync.Agree get (Reads s w) t s) : ramIdx t w = ramIdx s w :=
  congrArg RamIn.ramAddr (ramIn_congr h)

/-- What an AGU operation finds at its index. -/
theorem memAt_congr (h : Sync.Agree get (Reads s w) t s) (ha : Decode.aguOp w = true) :
    Ram.memAt t.memR x (ramIdx t w) = Ram.memAt s.memR x (ramIdx s w) := by
  rw [ramIdx_congr h]
  by_cases hidx : (ramIdx s w).toNat < dataRamDp
  · rw [Ram.memAt_of_lt _ _ hidx, Ram.memAt_of_lt _ _ hidx]
    exact h (.ram ⟨_, hidx⟩) ⟨ha, rfl⟩
  · rw [Ram.memAt_of_ge _ _ hidx, Ram.memAt_of_ge _ _ hidx]

theorem aguOp_of_ldOp (h : Decode.ldOp w = true) : Decode.aguOp w = true := by
  unfold Decode.aguOp
  rw [h, Bool.true_or]

theorem aguOp_of_stOp (h : Decode.stOp w = true) : Decode.aguOp w = true := by
  unfold Decode.aguOp
  rw [h, Bool.or_true]

theorem aguData_congr (h : Sync.Agree get (Reads s w) t s) :
    Exu.aguData t.rfR w (rdat t w x) = Exu.aguData s.rfR w (rdat s w x) := by
  cases hl : Decode.ldOp w with
  | false => rw [Exu.aguData_none _ _ hl, Exu.aguData_none _ _ hl]
  | true =>
      obtain ⟨-, o, ho⟩ := (Decode.ldOp_iff w).mp hl
      rw [aguData_load hl ho, aguData_load hl ho, memAt_congr h (aguOp_of_ldOp hl)]

/-- **The footprint of a word**, valid or not. -/
theorem step_footprint (s : Core) (w x : BitVec 32) :
    Sync.Footprint get (fun t => step t (.twoState w x)) s (Reads s w) (Writes s w) where
  frame t h := by
    rintro (k | k) hk
    · show (step t (.twoState w x)).rfR k = t.rfR k
      rw [step_rfR]
      split
      · next hen => exact Function.update_of_ne (fun e => hk ⟨hen, e⟩) _ _
      · rfl
    · show (step t (.twoState w x)).memR k = t.memR k
      cases hs : Decode.stOp w with
      | false => exact congrFun (step_memR_of_not_stOp (c := .twoState w x) hs) k
      | true =>
          have hne : k.val ≠ (ramIdx t w).toNat := by
            rw [ramIdx_congr h]
            exact fun e => hk ⟨hs, e⟩
          rw [step_store hs]
          exact xf100RamWrite_frame (i := ramIn t w) k hne
  value t h := by
    rintro (k | k) hk
    · obtain ⟨hen, rfl⟩ := hk
      show (step t (.twoState w x)).rfR _ = (step s (.twoState w x)).rfR _
      rw [step_rfR, step_rfR, if_pos hen, if_pos hen, Function.update_self, Function.update_self,
        aluData_congr h, aguData_congr h]
    · obtain ⟨hs, hidx⟩ := hk
      have hmem : t.memR k = s.memR k := h (.ram k) ⟨aguOp_of_stOp hs, hidx⟩
      show (step t (.twoState w x)).memR k = (step s (.twoState w x)).memR k
      rw [step_store hs, step_store hs]
      show xf100RamWrite t.memR (ramIn t w) k = xf100RamWrite s.memR (ramIn s w) k
      have hlt : (ramIn s w).ramAddr.toNat < dataRamDp := hidx ▸ k.isLt
      have hk : k = ⟨(ramIn s w).ramAddr.toNat, hlt⟩ := Fin.ext hidx
      rw [ramIn_congr h, xf100RamWrite_hit (ramIn_write_en s hs) hlt,
        xf100RamWrite_hit (ramIn_write_en s hs) hlt, ← hk, Function.update_self,
        Function.update_self, hmem]

/-- A load inside the data RAM does not see the answer of a read past it, and no other word reads
    at all. -/
theorem step_memX {x' : BitVec 32}
    (h : Decode.aguOp w = true → (ramIdx s w).toNat < dataRamDp) :
    step s (.twoState w x) = step s (.twoState w x') := by
  cases hl : Decode.ldOp w with
  | true =>
      obtain ⟨-, o, ho⟩ := (Decode.ldOp_iff w).mp hl
      have hidx := h (aguOp_of_ldOp hl)
      rw [step_load hl, step_load hl, aguData_load hl ho, aguData_load hl ho,
        Ram.memAt_of_lt _ _ hidx, Ram.memAt_of_lt _ _ hidx]
  | false =>
      cases hs : Decode.stOp w with
      | true => rw [step_store hs, step_store hs]
      | false =>
          by_cases hd : rdOf w = 0#5
          · rw [step_idle hl hs hd, step_idle hl hs hd]
          · rw [step_alu hl hs hd, step_alu hl hs hd]

end Footprint

/-! ## 3. Two words -/

/-- **The words do not interfere in `s`**: by their raw fields on the registers, by the indices they
    drive on the data RAM if one of two AGU operations is a store. -/
structure Independent (s : Core) (i j : BitVec 32) : Prop where
  rd_rd : rdOf i ≠ rdOf j
  rd_rs1 : rdOf i ≠ rs1Of j
  rd_rs2 : rdOf i ≠ rs2Of j
  rs1_rd : rdOf j ≠ rs1Of i
  rs2_rd : rdOf j ≠ rs2Of i
  ram : Decode.stOp i = true ∨ Decode.stOp j = true → Decode.aguOp i = true →
    Decode.aguOp j = true → ramIdx s i ≠ ramIdx s j

section Independent

variable {s : Core} {i j : BitVec 32}

theorem Independent.symm (h : Independent s i j) : Independent s j i where
  rd_rd := h.rd_rd.symm
  rd_rs1 := h.rs1_rd
  rd_rs2 := h.rs2_rd
  rs1_rd := h.rd_rs1
  rs2_rd := h.rd_rs2
  ram hs hj hi := (h.ram hs.symm hi hj).symm

theorem toFin_ne {a b : BitVec 5} (h : a ≠ b) : a.toFin ≠ b.toFin :=
  fun e => h (BitVec.eq_of_toFin_eq e)

theorem Independent.writes_writes (h : Independent s i j) (c : Cell) (hc : Writes s i c) :
    ¬ Writes s j c := by
  rcases c with k | k
  · intro hx
    obtain ⟨-, hk⟩ := hx
    exact toFin_ne h.rd_rd (hc.2.symm.trans hk)
  · intro hx
    obtain ⟨hs, hk⟩ := hx
    exact h.ram (Or.inr hs) (aguOp_of_stOp hc.1) (aguOp_of_stOp hs)
      (BitVec.eq_of_toNat_eq (hc.2.symm.trans hk))

theorem Independent.writes_reads (h : Independent s i j) (c : Cell) (hc : Writes s i c) :
    ¬ Reads s j c := by
  rcases c with k | k
  · intro hx
    rcases hx with hk | hk
    · exact toFin_ne h.rd_rs1 (hc.2.symm.trans hk)
    · exact toFin_ne h.rd_rs2 (hc.2.symm.trans hk)
  · intro hx
    obtain ⟨ha, hk⟩ := hx
    exact h.ram (Or.inl hc.1) (aguOp_of_stOp hc.1) ha
      (BitVec.eq_of_toNat_eq (hc.2.symm.trans hk))

/-- Independent words commute as long as each gets the same answer in both orders. -/
theorem step_comm (h : Independent s i j) (x y : BitVec 32) :
    step (step s (.twoState i x)) (.twoState j y) =
      step (step s (.twoState j y)) (.twoState i x) :=
  (step_footprint s i x).comm get_ext (step_footprint s j y) h.writes_writes h.writes_reads
    h.symm.writes_reads

/-- A word finds its index where it was once an independent one has run. -/
theorem ramIdx_step (h : Independent s i j) (x : BitVec 32) :
    ramIdx (step s (.twoState i x)) j = ramIdx s j :=
  ramIdx_congr ((step_footprint s i x).agree h.writes_reads)

/-- **Independent instructions commute**: with the indices of the AGU operations inside the data RAM
    the registers and the RAM are the same in both orders. -/
theorem independent_commute (h : Independent s i j)
    (hi : Decode.aguOp i = true → (ramIdx s i).toNat < dataRamDp)
    (hj : Decode.aguOp j = true → (ramIdx s j).toNat < dataRamDp) (x y x' y' : BitVec 32) :
    step (step s (.twoState i x)) (.twoState j y) =
      step (step s (.twoState j y')) (.twoState i x') := by
  have hi' : Decode.aguOp i = true →
      (ramIdx (step s (.twoState j y')) i).toNat < dataRamDp := by
    rw [ramIdx_step h.symm]
    exact hi
  calc step (step s (.twoState i x)) (.twoState j y)
      = step (step s (.twoState j y)) (.twoState i x) := step_comm h x y
    _ = step (step s (.twoState j y')) (.twoState i x) := by rw [step_memX hj]
    _ = step (step s (.twoState j y')) (.twoState i x') := step_memX hi'

end Independent

/-- `sb x2, 1120(x1)` and `lb x3, 97(x1)` from reset: the indices are 1120 and 97. -/
theorem sb_lb_commute :
    step (step (reset fun _ => 1#32) (.twoState (storeWord .sb 1#5 2#5 1120#12) 0#32))
        (.twoState (loadWord .lb 3#5 1#5 97#12) 1#32) =
      step (step (reset fun _ => 1#32) (.twoState (loadWord .lb 3#5 1#5 97#12) 2#32))
        (.twoState (storeWord .sb 1#5 2#5 1120#12) 3#32) :=
  independent_commute
    ⟨by decide, by decide, by decide, by decide, by decide, fun _ _ _ => by decide +kernel⟩
    (fun _ => by decide +kernel) (fun _ => by decide +kernel) _ _ _ _

end Core

end Xf100
