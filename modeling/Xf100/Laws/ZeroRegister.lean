/-
  File:      Xf100/Laws/ZeroRegister.lean
  Subject:   The hard-wired zero over whole runs.

  Entry 0 is a flip-flop like the others, so x0 is 0 only as long as nothing writes it.
  The ALU's write-back is switched off for rd = x0 by the decoder; the AGU's is not
  (`agu_i_rd_en` is not read), and a load to x0 overwrites entry 0.

  * `zeroReg_of_entry` -- with entry 0 at 0 both read ports answer 0 for x0;
  * `zeroReg_runs_iff` -- a set of words keeps x0 at 0 over all its runs exactly when no
    word of it is taken for a load with rd = x0.
-/
import Mathlib.Data.Set.Defs
import Xf100.Effect

namespace Xf100

open Rv32i

namespace Core

/-- **x0 is 0**: in the flip-flop, and on each read port a word points at x0. -/
structure ZeroReg (s : Core) : Prop where
  entry : s.rfR 0 = 0#32
  port1 : ∀ w, rs1Of w = 0#5 → Exu.rfRs1 s.rfR w = 0#32
  port2 : ∀ w, rs2Of w = 0#5 → Exu.rfRs2 s.rfR w = 0#32

/-- Port 1 is closed for x0; port 2 may be open, and then it is entry 0 it reads. -/
theorem zeroReg_of_entry {s : Core} (h : s.rfR 0 = 0#32) : ZeroReg s where
  entry := h
  port1 w hw := by rw [rfRs1_eq, if_pos (Or.inl hw)]
  port2 w hw := by
    rw [rfRs2_eq, hw]
    split
    · exact h
    · rfl

/-- One step keeps entry 0 unless its word is taken for a load to x0. -/
theorem entry_step {s : Core} (h : s.rfR 0 = 0#32) {w x : BitVec 32}
    (hw : ¬ (Decode.TakenLoad w ∧ rdOf w = 0#5)) : (step s (.twoState w x)).rfR 0 = 0#32 := by
  have hne (v : BitVec 32) (hd : rdOf w ≠ 0#5) :
      Function.update s.rfR (rdOf w).toFin v 0 = 0#32 :=
    (Function.update_of_ne (fun e => hd (BitVec.eq_of_toFin_eq e.symm)) _ _).trans h
  rcases step_cases s w x with ⟨-, hst⟩ | ⟨hl, hst⟩ | ⟨hd, hst⟩ | hst
  · rw [hst]
    exact h
  · rw [hst]
    exact hne _ fun hd => hw ⟨(Decode.ldOp_iff w).mp hl, hd⟩
  · rw [hst]
    exact hne _ hd
  · rw [hst]
    exact h

/-- A word taken for a load to x0 does overwrite entry 0 when the RAM answers ones. -/
theorem entry_step_load {w : BitVec 32} (hl : Decode.TakenLoad w) (hd : rdOf w = 0#5) :
    (step (reset fun _ => BitVec.allOnes 32) (.twoState w (BitVec.allOnes 32))).rfR 0 ≠ 0#32 := by
  obtain ⟨-, o, ho⟩ := id hl
  rw [← Decode.ldOp_iff] at hl
  intro h
  have hm : Ram.memAt (reset fun _ => BitVec.allOnes 32).memR (BitVec.allOnes 32)
      (ramIdx (reset fun _ => BitVec.allOnes 32) w) = BitVec.allOnes 32 :=
    Ram.memAt_const _ _
  have hb := (Agu.getLsbD_laneData (fun k => (BitVec.allOnes 32).getLsbD k) o).1
  rw [step_load hl, hd, aguData_load hl ho, hm, show (0#5).toFin = (0 : Fin 32) from rfl] at h
  simp only [Function.update_self] at h
  have h0 := congrArg (fun v => BitVec.getLsbD v 0) h
  simp only [BitVec.getLsbD_or, hb] at h0
  simp at h0

/-- **The zero register over runs.** From reset, with any contents of the data RAM, every run
    over a set of words keeps x0 at 0 if and only if no word of the set is taken for a load
    with rd = x0. -/
theorem zeroReg_runs_iff (W : Set (BitVec 32)) :
    (∀ (memR : RamMem dataRamDp) (ws : List (BitVec 32 × BitVec 32)), (∀ p ∈ ws, p.1 ∈ W) →
      ZeroReg (runWords (reset memR) ws)) ↔
    ∀ w ∈ W, ¬ (Decode.TakenLoad w ∧ rdOf w = 0#5) := by
  constructor
  · intro h w hw hx
    obtain ⟨hl, hd⟩ := hx
    have hrun := h (fun _ => BitVec.allOnes 32) [(w, BitVec.allOnes 32)] (by simpa using hw)
    have h0 := hrun.entry
    rw [runWords_cons, runWords_nil] at h0
    exact entry_step_load hl hd h0
  · intro h memR ws hws
    refine zeroReg_of_entry ?_
    have hstep : ∀ (s : Core) (p : BitVec 32 × BitVec 32), s.rfR 0 = 0#32 → p.1 ∈ W →
        (stepWord s p).rfR 0 = 0#32 := fun s p hs hp => entry_step hs (h p.1 hp)
    exact Sync.run_inv (I := fun s : Core => s.rfR 0 = 0#32) hstep rfl hws

/-- `lb x0, 96(x0)` on a data RAM of ones leaves 1 in x0. -/
theorem zeroReg_lost_by_lb : ¬ ∀ (memR : RamMem dataRamDp) (ws : List (BitVec 32 × BitVec 32)),
    ZeroReg (runWords (reset memR) ws) := by
  intro h
  have h0 := (h (fun _ => 1#32) [(loadWord .lb 0#5 0#5 96#12, 0#32)]).entry
  revert h0
  decide +kernel

end Core

end Xf100
