/-
  File:      Xf100/Laws/Undefined.lean
  Subject:   What undefined values can do to a simulation.

  The source leaves two things undefined besides the undriven index: what an instruction fetch
  past the instruction memory gets, and what a load past the data RAM gets. The first never
  happens before `$finish`; so as long as the loads stay inside the data RAM the simulation
  computes with defined values alone.

  * `step_memX_free` -- one cycle of the core, under reset or not;
  * `undefined_unseen` -- histories that differ in undefined values alone end in one state.
-/
import Xf100.Laws.Reset

namespace Xf100

open Rv32i

namespace Core

/-- The answer of a read past the data RAM is not seen by a word that does not read, or reads
    inside. -/
theorem step_memX_free (s : Core) {c c' : Cycle} (hi : c.exuIInstr = c'.exuIInstr)
    (hr : c.rstN = c'.rstN) (hz : c.aguWbckIdx = c'.aguWbckIdx)
    (hin : Decode.ldOp c.exuIInstr = true → (aguRam s c).aguORamAddr.toNat < dataRamDp) :
    step s c = step s c' := by
  have hnow : rfNow s c = rfNow s c' := congrArg (Regfile.rfSettled s.rfR) hr
  have hagu : aguRam s c = aguRam s c' := by
    unfold aguRam
    rw [hnow, hi]
  have hrdat : dataRamRdat s c = dataRamRdat s c' := by
    unfold dataRamRdat
    rw [← hagu]
    cases hl : Decode.ldOp c.exuIInstr with
    | false =>
        have hoff : ((dataRamIn (aguRam s c)).ramCs && !(dataRamIn (aguRam s c)).ramWen) = false :=
          ram_read_en.trans hl
        simp only [xf100RamRead, Ram.rdLane_eq, hoff, Bool.false_and]
    | true =>
        have hidx := hin hl
        have hat : Ram.memAt s.memR c.memX (dataRamIn (aguRam s c)).ramAddr =
            Ram.memAt s.memR c'.memX (dataRamIn (aguRam s c)).ramAddr :=
          (Ram.memAt_of_lt _ _ hidx).trans (Ram.memAt_of_lt _ _ hidx).symm
        unfold xf100RamRead
        rw [hat]
  have hwbck : rfWbck s c = rfWbck s c' := by
    unfold rfWbck
    rw [hnow, hi, hz, hrdat]
  unfold step
  rw [hnow, hagu, hwbck, hr]

end Core

namespace Tb

/-- The edges differ in undefined values at most. -/
structure SameDriven (c c' : TbCycle) : Prop where
  sysRstN : c.sysRstN = c'.sysRstN
  aguWbckIdx : c.aguWbckIdx = c'.aguWbckIdx

/-- A load of a running simulation stays inside the data RAM. -/
def LoadInside (mem : InstMem) (t : Tb) (c : TbCycle) : Prop :=
  t.finished = false → Decode.ldOp (ifuInstr mem t c) = true →
    (Core.aguRam t.core (coreCycle mem t c)).aguORamAddr.toNat < dataRamDp

/-- One edge. -/
theorem step_undefined (mem : InstMem) {t : Tb} {p : Prog} (h : Matches t p) {c c' : TbCycle}
    (hin : LoadInside mem t c) (hc : SameDriven c c') : step mem t c = step mem t c' := by
  have haddr : addrNow t c = addrNow t c' := by
    unfold addrNow
    rw [hc.sysRstN]
  have hcnt : cycleCntNow t c = cycleCntNow t c' := by
    unfold cycleCntNow
    rw [hc.sysRstN]
  cases ht : t.finished with
  | true =>
      unfold step
      rw [ht, if_pos rfl, if_pos rfl]
  | false =>
      have hword : ifuInstr mem t c = ifuInstr mem t c' := by
        rw [ifuInstr_matches mem h ht, ifuInstr_matches mem h ht, hc.sysRstN]
      have hcore : Core.step t.core (coreCycle mem t c) = Core.step t.core (coreCycle mem t c') :=
        Core.step_memX_free t.core hword hc.sysRstN hc.aguWbckIdx (hin ht)
      unfold step
      rw [ht, haddr, hcnt, hcore, hc.sysRstN]

/-- **Undefined values are not seen** by a simulation whose loads stay inside the data RAM: from any
    power-up, two histories that start with a reset edge and agree in the resets and the undriven
    index end in the same state. -/
theorem undefined_unseen (mem : InstMem) (t : Tb) (ht : t.finished = false) (c₀ c₀' : TbCycle)
    (h₀ : c₀.sysRstN = false) (h₀' : c₀'.sysRstN = false) (l l' : List TbCycle)
    (hl : List.Forall₂ SameDriven l l')
    (hin : Sync.Along (step mem) (LoadInside mem) (step mem t c₀) l) :
    Sync.run (step mem) t (c₀ :: l) = Sync.run (step mem) t (c₀' :: l') := by
  have hfirst : step mem t c₀ = step mem t c₀' :=
    (step_resetEdge mem ht h₀).trans (step_resetEdge mem ht h₀').symm
  rw [Sync.run_cons, Sync.run_cons, ← hfirst]
  refine Sync.run_congr (I := fun t => ∃ p, Matches t p) ?_ ?_
    ⟨_, matches_reset mem ht h₀ 0⟩ hl hin
  · intro t c h
    obtain ⟨p, hp⟩ := h
    exact ⟨_, matches_step mem hp c⟩
  · intro t c c' h hok hc
    obtain ⟨p, hp⟩ := h
    exact step_undefined mem hp hok hc

/-- `lw x2, 96(x0)` as word 0: a reset edge and two live ones, with zeros or with ones for everything
    undefined. -/
theorem undefined_unseen_lw :
    Sync.run (step (image [loadWord .lw 2#5 0#5 96#12]))
      ⟨8#32, 2#32, Core.reset fun _ => 7#32, false⟩
      [⟨false, 0#32, 0#5, 0#32⟩, ⟨true, 0#32, 0#5, 0#32⟩] =
    Sync.run (step (image [loadWord .lw 2#5 0#5 96#12]))
      ⟨8#32, 2#32, Core.reset fun _ => 7#32, false⟩
      [⟨false, 0xFFFFFFFF#32, 0#5, 0xFFFFFFFF#32⟩, ⟨true, 0xFFFFFFFF#32, 0#5, 0xFFFFFFFF#32⟩] :=
  undefined_unseen _ _ rfl _ _ rfl rfl _ _ (List.Forall₂.cons ⟨rfl, rfl⟩ List.Forall₂.nil)
    ⟨fun _ _ => by decide +kernel, trivial⟩

end Tb

end Xf100
