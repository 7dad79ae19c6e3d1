/-
  File:      Xf100/Laws/Events.lean
  Subject:   The cycle model is what the events of the testbench amount to.

  * `step_eq_clkRise` -- one step of Tb.lean is the two kinds of blocks one after the other;
  * `events_refine` -- over every history of events, wherever the reset changes, the testbench
    is where the cycle model is that clears the registers at a pulse between two edges;
  * `simulate_time` -- `tb_top` by its simulation time, the undriven index at 0.

  Before time 0 the reset counts as up: going low from an undefined value is a falling edge.
-/
import Xf100.TbEvents
import Xf100.Laws.Simulation

namespace Xf100

namespace Core

/-- One cycle of the core: the reset settles, then the clock rises. -/
theorem step_eq_clkRise (s : Core) (c : Cycle) :
    step s c = clkRise (if c.rstN then s else rstFall s) c := by
  cases hr : c.rstN with
  | true =>
      have hnow : rfNow s c = s.rfR := by
        unfold rfNow
        rw [hr, Regfile.rfSettled_true]
      unfold step clkRise rfWbck wbckNets dataRamRdat ramNets aguRam
      rw [hnow]
      rfl
  | false =>
      have hnow : rfNow s c = (rstFall s).rfR := by
        unfold rfNow
        rw [hr]
        rfl
      unfold step clkRise rfWbck wbckNets dataRamRdat ramNets aguRam
      rw [hnow]
      rfl

end Core

namespace Tb

/-! ## 1. One edge -/

variable (mem : InstMem)

/-- The cycle of an edge. -/
def toCycle (c : Sync.Sample TbFree) : TbCycle :=
  ⟨c.up, c.input.instX, c.input.aguWbckIdx, c.input.memX⟩

/-- **The cycle model with pulses**: a reset that was low between two edges and is up again has
    cleared the registers. -/
def pulseStep (t : Tb) (c : Sync.Sample TbFree) : Tb :=
  step mem (if c.fell && c.up then rstFall t else t) (toCycle c)

theorem rstFall_eq {t : Tb} (ht : t.finished = false) :
    rstFall t = ⟨0#32, 0#32, t.core.rstFall, false⟩ := by
  unfold rstFall
  rw [ht]
  rfl

/-- A second fall of the reset finds nothing to do. -/
theorem rstFall_rstFall (t : Tb) : rstFall (rstFall t) = rstFall t := by
  obtain ⟨addr, cycleCnt, core, finished⟩ := t
  cases finished <;> rfl

/-- **One step of the cycle model**: the reset settles, then the clock rises. -/
theorem step_eq_clkRise (t : Tb) (c : TbCycle) :
    step mem t c = clkRise mem c.sysRstN (if c.sysRstN then t else rstFall t)
      ⟨c.instX, c.aguWbckIdx, c.memX⟩ := by
  cases ht : t.finished with
  | true =>
      have hfall : (if c.sysRstN then t else rstFall t) = t := by
        rw [show rstFall t = t from if_pos ht, ite_self]
      unfold step clkRise
      rw [hfall, if_pos ht, if_pos ht]
  | false =>
      unfold step clkRise coreCycle ifuInstr addrNow cycleCntNow
      cases hr : c.sysRstN with
      | true => simp only [if_true, ht, Core.step_eq_clkRise]
      | false =>
          rw [if_neg Bool.false_ne_true, rstFall_eq ht]
          simp only [ht, Core.step_eq_clkRise]
          rfl

/-- An edge under reset leaves the registers as the reset does. -/
theorem rstFall_clkRise (t : Tb) (u : TbFree) :
    rstFall (clkRise mem false (rstFall t) u) = clkRise mem false (rstFall t) u := by
  obtain ⟨addr, cycleCnt, core, finished⟩ := t
  cases finished <;> rfl

theorem sampleStep_eq (t : Tb) (c : Sync.Sample TbFree) :
    Sync.sampleStep (clkRise mem) rstFall t c = pulseStep mem t c := by
  obtain ⟨fell, up, u⟩ := c
  unfold pulseStep
  rw [step_eq_clkRise]
  cases up with
  | true => cases fell <;> rfl
  | false => cases fell <;> rfl

theorem run_event (t : Tb) (l : List (Sync.Event TbFree)) :
    (Sync.run (event mem) (true, t) l).2 =
      if Sync.fellAfter false true l then
        rstFall (Sync.run (Sync.sampleStep (clkRise mem) rstFall) t (Sync.samples false true l))
      else Sync.run (Sync.sampleStep (clkRise mem) rstFall) t (Sync.samples false true l) :=
  Sync.run_events (clkRise mem) rstFall rstFall_rstFall (rstFall_clkRise mem) l
    false true fun h => by cases h

section Time

variable (free : Nat → TbFree)

/-- The rising edge `k` of `tb_top`: the reset has fallen before the first. -/
def riseSample (k : Nat) : Sync.Sample TbFree := ⟨k == 0, sysRstNAt k, free k⟩

/-- What has been sampled before time `τ`, and where the reset is. -/
structure AtTime (τ : Nat) : Prop where
  samples : Sync.samples false true (history free τ) = (List.range ((τ + 9) / 20)).map (riseSample free)
  fell : Sync.fellAfter false true (history free τ) = decide (0 < τ ∧ τ ≤ 10)
  up : Sync.upAfter true (history free τ) = decide (τ = 0 ∨ 2000 < τ)

theorem history_succ (τ : Nat) : history free (τ + 1) = history free τ ++ eventsAt free τ := by
  unfold history
  rw [List.range_succ, List.flatMap_append, List.flatMap_singleton]

theorem eventsAt_rise (k : Nat) : eventsAt free (sysClkRise k) = [.clk (free k)] := by
  have hdiv : sysClkRise k / 20 = k := by
    unfold sysClkRise
    omega
  have h0 : sysClkRise k ≠ 0 := by
    unfold sysClkRise
    omega
  have h2000 : sysClkRise k ≠ 2000 := by
    unfold sysClkRise
    omega
  unfold eventsAt
  rw [if_neg h0, if_neg h2000, hdiv, if_pos rfl]
  rfl

theorem eventsAt_else {τ : Nat} (h0 : τ ≠ 0) (h2000 : τ ≠ 2000) (h : τ % 20 ≠ 10) :
    eventsAt free τ = [] := by
  have hrise : τ ≠ sysClkRise (τ / 20) := by
    unfold sysClkRise
    omega
  unfold eventsAt
  rw [if_neg h0, if_neg h2000, if_neg hrise]
  rfl

theorem atTime (τ : Nat) : AtTime free τ := by
  induction τ with
  | zero => exact ⟨rfl, rfl, rfl⟩
  | succ τ ih =>
      obtain ⟨hs, hf, hu⟩ := ih
      have hsucc := history_succ free τ
      by_cases h : τ % 20 = 10
      · -- a rising edge
        have hk : τ = sysClkRise (τ / 20) := by
          unfold sysClkRise
          omega
        obtain ⟨k, rfl⟩ : ∃ k, τ = sysClkRise k := ⟨_, hk⟩
        have hn : (sysClkRise k + 9) / 20 = k := by
          unfold sysClkRise
          omega
        have hn' : (sysClkRise k + 1 + 9) / 20 = k + 1 := by
          unfold sysClkRise
          omega
        rw [eventsAt_rise] at hsucc
        constructor
        · have hfell : decide (0 < sysClkRise k ∧ sysClkRise k ≤ 10) = (k == 0) := by
            rw [Bool.eq_iff_iff, decide_eq_true_eq, beq_iff_eq]
            unfold sysClkRise
            omega
          have hup : decide (sysClkRise k = 0 ∨ 2000 < sysClkRise k) = sysRstNAt k := by
            unfold sysRstNAt sysClkRise
            exact decide_eq_decide.mpr (by omega)
          rw [hsucc, Sync.samples_append, hs, hf, hu, hn, hn', List.range_succ, List.map_append,
            hfell, hup]
          rfl
        · rw [hsucc, Sync.fellAfter_append]
          refine (decide_eq_false ?_).symm
          unfold sysClkRise
          omega
        · rw [hsucc, Sync.upAfter_append, hu]
          refine decide_eq_decide.mpr ?_
          unfold sysClkRise
          omega
      · have hn : (τ + 1 + 9) / 20 = (τ + 9) / 20 := by omega
        by_cases h0 : τ = 0
        · subst h0
          exact ⟨rfl, rfl, rfl⟩
        · by_cases h2000 : τ = 2000
          · subst h2000
            have hev : eventsAt free 2000 = [.rst true] := rfl
            rw [hev] at hsucc
            constructor
            · rw [hsucc, Sync.samples_append, hs, hn]
              exact List.append_nil _
            · rw [hsucc, Sync.fellAfter_append, hf, hu]
              rfl
            · rw [hsucc, Sync.upAfter_append]
              rfl
          · rw [eventsAt_else free h0 h2000 h, List.append_nil] at hsucc
            constructor
            · rw [hsucc, hs, hn]
            · rw [hsucc, hf]
              exact decide_eq_decide.mpr (by omega)
            · rw [hsucc, hu]
              exact decide_eq_decide.mpr (by omega)

end Time

/-- **`tb_top` by its simulation time**, the undriven index at 0: from any power-up, at time `τ` the
    testbench is where the cycle model is after the rising edges before `τ`; before the first of
    them the reset has cleared its registers. -/
theorem simulate_time (mem : InstMem) (t : Tb) (free : Nat → BitVec 32 × BitVec 32) (τ : Nat) :
    (Sync.run (event mem) (true, t) (history (fun k => ⟨(free k).1, 0#5, (free k).2⟩) τ)).2 =
      if 0 < τ ∧ τ ≤ 10 then rstFall t else Sync.run (step mem) t (edges free ((τ + 9) / 20)) := by
  obtain ⟨hs, hf, -⟩ := atTime (fun k => ⟨(free k).1, 0#5, (free k).2⟩) τ
  have hedges (n : Nat) : Sync.run (Sync.sampleStep (clkRise mem) rstFall) t
      ((List.range n).map (riseSample fun k => ⟨(free k).1, 0#5, (free k).2⟩)) =
        Sync.run (step mem) t (edges free n) := by
    unfold edges
    rw [Sync.run_map, Sync.run_map]
    congr 1
    funext t k
    have hpulse : (k == 0 && sysRstNAt k) = false := by
      cases k with
      | zero => rfl
      | succ k => rfl
    rw [sampleStep_eq]
    show step mem (if k == 0 && sysRstNAt k then rstFall t else t) _ = _
    rw [hpulse]
    rfl
  rw [run_event, hs, hf, hedges]
  by_cases h : 0 < τ ∧ τ ≤ 10
  · have hn : (τ + 9) / 20 = 0 := by omega
    rw [if_pos h, hn, if_pos (decide_eq_true h)]
    rfl
  · rw [if_neg h, if_neg (by simpa using h)]

end Tb

end Xf100
