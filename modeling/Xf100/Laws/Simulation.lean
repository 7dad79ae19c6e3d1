/-
  File:      Xf100/Laws/Simulation.lean
  Subject:   The simulation `tb_top` runs, from power-up to `$finish`.

  `tb_top` gives 100 rising edges under reset and then live ones for ever. So the run is known
  edge by edge: word 0 a hundred times on cleared registers, then the words 0 to 2048 once
  each, then `$finish` (`simulation`). This is the two-state model, the undriven index at 0 in
  every edge; with another value there instructions can write other registers than they name.

  * `wordAt_image` -- an image of a program, fetched, is the program;
  * `simulate_safe` -- a safe program laid out in the instruction memory leaves, from any
    power-up, the registers it means to leave and the data RAM as it found it.
-/
import Xf100.Laws.Safe
import Xf100.Laws.Testbench
import Mathlib.Data.List.GetD

namespace Xf100

open Rv32i

namespace Tb

/-! ## 1. The edges -/

theorem sysRstNAt_eq (k : Nat) : sysRstNAt k = decide (100 ≤ k) := by
  unfold sysRstNAt sysClkRise
  rw [decide_eq_decide]
  omega

/-- Edge `k` of the simulation. -/
def edge (free : Nat → BitVec 32 × BitVec 32) (k : Nat) : TbCycle :=
  ⟨sysRstNAt k, (free k).1, 0#5, (free k).2⟩

theorem edges_succ (free : Nat → BitVec 32 × BitVec 32) (n : Nat) :
    edges free (n + 1) = edges free n ++ [edge free n] := by
  unfold edges
  rw [List.range_succ, List.map_append]
  rfl

/-- The edges start with a reset. -/
theorem edges_cons (free : Nat → BitVec 32 × BitVec 32) (n : Nat) :
    ∃ l, edges free (n + 1) = edge free 0 :: l := by
  unfold edges
  rw [List.range_succ_eq_map, List.map_cons]
  exact ⟨_, rfl⟩

/-- What the core is fed in the first `n` edges: word 0 until the reset is released, then the words
    in order. -/
def coreEdges (mem : InstMem) (free : Nat → BitVec 32 × BitVec 32) (n : Nat) : List Cycle :=
  (List.range n).map fun k => ⟨wordAt mem (k - 100), sysRstNAt k, 0#5, (free k).2⟩

theorem coreEdges_succ (mem : InstMem) (free : Nat → BitVec 32 × BitVec 32) (n : Nat) :
    coreEdges mem free (n + 1) =
      coreEdges mem free n ++ [⟨wordAt mem (n - 100), sysRstNAt n, 0#5, (free n).2⟩] := by
  unfold coreEdges
  rw [List.range_succ, List.map_append]
  rfl

/-! ## 2. The run -/

/-- The rising edges up to and with the one that calls `$finish`. -/
abbrev lastEdge : Nat := 100 + (haltAt + 1)

/-- **The program counter through the simulation.** -/
theorem prog_edges (mem : InstMem) (core : Core) (free : Nat → BitVec 32 × BitVec 32) (n : Nat) :
    Sync.run (Prog.step mem) ⟨0, core, false⟩ (edges free n) =
      ⟨min n lastEdge - 100, Sync.run Core.step core (coreEdges mem free (min n lastEdge)),
        decide (lastEdge ≤ n)⟩ := by
  have hlast : lastEdge = 2149 := rfl
  have hhalt : haltAt = 2048 := rfl
  induction n with
  | zero => rfl
  | succ n ih =>
      rw [edges_succ, Sync.run_concat, ih]
      unfold Prog.step
      by_cases hn : lastEdge ≤ n
      · -- the simulation is over
        rw [if_pos (decide_eq_true hn), min_eq_right hn, min_eq_right (hn.trans (Nat.le_succ n)),
          decide_eq_true hn, decide_eq_true (hn.trans (Nat.le_succ n))]
      · have hmin : min n lastEdge = n := min_eq_left (by omega)
        have hmin' : min (n + 1) lastEdge = n + 1 := min_eq_left (by omega)
        have hcycle : Prog.cycle mem
            ⟨min n lastEdge - 100, Sync.run Core.step core (coreEdges mem free (min n lastEdge)),
              decide (lastEdge ≤ n)⟩ (edge free n) =
            ⟨wordAt mem (n - 100), sysRstNAt n, 0#5, (free n).2⟩ := by
          unfold Prog.cycle
          have hpos : (if (edge free n).sysRstN = true then min n lastEdge - 100 else 0) =
              n - 100 := by
            show (if sysRstNAt n = true then _ else _) = _
            rw [sysRstNAt_eq, hmin]
            by_cases h : 100 ≤ n
            · simp [h]
            · simp [h]
              omega
          rw [hpos]
          rfl
        rw [if_neg (by simp [hn]), hcycle, hmin, hmin', coreEdges_succ, Sync.run_concat]
        congr 1
        · show (if sysRstNAt n = true then n - 100 + 1 else 0) = n + 1 - 100
          rw [sysRstNAt_eq]
          by_cases h : 100 ≤ n
          · simp [h]
            omega
          · simp [h]
            omega
        · show (sysRstNAt n && decide (n - 100 = haltAt)) = decide (lastEdge ≤ n + 1)
          rw [sysRstNAt_eq, ← Bool.decide_and, decide_eq_decide]
          omega

theorem matches_edges (mem : InstMem) {t : Tb} (ht : t.finished = false)
    (free : Nat → BitVec 32 × BitVec 32) (n : Nat) : Matches
      (Sync.run (step mem) t (edges free (n + 1))) ⟨min (n + 1) lastEdge - 100,
        Sync.run Core.step t.core (coreEdges mem free (min (n + 1) lastEdge)),
        decide (lastEdge ≤ n + 1)⟩ := by
  obtain ⟨l, hl⟩ := edges_cons free n
  have hreset : (edge free 0).sysRstN = false := rfl
  rw [← prog_edges, hl]
  exact matches_run mem (matches_reset mem ht hreset 0) l

/-- The core through the simulation. -/
theorem core_edges (mem : InstMem) {t : Tb} (ht : t.finished = false)
    (free : Nat → BitVec 32 × BitVec 32) (n : Nat) : (Sync.run (step mem) t (edges free n)).core =
      Sync.run Core.step t.core (coreEdges mem free (min n lastEdge)) := by
  cases n with
  | zero => rfl
  | succ n => exact (matches_edges mem ht free n).core

/-- **The simulation**, the undriven index at 0. From any power-up, after `n` rising edges `$finish`
    has been called exactly if there were 2149 of them, and until then the core has run word 0
    under reset a hundred times and the words from 0 on once each, the one of the edge that
    calls `$finish` included. -/
theorem simulation (mem : InstMem) (t : Tb) (ht : t.finished = false)
    (free : Nat → BitVec 32 × BitVec 32) (n : Nat) :
    (Sync.run (step mem) t (edges free n)).finished = decide (lastEdge ≤ n) ∧
      (Sync.run (step mem) t (edges free n)).core =
        Sync.run Core.step t.core (coreEdges mem free (min n lastEdge)) := by
  refine ⟨?_, core_edges mem ht free n⟩
  cases n with
  | zero => exact ht
  | succ n => exact (matches_edges mem ht free n).finished

/-- A power-up with ones in the registers and zeros in both memories: not finished after 2148 edges. -/
theorem simulation_2148 : (Sync.run (step fun _ => 0#8)
      ⟨BitVec.allOnes 32, BitVec.allOnes 32, ⟨fun _ => BitVec.allOnes 32, fun _ => 0#32⟩, false⟩
      (edges (fun _ => (0#32, 0#32)) 2148)).finished = decide (lastEdge ≤ 2148) ∧
    (Sync.run (step fun _ => 0#8)
      ⟨BitVec.allOnes 32, BitVec.allOnes 32, ⟨fun _ => BitVec.allOnes 32, fun _ => 0#32⟩, false⟩
      (edges (fun _ => (0#32, 0#32)) 2148)).core =
        Sync.run Core.step ⟨fun _ => BitVec.allOnes 32, fun _ => 0#32⟩
          (coreEdges (fun _ => 0#8) (fun _ => (0#32, 0#32)) (min 2148 lastEdge)) :=
  simulation (fun _ => 0#8) _ rfl _ 2148

end Tb

/-! ## 3. Images -/

/-- The memory image of a list of words, lowest byte first, zeros after the last. -/
def image (ws : List (BitVec 32)) : InstMem :=
  fun a => (ws.getD (a.val / 4) 0#32).extractLsb' (8 * (a.val % 4)) 8

/-- **An image fetched word by word is the list.** -/
theorem wordAt_image (ws : List (BitVec 32)) {k : Nat} (hk : 4 * k + 3 < instMemDp) :
    wordAt (image ws) k = ws.getD k 0#32 := by
  have hbyte (j : Nat) (hj : j ≤ 3) : wordAt.byteAt (image ws) (4 * k + j) =
      (ws.getD k 0#32).extractLsb' (8 * j) 8 := by
    have hlt : 4 * k + j < instMemDp := by omega
    have hdiv : (4 * k + j) / 4 = k := by omega
    have hmod : (4 * k + j) % 4 = j := by omega
    unfold wordAt.byteAt
    rw [dif_pos hlt]
    show (ws.getD ((4 * k + j) / 4) 0#32).extractLsb' (8 * ((4 * k + j) % 4)) 8 = _
    rw [hdiv, hmod]
  have h0 := hbyte 0 (by omega)
  rw [Nat.add_zero] at h0
  unfold wordAt
  rw [hbyte 3 (by omega), hbyte 2 (by omega), hbyte 1 (by omega), h0]
  exact LoadOp.value_bytes (ws.getD k 0#32) .lw

namespace Core

/-! ## 4. Reset edges -/

/-- Under reset the registers are 0, and the word still works on the data RAM. -/
theorem step_reset (s : Core) {c : Cycle} (hc : c.rstN = false) (x : BitVec 32) :
    step s c = ⟨fun _ => 0#32, (step (reset s.memR) (.twoState c.exuIInstr x)).memR⟩ := by
  have hnow : rfNow s c = fun _ => 0#32 := by
    unfold rfNow
    rw [hc, Regfile.rfSettled_false]
  have hrf : (step s c).rfR = fun _ => 0#32 := by
    show Regfile.rfEdge (rfNow s c) c.rstN _ _ _ = _
    rw [hc]
    exact Regfile.rfEdge_reset _ _ _ _
  have hmem : (step s c).memR = (step (reset s.memR) (.twoState c.exuIInstr x)).memR := by
    show xf100RamWrite s.memR (dataRamIn (Exu.aguRam (rfNow s c) c.exuIInstr)) = _
    rw [hnow]
    rfl
  rw [← hrf, ← hmem]

/-- The word 0 does nothing. -/
theorem step_zero (s : Core) (x : BitVec 32) : step s (.twoState 0#32 x) = s :=
  step_idle (by decide) (by decide) (by decide)

/-- The registers of the instruction set after a reset. -/
def zeroRegs : Regs where
  x _ := 0#32
  x_zero := rfl

theorem shows_reset (m : RamMem dataRamDp) : Shows m (reset m) zeroRegs := ⟨fun _ => rfl, rfl⟩

/-! ## 5. Safe programs -/

section Safe

variable {p : List Rv32i.Arith} {m : RamMem dataRamDp} {t : Core}

/-- **Word `k` of the image** is the `k`-th instruction, and nothing after the last. -/
theorem shows_word (hp : ∀ i ∈ p, Safe i) {r : Regs} {k : Nat}
    (h : Shows m t (execAll r (p.take k))) (x : BitVec 32) :
    Shows m (step t (.twoState ((p.map Arith.encode).getD k 0#32) x))
      (execAll r (p.take (k + 1))) := by
  by_cases hk : k < p.length
  · have hword : (p.map Arith.encode).getD k 0#32 = (p[k]).encode := by
      rw [List.getD_eq_getElem _ _ (by simpa using hk), List.getElem_map]
    have hnext : execAll r (p.take (k + 1)) = (p[k]).exec (execAll r (p.take k)) := by
      rw [List.take_succ_eq_append_getElem hk]
      exact Sync.run_concat _ _ _
    rw [hword, hnext]
    exact shows_step h (hp _ (List.getElem_mem hk)) x
  · have hword : (p.map Arith.encode).getD k 0#32 = 0#32 :=
      List.getD_eq_default _ _ (by simpa using hk)
    rw [List.take_of_length_le (by omega)] at h
    rw [hword, step_zero, List.take_of_length_le (by omega)]
    exact h

/-- Under reset the first instruction leaves the data RAM alone. -/
theorem shows_resetEdge (hp : ∀ i ∈ p, Safe i) (hm : t.memR = m) {c : Cycle}
    (hc : c.rstN = false) (hw : c.exuIInstr = (p.map Arith.encode).getD 0 0#32) :
    Shows m (step t c) zeroRegs := by
  subst hm
  have hfirst := shows_word hp (k := 0) (r := zeroRegs) (shows_reset t.memR) 0#32
  rw [step_reset t hc 0#32, hw]
  exact ⟨fun _ => rfl, hfirst.2⟩

/-- **The core through the simulation of a safe program**, from the first edge on. -/
theorem shows_edges (hp : ∀ i ∈ p, Safe i) (t : Core) (free : Nat → BitVec 32 × BitVec 32)
    {n : Nat} (hn : n < Tb.lastEdge) :
    Shows t.memR (Sync.run step t (Tb.coreEdges (image (p.map Arith.encode)) free (n + 1)))
      (execAll zeroRegs (p.take (n + 1 - 100))) := by
  have hlast : Tb.lastEdge = 2149 := rfl
  have hword : ∀ k, k < Tb.lastEdge →
      wordAt (image (p.map Arith.encode)) (k - 100) = (p.map Arith.encode).getD (k - 100) 0#32 :=
    fun k hk => wordAt_image _ (show 4 * (k - 100) + 3 < 16384 by omega)
  induction n with
  | zero =>
      rw [Tb.coreEdges_succ, Sync.run_concat]
      exact shows_resetEdge hp rfl rfl (hword 0 hn)
  | succ n ih =>
      have hprev := ih (by omega)
      rw [Tb.coreEdges_succ, Sync.run_concat, hword _ hn]
      by_cases hlive : 100 ≤ n + 1
      · have hcount : n + 1 + 1 - 100 = n + 1 - 100 + 1 := by omega
        have hcycle : (⟨(p.map Arith.encode).getD (n + 1 - 100) 0#32, Tb.sysRstNAt (n + 1), 0#5,
            (free (n + 1)).2⟩ : Cycle) =
            .twoState ((p.map Arith.encode).getD (n + 1 - 100) 0#32) (free (n + 1)).2 := by
          rw [Tb.sysRstNAt_eq, decide_eq_true hlive]
          rfl
        rw [hcycle, hcount]
        exact shows_word hp hprev _
      · have h0 : n + 1 - 100 = 0 := by omega
        have h0' : n + 1 + 1 - 100 = 0 := by omega
        rw [h0, h0']
        refine shows_resetEdge hp hprev.2 ?_ rfl
        show Tb.sysRstNAt (n + 1) = false
        rw [Tb.sysRstNAt_eq, decide_eq_false hlive]

end Safe

end Core

namespace Tb

/-- The core once a safe program of up to 2049 instructions has run. -/
theorem shows_simulation {p : List Rv32i.Arith} (hp : ∀ i ∈ p, Core.Safe i)
    (hlen : p.length ≤ haltAt + 1) {t : Tb} (ht : t.finished = false)
    (free : Nat → BitVec 32 × BitVec 32) {n : Nat} (hn : 100 + p.length ≤ n) :
    Core.Shows t.core.memR
      (Sync.run (step (image (p.map Arith.encode))) t (edges free n)).core
      (Core.execAll Core.zeroRegs p) := by
  have hlast : lastEdge = 2149 := rfl
  have hhalt : haltAt = 2048 := rfl
  obtain ⟨j, hj⟩ : ∃ j, min n lastEdge = j + 1 := ⟨min n lastEdge - 1, by omega⟩
  have hshow := Core.shows_edges hp t.core free (n := j) (by omega)
  rw [List.take_of_length_le (by omega), ← hj] at hshow
  rw [core_edges (image (p.map Arith.encode)) ht free n]
  exact hshow

/-- **End to end.** A safe program of up to 2049 instructions, laid out in the instruction memory,
    is what the simulation computes, the undriven index at 0: from any power-up, after `n` rising
    edges that leave time for all of it, the registers are those the program means to leave from
    zeros and the data RAM is as it was at power-up -- the reset edges, which run the first
    instruction a hundred times, and the words after the last included. -/
theorem simulate_safe (p : List Rv32i.Arith) (hp : ∀ i ∈ p, Core.Safe i)
    (hlen : p.length ≤ haltAt + 1) (t : Tb) (ht : t.finished = false)
    (free : Nat → BitVec 32 × BitVec 32) (n : Nat) (hn : 100 + p.length ≤ n) :
    (∀ k : BitVec 5,
      (Sync.run (step (image (p.map Arith.encode))) t (edges free n)).core.rfR k.toFin =
        (Core.execAll Core.zeroRegs p).x k) ∧
      (Sync.run (step (image (p.map Arith.encode))) t (edges free n)).core.memR =
        t.core.memR :=
  shows_simulation hp hlen ht free hn

/-- `addi x1, x0, 5` and `add x2, x1, x1`, from ones in every register: x2 is 10 after 102 edges. -/
theorem simulate_safe_double : (Sync.run
    (step (image ([Arith.opImm .addi 1#5 0#5 5#12, .op .add 2#5 1#5 1#5].map Arith.encode)))
      ⟨BitVec.allOnes 32, BitVec.allOnes 32, ⟨fun _ => BitVec.allOnes 32, fun _ => 0#32⟩, false⟩
      (edges (fun _ => (0#32, 0#32)) 102)).core.rfR (2#5).toFin = 10#32 :=
  ((simulate_safe [.opImm .addi 1#5 0#5 5#12, .op .add 2#5 1#5 1#5] (by decide) (by decide) _ rfl
    _ 102 (by decide)).1 2#5).trans (by decide)

end Tb

end Xf100
