/-
  File:      Xf100/Laws/RegisterFile.lean
  Subject:   The register file over whole runs: a map with last-write-wins.

  A history is the list of clock cycles so far, each with its own reset, write enable, index
  and data. What the file stands for after a history is the newest enabled write to an index
  among the cycles no reset separates from the present one, 0 where there is none.

  * `run_live` -- without a reset in the history, the array is its write log;
  * `inCycle_run` -- in a run from a reset, the read ports of any cycle see that map;
  * `lastWriteWins` -- the ports over every such run: value, visibility, frame, agreement;
  * `rfR_run`, `rfNow_run` -- the file inside `xf100_core` runs through such cycles, so the same
    holds of what the core reads.
-/
import Xf100.Core
import Xf100.Sync.LastWrite

namespace Xf100

namespace Regfile

/-! ## 1. What the file stands for -/

/-- The writes of a history, oldest first. -/
def writes (l : List RfCycle) : List (BitVec 5 × BitVec 32) :=
  (l.filter (·.rfIWrEn)).map fun c => (c.rfIWrRdidx, c.rfIWrData)

/-- The cycles of the history `pre` since the last reset, seen from the cycle `c`. -/
def sinceReset (pre : List RfCycle) (c : RfCycle) : List RfCycle :=
  if c.rstN then pre.rtakeWhile (·.rstN) else []

/-- **The map**: what the newest write to `r` since the last reset stored, or 0. -/
def written (pre : List RfCycle) (c : RfCycle) (r : BitVec 5) : BitVec 32 :=
  (Sync.lastWrite (writes (sinceReset pre c)) r).getD 0#32

/-- The log grows by the cycle's write, if its port is enabled. -/
theorem lastWrite_writes_concat (l : List RfCycle) (c : RfCycle) (r : BitVec 5) :
    Sync.lastWrite (writes (l ++ [c])) r =
      if c.rfIWrEn ∧ c.rfIWrRdidx = r then some c.rfIWrData else Sync.lastWrite (writes l) r := by
  unfold writes
  rw [List.filter_append, List.map_append]
  cases h : c.rfIWrEn with
  | false => simp [h]
  | true => simp [h, Sync.lastWrite_concat]

/-! ## 2. The array and its write log -/

/-- One cycle without a reset, seen at one index. -/
theorem cycle_at (rfR : Regfile) {c : RfCycle} (hc : c.rstN = true) (r : BitVec 5) :
    cycle rfR c r.toFin =
      if c.rfIWrEn ∧ c.rfIWrRdidx = r then c.rfIWrData else rfR r.toFin := by
  rw [cycle_live rfR hc]
  cases c.rfIWrEn with
  | false => simp
  | true =>
      by_cases hr : c.rfIWrRdidx = r
      · subst hr
        simp
      · have hne : r.toFin ≠ c.rfIWrRdidx.toFin := fun e => hr (BitVec.eq_of_toFin_eq e.symm)
        simp [hr, Function.update_of_ne hne]

/-- **Without a reset in it, a history leaves its write log in the cleared array.** -/
theorem run_live (l : List RfCycle) : (∀ c ∈ l, c.rstN = true) → ∀ r : BitVec 5,
    Sync.run cycle (fun _ => 0#32) l r.toFin = (Sync.lastWrite (writes l) r).getD 0#32 := by
  refine Sync.run_history (I := fun l (rfR : Regfile) => (∀ c ∈ l, c.rstN = true) →
    ∀ r : BitVec 5, rfR r.toFin = (Sync.lastWrite (writes l) r).getD 0#32) ?_ ?_ l
  · intro _ r
    rfl
  · intro pre rfR c ih hlive r
    have hpre := ih (fun d hd => hlive d (List.mem_append_left _ hd)) r
    rw [cycle_at rfR (hlive c (by simp)) r, lastWrite_writes_concat, hpre]
    split
    · rfl
    · rfl

/-- **What the read ports of a cycle see** in a run that has passed a reset. -/
theorem inCycle_run (rfR : Regfile) {pre : List RfCycle} {c : RfCycle}
    (h : ∃ d ∈ pre ++ [c], d.rstN = false) (r : BitVec 5) :
    inCycle (Sync.run cycle rfR pre) c r.toFin = written pre c r := by
  unfold written sinceReset
  cases hc : c.rstN with
  | false =>
      rw [inCycle_reset _ hc]
      rfl
  | true =>
      have hpre : ∃ d ∈ pre, d.rstN = false := by
        obtain ⟨d, hd, hrst⟩ := h
        rcases List.mem_append.mp hd with hd | hd
        · exact ⟨d, hd, hrst⟩
        · rw [List.mem_singleton.mp hd, hc] at hrst
          cases hrst
      have hrun : Sync.run cycle rfR pre =
          Sync.run cycle (fun _ => 0#32) (pre.rtakeWhile (·.rstN)) :=
        Sync.run_reset (fun s d hd => cycle_reset (c := d) s hd) rfR hpre
      rw [inCycle_live _ hc, hrun]
      exact run_live _ (fun d hd => List.mem_rtakeWhile_imp hd) r

/-! ## 3. The ports -/

theorem rfOReadData1_eq (rfR : Regfile) (en : Bool) (r : BitVec 5) :
    rfOReadData1 rfR en r = if en then rfR r.toFin else 0#32 := rfRs_eq rfR en r

theorem rfOReadData2_eq (rfR : Regfile) (en : Bool) (r : BitVec 5) :
    rfOReadData2 rfR en r = if en then rfR r.toFin else 0#32 := rfRs_eq rfR en r

/-- The array the read ports of the cycle `c` see after the history `pre`. -/
def seen (rfR : Regfile) (pre : List RfCycle) (c : RfCycle) : Regfile :=
  inCycle (Sync.run cycle rfR pre) c

/-- **Last write wins at the ports**, in the cycle `c` after the history `pre`. -/
structure LastWriteWins (rfR : Regfile) (pre : List RfCycle) (c : RfCycle) : Prop where
  /-- Each port answers the newest write since the last reset, or 0. -/
  port1 : ∀ en r, rfOReadData1 (seen rfR pre c) en r = if en then written pre c r else 0#32
  port2 : ∀ en r, rfOReadData2 (seen rfR pre c) en r = if en then written pre c r else 0#32
  /-- What the write port carries in the cycle itself does not show. -/
  own : ∀ d : RfCycle, d.rstN = c.rstN → ∀ en r,
    rfOReadData1 (seen rfR pre d) en r = rfOReadData1 (seen rfR pre c) en r ∧
    rfOReadData2 (seen rfR pre d) en r = rfOReadData2 (seen rfR pre c) en r
  /-- It shows from the next cycle on. -/
  next : c.rstN = true → c.rfIWrEn = true → ∀ d : RfCycle, d.rstN = true →
    rfOReadData1 (seen rfR (pre ++ [c]) d) true c.rfIWrRdidx = c.rfIWrData ∧
    rfOReadData2 (seen rfR (pre ++ [c]) d) true c.rfIWrRdidx = c.rfIWrData
  /-- Every other index answers in the next cycle what it answers now. -/
  frame : c.rstN = true → ∀ d : RfCycle, d.rstN = true → ∀ en r,
    ¬ (c.rfIWrEn = true ∧ c.rfIWrRdidx = r) →
    rfOReadData1 (seen rfR (pre ++ [c]) d) en r = rfOReadData1 (seen rfR pre c) en r ∧
    rfOReadData2 (seen rfR (pre ++ [c]) d) en r = rfOReadData2 (seen rfR pre c) en r
  /-- The two ports agree. -/
  agree : ∀ en r, rfOReadData1 (seen rfR pre c) en r = rfOReadData2 (seen rfR pre c) en r

/-- The array of the next cycle, at one index. -/
theorem seen_concat (rfR : Regfile) (pre : List RfCycle) {c d : RfCycle} (hc : c.rstN = true)
    (hd : d.rstN = true) (r : BitVec 5) :
    seen rfR (pre ++ [c]) d r.toFin =
      if c.rfIWrEn ∧ c.rfIWrRdidx = r then c.rfIWrData else seen rfR pre c r.toFin := by
  unfold seen
  rw [inCycle_live _ hd, Sync.run_concat, cycle_at _ hc, inCycle_live _ hc]

/-- **The register file refines a map with last-write-wins.** In every run that starts with a
    reset cycle, from any contents of the flip-flops, it holds in every cycle. -/
theorem lastWriteWins (rfR : Regfile) {l pre post : List RfCycle} {c₀ c : RfCycle}
    (h₀ : c₀.rstN = false) (hl : c₀ :: l = pre ++ c :: post) : LastWriteWins rfR pre c := by
  have hreset : ∃ d ∈ pre ++ [c], d.rstN = false := by
    refine ⟨c₀, ?_, h₀⟩
    cases pre with
    | nil => simp [(List.cons_eq_cons.mp hl).1]
    | cons b pre => simp [(List.cons_eq_cons.mp hl).1]
  have hseen : ∀ r : BitVec 5, seen rfR pre c r.toFin = written pre c r := inCycle_run rfR hreset
  constructor
  case port1 =>
    intro en r
    rw [rfOReadData1_eq, hseen]
  case port2 =>
    intro en r
    rw [rfOReadData2_eq, hseen]
  case own =>
    intro d hd en r
    have hsame : seen rfR pre d = seen rfR pre c := by
      unfold seen inCycle
      rw [hd]
    rw [hsame]
    exact ⟨rfl, rfl⟩
  case next =>
    intro hc hen d hd
    have hnext : seen rfR (pre ++ [c]) d c.rfIWrRdidx.toFin = c.rfIWrData := by
      rw [seen_concat rfR pre hc hd, if_pos ⟨hen, rfl⟩]
    exact ⟨(rfOReadData1_eq _ _ _).trans hnext, (rfOReadData2_eq _ _ _).trans hnext⟩
  case frame =>
    intro hc d hd en r hr
    rw [rfOReadData1_eq, rfOReadData2_eq, rfOReadData1_eq, rfOReadData2_eq,
      seen_concat rfR pre hc hd, if_neg hr]
    exact ⟨rfl, rfl⟩
  case agree =>
    intro en r
    rfl

/-- A reset, a write of 7 to x3, a write of 9 to x3: the third cycle still reads 7. -/
theorem lastWriteWins_third_cycle :
    rfOReadData1 (seen (fun _ => 5#32) [⟨false, true, 1#32, 3#5⟩, ⟨true, true, 7#32, 3#5⟩]
      ⟨true, true, 9#32, 3#5⟩) true 3#5 = 7#32 := by
  have hl : (⟨false, true, 1#32, 3#5⟩ : RfCycle) :: [⟨true, true, 7#32, 3#5⟩,
      ⟨true, true, 9#32, 3#5⟩] = [⟨false, true, 1#32, 3#5⟩, ⟨true, true, 7#32, 3#5⟩] ++
        ⟨true, true, 9#32, 3#5⟩ :: [] := rfl
  exact (lastWriteWins (fun _ => 5#32) rfl hl).port1 true 3#5

end Regfile

/-! ## 4. The file inside the core -/

namespace Core

/-- What a cycle of the core feeds its register file. -/
def rfCycle (s : Core) (c : Cycle) : Regfile.RfCycle where
  rstN := c.rstN
  rfIWrEn := (rfWbck s c).wbckOWbckEn
  rfIWrData := (rfWbck s c).wbckOWbckData
  rfIWrRdidx := (rfWbck s c).wbckOWbckRdidx

/-- The history of its register file in a run of the core. -/
def rfCycles (s : Core) : List Cycle → List Regfile.RfCycle
  | [] => []
  | c :: l => rfCycle s c :: rfCycles (step s c) l

/-- **The file inside a run of the core is a run of the file.** -/
theorem rfR_run (s : Core) (l : List Cycle) :
    (Sync.run step s l).rfR = Sync.run Regfile.cycle s.rfR (rfCycles s l) := by
  induction l generalizing s with
  | nil => rfl
  | cons c l ih =>
      rw [rfCycles, Sync.run_cons, Sync.run_cons, ih]
      rfl

theorem map_rstN_rfCycles (s : Core) (l : List Cycle) :
    (rfCycles s l).map (·.rstN) = l.map (·.rstN) := by
  induction l generalizing s with
  | nil => rfl
  | cons c l ih =>
      rw [rfCycles, List.map_cons, List.map_cons, ih]
      rfl

/-- **What the core reads**: in any cycle of a run that has passed a reset, register `r` holds what
    the newest write-back to it since the last reset carried, or 0. -/
theorem rfNow_run (s : Core) {l : List Cycle} {c : Cycle} (h : ∃ d ∈ l ++ [c], d.rstN = false)
    (r : BitVec 5) : rfNow (Sync.run step s l) c r.toFin =
      Regfile.written (rfCycles s l) (rfCycle (Sync.run step s l) c) r := by
  have hreset : ∃ d ∈ rfCycles s l ++ [rfCycle (Sync.run step s l) c], d.rstN = false := by
    obtain ⟨d, hd, hrst⟩ := h
    rcases List.mem_append.mp hd with hd | hd
    · have hmem : false ∈ (rfCycles s l).map (·.rstN) := by
        rw [map_rstN_rfCycles, ← hrst]
        exact List.mem_map_of_mem hd
      obtain ⟨e, he, hrst'⟩ := List.mem_map.mp hmem
      exact ⟨e, List.mem_append_left _ he, hrst'⟩
    · refine ⟨rfCycle (Sync.run step s l) c, by simp, ?_⟩
      rw [List.mem_singleton.mp hd] at hrst
      exact hrst
  have hrun := Regfile.inCycle_run s.rfR hreset r
  rw [← rfR_run] at hrun
  exact hrun

end Core

end Xf100
