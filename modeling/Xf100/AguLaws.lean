/-
  File:      Xf100/AguLaws.lean
  Subject:   What the AGU writes back, given the four lanes the data RAM answers.

  A lane of `xf100_ram` carries one bit (`Ram.rdLane_eq`), so a load never writes back
  more than one bit per byte: `aguWbckWdat_lanes` gives the whole word, operation by
  operation, and `aguWbckWdat_none` the zeros of a unit that is not loading.
-/
import Xf100.Agu
import Xf100.Rv32i

namespace Xf100

open Sync Rv32i

namespace Agu

variable {i : AguIn}

/-! ## 1. The write-back word as a choice -/

theorem aguWbckWdat_eq (i : AguIn) (r : RamOut) : aguWbckWdat i r =
    (if lbOp i then BitVec.fill 24 (r.ramRdat0.getLsbD 7) ++ r.ramRdat0 else 0#32)
      ||| (if lbuOp i then BitVec.fill 24 false ++ r.ramRdat0 else 0#32)
      ||| (if lhOp i then BitVec.fill 16 (r.ramRdat1.getLsbD 7) ++ r.ramRdat1 ++ r.ramRdat0
            else 0#32)
      ||| (if lhuOp i then BitVec.fill 16 false ++ r.ramRdat1 ++ r.ramRdat0 else 0#32)
      ||| (if lwOp i then r.ramRdat3 ++ r.ramRdat2 ++ r.ramRdat1 ++ r.ramRdat0 else 0#32) := by
  simp only [aguWbckWdat, fill_and]

/-- **A unit that is not loading contributes zeros**, whatever the lanes carry. -/
theorem aguWbckWdat_none (h : loadOp i = false) (r : RamOut) : aguWbckWdat i r = 0#32 := by
  simp only [loadOp, Bool.or_eq_false_iff] at h
  obtain ⟨⟨⟨⟨h1, h2⟩, h3⟩, h4⟩, h5⟩ := h
  simp [aguWbckWdat_eq, h1, h2, h3, h4, h5]

/-! ## 2. Lanes of one bit -/

/-- A read lane that carries the bit `b`. -/
def lane (b : Bool) : BitVec 8 := if b then 1#8 else 0#8

/-- The lanes the RAM answers when its word shows the bits `b k`. -/
def lanes (b : Nat → Bool) : RamOut where
  ramRdat0 := lane (b 0)
  ramRdat1 := lane (b 1)
  ramRdat2 := lane (b 2)
  ramRdat3 := lane (b 3)

theorem xf100RamRead_lanes {aw dp : Nat} (memR : RamMem dp) (memX : BitVec 32) (q : RamIn aw)
    (hr : (q.ramCs && !q.ramWen) = true) :
    xf100RamRead memR memX q = lanes fun k => (Ram.memAt memR memX q.ramAddr).getLsbD k := by
  simp only [xf100RamRead, Ram.rdLane_eq, hr, Bool.true_and]
  rfl

theorem getLsbD_lane (b : Bool) (k : Nat) : (lane b).getLsbD k = (b && decide (k = 0)) := by
  cases b
  · simp [lane]
  · rw [lane, if_pos rfl, BitVec.getLsbD_one]
    simp

theorem lane_inj {a b : Bool} : lane a = lane b ↔ a = b := by
  cases a <;> cases b <;> decide

theorem ramRdat_lanes (b : Nat → Bool) {k : Nat} (hk : k < 4) :
    (lanes b).ramRdat k = lane (b k) := by
  obtain rfl | rfl | rfl | rfl : k = 0 ∨ k = 1 ∨ k = 2 ∨ k = 3 := by omega
  all_goals rfl

/-- What a load writes back from lanes of one bit. -/
def laneData (b : Nat → Bool) : LoadOp → BitVec 32
  | .lb => 0#24 ++ lane (b 0)
  | .lbu => 0#24 ++ lane (b 0)
  | .lh => 0#16 ++ lane (b 1) ++ lane (b 0)
  | .lhu => 0#16 ++ lane (b 1) ++ lane (b 0)
  | .lw => lane (b 3) ++ lane (b 2) ++ lane (b 1) ++ lane (b 0)

/-- The top bit of a lane is never set, so the signed loads extend with zeros like the others. -/
theorem laneData_eq (b : Nat → Bool) (o : LoadOp) : laneData b o = o.value fun k => lane (b k) := by
  cases o
  case lb => cases h : b 0 <;> simp only [laneData, LoadOp.value, h] <;> rfl
  case lh => cases h : b 0 <;> cases h' : b 1 <;> simp only [laneData, LoadOp.value, h, h'] <;> rfl
  case lw => rfl
  case lbu => cases h : b 0 <;> simp only [laneData, LoadOp.value, h] <;> rfl
  case lhu => cases h : b 0 <;> cases h' : b 1 <;> simp only [laneData, LoadOp.value, h, h'] <;> rfl

/-- **What is written back is the load of some bytes exactly when each byte is its lane**, a
    byte of 0 or 1. -/
theorem laneData_eq_value_iff (b : Nat → Bool) (B : Nat → BitVec 8) (o : LoadOp) :
    laneData b o = o.value B ↔ ∀ k, k < o.size → B k = lane (b k) := by
  rw [laneData_eq]
  constructor
  · intro h k hk
    apply BitVec.eq_of_getLsbD_eq
    intro i hi
    rw [← o.getLsbD_value B hk hi, ← h, o.getLsbD_value _ hk hi]
  · intro h
    exact LoadOp.value_congr fun k hk => (h k hk).symm

/-- The bus bit of a load, as the unit reads it. -/
def ldBit (i : AguIn) : LoadOp → Bool
  | .lb => lbOp i
  | .lh => lhOp i
  | .lw => lwOp i
  | .lbu => lbuOp i
  | .lhu => lhuOp i

/-- **One load on the bus writes back the value of its lanes**, whatever bytes they carry. -/
theorem aguWbckWdat_of_load {o : LoadOp} (h : ∀ o', ldBit i o' = decide (o' = o)) (r : RamOut) :
    aguWbckWdat i r = o.value r.ramRdat := by
  have h1 : lbOp i = decide (LoadOp.lb = o) := h .lb
  have h2 : lhOp i = decide (LoadOp.lh = o) := h .lh
  have h3 : lwOp i = decide (LoadOp.lw = o) := h .lw
  have h4 : lbuOp i = decide (LoadOp.lbu = o) := h .lbu
  have h5 : lhuOp i = decide (LoadOp.lhu = o) := h .lhu
  rw [aguWbckWdat_eq, h1, h2, h3, h4, h5]
  cases o <;> simp only [decide_true, decide_false, reduceCtorEq, reduceIte, Bool.false_eq_true,
    BitVec.or_zero, BitVec.zero_or, BitVec.fill_false]
  case lb => exact fill_append_eq_signExtend r.ramRdat0
  case lh => exact fill_append_append_eq_signExtend r.ramRdat1 r.ramRdat0
  case lw => rfl
  case lbu => exact (BitVec.setWidth_eq_append (by decide)).symm
  case lhu => exact zero_append_append_eq_setWidth r.ramRdat1 r.ramRdat0

theorem size_le (o : LoadOp) : o.size ≤ 4 := by cases o <;> decide

/-- **From lanes of one bit.** -/
theorem aguWbckWdat_lanes {o : LoadOp} (h : ∀ o', ldBit i o' = decide (o' = o))
    (b : Nat → Bool) : aguWbckWdat i (lanes b) = laneData b o := by
  rw [aguWbckWdat_of_load h, laneData_eq]
  exact LoadOp.value_congr fun k hk => ramRdat_lanes b (hk.trans_le (size_le o))

/-- Only the lowest bit of each byte can be set. -/
theorem getLsbD_laneData (b : Nat → Bool) (o : LoadOp) :
    (laneData b o).getLsbD 0 = b 0 ∧ (laneData b o).getLsbD 1 = false := by
  have low {n : Nat} (x : BitVec n) (k : Nat) (hk : k < 8) :
      (x ++ lane (b 0)).getLsbD k = (b 0 && decide (k = 0)) := by
    rw [BitVec.getLsbD_append, if_pos hk, getLsbD_lane]
  cases o <;> exact ⟨(low _ 0 (by decide)).trans (by simp), (low _ 1 (by decide)).trans (by simp)⟩

end Agu

end Xf100
