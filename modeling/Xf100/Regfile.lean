/-
  File:      Xf100/Regfile.lean
  Subject:   The register file, `xf100_exu_regfile`: 32 flip-flops, two read ports, one
             write port.

  Entry 0 is a flip-flop like the others. A cycle of the file is: `rst_n` settles
  (`rfSettled`, the falling edge of `rst_n` clears the flip-flops at once), the read ports
  answer, and at the rising clock edge every flip-flop loads or holds (`rfEdge`).

  * `rfEdge_eq` -- the 32 generated one-hot enables are one array write;
  * `rfRs_eq` -- a read port is the array entry behind its enable;
  * `cycle_live`, `cycle_reset` -- what one whole cycle leaves in the array.
-/
import Xf100.Gnrl

namespace Xf100

/-- `wire [31:0] rf_r [31:0]`, the outputs of the 32 flip-flops. -/
abbrev Regfile : Type := Fin 32 → BitVec 32

namespace Regfile

/-! ## 1. The ports -/

/-- The write enable the generate loop gives flip-flop `i`. -/
def rfWen (wrEn : Bool) (wrIdx : BitVec 5) (i : Fin 32) : Bool :=
  wrEn && (BitVec.ofNat 5 i.val == wrIdx)

/-- A rising clock edge at every flip-flop. -/
def rfEdge (rfR : Regfile) (rstN wrEn : Bool) (wrData : BitVec 32) (wrIdx : BitVec 5) : Regfile :=
  fun i => xf100Dfflr (rfWen wrEn wrIdx i) wrData rstN (rfR i)

/-- What the flip-flops hold once `rst_n` has settled: `negedge rst_n` runs the same body. -/
def rfSettled (rfR : Regfile) (rstN : Bool) : Regfile :=
  fun i => if rstN then rfR i else xf100Dfflr false 0#32 rstN (rfR i)

/-- A read port. -/
def rfRs (rfR : Regfile) (readEn : Bool) (readRsidx : BitVec 5) : BitVec 32 :=
  BitVec.fill 32 readEn &&& rfR readRsidx.toFin

def rfOReadData1 (rfR : Regfile) (rfIReadEn1 : Bool) (rfIReadRsidx1 : BitVec 5) : BitVec 32 :=
  rfRs rfR rfIReadEn1 rfIReadRsidx1

def rfOReadData2 (rfR : Regfile) (rfIReadEn2 : Bool) (rfIReadRsidx2 : BitVec 5) : BitVec 32 :=
  rfRs rfR rfIReadEn2 rfIReadRsidx2

/-! ## 2. The file as one array -/

theorem ofNat_eq_iff (i : Fin 32) (idx : BitVec 5) :
    BitVec.ofNat 5 i.val = idx ↔ i = idx.toFin := by
  constructor
  · rintro rfl
    apply Fin.ext
    simp
  · rintro rfl
    apply BitVec.eq_of_toNat_eq
    simp

/-- **Exactly the flip-flop the index names is enabled.** -/
theorem rfWen_eq (wrEn : Bool) (wrIdx : BitVec 5) (i : Fin 32) :
    rfWen wrEn wrIdx i = (wrEn && decide (i = wrIdx.toFin)) := by
  unfold rfWen
  congr 1
  rw [Bool.eq_iff_iff, beq_iff_eq, decide_eq_true_eq]
  exact ofNat_eq_iff i wrIdx

/-- **The clock edge is one array write.** -/
theorem rfEdge_eq (rfR : Regfile) (wrEn : Bool) (wrData : BitVec 32) (wrIdx : BitVec 5) :
    rfEdge rfR true wrEn wrData wrIdx =
      if wrEn then Function.update rfR wrIdx.toFin wrData else rfR := by
  funext i
  unfold rfEdge
  rw [rfWen_eq]
  cases wrEn with
  | false => rfl
  | true =>
      by_cases h : i = wrIdx.toFin
      · subst h
        simp
      · simp [h]

@[simp] theorem rfEdge_reset (rfR : Regfile) (wrEn : Bool) (wrData : BitVec 32)
    (wrIdx : BitVec 5) : rfEdge rfR false wrEn wrData wrIdx = fun _ => 0#32 := rfl

@[simp] theorem rfSettled_true (rfR : Regfile) : rfSettled rfR true = rfR := rfl

@[simp] theorem rfSettled_false (rfR : Regfile) : rfSettled rfR false = fun _ => 0#32 := rfl

/-- A read port is the array entry behind its enable. -/
theorem rfRs_eq (rfR : Regfile) (readEn : Bool) (readRsidx : BitVec 5) :
    rfRs rfR readEn readRsidx = if readEn then rfR readRsidx.toFin else 0#32 :=
  Sync.fill_and _ _

/-! ## 3. Whole cycles -/

/-- What one clock cycle feeds the file besides its read ports. -/
structure RfCycle where
  rstN : Bool
  rfIWrEn : Bool
  rfIWrData : BitVec 32
  rfIWrRdidx : BitVec 5

/-- The flip-flops as the read ports of the cycle see them. -/
def inCycle (rfR : Regfile) (c : RfCycle) : Regfile := rfSettled rfR c.rstN

/-- **One clock cycle**: `rst_n` settles, then the rising edge. -/
def cycle (rfR : Regfile) (c : RfCycle) : Regfile :=
  rfEdge (inCycle rfR c) c.rstN c.rfIWrEn c.rfIWrData c.rfIWrRdidx

variable {c : RfCycle}

theorem inCycle_live (rfR : Regfile) (h : c.rstN = true) : inCycle rfR c = rfR := by
  unfold inCycle
  rw [h, rfSettled_true]

theorem inCycle_reset (rfR : Regfile) (h : c.rstN = false) : inCycle rfR c = fun _ => 0#32 := by
  unfold inCycle
  rw [h, rfSettled_false]

theorem cycle_live (rfR : Regfile) (h : c.rstN = true) :
    cycle rfR c =
      if c.rfIWrEn then Function.update rfR c.rfIWrRdidx.toFin c.rfIWrData else rfR := by
  unfold cycle
  rw [inCycle_live rfR h, h, rfEdge_eq]

theorem cycle_reset (rfR : Regfile) (h : c.rstN = false) : cycle rfR c = fun _ => 0#32 := by
  unfold cycle
  rw [h, rfEdge_reset]

end Regfile

end Xf100
