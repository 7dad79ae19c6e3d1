/-
  File:      Xf100/Gnrl.lean
  Subject:   The general modules: the flip-flop `xf100_dfflr` and the memory `xf100_ram`.

  Values are two-state. The one place where the source can read an undefined
  value is `mem_r[ram_addr]` with `ram_addr` past the array: such a read answers
  `memX`, a free argument, so every theorem speaks about each value it could be.
  A write past the array is dropped.
-/
import Mathlib.Logic.Function.Basic
import Xf100.Defines
import Xf100.Sync.Bits

namespace Xf100

/-! ## 1. The flip-flop with reset and load -/

/-- The body of the `always` block: it runs at a rising clock edge and at a falling `rst_n`. -/
def xf100Dfflr {dw : Nat} (en : Bool) (din : BitVec dw) (rstN : Bool) (qoutR : BitVec dw) :
    BitVec dw :=
  if rstN == false then (0 : BitVec dw)
  else if en == true then din
  else qoutR

@[simp] theorem xf100Dfflr_reset {dw : Nat} (en : Bool) (din q : BitVec dw) :
    xf100Dfflr en din false q = (0 : BitVec dw) := rfl

@[simp] theorem xf100Dfflr_load {dw : Nat} (din q : BitVec dw) :
    xf100Dfflr true din true q = din := rfl

@[simp] theorem xf100Dfflr_hold {dw : Nat} (din q : BitVec dw) :
    xf100Dfflr false din true q = q := rfl

/-! ## 2. The memory -/

/-- The input ports of `xf100_ram`. -/
structure RamIn (aw : Nat) where
  ramCs : Bool
  ramWen : Bool
  ramMask : BitVec 4
  ramAddr : BitVec aw
  ramWdat0 : BitVec 8
  ramWdat1 : BitVec 8
  ramWdat2 : BitVec 8
  ramWdat3 : BitVec 8

/-- The output ports of `xf100_ram`. -/
structure RamOut where
  ramRdat0 : BitVec 8
  ramRdat1 : BitVec 8
  ramRdat2 : BitVec 8
  ramRdat3 : BitVec 8

/-- The four write lanes, by number. -/
def RamIn.ramWdat {aw : Nat} (i : RamIn aw) : Nat → BitVec 8
  | 0 => i.ramWdat0
  | 1 => i.ramWdat1
  | 2 => i.ramWdat2
  | _ => i.ramWdat3

/-- The four read lanes. -/
def RamOut.ramRdat (o : RamOut) : Nat → BitVec 8
  | 0 => o.ramRdat0
  | 1 => o.ramRdat1
  | 2 => o.ramRdat2
  | _ => o.ramRdat3

/-- `reg [31:0] mem_r[0:DP-1]` -/
abbrev RamMem (dp : Nat) : Type := Fin dp → BitVec 32

namespace Ram

variable {aw dp : Nat}

/-- `mem_r[ram_addr]`; past the array the answer is `memX`. -/
def memAt (memR : RamMem dp) (memX : BitVec 32) (ramAddr : BitVec aw) : BitVec 32 :=
  if h : ramAddr.toNat < dp then memR ⟨ramAddr.toNat, h⟩ else memX

theorem memAt_of_lt (memR : RamMem dp) (memX : BitVec 32) {a : BitVec aw} (h : a.toNat < dp) :
    memAt memR memX a = memR ⟨a.toNat, h⟩ := dif_pos h

theorem memAt_of_ge (memR : RamMem dp) (memX : BitVec 32) {a : BitVec aw} (h : ¬ a.toNat < dp) :
    memAt memR memX a = memX := dif_neg h

/-- A memory of one value answers it everywhere, if it is also the answer past the array. -/
theorem memAt_const (v : BitVec 32) (a : BitVec aw) : memAt (fun _ : Fin dp => v) v a = v :=
  ite_self _

/-- The word a write stores. The concatenation lists lane 0 first, so lane 0 -- new or old --
    lands in bits 31:24. -/
def wrWord (i : RamIn aw) (tmpRamWdat : BitVec 32) : BitVec 32 :=
  (if i.ramMask.getLsbD 0 then i.ramWdat0 else tmpRamWdat.extractLsb 7 0)
    ++ (if i.ramMask.getLsbD 1 then i.ramWdat1 else tmpRamWdat.extractLsb 15 8)
    ++ (if i.ramMask.getLsbD 2 then i.ramWdat2 else tmpRamWdat.extractLsb 23 16)
    ++ (if i.ramMask.getLsbD 3 then i.ramWdat3 else tmpRamWdat.extractLsb 31 24)

/-- One read lane: the select `tmp_ram_rdat[k]` is a single bit, extended with zeros. -/
def rdLane (i : RamIn aw) (tmpRamRdat : BitVec 32) (k : Nat) : BitVec 8 :=
  BitVec.fill 8 (i.ramCs && !i.ramWen) &&& (BitVec.ofBool (tmpRamRdat.getLsbD k)).setWidth 8

end Ram

/-- **The write port**, at a rising clock edge. -/
def xf100RamWrite {aw dp : Nat} (memR : RamMem dp) (i : RamIn aw) : RamMem dp :=
  if i.ramCs && i.ramWen then
    if h : i.ramAddr.toNat < dp then
      Function.update memR ⟨i.ramAddr.toNat, h⟩ (Ram.wrWord i (memR ⟨i.ramAddr.toNat, h⟩))
    else memR
  else memR

/-- **The read port**, combinational. -/
def xf100RamRead {aw dp : Nat} (memR : RamMem dp) (memX : BitVec 32) (i : RamIn aw) : RamOut where
  ramRdat0 := Ram.rdLane i (Ram.memAt memR memX i.ramAddr) 0
  ramRdat1 := Ram.rdLane i (Ram.memAt memR memX i.ramAddr) 1
  ramRdat2 := Ram.rdLane i (Ram.memAt memR memX i.ramAddr) 2
  ramRdat3 := Ram.rdLane i (Ram.memAt memR memX i.ramAddr) 3

/-! ## 3. What one access does -/

section Access

variable {aw dp : Nat} {memR : RamMem dp} {i : RamIn aw}

theorem xf100RamWrite_idle (h : (i.ramCs && i.ramWen) = false) : xf100RamWrite memR i = memR := by
  unfold xf100RamWrite
  rw [h]
  rfl

theorem xf100RamWrite_past (h : ¬ i.ramAddr.toNat < dp) : xf100RamWrite memR i = memR := by
  unfold xf100RamWrite
  rw [dif_neg h, ite_self]

theorem xf100RamWrite_hit (hw : (i.ramCs && i.ramWen) = true) (h : i.ramAddr.toNat < dp) :
    xf100RamWrite memR i = Function.update memR ⟨i.ramAddr.toNat, h⟩
      (Ram.wrWord i (memR ⟨i.ramAddr.toNat, h⟩)) := by
  unfold xf100RamWrite
  rw [if_pos hw, dif_pos h]

/-- **A write changes no word but the addressed one.** -/
theorem xf100RamWrite_frame (k : Fin dp) (hk : k.val ≠ i.ramAddr.toNat) :
    xf100RamWrite memR i k = memR k := by
  unfold xf100RamWrite
  split_ifs with hw h
  · refine Function.update_of_ne (fun e => hk ?_) _ _
    rw [e]
  · rfl
  · rfl

/-- **The stored word, byte by byte**: byte `3 - k` of it is lane `k`, written or moved. -/
theorem Ram.wrWord_bytes (i : RamIn aw) (t : BitVec 32) :
    (wrWord i t).extractLsb 31 24 =
        (if i.ramMask.getLsbD 0 then i.ramWdat0 else t.extractLsb 7 0) ∧
      (wrWord i t).extractLsb 23 16 =
        (if i.ramMask.getLsbD 1 then i.ramWdat1 else t.extractLsb 15 8) ∧
      (wrWord i t).extractLsb 15 8 =
        (if i.ramMask.getLsbD 2 then i.ramWdat2 else t.extractLsb 23 16) ∧
      (wrWord i t).extractLsb 7 0 =
        (if i.ramMask.getLsbD 3 then i.ramWdat3 else t.extractLsb 31 24) :=
  Sync.bytes_append _ _ _ _

/-- A read lane carries at most its lowest bit. -/
theorem Ram.rdLane_eq (w : BitVec 32) (k : Nat) :
    Ram.rdLane i w k = if (i.ramCs && !i.ramWen) && w.getLsbD k then 1#8 else 0#8 := by
  unfold Ram.rdLane
  rw [Sync.fill_and]
  cases i.ramCs && !i.ramWen
  · rfl
  · cases w.getLsbD k <;> rfl

end Access

end Xf100
