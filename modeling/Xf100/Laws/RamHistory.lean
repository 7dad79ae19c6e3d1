/-
  File:      Xf100/Laws/RamHistory.lean
  Subject:   `xf100_ram` over whole histories of accesses, at any width and depth.

  Every write to a word turns its four bytes round, so a byte written into a lane is found
  there after an even number of further writes and in the opposite lane after an odd one.
  Followed back, the bytes are four cells written last-write-wins (`run_byte`), and a read
  answers one bit of the cell that has come to lie lowest (`run_read`).

  * `run_contents` -- the whole contents after any history;
  * `rdat_run` -- the RAM inside `xf100_core` runs through such a history (`memR_run`), so the
    core loads those bits.
-/
import Mathlib.Order.Fin.Basic
import Xf100.Effect
import Xf100.Sync.Twist

namespace Xf100

namespace Ram

variable {aw dp : Nat}

/-! ## 1. A word as four cells -/

/-- The bytes of a word, the lowest first. -/
def byte (v : BitVec 32) (j : Fin 4) : BitVec 8 := v.extractLsb' (8 * j.val) 8

/-- The word of four bytes. -/
def ofBytes (b : Fin 4 → BitVec 8) : BitVec 32 := b 3 ++ b 2 ++ b 1 ++ b 0

theorem ofBytes_byte (v : BitVec 32) : ofBytes (byte v) = v :=
  Rv32i.LoadOp.value_bytes v .lw

/-- What a write gives each lane. -/
def laneWrite (i : RamIn aw) (j : Fin 4) : Option (BitVec 8) :=
  if i.ramMask.getLsbD j.val then some (i.ramWdat j.val) else none

/-- The writes of a history that reach the word `k`. -/
def hits (k : Fin dp) (l : List (RamIn aw)) : List (RamIn aw) :=
  l.filter fun i => i.ramCs && i.ramWen && decide (i.ramAddr.toNat = k.val)

/-- Where `t` turns put a lane. -/
def turned (t : Nat) (j : Fin 4) : Fin 4 := if t % 2 = 0 then j else j.rev

/-- **What the newest write of the list to reach the cell `c` stored there**, the `t`-th write
    reaching it through the lane it had come to. -/
def newest (l : List (RamIn aw)) (c : Fin 4) : Option (BitVec 8) :=
  Sync.latest (l.mapIdx fun t i c => laneWrite i (turned t c)) c

theorem revPerm_pow (t : Nat) (j : Fin 4) : (Fin.revPerm ^ t) j = turned t j := by
  induction t generalizing j with
  | zero => rfl
  | succ t ih =>
      rw [pow_succ, Equiv.Perm.mul_apply, ih, Fin.revPerm_apply]
      unfold turned
      by_cases h : t % 2 = 0
      · rw [if_pos h, if_neg (by omega)]
      · rw [if_neg h, if_pos (by omega), Fin.rev_rev]

theorem revPerm_pow_inv (t : Nat) (j : Fin 4) : (Fin.revPerm ^ t)⁻¹ j = turned t j := by
  rw [← inv_pow]
  exact revPerm_pow t j

/-- **One write moves every byte to the opposite lane.** -/
theorem byte_wrWord (i : RamIn aw) (v : BitVec 32) :
    byte (wrWord i v) = Sync.twist Fin.revPerm laneWrite (byte v) i := by
  obtain ⟨h3, h2, h1, h0⟩ := wrWord_bytes i v
  have pick (c : Bool) (a b : BitVec 8) :
      (if c then some a else none).getD b = if c then a else b := by
    cases c <;> rfl
  funext j
  match j with
  | 0 => exact h0.trans (pick _ _ _).symm
  | 1 => exact h1.trans (pick _ _ _).symm
  | 2 => exact h2.trans (pick _ _ _).symm
  | 3 => exact h3.trans (pick _ _ _).symm

/-! ## 2. Histories -/

/-- **A word sees the writes that reach it, each as one move of its lanes.** -/
theorem byte_run (m : RamMem dp) (l : List (RamIn aw)) (k : Fin dp) :
    byte (Sync.run xf100RamWrite m l k) =
      Sync.run (Sync.twist Fin.revPerm laneWrite) (byte (m k)) (hits k l) := by
  refine Sync.run_history (I := fun l (u : RamMem dp) => byte (u k) =
    Sync.run (Sync.twist Fin.revPerm laneWrite) (byte (m k)) (hits k l)) rfl ?_ l
  intro pre u i ih
  unfold hits at ih ⊢
  rw [List.filter_append]
  by_cases hit : (i.ramCs && i.ramWen) = true ∧ i.ramAddr.toNat = k.val
  · have hlt : i.ramAddr.toNat < dp := hit.2 ▸ k.isLt
    have hk : (⟨i.ramAddr.toNat, hlt⟩ : Fin dp) = k := Fin.ext hit.2
    rw [xf100RamWrite_hit hit.1 hlt, hk, Function.update_self, byte_wrWord, ih]
    simp only [hit.1, hit.2, decide_true, Bool.and_true, List.filter_cons_of_pos, List.filter_nil,
      Sync.run_concat]
  · have hkeep : xf100RamWrite u i k = u k := by
      by_cases hw : (i.ramCs && i.ramWen) = true
      · exact xf100RamWrite_frame k fun e => hit ⟨hw, e.symm⟩
      · rw [xf100RamWrite_idle (Bool.eq_false_iff.mpr hw)]
    have hnone : List.filter (fun i : RamIn aw => i.ramCs && i.ramWen &&
        decide (i.ramAddr.toNat = k.val)) [i] = [] := by
      rw [List.filter_eq_nil_iff]
      intro j hj
      rw [List.mem_singleton.mp hj, Bool.and_eq_true, decide_eq_true_eq]
      exact hit
    rw [hkeep, ih, hnone, List.append_nil]

/-- **A byte after a history**: the newest write to the cell that lies there, or the byte that lay
    in the cell at first. -/
theorem run_byte (m : RamMem dp) (l : List (RamIn aw)) (k : Fin dp) (j : Fin 4) :
    byte (Sync.run xf100RamWrite m l k) j =
      (newest (hits k l) (turned (hits k l).length j)).getD
        (byte (m k) (turned (hits k l).length j)) := by
  have hlog : Sync.seenAtCells Fin.revPerm laneWrite (hits k l) =
      (hits k l).mapIdx fun t i c => laneWrite i (turned t c) := by
    unfold Sync.seenAtCells
    simp only [revPerm_pow_inv]
  rw [byte_run, Sync.run_twist, hlog, revPerm_pow]
  rfl

/-- **The contents after a history**: in every word four cells that are written last-write-wins, each
    shown at the lane the writes to the word have turned it to. -/
theorem run_contents (m : RamMem dp) (l : List (RamIn aw)) :
    Sync.run xf100RamWrite m l = fun k => ofBytes fun j =>
      (newest (hits k l) (turned (hits k l).length j)).getD
        (byte (m k) (turned (hits k l).length j)) := by
  funext k
  rw [← ofBytes_byte (Sync.run xf100RamWrite m l k)]
  congr 1
  funext j
  exact run_byte m l k j

/-- The byte that lies lowest in the word `k` after a history, where the reads look. -/
def lowest (m : RamMem dp) (l : List (RamIn aw)) (k : Fin dp) : BitVec 8 :=
  (newest (hits k l) (turned (hits k l).length 0)).getD
    (byte (m k) (turned (hits k l).length 0))

/-- **A read after a history** answers one bit of that byte on each lane. -/
theorem run_read (m : RamMem dp) (l : List (RamIn aw)) (memX : BitVec 32) {i : RamIn aw}
    (hi : (i.ramCs && !i.ramWen) = true) {k : Fin dp} (hk : i.ramAddr.toNat = k.val) {q : Nat}
    (hq : q < 4) : (xf100RamRead (Sync.run xf100RamWrite m l) memX i).ramRdat q =
      Agu.lane ((lowest m l k).getLsbD q) := by
  have hlt : i.ramAddr.toNat < dp := hk ▸ k.isLt
  have hkk : (⟨i.ramAddr.toNat, hlt⟩ : Fin dp) = k := Fin.ext hk
  have hbit (v : BitVec 32) : (byte v 0).getLsbD q = v.getLsbD q := by
    show (v.extractLsb' 0 8).getLsbD q = v.getLsbD q
    rw [BitVec.getLsbD_extractLsb', Nat.zero_add]
    simp [-BitVec.getLsbD_eq_getElem, show q < 8 by omega]
  rw [Agu.xf100RamRead_lanes _ _ _ hi, Agu.ramRdat_lanes _ hq, memAt_of_lt _ _ hlt, hkk, ← hbit,
    run_byte]
  rfl

end Ram

/-! ## 3. The RAM inside the core -/

namespace Core

/-- What a run of the core feeds its data RAM. -/
def ramCycles (s : Core) : List Cycle → List (RamIn dataRamAw)
  | [] => []
  | c :: l => dataRamIn (aguRam s c) :: ramCycles (step s c) l

/-- **The RAM inside a run of the core is a run of the RAM**: no reset reaches it. -/
theorem memR_run (s : Core) (l : List Cycle) :
    (Sync.run step s l).memR = Sync.run xf100RamWrite s.memR (ramCycles s l) := by
  induction l generalizing s with
  | nil => rfl
  | cons c l ih =>
      rw [ramCycles, Sync.run_cons, Sync.run_cons, ih]
      rfl

/-- **What the core loads**: in any cycle of any run, resets included, a word taken for a load whose
    index is `k` gets on each lane one bit of the byte that has come to lie lowest in the word
    `k`: of the newest store to that cell, or of what the RAM held at first. -/
theorem rdat_run (s : Core) (l : List Cycle) (c : Cycle) (hl : Decode.ldOp c.exuIInstr = true)
    (k : Fin dataRamDp) (hk : (aguRam (Sync.run step s l) c).aguORamAddr.toNat = k.val) (q : Nat)
    (hq : q < 4) : (dataRamRdat (Sync.run step s l) c).ramRdat q =
      Agu.lane ((Ram.lowest s.memR (ramCycles s l) k).getLsbD q) := by
  unfold dataRamRdat
  rw [memR_run]
  exact Ram.run_read _ _ _ (ram_read_en.trans hl) hk hq

/-- `sb x0, 1120(x0)` turns the word 1120, and `lw x2, 96(x1)` with 1024 in x1 reads the highest byte
    of before. -/
theorem rdat_run_turned : (dataRamRdat (Sync.run step (reset fun _ => 0x05443322#32)
    [.twoState (Rv32i.Arith.opImm .addi 1#5 0#5 0x400#12).encode 0#32,
      .twoState (Rv32i.storeWord .sb 0#5 0#5 1120#12) 0#32])
    (.twoState (Rv32i.loadWord .lw 2#5 1#5 96#12) 0#32)).ramRdat 2 = 1#8 :=
  (rdat_run _ _ _ (by decide) ⟨1120, by decide⟩ (by decide +kernel) 2 (by decide)).trans
    (by decide +kernel)

end Core

end Xf100
