/-
  File:      Xf100/Laws/LaneRam.lean
  Subject:   A store and the load of the same size, on any RAM that obeys the lane law.

  The RAM here is not `xf100_ram` but what the AGU expects of one: a write puts lane `k` of
  the indexed word to the byte on `wdat_k` where the mask raises it and leaves every other
  lane, a read answers the four lanes.

  * `LaneRam` -- such a RAM, the laws being its fields; `LaneRam.flat` is one;
  * `lane_store` -- what one store of the AGU leaves in each lane;
  * `storeLoad_iff` -- when store and load of one size agree.
-/
import Xf100.Laws.DataMemory

namespace Xf100

open Rv32i

/-- **A RAM that obeys the lane law.** How it gets from an address to a word is its own affair. -/
structure LaneRam where
  Mem : Type
  Word : Type
  index : BitVec dataRamAw → Word
  lane : Mem → Word → Nat → BitVec 8
  write : Mem → RamIn dataRamAw → Mem
  read : Mem → RamIn dataRamAw → RamOut
  write_hit : ∀ m (i : RamIn dataRamAw) k, k < 4 → (i.ramCs && i.ramWen) = true →
    i.ramMask.getLsbD k = true → lane (write m i) (index i.ramAddr) k = i.ramWdat k
  write_masked : ∀ m (i : RamIn dataRamAw) k, k < 4 → i.ramMask.getLsbD k = false →
    lane (write m i) (index i.ramAddr) k = lane m (index i.ramAddr) k
  write_other : ∀ m (i : RamIn dataRamAw) w k, k < 4 → w ≠ index i.ramAddr →
    lane (write m i) w k = lane m w k
  write_idle : ∀ m (i : RamIn dataRamAw) w k, k < 4 → (i.ramCs && i.ramWen) = false →
    lane (write m i) w k = lane m w k
  read_lane : ∀ m (i : RamIn dataRamAw) k, k < 4 → (i.ramCs && !i.ramWen) = true →
    (read m i).ramRdat k = lane m (index i.ramAddr) k

namespace LaneRam

/-- The RAM that is its lanes, one word an address. -/
def flat : LaneRam where
  Mem := BitVec dataRamAw → Nat → BitVec 8
  Word := BitVec dataRamAw
  index := id
  lane := fun m => m
  write := fun m i w k =>
    if (i.ramCs && i.ramWen && i.ramMask.getLsbD k) ∧ w = i.ramAddr then i.ramWdat k else m w k
  read := fun m i =>
    ⟨m i.ramAddr 0, m i.ramAddr 1, m i.ramAddr 2, m i.ramAddr 3⟩
  write_hit := by
    intro m i k _ hw hk
    exact if_pos ⟨by rw [hw, hk]; rfl, rfl⟩
  write_masked := by
    intro m i k _ hk
    exact if_neg fun h => by simp [hk] at h
  write_other := by
    intro m i w k _ hne
    exact if_neg fun h => hne h.2
  write_idle := by
    intro m i w k _ hw
    exact if_neg fun h => by simp [hw] at h
  read_lane := by
    intro m i k hk _
    obtain rfl | rfl | rfl | rfl : k = 0 ∨ k = 1 ∨ k = 2 ∨ k = 3 := by omega
    all_goals rfl

end LaneRam

namespace Agu

namespace Access

variable (R : LaneRam) (m : R.Mem) (a b : Access)

/-- The RAM after a store and a load, each at its clock edge. -/
def afterBoth : R.Mem := R.write (R.write m a.ramIn) b.ramIn

/-- What the load writes back when it follows the store. -/
def loaded : AguWbckOut := xf100ExuAguWbck b.port (R.read (R.write m a.ramIn) b.ramIn)

/-- **A store, then the load `o'` of the same size**: the load writes back the extension of what
    was stored, and just the lanes below the size have been overwritten. -/
structure StoreLoad (o : StoreOp) (o' : LoadOp) : Prop where
  en : (loaded R m a b).aguOWbckEn = true
  data : (loaded R m a b).aguOWbckData = o'.extend a.port.aguIRs2
  below : ∀ k, k < o.size →
    R.lane (afterBoth R m a b) (R.index a.addr) k = a.port.aguIRs2.extractLsb' (8 * k) 8
  above : ∀ k, o.size ≤ k → k < 4 →
    R.lane (afterBoth R m a b) (R.index a.addr) k = R.lane m (R.index a.addr) k
  others : ∀ w k, k < 4 → w ≠ R.index a.addr → R.lane (afterBoth R m a b) w k = R.lane m w k

section Lanes

variable {a b : Access} {o : StoreOp} {o' : LoadOp}

/-- The byte of rs2 on each write lane. -/
theorem ramWdat_ramIn (a : Access) {k : Nat} (hk : k < 4) :
    a.ramIn.ramWdat k = a.port.aguIRs2.extractLsb' (8 * k) 8 := by
  obtain rfl | rfl | rfl | rfl : k = 0 ∨ k = 1 ∨ k = 2 ∨ k = 3 := by omega
  all_goals rfl

/-- The lanes a store raises: all of its size but the second of a halfword. -/
theorem ramMask_of_store (h : a.op = .store o) {k : Nat} (hk : k < 4) :
    a.ramIn.ramMask.getLsbD k = decide (k < o.size ∧ ¬ (o = .sh ∧ k = 1)) := by
  rw [(ramIn_of_store h).2]
  obtain rfl | rfl | rfl | rfl : k = 0 ∨ k = 1 ∨ k = 2 ∨ k = 3 := by omega
  all_goals cases o <;> rfl

/-- **What a store leaves in the lanes of its word.** -/
theorem lane_store (h : a.op = .store o) {k : Nat} (hk : k < 4) :
    R.lane (R.write m a.ramIn) (R.index a.addr) k =
      if k < o.size ∧ ¬ (o = .sh ∧ k = 1) then a.port.aguIRs2.extractLsb' (8 * k) 8
      else R.lane m (R.index a.addr) k := by
  have hmask := ramMask_of_store h hk
  by_cases hc : k < o.size ∧ ¬ (o = .sh ∧ k = 1)
  · rw [if_pos hc, ← ramWdat_ramIn a hk]
    exact R.write_hit m a.ramIn k hk (ramIn_of_store h).1 (hmask.trans (decide_eq_true hc))
  · rw [if_neg hc]
    exact R.write_masked m a.ramIn k hk (hmask.trans (decide_eq_false hc))

/-- A load leaves every lane. -/
theorem lane_load (h : b.op = .load o') (w : R.Word) {k : Nat} (hk : k < 4) :
    R.lane (R.write m b.ramIn) w k = R.lane m w k :=
  R.write_idle m b.ramIn w k hk (ramIn_of_load h).2

/-- **A load writes back the value of its lanes.** -/
theorem wbck_load (h : b.op = .load o') :
    (xf100ExuAguWbck b.port (R.read m b.ramIn)).aguOWbckData =
      o'.value (R.lane m (R.index b.addr)) := by
  have hlane (k : Nat) (hk : k < 4) := R.read_lane m b.ramIn k hk (ramIn_of_load h).1
  show aguWbckWdat b.port (R.read m b.ramIn) = _
  rw [aguWbckWdat_of_load (ldBit_of_load h), LoadOp.value_congr]
  intro k hk
  exact hlane k (hk.trans_le (size_le o'))

theorem loadOp_of_load (h : b.op = .load o') : loadOp b.port = true := by
  have hbit := ldBit_of_load h o'
  rw [decide_eq_true rfl] at hbit
  unfold loadOp
  cases o' <;> simp only [ldBit] at hbit <;> simp [hbit]

end Lanes

/-- **Same-size store then load**, on every RAM that obeys the lane law: the two agree if and only
    if the store is not an SH, or lane 1 of the word held the upper byte of the halfword. -/
theorem storeLoad_iff {a b : Access} {o : StoreOp} {o' : LoadOp} (ha : a.op = .store o)
    (hb : b.op = .load o') (hsize : o'.size = o.size)
    (haddr : b.port.aguIRs1 + b.port.aguIImm = a.port.aguIRs1 + a.port.aguIImm) :
    StoreLoad R m a b o o' ↔
      (o = .sh → R.lane m (R.index a.addr) 1 = a.port.aguIRs2.extractLsb 15 8) := by
  have hidx : b.addr = a.addr := congrArg (BitVec.extractLsb 15 0) haddr
  have hle : o.size ≤ 4 := hsize ▸ size_le o'
  have hboth (w : R.Word) {k : Nat} (hk : k < 4) :
      R.lane (afterBoth R m a b) w k = R.lane (R.write m a.ramIn) w k := lane_load R _ hb w hk
  constructor
  · intro h ho
    have h1 := h.below 1 (by rw [ho]; decide)
    rw [hboth _ (by decide), lane_store R m ha (by decide), if_neg fun hc => hc.2 ⟨ho, rfl⟩] at h1
    exact h1
  · intro h
    have hbelow (k : Nat) (hk : k < o.size) :
        R.lane (R.write m a.ramIn) (R.index a.addr) k =
          a.port.aguIRs2.extractLsb' (8 * k) 8 := by
      rw [lane_store R m ha (hk.trans_le hle)]
      by_cases hc : o = .sh ∧ k = 1
      · rw [if_neg fun hc' => hc'.2 hc, hc.2]
        exact h hc.1
      · rw [if_pos ⟨hk, hc⟩]
    constructor
    case en => exact loadOp_of_load hb
    case data =>
      rw [loaded, wbck_load R _ hb, hidx, ← LoadOp.value_bytes]
      exact LoadOp.value_congr fun k hk => hbelow k (hsize ▸ hk)
    case below =>
      intro k hk
      rw [hboth _ (hk.trans_le hle)]
      exact hbelow k hk
    case above =>
      intro k hk hk4
      rw [hboth _ hk4, lane_store R m ha hk4, if_neg fun hc => hk.not_gt hc.1]
    case others =>
      intro w k hk hw
      rw [hboth w hk]
      exact R.write_other m a.ramIn w k hk hw

/-- `sh` of 0x0100 to address 0, with the operation bit 7 on the bus. -/
def sh0100 : Access where
  port := ⟨true, 0b010000000#9, 0#32, 0x0100#32, 0#5, 0#32⟩
  op := .store .sh
  agu_op := rfl
  only := by
    intro o
    rcases o with o | o <;> cases o <;> rfl
  aligned := rfl

/-- `lh` from address 0, with the operation bit 2 on the bus. -/
def lhZero : Access where
  port := ⟨true, 0b000000100#9, 0#32, 0#32, 1#5, 0#32⟩
  op := .load .lh
  agu_op := rfl
  only := by
    intro o
    rcases o with o | o <;> cases o <;> rfl
  aligned := rfl

/-- `lw` from address 0, with the operation bit 3 on the bus. -/
def lwZero : Access where
  port := ⟨true, 0b000001000#9, 0#32, 0#32, 1#5, 0#32⟩
  op := .load .lw
  agu_op := rfl
  only := by
    intro o
    rcases o with o | o <;> cases o <;> rfl
  aligned := rfl

/-- `sw` of 0xFF, then a load of a word, on cleared lanes. -/
theorem storeLoad_sw : StoreLoad .flat (fun _ _ => 0#8) swFF lwZero .sw .lw :=
  (storeLoad_iff .flat _ (rfl : swFF.op = .store .sw) (rfl : lwZero.op = .load .lw) rfl rfl).mpr
    fun h => by cases h

/-- `sh` of 0x0100, then `lh`, on cleared lanes: 0 comes back. -/
theorem storeLoad_lost : ¬ ∀ (R : LaneRam) (m : R.Mem) (a b : Access) (o : StoreOp) (o' : LoadOp),
    a.op = .store o → b.op = .load o' → o'.size = o.size →
    b.port.aguIRs1 + b.port.aguIImm = a.port.aguIRs1 + a.port.aguIImm →
    (a.port.aguIRs1 + a.port.aguIImm).toNat % 4 = 0 → StoreLoad R m a b o o' := by
  intro h
  have h0 := (h .flat (fun _ _ => 0#8) sh0100 lhZero .sh .lh rfl rfl rfl rfl rfl).data
  revert h0
  decide +kernel

end Access

end Agu

end Xf100
