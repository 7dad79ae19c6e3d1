/-
  File:      Xf100/Laws/DataMemory.lean
  Subject:   The AGU and the data RAM against a byte-addressed memory.

  What the accesses mean is a log of bytes stored, read last-write-wins (`lastByte`). What
  the hardware keeps is a word at each byte address: the address is used as a word index,
  a store turns the word round, a load sees one bit of it for each byte.

  * `wordInv_run` -- the two bytes of a word a load can ever see, from the stores made at
    exactly its address;
  * `load_iff` -- when one load is right whatever the RAM held at first;
  * `dataMemory_iff` -- when every load of a sequence is.
-/
import Xf100.Effect
import Xf100.Sync.LastWrite

namespace Xf100

open Rv32i Sync

namespace Agu

/-! ## 1. Accesses -/

/-- **One AGU operation**: the ports as driven, the one operation bit they carry, and an address
    that is naturally aligned. -/
structure Access where
  port : AguIn
  op : MemOp
  agu_op : port.aguIAguOp = true
  only : ∀ o, port.aguIAguInfo.getLsbD (Decode.aguBit o) = decide (o = op)
  aligned : ((port.aguIRs1 + port.aguIImm).extractLsb 15 0).toNat % op.size = 0

namespace Access

variable (a : Access)

/-- The effective address, modulo 2^16. -/
def addr : BitVec 16 := (a.port.aguIRs1 + a.port.aguIImm).extractLsb 15 0

/-- The connection to `xf100_ram`. -/
def ramIn : RamIn dataRamAw := Core.dataRamIn (xf100ExuAguRam a.port)

/-- The data RAM after the access. -/
def ramStep (memR : RamMem dataRamDp) (a : Access) : RamMem dataRamDp :=
  xf100RamWrite memR a.ramIn

/-- What the access writes back, `memX` answering a read past the data RAM. -/
def wbckData (memR : RamMem dataRamDp) (memX : BitVec 32) : BitVec 32 :=
  (xf100ExuAguWbck a.port (xf100RamRead memR memX a.ramIn)).aguOWbckData

/-! ## 2. The byte-addressed memory -/

/-- The bytes a store stores, with their addresses. -/
def bytes : List (Nat × BitVec 8) :=
  match a.op with
  | .store o =>
      (List.range o.size).map fun k => (a.addr.toNat + k, a.port.aguIRs2.extractLsb' (8 * k) 8)
  | .load _ => []

/-- **The byte last stored** to an address, by a store of whatever size. -/
def lastByte (pre : List Access) (e : Nat) : Option (BitVec 8) :=
  lastWrite (pre.flatMap bytes) e

/-- A store covers its bytes and no other; a load stores nothing. -/
theorem lastByte_concat (pre : List Access) (a : Access) (e : Nat) :
    lastByte (pre ++ [a]) e =
      match a.op with
      | .store o =>
          if a.addr.toNat ≤ e ∧ e < a.addr.toNat + o.size then
            some (a.port.aguIRs2.extractLsb' (8 * (e - a.addr.toNat)) 8)
          else lastByte pre e
      | .load _ => lastByte pre e := by
  unfold lastByte
  rw [List.flatMap_append, lastWrite_append, List.flatMap_singleton, bytes]
  cases a.op with
  | load o => rfl
  | store o =>
      rw [lastWrite_block]
      simp only
      split <;> rfl

/-- **A load of bytes that have all been stored writes back their value.** -/
def LoadRight (memR : RamMem dataRamDp) (memX : BitVec 32) (pre : List Access) (a : Access) :
    Prop :=
  ∀ o, a.op = .load o → ∀ B : Nat → BitVec 8,
    (∀ k, k < o.size → lastByte pre (a.addr.toNat + k) = some (B k)) →
      a.wbckData memR memX = o.value B

/-! ## 3. What the ports carry -/

section Port

variable {a : Access} {memR : RamMem dataRamDp}

theorem storeOp_of_load {o : LoadOp} (h : a.op = .load o) : storeOp a.port = false := by
  have hsb : sbOp a.port = decide (MemOp.store .sb = a.op) := a.only (.store .sb)
  have hsh : shOp a.port = decide (MemOp.store .sh = a.op) := a.only (.store .sh)
  have hsw : swOp a.port = decide (MemOp.store .sw = a.op) := a.only (.store .sw)
  simp [storeOp, hsb, hsh, hsw, h]

theorem ldBit_of_load {o : LoadOp} (h : a.op = .load o) (o' : LoadOp) :
    ldBit a.port o' = decide (o' = o) := by
  rw [ldBit_eq, a.only, h]
  simp

/-- A load reads the RAM and does not write it. -/
theorem ramIn_of_load {o : LoadOp} (h : a.op = .load o) :
    (a.ramIn.ramCs && !a.ramIn.ramWen) = true ∧ (a.ramIn.ramCs && a.ramIn.ramWen) = false := by
  show (a.port.aguIAguOp && !storeOp a.port) = true ∧ (a.port.aguIAguOp && storeOp a.port) = false
  rw [a.agu_op, storeOp_of_load h]
  exact ⟨rfl, rfl⟩

/-- A store of one or two bytes raises the lowest lane only, one of four all lanes. -/
theorem ramIn_of_store {o : StoreOp} (h : a.op = .store o) :
    (a.ramIn.ramCs && a.ramIn.ramWen) = true ∧
      a.ramIn.ramMask = if o = .sw then 0b1111#4 else 0b0001#4 := by
  have hbit (k : MemOp) : a.port.aguIAguInfo.getLsbD (Decode.aguBit k) =
      decide (k = .store o) := h ▸ a.only k
  have hsb : sbOp a.port = decide (MemOp.store .sb = .store o) := hbit (.store .sb)
  have hsh : shOp a.port = decide (MemOp.store .sh = .store o) := hbit (.store .sh)
  have hsw : swOp a.port = decide (MemOp.store .sw = .store o) := hbit (.store .sw)
  constructor
  · show (a.port.aguIAguOp && storeOp a.port) = true
    rw [a.agu_op, storeOp, hsb, hsh, hsw]
    cases o <;> rfl
  · exact ramMask_store hbit

/-- **A load writes back one bit of the addressed word for each byte.** -/
theorem wbckData_of_load {o : LoadOp} (h : a.op = .load o) (memX : BitVec 32) :
    a.wbckData memR memX = laneData (fun k => (Ram.memAt memR memX a.addr).getLsbD k) o := by
  show aguWbckWdat a.port (xf100RamRead memR memX a.ramIn) = _
  rw [xf100RamRead_lanes memR memX a.ramIn (ramIn_of_load h).1]
  exact aguWbckWdat_lanes (ldBit_of_load h) _

theorem ramStep_of_load {o : LoadOp} (h : a.op = .load o) : ramStep memR a = memR :=
  xf100RamWrite_idle (ramIn_of_load h).2

end Port

/-! ## 4. What a word keeps of its stores -/

/-- A store at exactly the byte address `e`. -/
def storeAt (e : Nat) (a : Access) : Option (StoreOp × BitVec 32) :=
  match a.op with
  | .store o => if a.addr.toNat = e then some (o, a.port.aguIRs2) else none
  | .load _ => none

/-- The stores made at exactly `e`, newest first. -/
def storesAt (e : Nat) (pre : List Access) : List (StoreOp × BitVec 32) :=
  (pre.filterMap (storeAt e)).reverse

/-- **What survives in the lowest byte of a word**: the top byte of an SW, or what an SB or SH
    moved there, which is the low byte of the store before it. -/
def survivor : List (StoreOp × BitVec 32) → Option (BitVec 8)
  | (.sw, v) :: _ => some (v.extractLsb 31 24)
  | _ :: (_, u) :: _ => some (u.extractLsb 7 0)
  | _ => none

/-- The highest byte of a word that held `w0` before its stores. -/
def topByte (w0 : BitVec 32) : List (StoreOp × BitVec 32) → BitVec 8
  | [] => w0.extractLsb 31 24
  | (_, v) :: _ => v.extractLsb 7 0

/-- The lowest byte. -/
def lowByte (w0 : BitVec 32) : List (StoreOp × BitVec 32) → BitVec 8
  | [] => w0.extractLsb 7 0
  | (.sw, v) :: _ => v.extractLsb 31 24
  | _ :: l => topByte w0 l

theorem storesAt_concat (e : Nat) (pre : List Access) (a : Access) :
    storesAt e (pre ++ [a]) = (storeAt e a).toList ++ storesAt e pre := by
  unfold storesAt
  rw [List.filterMap_append, List.reverse_append]
  cases h : storeAt e a <;> simp [h]

/-- **The word at `k` after the accesses `pre`**: its highest and lowest byte. -/
structure WordInv (init : RamMem dataRamDp) (k : Fin dataRamDp) (pre : List Access)
    (memR : RamMem dataRamDp) : Prop where
  top : (memR k).extractLsb 31 24 = topByte (init k) (storesAt k.val pre)
  low : (memR k).extractLsb 7 0 = lowByte (init k) (storesAt k.val pre)

/-- One store at the word turns it round. -/
theorem wordInv_store {init memR : RamMem dataRamDp} {k : Fin dataRamDp} {pre : List Access}
    (h : WordInv init k pre memR) {a : Access} {o : StoreOp} (ho : a.op = .store o)
    (hk : a.addr.toNat = k.val) : WordInv init k (pre ++ [a]) (ramStep memR a) := by
  obtain ⟨hen, hmask⟩ := ramIn_of_store ho
  have hst : storesAt k.val (pre ++ [a]) = (o, a.port.aguIRs2) :: storesAt k.val pre := by
    rw [storesAt_concat, storeAt, ho]
    simp [hk]
  have hlt : a.ramIn.ramAddr.toNat < dataRamDp := by
    show a.addr.toNat < dataRamDp
    rw [hk]
    exact k.isLt
  have hke : (⟨a.ramIn.ramAddr.toNat, hlt⟩ : Fin dataRamDp) = k := Fin.ext hk
  have hw : ramStep memR a k = Ram.wrWord a.ramIn (memR k) := by
    rw [ramStep, xf100RamWrite_hit hen hlt, hke, Function.update_self]
  obtain ⟨h0, -, -, h3⟩ := Ram.wrWord_bytes a.ramIn (memR k)
  rw [← hw, hmask] at h0 h3
  constructor
  · rw [h0, hst]
    cases o <;> rfl
  · rw [h3, hst]
    cases o
    · exact h.top
    · exact h.top
    · rfl

/-- **The bytes of every word, over a run.** -/
theorem wordInv_run (init : RamMem dataRamDp) (k : Fin dataRamDp) (pre : List Access) :
    WordInv init k pre (run ramStep init pre) := by
  refine run_history (I := WordInv init k) ⟨rfl, rfl⟩ (fun pre memR a h => ?_) pre
  cases ho : a.op with
  | load o =>
      have hst : storesAt k.val (pre ++ [a]) = storesAt k.val pre := by
        rw [storesAt_concat, storeAt, ho]
        rfl
      rw [ramStep_of_load ho]
      exact ⟨hst ▸ h.top, hst ▸ h.low⟩
  | store o =>
      by_cases hk : a.addr.toNat = k.val
      · exact wordInv_store h ho hk
      · have hst : storesAt k.val (pre ++ [a]) = storesAt k.val pre := by
          rw [storesAt_concat, storeAt, ho]
          simp [hk]
        have hw : ramStep memR a k = memR k := xf100RamWrite_frame k fun e => hk e.symm
        exact ⟨by rw [hw, hst, h.top], by rw [hw, hst, h.low]⟩

/-! ## 5. When a load is right -/

/-- **What a load is left with**: an address inside the data RAM taken as a word index, a byte that
    survives there, and stored bytes that are no more than the bits of that one. -/
def Survives (pre : List Access) (a : Access) (o : LoadOp) (B : Nat → BitVec 8) : Prop :=
  a.addr.toNat < dataRamDp ∧ ∃ b, survivor (storesAt a.addr.toNat pre) = some b ∧
    ∀ k, k < o.size → B k = lane (b.getLsbD k)

theorem lowByte_of_survivor {l : List (StoreOp × BitVec 32)} {b : BitVec 8}
    (h : survivor l = some b) (w0 : BitVec 32) : lowByte w0 l = b := by
  rcases l with _ | ⟨⟨_ | _ | _, v⟩, l⟩
  · cases h
  · rcases l with _ | ⟨⟨_, u⟩, l⟩
    · cases h
    · exact Option.some.inj h
  · rcases l with _ | ⟨⟨_, u⟩, l⟩
    · cases h
    · exact Option.some.inj h
  · exact Option.some.inj h

/-- With nothing surviving, the lowest byte shows what the RAM held at first. -/
theorem lowByte_of_none {l : List (StoreOp × BitVec 32)} (h : survivor l = none) :
    (lowByte 0#32 l).getLsbD 0 = false ∧ (lowByte (BitVec.allOnes 32) l).getLsbD 0 = true := by
  have htop : (topByte 0#32 []).getLsbD 0 = false ∧
      (topByte (BitVec.allOnes 32) []).getLsbD 0 = true := by decide
  rcases l with _ | ⟨⟨_ | _ | _, v⟩, l⟩
  · decide
  · rcases l with _ | ⟨⟨_, u⟩, l⟩
    · exact htop
    · cases h
  · rcases l with _ | ⟨⟨_, u⟩, l⟩
    · exact htop
    · cases h
  · cases h

theorem lane_ne : lane false ≠ lane true := by decide

/-- **One load is right, whatever the RAM held at first, exactly when its bytes survive.** -/
theorem load_iff (pre : List Access) {a : Access} {o : LoadOp} (ho : a.op = .load o)
    (B : Nat → BitVec 8) :
    (∀ init memX, a.wbckData (run ramStep init pre) memX = o.value B) ↔ Survives pre a o B := by
  have hsize : 0 < o.size := by cases o <;> decide
  have hlow (w : BitVec 32) {k : Nat} (hk : k < 8) :
      w.getLsbD k = (w.extractLsb 7 0).getLsbD k := by
    rw [BitVec.getLsbD_extractLsb, Nat.zero_add]
    simp [-BitVec.getLsbD_eq_getElem, hk]
  simp only [wbckData_of_load ho, laneData_eq_value_iff]
  constructor
  · intro h
    have hin : a.addr.toNat < dataRamDp := by
      by_contra hout
      have h0 := h (fun _ => 0#32) 0#32 0 hsize
      have h1 := h (fun _ => 0#32) (BitVec.allOnes 32) 0 hsize
      rw [Ram.memAt_of_ge _ _ hout] at h0 h1
      exact lane_ne (h0.symm.trans h1)
    have hbit (init : RamMem dataRamDp) {k : Nat} (hk : k < o.size) (hk8 : k < 8) :
        B k = lane ((lowByte (init ⟨_, hin⟩) (storesAt a.addr.toNat pre)).getLsbD k) := by
      rw [h init 0#32 k hk, Ram.memAt_of_lt _ _ hin, hlow _ hk8,
        (wordInv_run init ⟨_, hin⟩ pre).low]
    refine ⟨hin, ?_⟩
    cases hs : survivor (storesAt a.addr.toNat pre) with
    | none =>
        have h0 := hbit (fun _ => 0#32) hsize (by decide)
        have h1 := hbit (fun _ => BitVec.allOnes 32) hsize (by decide)
        obtain ⟨e0, e1⟩ := lowByte_of_none hs
        rw [e0] at h0
        rw [e1] at h1
        exact absurd (h0.symm.trans h1) lane_ne
    | some b =>
        refine ⟨b, rfl, fun k hk => ?_⟩
        have hk8 : k < 8 := by cases o <;> simp only [LoadOp.size] at hk <;> omega
        rw [hbit (fun _ => 0#32) hk hk8, lowByte_of_survivor hs]
  · intro h init memX k hk
    obtain ⟨hin, b, hs, hB⟩ := h
    have hk8 : k < 8 := by cases o <;> simp only [LoadOp.size] at hk <;> omega
    rw [hB k hk, Ram.memAt_of_lt _ _ hin, hlow _ hk8, (wordInv_run init ⟨_, hin⟩ pre).low,
      lowByte_of_survivor hs]

/-- **The data memory over sequences of accesses.** Every load of a sequence is right, whatever
    the RAM held at first, if and only if at every load the bytes survive. -/
theorem dataMemory_iff (l : List Access) :
    (∀ init memX pre a post, l = pre ++ a :: post →
      LoadRight (run ramStep init pre) memX pre a) ↔
    ∀ pre a post, l = pre ++ a :: post → ∀ o, a.op = .load o → ∀ B : Nat → BitVec 8,
      (∀ k, k < o.size → lastByte pre (a.addr.toNat + k) = some (B k)) → Survives pre a o B := by
  constructor
  · intro h pre a post hl o ho B hB
    exact (load_iff pre ho B).mp fun init memX => h init memX pre a post hl o ho B hB
  · intro h init memX pre a post hl o ho B hB
    exact (load_iff pre ho B).mpr (h pre a post hl o ho B hB) init memX

/-- `sw` of 0xFF to address 0, with the operation bit 8 on the bus. -/
def swFF : Access where
  port := ⟨true, 0b100000000#9, 0#32, 0xFF#32, 0#5, 0#32⟩
  op := .store .sw
  agu_op := rfl
  only := by rintro (o | o) <;> cases o <;> rfl
  aligned := rfl

/-- `lb` from address 0, with the operation bit 1 on the bus. -/
def lbZero : Access where
  port := ⟨true, 0b000000010#9, 0#32, 0#32, 1#5, 0#32⟩
  op := .load .lb
  agu_op := rfl
  only := by rintro (o | o) <;> cases o <;> rfl
  aligned := rfl

/-- `sw` of 0xFF, then `lb` from the same address: 0 comes back, not -1. -/
theorem lb_after_sw : ¬ ∀ (l : List Access) (init : RamMem dataRamDp) (memX : BitVec 32) pre a post,
    l = pre ++ a :: post → LoadRight (run ramStep init pre) memX pre a := by
  intro h
  have h1 := h [swFF, lbZero] (fun _ => 0#32) 0#32 [swFF] lbZero [] rfl .lb rfl (fun _ => 0xFF#8)
    (by
      intro k hk
      obtain rfl : k = 0 := by simpa [LoadOp.size] using hk
      decide)
  revert h1
  decide +kernel

end Access

end Agu

end Xf100
