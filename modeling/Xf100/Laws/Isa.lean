/-
  File:      Xf100/Laws/Isa.lean
  Subject:   RV32I on the testbench: which of its instructions can be relied on.

  The testbench gives the core one word after the other; the core knows the ALU operations by
  their opcode and the AGU operations by `funct7`. `Reliable` lists what is right of RV32I under
  these two: the arithmetic of `Safe`, and of the rest only what has nothing to do -- a load or
  AUIPC into x0, FENCE, a branch that is never taken, a jump to the next instruction -- in a
  word that wakes no unit. No store is right, no load into a register, no taken branch. An
  execution is made of live edges with the undriven index at 0, and is over before `$finish`.

  * `inert_of_keeps`, `exec_zeros`, `exec_ones` -- the words without an ALU task, by three
    states that tell them;
  * `reliable_of_rightAt`, `rightAt_of_reliable` -- one instruction;
  * `obeys_iff` -- every execution of the machine over a set of instructions.
-/
import Xf100.Rv32iMachine
import Xf100.Laws.Simulation

namespace Xf100

open Rv32i

/-! ## 1. The data RAM as bytes -/

namespace Ram

/-- Byte `a` of the data RAM: lane `a % 4` of word `a / 4`. -/
def byteAt (memR : RamMem dataRamDp) (a : BitVec 16) : BitVec 8 :=
  (memR ⟨a.toNat / 4, Nat.div_lt_of_lt_mul a.isLt⟩).extractLsb' (8 * (a.toNat % 4)) 8

theorem byteAt_word (memR : RamMem dataRamDp) (j : Fin dataRamDp) {k : Nat} (hk : k < 4) :
    byteAt memR (BitVec.ofNat 16 (4 * j.val + k)) = (memR j).extractLsb' (8 * k) 8 := by
  have hj : j.val < 16384 := j.isLt
  have ha : (BitVec.ofNat 16 (4 * j.val + k)).toNat = 4 * j.val + k := by
    rw [BitVec.toNat_ofNat]
    omega
  have hdiv : (4 * j.val + k) / 4 = j.val := by omega
  have hmod : (4 * j.val + k) % 4 = k := by omega
  simp only [byteAt, ha, hdiv, hmod]

/-- **The bytes are all there is to the contents.** -/
theorem byteAt_inj {memR memR' : RamMem dataRamDp} (h : ∀ a, byteAt memR a = byteAt memR' a) :
    memR = memR' := by
  funext j
  have hbyte (k : Nat) (hk : k < 4) :
      (memR j).extractLsb' (8 * k) 8 = (memR' j).extractLsb' (8 * k) 8 := by
    rw [← byteAt_word memR j hk, ← byteAt_word memR' j hk]
    exact h _
  have hword := LoadOp.value_congr (o := .lw) hbyte
  rwa [LoadOp.value_bytes, LoadOp.value_bytes] at hword

end Ram

/-! ## 2. Words without an ALU task -/

namespace AsBuilt

/-- A word that wakes no unit and names no register. -/
def Inert (w : BitVec 32) : Prop := rdOf w = 0#5 ∧ memTask w = none

instance (w : BitVec 32) : Decidable (Inert w) := inferInstanceAs (Decidable (_ ∧ _))

variable {w : BitVec 32}

theorem exec_inert (h : Inert w) (s : Core) (x : BitVec 32) : exec s w x = s := by
  unfold exec
  rw [h.2]
  exact if_pos h.1

theorem result_none (ht : aluTask w = none) (rf : Regfile) : result rf w = 0#32 := by
  unfold result
  rw [ht]
  rfl

/-- **Such a word that leaves every state alone is inert**: a store turns some word round, a load
    of ones is seen in any register, and a register that is named is cleared. -/
theorem inert_of_keeps (ht : aluTask w = none) (h : ∀ s x, s.rfR 0 = 0#32 → exec s w x = s) :
    Inert w := by
  unfold Inert
  cases hm : memTask w with
  | some o =>
      cases o with
      | store o =>
          have hlui : opcodeOf w ≠ luiOpcode := by
            intro e
            rw [← aluTask_eq_lui, ht] at e
            cases e
          have hk := h (Core.reset fun _ => 0x100#32) 0#32 rfl
          rw [← step_eq_exec] at hk
          exact absurd (congrArg Core.memR hk)
            (Core.store_changes ((isStore_iff w).mp ⟨o, hm⟩) fun hc => hlui hc.1)
      | load o =>
          have hk := h Core.ones (BitVec.allOnes 32) rfl
          rw [← step_eq_exec] at hk
          exact absurd (congrFun (congrArg Core.rfR hk) _)
            (Core.load_changes ((isLoad_iff w).mp ⟨o, hm⟩))
  | none =>
      refine ⟨?_, rfl⟩
      by_contra hd
      have hk := congrArg Core.rfR (h (Core.only (rdOf w) 1#32 0#32) 0#32 (Core.only_zero _ _ _))
      unfold exec at hk
      simp only [hm, if_neg hd, result_none ht] at hk
      have hrd := congrFun hk (rdOf w).toFin
      simp only [Function.update_self] at hrd
      rw [Core.only_rfR _ _ _ hd, if_pos rfl] at hrd
      exact absurd hrd (by decide)

/-- Zeros everywhere stay zeros in the registers. -/
theorem exec_zeros (ht : aluTask w = none) : (exec Core.zeros w 0#32).rfR = fun _ => 0#32 := by
  have hclear : Function.update (fun _ => 0#32 : Regfile) (rdOf w).toFin 0#32 = fun _ => 0#32 :=
    Function.update_eq_self _ _
  unfold exec
  cases memTask w with
  | some o =>
      cases o with
      | store o => rfl
      | load o =>
          have hload : 0#32 ||| loaded o 0#32 = 0#32 := by
            cases o <;> decide
          simp only [result_none ht, Core.memAt_zeros, hload]
          exact hclear
  | none =>
      by_cases hd : rdOf w = 0#5
      · simp only [if_pos hd]
        rfl
      · simp only [if_neg hd, result_none ht]
        exact hclear

/-- Of a RAM full of ones no second lowest bit reaches a register. -/
theorem exec_ones (ht : aluTask w = none) (k : Fin 32) :
    ((exec Core.ones w (BitVec.allOnes 32)).rfR k).getLsbD 1 = false := by
  have hzero : (0#32).getLsbD 1 = false := by decide
  have hupdate (v : BitVec 32) (hv : v.getLsbD 1 = false) :
      (Function.update (fun _ => 0#32 : Regfile) (rdOf w).toFin v k).getLsbD 1 = false := by
    by_cases hk : k = (rdOf w).toFin
    · rw [hk, Function.update_self]
      exact hv
    · rw [Function.update_of_ne hk]
      exact hzero
  unfold exec
  cases memTask w with
  | some o =>
      cases o with
      | store o => exact hzero
      | load o =>
          simp only [result_none ht, Core.memAt_ones]
          refine hupdate _ ?_
          cases o <;> decide
  | none =>
      by_cases hd : rdOf w = 0#5
      · simp only [if_pos hd]
        exact hzero
      · simp only [if_neg hd, result_none ht]
        exact hupdate _ hzero

end AsBuilt

/-! ## 3. The core and the machine -/

namespace Core

/-- The core holds the registers and the bytes of the machine. -/
structure Holds (s : Core) (m : Machine) : Prop where
  regs : ∀ k : BitVec 5, s.rfR k.toFin = m.regs.x k
  mem : ∀ a, Ram.byteAt s.memR a = m.mem a

theorem Holds.entry {s : Core} {m : Machine} (h : Holds s m) : s.rfR 0 = 0#32 :=
  (h.regs 0#5).trans m.regs.x_zero

/-- The machine a core is, with its next instruction at `pc`. -/
def view (s : Core) (h0 : s.rfR (0#5).toFin = 0#32) (pc : BitVec 32) : Machine where
  pc := pc
  regs := s.regs h0
  mem := Ram.byteAt s.memR

theorem Holds.eq_view {s : Core} {m : Machine} (h : Holds s m) : m = view s h.entry m.pc :=
  Machine.ext rfl (Regs.ext (funext fun k => (h.regs k).symm)) (funext fun a => (h.mem a).symm)

/-- **The step for `i` at `pc` is right**: in every state, in registers and bytes, and the next
    instruction is the one behind it. -/
def RightAt (pc : BitVec 32) (i : Base) : Prop :=
  ∀ (s : Core) (h0 : s.rfR (0#5).toFin = 0#32) (x : BitVec 32),
    Holds (step s (.twoState i.encode x)) (i.exec (view s h0 pc)) ∧
      (i.exec (view s h0 pc)).pc = pc + 4#32

/-- **What can be relied on.** -/
def Reliable : Base → Prop
  | .instr (.arith i) => Safe i
  | .instr (.load o rd rs1 imm) => AsBuilt.Inert (loadWord o rd rs1 imm)
  | .instr (.store _ _ _ _) => False
  | .auipc rd imm => AsBuilt.Inert (Base.auipc rd imm).encode
  | .jal rd off => rd = 0#5 ∧ off = 2#20
  | .jalr _ _ _ => False
  | .branch o rs1 rs2 off => AsBuilt.Inert (Base.branch o rs1 rs2 off).encode ∧ Never rs1 rs2 o
  | .fence sets => AsBuilt.Inert (Base.fence sets).encode
where
  /-- The branches that are never taken. -/
  Never (rs1 rs2 : BitVec 5) : BranchOp → Prop
    | .bne | .blt => rs1 = rs2
    | .bltu => rs1 = rs2 ∨ rs2 = 0#5
    | .beq | .bge | .bgeu => False

instance decidableNever (rs1 rs2 : BitVec 5) : (o : BranchOp) → Decidable (Reliable.Never rs1 rs2 o)
  | .bne | .blt => inferInstanceAs (Decidable (_ = _))
  | .bltu => inferInstanceAs (Decidable (_ ∨ _))
  | .beq | .bge | .bgeu => inferInstanceAs (Decidable False)

instance decidableReliable : (i : Base) → Decidable (Reliable i)
  | .instr (.arith i) => inferInstanceAs (Decidable (Safe i))
  | .instr (.load _ _ _ _) => inferInstanceAs (Decidable (AsBuilt.Inert _))
  | .instr (.store _ _ _ _) => inferInstanceAs (Decidable False)
  | .auipc _ _ => inferInstanceAs (Decidable (AsBuilt.Inert _))
  | .jal _ _ => inferInstanceAs (Decidable (_ ∧ _))
  | .jalr _ _ _ => inferInstanceAs (Decidable False)
  | .branch _ _ _ _ => inferInstanceAs (Decidable (_ ∧ _))
  | .fence _ => inferInstanceAs (Decidable (AsBuilt.Inert _))

/-- All but the arithmetic has no ALU task. -/
theorem aluTask_rest {i : Base} (h : ∀ j, i ≠ .instr (.arith j)) :
    AsBuilt.aluTask i.encode = none := by
  have hopc : opcodeOf i.encode ∉ [luiOpcode, opOpcode, opImmOpcode] := by
    cases i with
    | instr i =>
        cases i with
        | arith j => exact absurd rfl (h j)
        | load o rd rs1 imm =>
            show opcodeOf (loadWord o rd rs1 imm) ∉ _
            rw [loadWord, opcodeOf_word]
            decide
        | store o rs1 rs2 imm =>
            show opcodeOf (storeWord o rs1 rs2 imm) ∉ _
            rw [storeWord, opcodeOf_word]
            decide
    | auipc | jal | jalr | branch | fence =>
        rw [Base.encode, opcodeOf_word]
        decide
  simp only [List.mem_cons, List.not_mem_nil, or_false, not_or] at hopc
  unfold AsBuilt.aluTask
  rw [if_neg hopc.1, if_neg hopc.2.1, if_neg hopc.2.2]

/-- One machine is held by one core. -/
theorem Holds.unique {s s' : Core} {m : Machine} (h : Holds s m) (h' : Holds s' m) : s = s' := by
  have hrf : s.rfR = s'.rfR := by
    funext k
    exact (h.regs (BitVec.ofFin k)).trans (h'.regs (BitVec.ofFin k)).symm
  have hmem : s.memR = s'.memR := Ram.byteAt_inj fun a => (h.mem a).trans (h'.mem a).symm
  exact congrArg₂ Core.mk hrf hmem

/-! ## 4. One instruction -/

section Rest

variable {i : Base} {pc : BitVec 32}

/-- **An instruction that only moves the program counter** is right if its word is inert and it moves
    on by 4. -/
theorem rightAt_iff_inert (ht : AsBuilt.aluTask i.encode = none)
    (hkeep : ∀ m : Machine, (i.exec m).regs = m.regs ∧ (i.exec m).mem = m.mem) :
    RightAt pc i ↔ AsBuilt.Inert i.encode ∧
      ∀ (s : Core) (h0 : s.rfR 0 = 0#32), (i.exec (view s h0 pc)).pc = pc + 4#32 := by
  have hview (s : Core) (h0 : s.rfR 0 = 0#32) : Holds s (i.exec (view s h0 pc)) := by
    obtain ⟨hr, hm⟩ := hkeep (view s h0 pc)
    exact ⟨fun k => by rw [hr]; rfl, fun a => by rw [hm]; rfl⟩
  constructor
  · intro h
    refine ⟨AsBuilt.inert_of_keeps ht fun s x h0 => ?_, fun s h0 => (h s h0 0#32).2⟩
    rw [← AsBuilt.step_eq_exec]
    exact (h s h0 x).1.unique (hview s h0)
  · intro h s h0 x
    rw [AsBuilt.step_eq_exec, AsBuilt.exec_inert h.1]
    exact ⟨hview s h0, h.2 s h0⟩

/-- From zeros an instruction without an ALU task has to leave zeros in the registers. -/
theorem regs_of_rightAt (ht : AsBuilt.aluTask i.encode = none) (h : RightAt pc i) (k : BitVec 5) :
    (i.exec (view zeros rfl pc)).regs.x k = 0#32 := by
  have hk := (h zeros rfl 0#32).1.regs k
  rw [AsBuilt.step_eq_exec, AsBuilt.exec_zeros ht] at hk
  exact hk.symm

end Rest

theorem byteAt_ones (a : BitVec 16) : Ram.byteAt (fun _ => BitVec.allOnes 32) a = 0xFF#8 := by
  have hlane : ∀ j : Fin 4, (BitVec.allOnes 32).extractLsb' (8 * j.val) 8 = 0xFF#8 := by decide
  exact hlane ⟨a.toNat % 4, Nat.mod_lt _ (by decide)⟩

/-- A load of ones into a register shows the second lowest bit. -/
theorem not_rightAt_load {o : LoadOp} {rd rs1 : BitVec 5} {imm : BitVec 12} {pc : BitVec 32}
    (hd : rd ≠ 0#5) : ¬ RightAt pc (.instr (.load o rd rs1 imm)) := by
  intro h
  have hk := (h ones rfl (BitVec.allOnes 32)).1.regs rd
  have hcore := AsBuilt.exec_ones (aluTask_rest (i := .instr (.load o rd rs1 imm)) (by simp)) rd.toFin
  rw [← AsBuilt.step_eq_exec, hk] at hcore
  have hbytes : (view ones rfl pc).bytesAt ((view ones rfl pc).dataAddr rs1 imm) = fun _ => 0xFF#8 :=
    funext fun k => byteAt_ones _
  have hsize : 0 < o.size := by
    cases o <;> decide
  have hbit := o.getLsbD_value (fun _ => 0xFF#8) hsize (show 1 < 8 by decide)
  simp only [Base.exec, Instr.exec, Machine.next, Regs.set_self _ hd, hbytes] at hcore
  rw [Nat.mul_zero, Nat.zero_add, hcore] at hbit
  exact absurd hbit (by decide)

/-- The immediate of a store the decoder takes for one. -/
theorem decImm_store {o : StoreOp} {rs1 rs2 : BitVec 5} {imm : BitVec 12}
    (hs : Decode.stOp (storeWord o rs1 rs2 imm) = true) :
    Decode.decImm (storeWord o rs1 rs2 imm) = imm.signExtend 32 := by
  have hopc : opcodeOf (storeWord o rs1 rs2 imm) = storeOpcode := opcodeOf_word _ _ _ _ _ _
  have hlui : opcodeOf (storeWord o rs1 rs2 imm) ≠ luiOpcode := by
    rw [hopc]
    decide
  have himm : opcodeOf (storeWord o rs1 rs2 imm) ≠ opImmOpcode := by
    rw [hopc]
    decide
  have hsimm : Decode.sImm (storeWord o rs1 rs2 imm) = imm.signExtend 32 := by
    unfold Decode.sImm storeWord
    rw [funct7Of_word, rdOf_word, imm12_join]
  rw [Decode.decImm_eq, if_neg hlui, Decode.contiImm12bit_eq himm, Decode.ldOp_of_stOp _ hs, hs,
    if_neg Bool.false_ne_true, if_pos rfl, if_neg (Decode.aluImm5bit_ne himm), hsimm,
    BitVec.or_zero, BitVec.zero_or, BitVec.zero_or]

/-- Over ones, with zeros in the registers, a store never changes the word its byte lies in: if the
    core writes, it writes the word whose index is the address, and that is a later one. -/
theorem store_misses {o : StoreOp} {rs1 rs2 : BitVec 5} {imm : BitVec 12} {a : BitVec 16}
    (ha : a = (imm.signExtend 32).setWidth 16) {j : Fin dataRamDp} (hj : j.val = a.toNat / 4)
    (x : BitVec 32) :
    (step ones (.twoState (storeWord o rs1 rs2 imm) x)).memR j = BitVec.allOnes 32 := by
  cases hs : Decode.stOp (storeWord o rs1 rs2 imm) with
  | false => exact congrFun (step_memR_of_not_stOp (c := .twoState _ x) hs) j
  | true =>
      have hidx : ramIdx ones (storeWord o rs1 rs2 imm) = a := by
        unfold ones
        rw [ramIdx_reset, decImm_store hs, ha]
        exact (BitVec.setWidth_eq_extractLsb' (by decide)).symm
      have hbit : a.getLsbD 5 = true := by
        have h7 := ((Decode.stOp_iff _).mp hs).1
        rw [storeWord, funct7Of_word] at h7
        have h5 := congrArg (fun v => BitVec.getLsbD v 0) h7
        rw [ha]
        simpa [-BitVec.getLsbD_eq_getElem, BitVec.getLsbD_signExtend, storeOpcode] using h5
      have hne : a.toNat ≠ 0 := by
        intro h0
        rw [BitVec.getLsbD, h0, Nat.zero_testBit] at hbit
        cases hbit
      by_cases hin : (ramIdx ones (storeWord o rs1 rs2 imm)).toNat < dataRamDp
      · rw [step_store_hit hs hin]
        refine Function.update_of_ne (fun e => ?_) _ _
        have hval := congrArg Fin.val e
        simp only [hidx, hj] at hval
        omega
      · rw [step_store_past hs hin]
        rfl

/-- **No store is right**: a 0 stored over ones does not arrive. -/
theorem not_rightAt_store {o : StoreOp} {rs1 rs2 : BitVec 5} {imm : BitVec 12} {pc : BitVec 32} :
    ¬ RightAt pc (.instr (.store o rs1 rs2 imm)) := by
  intro h
  obtain ⟨a, ha⟩ : ∃ a, a = (imm.signExtend 32).setWidth 16 := ⟨_, rfl⟩
  have hsize : 0 < o.size := by
    cases o <;> decide
  have hkept : Ram.byteAt (step ones (.twoState (storeWord o rs1 rs2 imm) 0#32)).memR a = 0xFF#8 := by
    unfold Ram.byteAt
    rw [store_misses ha rfl]
    exact byteAt_ones a
  have haddr : (view ones rfl pc).dataAddr rs1 imm = a := by
    rw [ha, ← BitVec.zero_add (imm.signExtend 32)]
    rfl
  have hstored : ((Base.instr (.store o rs1 rs2 imm)).exec
      (view ones rfl pc)).mem a = 0#8 := by
    show Machine.storeAt _ (Machine.dataAddr _ rs1 imm) o.size 0#32 a = 0#8
    rw [haddr, Machine.storeAt_self _ a hsize]
    rfl
  have hmem := (h ones rfl 0#32).1.mem a
  exact absurd (hkept.symm.trans (hmem.trans hstored)) (by decide)

section Branch

variable {o : BranchOp} {rs1 rs2 : BitVec 5}

/-- Two registers of which the first is not x0 can hold any value and 0. -/
theorem taken_first (h : ∀ (s : Core) (h0 : s.rfR 0 = 0#32),
      o.taken ((s.regs h0).x rs1) ((s.regs h0).x rs2) = false)
    (hne : rs1 ≠ rs2) (h1 : rs1 ≠ 0#5) (v : BitVec 32) : o.taken v 0#32 = false := by
  have hv := h (only rs1 v 0#32) (only_zero _ _ _)
  rwa [only_regs, only_regs, if_neg h1, if_pos rfl, if_neg hne.symm, ite_self] at hv

theorem taken_second (h : ∀ (s : Core) (h0 : s.rfR 0 = 0#32),
      o.taken ((s.regs h0).x rs1) ((s.regs h0).x rs2) = false)
    (hne : rs1 ≠ rs2) (h2 : rs2 ≠ 0#5) (v : BitVec 32) : o.taken 0#32 v = false := by
  have hv := h (only rs2 v 0#32) (only_zero _ _ _)
  rwa [only_regs, only_regs, if_neg h2, if_pos rfl, if_neg hne, ite_self] at hv

/-- **The branches that no state takes.** -/
theorem never_iff (o : BranchOp) (rs1 rs2 : BitVec 5) :
    (∀ (s : Core) (h0 : s.rfR 0 = 0#32),
      o.taken ((s.regs h0).x rs1) ((s.regs h0).x rs2) = false) ↔ Reliable.Never rs1 rs2 o := by
  cases o with
  | beq | bge | bgeu =>
      refine iff_of_false (fun h => ?_) id
      have hz : BranchOp.taken 0#32 0#32 _ = false := h zeros rfl
      exact absurd hz (by decide)
  | bne =>
      refine ⟨fun h => ?_, fun e s h0 => ?_⟩
      · by_contra hne
        by_cases h1 : rs1 = 0#5
        · exact absurd (taken_second h hne (fun h2 => hne (h1.trans h2.symm)) 1#32) (by decide)
        · exact absurd (taken_first h hne h1 1#32) (by decide)
      · rw [show rs1 = rs2 from e]
        exact bne_self_eq_false _
  | blt =>
      refine ⟨fun h => ?_, fun e s h0 => ?_⟩
      · by_contra hne
        by_cases h1 : rs1 = 0#5
        · exact absurd (taken_second h hne (fun h2 => hne (h1.trans h2.symm)) 1#32) (by decide)
        · exact absurd (taken_first h hne h1 (BitVec.allOnes 32)) (by decide)
      · rw [show rs1 = rs2 from e]
        exact decide_eq_false (lt_irrefl _)
  | bltu =>
      refine ⟨fun h => ?_, fun e s h0 => ?_⟩
      · by_contra hne
        obtain ⟨hne, h2⟩ := not_or.mp hne
        exact absurd (taken_second h hne h2 1#32) (by decide)
      · rcases e with e | e
        · rw [e]
          exact decide_eq_false (lt_irrefl _)
        · rw [e, Regs.x_zero]
          exact decide_eq_false (Nat.not_lt_zero ((s.regs h0).x rs1).toNat)

end Branch

/-- The offset of the next instruction. -/
theorem jumpOffset_eq_four {off : BitVec 20} (h : jumpOffset off = 4#32) : off = 2#20 :=
  (BitVec.append_left_inj 0#1).mp
    (Sync.eq_of_signExtend_eq (b := 2#20 ++ 0#1) (m := 32) (by decide) h)

theorem branchOffset_eq_four {off : BitVec 12} (h : branchOffset off = 4#32) : off = 2#12 :=
  (BitVec.append_left_inj 0#1).mp
    (Sync.eq_of_signExtend_eq (b := 2#12 ++ 0#1) (m := 32) (by decide) h)

/-- The arithmetic is as it was: the program counter moves on and the bytes are the words. -/
theorem rightAt_arith_iff (i : Rv32i.Arith) (pc : BitVec 32) :
    RightAt pc (.instr (.arith i)) ↔ Safe i := by
  rw [← follows_iff_safe]
  constructor
  · intro h s h0 x
    exact ⟨(h s h0 x).1.regs, Ram.byteAt_inj (h s h0 x).1.mem⟩
  · intro h s h0 x
    refine ⟨⟨(h s h0 x).regs, fun a => ?_⟩, rfl⟩
    exact congrArg (Ram.byteAt · a) (h s h0 x).memR

theorem exec_branch_keeps {o : BranchOp} {rs1 rs2 : BitVec 5} {off : BitVec 12} (m : Machine) :
    ((Base.branch o rs1 rs2 off).exec m).regs = m.regs ∧
      ((Base.branch o rs1 rs2 off).exec m).mem = m.mem := by
  simp only [Base.exec]
  split <;> exact ⟨rfl, rfl⟩

/-- **What is right at two places can be relied on.** -/
theorem reliable_of_rightAt {i : Base} (h0 : RightAt 0#32 i) (h4 : RightAt 4#32 i) :
    Reliable i := by
  cases i with
  | instr i =>
      cases i with
      | arith i => exact (rightAt_arith_iff i 0#32).mp h0
      | store => exact absurd h0 not_rightAt_store
      | load o rd rs1 imm =>
          have hd : rd = 0#5 := by
            by_contra hd
            exact not_rightAt_load hd h0
          exact ((rightAt_iff_inert (aluTask_rest (by simp))
            fun m => ⟨by rw [hd]; exact Regs.set_zero _ _, rfl⟩).mp h0).1
  | auipc rd imm =>
      have ht : AsBuilt.aluTask (Base.auipc rd imm).encode = none := aluTask_rest (by simp)
      have hd : rd = 0#5 := by
        by_contra hd
        have hk0 := (Regs.set_self _ hd _).symm.trans (regs_of_rightAt ht h0 rd)
        have hk4 := (Regs.set_self _ hd _).symm.trans (regs_of_rightAt ht h4 rd)
        have hpc : 0#32 + (imm ++ 0#12) = 4#32 + (imm ++ 0#12) := hk0.trans hk4.symm
        exact absurd (add_right_cancel hpc) (by decide)
      exact ((rightAt_iff_inert ht
        fun m => ⟨by rw [hd]; exact Regs.set_zero _ _, rfl⟩).mp h0).1
  | jal rd off =>
      have ht : AsBuilt.aluTask (Base.jal rd off).encode = none := aluTask_rest (by simp)
      refine ⟨?_, jumpOffset_eq_four ?_⟩
      · by_contra hd
        have hk := (Regs.set_self _ hd _).symm.trans (regs_of_rightAt ht h0 rd)
        exact absurd hk (by decide)
      · exact (BitVec.zero_add _).symm.trans (h0 zeros rfl 0#32).2
  | jalr rd rs1 imm =>
      have hk0 := (h0 zeros rfl 0#32).2
      have hk4 := (h4 zeros rfl 0#32).2
      have hpc : (0#32 : BitVec 32) + 4#32 = 4#32 + 4#32 := hk0.symm.trans hk4
      exact absurd hpc (by decide)
  | branch o rs1 rs2 off =>
      obtain ⟨hin, hpc⟩ := (rightAt_iff_inert (aluTask_rest (by simp)) exec_branch_keeps).mp h0
      refine ⟨hin, (never_iff o rs1 rs2).mp fun s hs => ?_⟩
      by_contra ht
      have hgo := hpc s hs
      unfold Base.exec at hgo
      simp only [view, (Bool.not_eq_false _).mp ht, if_true, BitVec.zero_add] at hgo
      -- a branch to the next instruction names x4 in its rd field
      have hrd := hin.1
      rw [branchOffset_eq_four hgo, Base.encode, rdOf_word] at hrd
      exact absurd hrd (by decide)
  | fence sets =>
      exact ((rightAt_iff_inert (aluTask_rest (by simp)) fun m => ⟨rfl, rfl⟩).mp h0).1

/-- **What can be relied on is right everywhere.** -/
theorem rightAt_of_reliable {i : Base} (h : Reliable i) (pc : BitVec 32) : RightAt pc i := by
  cases i with
  | instr i =>
      cases i with
      | arith i => exact (rightAt_arith_iff i pc).mpr h
      | store => exact h.elim
      | load o rd rs1 imm =>
          have hin : AsBuilt.Inert (loadWord o rd rs1 imm) := h
          have hd : rd = 0#5 := (rdOf_word _ _ _ _ _ _).symm.trans hin.1
          exact (rightAt_iff_inert (aluTask_rest (by simp))
            fun m => ⟨by rw [hd]; exact Regs.set_zero _ _, rfl⟩).mpr ⟨hin, fun _ _ => rfl⟩
  | auipc rd imm =>
      have hin : AsBuilt.Inert (Base.auipc rd imm).encode := h
      have hd : rd = 0#5 := (rdOf_word _ _ _ _ _ _).symm.trans hin.1
      exact (rightAt_iff_inert (aluTask_rest (by simp))
        fun m => ⟨by rw [hd]; exact Regs.set_zero _ _, rfl⟩).mpr ⟨hin, fun _ _ => rfl⟩
  | jal rd off =>
      obtain ⟨rfl, rfl⟩ := h
      exact (rightAt_iff_inert (i := .jal 0#5 2#20) (aluTask_rest (by simp))
        fun m => ⟨Regs.set_zero _ _, rfl⟩).mpr ⟨by decide, fun _ _ => rfl⟩
  | jalr => exact h.elim
  | branch o rs1 rs2 off =>
      refine (rightAt_iff_inert (aluTask_rest (by simp)) exec_branch_keeps).mpr
        ⟨h.1, fun s h0 => ?_⟩
      have ht := (never_iff o rs1 rs2).mpr h.2 s h0
      unfold Base.exec
      simp only [view, ht]
      rfl
  | fence sets =>
      exact (rightAt_iff_inert (aluTask_rest (by simp))
        fun m => ⟨rfl, rfl⟩).mpr ⟨h, fun _ _ => rfl⟩

end Core

/-! ## 5. Executions -/

namespace Tb

/-- The testbench holds the machine: its address register is the program counter. -/
structure Holds (t : Tb) (m : Machine) : Prop where
  pc : t.addr = m.pc
  core : t.core.Holds m

/-- The word at `a` is `w`, whatever the bytes past the instruction memory. -/
def Fetches (mem : InstMem) (a w : BitVec 32) : Prop := ∀ x, TbMemInit.instr mem x a = w

/-- **An execution of the machine**: each instruction is the one at the program counter. -/
inductive Executes (mem : InstMem) : Machine → List Base → Machine → Prop where
  | done (m : Machine) : Executes mem m [] m
  | next {m m' : Machine} {i : Base} {p : List Base} (hf : Fetches mem m.pc i.encode)
      (h : Executes mem (i.exec m) p m') : Executes mem m (i :: p) m'

/-- An edge outside reset, the undriven index being 0. -/
def Live (c : TbCycle) : Prop := c.sysRstN = true ∧ c.aguWbckIdx = 0#5

/-- **The testbench obeys the instruction set over `S`**: from any state, every execution by
    instructions of `S` that is over before `$finish` is what the testbench does. -/
def Obeys (S : Set Base) : Prop :=
  ∀ (mem : InstMem) (t : Tb) (m m' : Machine) (p : List Base) (l : List TbCycle),
    t.finished = false → Holds t m → Executes mem m p m' → (∀ i ∈ p, i ∈ S) →
    (∀ c ∈ l, Live c) → l.length = p.length → t.cycleCnt.toNat + p.length ≤ haltAt + 1 →
    Holds (Sync.run (step mem) t l) m'

theorem step_live (mem : InstMem) {t : Tb} (ht : t.finished = false) {c : TbCycle} (hc : Live c) :
    step mem t c = ⟨t.addr + 4#32, t.cycleCnt + 1#32,
      Core.step t.core (.twoState (TbMemInit.instr mem c.instX t.addr) c.memX),
      t.cycleCnt == 0x800#32⟩ := by
  have haddr : addrNow t c = t.addr := if_pos hc.1
  have hcnt : cycleCntNow t c = t.cycleCnt := if_pos hc.1
  have hcore : coreCycle mem t c = .twoState (TbMemInit.instr mem c.instX t.addr) c.memX := by
    unfold coreCycle ifuInstr ifuOInstr
    rw [haddr, hc.1, hc.2]
    rfl
  unfold step TbMemInit.addrNext cycleCntNext
  rw [ht, haddr, hcnt, hcore, hc.1]
  rfl

/-- **One edge is one instruction**, if that can be relied on. -/
theorem holds_step {mem : InstMem} {t : Tb} {m : Machine} {i : Base} (ht : t.finished = false)
    (h : Holds t m) (hi : Core.Reliable i) (hf : Fetches mem m.pc i.encode) {c : TbCycle}
    (hc : Live c) : Holds (step mem t c) (i.exec m) := by
  have hright := Core.rightAt_of_reliable hi m.pc t.core h.core.entry c.memX
  rw [← h.core.eq_view] at hright
  rw [step_live mem ht hc, h.pc, hf c.instX]
  exact ⟨hright.2.symm, hright.1⟩

theorem holds_run {mem : InstMem} {m m' : Machine} {p : List Base} (h : Executes mem m p m')
    (hp : ∀ i ∈ p, Core.Reliable i) {t : Tb} (ht : p ≠ [] → t.finished = false) (hm : Holds t m)
    {l : List TbCycle} (hl : ∀ c ∈ l, Live c) (hlen : l.length = p.length)
    (hcnt : t.cycleCnt.toNat + p.length ≤ haltAt + 1) : Holds (Sync.run (step mem) t l) m' := by
  induction h generalizing t l with
  | done m =>
      rw [List.length_eq_zero_iff.mp hlen]
      exact hm
  | @next m m' i p hf h ih =>
      obtain ⟨c, l, rfl⟩ := List.exists_cons_of_length_eq_add_one hlen
      have hc := hl c List.mem_cons_self
      have ht := ht (List.cons_ne_nil _ _)
      have hhalt : haltAt = 2048 := rfl
      rw [List.length_cons] at hcnt
      rw [Sync.run_cons]
      refine ih (fun j hj => hp j (List.mem_cons_of_mem _ hj)) (fun hne => ?_)
        (holds_step ht hm (hp i List.mem_cons_self) hf hc)
        (fun d hd => hl d (List.mem_cons_of_mem _ hd)) (Nat.succ.inj hlen) ?_
      · -- an instruction is left: the counter has not reached its limit
        have hpos := List.length_pos_iff.mpr hne
        rw [step_live mem ht hc]
        refine beq_eq_false_iff_ne.mpr fun e => ?_
        rw [e] at hcnt
        have hlim : (0x800#32).toNat = 2048 := rfl
        omega
      · rw [step_live mem ht hc]
        show (t.cycleCnt + 1#32).toNat + p.length ≤ haltAt + 1
        rw [BitVec.toNat_add]
        have hone : (1#32).toNat = 1 := rfl
        omega

/-- A word fetched at either of the first two places. -/
theorem fetches_image (w : BitVec 32) {k : Nat} (hk : k < 2) :
    Fetches (image [w, w]) (BitVec.ofNat 32 (4 * k)) w := by
  intro x
  have hdp : instMemDp = 16384 := rfl
  rw [TbMemInit.instr_wordAt _ _ (by omega), wordAt_image _ (by omega)]
  obtain rfl | rfl : k = 0 ∨ k = 1 := by omega
  · rfl
  · rfl

/-- **Which instructions of RV32I can be relied on.** The testbench obeys the instruction set over a
    set of instructions if and only if every one of them is reliable. -/
theorem obeys_iff (S : Set Base) : Obeys S ↔ ∀ i ∈ S, Core.Reliable i := by
  constructor
  · intro h i hi
    have hat {k : Nat} (hk : k < 2) : Core.RightAt (BitVec.ofNat 32 (4 * k)) i := by
      intro s h0 x
      have hf := fetches_image i.encode hk
      have hrun := h (image [i.encode, i.encode]) ⟨BitVec.ofNat 32 (4 * k), 0#32, s, false⟩
        (Core.view s h0 (BitVec.ofNat 32 (4 * k))) _ [i] [⟨true, 0#32, 0#5, x⟩] rfl
        ⟨rfl, fun _ => rfl, fun _ => rfl⟩ (.next hf (.done _)) (by simpa using hi)
        (by simp [Live]) rfl (show 0 + 1 ≤ haltAt + 1 by decide)
      rw [Sync.run_cons, step_live _ rfl ⟨rfl, rfl⟩, hf] at hrun
      exact ⟨hrun.core, hrun.pc.symm⟩
    exact Core.reliable_of_rightAt (hat (k := 0) (by decide)) (hat (k := 1) (by decide))
  · intro h mem t m m' p l ht hm hex hp hl hlen hcnt
    exact holds_run hex (fun i hi => h i (hp i hi)) (fun _ => ht) hm hl hlen hcnt

/-- `fence or, rw` is taken for a load into x0, `fence iorw, iorw` for nothing. -/
example : ¬ Core.Reliable (.fence 0x063#12) ∧ Core.Reliable (.fence 0x0FF#12) := by decide

end Tb

end Xf100
