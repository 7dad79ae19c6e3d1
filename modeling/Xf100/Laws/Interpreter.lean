/-
  File:      Xf100/Laws/Interpreter.lean
  Subject:   The core runs words as the interpreter `AsBuilt.exec` does.

  Each table of the interpreter is matched with the wires it stands for (`memTask_eq_some`,
  `isReg_iff`, `isImm_iff_forms`), then each net with what it means: the immediate (`imm_eq`),
  the sources (`src1_eq`, `src2_eq`), the ALU (`result_eq`), a store (`stored_eq`).

  * `step_eq_exec` -- one cycle of the nets is one word executed;
  * `runWords_eq_exec` -- and so over every run, in the two-state model.
-/
import Xf100.AsBuilt
import Xf100.Laws.AluResults
import Xf100.StoreEffect

namespace Xf100

open Rv32i

namespace AsBuilt

variable (w : BitVec 32)

/-! ## 1. The tables and the wires -/

theorem regForm_eq_some (o : AluOp) :
    regForm w = some o ↔ funct3Of w = o.funct3 ∧ funct7Of w = o.funct7 := by
  have hkey : ∀ i ∈ aluOps, ∀ j ∈ aluOps, (i.funct3, i.funct7) = (j.funct3, j.funct7) → i = j := by
    intro i _ j _ h
    obtain ⟨h3, h7⟩ := Prod.ext_iff.mp h
    exact Decode.aluOp_ext h3 h7
  unfold regForm
  rw [Sync.lookup_eq_some_iff hkey (by cases o <;> decide), Prod.ext_iff]
  exact and_congr eq_comm eq_comm

theorem immForm_eq_some (i : ImmOp) : immForm w = some i ↔ funct3Of w = i.aluOp.funct3 := by
  have hkey : ∀ i ∈ immOps, ∀ j ∈ immOps, i.aluOp.funct3 = j.aluOp.funct3 → i = j :=
    fun _ _ _ _ h => Decode.immOp_ext h
  unfold immForm
  rw [Sync.lookup_eq_some_iff hkey (by cases i <;> decide)]
  exact eq_comm

theorem shiftForm_eq_some (i : ShiftOp) : shiftForm w = some i ↔
    funct3Of w = i.aluOp.funct3 ∧ funct7Of w = i.aluOp.funct7 := by
  have hkey : ∀ i ∈ shiftOps, ∀ j ∈ shiftOps, (i.aluOp.funct3, i.aluOp.funct7) =
      (j.aluOp.funct3, j.aluOp.funct7) → i = j := by decide
  unfold shiftForm
  rw [Sync.lookup_eq_some_iff hkey (by cases i <;> decide), Prod.ext_iff]
  exact and_congr eq_comm eq_comm

theorem memTask_eq_some (o : MemOp) :
    memTask w = some o ↔ funct7Of w = o.opcode ∧ funct3Of w = o.funct3 := by
  have hkey : ∀ i ∈ memOps, ∀ j ∈ memOps, (i.opcode, i.funct3) = (j.opcode, j.funct3) → i = j := by
    decide
  unfold memTask
  rw [Sync.lookup_eq_some_iff hkey (by rcases o with o | o <;> cases o <;> decide), Prod.ext_iff]
  exact and_congr eq_comm eq_comm

/-- What an optional entry is not: absent. -/
theorem exists_eq_some_iff {α : Type} (a : Option α) : (∃ o, a = some o) ↔ a ≠ none := by
  cases a <;> simp

theorem isLoad_iff : IsLoad w ↔ Decode.ldOp w = true := by
  rw [Decode.ldOp_iff, Decode.TakenLoad, ← exists_and_left]
  exact exists_congr fun o => memTask_eq_some w (.load o)

theorem isStore_iff : IsStore w ↔ Decode.stOp w = true := by
  rw [Decode.stOp_iff, Decode.TakenStore, ← exists_and_left]
  exact exists_congr fun o => memTask_eq_some w (.store o)

theorem isReg_iff (o : AluOp) :
    Decode.IsReg o w ↔ opcodeOf w = opOpcode ∧ regForm w = some o :=
  and_congr_right fun _ => (regForm_eq_some w o).symm

theorem exists_isReg_iff :
    (∃ o, Decode.IsReg o w) ↔ opcodeOf w = opOpcode ∧ regForm w ≠ none := by
  rw [exists_congr (isReg_iff w), exists_and_left, exists_eq_some_iff]

theorem contiImm12bit_iff_forms : Decode.contiImm12bit w = true ↔
    (opcodeOf w = opImmOpcode ∧ immForm w ≠ none) ∨ IsLoad w := by
  rw [Decode.contiImm12bit_iff, isLoad_iff, ← exists_congr (immForm_eq_some w), exists_eq_some_iff]

theorem aluImm5bit_iff_forms :
    Decode.aluImm5bit w = true ↔ opcodeOf w = opImmOpcode ∧ shiftForm w ≠ none := by
  rw [Decode.aluImm5bit_iff, ← exists_congr (shiftForm_eq_some w), exists_eq_some_iff]

/-- A word without an ALU task is no form of an operation. -/
theorem aluTask_eq_op (o : AluOp) :
    aluTask w = some (.op o) ↔ Decode.IsReg o w ∨ Decode.IsImm o w := by
  have hl : opOpcode ≠ luiOpcode ∧ opImmOpcode ≠ luiOpcode ∧ opImmOpcode ≠ opOpcode := by decide
  obtain ⟨h1, h2, h3⟩ := hl
  rw [isReg_iff]
  unfold aluTask Decode.IsImm
  by_cases hlui : opcodeOf w = luiOpcode
  · rw [if_pos hlui, hlui]
    simp [h1.symm, h2.symm]
  · by_cases hop : opcodeOf w = opOpcode
    · rw [if_neg hlui, if_pos hop, hop]
      simp [h3.symm]
    · by_cases himm : opcodeOf w = opImmOpcode
      · rw [if_neg hlui, if_neg hop, if_pos himm, himm]
        have e1 : (∃ i : ImmOp, i.aluOp = o ∧ funct3Of w = o.funct3) ↔
            ∃ i, immForm w = some i ∧ i.aluOp = o := by
          refine exists_congr fun i => ?_
          rw [immForm_eq_some, and_comm]
          exact and_congr_left fun e => by rw [e]
        have e2 : (∃ i : ShiftOp, i.aluOp = o ∧ funct3Of w = o.funct3 ∧ funct7Of w = o.funct7) ↔
            ∃ i, shiftForm w = some i ∧ i.aluOp = o := by
          refine exists_congr fun i => ?_
          rw [shiftForm_eq_some, and_comm]
          exact and_congr_left fun e => by rw [e]
        have hdisj : ∀ i, immForm w = some i → shiftForm w = none := by
          intro i hi
          by_contra hs
          obtain ⟨j, hj⟩ := (exists_eq_some_iff _).mpr hs
          exact Decode.immOp_ne_shiftOp i j
            (((immForm_eq_some w i).mp hi).symm.trans ((shiftForm_eq_some w j).mp hj).1)
        rw [e1, e2]
        cases hi : immForm w with
        | some i => simp [hdisj i hi, h3]
        | none => simp [h3]
      · rw [if_neg hlui, if_neg hop, if_neg himm]
        simp [hop, himm]

theorem aluTask_eq_lui : aluTask w = some .lui ↔ opcodeOf w = luiOpcode := by
  unfold aluTask
  by_cases hlui : opcodeOf w = luiOpcode
  · rw [if_pos hlui]
    exact iff_of_true rfl hlui
  · rw [if_neg hlui]
    refine iff_of_false ?_ hlui
    split_ifs
    · simp
    · cases immForm w <;> simp
    · simp

/-- **The ALU bus carries the task and nothing else.** -/
theorem onlyOp_aluTask : OnlyOp (Decode.aluInfo w) (match aluTask w with
    | none => 0
    | some (.op o) => Decode.aluBit o
    | some .lui => aluInfoDefLui) := by
  cases h : aluTask w with
  | none =>
      refine Decode.onlyOp_none (fun o ho => ?_) fun hl => ?_
      · rw [← aluTask_eq_op, h] at ho
        cases ho
      · rw [← aluTask_eq_lui, h] at hl
        cases hl
  | some t =>
      cases t with
      | op o => exact Decode.onlyOp_aluInfo ((aluTask_eq_op w o).mp h)
      | lui => exact Decode.onlyOp_lui ((aluTask_eq_lui w).mp h)

/-! ## 2. The immediate -/

/-- **The formats ORed together are the immediate.** -/
theorem imm_eq : imm w = Decode.decImm w := by
  have pick (p : Prop) [Decidable p] (v : BitVec 32) (l : List (BitVec 32)) :
      ((if p then [v] else []) ++ l).foldr (· ||| ·) 0#32 =
        (if p then v else 0#32) ||| l.foldr (· ||| ·) 0#32 := by
    by_cases h : p <;> simp [h]
  have last (p : Prop) [Decidable p] (v : BitVec 32) :
      (if p then [v] else []).foldr (· ||| ·) 0#32 = if p then v else 0#32 := by
    by_cases h : p <;> simp [h]
  unfold imm formats
  rw [List.append_assoc, List.append_assoc, pick, pick, pick, last, Decode.decImm_eq]
  simp only [contiImm12bit_iff_forms, aluImm5bit_iff_forms, ← isStore_iff, BitVec.or_assoc]

theorem formats_eq_nil : formats w = [] ↔ Decode.immEn w = false := by
  have hnil (p : Prop) [Decidable p] (v : BitVec 32) :
      (if p then [v] else []) = ([] : List (BitVec 32)) ↔ ¬ p := by
    by_cases h : p <;> simp [h]
  rw [Bool.eq_false_iff, ne_eq, Decode.immEn_iff, contiImm12bit_iff_forms, aluImm5bit_iff_forms,
    ← isStore_iff]
  unfold formats
  simp only [List.append_eq_nil_iff, hnil, not_or, and_assoc]

/-! ## 3. The sources and the ALU -/

variable (rf : Regfile)

theorem src1_eq : src1 rf w = Exu.rfRs1 rf w := Core.rfRs1_eq.symm

theorem src2_eq : src2 rf w = Exu.rfRs2 rf w := by
  have hen : Decode.rs2En w = true ↔
      rs1Of w ≠ 0#5 ∧ (IsStore w ∨ (opcodeOf w = opOpcode ∧ regForm w ≠ none)) := by
    rw [Decode.rs2En_iff, isStore_iff, exists_isReg_iff]
  unfold src2
  rw [Core.rfRs2_eq]
  simp only [hen]

theorem operand2_eq : operand2 rf w = Alu.aluRs2 (Exu.aluIn rf w) := by
  have h : Alu.aluRs2 (Exu.aluIn rf w) =
      if Decode.immEn w then Decode.decImm w else Exu.rfRs2 rf w := by
    rw [← Decode.aluInfo_hasImm]
    rfl
  rw [h, operand2, imm_eq, src2_eq]
  cases he : Decode.immEn w with
  | true => rw [if_neg (by rw [formats_eq_nil, he]; decide), if_pos rfl]
  | false => rw [if_pos ((formats_eq_nil w).mpr he), if_neg (by decide)]

/-- The shifts have no term in the result. -/
theorem wbckData_shift {i : AluIn} {o : AluOp} (ho : o ∈ [AluOp.sll, .srl, .sra])
    (h : OnlyOp i.aluIAluInfo (Decode.aluBit o)) : Alu.wbckData i = 0#32 := by
  rw [Alu.wbckData_of_onlyOp h]
  simp only [List.mem_cons, List.not_mem_nil, or_false] at ho
  rcases ho with rfl | rfl | rfl <;> simp [Decode.aluBit]

/-- One operation on the bus, as the interpreter computes it. -/
theorem wbckData_op {i : AluIn} {o : AluOp} (h : OnlyOp i.aluIAluInfo (Decode.aluBit o)) :
    Alu.wbckData i = compute (Alu.aluRs1 i) (Alu.aluRs2 i) i.aluIImm (some (.op o)) := by
  cases o with
  | add => exact Alu.wbckData_add h
  | sub => exact Alu.wbckData_sub h
  | sll => exact wbckData_shift (by decide) h
  | slt => exact Alu.wbckData_less (c := .slt) h
  | sltu => exact Alu.wbckData_less (c := .sltu) h
  | xor => exact Alu.wbckData_xor h
  | srl => exact wbckData_shift (by decide) h
  | sra => exact wbckData_shift (by decide) h
  | or => exact Alu.wbckData_or h
  | and => exact Alu.wbckData_and h

/-- **The ALU computes its task.** -/
theorem result_eq : result rf w = Exu.aluData rf w := by
  have hbus := onlyOp_aluTask w
  have h1 : src1 rf w = Alu.aluRs1 (Exu.aluIn rf w) := src1_eq w rf
  unfold result
  rw [h1, operand2_eq, imm_eq]
  show _ = Alu.wbckData (Exu.aluIn rf w)
  cases h : aluTask w with
  | none =>
      rw [h] at hbus
      rw [Alu.wbckData_none (i := Exu.aluIn rf w) hbus]
      rfl
  | some t =>
      cases t with
      | lui =>
          rw [h] at hbus
          rw [Alu.wbckData_lui (i := Exu.aluIn rf w) hbus]
          rfl
      | op o =>
          rw [h] at hbus
          rw [wbckData_op (i := Exu.aluIn rf w) hbus]
          rfl

/-! ## 4. The data RAM -/

variable {w}

/-- The AGU bus of a word with an AGU task carries it alone. -/
theorem aguInfo_of_memTask {o : MemOp} (h : memTask w = some o) (k : MemOp) :
    (Decode.aguInfo w).getLsbD (Decode.aguBit k) = decide (k = o) := by
  rw [Bool.eq_iff_iff, decide_eq_true_eq, Decode.aguInfo_bit, ← memTask_eq_some, h,
    Option.some.injEq]
  exact eq_comm

/-- **The word a store leaves.** -/
theorem stored_eq {o : StoreOp} (h : memTask w = some (.store o)) (s : Core) (old : BitVec 32) :
    Ram.wrWord (Core.ramIn s w) old = stored o (src2 s.rfR w) old := by
  have hmask : (Core.ramIn s w).ramMask = if o = .sw then 0b1111#4 else 0b0001#4 :=
    Agu.ramMask_store (i := Exu.aguIn s.rfR w) (aguInfo_of_memTask h)
  rw [src2_eq]
  unfold Ram.wrWord stored stored.lane
  rw [hmask]
  cases o <;> rfl

/-- **The value a load gets.** -/
theorem loaded_eq (o : LoadOp) (v : BitVec 32) :
    loaded o v = Agu.laneData (fun k => v.getLsbD k) o := by
  rw [Agu.laneData_eq]
  refine LoadOp.value_congr fun k _ => ?_
  show (BitVec.ofBool (v.getLsbD k)).setWidth 8 = Agu.lane (v.getLsbD k)
  cases v.getLsbD k <;> rfl

theorem address_eq (s : Core) (w : BitVec 32) : address s.rfR w = Core.ramIdx s w := by
  rw [Core.ramIdx_eq, address, src1_eq, imm_eq]

/-! ## 5. Steps and runs -/

/-- **One cycle of the nets is one word executed.** -/
theorem step_eq_exec (s : Core) (w x : BitVec 32) : Core.step s (.twoState w x) = exec s w x := by
  unfold exec
  cases h : memTask w with
  | none =>
      have hl : Decode.ldOp w = false := by
        rw [Bool.eq_false_iff, ne_eq, ← isLoad_iff, IsLoad, h]
        simp
      have hs : Decode.stOp w = false := by
        rw [Bool.eq_false_iff, ne_eq, ← isStore_iff, IsStore, h]
        simp
      by_cases hd : rdOf w = 0#5
      · rw [Core.step_idle hl hs hd]
        exact (if_pos hd).symm
      · rw [Core.step_alu hl hs hd, ← result_eq]
        exact (if_neg hd).symm
  | some o =>
      cases o with
      | load o =>
          rw [Core.step_load ((isLoad_iff w).mp ⟨o, h⟩),
            Core.aguData_load ((isLoad_iff w).mp ⟨o, h⟩) ((memTask_eq_some w (.load o)).mp h).2,
            ← loaded_eq, ← result_eq, ← address_eq]
      | store o =>
          have hs : Decode.stOp w = true := (isStore_iff w).mp ⟨o, h⟩
          show _ = Core.mk s.rfR (modifyAt s.memR (address s.rfR w) (stored o (src2 s.rfR w)))
          rw [address_eq]
          unfold modifyAt
          by_cases hidx : (Core.ramIdx s w).toNat < dataRamDp
          · rw [Core.step_store_hit hs hidx, stored_eq h, dif_pos hidx]
          · rw [Core.step_store_past hs hidx, dif_neg hidx]

/-- **The core is the interpreter**: from every state, over every run of words, whatever reads past
    the data RAM answer. -/
theorem runWords_eq_exec (s : Core) (ws : List (BitVec 32 × BitVec 32)) :
    Core.runWords s ws = Sync.run (fun s p => exec s p.1 p.2) s ws := by
  unfold Core.runWords
  congr 1
  funext s p
  exact step_eq_exec s p.1 p.2

/-- `sub x3, x1, x2` on 7 and 5, then `sh x3, 1120(x1)`: one byte is stored, the word turned. -/
example : (exec (exec ⟨fun k => if k = 1 then 7#32 else if k = 2 then 5#32 else 0#32,
      fun _ => 0x44332211#32⟩ (Arith.op .sub 3#5 1#5 2#5).encode 0#32)
    (storeWord .sh 1#5 3#5 1120#12) 0#32).memR 1127 = 0x02223344#32 := by
  decide +kernel

end AsBuilt

end Xf100
