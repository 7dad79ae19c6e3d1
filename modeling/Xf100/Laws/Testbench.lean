/-
  File:      Xf100/Laws/Testbench.lean
  Subject:   The testbench steps a program counter through the instruction memory.

  The purpose of the testbench is `Prog`: it executes the words of the memory one after the
  other, starts over at a reset, and halts when 2049 have been executed in a row. The byte
  address and the cycle counter of the source are that position in two forms, and the halt
  comes before either can leave its range.

  * `run_matches` -- over every history from a reset on, with every undefined value, the
    testbench is in step with `Prog`;
  * `finished_iff` -- `$finish` has been called exactly when somewhere 2049 edges in a row were
    not reset edges.
-/
import Xf100.Tb
import Xf100.Sync.Streak

namespace Xf100

/-! ## 1. A program counter -/

/-- Word `k` of the instruction memory, lowest byte first; past the memory there is none. -/
def wordAt (mem : InstMem) (k : Nat) : BitVec 32 :=
  byteAt (4 * k + 3) ++ byteAt (4 * k + 2) ++ byteAt (4 * k + 1) ++ byteAt (4 * k)
where
  byteAt (a : Nat) : BitVec 8 := if h : a < instMemDp then mem ⟨a, h⟩ else 0#8

/-- The words executed before the halt. -/
abbrev haltAt : Nat := 0x800

/-- **What the testbench is for**: the position in the program, the core, and the halt. -/
structure Prog where
  pos : Nat
  core : Core
  halted : Bool

namespace Prog

variable (mem : InstMem)

/-- The cycle of the core: the word at the position, or word 0 under reset. -/
def cycle (p : Prog) (c : TbCycle) : Cycle where
  exuIInstr := wordAt mem (if c.sysRstN then p.pos else 0)
  rstN := c.sysRstN
  aguWbckIdx := c.aguWbckIdx
  memX := c.memX

def step (p : Prog) (c : TbCycle) : Prog :=
  if p.halted then p
  else
    { pos := if c.sysRstN then p.pos + 1 else 0
      core := Core.step p.core (cycle mem p c)
      halted := c.sysRstN && decide (p.pos = haltAt) }

end Prog

/-! ## 2. The fetch -/

namespace TbMemInit

/-- **A fetch inside the memory** gets the word there, whatever a fetch past it would get. -/
theorem instr_wordAt (mem : InstMem) (instX : BitVec 32) {k : Nat} (hk : 4 * k + 3 < instMemDp) :
    instr mem instX (BitVec.ofNat 32 (4 * k)) = wordAt mem k := by
  have hbyte (x : BitVec 8) (j : Nat) (hj : j ≤ 3) :
      memAt mem x (BitVec.ofNat 32 (4 * k) + BitVec.ofNat 32 j) =
        wordAt.byteAt mem (4 * k + j) := by
    have hlt : 4 * k + j < instMemDp := by omega
    have ha : (BitVec.ofNat 32 (4 * k) + BitVec.ofNat 32 j).toNat = 4 * k + j := by
      have hdp : instMemDp = 16384 := rfl
      rw [← BitVec.ofNat_add, BitVec.toNat_ofNat]
      exact Nat.mod_eq_of_lt (by omega)
    unfold memAt wordAt.byteAt
    simp only [ha, hlt, dif_pos]
  have h0 := hbyte (instX.extractLsb 7 0) 0 (by omega)
  rw [show BitVec.ofNat 32 0 = 0#32 from rfl, BitVec.add_zero, Nat.add_zero] at h0
  unfold instr
  rw [h0, hbyte _ 1 (by omega), hbyte _ 2 (by omega), hbyte _ 3 (by omega)]
  rfl

end TbMemInit

/-! ## 3. In step -/

namespace Tb

variable (mem : InstMem)

/-- **The testbench and the program counter in step.** -/
structure Matches (t : Tb) (p : Prog) : Prop where
  finished : t.finished = p.halted
  core : t.core = p.core
  addr : p.halted = false → t.addr = BitVec.ofNat 32 (4 * p.pos)
  cycleCnt : p.halted = false → t.cycleCnt = BitVec.ofNat 32 p.pos
  pos : p.halted = false → p.pos ≤ haltAt

/-- A reset edge brings any running testbench in step. -/
theorem matches_reset {t : Tb} (ht : t.finished = false) {c : TbCycle} (hc : c.sysRstN = false)
    (pos : Nat) : Matches (step mem t c) (Prog.step mem ⟨pos, t.core, false⟩ c) := by
  have hword : ifuInstr mem t c = wordAt mem 0 := by
    unfold ifuInstr ifuOInstr addrNow TbMemInit.addrNext
    rw [hc]
    exact TbMemInit.instr_wordAt mem c.instX (k := 0) (by decide)
  have hcycle : coreCycle mem t c = Prog.cycle mem ⟨pos, t.core, false⟩ c := by
    unfold coreCycle Prog.cycle
    rw [hword, hc]
    rfl
  unfold step Prog.step
  rw [ht, hcycle]
  simp only [cycleCntNow, addrNow, TbMemInit.addrNext, cycleCntNext, hc]
  constructor
  case finished => rfl
  case core => rfl
  case addr =>
    intro _
    rfl
  case cycleCnt =>
    intro _
    rfl
  case pos =>
    intro _
    exact Nat.zero_le _

/-- In step with the program counter, the fetch stays inside the instruction memory. -/
theorem ifuInstr_matches {t : Tb} {p : Prog} (h : Matches t p)
    (ht : t.finished = false) (c : TbCycle) :
    ifuInstr mem t c = wordAt mem (if c.sysRstN then p.pos else 0) := by
  have hp : p.halted = false := h.finished.symm.trans ht
  have hpos : p.pos ≤ 2048 := h.pos hp
  unfold ifuInstr ifuOInstr addrNow TbMemInit.addrNext
  cases c.sysRstN with
  | false => exact TbMemInit.instr_wordAt mem c.instX (k := 0) (by decide)
  | true =>
      rw [if_pos rfl, if_pos rfl, h.addr hp]
      exact TbMemInit.instr_wordAt mem c.instX (show 4 * p.pos + 3 < 16384 by omega)

/-- **Every edge keeps them in step.** -/
theorem matches_step {t : Tb} {p : Prog} (h : Matches t p) (c : TbCycle) :
    Matches (step mem t c) (Prog.step mem p c) := by
  cases hp : p.halted with
  | true =>
      have ht : t.finished = true := h.finished.trans hp
      unfold step Prog.step
      rw [ht, hp]
      exact h
  | false =>
      have ht : t.finished = false := h.finished.trans hp
      cases hc : c.sysRstN with
      | false =>
          have hr := matches_reset mem ht hc p.pos
          have he : p = ⟨p.pos, t.core, false⟩ := by rw [h.core, ← hp]
          rw [← he] at hr
          exact hr
      | true =>
          have hpos := h.pos hp
          have hle : haltAt = 2048 := rfl
          have hcycle : coreCycle mem t c = Prog.cycle mem p c := by
            unfold coreCycle Prog.cycle
            rw [ifuInstr_matches mem h ht]
          unfold step Prog.step
          rw [ht, hp, hcycle, h.core]
          simp only [cycleCntNow, addrNow, TbMemInit.addrNext, cycleCntNext, hc, h.addr hp,
            h.cycleCnt hp]
          constructor
          case finished =>
            show (BitVec.ofNat 32 p.pos == 0x800#32) = (true && decide (p.pos = haltAt))
            rw [Bool.true_and, Bool.eq_iff_iff, beq_iff_eq, decide_eq_true_eq,
              ← BitVec.toNat_inj, BitVec.toNat_ofNat, BitVec.toNat_ofNat]
            omega
          case core => rfl
          case addr =>
            intro _
            show BitVec.ofNat 32 (4 * p.pos) + 4#32 = BitVec.ofNat 32 (4 * (p.pos + 1))
            rw [Nat.mul_add, BitVec.ofNat_add]
          case cycleCnt =>
            intro _
            show BitVec.ofNat 32 p.pos + 1#32 = BitVec.ofNat 32 (p.pos + 1)
            rw [BitVec.ofNat_add]
          case pos =>
            intro hn
            have hne : p.pos ≠ haltAt := by
              intro e
              simp [e] at hn
            show p.pos + 1 ≤ haltAt
            omega

/-- And so does every run. -/
theorem matches_run {t : Tb} {p : Prog} (h : Matches t p) (l : List TbCycle) :
    Matches (Sync.run (step mem) t l) (Sync.run (Prog.step mem) p l) := by
  have hstep : ∀ t p (c : TbCycle), Matches t p → True →
      Matches (step mem t c) (Prog.step mem p (id c)) := fun t p c h _ => matches_step mem h c
  have hrel := Sync.run_rel hstep h (l := l) fun _ _ => trivial
  rw [List.map_id] at hrel
  exact hrel

/-- **In step over every history that starts with a reset**, whatever was stored before it and
    whatever is undefined. -/
theorem run_matches (t : Tb) (ht : t.finished = false) (c₀ : TbCycle) (h₀ : c₀.sysRstN = false)
    (l : List TbCycle) : Matches (Sync.run (step mem) t (c₀ :: l))
      (Sync.run (Prog.step mem) ⟨0, t.core, false⟩ (c₀ :: l)) :=
  matches_run mem (matches_reset mem ht h₀ 0) l

/-- A memory of zeros, a testbench that powers up with ones in both registers, a reset edge and a
    live one. -/
theorem run_matches_power_up : Matches
    (Sync.run (step fun _ => 0#8)
      ⟨BitVec.allOnes 32, BitVec.allOnes 32, Core.reset fun _ => 0#32, false⟩
      [⟨false, 1#32, 2#5, 3#32⟩, ⟨true, 1#32, 2#5, 3#32⟩])
    (Sync.run (Prog.step fun _ => 0#8) ⟨0, Core.reset fun _ => 0#32, false⟩
      [⟨false, 1#32, 2#5, 3#32⟩, ⟨true, 1#32, 2#5, 3#32⟩]) :=
  run_matches _ _ rfl _ rfl _

/-! ## 4. The end of the simulation -/

/-- Where the program counter is after a history, and when it has halted. -/
structure Counts (l : List TbCycle) (p : Prog) : Prop where
  halted : p.halted = true ↔ Sync.HasStreak (·.sysRstN) (haltAt + 1) l
  pos : p.halted = false → p.pos = Sync.streak (·.sysRstN) l

theorem counts_step {l : List TbCycle} {p : Prog} (h : Counts l p) (c : TbCycle) :
    Counts (l ++ [c]) (Prog.step mem p c) := by
  unfold Prog.step
  cases hp : p.halted with
  | true =>
      rw [if_pos rfl]
      refine ⟨iff_of_true hp ?_, fun hn => ?_⟩
      · exact (Sync.hasStreak_concat _ _ _ _).mpr (Or.inl (h.halted.mp hp))
      · rw [hp] at hn
        cases hn
  | false =>
      have hno : ¬ Sync.HasStreak (fun c : TbCycle => c.sysRstN) (haltAt + 1) l := fun hs => by
        rw [h.halted.mpr hs] at hp
        cases hp
      have hlt : Sync.streak (fun c : TbCycle => c.sysRstN) l < haltAt + 1 := by
        by_contra hge
        obtain ⟨seg, hseg, hn, hlive⟩ := (Sync.le_streak_iff _ _ _).mp (not_lt.mp hge)
        exact hno ⟨seg, hseg.isInfix, hn, hlive⟩
      rw [if_neg (by decide)]
      constructor
      case halted =>
        rw [Sync.hasStreak_concat, Sync.streak_concat, h.pos hp]
        cases c.sysRstN with
        | false => simp [hno]
        | true =>
            simp only [Bool.true_and, decide_eq_true_eq, if_true, hno, false_or]
            omega
      case pos =>
        intro _
        rw [Sync.streak_concat, h.pos hp]

theorem run_counts (mem : InstMem) (core : Core) (l : List TbCycle) :
    Counts l (Sync.run (Prog.step mem) ⟨0, core, false⟩ l) := by
  refine Sync.run_history (I := Counts) ⟨?_, fun _ => rfl⟩ (fun pre p c h => counts_step mem h c) l
  refine iff_of_false Bool.false_ne_true fun h => ?_
  obtain ⟨seg, hseg, hn, -⟩ := h
  rw [List.infix_nil.mp hseg] at hn
  cases hn

/-- **`$finish` exactly after 2049 edges in a row without a reset**, somewhere in a history that
    starts with a reset. -/
theorem finished_iff (mem : InstMem) (t : Tb) (ht : t.finished = false) (c₀ : TbCycle)
    (h₀ : c₀.sysRstN = false) (l : List TbCycle) :
    (Sync.run (step mem) t (c₀ :: l)).finished = true ↔
      ∃ seg, seg <:+: c₀ :: l ∧ seg.length = 0x801 ∧ ∀ c ∈ seg, c.sysRstN = true := by
  have hm : Matches (Sync.run (step mem) t (c₀ :: l)) _ :=
    matches_run mem (matches_reset mem ht h₀ 0) l
  rw [hm.finished]
  exact (run_counts mem t.core (c₀ :: l)).halted

/-- A reset edge and 2049 live ones: `$finish` is called, with a counter of ones at power-up. -/
theorem finished_after_2049 : (Sync.run (step fun _ => 0#8)
    ⟨BitVec.allOnes 32, BitVec.allOnes 32, Core.reset fun _ => 0#32, false⟩
    (⟨false, 1#32, 2#5, 3#32⟩ :: List.replicate 0x801 ⟨true, 1#32, 2#5, 3#32⟩)).finished = true :=
  (finished_iff (fun _ => 0#8) _ rfl _ rfl _).mpr
    ⟨List.replicate 0x801 ⟨true, 1#32, 2#5, 3#32⟩, (List.suffix_cons _ _).isInfix,
      List.length_replicate, fun _ hc => by rw [(List.mem_replicate.mp hc).2]⟩

end Tb

end Xf100
