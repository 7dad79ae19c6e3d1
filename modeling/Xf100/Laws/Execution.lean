/-
  File:      Xf100/Laws/Execution.lean
  Subject:   The whole testbench, by the interpreter.

  The reset edges clear the registers and run word 0 on the data RAM a hundred times; then the
  words 0 to 2048 are executed, each once and each the one after the last, whatever they do to
  the registers. Put together with the interpreter that is the meaning of the simulation for
  every memory image, the undriven index at 0.

  * `simulate_exec` -- the core after any number of edges, by `AsBuilt.exec`;
  * `byte_unseen_iff` -- of the image the first 8196 bytes are looked at, every one of them, and
    no other.
-/
import Xf100.Laws.Reset

namespace Xf100

open Rv32i

namespace Tb

variable (mem : InstMem)

/-! ## 1. By the interpreter -/

/-- What a reset edge does to the data RAM: word 0, executed on cleared registers. -/
def resetExec (w : BitVec 32) (m : RamMem dataRamDp) : RamMem dataRamDp :=
  (AsBuilt.exec (Core.reset m) w 0#32).memR

theorem resetRam_eq_exec (w : BitVec 32) : Core.resetRam w = resetExec w := by
  funext m
  unfold Core.resetRam resetExec
  rw [AsBuilt.step_eq_exec]

/-- The core when the reset is released. -/
def released (m : RamMem dataRamDp) : Core := Core.reset ((resetExec (wordAt mem 0))^[100] m)

/-- The edges before the release are reset edges. -/
theorem edges_reset (free : Nat → BitVec 32 × BitVec 32) {n : Nat} (hn : n ≤ 100) :
    ∀ c ∈ edges free n, c.sysRstN = false := by
  intro c hc
  obtain ⟨k, hk, rfl⟩ := List.mem_map.mp hc
  have hlt : k < n := List.mem_range.mp hk
  show sysRstNAt k = false
  rw [sysRstNAt_eq, decide_eq_false]
  omega

theorem core_released {t : Tb} (ht : t.finished = false) (free : Nat → BitVec 32 × BitVec 32) :
    (Sync.run (step mem) t (edges free 100)).core = released mem t.core.memR := by
  have hlen : (edges free 100).length = 100 := by
    unfold edges
    rw [List.length_map, List.length_range]
  have hne : edges free 100 ≠ [] := by
    intro e
    rw [e] at hlen
    cases hlen
  rw [run_reset mem ht (edges_reset free (Nat.le_refl 100)) hne, hlen, resetRam_eq_exec]
  rfl

/-- Word `k`, executed, a read past the data RAM answering what it would in that cycle. -/
def execWord (free : Nat → BitVec 32 × BitVec 32) (s : Core) (k : Nat) : Core :=
  AsBuilt.exec s (wordAt mem k) (free (100 + k)).2

theorem run_coreEdges (s : Core) (free : Nat → BitVec 32 × BitVec 32) (j : Nat) :
    Sync.run Core.step s (coreEdges mem free (100 + j)) =
      Sync.run (execWord mem free) (Sync.run Core.step s (coreEdges mem free 100))
        (List.range j) := by
  induction j with
  | zero => rw [List.range_zero, Sync.run_nil, Nat.add_zero]
  | succ j ih =>
      have hcycle : (⟨wordAt mem (100 + j - 100), sysRstNAt (100 + j), 0#5,
          (free (100 + j)).2⟩ : Cycle) = .twoState (wordAt mem j) (free (100 + j)).2 := by
        rw [sysRstNAt_eq, decide_eq_true (Nat.le_add_right 100 j), Nat.add_sub_cancel_left]
        rfl
      rw [← Nat.add_assoc, coreEdges_succ, Sync.run_concat, ih, List.range_succ, Sync.run_concat,
        hcycle, AsBuilt.step_eq_exec]
      rfl

/-- **The meaning of the simulation.** For every image and from every power-up, the core after `n`
    edges, the reset being over, is the interpreter's after the words from 0 on, one for each live
    edge and 2049 at most. -/
theorem simulate_exec (t : Tb) (ht : t.finished = false) (free : Nat → BitVec 32 × BitVec 32)
    (n : Nat) (hn : 100 ≤ n) : (Sync.run (step mem) t (edges free n)).core =
      Sync.run (execWord mem free) (released mem t.core.memR)
        (List.range (min (n - 100) (haltAt + 1))) := by
  have hlast : lastEdge = 2149 := rfl
  have hhalt : haltAt = 2048 := rfl
  have hmin : min n lastEdge = 100 + min (n - 100) (haltAt + 1) := by omega
  have hrel := core_released mem ht free
  rw [core_edges mem ht, min_eq_left (show 100 ≤ lastEdge by omega)] at hrel
  rw [core_edges mem ht, hmin, run_coreEdges, hrel]

/-- From ones in every register: two words executed after 102 edges. -/
theorem simulate_exec_two : (Sync.run (step fun _ => 0x13#8)
      ⟨BitVec.allOnes 32, BitVec.allOnes 32, ⟨fun _ => BitVec.allOnes 32, fun _ => 0#32⟩, false⟩
      (edges (fun _ => (0#32, 0#32)) 102)).core =
    Sync.run (execWord (fun _ => 0x13#8) fun _ => (0#32, 0#32)) (released (fun _ => 0x13#8)
      fun _ => 0#32) (List.range (min (102 - 100) (haltAt + 1))) :=
  simulate_exec (fun _ => 0x13#8) _ rfl _ 102 (by decide)

/-! ## 2. What is looked at -/

variable {mem} {mem' : InstMem}

theorem wordAt_congr (h : ∀ a : Fin instMemDp, a.val < 4 * (haltAt + 1) → mem a = mem' a) {k : Nat}
    (hk : k ≤ haltAt) : wordAt mem k = wordAt mem' k := by
  have hbyte (j : Nat) (hj : j < 4) :
      wordAt.byteAt mem (4 * k + j) = wordAt.byteAt mem' (4 * k + j) := by
    unfold wordAt.byteAt
    split
    · next hlt => exact h ⟨4 * k + j, hlt⟩ (show 4 * k + j < 4 * (haltAt + 1) by omega)
    · rfl
  have h0 := hbyte 0 (by omega)
  rw [Nat.add_zero] at h0
  unfold wordAt
  rw [hbyte 3 (by omega), hbyte 2 (by omega), hbyte 1 (by omega), h0]

/-- Two images that agree on the first 8196 bytes give the same registers and the same RAM after any
    number of edges. -/
theorem simulate_congr (h : ∀ a : Fin instMemDp, a.val < 4 * (haltAt + 1) → mem a = mem' a) {t : Tb}
    (ht : t.finished = false) (free : Nat → BitVec 32 × BitVec 32) (n : Nat) :
    (Sync.run (step mem) t (edges free n)).core = (Sync.run (step mem') t (edges free n)).core := by
  have hlast : lastEdge = 2149 := rfl
  have hhalt : haltAt = 2048 := rfl
  have hedges : coreEdges mem free (min n lastEdge) = coreEdges mem' free (min n lastEdge) := by
    unfold coreEdges
    refine List.map_congr_left fun k hk => ?_
    have hlt := List.mem_range.mp hk
    rw [wordAt_congr h (show k - 100 ≤ haltAt by omega)]
  rw [core_edges mem ht, core_edges mem' ht, hedges]

/-- The program with `i` as its word `k` and `addi x0, x0, 0` before it. -/
def probe (k : Nat) (i : Rv32i.Arith) : List Rv32i.Arith :=
  List.replicate k (.opImm .addi 0#5 0#5 0#12) ++ [i]

section Probe

variable {k : Nat} {i i' : Rv32i.Arith}

theorem execAll_probe (k : Nat) (i : Rv32i.Arith) (r : Regs) :
    Core.execAll r (probe k i) = i.exec r := by
  have hstep (u : Regs) (j : Rv32i.Arith) (hu : u = r) (hj : j = .opImm .addi 0#5 0#5 0#12) :
      j.exec u = r := by
    rw [hu, hj]
    exact Regs.set_zero r _
  have hnop : Core.execAll r (List.replicate k (.opImm .addi 0#5 0#5 0#12)) = r :=
    Sync.run_inv hstep rfl fun j hj => List.eq_of_mem_replicate hj
  show Sync.run _ r (_ ++ [i]) = _
  rw [Sync.run_concat]
  exact congrArg i.exec hnop

theorem safe_probe (hi : Core.Safe i) : ∀ j ∈ probe k i, Core.Safe j := by
  intro j hj
  rcases List.mem_append.mp hj with hj | hj
  · rw [List.eq_of_mem_replicate hj]
    decide
  · rwa [List.mem_singleton.mp hj]

/-- Probes with words that agree in all bytes but one have images that do. -/
theorem image_probe (b : Fin instMemDp) (h : b.val / 4 = k → i.encode.extractLsb' (8 * (b.val % 4)) 8 =
    i'.encode.extractLsb' (8 * (b.val % 4)) 8) :
    image ((probe k i).map Arith.encode) b = image ((probe k i').map Arith.encode) b := by
  have hlen : ((List.replicate k (Rv32i.Arith.opImm .addi 0#5 0#5 0#12)).map Arith.encode).length =
      k := by
    rw [List.length_map, List.length_replicate]
  unfold image probe
  rw [List.map_append, List.map_append]
  rcases Nat.lt_trichotomy (b.val / 4) k with hb | hb | hb
  · rw [List.getD_append _ _ _ _ (by omega), List.getD_append _ _ _ _ (by omega)]
  · rw [List.getD_append_right _ _ _ _ (by omega), List.getD_append_right _ _ _ _ (by omega), hlen,
      hb, Nat.sub_self]
    exact h hb
  · rw [List.getD_append_right _ _ _ _ (by omega), List.getD_append_right _ _ _ _ (by omega),
      List.getD_eq_default _ _ (by simp; omega), List.getD_eq_default _ _ (by simp; omega)]

/-- A probe shows what its word does, from any power-up. -/
theorem simulate_probe (hk : k ≤ haltAt) (hi : Core.Safe i) (r : BitVec 5) {t : Tb}
    (ht : t.finished = false) (free : Nat → BitVec 32 × BitVec 32) {n : Nat} (hn : lastEdge ≤ n) :
    (Sync.run (step (image ((probe k i).map Arith.encode))) t (edges free n)).core.rfR r.toFin =
      (i.exec Core.zeroRegs).x r := by
  have hlen : (probe k i).length = k + 1 := by
    unfold probe
    rw [List.length_append, List.length_replicate, List.length_singleton]
  have hlast : lastEdge = 2149 := rfl
  have hhalt : haltAt = 2048 := rfl
  have hshow := shows_simulation (safe_probe (k := k) hi) (by omega) ht free (n := n) (by omega)
  rw [execAll_probe] at hshow
  exact hshow.1 r

end Probe

/-- `addi x1, x0, 1`, and for each of its four bytes a safe instruction that differs in that byte and
    leaves something else in x1. -/
def differing : Fin 4 → Rv32i.Arith
  | 0 => .opImm .addi 0#5 0#5 1#12
  | 1 => .opImm .addi 3#5 0#5 1#12
  | 2 => .opImm .addi 1#5 0#5 0#12
  | 3 => .opImm .addi 1#5 0#5 17#12

theorem differing_spec : ∀ j : Fin 4, Core.Safe (differing j) ∧
    (∀ q : Fin 4, q ≠ j → (Arith.opImm .addi 1#5 0#5 1#12).encode.extractLsb' (8 * q.val) 8 =
      (differing j).encode.extractLsb' (8 * q.val) 8) ∧
    ((differing j).exec Core.zeroRegs).x 1#5 ≠ 1#32 := by decide

/-- Two safe programs whose images differ in the byte `a` alone and which, from every power-up, end in
    different registers. -/
structure TellApart (a : Fin instMemDp) (p q : List Rv32i.Arith) : Prop where
  safe : (∀ i ∈ p, Core.Safe i) ∧ ∀ i ∈ q, Core.Safe i
  image_eq : ∀ b, b ≠ a → image (p.map Arith.encode) b = image (q.map Arith.encode) b
  rfR_ne : ∀ (t : Tb) (free : Nat → BitVec 32 × BitVec 32) (n : Nat), t.finished = false →
    lastEdge ≤ n → (Sync.run (step (image (p.map Arith.encode))) t (edges free n)).core.rfR ≠
      (Sync.run (step (image (q.map Arith.encode))) t (edges free n)).core.rfR

/-- **Every byte of the first 8196 matters.** -/
theorem exists_tellApart {a : Fin instMemDp} (ha : a.val < 4 * (haltAt + 1)) :
    ∃ p q, TellApart a p q := by
  have hk : a.val / 4 ≤ haltAt := by omega
  have hone : Core.Safe (.opImm .addi 1#5 0#5 1#12) := by decide
  obtain ⟨j, hj⟩ : ∃ j : Fin 4, j.val = a.val % 4 := ⟨⟨_, Nat.mod_lt _ (by decide)⟩, rfl⟩
  obtain ⟨hsafe, hbytes, hne⟩ := differing_spec j
  refine ⟨probe (a.val / 4) (.opImm .addi 1#5 0#5 1#12), probe (a.val / 4) (differing j), ?_⟩
  constructor
  case safe => exact ⟨safe_probe hone, safe_probe hsafe⟩
  case image_eq =>
    intro b hb
    refine image_probe b fun hword => ?_
    refine hbytes ⟨b.val % 4, Nat.mod_lt _ (by decide)⟩ fun e => hb (Fin.ext ?_)
    have hmod : b.val % 4 = j.val := congrArg Fin.val e
    omega
  case rfR_ne =>
    intro t free n ht hn e
    have hx := congrFun e (1#5).toFin
    rw [simulate_probe hk hone _ ht free hn, simulate_probe hk hsafe _ ht free hn] at hx
    exact hne (hx.symm.trans (by decide))

/-- **What is looked at of the image**: a byte of it makes no difference to any simulation if and only
    if it is not one of the first 8196, and for each of these there are two safe programs that
    tell the difference. -/
theorem byte_unseen_iff (a : Fin instMemDp) :
    ((∀ mem mem' : InstMem, (∀ b, b ≠ a → mem b = mem' b) → ∀ (t : Tb)
      (free : Nat → BitVec 32 × BitVec 32) (n : Nat), t.finished = false →
        (Sync.run (step mem) t (edges free n)).core =
          (Sync.run (step mem') t (edges free n)).core) ↔ 4 * (haltAt + 1) ≤ a.val) ∧
    (a.val < 4 * (haltAt + 1) → ∃ p q, TellApart a p q) := by
  refine ⟨⟨fun h => ?_, fun ha mem mem' hmem t free n ht => ?_⟩, exists_tellApart⟩
  · by_contra hlt
    obtain ⟨n, hn⟩ : ∃ n, lastEdge ≤ n := ⟨_, Nat.le_refl _⟩
    obtain ⟨p, q, hpq⟩ := exists_tellApart (not_le.mp hlt)
    exact hpq.rfR_ne ⟨0#32, 0#32, Core.reset fun _ => 0#32, false⟩ (fun _ => (0#32, 0#32)) n rfl hn
      (congrArg Core.rfR (h _ _ hpq.image_eq _ _ n rfl))
  · refine simulate_congr (fun b hb => hmem b fun e => ?_) ht free n
    rw [e] at hb
    omega

end Tb

end Xf100
