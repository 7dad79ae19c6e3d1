/-
  File:      Xf100/Laws/Blocks.lean
  Subject:   Blocks of independent instructions run as if all at once.

  Two independent words commute; a block of words that are independent in pairs, seen from the
  state before the block, does what each of them would do there alone. The undriven index
  carries 0.

  * `footprints` -- the cells a word reads and writes depend on what it reads alone;
  * `runWords_answers` -- with every index inside the data RAM no answer past it is seen;
  * `independent_block` -- the state after the block, and after the block in any other order.
-/
import Xf100.Laws.Commute
import Xf100.Sync.Parallel

namespace Xf100

open Rv32i

namespace Core

/-! ## 1. Footprints -/

/-- One word, a read past the data RAM answering 0. -/
def stepIn (s : Core) (w : BitVec 32) : Core := step s (.twoState w 0#32)

theorem reads_congr {s t : Core} {w : BitVec 32} (h : Sync.Agree get (Reads s w) t s) :
    Reads t w = Reads s w := by
  funext c
  cases c with
  | reg k => rfl
  | ram k =>
      show (_ ∧ k.val = (ramIdx t w).toNat) = _
      rw [ramIdx_congr h]
      rfl

theorem writes_congr {s t : Core} {w : BitVec 32} (h : Sync.Agree get (Reads s w) t s) :
    Writes t w = Writes s w := by
  funext c
  cases c with
  | reg k => rfl
  | ram k =>
      show (_ ∧ k.val = (ramIdx t w).toNat) = _
      rw [ramIdx_congr h]
      rfl

theorem footprints : Sync.Footprints get stepIn Reads Writes where
  foot s w := step_footprint s w 0#32
  reads _ _ _ h := reads_congr h
  writes _ _ _ h := writes_congr h

theorem Independent.apart {s : Core} {i j : BitVec 32} (h : Independent s i j) :
    Sync.Apart Reads Writes s i j where
  writes_writes := h.writes_writes
  writes_reads := h.writes_reads
  reads_writes := h.symm.writes_reads

/-! ## 2. Blocks -/

section Blocks

variable {s : Core} {ws : List (BitVec 32 × BitVec 32)}

/-- The index of an AGU operation lies inside the data RAM. -/
def Inside (s : Core) (w : BitVec 32) : Prop :=
  Decode.aguOp w = true → (ramIdx s w).toNat < dataRamDp

/-- **A block that stays inside the data RAM does not see the answers past it.** -/
theorem runWords_answers (h : (ws.map Prod.fst).Pairwise (Sync.Apart Reads Writes s))
    (hin : ∀ w ∈ ws.map Prod.fst, Inside s w) :
    runWords s ws = Sync.run stepIn s (ws.map Prod.fst) := by
  induction ws generalizing s with
  | nil => rfl
  | cons p ws ih =>
      rw [List.map_cons] at h hin ⊢
      have hp := (List.pairwise_cons.mp h).1
      have hrest : ∀ w ∈ ws.map Prod.fst, Inside (stepIn s p.1) w := by
        intro w hw ha
        have hidx : ramIdx (stepIn s p.1) w = ramIdx s w :=
          ramIdx_congr (footprints.agree (hp w hw))
        rw [hidx]
        exact hin w (List.mem_cons_of_mem _ hw) ha
      have hstep : step s (.twoState p.1 p.2) = stepIn s p.1 :=
        step_memX (hin p.1 List.mem_cons_self)
      rw [runWords_cons, hstep, Sync.run_cons]
      exact ih (Sync.pairwise_step footprints h) hrest

/-- **Every word at once**: a cell that a word of the block writes holds what that word alone leaves
    there, every other cell what it held. -/
structure AtOnce (s t : Core) (ws : List (BitVec 32)) : Prop where
  written : ∀ w ∈ ws, ∀ c, Writes s w c → ∀ x, get t c = get (step s (.twoState w x)) c
  untouched : ∀ c, (∀ w ∈ ws, ¬ Writes s w c) → get t c = get s c

/-- **Blocks of independent instructions.** With every index inside the data RAM, the block leads to
    the state in which all of it has happened at once, and so does the block in any other order
    and with any other answers past the RAM. -/
theorem independent_block (s : Core) (ws us : List (BitVec 32 × BitVec 32))
    (h : (ws.map Prod.fst).Pairwise (Independent s))
    (hin : ∀ w ∈ ws.map Prod.fst, Inside s w)
    (hperm : (ws.map Prod.fst).Perm (us.map Prod.fst)) :
    AtOnce s (runWords s ws) (ws.map Prod.fst) ∧ runWords s us = runWords s ws := by
  have hws : (ws.map Prod.fst).Pairwise (Sync.Apart Reads Writes s) := h.imp Independent.apart
  have hus : (us.map Prod.fst).Pairwise (Sync.Apart Reads Writes s) :=
    hws.perm hperm fun hij => hij.symm
  have hin' : ∀ w ∈ us.map Prod.fst, Inside s w := fun w hw => hin w (hperm.mem_iff.mpr hw)
  rw [runWords_answers hws hin, runWords_answers hus hin']
  refine ⟨⟨?_, ?_⟩, (Sync.run_perm get_ext footprints hperm hws).symm⟩
  · intro w hw c hc x
    rw [Sync.run_written footprints hws hw hc]
    exact congrArg (get · c) (step_memX (hin w hw))
  · intro c hc
    exact Sync.run_untouched footprints hws hc

end Blocks

/-- `sb x2, 1120(x1)`, `lb x3, 97(x1)` and `add x6, x4, x5` from reset, last word first. -/
theorem independent_block_sb_lb_add :
    AtOnce (reset fun _ => 1#32) (runWords (reset fun _ => 1#32)
        [(storeWord .sb 1#5 2#5 1120#12, 0#32), (loadWord .lb 3#5 1#5 97#12, 1#32),
          ((Arith.op .add 6#5 4#5 5#5).encode, 2#32)])
      [storeWord .sb 1#5 2#5 1120#12, loadWord .lb 3#5 1#5 97#12,
        (Arith.op .add 6#5 4#5 5#5).encode] ∧
    runWords (reset fun _ => 1#32)
        [((Arith.op .add 6#5 4#5 5#5).encode, 3#32), (loadWord .lb 3#5 1#5 97#12, 4#32),
          (storeWord .sb 1#5 2#5 1120#12, 5#32)] =
      runWords (reset fun _ => 1#32)
        [(storeWord .sb 1#5 2#5 1120#12, 0#32), (loadWord .lb 3#5 1#5 97#12, 1#32),
          ((Arith.op .add 6#5 4#5 5#5).encode, 2#32)] := by
  refine independent_block _ _ _ ?_ ?_ ?_
  · have hsl : Independent (reset fun _ => 1#32) (storeWord .sb 1#5 2#5 1120#12)
        (loadWord .lb 3#5 1#5 97#12) :=
      ⟨by decide, by decide, by decide, by decide, by decide, fun _ _ _ => by decide +kernel⟩
    have hsa : Independent (reset fun _ => 1#32) (storeWord .sb 1#5 2#5 1120#12)
        (Arith.op .add 6#5 4#5 5#5).encode :=
      ⟨by decide, by decide, by decide, by decide, by decide, fun _ _ ha => absurd ha (by decide)⟩
    have hla : Independent (reset fun _ => 1#32) (loadWord .lb 3#5 1#5 97#12)
        (Arith.op .add 6#5 4#5 5#5).encode :=
      ⟨by decide, by decide, by decide, by decide, by decide, fun _ _ ha => absurd ha (by decide)⟩
    simp [hsl, hsa, hla]
  · have hs : Inside (reset fun _ => 1#32) (storeWord .sb 1#5 2#5 1120#12) :=
      fun _ => by decide +kernel
    have hl : Inside (reset fun _ => 1#32) (loadWord .lb 3#5 1#5 97#12) :=
      fun _ => by decide +kernel
    have ha : Inside (reset fun _ => 1#32) (Arith.op .add 6#5 4#5 5#5).encode :=
      fun h => absurd h (by decide)
    simp [hs, hl, ha]
  · exact List.reverse_perm [storeWord .sb 1#5 2#5 1120#12, loadWord .lb 3#5 1#5 97#12,
      (Arith.op .add 6#5 4#5 5#5).encode] |>.symm

end Core

end Xf100
