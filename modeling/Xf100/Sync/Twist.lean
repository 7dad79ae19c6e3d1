/-
  File:      Xf100/Sync/Twist.lean
  Subject:   Words of lanes that every write moves about.

  A write gives some lanes of a word new values and then moves all of them by a fixed
  permutation. Followed back, the lanes are fixed cells that are written last-write-wins:
  what is found at a lane after `n` writes is the cell `n` moves away, and the `t`-th write
  reaches a cell through the lane it had come to by then.

  * `latest` -- partial writes read last-write-wins;
  * `run_twist` -- a word after any list of writes.
-/
import Mathlib.Logic.Equiv.Basic
import Mathlib.Algebra.Group.End
import Xf100.Sync.Machine

namespace Sync

/-! ## 1. Partial writes -/

section Latest

variable {α β : Type*}

/-- What the newest of the writes that cover `a` stored. -/
def latest : List (α → Option β) → α → Option β
  | [], _ => none
  | w :: l, a => (latest l a).or (w a)

@[simp] theorem latest_nil (a : α) : latest ([] : List (α → Option β)) a = none := rfl

theorem latest_concat (l : List (α → Option β)) (w : α → Option β) (a : α) :
    latest (l ++ [w]) a = (w a).or (latest l a) := by
  induction l with
  | nil => simp [latest]
  | cons v l ih => rw [List.cons_append, latest, ih, latest, Option.or_assoc]

end Latest

/-! ## 2. Writes that move the lanes -/

section Twist

variable {ι L β : Type*} (ρ : Equiv.Perm L) (f : ι → L → Option β)

/-- One write to the word `v`, the input `i` giving the lanes `f i`: at the lane `p` is then found
    what was at `ρ p`. -/
def twist (v : L → β) (i : ι) : L → β := fun p => (f i (ρ p)).getD (v (ρ p))

/-- A list of writes, seen at the cells. -/
def seenAtCells (l : List ι) : List (L → Option β) := l.mapIdx fun t i c => f i ((ρ ^ t)⁻¹ c)

/-- **The word after the writes `l`**: every lane shows a cell, and the cell holds what the newest
    write that covers it stored, or what it held at first. -/
theorem run_twist (v : L → β) (l : List ι) (p : L) : run (twist ρ f) v l p =
    (latest (seenAtCells ρ f l) ((ρ ^ l.length) p)).getD (v ((ρ ^ l.length) p)) := by
  refine run_history (I := fun l (u : L → β) => ∀ p, u p =
    (latest (seenAtCells ρ f l) ((ρ ^ l.length) p)).getD (v ((ρ ^ l.length) p))) ?_ ?_ l p
  · intro p
    rfl
  · intro pre u i ih p
    -- the cell shown at `p` after the write was shown at `ρ p` before it
    have hcell : (ρ ^ (pre ++ [i]).length) p = (ρ ^ pre.length) (ρ p) := by
      rw [List.length_append, List.length_singleton, pow_succ, Equiv.Perm.mul_apply]
    have hback : (ρ ^ pre.length)⁻¹ ((ρ ^ pre.length) (ρ p)) = ρ p := Equiv.symm_apply_apply _ _
    rw [hcell, seenAtCells, List.mapIdx_concat, latest_concat, hback, twist, ih]
    cases f i (ρ p) with
    | none => rfl
    | some b => rfl

end Twist

end Sync
