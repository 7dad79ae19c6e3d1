/-
  File:      Xf100/Sync/LastWrite.lean
  Subject:   Write logs read last-write-wins.

  A log is the list of writes made so far, oldest first. `lastWrite log a` is
  what the newest write to `a` stored, `none` where `a` was never written.
  `lastWrite_append` reads the newer part of a log first; `lastWrite_block` is
  the log of one write to consecutive addresses.
-/
import Mathlib.Data.List.Induction

namespace Sync

section LastWrite

variable {α β : Type*} [DecidableEq α]

/-- What the newest write to `a` stored. -/
def lastWrite : List (α × β) → α → Option β
  | [], _ => none
  | p :: log, a => (lastWrite log a).or (if p.1 = a then some p.2 else none)

@[simp] theorem lastWrite_nil (a : α) : lastWrite ([] : List (α × β)) a = none := rfl

/-- A later log is read first. -/
theorem lastWrite_append (l l' : List (α × β)) (a : α) :
    lastWrite (l ++ l') a = (lastWrite l' a).or (lastWrite l a) := by
  induction l with
  | nil => cases h : lastWrite l' a <;> simp [h]
  | cons p l ih => rw [List.cons_append, lastWrite, ih, lastWrite, Option.or_assoc]

theorem lastWrite_concat (l : List (α × β)) (p : α × β) (a : α) :
    lastWrite (l ++ [p]) a = if p.1 = a then some p.2 else lastWrite l a := by
  rw [lastWrite_append]
  by_cases h : p.1 = a <;> simp [lastWrite, h]

end LastWrite

/-- **A block**: `n` writes to the addresses from `base` up. -/
theorem lastWrite_block {β : Type*} (base n a : Nat) (f : Nat → β) :
    lastWrite ((List.range n).map fun k => (base + k, f k)) a =
      if base ≤ a ∧ a < base + n then some (f (a - base)) else none := by
  induction n with
  | zero => simp
  | succ n ih =>
      rw [List.range_succ, List.map_append, List.map_singleton, lastWrite_concat, ih]
      by_cases h : base + n = a
      · subst h
        simp
      · rw [if_neg h]
        congr 1
        simp only [eq_iff_iff]
        omega

end Sync
