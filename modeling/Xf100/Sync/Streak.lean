/-
  File:      Xf100/Sync/Streak.lean
  Subject:   Live inputs in a row.

  * `streak` -- how many of them a list ends in;
  * `le_streak_iff` -- `n` at least, if and only if some `n` inputs at the end are all live;
  * `hasStreak_concat` -- a list has `n` in a row somewhere, if and only if it had them before
    its last input or ends in them.
-/
import Mathlib.Data.List.DropRight
import Mathlib.Data.List.Infix

namespace Sync

variable {ι : Type*} (live : ι → Bool)

/-- The number of live inputs the list ends in. -/
def streak (l : List ι) : Nat := (l.rtakeWhile live).length

@[simp] theorem streak_nil : streak live [] = 0 := rfl

theorem streak_concat (l : List ι) (i : ι) :
    streak live (l ++ [i]) = if live i then streak live l + 1 else 0 := by
  unfold streak
  cases h : live i with
  | false => rw [List.rtakeWhile_concat_neg _ _ _ (by simp [h])]; rfl
  | true => rw [List.rtakeWhile_concat_pos _ _ _ h, List.length_append]; rfl

/-- Somewhere in the list there are `n` live inputs in a row. -/
def HasStreak (n : Nat) (l : List ι) : Prop :=
  ∃ seg, seg <:+: l ∧ seg.length = n ∧ ∀ i ∈ seg, live i = true

/-- **A streak of `n` is `n` live inputs at the end.** -/
theorem le_streak_iff (n : Nat) (l : List ι) :
    n ≤ streak live l ↔ ∃ seg, seg <:+ l ∧ seg.length = n ∧ ∀ i ∈ seg, live i = true := by
  induction l using List.reverseRecOn generalizing n with
  | nil =>
      rw [streak_nil, Nat.le_zero]
      constructor
      · intro h
        exact ⟨[], List.suffix_rfl, h.symm, by simp⟩
      · intro h
        obtain ⟨seg, hseg, hn, -⟩ := h
        rw [← hn, List.suffix_nil.mp hseg]
        rfl
  | append_singleton l i ih =>
      rw [streak_concat]
      cases n with
      | zero => exact iff_of_true (Nat.zero_le _) ⟨[], List.nil_suffix, rfl, by simp⟩
      | succ n =>
          constructor
          · intro h
            cases hi : live i with
            | false =>
                rw [hi, if_neg (by decide)] at h
                omega
            | true =>
                rw [hi, if_pos rfl, Nat.succ_le_succ_iff, ih] at h
                obtain ⟨seg, hseg, hn, hlive⟩ := h
                refine ⟨seg ++ [i], ?_, by rw [List.length_append, hn]; rfl, ?_⟩
                · obtain ⟨t, rfl⟩ := hseg
                  exact ⟨t, (List.append_assoc _ _ _).symm⟩
                · intro j hj
                  rcases List.mem_append.mp hj with hj | hj
                  · exact hlive j hj
                  · rw [List.mem_singleton.mp hj, hi]
          · intro h
            obtain ⟨seg, hseg, hn, hlive⟩ := h
            rcases List.suffix_concat_iff.mp hseg with rfl | ⟨t, rfl, ht⟩
            · simp at hn
            · rw [hlive i (by simp), if_pos rfl, Nat.succ_le_succ_iff, ih]
              rw [List.length_append] at hn
              exact ⟨t, ht, Nat.succ.inj hn, fun j hj => hlive j (List.mem_append_left _ hj)⟩

/-- **One more input** completes `n` in a row, or does not. -/
theorem hasStreak_concat (n : Nat) (l : List ι) (i : ι) :
    HasStreak live n (l ++ [i]) ↔ HasStreak live n l ∨ n ≤ streak live (l ++ [i]) := by
  unfold HasStreak
  rw [le_streak_iff, ← exists_or]
  refine exists_congr fun seg => ?_
  rw [List.infix_concat_iff, ← or_and_right, or_comm]

end Sync
