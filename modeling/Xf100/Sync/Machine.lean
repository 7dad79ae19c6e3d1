/-
  File:      Xf100/Sync/Machine.lean
  Subject:   Runs of a synchronous machine: one input per clock edge.

  A machine is its step function alone. The file gives the run over a list of
  inputs and the rules every run proof here goes by:

  * `run_inv` -- an invariant kept by every admitted step holds after the run;
  * `run_frame` -- a reading no admitted step changes is what it was;
  * `run_history` -- an invariant that speaks about the inputs consumed so far;
  * `run_reset` -- an input that resets makes everything before it irrelevant;
  * `run_rel` -- two machines that step in lockstep run in lockstep;
  * `run_congr` -- inputs that make no difference in the states they meet make none in the run.
-/
import Mathlib.Data.List.DropRight
import Mathlib.Data.List.Induction

namespace Sync

variable {σ ι : Type*}

/-- The state a machine is in after the inputs `l`, first input first. -/
def run (step : σ → ι → σ) (s : σ) (l : List ι) : σ := l.foldl step s

section Run

variable {step : σ → ι → σ} {ok : ι → Prop}

@[simp] theorem run_nil (s : σ) : run step s [] = s := rfl

@[simp] theorem run_cons (s : σ) (i : ι) (l : List ι) :
    run step s (i :: l) = run step (step s i) l := rfl

theorem run_append (s : σ) (l l' : List ι) :
    run step s (l ++ l') = run step (run step s l) l' := List.foldl_append

@[simp] theorem run_concat (s : σ) (l : List ι) (i : ι) :
    run step s (l ++ [i]) = step (run step s l) i := by
  rw [run_append, run_cons, run_nil]

/-- **An invariant every admitted step keeps holds after the run.** -/
theorem run_inv {I : σ → Prop} (hstep : ∀ s i, I s → ok i → I (step s i)) {s : σ}
    (hs : I s) {l : List ι} (hl : ∀ i ∈ l, ok i) : I (run step s l) := by
  induction l generalizing s with
  | nil => exact hs
  | cons i l ih =>
      rw [run_cons]
      refine ih (hstep s i hs (hl i List.mem_cons_self)) fun j hj => ?_
      exact hl j (List.mem_cons_of_mem _ hj)

/-- **The frame rule**: what no admitted step changes, the run leaves as it was. -/
theorem run_frame {α : Type*} {f : σ → α} (hstep : ∀ s i, ok i → f (step s i) = f s) (s : σ)
    {l : List ι} (hl : ∀ i ∈ l, ok i) : f (run step s l) = f s :=
  run_inv (I := fun t => f t = f s) (fun t i ht hi => (hstep t i hi).trans ht) rfl hl

/-- **An invariant over the inputs consumed so far**: it holds of the empty history, and a step
    extends the history by its input. -/
theorem run_history {I : List ι → σ → Prop} {s : σ} (hnil : I [] s)
    (hstep : ∀ pre t i, I pre t → I (pre ++ [i]) (step t i)) (l : List ι) :
    I l (run step s l) := by
  induction l using List.reverseRecOn with
  | nil => exact hnil
  | append_singleton l i ih =>
      rw [run_concat]
      exact hstep l _ i ih

/-- **A reset forgets the past**: where every input that is not `live` brings the machine to
    `s₀`, a run with such an input is the run from `s₀` over the inputs after the last one. -/
theorem run_reset {live : ι → Bool} {s₀ : σ} (hreset : ∀ s i, live i = false → step s i = s₀)
    (s : σ) {l : List ι} (h : ∃ i ∈ l, live i = false) :
    run step s l = run step s₀ (l.rtakeWhile live) := by
  induction l using List.reverseRecOn with
  | nil => simp at h
  | append_singleton l i ih =>
      rw [run_concat]
      cases hi : live i with
      | false => rw [hreset _ _ hi, List.rtakeWhile_concat_neg _ _ _ (by simp [hi]), run_nil]
      | true =>
          have hl : ∃ j ∈ l, live j = false := by
            obtain ⟨j, hj, hlive⟩ := h
            rcases List.mem_append.mp hj with hj | hj
            · exact ⟨j, hj, hlive⟩
            · rw [List.mem_singleton.mp hj, hi] at hlive
              cases hlive
          rw [List.rtakeWhile_concat_pos _ _ _ hi, run_concat, ih hl]

theorem run_map {ι' : Type*} (f : ι' → ι) (s : σ) (l : List ι') :
    run step s (l.map f) = run (fun s i => step s (f i)) s l := List.foldl_map

/-- **Lockstep**: a relation every admitted input keeps, fed to one machine as it is and to the
    other through `f`, holds after the run. -/
theorem run_rel {σ' ι' : Type*} {step' : σ' → ι' → σ'} {R : σ → σ' → Prop} {f : ι → ι'}
    (hstep : ∀ s t i, R s t → ok i → R (step s i) (step' t (f i))) {s : σ} {t : σ'} (h : R s t)
    {l : List ι} (hl : ∀ i ∈ l, ok i) : R (run step s l) (run step' t (l.map f)) := by
  induction l generalizing s t with
  | nil => exact h
  | cons i l ih =>
      rw [List.map_cons, run_cons, run_cons]
      refine ih (hstep s t i h (hl i List.mem_cons_self)) fun j hj => ?_
      exact hl j (List.mem_cons_of_mem _ hj)

/-- Every input of the list is admitted in the state it meets. -/
def Along (step : σ → ι → σ) (ok : σ → ι → Prop) : σ → List ι → Prop
  | _, [] => True
  | s, i :: l => ok s i ∧ Along step ok (step s i) l

/-- **Where the inputs of two lists cannot be told apart**, each in the state it meets and with an
    invariant at hand, the runs are one. -/
theorem run_congr {I : σ → Prop} {E : ι → ι → Prop} {ok : σ → ι → Prop}
    (hinv : ∀ s i, I s → I (step s i))
    (hstep : ∀ s i j, I s → ok s i → E i j → step s i = step s j) {s : σ} (hs : I s)
    {l l' : List ι} (hl : List.Forall₂ E l l') (hok : Along step ok s l) :
    run step s l = run step s l' := by
  induction hl generalizing s with
  | nil => rfl
  | cons hij _ ih => rw [run_cons, run_cons, ← hstep s _ _ hs hok.1 hij, ih (hinv s _ hs) hok.2]

end Run

end Sync
