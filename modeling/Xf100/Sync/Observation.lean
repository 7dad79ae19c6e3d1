/-
  File:      Xf100/Sync/Observation.lean
  Subject:   What can be seen of a state from outside a machine with outputs.

  In each cycle the machine shows an output that depends on its state and the input. Two
  states are equivalent if no experiment tells them apart, an experiment being a run and one
  more input.

  * `Bisim` -- a relation that sees no difference in the output and is kept by every step;
  * `Bisim.obsEq` -- states it relates are equivalent, after any run (`Bisim.run`).
-/
import Xf100.Sync.Machine

namespace Sync

variable {σ ι ο : Type*}

/-- **No experiment tells `s` and `t` apart.** -/
def ObsEq (step : σ → ι → σ) (out : σ → ι → ο) (s t : σ) : Prop :=
  ∀ l i, out (run step s l) i = out (run step t l) i

/-- **A bisimulation** of the machine with itself. -/
structure Bisim (step : σ → ι → σ) (out : σ → ι → ο) (R : σ → σ → Prop) : Prop where
  out_eq : ∀ s t i, R s t → out s i = out t i
  step_rel : ∀ s t i, R s t → R (step s i) (step t i)

section Bisim

variable {step : σ → ι → σ} {out : σ → ι → ο} {R : σ → σ → Prop} {s t : σ}

/-- What a bisimulation relates stays related over every run. -/
theorem Bisim.run (h : Bisim step out R) (hst : R s t) (l : List ι) :
    R (Sync.run step s l) (Sync.run step t l) := by
  have hstep : ∀ s t i, R s t → True → R (step s i) (step t (id i)) :=
    fun s t i hr _ => h.step_rel s t i hr
  have hrel := run_rel hstep hst (l := l) fun _ _ => trivial
  rwa [List.map_id] at hrel

/-- **Related states are equivalent.** -/
theorem Bisim.obsEq (h : Bisim step out R) (hst : R s t) : ObsEq step out s t :=
  fun l i => h.out_eq _ _ i (h.run hst l)

end Bisim

end Sync
