/-
  File:      Xf100/Sync/Footprint.lean
  Subject:   Footprints: what an operation reads and writes, seen from one state.

  A state is what it holds in its cells, `get s : κ → ν`. An operation `f` has the
  footprint `R`, `W` at `s` if, on every state that agrees with `s` in `R`, it changes
  nothing outside `W` and stores inside `W` what it stores on `s`. The sets may depend on
  `s`, so an operation that computes its address is covered.

  * `Footprint.comm` -- two operations whose writes miss each other's footprint commute;
  * `Footprint.agree` -- an operation that misses `R` leads to a state agreeing on `R`.
-/
import Mathlib.Logic.Function.Basic

namespace Sync

variable {σ κ ν : Type*}

/-- `t` and `s` hold the same in the cells `R`. -/
def Agree (get : σ → κ → ν) (R : κ → Prop) (t s : σ) : Prop := ∀ k, R k → get t k = get s k

/-- **`f` reads `R` and writes `W`, seen from `s`.** -/
structure Footprint (get : σ → κ → ν) (f : σ → σ) (s : σ) (R W : κ → Prop) : Prop where
  frame : ∀ t, Agree get R t s → ∀ k, ¬ W k → get (f t) k = get t k
  value : ∀ t, Agree get R t s → ∀ k, W k → get (f t) k = get (f s) k

section Footprint

variable {get : σ → κ → ν} {f g : σ → σ} {s : σ} {R W R' W' : κ → Prop}

/-- An operation that writes nothing of `R'` is not seen there. -/
theorem Footprint.agree (hf : Footprint get f s R W) (h : ∀ k, W k → ¬ R' k) :
    Agree get R' (f s) s :=
  fun k hk => hf.frame s (fun _ _ => rfl) k fun hw => h k hw hk

/-- **Operations that do not interfere commute.** -/
theorem Footprint.comm (hget : ∀ t u, get t = get u → t = u) (hf : Footprint get f s R W)
    (hg : Footprint get g s R' W') (hww : ∀ k, W k → ¬ W' k) (hwr : ∀ k, W k → ¬ R' k)
    (hrw : ∀ k, W' k → ¬ R k) : g (f s) = f (g s) := by
  have hfs := hf.agree hwr
  have hgs := hg.agree hrw
  apply hget
  funext k
  by_cases hk : W k
  · rw [hg.frame _ hfs k (hww k hk), hf.value _ hgs k hk]
  · rw [hf.frame _ hgs k hk]
    by_cases hk' : W' k
    · exact hg.value _ hfs k hk'
    · rw [hg.frame _ hfs k hk', hf.frame s (fun _ _ => rfl) k hk, hg.frame s (fun _ _ => rfl) k hk']

end Footprint

end Sync
