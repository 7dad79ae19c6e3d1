/-
  File:      Xf100/Sync/Parallel.lean
  Subject:   Inputs that do not interfere: in any order, and as if all at once.

  Every input has a footprint in every state, and the footprint is itself a matter of what is
  read. Inputs of a list that are apart in pairs stay so while the others run, so

  * `run_perm` -- every order of the list leads to the same state;
  * `run_written` -- a cell one of them writes holds what that input alone would leave there;
  * `run_untouched` -- a cell none of them writes holds what it held.
-/
import Xf100.Sync.Footprint
import Xf100.Sync.Machine

namespace Sync

variable {σ ι κ ν : Type*}

/-- **The cells each input reads and writes**, which depend on what the input reads and on nothing
    else. -/
structure Footprints (get : σ → κ → ν) (step : σ → ι → σ) (R W : σ → ι → κ → Prop) : Prop where
  foot : ∀ s i, Footprint get (fun t => step t i) s (R s i) (W s i)
  reads : ∀ s t i, Agree get (R s i) t s → R t i = R s i
  writes : ∀ s t i, Agree get (R s i) t s → W t i = W s i

/-- `i` and `j` do not interfere in `s`. -/
structure Apart (R W : σ → ι → κ → Prop) (s : σ) (i j : ι) : Prop where
  writes_writes : ∀ k, W s i k → ¬ W s j k
  writes_reads : ∀ k, W s i k → ¬ R s j k
  reads_writes : ∀ k, W s j k → ¬ R s i k

section Parallel

variable {get : σ → κ → ν} {step : σ → ι → σ} {R W : σ → ι → κ → Prop} {s : σ} {i j k : ι}

theorem Apart.symm (h : Apart R W s i j) : Apart R W s j i where
  writes_writes c hj hi := h.writes_writes c hi hj
  writes_reads := h.reads_writes
  reads_writes := h.writes_reads

/-- An input finds what it reads after another that is apart from it. -/
theorem Footprints.agree (hf : Footprints get step R W) (h : Apart R W s i j) :
    Agree get (R s j) (step s i) s :=
  (hf.foot s i).agree h.writes_reads

theorem Footprints.reads_step (hf : Footprints get step R W) (h : Apart R W s i j) :
    R (step s i) j = R s j :=
  hf.reads _ _ _ (hf.agree h)

theorem Footprints.writes_step (hf : Footprints get step R W) (h : Apart R W s i j) :
    W (step s i) j = W s j :=
  hf.writes _ _ _ (hf.agree h)

/-- **Two that are apart stay so** while a third that is apart from both runs. -/
theorem Apart.after (hf : Footprints get step R W) (hij : Apart R W s i j) (hik : Apart R W s i k)
    (hjk : Apart R W s j k) : Apart R W (step s i) j k := by
  have hrj := hf.reads_step hij
  have hwj := hf.writes_step hij
  have hrk := hf.reads_step hik
  have hwk := hf.writes_step hik
  constructor
  case writes_writes =>
    rw [hwj, hwk]
    exact hjk.writes_writes
  case writes_reads =>
    rw [hwj, hrk]
    exact hjk.writes_reads
  case reads_writes =>
    rw [hwk, hrj]
    exact hjk.reads_writes

/-- What is left of the list is apart in pairs once its head has run. -/
theorem pairwise_step (hf : Footprints get step R W) {l : List ι}
    (h : (i :: l).Pairwise (Apart R W s)) : l.Pairwise (Apart R W (step s i)) := by
  obtain ⟨hi, hl⟩ := List.pairwise_cons.mp h
  exact hl.imp_of_mem fun hj hk hjk => Apart.after hf (hi _ hj) (hi _ hk) hjk

/-- **Any order.** -/
theorem run_perm (hget : ∀ t u, get t = get u → t = u) (hf : Footprints get step R W)
    {l l' : List ι} (hl : l.Perm l') (h : l.Pairwise (Apart R W s)) :
    run step s l = run step s l' := by
  induction hl generalizing s with
  | nil => rfl
  | cons i _ ih => exact ih (pairwise_step hf h)
  | swap i j l =>
      have hij : Apart R W s j i := (List.pairwise_cons.mp h).1 i List.mem_cons_self
      have hcomm := (hf.foot s j).comm hget (hf.foot s i) hij.writes_writes hij.writes_reads
        hij.reads_writes
      rw [run_cons, run_cons, run_cons, run_cons, hcomm]
  | trans hp _ ih ih' =>
      exact (ih h).trans (ih' (hp.pairwise h fun hij => hij.symm))

/-- **A cell no input writes.** -/
theorem run_untouched (hf : Footprints get step R W) {l : List ι}
    (h : l.Pairwise (Apart R W s)) {c : κ} (hc : ∀ i ∈ l, ¬ W s i c) :
    get (run step s l) c = get s c := by
  induction l generalizing s with
  | nil => rfl
  | cons i l ih =>
      have hi := (List.pairwise_cons.mp h).1
      have hrest : ∀ j ∈ l, ¬ W (step s i) j c := fun j hj => by
        rw [hf.writes_step (hi j hj)]
        exact hc j (List.mem_cons_of_mem _ hj)
      rw [run_cons, ih (pairwise_step hf h) hrest]
      exact (hf.foot s i).frame s (fun _ _ => rfl) c (hc i List.mem_cons_self)

/-- **A cell one input writes** holds what that input, alone and first, leaves there. -/
theorem run_written (hf : Footprints get step R W) {l : List ι}
    (h : l.Pairwise (Apart R W s)) (hi : i ∈ l) {c : κ} (hc : W s i c) :
    get (run step s l) c = get (step s i) c := by
  induction l generalizing s with
  | nil => cases hi
  | cons j l ih =>
      have hj := (List.pairwise_cons.mp h).1
      rcases List.mem_cons.mp hi with rfl | hil
      · refine run_untouched hf (pairwise_step hf h) fun k hk => ?_
        rw [hf.writes_step (hj k hk)]
        exact (hj k hk).writes_writes c hc
      · have hc' : W (step s j) i c := by
          rw [hf.writes_step (hj i hil)]
          exact hc
        rw [run_cons, ih (pairwise_step hf h) hil hc']
        exact (hf.foot s i).value _ (hf.agree (hj i hil)) c hc

end Parallel

end Sync
