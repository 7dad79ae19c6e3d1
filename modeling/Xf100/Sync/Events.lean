/-
  File:      Xf100/Sync/Events.lean
  Subject:   Registers with an asynchronous reset, event by event and edge by edge.

  An `always @(posedge clk or negedge rst_n)` block runs at two kinds of events. Between two
  rising clock edges the reset can change any number of times; all that comes of it is whether
  it fell, and where it is at the edge. `samples` keeps just that of a history, and
  `run_events` says that it is enough: the registers after any history of events are those after
  its samples, one step for each clock edge.
-/
import Xf100.Sync.Machine

namespace Sync

/-- An event: a rising clock edge with what it is fed, or the reset, active low, taking a value. -/
inductive Event (ι : Type*) where
  | clk (i : ι)
  | rst (b : Bool)

/-- What a clock edge sees: whether the reset fell since the edge before, and whether it is up. -/
structure Sample (ι : Type*) where
  fell : Bool
  up : Bool
  input : ι

section Events

variable {σ ι : Type*}

/-- The samples of a history that starts with these two values. -/
def samples (fell up : Bool) : List (Event ι) → List (Sample ι)
  | [] => []
  | .clk i :: l => ⟨fell, up, i⟩ :: samples false up l
  | .rst b :: l => samples (fell || (up && !b)) b l

/-- Whether the reset fell after the last clock edge of the history. -/
def fellAfter (fell up : Bool) : List (Event ι) → Bool
  | [] => fell
  | .clk _ :: l => fellAfter false up l
  | .rst b :: l => fellAfter (fell || (up && !b)) b l

/-- Where the reset is after the history. -/
def upAfter (up : Bool) : List (Event ι) → Bool
  | [] => up
  | .clk _ :: l => upAfter up l
  | .rst b :: l => upAfter b l

section Append

variable (l l' : List (Event ι)) (fell up : Bool)

theorem samples_append : samples fell up (l ++ l') =
    samples fell up l ++ samples (fellAfter fell up l) (upAfter up l) l' := by
  induction l generalizing fell up with
  | nil => rfl
  | cons e l ih =>
      cases e with
      | clk i => exact congrArg (_ :: ·) (ih false up)
      | rst b => exact ih _ b

theorem fellAfter_append : fellAfter fell up (l ++ l') =
    fellAfter (fellAfter fell up l) (upAfter up l) l' := by
  induction l generalizing fell up with
  | nil => rfl
  | cons e l ih =>
      cases e with
      | clk i => exact ih false up
      | rst b => exact ih _ b

theorem upAfter_append : upAfter up (l ++ l') = upAfter (upAfter up l) l' := by
  induction l generalizing up with
  | nil => rfl
  | cons e l ih =>
      cases e with
      | clk i => exact ih up
      | rst b => exact ih b

end Append

variable (clk : Bool → σ → ι → σ) (fall : σ → σ)

/-- **One event**: the blocks run at a rising clock edge, with the value of the reset, and when the
    reset falls; nothing runs when it rises. -/
def eventStep (p : Bool × σ) : Event ι → Bool × σ
  | .clk i => (p.1, clk p.1 p.2 i)
  | .rst b => (b, if p.1 && !b then fall p.2 else p.2)

/-- **One clock edge**, the reset settling first. -/
def sampleStep (s : σ) (c : Sample ι) : σ := clk c.up (if c.fell || !c.up then fall s else s) c.input

/-- **Events are samples.** If the reset, falling once more or after a clock edge under reset, changes
    nothing, the registers after a history are those after its samples. -/
theorem run_events (hfall : ∀ s, fall (fall s) = fall s)
    (hclk : ∀ s i, fall (clk false (fall s) i) = clk false (fall s) i) (l : List (Event ι))
    (fell up : Bool) {s : σ} (hs : up = false → fell = true ∨ fall s = s) :
    (run (eventStep clk fall) (up, if fell then fall s else s) l).2 =
      if fellAfter fell up l then fall (run (sampleStep clk fall) s (samples fell up l))
      else run (sampleStep clk fall) s (samples fell up l) := by
  induction l generalizing fell up s with
  | nil => rfl
  | cons e l ih =>
      cases e with
      | clk i =>
          have hsettled : (if fell || !up then fall s else s) = if fell then fall s else s := by
            cases up with
            | true => simp
            | false =>
                rcases hs rfl with h | h
                · simp [h]
                · simp [h]
          have hstep : sampleStep clk fall s ⟨fell, up, i⟩ = clk up (if fell then fall s else s) i :=
            congrArg (clk up · i) hsettled
          have hnext := ih false up (s := sampleStep clk fall s ⟨fell, up, i⟩)
            fun h => Or.inr (by subst h; simpa [sampleStep] using hclk s i)
          rw [hstep] at hnext
          rw [samples, run_cons, run_cons, hstep]
          exact hnext
      | rst b =>
          have hstep : (if fell || (up && !b) then fall s else s) =
              if up && !b then fall (if fell then fall s else s) else if fell then fall s else s := by
            cases up && !b with
            | true => cases fell <;> simp [hfall]
            | false => simp
          have hnext := ih (fell || (up && !b)) b (s := s) fun h => by
            cases up with
            | true => simp [h]
            | false => simpa using hs rfl
          rw [hstep] at hnext
          exact hnext

end Events

end Sync
