import Mathlib.Tactic.Common

/-!
# Properties along a run

A run folds a step over events. A property that a step keeps just when it meets a condition holds all along
a run just when every step of the run meets the condition.
-/

namespace FullNode

variable {σ ε : Type}

theorem along_iff (step : σ → ε → σ) (inv good : σ → Prop) (meets : σ → ε → Prop)
    (hinv : ∀ s e, inv s → inv (step s e)) (hstep : ∀ s e, inv s → good s → (good (step s e) ↔ meets s e))
    {start : σ} (hstart : inv start) (hgood : good start) (events : List ε) :
    (∀ n ≤ events.length, good ((events.take n).foldl step start)) ↔
      ∀ n event, events[n]? = some event → meets ((events.take n).foldl step start) event := by
  induction events generalizing start with
  | nil =>
    constructor
    · intro _ n event hevent
      cases hevent
    · intro _ n _
      simpa using hgood
  | cons first events ih =>
    constructor
    · intro hall n event hevent
      have hnext : good (step start first) := hall 1 (by simp)
      cases n with
      | zero =>
        cases hevent
        exact (hstep start first hstart hgood).mp hnext
      | succ n => exact (ih (hinv start first hstart) hnext).mp (fun m hm =>
        hall (m + 1) (by simpa using hm)) n event hevent
    · intro hall n hn
      have hnext : good (step start first) := (hstep start first hstart hgood).mpr (hall 0 first rfl)
      cases n with
      | zero => exact hgood
      | succ n =>
        refine (ih (hinv start first hstart) hnext).mpr ?_ n (by simpa using hn)
        intro m event hevent
        exact hall (m + 1) event hevent

end FullNode
