import Mathlib.Logic.Basic

/-! # Runs of a labelled transition system

States reachable from an initial state by steps that a guard admits. An
invariant is shown once for the initial states and once for a step.
-/

namespace Dandelion.Foundation.Runs

set_option autoImplicit false

universe u v

variable {σ : Type u} {ι : Type v}

inductive Reachable (init : σ → Prop) (step : σ → ι → σ → Prop) : σ → Prop
  | init {s : σ} : init s → Reachable init step s
  | step {s s' : σ} {i : ι} : Reachable init step s → step s i s' → Reachable init step s'

variable {init : σ → Prop} {step step' : σ → ι → σ → Prop}

theorem Reachable.invariant (inv : σ → Prop) (hInit : ∀ s, init s → inv s)
    (hStep : ∀ s i s', inv s → step s i s' → inv s') {s : σ} (h : Reachable init step s) :
    inv s := by
  induction h with
  | init hs => exact hInit _ hs
  | step _ hNext ih => exact hStep _ _ _ ih hNext

theorem Reachable.mono (hStep : ∀ s i s', step s i s' → step' s i s') {s : σ}
    (h : Reachable init step s) : Reachable init step' s := by
  induction h with
  | init hs => exact .init hs
  | step _ hNext ih => exact .step ih (hStep _ _ _ hNext)

end Dandelion.Foundation.Runs
