/-
# MxtChain.Lib.Transition — invariants and progress of transition systems.

A system is a type of states with a step relation; nothing is said about who takes a step, so a
result about all steps is a result about every scheduling. `Reachable.invariant` is the induction
on runs. `Inevitable step P s` says that from `s` every scheduling comes to a state with `P`: no
run stops before, and none goes on for ever.
-/
import Mathlib.Logic.Relation

namespace MxtChain.Lib.Transition

variable {σ : Type*} {step : σ → σ → Prop} {I P : σ → Prop} {s t : σ}

/-- The states that runs from `init` come to. -/
def Reachable (step : σ → σ → Prop) (init : σ) : σ → Prop := Relation.ReflTransGen step init

/-- What holds at first and is kept by every step holds in every reachable state. -/
theorem Reachable.invariant {init : σ} (h : Reachable step init s) (hinit : I init)
    (hstep : ∀ s t, I s → step s t → I t) : I s := by
  induction h with
  | refl => exact hinit
  | tail _ hst ih => exact hstep _ _ ih hst

/-- Every run from here comes to a state with `P`. -/
inductive Inevitable (step : σ → σ → Prop) (P : σ → Prop) : σ → Prop
  | now {s : σ} : P s → Inevitable step P s
  | later {s : σ} : (∃ t, step s t) → (∀ t, step s t → Inevitable step P t) → Inevitable step P s

/-- If some step can be taken as long as `P` does not hold, and every step brings a measure down,
then `P` is inevitable. -/
theorem inevitable_of_measure (m : σ → Nat) (hstep : ∀ s t, I s → step s t → I t)
    (hdown : ∀ s t, I s → step s t → m t < m s) (hprogress : ∀ s, I s → ¬ P s → ∃ t, step s t)
    (hs : I s) : Inevitable step P s := by
  induction hm : m s using Nat.strongRecOn generalizing s with
  | ind k ih =>
    by_cases hp : P s
    · exact .now hp
    · refine .later (hprogress s hs hp) fun t ht => ?_
      exact ih (m t) (hm ▸ hdown s t hs ht) (hstep s t hs ht) rfl

end MxtChain.Lib.Transition
