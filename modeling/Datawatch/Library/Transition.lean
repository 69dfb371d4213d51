import Mathlib.Data.List.Basic
import Mathlib.Data.Option.Basic

/-!
# Runs of a labelled machine

A machine is a step function that answers `none` where the label is not enabled.
The environment is the list of labels, so a statement about every list of labels
is a statement about every interleaving.
-/

namespace Library
namespace Transition

variable {State : Type u} {Label : Type v}

/-- The state a list of labels leads to, or `none` where some label was refused. -/
def exec (step : State → Label → Option State) : List Label → State → Option State
  | [], state => some state
  | label :: labels, state =>
      (step state label).bind fun next => exec step labels next

/-- Every step a run takes is taken from a state that satisfies the guard. -/
def Guarded (step : State → Label → Option State) (guard : State → Label → Prop) :
    List Label → State → Prop
  | [], _ => True
  | label :: labels, state =>
      guard state label ∧
        ∀ next, step state label = some next → Guarded step guard labels next

@[simp] theorem exec_nil
    (step : State → Label → Option State) (state : State) :
    exec step [] state = some state := rfl

/-- The first step of a nonempty run. -/
theorem exec_cons_eq_some_iff
    {step : State → Label → Option State}
    {label : Label} {labels : List Label} {state final : State} :
    exec step (label :: labels) state = some final ↔
      ∃ next, step state label = some next ∧ exec step labels next = some final := by
  simp only [exec, Option.bind_eq_some_iff]

/-- A run is split wherever its labels are. -/
theorem exec_append
    (step : State → Label → Option State)
    (first second : List Label) (state : State) :
    exec step (first ++ second) state =
      (exec step first state).bind (exec step second) := by
  induction first generalizing state with
  | nil => rfl
  | cons label labels inductionHypothesis =>
      simp only [List.cons_append, exec, Option.bind_assoc]
      congr 1
      funext next
      exact inductionHypothesis next

/-- Whether a run is guarded is decided by running it. -/
instance decidableGuarded {step : State → Label → Option State} {guard : State → Label → Prop}
    [∀ state label, Decidable (guard state label)] :
    ∀ labels state, Decidable (Guarded step guard labels state)
  | [], _ => isTrue trivial
  | label :: labels, state =>
      match stepped : step state label with
      | none => decidable_of_iff (guard state label) (by simp [Guarded, stepped])
      | some next =>
          have : Decidable (Guarded step guard labels next) := decidableGuarded labels next
          decidable_of_iff (guard state label ∧ Guarded step guard labels next)
            (by simp [Guarded, stepped])

/-- A guarded run has guarded prefixes. -/
theorem Guarded.of_append
    {step : State → Label → Option State} {guard : State → Label → Prop}
    {first second : List Label} {state : State}
    (guarded : Guarded step guard (first ++ second) state) :
    Guarded step guard first state := by
  induction first generalizing state with
  | nil => trivial
  | cons label labels inductionHypothesis =>
      exact ⟨guarded.1, fun next stepped => inductionHypothesis (guarded.2 next stepped)⟩

/-- After a prefix has run, the rest of a guarded run is guarded. -/
theorem Guarded.drop
    {step : State → Label → Option State} {guard : State → Label → Prop}
    {first second : List Label} {state reached : State}
    (guarded : Guarded step guard (first ++ second) state)
    (run : exec step first state = some reached) :
    Guarded step guard second reached := by
  induction first generalizing state with
  | nil =>
      obtain rfl : state = reached := Option.some.inj run
      exact guarded
  | cons label labels inductionHypothesis =>
      obtain ⟨next, stepped, rest⟩ := exec_cons_eq_some_iff.mp run
      exact inductionHypothesis (guarded.2 next stepped) rest

/-- Two guards of one run are one guard. -/
theorem Guarded.and
    {step : State → Label → Option State} {first second : State → Label → Prop}
    {labels : List Label} {state : State}
    (isFirst : Guarded step first labels state) (isSecond : Guarded step second labels state) :
    Guarded step (fun state label => first state label ∧ second state label) labels state := by
  induction labels generalizing state with
  | nil => trivial
  | cons label labels inductionHypothesis =>
      exact ⟨⟨isFirst.1, isSecond.1⟩, fun next stepped =>
        inductionHypothesis (isFirst.2 next stepped) (isSecond.2 next stepped)⟩

/-- What holds at the start and survives every guarded step holds wherever a
guarded run arrives. -/
theorem invariant_of_guarded
    {step : State → Label → Option State} {guard : State → Label → Prop}
    {invariant : State → Prop}
    (preserved : ∀ state label next, invariant state → guard state label →
      step state label = some next → invariant next)
    {labels : List Label} {state final : State}
    (initially : invariant state)
    (guarded : Guarded step guard labels state)
    (run : exec step labels state = some final) :
    invariant final := by
  induction labels generalizing state with
  | nil =>
      obtain rfl : state = final := Option.some.inj run
      exact initially
  | cons label labels inductionHypothesis =>
      obtain ⟨next, stepped, rest⟩ := exec_cons_eq_some_iff.mp run
      exact inductionHypothesis
        (preserved state label next initially guarded.1 stepped)
        (guarded.2 next stepped) rest

/-- Two guards that agree wherever an invariant and a third guard hold agree on every run of
the third. -/
theorem guarded_iff_of_invariant
    {step : State → Label → Option State} {guard first second : State → Label → Prop}
    {invariant : State → Prop}
    (preserved : ∀ state label next, invariant state → guard state label →
      step state label = some next → invariant next)
    (agree : ∀ state label, invariant state → guard state label →
      (first state label ↔ second state label))
    {labels : List Label} {state : State}
    (initially : invariant state)
    (guarded : Guarded step guard labels state) :
    Guarded step first labels state ↔ Guarded step second labels state := by
  induction labels generalizing state with
  | nil => exact Iff.rfl
  | cons label labels inductionHypothesis =>
      apply and_congr (agree state label initially guarded.1)
      apply forall₂_congr
      intro next stepped
      exact inductionHypothesis (preserved state label next initially guarded.1 stepped)
        (guarded.2 next stepped)

/-- The unguarded case of `invariant_of_guarded`. -/
theorem invariant_of_exec
    {step : State → Label → Option State} {invariant : State → Prop}
    (preserved : ∀ state label next, invariant state →
      step state label = some next → invariant next)
    {labels : List Label} {state final : State}
    (initially : invariant state)
    (run : exec step labels state = some final) :
    invariant final := by
  induction labels generalizing state with
  | nil =>
      obtain rfl : state = final := Option.some.inj run
      exact initially
  | cons label labels inductionHypothesis =>
      obtain ⟨next, stepped, rest⟩ := exec_cons_eq_some_iff.mp run
      exact inductionHypothesis (preserved state label next initially stepped) rest

end Transition
end Library
