import Mathlib.Data.List.Basic

/-!
# Steps that may end early

A step gives the next state, or ends with the state it left.  What each outcome satisfies is
composed along a sequence and carried around a loop.
-/

namespace Library
namespace Outcome

variable {State Next : Type u} {Item : Type v} {Final : Type w}

/-- What a step that goes on satisfies, and what one that ends leaves. -/
def Leaves (goesOn : State → Prop) (ends : Final → Prop) : Except Final State → Prop
  | .ok state => goesOn state
  | .error state => ends state

variable {goesOn between : State → Prop} {ends : Final → Prop}

@[simp] theorem leaves_ok (state : State) :
    Leaves goesOn ends (.ok state) ↔ goesOn state := Iff.rfl

@[simp] theorem leaves_error (state : Final) :
    Leaves goesOn ends (.error state) ↔ ends state := Iff.rfl

/-- A step that has gone on is followed by the next. -/
theorem ok_bind {second : State → Except Final Next} (state : State) :
    (Except.ok state >>= second) = second state := rfl

/-- One step and then another. -/
theorem Leaves.bind {first : Except Final State} {second : State → Except Final Next}
    {after : Next → Prop} (leaves : Leaves between ends first)
    (next : ∀ state, between state → Leaves after ends (second state)) :
    Leaves after ends (first >>= second) := by
  cases first with
  | ok state => exact next state leaves
  | error state => exact leaves

/-- A step satisfies anything weaker. -/
theorem Leaves.imp {outcome : Except Final State} {weaker : State → Prop}
    (leaves : Leaves goesOn ends outcome) (implies : ∀ state, goesOn state → weaker state) :
    Leaves weaker ends outcome := by
  cases outcome with
  | ok state => exact implies state leaves
  | error state => exact leaves

/-- A loop keeps what each of its steps keeps. -/
theorem Leaves.foldlM {step : State → Item → Except Final State} {items : List Item}
    (keeps : ∀ item ∈ items, ∀ state, goesOn state → Leaves goesOn ends (step state item))
    {state : State} (initially : goesOn state) :
    Leaves goesOn ends (items.foldlM step state) := by
  induction items generalizing state with
  | nil => exact initially
  | cons item items inductionHypothesis =>
      rw [List.foldlM_cons]
      apply Leaves.bind (keeps item List.mem_cons_self state initially)
      intro next kept
      exact inductionHypothesis
        (fun other member => keeps other (List.mem_cons_of_mem _ member)) kept

/-- What a step that goes on satisfies, whatever one that ends leaves. -/
theorem Leaves.whateverEnds {outcome : Except Final State} (leaves : Leaves goesOn ends outcome) :
    Leaves goesOn (fun _ => True) outcome := by
  cases outcome with
  | ok state => exact leaves
  | error state => trivial

/-- Two things that hold of an outcome hold of it together. -/
theorem Leaves.and {outcome : Except Final State} {also : State → Prop} {alsoEnds : Final → Prop}
    (leaves : Leaves goesOn ends outcome) (other : Leaves also alsoEnds outcome) :
    Leaves (fun state => goesOn state ∧ also state) ends outcome := by
  cases outcome with
  | ok state => exact ⟨leaves, other⟩
  | error state => exact leaves

/-- A loop over different items, each of whose steps has a precondition that the steps of the
others leave standing. -/
theorem Leaves.foldlM_each {step : State → Item → Except Final State} {items : List Item}
    (nodup : items.Nodup) {ready : Item → State → Prop}
    (keeps : ∀ item ∈ items, ∀ state, goesOn state → ready item state →
      Leaves (fun next => goesOn next ∧ ∀ other, other ≠ item → ready other state →
        ready other next) ends (step state item))
    {state : State} (initially : goesOn state) (each : ∀ item ∈ items, ready item state) :
    Leaves goesOn ends (items.foldlM step state) := by
  induction items generalizing state with
  | nil => exact initially
  | cons item items inductionHypothesis =>
      rw [List.foldlM_cons]
      apply Leaves.bind (keeps item List.mem_cons_self state initially
        (each item List.mem_cons_self))
      rintro next ⟨kept, others⟩
      apply inductionHypothesis nodup.of_cons
        (fun other member => keeps other (List.mem_cons_of_mem _ member)) kept
      intro other member
      have different : other ≠ item := by
        rintro rfl
        exact (List.nodup_cons.mp nodup).1 member
      exact others other different (each other (List.mem_cons_of_mem _ member))

/-- A bind that succeeded ran both of its halves. -/
theorem bind_eq_ok {Error : Type u} {α : Type v} {β : Type w} {first : Except Error α}
    {next : α → Except Error β} {result : β} (ran : first.bind next = .ok result) :
    ∃ value, first = .ok value ∧ next value = .ok result := by
  cases first with
  | error reason => cases ran
  | ok value => exact ⟨value, rfl, ran⟩

end Outcome
end Library
