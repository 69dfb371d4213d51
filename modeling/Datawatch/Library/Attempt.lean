import Mathlib.Logic.Basic

/-!
# Functions that may panic

What a function came to, and what follows where it returned.
-/

namespace Library

/-- What a function came to: it panicked, or it returned. -/
inductive Attempt (Result : Type u)
  | panics
  | returns (result : Result)
deriving DecidableEq

namespace Attempt

/-- Go on with what was returned. -/
def bind {First : Type u} {Second : Type v} :
    Attempt First → (First → Attempt Second) → Attempt Second
  | panics, _ => panics
  | returns result, next => next result

@[simp] theorem returns_bind {First : Type u} {Second : Type v} (result : First)
    (next : First → Attempt Second) : (returns result).bind next = next result := rfl

@[simp] theorem panics_bind {First : Type u} {Second : Type v}
    (next : First → Attempt Second) : panics.bind next = panics := rfl

/-- What went on returned exactly where both parts did. -/
theorem bind_eq_returns_iff {First : Type u} {Second : Type v} {first : Attempt First}
    {next : First → Attempt Second} {result : Second} :
    first.bind next = returns result ↔
      ∃ reached, first = returns reached ∧ next reached = returns result := by
  cases first with
  | panics => simp
  | returns reached => simp

/-- Go on with what was returned without an error. -/
def andThen {Error : Type u} {First : Type v} {Second : Type w} :
    Attempt (Except Error First) → (First → Attempt (Except Error Second)) →
      Attempt (Except Error Second)
  | panics, _ => panics
  | returns (.error reason), _ => returns (.error reason)
  | returns (.ok result), next => next result

@[simp] theorem panics_andThen {Error : Type u} {First : Type v} {Second : Type w}
    (next : First → Attempt (Except Error Second)) : panics.andThen next = panics := rfl

@[simp] theorem error_andThen {Error : Type u} {First : Type v} {Second : Type w}
    (reason : Error) (next : First → Attempt (Except Error Second)) :
    (returns (.error reason)).andThen next = returns (.error reason) := rfl

@[simp] theorem ok_andThen {Error : Type u} {First : Type v} {Second : Type w} (result : First)
    (next : First → Attempt (Except Error Second)) :
    (returns (.ok result)).andThen next = next result := rfl

/-- What was returned satisfies, where anything was. -/
def Satisfies {Result : Type u} (holds : Result → Prop) : Attempt Result → Prop
  | panics => False
  | returns result => holds result

@[simp] theorem satisfies_returns {Result : Type u} {holds : Result → Prop} {result : Result} :
    (returns result).Satisfies holds ↔ holds result := Iff.rfl

@[simp] theorem satisfies_panics {Result : Type u} {holds : Result → Prop} :
    (panics : Attempt Result).Satisfies holds ↔ False := Iff.rfl

end Attempt

end Library
