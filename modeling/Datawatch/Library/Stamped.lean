import Mathlib.Data.List.Pairwise
import Mathlib.Data.Option.Basic

/-!
# Stamped changes

Keys hold values that change over time, and every change stamps its key.  A history is every
change so far, oldest first, and a moment is how many of them have been made.
-/

namespace Library
namespace Stamped

variable {Key : Type u} {Value : Type v} [DecidableEq Key]

/-- One change: what a key holds from then on, or `none` where it is gone. -/
structure Change (Key : Type u) (Value : Type v) where
  key : Key
  stamp : Nat
  value : Option Value
deriving DecidableEq

/-- What a key holds at a moment and the stamp it carries. -/
def heldAt (history : List (Change Key Value)) (moment : Nat) (key : Key) :
    Option (Nat × Value) :=
  ((history.take moment).filter fun change => change.key = key).getLast?.bind fun change =>
    change.value.map fun value => (change.stamp, value)

variable {history : List (Change Key Value)} {moment earlier later stamp : Nat} {key : Key}
  {value : Value}

/-- Later changes leave an earlier moment as it was. -/
@[simp] theorem heldAt_append (within : moment ≤ history.length)
    (more : List (Change Key Value)) :
    heldAt (history ++ more) moment key = heldAt history moment key := by
  rw [heldAt, heldAt, List.take_append_of_le_length within]

/-- A stamp is that of a change made before. -/
theorem exists_change_of_heldAt (held : heldAt history moment key = some (stamp, value)) :
    ∃ change ∈ history.take moment, change.key = key ∧ change.stamp = stamp := by
  simp only [heldAt, Option.bind_eq_some_iff, Option.map_eq_some_iff, Prod.mk.injEq] at held
  obtain ⟨change, isLast, _, _, isStamp, _⟩ := held
  have member := List.mem_filter.mp (List.mem_of_getLast? isLast)
  exact ⟨change, member.1, of_decide_eq_true member.2, isStamp⟩

/-- A key that carries a stamp no change since an earlier moment has set holds what it held
then. -/
theorem heldAt_eq_of_unchanged (ordered : earlier ≤ later)
    (held : heldAt history later key = some (stamp, value))
    (unchanged : ∀ change ∈ history.drop earlier, change.key = key → change.stamp ≠ stamp) :
    heldAt history earlier key = some (stamp, value) := by
  have parts : history.take later =
      history.take earlier ++ (history.drop earlier).take (later - earlier) := by
    rw [← List.take_add, Nat.add_sub_cancel' ordered]
  rw [heldAt, parts, List.filter_append, List.getLast?_append] at held
  cases since : (((history.drop earlier).take (later - earlier)).filter fun change =>
      change.key = key).getLast? with
  | none =>
      rw [since, Option.none_or] at held
      exact held
  | some change =>
      have member := List.mem_filter.mp (List.mem_of_getLast? since)
      rw [since, Option.some_or, Option.bind_some, Option.map_eq_some_iff] at held
      obtain ⟨_, _, same⟩ := held
      exact absurd (Prod.mk.inj same).1
        (unchanged change (List.mem_of_mem_take member.1) (of_decide_eq_true member.2))

end Stamped
end Library
