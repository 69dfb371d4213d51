import Mathlib.Data.List.TakeWhile
import Mathlib.Order.Lattice

/-!
# Partition points

Where a list stops satisfying a predicate, and what a sorted list holds from there on.
-/

namespace Library

variable {α : Type u}

/-- How many items at a list's start satisfy a predicate. -/
def partitionPoint (holds : α → Bool) (items : List α) : Nat := (items.takeWhile holds).length

/-- The item at the partition point is the first that does not satisfy the predicate. -/
theorem getElem?_partitionPoint (holds : α → Bool) (items : List α) :
    items[partitionPoint holds items]? = items.find? fun item => !holds item := by
  induction items with
  | nil => rfl
  | cons item items inductionHypothesis =>
      rw [partitionPoint] at inductionHypothesis ⊢
      cases satisfied : holds item with
      | false => simp [satisfied]
      | true => simp [satisfied, inductionHypothesis]

section Sorted

variable [LinearOrder α]

omit [LinearOrder α] in
/-- Nothing stands at the partition point exactly where every item satisfies the predicate. -/
theorem getElem?_partitionPoint_eq_none_iff {holds : α → Bool} {items : List α} :
    items[partitionPoint holds items]? = none ↔ ∀ item ∈ items, holds item = true := by
  simp [getElem?_partitionPoint]

/-- In a sorted list the item at the partition point is the least that is not below a bound. -/
theorem of_getElem?_partitionPoint_eq_some {items : List α} (sorted : items.Pairwise (· ≤ ·))
    {bound item : α} (found : items[partitionPoint (· < bound) items]? = some item) :
    item ∈ items ∧ bound ≤ item ∧ ∀ other ∈ items, bound ≤ other → item ≤ other := by
  rw [getElem?_partitionPoint] at found
  obtain ⟨notBelow, before, after, listed, below⟩ := List.find?_eq_some_iff_append.mp found
  refine ⟨List.mem_of_find?_eq_some found, by simpa using notBelow, ?_⟩
  intro other member above
  rw [listed] at member sorted
  cases List.mem_append.mp member with
  | inl isBefore =>
      have isBelow : other < bound := by simpa using below other isBefore
      exact absurd above isBelow.not_ge
  | inr isAfter =>
      cases List.mem_cons.mp isAfter with
      | inl same => exact same.ge
      | inr later => exact List.rel_of_pairwise_cons (List.pairwise_append.mp sorted).2.1 later

end Sorted

end Library
