import Mathlib.Data.List.Basic
import Mathlib.Algebra.Order.Ring.Int

/-!
# Pages of the oldest

A page of a sorted history holds the oldest items at or after a start, as many as fit.  What it
leaves out is no older than anything it holds.
-/

namespace Library
namespace Pages

variable {Item : Type u} {time : Item → Int} {items : List Item} {size : Nat} {start : Int}
  {item : Item}

/-- The oldest items at or after a start, as many as a page holds. -/
def oldest (time : Item → Int) (items : List Item) (size : Nat) (start : Int) : List Item :=
  (items.filter fun item => decide (start ≤ time item)).take size

/-- A page holds items at or after its start. -/
theorem mem_of_mem_oldest (member : item ∈ oldest time items size start) :
    item ∈ items ∧ start ≤ time item := by
  have inFilter := List.mem_of_mem_take member
  rw [List.mem_filter, decide_eq_true_eq] at inFilter
  exact inFilter

/-- A page of a sorted history is sorted. -/
theorem pairwise_oldest {relation : Item → Item → Prop} (sorted : items.Pairwise relation) :
    (oldest time items size start).Pairwise relation :=
  sorted.sublist ((List.take_sublist _ _).trans List.filter_sublist)

/-- A page holds what, at or after its own start, a page from no later a start holds. -/
theorem mem_oldest_of_le {earlier : Int} (member : item ∈ oldest time items size earlier)
    (le : earlier ≤ start) (later : start ≤ time item) : item ∈ oldest time items size start := by
  let kept := items.filter fun item => decide (earlier ≤ time item)
  have front : (kept.take size).filter (fun item => decide (start ≤ time item)) <+:
      kept.filter fun item => decide (start ≤ time item) :=
    (List.take_prefix size kept).filter _
  have few : ((kept.take size).filter fun item => decide (start ≤ time item)).length ≤ size :=
    (List.length_filter_le _ _).trans (List.length_take_le _ _)
  have same : kept.filter (fun item => decide (start ≤ time item)) =
      items.filter fun item => decide (start ≤ time item) := by
    rw [List.filter_filter]
    apply List.filter_congr
    intro other _
    rw [Bool.eq_iff_iff, Bool.and_eq_true, decide_eq_true_eq, decide_eq_true_eq]
    omega
  rw [same] at front
  exact (List.prefix_take_iff.mpr ⟨front, few⟩).subset
    (List.mem_filter.mpr ⟨member, decide_eq_true later⟩)

/-- A page that leaves out an item at or after its start is full, and holds nothing later. -/
theorem full_of_not_mem_oldest
    (sorted : items.Pairwise fun first second => time first ≤ time second)
    (isItem : item ∈ items) (later : start ≤ time item)
    (leftOut : item ∉ oldest time items size start) :
    (oldest time items size start).length = size ∧
      ∀ sent ∈ oldest time items size start, time sent ≤ time item := by
  let rest := items.filter fun item => decide (start ≤ time item)
  have isRest : item ∈ rest := List.mem_filter.mpr ⟨isItem, decide_eq_true later⟩
  have dropped : item ∈ rest.drop size := by
    rw [← List.take_append_drop size rest, List.mem_append] at isRest
    exact isRest.resolve_left leftOut
  have isSorted : rest.Pairwise fun first second => time first ≤ time second :=
    sorted.sublist List.filter_sublist
  constructor
  · have nonempty := List.length_pos_of_mem dropped
    rw [List.length_drop] at nonempty
    have : (rest.take size).length = size := by
      rw [List.length_take]
      omega
    exact this
  · intro sent isSent
    rw [← List.take_append_drop size rest, List.pairwise_append] at isSorted
    exact isSorted.2.2 sent isSent item dropped

end Pages
end Library
