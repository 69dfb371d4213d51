import Mathlib.Data.List.Sort

/-!
# Stable sorting

Sorting keeps items that tie in their order, so a sorted list is determined by the order of
each item's ties.
-/

namespace Library
namespace StableSort

variable {Item : Type u} (before : Item → Item → Prop) [DecidableRel before]

/-- The items that tie with one, in their order. -/
def tied (item : Item) (items : List Item) : List Item :=
  items.filter fun other => before item other ∧ before other item

@[simp] theorem tied_nil (item : Item) : tied before item [] = [] := rfl

@[simp] theorem tied_append (item : Item) (first second : List Item) :
    tied before item (first ++ second) = tied before item first ++ tied before item second :=
  List.filter_append ..

theorem tied_cons_of_ties {item other : Item} (ties : before item other ∧ before other item)
    (items : List Item) : tied before item (other :: items) = other :: tied before item items :=
  List.filter_cons_of_pos (decide_eq_true ties)

theorem tied_cons_of_not_ties {item other : Item}
    (apart : ¬ (before item other ∧ before other item)) (items : List Item) :
    tied before item (other :: items) = tied before item items :=
  List.filter_cons_of_neg (by simpa using apart)

theorem mem_of_mem_tied {item other : Item} {items : List Item}
    (member : other ∈ tied before item items) : other ∈ items :=
  (List.mem_filter.mp member).1

/-- Sorting keeps a selection that is in order already as it is. -/
theorem filter_insertionSort {selects : Item → Bool} {items : List Item}
    (ordered : (items.filter selects).Pairwise before) :
    (items.insertionSort before).filter selects = items.filter selects := by
  have kept : (items.filter selects).Sublist (items.insertionSort before) :=
    List.sublist_insertionSort ordered List.filter_sublist
  have within : (items.filter selects).Sublist
      ((items.insertionSort before).filter selects) := by
    simpa only [List.filter_filter, Bool.and_self] using kept.filter selects
  have counted : ((items.insertionSort before).filter selects).length =
      (items.filter selects).length :=
    ((List.perm_insertionSort before items).filter _).length_eq
  exact (within.eq_of_length counted.symm).symm

section Trans

variable [IsTrans Item before]

/-- Items that tie with one tie with each other. -/
theorem pairwise_tied (item : Item) (items : List Item) :
    (tied before item items).Pairwise before := by
  apply List.pairwise_of_forall_mem_list
  intro first firstMember second secondMember
  simp only [tied, List.mem_filter, decide_eq_true_eq] at firstMember secondMember
  exact IsTrans.trans _ _ _ firstMember.2.2 secondMember.2.1

/-- Sorting keeps items that tie in their order. -/
@[simp] theorem tied_insertionSort (item : Item) (items : List Item) :
    tied before item (items.insertionSort before) = tied before item items :=
  filter_insertionSort before (pairwise_tied before item items)

end Trans

section Total

variable [Std.Total before]

omit [DecidableRel before] in
theorem refl_of_total (item : Item) : before item item :=
  (Std.Total.total item item).elim id id

/-- Two sorted lists are equal where the items that tie with each are. -/
theorem eq_of_tied {first second : List Item} (firstSorted : first.Pairwise before)
    (secondSorted : second.Pairwise before)
    (same : ∀ item, tied before item first = tied before item second) : first = second := by
  induction first generalizing second with
  | nil =>
      cases second with
      | nil => rfl
      | cons item second =>
          have itself := refl_of_total before item
          have ties := same item
          rw [tied_cons_of_ties before ⟨itself, itself⟩] at ties
          cases ties
  | cons item first inductionHypothesis =>
      have itself := refl_of_total before item
      have headTies := tied_cons_of_ties before ⟨itself, itself⟩ first
      cases second with
      | nil =>
          have ties := same item
          rw [headTies] at ties
          cases ties
      | cons other second =>
          have otherItself := refl_of_total before other
          have otherTies := tied_cons_of_ties before ⟨otherItself, otherItself⟩ second
          -- Each head is in the other list, so neither comes before the other.
          have otherMember : other ∈ item :: first := by
            apply mem_of_mem_tied before
            rw [same other, otherTies]
            exact List.mem_cons_self
          have itemMember : item ∈ other :: second := by
            apply mem_of_mem_tied before
            rw [← same item, headTies]
            exact List.mem_cons_self
          have itemFirst : before item other := by
            rcases List.mem_cons.mp otherMember with isItem | inFirst
            · rw [isItem]
              exact itself
            · exact (List.pairwise_cons.mp firstSorted).1 other inFirst
          have otherFirst : before other item := by
            rcases List.mem_cons.mp itemMember with isOther | inSecond
            · rw [isOther]
              exact otherItself
            · exact (List.pairwise_cons.mp secondSorted).1 item inSecond
          have heads : item = other := by
            have ties := same item
            rw [headTies, tied_cons_of_ties before ⟨itemFirst, otherFirst⟩] at ties
            exact (List.cons.inj ties).1
          rw [← heads] at same secondSorted ⊢
          congr 1
          apply inductionHypothesis (List.pairwise_cons.mp firstSorted).2
            (List.pairwise_cons.mp secondSorted).2
          intro third
          have ties := same third
          by_cases tiesHead : before third item ∧ before item third
          · rw [tied_cons_of_ties before tiesHead, tied_cons_of_ties before tiesHead] at ties
            exact (List.cons.inj ties).2
          · rwa [tied_cons_of_not_ties before tiesHead, tied_cons_of_not_ties before tiesHead]
              at ties

end Total

variable [IsTrans Item before]

/-- One item put before others of a sorted list that it comes before. -/
theorem orderedInsert_append_cons {first rest : List Item} {item last : Item}
    (sorted : (first ++ last :: rest).Pairwise before) :
    ∃ before' after', (first ++ last :: rest).orderedInsert before item =
        before' ++ last :: after' ∧
      (first ++ rest).orderedInsert before item = before' ++ after' ∧
      (∀ other ∈ first, other ∈ before') ∧ (before item last → item ∈ before') := by
  induction first with
  | nil =>
      rw [List.nil_append, List.nil_append, List.orderedInsert]
      by_cases earlier : before item last
      · rw [if_pos earlier]
        refine ⟨[item], rest, rfl, ?_, by simp, fun _ => List.mem_singleton_self _⟩
        cases rest with
        | nil => rfl
        | cons next rest =>
            have later : before item next := IsTrans.trans _ _ _ earlier
              ((List.pairwise_cons.mp sorted).1 next List.mem_cons_self)
            rw [List.orderedInsert, if_pos later]
            rfl
      · rw [if_neg earlier]
        exact ⟨[], _, rfl, rfl, by simp, fun isEarlier => absurd isEarlier earlier⟩
  | cons head first inductionHypothesis =>
      obtain ⟨before', after', inserted, without, kept, isBefore⟩ :=
        inductionHypothesis (List.pairwise_cons.mp sorted).2
      rw [List.cons_append, List.cons_append, List.orderedInsert, List.orderedInsert]
      by_cases earlier : before item head
      · rw [if_pos earlier, if_pos earlier]
        refine ⟨item :: head :: first, rest, rfl, rfl, ?_, fun _ => List.mem_cons_self⟩
        exact fun other member => List.mem_cons_of_mem _ member
      · rw [if_neg earlier, if_neg earlier, inserted, without]
        refine ⟨head :: before', after', rfl, rfl, ?_, ?_⟩
        · intro other member
          rcases List.mem_cons.mp member with rfl | inFirst
          · exact List.mem_cons_self
          · exact List.mem_cons_of_mem _ (kept other inFirst)
        · exact fun isEarlier => List.mem_cons_of_mem _ (isBefore isEarlier)

variable [Std.Total before]

/-- A front that is sorted already may be left so: the sort of the whole is the same. -/
theorem insertionSort_append (first second : List Item) :
    (first.insertionSort before ++ second).insertionSort before =
      (first ++ second).insertionSort before := by
  apply eq_of_tied before (List.pairwise_insertionSort before _)
    (List.pairwise_insertionSort before _)
  intro item
  simp

/-- Sorting a selection is selecting from the sort. -/
theorem insertionSort_filter (selects : Item → Bool) (items : List Item) :
    (items.filter selects).insertionSort before = (items.insertionSort before).filter selects := by
  apply eq_of_tied before (List.pairwise_insertionSort before _)
    ((List.pairwise_insertionSort before items).filter selects)
  intro item
  have swap (others : List Item) :
      tied before item (others.filter selects) = (tied before item others).filter selects := by
    rw [tied, tied, List.filter_filter, List.filter_filter]
    exact List.filter_congr fun _ _ => Bool.and_comm _ _
  rw [tied_insertionSort, swap, swap, tied_insertionSort]

/-- **One more item of a list is one more item of its sort**, after what comes before it: what
stands earlier and is not after it, and what it is not before. -/
theorem exists_insertionSort_append_cons (first rest : List Item) (item : Item) :
    ∃ before' after', (first ++ item :: rest).insertionSort before = before' ++ item :: after' ∧
      (first ++ rest).insertionSort before = before' ++ after' ∧
      (∀ other ∈ first, before other item → other ∈ before') ∧
      ∀ other ∈ rest, ¬ before item other → other ∈ before' := by
  induction first with
  | nil =>
      have sorted : (rest.insertionSort before).Pairwise before :=
        List.pairwise_insertionSort before rest
      rw [List.nil_append, List.nil_append, List.insertionSort_cons,
        List.orderedInsert_eq_take_drop]
      refine ⟨_, _, rfl, List.takeWhile_append_dropWhile.symm, by simp, ?_⟩
      intro other member notBefore
      have inSort : other ∈ rest.insertionSort before := (List.mem_insertionSort before).mpr member
      rw [← @List.takeWhile_append_dropWhile _ (fun other => ¬ before item other)
        (rest.insertionSort before)] at inSort sorted
      rcases List.mem_append.mp inSort with early | late
      · exact early
      · -- What is left opens with an item this one is before, and so before all of the rest.
        cases isLate : (rest.insertionSort before).dropWhile fun other => ¬ before item other with
        | nil =>
            rw [isLate] at late
            cases late
        | cons next later =>
            rw [isLate] at late sorted
            have isBefore : before item next := by
              have kept := List.head?_dropWhile_not (fun other => decide ¬ before item other)
                (rest.insertionSort before)
              rw [isLate] at kept
              simpa using kept
            refine absurd ?_ notBefore
            rcases List.mem_cons.mp late with rfl | inLater
            · exact isBefore
            · exact IsTrans.trans _ _ _ isBefore
                ((List.pairwise_cons.mp (List.pairwise_append.mp sorted).2.1).1 other inLater)
  | cons head first inductionHypothesis =>
      obtain ⟨before', after', inserted, without, kept, isBefore⟩ := inductionHypothesis
      have sorted : (before' ++ item :: after').Pairwise before := by
        rw [← inserted]
        exact List.pairwise_insertionSort before _
      rw [List.cons_append, List.cons_append, List.insertionSort_cons, List.insertionSort_cons,
        inserted, without]
      obtain ⟨newBefore, newAfter, newInserted, newWithout, newKept, headBefore⟩ :=
        @orderedInsert_append_cons _ before _ _ before' after' head item sorted
      refine ⟨newBefore, newAfter, newInserted, newWithout, ?_, ?_⟩
      · intro other member isEarlier
        rcases List.mem_cons.mp member with rfl | inFirst
        · exact headBefore isEarlier
        · exact newKept other (kept other inFirst isEarlier)
      · exact fun other member notBefore => newKept other (isBefore other member notBefore)

end StableSort
end Library
