import Mathlib.Data.List.Sort
import Mathlib.Order.Bounds.Basic
import Datawatch.Library.Directory

/-!
# The first name of a content

A directory read backwards: the least of the names that hold a content, and what one more
entry makes of it.
-/

namespace Library
namespace Directory

variable {Name : Type u} {Content : Type v} [LinearOrder Name] [DecidableEq Name]
  [DecidableEq Content]

/-- The entries of a directory in the order of their names. -/
def inOrder (directory : Directory Name Content) : List (Σ _ : Name, Content) :=
  directory.entries.insertionSort fun first second => first.1 ≤ second.1

/-- The first name, in their order, that holds a content. -/
def firstHolding (directory : Directory Name Content) (content : Content) : Option Name :=
  (directory.inOrder.find? fun entry => entry.2 = content).map Sigma.fst

/-- The names that hold a content. -/
def Holding (directory : Directory Name Content) (content : Content) : Set Name :=
  {name | directory.lookup name = some content}

omit [DecidableEq Content] in
theorem mem_inOrder_iff {directory : Directory Name Content} {name : Name} {content : Content} :
    ⟨name, content⟩ ∈ directory.inOrder ↔ directory.lookup name = some content := by
  rw [inOrder, List.mem_insertionSort, mem_entries_iff_lookup]

omit [DecidableEq Name] [DecidableEq Content] in
theorem pairwise_inOrder (directory : Directory Name Content) :
    directory.inOrder.Pairwise fun first second => first.1 ≤ second.1 := by
  have total : Std.Total fun first second : (Σ _ : Name, Content) => first.1 ≤ second.1 :=
    ⟨fun first second => le_total first.1 second.1⟩
  have transitive : IsTrans (Σ _ : Name, Content) fun first second => first.1 ≤ second.1 :=
    ⟨fun _ _ _ => le_trans⟩
  exact List.pairwise_insertionSort _ _

omit [DecidableEq Name] [DecidableEq Content] in
/-- In the order of their names, no two entries have one name. -/
theorem pairwise_lt_inOrder (directory : Directory Name Content) :
    directory.inOrder.Pairwise fun first second => first.1 < second.1 := by
  have distinct : (directory.inOrder.map Sigma.fst).Nodup :=
    ((List.perm_insertionSort _ _).map _).nodup_iff.mpr directory.nodupKeys
  refine (directory.pairwise_inOrder.and (List.pairwise_map.mp distinct)).imp ?_
  intro first second ordered
  exact lt_of_le_of_ne ordered.1 ordered.2

/-- No name is found exactly where none holds the content. -/
theorem firstHolding_eq_none_iff {directory : Directory Name Content} {content : Content} :
    directory.firstHolding content = none ↔ ∀ name, name ∉ directory.Holding content := by
  simp only [firstHolding, Option.map_eq_none_iff, List.find?_eq_none, decide_eq_true_eq]
  constructor
  · intro absent name holds
    exact absent ⟨name, content⟩ (mem_inOrder_iff.mpr holds) rfl
  · intro absent entry member same
    refine absent entry.1 (mem_inOrder_iff.mp ?_)
    rw [← same]
    exact member

theorem isLeast_of_firstHolding_eq_some {directory : Directory Name Content} {content : Content}
    {name : Name} (first : directory.firstHolding content = some name) :
    IsLeast (directory.Holding content) name := by
  obtain ⟨entry, found, rfl⟩ := Option.map_eq_some_iff.mp first
  obtain ⟨same, before, after, listed, earlier⟩ := List.find?_eq_some_iff_append.mp found
  have holds : entry.2 = content := of_decide_eq_true same
  constructor
  · apply mem_inOrder_iff.mp
    rw [← holds]
    exact List.mem_of_find?_eq_some found
  · intro other otherHolds
    have member := mem_inOrder_iff.mpr otherHolds
    have sorted := directory.pairwise_inOrder
    rw [listed] at member sorted
    -- What stands before the first holds another content; what stands after it is no less.
    cases List.mem_append.mp member with
    | inl isBefore => simpa using earlier _ isBefore
    | inr isAfter =>
        cases List.mem_cons.mp isAfter with
        | inl isFirst => exact le_of_eq (congrArg Sigma.fst isFirst).symm
        | inr isLater =>
            exact List.rel_of_pairwise_cons (List.pairwise_append.mp sorted).2.1 isLater

/-- The name found is the least that holds the content. -/
theorem firstHolding_eq_some_iff {directory : Directory Name Content} {content : Content}
    {name : Name} :
    directory.firstHolding content = some name ↔ IsLeast (directory.Holding content) name := by
  refine ⟨isLeast_of_firstHolding_eq_some, fun least => ?_⟩
  cases found : directory.firstHolding content with
  | none => exact absurd least.1 (firstHolding_eq_none_iff.mp found name)
  | some other => rw [(isLeast_of_firstHolding_eq_some found).unique least]

/-- Directories whose names hold a content alike have the same first name for it. -/
theorem firstHolding_congr {first second : Directory Name Content} {content : Content}
    (alike : ∀ name, first.lookup name = some content ↔ second.lookup name = some content) :
    first.firstHolding content = second.firstHolding content := by
  have sameNames : first.Holding content = second.Holding content := Set.ext alike
  ext name
  rw [firstHolding_eq_some_iff, firstHolding_eq_some_iff, sameNames]

/-- An entry changes nothing for a content it neither holds nor replaces. -/
theorem firstHolding_insert_of_ne {directory : Directory Name Content} {name : Name}
    {content other : Content} (notNew : other ≠ content)
    (notOld : directory.lookup name ≠ some other) :
    firstHolding (directory.insert name content) other = directory.firstHolding other := by
  apply firstHolding_congr
  intro held
  by_cases same : held = name
  · subst same
    simp [Ne.symm notNew, notOld]
  · rw [AList.lookup_insert_ne same]

omit [LinearOrder Name] [DecidableEq Content] in
/-- The names that hold the content of an entry, once it is there. -/
theorem holding_insert_self (directory : Directory Name Content) (name : Name)
    (content : Content) :
    Holding (directory.insert name content) content = insert name (directory.Holding content) := by
  ext held
  simp only [Holding, Set.mem_ofPred_eq, Set.mem_insert_iff]
  by_cases same : held = name
  · subst same
    simp
  · simp [same, AList.lookup_insert_ne same]

/-- An entry's name is the first to hold its content, unless an earlier one does. -/
theorem firstHolding_insert_self (directory : Directory Name Content) (name : Name)
    (content : Content) :
    firstHolding (directory.insert name content) content =
      some ((directory.firstHolding content).elim name (min name)) := by
  rw [firstHolding_eq_some_iff, holding_insert_self]
  cases found : directory.firstHolding content with
  | none =>
      have nobody := Set.eq_empty_of_forall_notMem (firstHolding_eq_none_iff.mp found)
      rw [nobody, insert_empty_eq]
      exact isLeast_singleton
  | some held =>
      exact (firstHolding_eq_some_iff.mp found).insert name

/-- Where another name was the first to hold what an entry replaces, it still is. -/
theorem firstHolding_insert_of_other_first {directory : Directory Name Content}
    {name first : Name} {content old : Content} (changed : old ≠ content)
    (isFirst : directory.firstHolding old = some first) (other : first ≠ name) :
    firstHolding (directory.insert name content) old = some first := by
  have least := firstHolding_eq_some_iff.mp isFirst
  rw [firstHolding_eq_some_iff]
  refine ⟨(AList.lookup_insert_ne other).trans least.1, fun held holds => ?_⟩
  apply least.2
  by_cases same : held = name
  · subst same
    exact absurd (Option.some.inj ((AList.lookup_insert _).symm.trans holds)) (Ne.symm changed)
  · exact (AList.lookup_insert_ne same).symm.trans holds

end Directory
end Library
