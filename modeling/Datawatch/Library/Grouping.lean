import Mathlib.Data.List.Nodup
import Mathlib.Data.List.Perm.Basic
import Mathlib.Data.List.Induction

/-!
# Grouping by a key

Values are put, in their order, into one list for each key, and the keys stand in
the order they were first seen.
-/

namespace Library
namespace Grouping

variable {Key : Type u} {Value : Type v} [DecidableEq Key]

/-- Put one value under its key: at the end of the list there, or in a new one. -/
def push (key : Key) (value : Value) : List (Key × List Value) → List (Key × List Value)
  | [] => [(key, [value])]
  | (other, values) :: rest =>
      if other = key then (other, values ++ [value]) :: rest
      else (other, values) :: push key value rest

/-- Every value under its key. -/
def groupBy (keyOf : Value → Key) (values : List Value) : List (Key × List Value) :=
  values.foldl (fun groups value => push (keyOf value) value groups) []

/-- Putting a value under its key adds it once. -/
theorem perm_flatMap_push (key : Key) (value : Value) (groups : List (Key × List Value)) :
    ((push key value groups).flatMap Prod.snd).Perm (value :: groups.flatMap Prod.snd) := by
  induction groups with
  | nil => simp [push]
  | cons group groups inductionHypothesis =>
      obtain ⟨other, values⟩ := group
      unfold push
      split
      · simp only [List.flatMap_cons, List.append_assoc, List.singleton_append]
        exact List.perm_middle
      · simp only [List.flatMap_cons]
        exact (inductionHypothesis.append_left values).trans List.perm_middle

theorem mem_keys_push {key : Key} {value : Value} {groups : List (Key × List Value)}
    {other : Key} :
    other ∈ (push key value groups).map Prod.fst ↔
      other = key ∨ other ∈ groups.map Prod.fst := by
  induction groups with
  | nil => simp [push]
  | cons group groups inductionHypothesis =>
      unfold push
      split
      · rename_i same
        simp [same]
      · simp only [List.map_cons, List.mem_cons, inductionHypothesis]
        tauto

theorem nodup_keys_push {key : Key} {value : Value} {groups : List (Key × List Value)}
    (distinct : (groups.map Prod.fst).Nodup) : ((push key value groups).map Prod.fst).Nodup := by
  induction groups with
  | nil => simp [push]
  | cons group groups inductionHypothesis =>
      obtain ⟨fresh, distinctRest⟩ := List.nodup_cons.mp distinct
      unfold push
      split
      · exact distinct
      · rename_i other
        refine List.nodup_cons.mpr ⟨fun member => ?_, inductionHypothesis distinctRest⟩
        rcases mem_keys_push.mp member with same | old
        · exact other same
        · exact fresh old

/-- The values under a key: none where the key is not there. -/
def valuesOf (key : Key) (groups : List (Key × List Value)) : List Value :=
  ((groups.find? fun group => group.1 = key).map Prod.snd).getD []

theorem valuesOf_eq_of_mem {key : Key} {values : List Value} {groups : List (Key × List Value)}
    (distinct : (groups.map Prod.fst).Nodup) (member : (key, values) ∈ groups) :
    valuesOf key groups = values := by
  induction groups with
  | nil => cases member
  | cons group groups inductionHypothesis =>
      obtain ⟨fresh, distinctRest⟩ := List.nodup_cons.mp distinct
      rcases List.mem_cons.mp member with rfl | inRest
      · simp [valuesOf]
      · have other : group.1 ≠ key := fun same =>
          fresh (same ▸ List.mem_map_of_mem inRest)
        have rest := inductionHypothesis distinctRest inRest
        simpa [valuesOf, other] using rest

theorem valuesOf_eq_nil {key : Key} {groups : List (Key × List Value)}
    (absent : key ∉ groups.map Prod.fst) : valuesOf key groups = [] := by
  have notFound : (groups.find? fun group => group.1 = key) = none :=
    List.find?_eq_none.mpr fun group member same => by
      simp only [decide_eq_true_eq] at same
      exact absent (same ▸ List.mem_map_of_mem member)
  simp [valuesOf, notFound]

/-- What `push` leaves under each key. -/
theorem of_mem_push {key other : Key} {value : Value} {values : List Value}
    {groups : List (Key × List Value)} (distinct : (groups.map Prod.fst).Nodup)
    (member : (other, values) ∈ push key value groups) :
    (other = key ∧ values = valuesOf key groups ++ [value]) ∨
      (other ≠ key ∧ (other, values) ∈ groups) := by
  induction groups with
  | nil =>
      simp only [push, List.mem_singleton, Prod.mk.injEq] at member
      exact .inl ⟨member.1, by simp [valuesOf, member.2]⟩
  | cons group groups inductionHypothesis =>
      obtain ⟨first, firstValues⟩ := group
      obtain ⟨fresh, distinctRest⟩ := List.nodup_cons.mp distinct
      unfold push at member
      split at member
      · rename_i same
        subst same
        rcases List.mem_cons.mp member with isFirst | inRest
        · simp only [Prod.mk.injEq] at isFirst
          exact .inl ⟨isFirst.1, by simp [valuesOf, isFirst.2]⟩
        · refine .inr ⟨?_, List.mem_cons_of_mem _ inRest⟩
          rintro rfl
          exact fresh (List.mem_map.mpr ⟨_, inRest, rfl⟩)
      · rename_i notFirst
        rcases List.mem_cons.mp member with isFirst | inRest
        · simp only [Prod.mk.injEq] at isFirst
          exact .inr ⟨isFirst.1 ▸ notFirst, by simp [isFirst]⟩
        · rcases inductionHypothesis distinctRest inRest with ⟨same, grown⟩ | ⟨different, old⟩
          · exact .inl ⟨same, by simpa [valuesOf, notFirst] using grown⟩
          · exact .inr ⟨different, List.mem_cons_of_mem _ old⟩

/-- Values grouped one at a time from the end. -/
theorem groupBy_concat (keyOf : Value → Key) (values : List Value) (value : Value) :
    groupBy keyOf (values ++ [value]) = push (keyOf value) value (groupBy keyOf values) := by
  simp [groupBy]

/-- Grouping keeps every value once. -/
theorem perm_flatMap_groupBy (keyOf : Value → Key) (values : List Value) :
    ((groupBy keyOf values).flatMap Prod.snd).Perm values := by
  induction values using List.reverseRecOn with
  | nil => exact .nil
  | append_singleton values value inductionHypothesis =>
      rw [groupBy_concat]
      exact (perm_flatMap_push _ _ _).trans ((inductionHypothesis.cons value).trans
        (List.perm_append_singleton value values).symm)

theorem nodup_keys_groupBy (keyOf : Value → Key) (values : List Value) :
    ((groupBy keyOf values).map Prod.fst).Nodup := by
  induction values using List.reverseRecOn with
  | nil => exact List.nodup_nil
  | append_singleton values value inductionHypothesis =>
      rw [groupBy_concat]
      exact nodup_keys_push inductionHypothesis

/-- The keys are those of the values. -/
theorem mem_keys_groupBy {keyOf : Value → Key} {values : List Value} {key : Key} :
    key ∈ (groupBy keyOf values).map Prod.fst ↔ key ∈ values.map keyOf := by
  induction values using List.reverseRecOn with
  | nil => rfl
  | append_singleton values value inductionHypothesis =>
      rw [groupBy_concat, mem_keys_push, inductionHypothesis, List.map_append, List.mem_append,
        List.map_singleton, List.mem_singleton, or_comm]

/-- A group is the values of its key, in their order. -/
theorem eq_filter_of_mem_groupBy {keyOf : Value → Key} {values : List Value}
    {key : Key} {group : List Value} (member : (key, group) ∈ groupBy keyOf values) :
    group = values.filter fun value => keyOf value = key := by
  induction values using List.reverseRecOn generalizing group with
  | nil => cases member
  | append_singleton values value inductionHypothesis =>
      rw [groupBy_concat] at member
      have distinct := nodup_keys_groupBy keyOf values
      rcases of_mem_push distinct member with ⟨rfl, rfl⟩ | ⟨different, old⟩
      · have before : valuesOf (keyOf value) (groupBy keyOf values) =
            values.filter fun other => keyOf other = keyOf value := by
          by_cases seen : keyOf value ∈ (groupBy keyOf values).map Prod.fst
          · obtain ⟨⟨key, found⟩, isGroup, rfl⟩ := List.mem_map.mp seen
            rw [valuesOf_eq_of_mem distinct isGroup]
            exact inductionHypothesis isGroup
          · rw [valuesOf_eq_nil seen, eq_comm, List.filter_eq_nil_iff]
            intro other isValue same
            simp only [decide_eq_true_eq] at same
            exact seen (mem_keys_groupBy.mpr (same ▸ List.mem_map_of_mem isValue))
        simp [before]
      · rw [List.filter_append, inductionHypothesis old]
        simp [Ne.symm different]

/-- Every key of a value has the group of its values. -/
theorem mem_groupBy {keyOf : Value → Key} {values : List Value} {value : Value}
    (member : value ∈ values) :
    (keyOf value, values.filter fun other => keyOf other = keyOf value) ∈
      groupBy keyOf values := by
  have isKey : keyOf value ∈ (groupBy keyOf values).map Prod.fst :=
    mem_keys_groupBy.mpr (List.mem_map_of_mem member)
  obtain ⟨⟨key, group⟩, isGroup, same⟩ := List.mem_map.mp isKey
  simp only at same
  subst same
  exact eq_filter_of_mem_groupBy isGroup ▸ isGroup

/-- No group is empty. -/
theorem ne_nil_of_mem_groupBy {keyOf : Value → Key} {values : List Value}
    {key : Key} {group : List Value} (member : (key, group) ∈ groupBy keyOf values) :
    group ≠ [] := by
  have isKey : key ∈ values.map keyOf := mem_keys_groupBy.mp (List.mem_map.mpr ⟨_, member, rfl⟩)
  obtain ⟨value, isValue, isKeyOf⟩ := List.mem_map.mp isKey
  rw [eq_filter_of_mem_groupBy member]
  exact List.ne_nil_of_mem (List.mem_filter.mpr ⟨isValue, by simpa using isKeyOf⟩)

/-- Each member of one of two matched lists has its match in the other. -/
theorem exists_mem_of_forall₂ {α : Type u} {β : Type v} {related : α → β → Prop}
    {first : List α} {second : List β} (matched : List.Forall₂ related first second) :
    (∀ item ∈ first, ∃ other ∈ second, related item other) ∧
      ∀ other ∈ second, ∃ item ∈ first, related item other := by
  induction matched with
  | nil => exact ⟨by simp, by simp⟩
  | cons head _ inductionHypothesis =>
      obtain ⟨forFirst, forSecond⟩ := inductionHypothesis
      constructor
      · intro item member
        rcases List.mem_cons.mp member with rfl | inRest
        · exact ⟨_, List.mem_cons_self, head⟩
        · obtain ⟨other, isOther, isRelated⟩ := forFirst item inRest
          exact ⟨other, List.mem_cons_of_mem _ isOther, isRelated⟩
      · intro other member
        rcases List.mem_cons.mp member with rfl | inRest
        · exact ⟨_, List.mem_cons_self, head⟩
        · obtain ⟨item, isItem, isRelated⟩ := forSecond other inRest
          exact ⟨item, List.mem_cons_of_mem _ isItem, isRelated⟩

theorem flatten_toChunks_go {α : Type u} (count : Nat) (rest : List α) (chunk : Array α)
    (chunks : Array (List α)) :
    (List.toChunks.go count rest chunk chunks).flatten =
      chunks.toList.flatten ++ chunk.toList ++ rest := by
  induction rest generalizing chunk chunks with
  | nil => simp [List.toChunks.go]
  | cons item rest inductionHypothesis =>
      unfold List.toChunks.go
      split
      · simp [inductionHypothesis]
      · simp [inductionHypothesis]

/-- Chunks of a list hold it, in its order. -/
theorem flatten_toChunks {α : Type u} {count : Nat} (positive : count ≠ 0) (items : List α) :
    (items.toChunks count).flatten = items := by
  cases items with
  | nil => rfl
  | cons item items =>
      rw [List.toChunks, flatten_toChunks_go]
      · simp
      · exact positive

end Grouping
end Library
