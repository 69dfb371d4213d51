import Datawatch.Library.StableSort
import Datawatch.Replay.Order

/-!
# Reading a trimmed archive

A replay of a range reads the partitions that can hold it, and no other file of the archive.
-/

namespace Datawatch
namespace Replay

open Library Library.Directory Library.Merge Segments Record Calendar

/-- Selecting from a list and its distinct items commute. -/
theorem dedup_filter {Item : Type u} [DecidableEq Item] (selects : Item → Bool)
    (items : List Item) : (items.filter selects).dedup = items.dedup.filter selects := by
  induction items with
  | nil => rfl
  | cons item items inductionHypothesis =>
      by_cases selected : selects item
      · rw [List.filter_cons_of_pos selected]
        by_cases member : item ∈ items
        · rw [List.dedup_cons_of_mem member,
            List.dedup_cons_of_mem (List.mem_filter.mpr ⟨member, selected⟩), inductionHypothesis]
        · have notSelected : item ∉ items.filter selects :=
            fun among => member (List.mem_filter.mp among).1
          rw [List.dedup_cons_of_notMem member, List.dedup_cons_of_notMem notSelected,
            List.filter_cons_of_pos selected, inductionHypothesis]
      · rw [List.filter_cons_of_neg selected, inductionHypothesis]
        by_cases member : item ∈ items
        · rw [List.dedup_cons_of_mem member]
        · rw [List.dedup_cons_of_notMem member, List.filter_cons_of_neg selected]

/-- Whether a partition can hold a range of its scopes. -/
def reads (scopes : Option (List Text)) (fromMicros toMicros : Int) (partition : Text) : Bool :=
  (components partition).all (covers fromMicros toMicros) && inScope scopes partition

section Trimmed

variable {archive trimmed : ArchiveTree} {keep : Path → Bool}
  (isTrimmed : trimmed.entries = archive.entries.filter fun entry => keep entry.1)

include isTrimmed

theorem keys_trimmed :
    trimmed.keys = archive.keys.filter keep := by
  unfold AList.keys List.keys
  rw [isTrimmed, List.filter_map]
  rfl

theorem lookup_trimmed {path : Path} (kept : keep path = true) :
    trimmed.lookup path = archive.lookup path := by
  apply Option.ext
  intro file
  rw [← Directory.mem_entries_iff_lookup, ← Directory.mem_entries_iff_lookup, isTrimmed,
    List.mem_filter]
  simp [kept]

theorem namesIn_trimmed {partition : Text}
    (kept : ∀ path ∈ archive, path.partition = partition → keep path = true) :
    namesIn trimmed partition = namesIn archive partition := by
  rw [namesIn, namesIn, keys_trimmed isTrimmed, List.filter_filter]
  congr 1
  apply List.filter_congr
  intro path isKey
  by_cases here : path.partition = partition
  · simp [here, kept path (AList.mem_keys.mpr isKey) here]
  · simp [here]

variable {scopes : Option (List Text)} {fromMicros toMicros : Int}
  (kept : ∀ path ∈ archive, reads scopes fromMicros toMicros path.partition = true →
    keep path = true)

include kept

/-- The partitions a range is read from are all still there. -/
theorem partitionsInRange_trimmed :
    (partitionsInRange trimmed fromMicros toMicros).filter
        (fun partition => !isFailures partition && inScope scopes partition) =
      (partitionsInRange archive fromMicros toMicros).filter
        (fun partition => !isFailures partition && inScope scopes partition) := by
  have sorting : IsTrans Text fun first second => components first ≤ components second :=
    ⟨fun _ _ _ => le_trans⟩
  have total : Std.Total fun first second : Text => components first ≤ components second :=
    ⟨fun first second => le_total _ _⟩
  unfold partitionsInRange
  simp only
  rw [← StableSort.insertionSort_filter, ← StableSort.insertionSort_filter, ← dedup_filter,
    ← dedup_filter, ← dedup_filter, ← dedup_filter, keys_trimmed isTrimmed]
  congr 2
  simp only [List.filter_map, List.filter_filter]
  congr 1
  apply List.filter_congr
  intro path isKey
  simp only [Function.comp_apply]
  by_cases isRead : reads scopes fromMicros toMicros path.partition = true
  · rw [kept path (AList.mem_keys.mpr isKey) isRead]
    simp
  · unfold reads at isRead
    rw [Bool.and_eq_true, not_and, Bool.not_eq_true] at isRead
    by_cases covered : (components path.partition).all (covers fromMicros toMicros) = true
    · simp [isRead covered]
    · simp only [Bool.not_eq_true] at covered
      simp [covered]

theorem pendingIn_trimmed :
    pendingIn trimmed scopes fromMicros toMicros =
      pendingIn archive scopes fromMicros toMicros := by
  unfold pendingIn
  simp only
  rw [partitionsInRange_trimmed isTrimmed kept]
  congr 2
  apply List.flatMap_congr
  intro partition member
  obtain ⟨inRange, isSelected⟩ := List.mem_filter.mp member
  obtain ⟨⟨path, inArchive, rfl, _⟩, covered⟩ := mem_partitionsInRange.mp inRange
  rw [Bool.and_eq_true] at isSelected
  rw [namesIn_trimmed isTrimmed]
  intro other inTree same
  apply kept other inTree
  rw [reads, same, covered, isSelected.2]
  rfl

/-- What is read is read alike. -/
theorem lookup_of_pendingIn {segment : Pending}
    (isPending : segment ∈ pendingIn archive scopes fromMicros toMicros) :
    trimmed.lookup segment.path = archive.lookup segment.path := by
  obtain ⟨inArchive, covered, _, inScopes, _⟩ := mem_pendingIn.mp ⟨segment, isPending, rfl⟩
  apply lookup_trimmed isTrimmed
  apply kept segment.path inArchive
  rw [reads, covered, inScopes]
  rfl

/-- **A replay of a range is the same, whatever is gone of the files that cannot hold it.** -/
theorem streamRange_trimmed (fails : Path → Bool) :
    streamRange trimmed fails scopes fromMicros toMicros =
      streamRange archive fails scopes fromMicros toMicros := by
  have bound : rowBound trimmed fromMicros toMicros (pendingIn archive scopes fromMicros toMicros) =
      rowBound archive fromMicros toMicros (pendingIn archive scopes fromMicros toMicros) := by
    unfold rowBound
    congr 2
    apply List.flatMap_congr
    intro segment isPending
    rw [lookup_of_pendingIn isTrimmed kept isPending]
  unfold streamRange
  simp only
  rw [pendingIn_trimmed isTrimmed kept, bound]
  apply drain_congr
  intro segment isPending
  unfold openSegment
  rw [lookup_of_pendingIn isTrimmed kept isPending]

end Trimmed

end Replay
end Datawatch
