import Mathlib.Algebra.BigOperators.Group.Finset.Basic
import Mathlib.Algebra.Order.BigOperators.Group.Finset
import Datawatch.Segments.CompactRuns
import Datawatch.Segments.Proven

/-!
# Resuming an interrupted compaction

A run that finds an interrupted one's replacement removes what the replacement holds
before it merges anything.  Running to completion then leaves each row as often as
the partition held it before the interruption.
-/

namespace Datawatch
namespace Segments

open Library Library.Directory

/-- The sets `compact_set` is called on: a whole partition, or one closed hour. -/
inductive Selection
  | partition
  | oneHour (cutoffMicros hour : Int)
deriving DecidableEq

/-- The cursors a selection takes. -/
def Selection.takes : Selection → Cursor → Prop
  | .partition => fun _ => True
  | .oneHour cutoffMicros hour => fun cursor => closedHour cutoffMicros cursor = some hour

theorem Selection.mergeClosed (selection : Selection) : MergeClosed selection.takes := by
  cases selection with
  | partition => exact mergeClosed_all
  | oneHour cutoffMicros hour => exact mergeClosed_closedHour cutoffMicros hour

variable {Row : Type u} {Schema : Type v}

/-- The rows under a name, where it is a segment's. -/
def segmentRows (name : Text) (file : SegmentFile Row Schema) : Multiset Row :=
  if (Cursor.parse name).isSome then file.rows else 0

/-- The rows of all committed segments, each as often as it is held. -/
def contents (files : Partition Row Schema) : Multiset Row := weight segmentRows files

/-- A set of segments as capture leaves it: one variant, no row in two segments, and each
row within the range its segment's name carries, which ends before the last microsecond an
`i64` holds. -/
structure WellNamed (recvMicros : Row → Option Int) (files : Partition Row Schema)
    (listed : Listing) : Prop where
  oneVariant : ∀ first ∈ listed, ∀ second ∈ listed, first.1.variant = second.1.variant
  disjoint : ∀ first ∈ listed, ∀ second ∈ listed, first.2 ≠ second.2 →
    ∀ row ∈ held fileRows files first.2, row ∉ held fileRows files second.2
  inRange : ∀ entry ∈ listed, ∀ row ∈ held fileRows files entry.2,
    InNamedRange recvMicros entry.1 row
  belowMax : ∀ entry ∈ listed, entry.1.variant = .time → entry.1.lastPosition < i64Max

theorem held_segmentRows {files : Partition Row Schema} {name : Text}
    (parses : (Cursor.parse name).isSome) :
    held segmentRows files name = held fileRows files name := by
  simp only [held]
  congr 1
  funext file
  simp [segmentRows, parses, fileRows]

theorem held_congr {files later : Partition Row Schema} {name : Text}
    (same : later.lookup name = files.lookup name) :
    held fileRows later name = held fileRows files name := by
  simp only [held, same]

variable [DecidableEq Row] [DecidableEq Schema]

section Whole

variable {recvMicros : Row → Option Int} {faults : Faults} {files : Partition Row Schema}
  {listed : Listing} {takes : Cursor → Prop}

omit [DecidableEq Row] [DecidableEq Schema] in
theorem isSome_parse_of_mem (lists : Lists takes files listed) {name : Text}
    (member : name ∈ listed.map Prod.snd) : (Cursor.parse name).isSome := by
  obtain ⟨entry, entryMember, rfl⟩ := List.mem_map.mp member
  simp [lists.parsed entry entryMember]

theorem doomedOf_subset (lists : Lists takes files listed) {name : Text}
    (member : name ∈ doomedOf recvMicros faults files listed) : name ∈ listed.map Prod.snd :=
  (exists_keeper_of_mem_superseded lists.distinct (mem_doomedOf.mp member)).1

theorem nodup_existing (lists : Lists takes files listed) :
    ((existingOf recvMicros faults files listed).map Prod.snd).Nodup :=
  (List.filter_sublist.map Prod.snd).nodup lists.distinct

theorem nodup_originalsOf {newName : Text} (lists : Lists takes files listed) :
    (originalsOf recvMicros faults files listed newName).Nodup :=
  (nodup_existing lists).filter _

/-- Committing the replacement and removing every original leaves the contents that the
removal of the superseded segments left. -/
theorem contents_consolidated (lists : Lists takes files listed) (closed : MergeClosed takes)
    {newName : Text} {file : SegmentFile Row Schema} {rows : Nat}
    (merged : merge faults files (existingOf recvMicros faults files listed) =
      .ok (some (newName, file, rows))) :
    contents (applyAll (.commit newName file ::
        removals (originalsOf recvMicros faults files listed newName))
        (applyAll (removals (doomedOf recvMicros faults files listed)) files)) =
      contents (applyAll (removals (doomedOf recvMicros faults files listed)) files) := by
  obtain ⟨cursor, _, _, parsed, taken⟩ := merged_name_spec lists closed merged
  obtain ⟨_, _, _, sumRows, _⟩ := merge_spec merged
  refine weight_consolidate segmentRows (nodup_existing lists) ?_ ?_
  · intro present
    rw [← AList.lookup_isSome, lookup_applyAll_removals] at present
    split at present
    · cases present
    · rename_i notDoomed
      have inListed := lists.complete cursor newName (AList.lookup_isSome.mp present) parsed taken
      exact List.mem_map.mpr ⟨_, mem_existingOf.mpr ⟨inListed, fun superseded =>
        notDoomed (mem_doomedOf.mpr superseded)⟩, rfl⟩
  · rw [segmentRows, if_pos (by simp [parsed]), sumRows]
    refine congrArg List.sum (List.map_congr_left fun name member => ?_)
    obtain ⟨entry, entryMember, rfl⟩ := List.mem_map.mp member
    obtain ⟨inListed, notSuperseded⟩ := mem_existingOf.mp entryMember
    have untouched : (applyAll (removals (doomedOf recvMicros faults files listed))
        files).lookup entry.2 = files.lookup entry.2 := by
      rw [lookup_applyAll_removals, if_neg fun doomed =>
        notSuperseded (mem_doomedOf.mp doomed)]
    rw [held_segmentRows (isSome_parse_of_mem lists (List.mem_map_of_mem inListed)),
      held_congr untouched]

/-- **A completed run takes away exactly the superseded segments' rows.** -/
theorem contents_eq_doomed_add (lists : Lists takes files listed) (closed : MergeClosed takes) :
    contents files =
      ((doomedOf recvMicros faults files listed).map (held fileRows files)).sum +
        contents (applyAll (compactSet recvMicros faults files listed).effects files) := by
  have removed := weight_eq_sum_held_add_removals segmentRows
    (nodup_pathSet (superseded recvMicros faults files listed)) files
  have asSegments : (doomedOf recvMicros faults files listed).map (held segmentRows files) =
      (doomedOf recvMicros faults files listed).map (held fileRows files) :=
    List.map_congr_left fun name member =>
      held_segmentRows (isSome_parse_of_mem lists (doomedOf_subset lists member))
  rw [← asSegments]
  rcases compactSet_cases recvMicros faults files listed with
    equal | ⟨newName, file, rows, merged, equal⟩
  · rw [equal]
    exact removed
  · rw [equal, applyAll_append, contents_consolidated lists closed merged]
    exact removed

/-- Segments that share no row supersede one another only where they are empty. -/
theorem held_eq_zero_of_mem_doomedOf (lists : Lists takes files listed)
    (disjoint : ∀ first ∈ listed, ∀ second ∈ listed, first.2 ≠ second.2 →
      ∀ row ∈ held fileRows files first.2, row ∉ held fileRows files second.2)
    {name : Text} (member : name ∈ doomedOf recvMicros faults files listed) :
    held fileRows files name = 0 := by
  obtain ⟨inListed, keeper, keeperListed, notSuperseded, keeperFile, file, keeperFound, found,
    below⟩ := exists_keeper_of_mem_superseded lists.distinct (mem_doomedOf.mp member)
  obtain ⟨entry, entryMember, rfl⟩ := List.mem_map.mp inListed
  obtain ⟨other, otherMember, rfl⟩ := List.mem_map.mp keeperListed
  have apart : entry.2 ≠ other.2 := fun same =>
    notSuperseded (same ▸ mem_doomedOf.mp member)
  refine Multiset.eq_zero_of_forall_notMem fun row rowMember => ?_
  have share : held fileRows files entry.2 = (file.rows : Multiset Row) := by
    simp [held, found, fileRows]
  have keeperShare : held fileRows files other.2 = (keeperFile.rows : Multiset Row) := by
    simp [held, keeperFound, fileRows]
  refine disjoint entry entryMember other otherMember apart row rowMember ?_
  rw [keeperShare]
  exact Multiset.mem_of_le below (share ▸ rowMember)

/-- A run over segments that share no row changes no contents. -/
theorem contents_compactSet_of_disjoint (lists : Lists takes files listed)
    (closed : MergeClosed takes)
    (disjoint : ∀ first ∈ listed, ∀ second ∈ listed, first.2 ≠ second.2 →
      ∀ row ∈ held fileRows files first.2, row ∉ held fileRows files second.2) :
    contents (applyAll (compactSet recvMicros faults files listed).effects files) =
      contents files := by
  have nothing : ((doomedOf recvMicros faults files listed).map (held fileRows files)).sum = 0 :=
    List.sum_eq_zero fun share member => by
      obtain ⟨name, doomed, rfl⟩ := List.mem_map.mp member
      exact held_eq_zero_of_mem_doomedOf lists disjoint doomed
  have split : contents files =
      ((doomedOf recvMicros faults files listed).map (held fileRows files)).sum +
        contents (applyAll (compactSet recvMicros faults files listed).effects files) :=
    contents_eq_doomed_add lists closed
  rw [split, nothing, zero_add]

/-- Removing superseded segments that are empty changes no contents. -/
theorem contents_removals_doomed (lists : Lists takes files listed)
    (disjoint : ∀ first ∈ listed, ∀ second ∈ listed, first.2 ≠ second.2 →
      ∀ row ∈ held fileRows files first.2, row ∉ held fileRows files second.2)
    {names : List Text} (distinct : names.Nodup)
    (among : ∀ name ∈ names, name ∈ doomedOf recvMicros faults files listed) :
    contents (applyAll (removals names) files) = contents files := by
  have nothing : (names.map (held segmentRows files)).sum = 0 :=
    List.sum_eq_zero fun share member => by
      obtain ⟨name, inNames, rfl⟩ := List.mem_map.mp member
      rw [held_segmentRows (isSome_parse_of_mem lists (doomedOf_subset lists (among name inNames)))]
      exact held_eq_zero_of_mem_doomedOf lists disjoint (among name inNames)
  have removed := weight_eq_sum_held_add_removals segmentRows distinct files
  rw [nothing, zero_add] at removed
  exact removed.symm

end Whole

section Replaced

variable {recvMicros : Row → Option Int} {faults : Faults} {files : Partition Row Schema}
  {listed : Listing} {takes : Cursor → Prop}

/-- The originals still beside the replacement. -/
def leftover (recvMicros : Row → Option Int) (faults : Faults) (files : Partition Row Schema)
    (listed : Listing) (newName : Text) (removed : Nat) : List Text :=
  (originalsOf recvMicros faults files listed newName).drop removed

variable {newName : Text} {file : SegmentFile Row Schema} {rows removed : Nat}

variable {listedAgain : Listing}

/-- Beside the replacement only originals are listed, each as it was. -/
theorem original_of_mem (lists : Lists takes files listed)
    (again : Lists takes (replaced recvMicros faults files listed newName file removed) listedAgain)
    {entry : Cursor × Text} (member : entry ∈ listedAgain) (different : entry.2 ≠ newName) :
    entry ∈ existingOf recvMicros faults files listed ∧
      entry.2 ∈ leftover recvMicros faults files listed newName removed ∧
      (replaced recvMicros faults files listed newName file removed).lookup entry.2 =
        files.lookup entry.2 := by
  have present := again.present entry member
  rw [← AList.lookup_isSome, lookup_replaced_of_ne different] at present
  split at present
  · cases present
  · rename_i stays
    rw [not_or] at stays
    have inListed := lists.complete entry.1 entry.2 (AList.lookup_isSome.mp present)
      (again.parsed entry member) (again.taken entry member)
    have inExisting : entry ∈ existingOf recvMicros faults files listed :=
      mem_existingOf.mpr ⟨inListed, fun superseded => stays.2 (mem_doomedOf.mpr superseded)⟩
    refine ⟨inExisting, ?_, ?_⟩
    · have inRest : entry.2 ∈ originalsOf recvMicros faults files listed newName :=
        List.mem_filter.mpr ⟨List.mem_map_of_mem inExisting, by simpa using different⟩
      rw [← List.take_append_drop removed (originalsOf recvMicros faults files listed newName),
        List.mem_append] at inRest
      exact inRest.resolve_left stays.1
    · rw [lookup_replaced_of_ne different, if_neg (not_or.mpr stays)]

/-- Every original still there is listed. -/
theorem mem_of_mem_leftover (lists : Lists takes files listed)
    (again : Lists takes (replaced recvMicros faults files listed newName file removed) listedAgain)
    {name : Text} (member : name ∈ leftover recvMicros faults files listed newName removed) :
    name ≠ newName ∧ name ∈ listedAgain.map Prod.snd := by
  have inRest := List.mem_filter.mp (List.mem_of_mem_drop member)
  have different : name ≠ newName := by simpa using inRest.2
  obtain ⟨entry, entryMember, rfl⟩ := List.mem_map.mp inRest.1
  obtain ⟨inListed, notSuperseded⟩ := mem_existingOf.mp entryMember
  have restDistinct : (originalsOf recvMicros faults files listed newName).Nodup :=
    nodup_originalsOf lists
  have notRemoved :
      entry.2 ∉ (originalsOf recvMicros faults files listed newName).take removed := by
    rw [← List.take_append_drop removed (originalsOf recvMicros faults files listed newName),
      List.nodup_append] at restDistinct
    exact fun taken => restDistinct.2.2 _ taken _ member rfl
  have present : entry.2 ∈ replaced recvMicros faults files listed newName file removed := by
    rw [← AList.lookup_isSome, lookup_replaced_of_ne different, if_neg (not_or.mpr
      ⟨notRemoved, fun doomed => notSuperseded (mem_doomedOf.mp doomed)⟩), AList.lookup_isSome]
    exact lists.present entry inListed
  exact ⟨different, List.mem_map.mpr ⟨_, again.complete entry.1 entry.2 present
    (lists.parsed entry inListed) (lists.taken entry inListed), rfl⟩⟩

/-- What is on disk twice is what the originals still there hold. -/
theorem contents_replaced (lists : Lists takes files listed) (closed : MergeClosed takes)
    (disjoint : ∀ first ∈ listed, ∀ second ∈ listed, first.2 ≠ second.2 →
      ∀ row ∈ held fileRows files first.2, row ∉ held fileRows files second.2)
    (merged : merge faults files (existingOf recvMicros faults files listed) =
      .ok (some (newName, file, rows)))
    (again : Lists takes (replaced recvMicros faults files listed newName file removed)
      listedAgain) :
    contents (replaced recvMicros faults files listed newName file removed) =
      ((leftover recvMicros faults files listed newName removed).map
        (held fileRows (replaced recvMicros faults files listed newName file removed))).sum +
      contents files := by
  have leftoverDistinct :
      (leftover recvMicros faults files listed newName removed).Nodup :=
    (List.drop_sublist _ _).nodup (nodup_originalsOf lists)
  have split := weight_eq_sum_held_add_removals segmentRows leftoverDistinct
    (replaced recvMicros faults files listed newName file removed)
  have asSegments : (leftover recvMicros faults files listed newName removed).map
        (held segmentRows (replaced recvMicros faults files listed newName file removed)) =
      (leftover recvMicros faults files listed newName removed).map
        (held fileRows (replaced recvMicros faults files listed newName file removed)) :=
    List.map_congr_left fun name member =>
      held_segmentRows (isSome_parse_of_mem again (mem_of_mem_leftover lists again member).2)
  have whole : contents (applyAll (removals (leftover recvMicros faults files listed newName
        removed)) (replaced recvMicros faults files listed newName file removed)) =
      contents files := by
    have joined : applyAll (removals (leftover recvMicros faults files listed newName removed))
          (replaced recvMicros faults files listed newName file removed) =
        applyAll (.commit newName file ::
            removals (originalsOf recvMicros faults files listed newName))
          (applyAll (removals (doomedOf recvMicros faults files listed)) files) := by
      rw [replaced, ← applyAll_append, List.append_assoc, applyAll_append, List.cons_append,
        leftover, removals, removals, removals, ← List.map_append, List.take_append_drop]
      rfl
    rw [joined, contents_consolidated lists closed merged]
    exact contents_removals_doomed lists disjoint (nodup_pathSet _) fun _ member => member
  rw [asSegments] at split
  exact split.trans (congrArg _ whole)

omit [DecidableEq Row] in
/-- A row of a sum of shares is in one of them. -/
theorem exists_mem_of_mem_sum {names : List Text} {share : Text → Multiset Row} {row : Row}
    (member : row ∈ (names.map share).sum) : ∃ name ∈ names, row ∈ share name := by
  induction names with
  | nil => cases member
  | cons name names inductionHypothesis =>
      rw [List.map_cons, List.sum_cons, Multiset.mem_add] at member
      rcases member with here | inRest
      · exact ⟨name, List.mem_cons_self, here⟩
      · obtain ⟨other, otherMember, there⟩ := inductionHypothesis inRest
        exact ⟨other, List.mem_cons_of_mem _ otherMember, there⟩

/-- A set of one path. -/
theorem pathSet_map_const {others : Listing} (nonempty : others ≠ []) (container : Text) :
    pathSet (others.map fun _ => container) = [container] := by
  refine List.perm_singleton.mp ?_
  refine (List.perm_ext_iff_of_nodup (nodup_pathSet _) (List.nodup_singleton _)).mpr fun name => ?_
  obtain ⟨first, rest, rfl⟩ := List.exists_cons_of_ne_nil nonempty
  rw [mem_pathSet, List.mem_map, List.mem_singleton]
  constructor
  · rintro ⟨_, _, rfl⟩
    rfl
  · rintro rfl
    exact ⟨first, List.mem_cons_self, rfl⟩

/-- Where one segment contains all the others, only it proves duplicates. -/
theorem provenDuplicates_of_one_container {later : Partition Row Schema} {others : Listing}
    (container : Text) :
    provenDuplicates recvMicros .none later
        (others.map fun entry => (entry.1, entry.2, container)) =
      if others = [] then [] else provenBy recvMicros .none later container others := by
  unfold provenDuplicates
  split
  · rename_i empty
    subst empty
    rfl
  · rename_i nonempty
    have containers : (others.map fun entry => (entry.1, entry.2, container)).map
        (fun pair => pair.2.2) = others.map fun _ => container := by
      rw [List.map_map]
      rfl
    have all : containedIn (others.map fun entry => (entry.1, entry.2, container)) container =
        others := by
      simp [containedIn, List.filter_map, Function.comp_def]
    rw [containers, pathSet_map_const nonempty, List.flatMap_singleton, all]

/-- The originals' rows are all among the rows of the replacement that are read to prove
them. -/
theorem sum_originals_le_overlapRows {later : Partition Row Schema} {others : Listing}
    (merged : merge faults files (existingOf recvMicros faults files listed) =
      .ok (some (newName, file, rows)))
    (distinct : (others.map Prod.snd).Nodup)
    (original : ∀ entry ∈ others, entry ∈ existingOf recvMicros faults files listed ∧
      later.lookup entry.2 = files.lookup entry.2)
    (wellNamed : WellNamed recvMicros files listed) :
    ((others.map Prod.snd).map (held fileRows later)).sum ≤
      (overlapRows recvMicros others file : Multiset Row) := by
  obtain ⟨_, _, _, sumRows, _⟩ := merge_spec merged
  have asBefore : (others.map Prod.snd).map (held fileRows later) =
      (others.map Prod.snd).map (held fileRows files) :=
    List.map_congr_left fun name member => by
      obtain ⟨entry, entryMember, rfl⟩ := List.mem_map.mp member
      exact held_congr (original entry entryMember).2
  have inFile : ((others.map Prod.snd).map (held fileRows files)).sum ≤
      (file.rows : Multiset Row) := by
    have among : others.map Prod.snd ⊆
        (existingOf recvMicros faults files listed).map Prod.snd := fun name member => by
      obtain ⟨entry, entryMember, rfl⟩ := List.mem_map.mp member
      exact List.mem_map_of_mem (original entry entryMember).1
    obtain ⟨ordered, perm, sublist⟩ := distinct.subperm among
    rw [sumRows, ← (perm.map (held fileRows files)).sum_eq]
    exact (sublist.map _).sum_le_sum fun _ _ => Multiset.zero_le _
  rw [asBefore, Multiset.le_iff_count]
  intro row
  by_cases occurs : row ∈ ((others.map Prod.snd).map (held fileRows files)).sum
  · obtain ⟨name, nameMember, rowMember⟩ := exists_mem_of_mem_sum occurs
    obtain ⟨entry, entryMember, rfl⟩ := List.mem_map.mp nameMember
    have inListed (other : Cursor × Text) (member : other ∈ others) : other ∈ listed :=
      (mem_existingOf.mp (original other member).1).1
    have allRead : (overlapRows recvMicros others file).count row = file.rows.count row :=
      count_overlapRows
      (fun other member => wellNamed.belowMax other (inListed other member)) entryMember
      (wellNamed.inRange entry (inListed entry entryMember) row rowMember) file
    rw [Multiset.coe_count, allRead, ← Multiset.coe_count]
    exact Multiset.count_le_of_le row inFile
  · rw [Multiset.count_eq_zero_of_notMem occurs]
    exact Nat.zero_le _

/-- The replacement strictly contains every original that does not span its range. -/
theorem contains_original {cursor : Cursor}
    (isMerged : mergedCursor (existingOf recvMicros faults files listed) = some cursor)
    (oneVariant : ∀ first ∈ listed, ∀ second ∈ listed, first.1.variant = second.1.variant)
    {entry : Cursor × Text} (member : entry ∈ existingOf recvMicros faults files listed)
    (different : entry.2 ≠ newName)
    (notTwin : ¬ (entry.1.firstPosition = cursor.firstPosition ∧
      entry.1.lastPosition = cursor.lastPosition)) :
    Contains (cursor, newName) entry := by
  have sameVariant : entry.1.variant = cursor.variant := by
    obtain ⟨head, rest, isCons⟩ := List.exists_cons_of_ne_nil (List.ne_nil_of_mem member)
    have headMember : head ∈ existingOf recvMicros faults files listed :=
      isCons ▸ List.mem_cons_self
    rw [isCons] at isMerged
    rw [variant_mergedCursor isMerged]
    exact oneVariant entry (mem_existingOf.mp member).1 head (mem_existingOf.mp headMember).1
  obtain ⟨startsBefore, endsAfter⟩ := mergedCursor_spans isMerged member sameVariant
  refine ⟨sameVariant.symm, startsBefore, endsAfter, ?_, different.symm⟩
  simp only
  omega

/-- **A resumed run finds every original superseded.**  What it removes before merging is,
row for row, what is on disk twice. -/
theorem sum_doomed_replaced (lists : Lists takes files listed) (closed : MergeClosed takes)
    (wellNamed : WellNamed recvMicros files listed)
    (merged : merge faults files (existingOf recvMicros faults files listed) =
      .ok (some (newName, file, rows)))
    (again : Lists takes (replaced recvMicros faults files listed newName file removed)
      listedAgain)
    (noTwin : ∀ cursor, (cursor, newName) ∈ listedAgain → ∀ entry ∈ listedAgain,
      entry.1.firstPosition = cursor.firstPosition →
      entry.1.lastPosition = cursor.lastPosition → entry.2 = newName) :
    ((doomedOf recvMicros .none (replaced recvMicros faults files listed newName file removed)
        listedAgain).map
      (held fileRows (replaced recvMicros faults files listed newName file removed))).sum =
    ((leftover recvMicros faults files listed newName removed).map
      (held fileRows (replaced recvMicros faults files listed newName file removed))).sum := by
  obtain ⟨cursor, isMerged, _, parsed, taken⟩ := merged_name_spec lists closed merged
  obtain ⟨_, _, _, _, inputs⟩ := merge_spec merged
  have newFound : (replaced recvMicros faults files listed newName file removed).lookup newName =
      some file := lookup_replaced_new
  have newListed : (cursor, newName) ∈ listedAgain := by
    refine again.complete cursor newName ?_ parsed taken
    rw [← AList.lookup_isSome, newFound]
    rfl
  have containsOthers (entry : Cursor × Text) (member : entry ∈ listedAgain)
      (different : entry.2 ≠ newName) : Contains (cursor, newName) entry :=
    contains_original isMerged wellNamed.oneVariant (original_of_mem lists again member different).1
      different fun twin => different (noTwin cursor newListed entry member twin.1 twin.2)
  obtain ⟨others, sorted, perm, contains⟩ :=
    exists_insertionSort_eq_cons again.distinct newListed containsOthers
  have apart (entry : Cursor × Text) (member : entry ∈ others) :
      entry ∈ listedAgain ∧ entry.2 ≠ newName :=
    ⟨perm.subset (List.mem_cons_of_mem _ member), (contains entry member).2.2.2.2.symm⟩
  have distinct : (others.map Prod.snd).Nodup :=
    (List.nodup_cons.mp ((perm.map Prod.snd).nodup_iff.mpr again.distinct)).2
  have leftoverPerm : (leftover recvMicros faults files listed newName removed).Perm
      (others.map Prod.snd) := by
    refine (List.perm_ext_iff_of_nodup ((List.drop_sublist _ _).nodup (nodup_originalsOf lists))
      distinct).mpr fun name => ?_
    constructor
    · intro member
      obtain ⟨different, inAgain⟩ := mem_of_mem_leftover lists again member
      obtain ⟨entry, entryMember, rfl⟩ := List.mem_map.mp inAgain
      rcases List.mem_cons.mp (perm.symm.subset entryMember) with rfl | inOthers
      · exact absurd rfl different
      · exact List.mem_map_of_mem inOthers
    · intro member
      obtain ⟨entry, entryMember, rfl⟩ := List.mem_map.mp member
      obtain ⟨inAgain, different⟩ := apart entry entryMember
      exact (original_of_mem lists again inAgain different).2.1
  have original (entry : Cursor × Text) (member : entry ∈ others) :
      entry ∈ existingOf recvMicros faults files listed ∧
        (replaced recvMicros faults files listed newName file removed).lookup entry.2 =
          files.lookup entry.2 := by
    obtain ⟨inAgain, different⟩ := apart entry member
    obtain ⟨inExisting, _, found⟩ := original_of_mem lists again inAgain different
    exact ⟨inExisting, found⟩
  have enough := sum_originals_le_overlapRows merged distinct original wellNamed
  have readable (entry : Cursor × Text) (member : entry ∈ others) :
      ∃ input, (replaced recvMicros faults files listed newName file removed).lookup entry.2 =
        some input ∧ SchemaAgrees file.schema input := by
    obtain ⟨inAgain, different⟩ := apart entry member
    obtain ⟨inExisting, _, found⟩ := original_of_mem lists again inAgain different
    rw [found]
    exact inputs entry.2 (List.mem_map_of_mem inExisting)
  have swept : superseded recvMicros .none
      (replaced recvMicros faults files listed newName file removed) listedAgain =
        if others = [] then [] else provenBy recvMicros .none
          (replaced recvMicros faults files listed newName file removed) newName others := by
    rw [superseded, containedByRange, sorted, sweep, sweep_of_forall_contains contains,
      provenDuplicates_of_one_container]
  rw [(leftoverPerm.map _).sum_eq, doomedOf, swept]
  split
  · rename_i empty
    subst empty
    rfl
  · have heldRows : heldFor recvMicros .none
        (replaced recvMicros faults files listed newName file removed) newName others =
          if overlapRows recvMicros others file = [] then none
          else some (file.schema, overlapRows recvMicros others file) := by
      have read : readSegment Faults.none.proof
          (replaced recvMicros faults files listed newName file removed) newName = some file :=
        newFound
      rw [heldFor, read, Option.bind_some]
    rw [provenBy, heldRows]
    split
    · -- Nothing of the replacement overlaps them, so the originals hold nothing.
      rename_i nothing
      have empty : overlapRows recvMicros others file = [] := by
        by_contra nonempty
        rw [if_neg nonempty] at nothing
        cases nothing
      rw [empty] at enough
      exact (Multiset.le_zero.mp enough).symm
    · rename_i schema read something
      split at something
      · cases something
      · obtain ⟨rfl, rfl⟩ := Prod.mk.inj (Option.some.inj something)
        rw [spend_eq_all readable enough, pathSet, distinct.dedup]
        exact ((List.perm_insertionSort _ _).map _).sum_eq

end Replaced

/-! ## Resuming -/

/-- **A resumed compaction does not duplicate rows.**  Whatever prefix of its effects a run
of one set made before it died, running the same set again to completion leaves each row as
often as the partition held it, unless the crash left a segment other than the replacement
that spans the replacement's whole range. -/
theorem resumed_compaction_keeps_contents
    {recvMicros : Row → Option Int} {selection : Selection} {files : Partition Row Schema}
    {listed listedAgain : Listing} {faults : Faults} {count : Nat}
    (lists : Lists selection.takes files listed)
    (wellNamed : WellNamed recvMicros files listed)
    (again : Lists selection.takes
      (applyAll ((compactSet recvMicros faults files listed).effects.take count) files)
      listedAgain)
    (noTwin : ∀ replacement ∈ listedAgain, ∀ file,
      Effect.commit replacement.2 file ∈
        (compactSet recvMicros faults files listed).effects.take count →
      ∀ entry ∈ listedAgain, entry.1.firstPosition = replacement.1.firstPosition →
        entry.1.lastPosition = replacement.1.lastPosition → entry.2 = replacement.2) :
    contents (applyAll
        (compactSet recvMicros .none
          (applyAll ((compactSet recvMicros faults files listed).effects.take count) files)
          listedAgain).effects
        (applyAll ((compactSet recvMicros faults files listed).effects.take count) files)) =
      contents files := by
  have closed := selection.mergeClosed
  rcases take_effects_cases recvMicros faults files listed count with
    ⟨removed, equal⟩ | ⟨newName, file, rows, removed, merged, equal⟩
  · rw [equal] at again ⊢
    have gone : ∀ name ∈ (doomedOf recvMicros faults files listed).take removed,
        name ∈ doomedOf recvMicros faults files listed := fun _ => List.mem_of_mem_take
    have before := contents_removals_doomed lists wellNamed.disjoint
      ((List.take_sublist _ _).nodup (nodup_pathSet _)) gone
    -- What is left is part of what was there, so it still shares no row.
    have kept (entry : Cursor × Text) (member : entry ∈ listedAgain) :
        entry ∈ listed ∧ held fileRows (applyAll
          (removals ((doomedOf recvMicros faults files listed).take removed)) files) entry.2 =
            held fileRows files entry.2 := by
      have present := again.present entry member
      rw [← AList.lookup_isSome, lookup_applyAll_removals] at present
      split at present
      · cases present
      · rename_i stays
        exact ⟨lists.complete entry.1 entry.2 (AList.lookup_isSome.mp present)
          (again.parsed entry member) (again.taken entry member),
          held_congr (by rw [lookup_applyAll_removals, if_neg stays])⟩
    have disjointAgain : ∀ first ∈ listedAgain, ∀ second ∈ listedAgain, first.2 ≠ second.2 →
        ∀ row ∈ held fileRows (applyAll
          (removals ((doomedOf recvMicros faults files listed).take removed)) files) first.2,
        row ∉ held fileRows (applyAll
          (removals ((doomedOf recvMicros faults files listed).take removed)) files) second.2 := by
      intro first firstMember second secondMember apart row
      rw [(kept first firstMember).2, (kept second secondMember).2]
      exact wellNamed.disjoint first (kept first firstMember).1 second
        (kept second secondMember).1 apart row
    rw [contents_compactSet_of_disjoint again closed disjointAgain]
    exact before
  · have atReplaced : applyAll ((compactSet recvMicros faults files listed).effects.take count)
        files = replaced recvMicros faults files listed newName file removed := by
      rw [equal, replaced]
    have committed : Effect.commit newName file ∈
        (compactSet recvMicros faults files listed).effects.take count := by
      rw [equal]
      exact List.mem_append_right _ List.mem_cons_self
    rw [atReplaced] at again ⊢
    have twice := contents_replaced lists closed wellNamed.disjoint merged again
    have removedAgain := @contents_eq_doomed_add _ _ _ _ recvMicros .none _ _ _ again closed
    rw [sum_doomed_replaced lists closed wellNamed merged again fun cursor member entry =>
      noTwin (cursor, newName) member file committed entry] at removedAgain
    exact add_left_cancel (removedAgain.symm.trans twice)

instance (recvMicros : Row → Option Int) (cursor : Cursor) (row : Row) :
    Decidable (InNamedRange recvMicros cursor row) := by
  unfold InNamedRange
  infer_instance

/-- Two flushes that share one receipt microsecond. -/
def sameMicrosecond : Partition (Int × Nat) Unit :=
  ofList [((Cursor.time 5 5 7 1).fileName, ⟨(), [[(5, 10)]]⟩),
    ((Cursor.time 5 5 7 2).fileName, ⟨(), [[(5, 20)]]⟩)]

/-- What a run leaves that dies once its replacement is committed. -/
def afterCommit (files : Partition (Int × Nat) Unit) : Partition (Int × Nat) Unit :=
  applyAll ((compactSet receiptOf .none files (listSegments files.keys)).effects.take 1) files

omit [DecidableEq Row] [DecidableEq Schema] in
theorem lists_keys (files : Partition Row Schema) :
    Lists (fun _ => True) files (listSegments files.keys) :=
  lists_listSegments (List.Perm.refl _)

theorem wellNamed_twoFlushes :
    WellNamed receiptOf twoFlushes (listSegments twoFlushes.keys) := by
  constructor <;> decide +kernel

theorem wellNamed_sameMicrosecond :
    WellNamed receiptOf sameMicrosecond (listSegments sameMicrosecond.keys) := by
  constructor <;> decide +kernel

theorem resumed_compaction_keeps_contents_twoFlushes :
    contents (applyAll
        (compactSet receiptOf .none (afterCommit twoFlushes)
          (listSegments (afterCommit twoFlushes).keys)).effects (afterCommit twoFlushes)) =
      contents twoFlushes := by
  have noTwin : ∀ replacement ∈ listSegments (afterCommit twoFlushes).keys,
      ∀ entry ∈ listSegments (afterCommit twoFlushes).keys,
        entry.1.firstPosition = replacement.1.firstPosition →
        entry.1.lastPosition = replacement.1.lastPosition → entry.2 = replacement.2 := by
    decide +kernel
  have lists (files : Partition (Int × Nat) Unit) :
      Lists Selection.partition.takes files (listSegments files.keys) := lists_keys files
  exact resumed_compaction_keeps_contents (lists twoFlushes) wellNamed_twoFlushes
    (lists (afterCommit twoFlushes))
    fun replacement member _ _ => noTwin replacement member

/-- Flushes of one microsecond share one range with their replacement, so the resumed run
merges the replacement with the originals again, and each row is there twice. -/
theorem resumed_compaction_duplicates_sameMicrosecond :
    Lists (fun _ => True) sameMicrosecond (listSegments sameMicrosecond.keys) ∧
      WellNamed receiptOf sameMicrosecond (listSegments sameMicrosecond.keys) ∧
      (compactPartition receiptOf .none (afterCommit sameMicrosecond)
        (afterCommit sameMicrosecond).keys).result = .ok ⟨3, 1, 4⟩ ∧
      contents (applyAll (compactPartition receiptOf .none (afterCommit sameMicrosecond)
        (afterCommit sameMicrosecond).keys).effects (afterCommit sameMicrosecond)) =
        {(5, 10), (5, 10), (5, 20), (5, 20)} ∧
      contents sameMicrosecond = {(5, 10), (5, 20)} := by
  refine ⟨lists_keys _, wellNamed_sameMicrosecond, ?_, ?_, ?_⟩
  · decide +kernel
  · decide +kernel
  · decide +kernel

end Segments
end Datawatch
