import Mathlib.Data.Multiset.Filter
import Datawatch.Replay.Order
import Datawatch.Segments.ClosedDays

/-!
# A replay of a compacted record

A compaction replaces the segments of a partition by one that holds their rows, under a name that
spans theirs.  A replay reads a range of it as it read the segments.
-/

namespace Datawatch
namespace Replay

open Library Library.Directory Library.Transition Segments Record Calendar

/-- The record's files without their labels, which no compaction reads. -/
def unlabelled (archive : ArchiveTree) : Segments.Tree (SegmentFile ArchiveRow ArchiveSchema) where
  entries := archive.entries.map (.map id fun _ file => file.file)
  nodupKeys := by
    have distinct := archive.nodupKeys
    unfold List.NodupKeys List.keys at distinct ⊢
    rw [List.map_map]
    exact distinct

/-- A partition of the record, as a compaction reads it. -/
def segmentsOf (archive : ArchiveTree) (partition : Text) : Partition ArchiveRow ArchiveSchema :=
  filesIn (unlabelled archive) partition

/-- What a compaction's effect makes of the record: a merged segment is written with no labels. -/
def onArchive (partition : Text) :
    Effect Text (SegmentFile ArchiveRow ArchiveSchema) → Effect Segments.Path ArchiveFile
  | .commit name file => .commit ⟨partition, name⟩ ⟨[], file⟩
  | .remove name => .remove ⟨partition, name⟩

/-- What a compaction reads of a row: when it was received. -/
abbrev receiptOfRow (row : ArchiveRow) : Option Int := some row.recvMicros

/-- A compaction of one of the record's partitions, no account's: a merged segment would lose the
account its segments are labelled with. -/
structure RecordRun where
  partition : Text
  unaccounted : accountOf partition = none
  run : CompactionRun

/-- The effects of a compaction on its partition's segments. -/
def RecordRun.effects (compaction : RecordRun) (archive : ArchiveTree) :
    List (Effect Text (SegmentFile ArchiveRow ArchiveSchema)) :=
  (compaction.run.trace receiptOfRow (segmentsOf archive compaction.partition)).effects

/-- The record once every effect of a compaction is made. -/
def RecordRun.after (compaction : RecordRun) (archive : ArchiveTree) : ArchiveTree :=
  applyAll ((compaction.effects archive).map (onArchive compaction.partition)) archive

/-- One compaction of the record's history.  It is enabled where its names are those of the
partition, and made whole. -/
def compactRecord (archive : ArchiveTree) (compaction : RecordRun) : Option ArchiveTree :=
  if compaction.run.names.Perm (segmentsOf archive compaction.partition).keys ∧
      (compaction.effects archive).length ≤ compaction.run.count then
    some (compaction.after archive)
  else none

theorem lookup_segmentsOf (archive : ArchiveTree) (partition name : Text) :
    (segmentsOf archive partition).lookup name =
      (archive.lookup ⟨partition, name⟩).map ArchiveFile.file := by
  unfold segmentsOf
  rw [lookup_filesIn]
  exact List.dlookup_map₂ _

theorem target_onArchive (partition : Text)
    (effect : Effect Text (SegmentFile ArchiveRow ArchiveSchema)) :
    (onArchive partition effect).target = ⟨partition, effect.target⟩ := by
  cases effect <;> rfl

/-- A compaction leaves other partitions as they were. -/
theorem lookup_onArchive_of_ne {partition : Text}
    (effects : List (Effect Text (SegmentFile ArchiveRow ArchiveSchema))) (archive : ArchiveTree)
    {path : Segments.Path} (elsewhere : path.partition ≠ partition) :
    (applyAll (effects.map (onArchive partition)) archive).lookup path = archive.lookup path := by
  apply lookup_applyAll_of_untouched
  intro effect isEffect same
  obtain ⟨made, _, rfl⟩ := List.mem_map.mp isEffect
  rw [target_onArchive] at same
  exact elsewhere (congrArg Segments.Path.partition same)

/-- A compaction makes of its own partition what it makes of its segments. -/
theorem lookup_onArchive {partition : Text}
    (effects : List (Effect Text (SegmentFile ArchiveRow ArchiveSchema))) {archive : ArchiveTree}
    {files : Partition ArchiveRow ArchiveSchema}
    (agree : ∀ name, files.lookup name = (archive.lookup ⟨partition, name⟩).map ArchiveFile.file)
    (name : Text) :
    ((applyAll (effects.map (onArchive partition)) archive).lookup ⟨partition, name⟩).map
        ArchiveFile.file = (applyAll effects files).lookup name := by
  induction effects generalizing archive files with
  | nil => exact (agree name).symm
  | cons effect effects inductionHypothesis =>
      rw [List.map_cons, applyAll_cons, applyAll_cons]
      refine inductionHypothesis fun other => ?_
      by_cases same : other = effect.target
      · subst same
        cases effect with
        | commit made file =>
            simp only [Effect.apply, Effect.target, onArchive, AList.lookup_insert, Option.map_some]
        | remove gone =>
            simp only [Effect.apply, Effect.target, onArchive, AList.lookup_erase, Option.map_none]
      · have apart :
            (⟨partition, other⟩ : Segments.Path) ≠ (onArchive partition effect).target := by
          rw [target_onArchive]
          exact fun equal => same (Segments.Path.mk.inj equal).2
        rw [effect.lookup_apply_of_ne same, Effect.lookup_apply_of_ne apart, agree]

section Shares

variable (scopes : Option (List Text)) (fromMicros toMicros : Int)

/-- What one file gives a replay. -/
def payloadsShare (path : Segments.Path) (file : ArchiveFile) : Multiset Payload :=
  if holdsPayloads scopes path then rowsIn fromMicros toMicros path file else 0

/-- What the rows of a partition's segments give a replay, where the partition is no account's. -/
def rowsShare (partition : Text) : Multiset ArchiveRow →+ Multiset Payload where
  toFun rows :=
    if !isFailures partition && inScope scopes partition then
      (rows.filter fun row => fromMicros ≤ row.recvMicros ∧ row.recvMicros < toMicros).filterMap
        (payloadOf partition none)
    else 0
  map_zero' := by
    split
    · rfl
    · rfl
  map_add' first second := by
    split
    · rw [Multiset.filter_add, Multiset.filterMap_add]
    · rfl

variable {scopes fromMicros toMicros}

/-- A record's payloads are its files' shares. -/
theorem coe_payloadsHeld (archive : ArchiveTree) :
    (payloadsHeld archive scopes fromMicros toMicros : Multiset Payload) =
      weight (payloadsShare scopes fromMicros toMicros) archive := by
  unfold payloadsHeld weight
  induction archive.entries with
  | nil => rfl
  | cons entry entries inductionHypothesis =>
      rw [List.flatMap_cons, List.map_cons, List.sum_cons, ← inductionHypothesis,
        ← Multiset.coe_add, payloadsShare]
      congr 1
      split
      · rfl
      · rfl

/-- A file's share is its rows', where its partition is no account's. -/
theorem payloadsShare_eq {partition : Text} (unaccounted : accountOf partition = none)
    (name : Text) (file : ArchiveFile) :
    payloadsShare scopes fromMicros toMicros ⟨partition, name⟩ file =
      rowsShare scopes fromMicros toMicros partition (segmentRows name file.file) := by
  have noAccount : accountAddress partition file = none := by
    rw [accountAddress, unaccounted]
    rfl
  unfold payloadsShare holdsPayloads segmentRows
  cases (Cursor.parse name).isSome with
  | false => exact (map_zero _).symm
  | true =>
      change _ = if _ then _ else _
      simp only [Bool.true_and, if_true]
      split
      · rw [rowsIn, noAccount, Multiset.filter_coe, Multiset.filterMap_coe]
      · rfl

/-- A partition's rows are those of the entries in it. -/
theorem contents_segmentsOf (archive : ArchiveTree) (partition : Text) :
    contents (segmentsOf archive partition) =
      ((archive.entries.filter fun entry => entry.1.partition = partition).map fun entry =>
        segmentRows entry.1.name entry.2.file).sum := by
  have distinct : ((archive.entries.filter fun entry => entry.1.partition = partition).map
      fun entry => (entry.1.name, entry.2.file)).Nodup := by
    refine List.Nodup.map_on ?_ (archive.nodupKeys.nodup.filter _)
    intro first isFirst second isSecond same
    have firstHere := of_decide_eq_true (List.mem_filter.mp isFirst).2
    have secondHere := of_decide_eq_true (List.mem_filter.mp isSecond).2
    apply archive.nodupKeys.eq_of_fst_eq (List.mem_filter.mp isFirst).1
      (List.mem_filter.mp isSecond).1
    obtain ⟨⟨_, _⟩, _⟩ := first
    obtain ⟨⟨_, _⟩, _⟩ := second
    exact congrArg₂ Segments.Path.mk (firstHere.trans secondHere.symm) (Prod.mk.inj same).1
  have holds (name : Text) (file : SegmentFile ArchiveRow ArchiveSchema) :
      (segmentsOf archive partition).lookup name = some file ↔
        (name, file) ∈ (archive.entries.filter fun entry => entry.1.partition = partition).map
          fun entry => (entry.1.name, entry.2.file) := by
    rw [lookup_segmentsOf, Option.map_eq_some_iff, List.mem_map]
    constructor
    · rintro ⟨found, isFound, rfl⟩
      exact ⟨⟨⟨partition, name⟩, found⟩,
        List.mem_filter.mpr ⟨mem_entries_iff_lookup.mpr isFound, decide_eq_true rfl⟩, rfl⟩
    · rintro ⟨⟨⟨other, _⟩, found⟩, isEntry, same⟩
      obtain ⟨rfl, rfl⟩ := Prod.mk.inj same
      obtain ⟨inArchive, here⟩ := List.mem_filter.mp isEntry
      obtain rfl : other = partition := of_decide_eq_true here
      exact ⟨found, mem_entries_iff_lookup.mp inArchive, rfl⟩
  rw [contents, weight_eq_sum_of_lookup_iff segmentRows distinct holds, List.map_map]
  rfl

/-- What the record gives a replay, one partition's rows apart. -/
theorem weight_eq_rowsShare_add {partition : Text} (unaccounted : accountOf partition = none)
    (archive : ArchiveTree) :
    weight (payloadsShare scopes fromMicros toMicros) archive =
      rowsShare scopes fromMicros toMicros partition (contents (segmentsOf archive partition)) +
        ((archive.entries.filter fun entry => ¬ entry.1.partition = partition).map fun entry =>
          payloadsShare scopes fromMicros toMicros entry.1 entry.2).sum := by
  rw [contents_segmentsOf, weight]
  induction archive.entries with
  | nil => exact (add_zero _).symm.trans (congrArg₂ _ (map_zero _).symm rfl)
  | cons entry entries inductionHypothesis =>
      obtain ⟨⟨other, name⟩, file⟩ := entry
      rw [List.map_cons, List.sum_cons, inductionHypothesis]
      by_cases here : other = partition
      · subst here
        rw [List.filter_cons_of_pos (by simp), List.filter_cons_of_neg (by simp), List.map_cons,
          List.sum_cons, map_add, add_assoc, payloadsShare_eq unaccounted]
      · rw [List.filter_cons_of_neg (by simpa using here),
          List.filter_cons_of_pos (by simpa using here), List.map_cons, List.sum_cons,
          add_left_comm]

/-- The entries outside a partition are what their lookups say. -/
theorem perm_elsewhere {archive later : ArchiveTree} {partition : Text}
    (same : ∀ path : Segments.Path, path.partition ≠ partition →
      later.lookup path = archive.lookup path) :
    (later.entries.filter fun entry => ¬ entry.1.partition = partition).Perm
      (archive.entries.filter fun entry => ¬ entry.1.partition = partition) := by
  apply (List.perm_ext_iff_of_nodup (later.nodupKeys.nodup.filter _)
    (archive.nodupKeys.nodup.filter _)).mpr
  rintro ⟨path, file⟩
  simp only [List.mem_filter, decide_eq_true_eq, and_congr_left_iff]
  intro elsewhere
  rw [mem_entries_iff_lookup, mem_entries_iff_lookup, same path elsewhere]

end Shares

/-- A partition's rows are where its segments' names say, and of its day. -/
def PlacedIn (ofDay : ArchiveRow → Prop) (files : Partition ArchiveRow ArchiveSchema) : Prop :=
  ∀ name file cursor, files.lookup name = some file → Cursor.parse name = some cursor →
    ∀ row ∈ file.rows, namedFor row.recvMicros cursor ∧ ofDay row

/-- What a name promises of a row, the name of a merge promises. -/
theorem namedFor_mergedCursor {existing : Listing} {merged : Cursor}
    (isMerged : mergedCursor existing = some merged) {entry : Cursor × Text}
    (isEntry : entry ∈ existing) (sameVariant : entry.1.variant = merged.variant) {recvMicros : Int}
    (named : namedFor recvMicros entry.1) : namedFor recvMicros merged := by
  obtain ⟨startsBefore, endsAfter⟩ := mergedCursor_spans isMerged isEntry sameVariant
  obtain ⟨cursor, name⟩ := entry
  cases cursor with
  | time firstMicros lastMicros pid flush =>
      cases merged with
      | time => exact ⟨startsBefore.trans named.1, named.2.trans endsAfter⟩
      | block | seq => cases sameVariant
  | block | seq =>
      cases merged with
      | time => cases sameVariant
      | block | seq => exact named

section Run

variable {files : Partition ArchiveRow ArchiveSchema} {faults : Faults} {listed : Listing}
  {takes : Cursor → Prop} {ofDay : ArchiveRow → Prop}

/-- A set's replacement is named for its rows. -/
theorem placed_merge (lists : Lists takes files listed) (closed : MergeClosed takes)
    (oneVariant : ∀ first ∈ listed, ∀ second ∈ listed, first.1.variant = second.1.variant)
    (placed : PlacedIn ofDay files) {newName : Text}
    {file : SegmentFile ArchiveRow ArchiveSchema} {rows : Nat}
    (merged : merge faults files (existingOf receiptOfRow faults files listed) =
      .ok (some (newName, file, rows)))
    {cursor : Cursor} (parsed : Cursor.parse newName = some cursor) {row : ArchiveRow}
    (isRow : row ∈ file.rows) : namedFor row.recvMicros cursor ∧ ofDay row := by
  obtain ⟨found, isMerged, _, isParsed, _⟩ := merged_name_spec lists closed merged
  obtain rfl : found = cursor := Option.some.inj (isParsed.symm.trans parsed)
  obtain ⟨_, _, _, sumRows, inputs⟩ := merge_spec merged
  have isHeld : row ∈ (file.rows : Multiset ArchiveRow) := isRow
  rw [sumRows] at isHeld
  obtain ⟨name, isName, inName⟩ := exists_mem_of_mem_sum isHeld
  obtain ⟨input, isInput, _⟩ := inputs name isName
  obtain ⟨entry, isEntry, rfl⟩ := List.mem_map.mp isName
  have inListed := (mem_existingOf.mp isEntry).1
  have inInput : row ∈ input.rows := by
    simpa only [Directory.held, isInput, Option.elim_some, fileRows, Multiset.mem_coe] using inName
  have sameVariant : entry.1.variant = found.variant := by
    obtain ⟨head, rest, isCons⟩ := List.exists_cons_of_ne_nil (List.ne_nil_of_mem isEntry)
    have isHead : head ∈ existingOf receiptOfRow faults files listed := isCons ▸ List.mem_cons_self
    rw [isCons] at isMerged
    rw [variant_mergedCursor isMerged]
    exact oneVariant entry inListed head (mem_existingOf.mp isHead).1
  obtain ⟨named, dated⟩ := placed _ _ _ isInput (lists.parsed entry inListed) row inInput
  exact ⟨namedFor_mergedCursor isMerged isEntry sameVariant named, dated⟩

/-- A set's run leaves the rows where the names say. -/
theorem PlacedIn.compactSet (placed : PlacedIn ofDay files) (lists : Lists takes files listed)
    (closed : MergeClosed takes)
    (oneVariant : ∀ first ∈ listed, ∀ second ∈ listed, first.1.variant = second.1.variant) :
    PlacedIn ofDay
      (applyAll (compactSet receiptOfRow faults files listed).effects files) := by
  intro name file cursor found parsed
  rcases compactSet_whole receiptOfRow faults files listed with
    whole | ⟨newName, replacement, rows, merged, whole⟩
  · rw [whole, lookup_applyAll_removals] at found
    split at found
    · cases found
    · exact placed name file cursor found parsed
  · rw [whole] at found
    by_cases isNew : name = newName
    · subst isNew
      rw [lookup_replaced_new] at found
      obtain rfl := Option.some.inj found
      exact fun row => placed_merge lists closed oneVariant placed merged parsed
    · rw [lookup_replaced_of_ne isNew] at found
      split at found
      · cases found
      · exact placed name file cursor found parsed

/-- A run over closed hours leaves the rows where the names say. -/
theorem PlacedIn.compactHours {cutoffMicros : Int} {hours : List Int} {total : Compacted}
    (distinct : hours.Nodup) (lists : ListsHours cutoffMicros listed hours files)
    (placed : PlacedIn ofDay files) :
    PlacedIn ofDay (applyAll
      (compactHours receiptOfRow faults cutoffMicros listed hours total files).effects files) := by
  induction hours generalizing files total with
  | nil => exact placed
  | cons hour hours inductionHypothesis =>
      obtain ⟨fresh, distinctRest⟩ := List.nodup_cons.mp distinct
      have ofHour := (List.forall_mem_cons.mp lists).1
      have isTime (entry : Cursor × Text) (isEntry : entry ∈ inHour cutoffMicros hour listed) :
          entry.1.variant = .time := by
        have taken := ofHour.taken entry isEntry
        obtain ⟨cursor, name⟩ := entry
        cases cursor with
        | time => rfl
        | block | seq => cases taken
      have here : PlacedIn ofDay (applyAll
          (hourRun receiptOfRow faults cutoffMicros listed hour files).effects files) :=
        placed.compactSet ofHour (mergeClosed_closedHour cutoffMicros hour)
          fun first isFirst second isSecond => (isTime first isFirst).trans
            (isTime second isSecond).symm
      rcases compactHours_cons receiptOfRow faults cutoffMicros listed hour hours total files with
        ⟨_, passed⟩ | ⟨error, stopped⟩ | ⟨counts, counted, _, made⟩
      · rw [passed]
        exact inductionHypothesis distinctRest (List.forall_mem_cons.mp lists).2 placed
      · rw [stopped]
        exact here
      · rw [made, applyAll_append]
        exact inductionHypothesis distinctRest (listsHours_after fresh lists) here

variable {run : CompactionRun} (read : run.names.Perm files.keys)

include read in
/-- A whole run leaves the rows where the names say. -/
theorem PlacedIn.trace (placed : PlacedIn ofDay files) :
    PlacedIn ofDay (applyAll (run.trace receiptOfRow files).effects files) := by
  have lists := lists_listSegments read
  unfold CompactionRun.trace
  cases run.request with
  | partition =>
      simp only [compactPartition]
      split
      · exact placed
      · rename_i notMixed
        exact placed.compactSet lists mergeClosed_all fun first isFirst second isSecond =>
          variant_eq_of_mixedIn_eq_none notMixed isFirst isSecond
  | closedHours cutoffMicros =>
      exact placed.compactHours (nodup_closedHours cutoffMicros _)
        fun hour _ => lists.inHour cutoffMicros hour

include read in
/-- A whole run leaves a partition its rows, where it holds none twice. -/
theorem contents_trace (once : (contents files).Nodup) :
    contents (applyAll (run.trace receiptOfRow files).effects files) = contents files := by
  unfold CompactionRun.trace
  cases run.request with
  | partition => exact contents_compactPartition read once
  | closedHours cutoffMicros =>
      have lists := lists_listSegments read
      exact contents_compactHours (nodup_closedHours cutoffMicros _)
        (fun hour _ => lists.inHour cutoffMicros hour) once

end Run

/-- A row was received on the day its partition is named for, where it is named for one. -/
def OfDay (partition : Text) (row : ArchiveRow) : Prop :=
  ∀ part ∈ components partition,
    ∀ midnight ∈ (valueUnder "date=".toList [part]).bind midnightOf,
      midnight ≤ row.recvMicros ∧ row.recvMicros < midnight + microsPerDay

/-- The record's rows are where the names say where each partition's are. -/
theorem wellPlaced_iff {archive : ArchiveTree} :
    WellPlaced archive ↔
      ∀ partition, PlacedIn (OfDay partition) (segmentsOf archive partition) := by
  constructor
  · intro placed partition name file cursor found parsed
    rw [lookup_segmentsOf] at found
    obtain ⟨kept, isKept, rfl⟩ := Option.map_eq_some_iff.mp found
    exact placed ⟨⟨partition, name⟩, kept⟩ (mem_entries_iff_lookup.mpr isKept) cursor parsed
  · rintro placed ⟨⟨partition, name⟩, file⟩ isEntry cursor parsed
    refine placed partition name file.file cursor ?_ parsed
    rw [lookup_segmentsOf, mem_entries_iff_lookup.mp isEntry, Option.map_some]

/-- No row of the record is held twice in a partition. -/
def HeldOnce (archive : ArchiveTree) : Prop :=
  ∀ partition, (contents (segmentsOf archive partition)).Nodup

/-- A partition that no file is in holds no row. -/
theorem heldOnce_iff {archive : ArchiveTree} :
    HeldOnce archive ↔
      ∀ path ∈ archive.keys, (contents (segmentsOf archive path.partition)).Nodup := by
  constructor
  · exact fun once path _ => once path.partition
  · intro once partition
    by_cases present : ∃ path ∈ archive.keys, path.partition = partition
    · obtain ⟨path, isFile, rfl⟩ := present
      exact once path isFile
    · have nothing : archive.entries.filter (fun entry => entry.1.partition = partition) = [] := by
        apply List.filter_eq_nil_iff.mpr
        intro entry isEntry here
        exact present ⟨entry.1, List.mem_map_of_mem isEntry, of_decide_eq_true here⟩
      rw [contents_segmentsOf, nothing]
      exact Multiset.nodup_zero

instance (archive : ArchiveTree) : Decidable (HeldOnce archive) :=
  decidable_of_iff _ heldOnce_iff.symm

section Step

variable {archive later : ArchiveTree} {compaction : RecordRun}

/-- A compaction made whole. -/
theorem compactRecord_eq_some_iff :
    compactRecord archive compaction = some later ↔
      (compaction.run.names.Perm (segmentsOf archive compaction.partition).keys ∧
        (compaction.effects archive).length ≤ compaction.run.count) ∧
      compaction.after archive = later := by
  unfold compactRecord
  split
  · rename_i enabled
    simp only [enabled, true_and, and_self, Option.some.injEq]
  · rename_i disabled
    simp only [disabled, false_and, reduceCtorEq]

theorem lookup_after_of_ne {path : Segments.Path}
    (elsewhere : path.partition ≠ compaction.partition) :
    (compaction.after archive).lookup path = archive.lookup path :=
  lookup_onArchive_of_ne _ archive elsewhere

/-- A compaction makes of its own partition what its run makes of the segments. -/
theorem lookup_segmentsOf_after (name : Text) :
    (segmentsOf (compaction.after archive) compaction.partition).lookup name =
      (applyAll (compaction.effects archive)
        (segmentsOf archive compaction.partition)).lookup name := by
  rw [lookup_segmentsOf]
  exact lookup_onArchive _ (lookup_segmentsOf archive compaction.partition) name

/-- A compaction leaves another partition's segments. -/
theorem lookup_segmentsOf_elsewhere {partition : Text}
    (elsewhere : partition ≠ compaction.partition) (name : Text) :
    (segmentsOf (compaction.after archive) partition).lookup name =
      (segmentsOf archive partition).lookup name := by
  rw [lookup_segmentsOf, lookup_segmentsOf, lookup_after_of_ne elsewhere]

variable (stepped : compactRecord archive compaction = some later)

include stepped in
/-- A compaction leaves every partition its rows. -/
theorem contents_compactRecord (once : HeldOnce archive) (partition : Text) :
    contents (segmentsOf later partition) = contents (segmentsOf archive partition) := by
  obtain ⟨⟨read, _⟩, rfl⟩ := compactRecord_eq_some_iff.mp stepped
  by_cases here : partition = compaction.partition
  · subst here
    rw [contents_congr lookup_segmentsOf_after]
    exact contents_trace read (once compaction.partition)
  · exact contents_congr (lookup_segmentsOf_elsewhere here)

include stepped in
theorem HeldOnce.compactRecord (once : HeldOnce archive) : HeldOnce later := by
  intro partition
  rw [contents_compactRecord stepped once]
  exact once partition

include stepped in
/-- A compaction leaves the record's rows where its names say. -/
theorem WellPlaced.compactRecord (placed : WellPlaced archive) : WellPlaced later := by
  obtain ⟨⟨read, _⟩, rfl⟩ := compactRecord_eq_some_iff.mp stepped
  rw [wellPlaced_iff] at placed ⊢
  intro partition name file cursor found
  by_cases here : partition = compaction.partition
  · subst here
    rw [lookup_segmentsOf_after] at found
    exact (placed compaction.partition).trace read name file cursor found
  · rw [lookup_segmentsOf_elsewhere here] at found
    exact placed partition name file cursor found

include stepped in
/-- **A compaction changes nothing of what the record gives a replay.** -/
theorem perm_payloadsHeld_compactRecord (once : HeldOnce archive) (scopes : Option (List Text))
    (fromMicros toMicros : Int) :
    (payloadsHeld later scopes fromMicros toMicros).Perm
      (payloadsHeld archive scopes fromMicros toMicros) := by
  rw [← Multiset.coe_eq_coe, coe_payloadsHeld, coe_payloadsHeld,
    weight_eq_rowsShare_add compaction.unaccounted,
    weight_eq_rowsShare_add compaction.unaccounted archive, contents_compactRecord stepped once]
  obtain ⟨_, rfl⟩ := compactRecord_eq_some_iff.mp stepped
  congr 1
  exact ((perm_elsewhere fun _ => lookup_after_of_ne).map _).sum_eq

end Step

/-- What a record's compactions keep of it. -/
structure Kept (archive later : ArchiveTree) : Prop where
  placed : WellPlaced later
  once : HeldOnce later
  payloads : ∀ scopes fromMicros toMicros, (payloadsHeld later scopes fromMicros toMicros).Perm
    (payloadsHeld archive scopes fromMicros toMicros)

/-- One compaction keeps what those before it kept. -/
theorem Kept.compactRecord {archive state next : ArchiveTree} {compaction : RecordRun}
    (kept : Kept archive state) (stepped : compactRecord state compaction = some next) :
    Kept archive next where
  placed := kept.placed.compactRecord stepped
  once := kept.once.compactRecord stepped
  payloads := fun scopes fromMicros toMicros =>
    (perm_payloadsHeld_compactRecord stepped kept.once scopes fromMicros toMicros).trans
      (kept.payloads scopes fromMicros toMicros)

section History

variable {archive final : ArchiveTree} {compactions : List RecordRun}
  (history : exec compactRecord compactions archive = some final)

include history in
/-- Any history of compactions keeps it. -/
theorem kept_of_history (placed : WellPlaced archive) (once : HeldOnce archive) :
    Kept archive final :=
  invariant_of_exec (fun _ _ _ kept stepped => kept.compactRecord stepped)
    ⟨placed, once, fun _ _ _ => .refl _⟩ history

include history in
/-- **A replay of a compacted record yields what the record's did.**  Whatever partitions were
compacted, however often, wholly or by closed hours, a range of numbered payloads is read the
same: each once and in one order. -/
theorem streamRange_of_compacted (placed : WellPlaced archive) (once : HeldOnce archive)
    {fails failsLater : Segments.Path → Bool} {scopes : Option (List Text)}
    {fromMicros toMicros : Int}
    (numbered : Numbered (payloadsHeld archive scopes fromMicros toMicros))
    (ended : (streamRange archive fails scopes fromMicros toMicros).2 = none)
    (endedLater : (streamRange final failsLater scopes fromMicros toMicros).2 = none) :
    (streamRange final failsLater scopes fromMicros toMicros).1 =
      (streamRange archive fails scopes fromMicros toMicros).1 := by
  have kept := kept_of_history history placed once
  have perm := (perm_streamRange endedLater kept.placed).trans
    ((kept.payloads scopes fromMicros toMicros).trans (perm_streamRange ended placed).symm)
  refine eq_of_perm_of_pairwise ?_ perm (pairwise_streamRange endedLater kept.placed)
    (pairwise_streamRange ended placed)
  intro first isFirst second isSecond
  have isHeld {payload : Payload}
      (isRead : payload ∈ (streamRange final failsLater scopes fromMicros toMicros).1) :
      payload ∈ payloadsHeld archive scopes fromMicros toMicros :=
    (perm_streamRange ended placed).mem_iff.mp (perm.mem_iff.mp isRead)
  exact numbered first (isHeld isFirst) second (isHeld isSecond)

end History

/-- The nested segments' partition, wholly compacted. -/
def nestedRun : RecordRun :=
  ⟨(quoteAt 1 10).partition, by decide +kernel,
    .partition, [(Cursor.time 10 40 0 0).fileName, (Cursor.time 20 30 0 1).fileName], .none, 3⟩

/-- The nested segments and the one that replaces them are read the same. -/
theorem streamRange_of_compacted_nested :
    (streamRange (nestedRun.after nested) (fun _ => false) none 10 40).1 =
      (streamRange nested (fun _ => false) none 10 40).1 :=
  streamRange_of_compacted
    (exec_cons_eq_some_iff.mpr
      ⟨_, compactRecord_eq_some_iff.mpr ⟨by decide +kernel, rfl⟩, exec_nil _ _⟩)
    (by decide +kernel) (by decide +kernel) (by decide +kernel) (by decide +kernel)
    (by decide +kernel)

end Replay
end Datawatch
