import Mathlib.Algebra.Order.Group.Multiset
import Datawatch.Tape.Writer

/-!
# What a commit keeps

Groups are keyed by dataset, date, venue and source day, and their segments are named by
sequence ranges alone, so a commit keeps every row exactly when no two of its groups agree
on a name.
-/

namespace Datawatch
namespace Tape

open Library Library.Directory Library.Grouping Wire Segments

/-- The rows of one group. -/
def rowsOf (key : GroupKey) (rows : List Row) : List Row := rows.filter fun row => row.key = key

/-- A path holds a group: in its partition, under its labels, with exactly its tape rows. -/
def Holds (tape : TapeTree) (path : Path) (key : GroupKey) (rows : List Row) : Prop :=
  ∃ segment, tape.lookup path = some segment ∧ path.partition = key.partition ∧
    segment.label venueLabel = some key.venue ∧
    segment.label sourceDayLabel = some key.sourceDay ∧
    segment.rows.Perm ((rowsOf key rows).flatMap Row.cells)

/-- What the segments at some paths hold together. -/
def heldAt (tape : TapeTree) (paths : List Path) : Multiset (List Cell) :=
  (paths.dedup.map (held (fun _ segment => (segment.rows : Multiset (List Cell))) tape)).sum

/-- What a commit owes the rows taken: together the committed segments hold each of them
once, each lies in the one segment of its own partition, venue and source day, and distinct
groups go to distinct paths. -/
def KeepsEveryRow (rows : List Row) (written : List Path) (tape : TapeTree) : Prop :=
  heldAt tape written = (rows.flatMap Row.cells : List (List Cell)) ∧
    (∀ row ∈ rows, row.cells ≠ [] → ∃! path, path ∈ written ∧ Holds tape path row.key rows) ∧
    ∀ first ∈ rows, ∀ second ∈ rows, first.cells ≠ [] → second.cells ≠ [] →
      first.key ≠ second.key →
        pathOf first.key (rowsOf first.key rows) ≠ pathOf second.key (rowsOf second.key rows)

/-- Two groups of one partition never share a sequence range. -/
def RangesApart (rows : List Row) : Prop :=
  ∀ first ∈ rows, ∀ second ∈ rows, first.cells ≠ [] → second.cells ≠ [] →
    first.partition = second.partition → first.key ≠ second.key →
      rangeOf (rowsOf first.key rows) ≠ rangeOf (rowsOf second.key rows)

/-- A partition is its dataset's directory, and in it its date's. -/
theorem partitionOf_levels (kind : Kind) (atMicros : Int) :
    partitionOf kind atMicros =
      ("kind=".toList ++ kind.asStr) ++ '/' :: ("date=".toList ++ Calendar.dateOf atMicros) :=
  List.append_assoc ("kind=".toList ++ kind.asStr) ('/' :: "date=".toList)
    (Calendar.dateOf atMicros)

/-- A partition names its dataset. -/
theorem kind_eq_of_partitionOf_eq {first second : Kind} {firstAt secondAt : Int}
    (same : partitionOf first firstAt = partitionOf second secondAt) : first = second := by
  have split (kind : Kind) (atMicros : Int) :
      (Text.splitOnce '/' (partitionOf kind atMicros)).map Prod.fst =
        some ("kind=".toList ++ kind.asStr) := by
    have absent : '/' ∉ "kind=".toList ++ kind.asStr := by
      simp only [List.mem_append, not_or]
      exact ⟨by decide, kind.slash_not_mem_asStr⟩
    rw [partitionOf_levels, Text.splitOnce_append_cons absent]
    rfl
  have kinds := split first firstAt
  rw [same, split second secondAt] at kinds
  exact Kind.asStr_injective (List.append_cancel_left (Option.some.inj kinds)).symm

/-- Two rows of one partition, venue and source day are of one group. -/
theorem Row.key_eq_of_labels_eq {first second : Row} (partition : first.partition = second.partition)
    (venue : venueOf first.envelope = venueOf second.envelope)
    (sourceDay : first.sourceDay = second.sourceDay) : first.key = second.key := by
  have kind := kind_eq_of_partitionOf_eq partition
  simp only [Row.key, partition, kind, venue, sourceDay]

theorem rangeOf_inRange (rows : List Row) : (rangeOf rows).InRange := by
  have below (seqs : List Nat) (bounded : ∀ seq ∈ seqs, seq < 2 ^ 64) :
      seqs.min?.getD 0 < 2 ^ 64 ∧ seqs.max?.getD 0 < 2 ^ 64 := by
    constructor
    · cases least : seqs.min? with
      | none => simp
      | some seq => exact bounded seq (List.min?_mem least)
    · cases greatest : seqs.max? with
      | none => simp
      | some seq => exact bounded seq (List.max?_mem greatest)
  refine below _ fun seq member => ?_
  obtain ⟨row, _, rfl⟩ := List.mem_map.mp member
  exact row.streamSeq.toNat_lt

/-- A group's range does not depend on the order of its rows. -/
theorem rangeOf_perm {first second : List Row} (perm : first.Perm second) :
    rangeOf first = rangeOf second := by
  have seqs := perm.map fun row => row.streamSeq.toNat
  have least : (first.map fun row => row.streamSeq.toNat).min? =
      (second.map fun row => row.streamSeq.toNat).min? := by
    refine Option.ext fun seq => ?_
    simp only [List.min?_eq_some_iff, seqs.mem_iff]
  have greatest : (first.map fun row => row.streamSeq.toNat).max? =
      (second.map fun row => row.streamSeq.toNat).max? := by
    refine Option.ext fun seq => ?_
    simp only [List.max?_eq_some_iff, seqs.mem_iff]
  simp only [rangeOf, least, greatest]

/-- Two groups go to one path exactly when they share a partition and a range. -/
theorem pathOf_eq_iff {firstKey secondKey : GroupKey} {first second : List Row} :
    pathOf firstKey first = pathOf secondKey second ↔
      firstKey.partition = secondKey.partition ∧ rangeOf first = rangeOf second := by
  simp only [pathOf, Segments.Path.mk.injEq]
  exact and_congr_right fun _ =>
    ⟨Cursor.fileName_injective (rangeOf_inRange first) (rangeOf_inRange second),
      fun same => congrArg Cursor.fileName same⟩

/-- The groups of a commit are the rows of each key, once each. -/
theorem mem_group {rows : List Row} {key : GroupKey} {members : List Row} :
    (key, members) ∈ group rows ↔ members = rowsOf key rows ∧ members ≠ [] := by
  rw [group, List.mem_insertionSort]
  constructor
  · exact fun member => ⟨eq_filter_of_mem_groupBy member, ne_nil_of_mem_groupBy member⟩
  · rintro ⟨rfl, nonempty⟩
    obtain ⟨row, member⟩ := List.exists_mem_of_ne_nil _ nonempty
    obtain ⟨inRows, isKey⟩ := List.mem_filter.mp member
    obtain rfl : row.key = key := by simpa using isKey
    exact mem_groupBy inRows

theorem nodup_keys_group (rows : List Row) : ((group rows).map Prod.fst).Nodup :=
  ((List.perm_insertionSort _ _).map Prod.fst).nodup_iff.mpr (nodup_keys_groupBy _ _)

/-- The groups hold every row once. -/
theorem perm_flatMap_group (rows : List Row) : ((group rows).flatMap Prod.snd).Perm rows :=
  ((List.perm_insertionSort _ _).flatMap_right _).trans (perm_flatMap_groupBy _ _)

/-- The groups with a tape row, which are the ones written. -/
def filled (groups : List (GroupKey × List Row)) : List (GroupKey × List Row) :=
  groups.filter fun group => group.2.flatMap Row.cells ≠ []

/-- What is built for one group. -/
def BuiltFrom (entry : Path × TapeSegment) (group : GroupKey × List Row) : Prop :=
  entry.1 = pathOf group.1 group.2 ∧
    entry.2.labels = [(venueLabel, group.1.venue), (sourceDayLabel, group.1.sourceDay)] ∧
    entry.2.rows.Perm (group.2.flatMap Row.cells)

/-- A segment is built for each group with a tape row, in the order of the groups. -/
theorem builtFrom_of_build {groups : List (GroupKey × List Row)}
    (ofKind : ∀ group ∈ groups, ∀ row ∈ group.2, row.envelope.kind = group.1.kind)
    {built : List (Path × TapeSegment)} (made : build groups = .ok built) :
    List.Forall₂ BuiltFrom built
      (filled groups) := by
  induction groups generalizing built with
  | nil =>
      obtain rfl : [] = built := Except.ok.inj made
      exact .nil
  | cons group groups inductionHypothesis =>
      obtain ⟨key, rows⟩ := group
      have sortedPerm := List.perm_insertionSort
        (fun first second : Row => first.order ≤ second.order) rows
      simp only [build] at made
      cases batchMade : batchFor key.kind
          (rows.insertionSort fun first second => first.order ≤ second.order) with
      | error reason => simp [batchMade, Except.bind] at made
      | ok batch =>
          cases restMade : build groups with
          | error reason => simp [batchMade, restMade, Except.bind, Except.map] at made
          | ok rest =>
              simp only [batchMade, restMade, Except.bind, Except.map, Except.ok.injEq] at made
              have rest := inductionHypothesis
                (fun group member => ofKind group (List.mem_cons_of_mem _ member)) restMade
              have batchRows := rows_batchFor (fun row member =>
                ofKind (key, rows) List.mem_cons_self row (sortedPerm.mem_iff.mp member)) batchMade
              have cells : batch.rows.Perm (rows.flatMap Row.cells) :=
                batchRows ▸ sortedPerm.flatMap_right Row.cells
              have counted : batch.numRows = (rows.flatMap Row.cells).length := by
                rw [← cells.length_eq]
                simp [RecordBatch.rows]
              by_cases empty : rows.flatMap Row.cells = []
              · rw [if_pos (by simp [counted, empty])] at made
                rw [filled, List.filter_cons_of_neg (by simpa using empty), ← made]
                exact rest
              · have someRow : batch.numRows ≠ 0 := by
                  rw [counted]
                  exact fun zero => empty (List.length_eq_zero_iff.mp zero)
                rw [if_neg someRow] at made
                rw [filled, List.filter_cons_of_pos (by simpa using empty), ← made]
                refine .cons ⟨?_, rfl, cells⟩ rest
                exact pathOf_eq_iff.mpr ⟨rfl, rangeOf_perm sortedPerm⟩

/-- What is built for some rows is built for their groups. -/
theorem builtFrom_of_group {rows : List Row} {built : List (Path × TapeSegment)}
    (made : build (group rows) = .ok built) :
    List.Forall₂ BuiltFrom built (filled (group rows)) := by
  refine builtFrom_of_build ?_ made
  rintro ⟨key, members⟩ isGroup row member
  rw [(mem_group.mp isGroup).1] at member
  have isKey : row.key = key := by simpa using (List.mem_filter.mp member).2
  exact congrArg GroupKey.kind isKey

/-- A run of writes that returned its paths committed every segment in its order. -/
theorem eq_commits_of_writeAll_ok {fates : Nat → WriteFate} {built : List (Path × TapeSegment)}
    {effects : List (Effect Path TapeSegment)} {written : List Path}
    (wrote : writeAll fates built = (effects, .ok written)) :
    effects = commits built ∧ written = built.map Prod.fst := by
  induction built generalizing fates effects written with
  | nil =>
      simp only [writeAll, Prod.mk.injEq, Except.ok.injEq] at wrote
      exact ⟨wrote.1.symm, wrote.2.symm⟩
  | cons entry built inductionHypothesis =>
      obtain ⟨path, segment⟩ := entry
      simp only [writeAll] at wrote
      cases fate : fates 0 with
      | refused | unsynced => simp [fate, WriteFate.succeeds] at wrote
      | committed =>
          rcases tail : writeAll (fun count => fates (count + 1)) built with
            ⟨restEffects, reason | restWritten⟩
          · simp [fate, WriteFate.succeeds, tail, Except.map] at wrote
          · obtain ⟨rfl, rfl⟩ := inductionHypothesis tail
            simp only [fate, WriteFate.succeeds, decide_true, if_true, tail, Except.map,
              Prod.mk.injEq, Except.ok.injEq] at wrote
            exact ⟨wrote.1.symm, wrote.2.symm⟩

/-- A commit that returned its paths made the commits of what it built. -/
theorem exists_of_commit_ok {fates : Nat → WriteFate} {rows : List Row}
    {effects : List (Effect Path TapeSegment)} {written : List Path}
    (wrote : commit fates rows = (effects, .ok written)) :
    ∃ built, List.Forall₂ BuiltFrom built
        (filled (group rows)) ∧
      effects = commits built ∧ written = built.map Prod.fst := by
  unfold commit at wrote
  cases made : build (group rows) with
  | error reason => simp [made] at wrote
  | ok built =>
      rw [made] at wrote
      exact ⟨built, builtFrom_of_group made, eq_commits_of_writeAll_ok wrote⟩

/-- A written group has a row with a tape row. -/
theorem exists_row_of_mem_group {rows : List Row} {entry : GroupKey × List Row}
    (member : entry ∈ filled (group rows)) :
    entry.2 = rowsOf entry.1 rows ∧ ∃ row ∈ rows, row.cells ≠ [] ∧ row.key = entry.1 := by
  obtain ⟨isGroup, someCells⟩ := List.mem_filter.mp member
  have isRows := (mem_group.mp isGroup).1
  refine ⟨isRows, ?_⟩
  obtain ⟨row, inGroup, ofRow⟩ : ∃ row ∈ entry.2, row.cells ≠ [] := by simpa using someCells
  rw [isRows] at inGroup
  obtain ⟨inRows, isKey⟩ := List.mem_filter.mp inGroup
  exact ⟨row, inRows, ofRow, by simpa using isKey⟩

/-- A row with a tape row is in a written group. -/
theorem mem_group_of_row {rows : List Row} {row : Row} (member : row ∈ rows)
    (someCells : row.cells ≠ []) :
    (row.key, rowsOf row.key rows) ∈
      filled (group rows) := by
  have inGroup : row ∈ rowsOf row.key rows := List.mem_filter.mpr ⟨member, by simp⟩
  refine List.mem_filter.mpr ⟨mem_group.mpr ⟨rfl, List.ne_nil_of_mem inGroup⟩, ?_⟩
  simpa using ⟨row, inGroup, someCells⟩

/-- Where ranges are apart, no two written groups share a path. -/
theorem nodup_paths {rows : List Row} (apart : RangesApart rows) :
    ((filled (group rows)).map fun group =>
      pathOf group.1 group.2).Nodup := by
  have distinct : (filled (group rows)).Nodup :=
    (List.Nodup.of_map _ (nodup_keys_group rows)).filter _
  refine (List.nodup_map_iff_inj_on distinct).mpr fun first isFirst second isSecond samePath => ?_
  obtain ⟨firstRows, firstRow, inFirst, firstCells, firstKey⟩ := exists_row_of_mem_group isFirst
  obtain ⟨secondRows, secondRow, inSecond, secondCells, secondKey⟩ :=
    exists_row_of_mem_group isSecond
  obtain ⟨samePartition, sameRange⟩ := pathOf_eq_iff.mp samePath
  have sameKey : first.1 = second.1 := by
    by_contra different
    refine apart firstRow inFirst secondRow inSecond firstCells secondCells ?_
      (by rwa [firstKey, secondKey]) (by rwa [firstKey, secondKey, ← firstRows, ← secondRows])
    rw [← firstKey, ← secondKey] at samePartition
    exact samePartition
  exact Prod.ext sameKey (by rw [firstRows, secondRows, sameKey])

/-- The contents of lists added up are those of the lists joined. -/
theorem sum_map_coe {α β : Type} (lists : α → List β) (items : List α) :
    (items.map fun item => (lists item : Multiset β)).sum = (items.flatMap lists : List β) := by
  induction items with
  | nil => rfl
  | cons item items inductionHypothesis =>
      rw [List.map_cons, List.sum_cons, inductionHypothesis, List.flatMap_cons,
        Multiset.coe_add]

/-- The written groups hold every tape row once. -/
theorem perm_cells_group (rows : List Row) :
    ((filled (group rows)).flatMap fun group =>
      group.2.flatMap Row.cells).Perm (rows.flatMap Row.cells) := by
  have dropped (groups : List (GroupKey × List Row)) :
      (filled groups).flatMap (fun group => group.2.flatMap Row.cells) =
        groups.flatMap fun group => group.2.flatMap Row.cells := by
    induction groups with
    | nil => rfl
    | cons group groups inductionHypothesis =>
        by_cases empty : group.2.flatMap Row.cells = []
        · rw [filled, List.filter_cons_of_neg (by simpa using empty), ← filled, inductionHypothesis,
            List.flatMap_cons, empty, List.nil_append]
        · rw [filled, List.filter_cons_of_pos (by simpa using empty), ← filled, List.flatMap_cons,
            inductionHypothesis, List.flatMap_cons]
  rw [dropped, ← List.flatMap_assoc]
  exact (perm_flatMap_group rows).flatMap_right _

/-- What is built goes to the paths of the written groups. -/
theorem paths_eq_of_builtFrom {built : List (Path × TapeSegment)}
    {groups : List (GroupKey × List Row)} (matched : List.Forall₂ BuiltFrom built groups) :
    built.map Prod.fst = groups.map fun group => pathOf group.1 group.2 := by
  induction matched with
  | nil => rfl
  | cons first _ inductionHypothesis =>
      rw [List.map_cons, List.map_cons, inductionHypothesis, first.1]

/-- What is built holds what its groups are projected into. -/
theorem sum_rows_of_builtFrom {built : List (Path × TapeSegment)}
    {groups : List (GroupKey × List Row)} (matched : List.Forall₂ BuiltFrom built groups) :
    (built.map fun entry => (entry.2.rows : Multiset (List Cell))).sum =
      (groups.flatMap fun group => group.2.flatMap Row.cells : List (List Cell)) := by
  induction matched with
  | nil => rfl
  | cons first _ inductionHypothesis =>
      rw [List.map_cons, List.sum_cons, inductionHypothesis, List.flatMap_cons,
        ← Multiset.coe_add, Multiset.coe_eq_coe.mpr first.2.2]

/-- A segment built for a group is labelled with it. -/
theorem BuiltFrom.labels {entry : Path × TapeSegment} {group : GroupKey × List Row}
    (from_ : BuiltFrom entry group) :
    entry.2.label venueLabel = some group.1.venue ∧
      entry.2.label sourceDayLabel = some group.1.sourceDay := by
  have apart : venueLabel ≠ sourceDayLabel := by decide
  simp [TapeSegment.label, from_.2.1, apart]

/-- **A commit keeps every row exactly when the ranges of its groups are apart.** -/
theorem keepsEveryRow_iff_rangesApart
    {fates : Nat → WriteFate} {rows : List Row} {tape : TapeTree}
    {effects : List (Effect Path TapeSegment)} {written : List Path}
    (wrote : commit fates rows = (effects, .ok written)) :
    KeepsEveryRow rows written (applyAll effects tape) ↔ RangesApart rows := by
  constructor
  · rintro ⟨_, _, apartPaths⟩ first inFirst second inSecond firstCells secondCells partition
      different sameRange
    exact apartPaths first inFirst second inSecond firstCells secondCells different
      (pathOf_eq_iff.mpr ⟨partition, sameRange⟩)
  · intro apart
    obtain ⟨built, matched, rfl, rfl⟩ := exists_of_commit_ok wrote
    obtain ⟨forBuilt, forGroups⟩ := exists_mem_of_forall₂ matched
    have distinct : (built.map Prod.fst).Nodup :=
      paths_eq_of_builtFrom matched ▸ nodup_paths apart
    have found (entry : Path × TapeSegment) (isBuilt : entry ∈ built) :
        (applyAll (commits built) tape).lookup entry.1 = some entry.2 :=
      lookup_applyAll_commits distinct isBuilt tape
    refine ⟨?_, fun row member someCells => ?_, ?_⟩
    · rw [heldAt, distinct.dedup, List.map_map,
        ← Multiset.coe_eq_coe.mpr (perm_cells_group rows), ← sum_rows_of_builtFrom matched]
      exact congrArg List.sum (List.map_congr_left fun entry isBuilt => by
        simp [held, found entry isBuilt])
    · obtain ⟨entry, isBuilt, from_⟩ := forGroups _ (mem_group_of_row member someCells)
      obtain ⟨venue, sourceDay⟩ := from_.labels
      refine ⟨entry.1, ⟨List.mem_map_of_mem isBuilt, entry.2, found entry isBuilt,
        by rw [from_.1, pathOf], venue, sourceDay, from_.2.2⟩, ?_⟩
      rintro path ⟨isWritten, segment, isThere, partition, otherVenue, otherDay, _⟩
      obtain ⟨other, otherBuilt, rfl⟩ := List.mem_map.mp isWritten
      obtain rfl : other.2 = segment := Option.some.inj ((found other otherBuilt).symm.trans isThere)
      obtain ⟨group, isGroup, fromGroup⟩ := forBuilt other otherBuilt
      obtain ⟨isRows, groupRow, inRows, _, isKey⟩ := exists_row_of_mem_group isGroup
      obtain ⟨groupVenue, groupDay⟩ := fromGroup.labels
      have sameKey : groupRow.key = row.key := by
        refine Row.key_eq_of_labels_eq ?_ ?_ ?_
        · exact (congrArg GroupKey.partition isKey).trans ((congrArg Path.partition
            fromGroup.1).symm.trans partition)
        · exact (congrArg GroupKey.venue isKey).trans
            (Option.some.inj (groupVenue.symm.trans otherVenue))
        · exact (congrArg GroupKey.sourceDay isKey).trans
            (Option.some.inj (groupDay.symm.trans otherDay))
      rw [fromGroup.1, from_.1, isRows, ← isKey, sameKey]
    · intro first inFirst second inSecond firstCells secondCells different samePath
      obtain ⟨partition, sameRange⟩ := pathOf_eq_iff.mp samePath
      exact apart first inFirst second inSecond firstCells secondCells partition different sameRange

/-- A ticker. -/
def btc : Ticker := ⟨"BTC".toList, by decide⟩

def hype : Ticker := ⟨"HYPE".toList, by decide⟩

/-- A quote of a venue, received at the epoch under a sequence. -/
def quoteFrom (venue : Venue) (seq : UInt64) : Row :=
  ⟨seq, 0, .new venue btc none 0
    (.quote ⟨some ⟨8121, 1⟩, none, none, none, none, none⟩)⟩

/-- Two venues of one dataset. -/
def firstVenue : Venue := ⟨"h".toList, by decide⟩

def secondVenue : Venue := ⟨"r".toList, by decide⟩

/-- Venues whose sequences differ are kept apart. -/
theorem keepsEveryRow_iff_rangesApart_twoVenues :
    ∃ effects written,
      commit (fun _ => .committed) [quoteFrom firstVenue 1, quoteFrom secondVenue 2] =
        (effects, .ok written) ∧
      KeepsEveryRow [quoteFrom firstVenue 1, quoteFrom secondVenue 2] written
        (applyAll effects ∅) := by
  have wrote : (commit (fun _ => .committed)
      [quoteFrom firstVenue 1, quoteFrom secondVenue 2]).2.toOption.isSome := by decide +kernel
  rcases made : commit (fun _ => .committed)
      [quoteFrom firstVenue 1, quoteFrom secondVenue 2] with ⟨effects, reason | written⟩
  · simp [made, Except.toOption] at wrote
  · refine ⟨effects, written, rfl, (keepsEveryRow_iff_rangesApart made).mpr ?_⟩
    unfold RangesApart
    decide +kernel

/-- **Two venues whose groups span the same sequences overwrite each other**: the commit
returns both its paths, and the tape is left with one of the two rows. -/
theorem commit_overwrites_sameRange :
    ∃ effects written,
      commit (fun _ => .committed) [quoteFrom firstVenue 1, quoteFrom secondVenue 1] =
        (effects, .ok written) ∧ written.length = 2 ∧
      Multiset.card (heldAt (applyAll effects ∅) written) = 1 ∧
      ¬ KeepsEveryRow [quoteFrom firstVenue 1, quoteFrom secondVenue 1] written
        (applyAll effects ∅) := by
  have wrote : (commit (fun _ => .committed)
      [quoteFrom firstVenue 1, quoteFrom secondVenue 1]).2.toOption.any fun written =>
        written.length = 2 ∧ Multiset.card (heldAt (applyAll (commit (fun _ => .committed)
          [quoteFrom firstVenue 1, quoteFrom secondVenue 1]).1 ∅) written) = 1 := by
    decide +kernel
  rcases made : commit (fun _ => .committed)
      [quoteFrom firstVenue 1, quoteFrom secondVenue 1] with ⟨effects, reason | written⟩
  · simp [made, Except.toOption] at wrote
  · simp only [made, Except.toOption, Option.any_some, decide_eq_true_eq] at wrote
    refine ⟨effects, written, rfl, wrote.1, wrote.2, fun kept => ?_⟩
    have cells : ([quoteFrom firstVenue 1, quoteFrom secondVenue 1].flatMap Row.cells).length =
        2 := by decide +kernel
    have whole := congrArg Multiset.card kept.1
    rw [wrote.2, Multiset.coe_card, cells] at whole
    cases whole

end Tape
end Datawatch
