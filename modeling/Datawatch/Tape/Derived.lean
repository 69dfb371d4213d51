import Datawatch.Tape.Removes

/-!
# What a tape is derived from

A tape that rebuilds left, whatever cut them short, holds in each segment rows of one venue
and one receipt day, each of which the archive derives again.
-/

namespace Datawatch
namespace Tape

open Library Library.Directory Library.Grouping Wire Segments Calendar Record Ingest Replay

/-- The receipt days of a whole archive. -/
def allDays (archive : ArchiveTree) : List Int := receiptDays archive none i64Min i64Max

/-- An archive as it stood before: it has since lost no receipt day and no payload. -/
structure IsPrefix (earlier archive : ArchiveTree) : Prop where
  days : ∀ day ∈ allDays earlier, day ∈ allDays archive
  payloads : ∀ day payload, ReceivedOn earlier none day payload →
    ReceivedOn archive none day payload

theorem IsPrefix.refl (archive : ArchiveTree) : IsPrefix archive archive :=
  ⟨fun _ member => member, fun _ _ received => received⟩

/-- An archive that only gained files has its earlier state as a prefix. -/
theorem isPrefix_of_files {earlier archive : ArchiveTree}
    (kept : ∀ path file, earlier.lookup path = some file → archive.lookup path = some file) :
    IsPrefix earlier archive := by
  constructor
  · intro day member
    obtain ⟨partition, inRange, notFailures, inScopes, isDay⟩ := mem_receiptDays.mp member
    obtain ⟨⟨path, isThere, isPartition, parsed⟩, covered⟩ := mem_partitionsInRange.mp inRange
    obtain ⟨file, found⟩ := Option.isSome_iff_exists.mp (AList.lookup_isSome.mpr isThere)
    have stillThere : path ∈ archive := AList.lookup_isSome.mp (by simp [kept path file found])
    exact mem_receiptDays.mpr ⟨partition, mem_partitionsInRange.mpr
      ⟨⟨path, stillThere, isPartition, parsed⟩, covered⟩, notFailures, inScopes, isDay⟩
  · rintro day payload ⟨path, file, found, selected, member⟩
    exact ⟨path, file, kept path file found, selected, member⟩

variable (ingest : Payload → Ingested)

/-- A tape left by rebuilds over the archive as it grew, each cut after any of its effects. -/
inductive BuiltTape (archive : ArchiveTree) : TapeTree → Prop
  | empty : BuiltTape archive ∅
  | rebuilt {tape : TapeTree} (earlier : ArchiveTree) (isPrefix : IsPrefix earlier archive)
      (request : Request) (faults : Faults) (count : Nat) (built : BuiltTape archive tape) :
      BuiltTape archive
        (applyAll ((rebuildWith ingest earlier tape request faults).effects.take count) tape)

/-- The archive derives a tape row again: in its partition, for its venue, from a payload of
its source day. -/
def ReDerives (archive : ArchiveTree) (partition venue : Text) (source : Int)
    (cells : List Cell) : Prop :=
  ∃ payload, ReceivedOn archive none source payload ∧
    ∃ row ∈ rowsFrom ingest payload, row.partition = partition ∧
      venueOf row.envelope = venue ∧ cells ∈ row.cells

/-- A listed segment of one venue and source day, of rows the archive derives again. -/
structure DerivedSegment (archive : ArchiveTree) (path : Path) (segment : TapeSegment)
    (venue : Text) (source : Int) : Prop where
  listed : (Cursor.parse path.name).isSome
  isVenue : segment.label venueLabel = some venue
  isSource : (segment.label sourceDayLabel).bind midnightOf = some source
  isDay : source ∈ allDays archive
  nonempty : segment.rows ≠ []
  rows : ∀ cells ∈ segment.rows, ReDerives ingest archive path.partition venue source cells

/-- Every segment of a tape is derived from the archive. -/
def Derived (archive : ArchiveTree) (tape : TapeTree) : Prop :=
  ∀ path segment, tape.lookup path = some segment →
    ∃ venue source, DerivedSegment ingest archive path segment venue source

variable {ingest}

theorem DerivedSegment.of_isPrefix {earlier archive : ArchiveTree}
    (isPrefix : IsPrefix earlier archive) {path : Path} {segment : TapeSegment} {venue : Text}
    {source : Int} (derived : DerivedSegment ingest earlier path segment venue source) :
    DerivedSegment ingest archive path segment venue source where
  listed := derived.listed
  isVenue := derived.isVenue
  isSource := derived.isSource
  isDay := isPrefix.days source derived.isDay
  nonempty := derived.nonempty
  rows := by
    intro cells member
    obtain ⟨payload, received, rest⟩ := derived.rows cells member
    exact ⟨payload, isPrefix.payloads source payload received, rest⟩

/-- A built segment is that of one group. -/
theorem exists_of_mem_builtFor {rows : List Row} {entry : Path × TapeSegment}
    (member : entry ∈ builtFor rows) :
    ∃ key, BuiltFrom entry (key, rowsOf key rows) ∧
      ∃ row ∈ rows, row.cells ≠ [] ∧ row.key = key := by
  unfold builtFor at member
  cases made : build (group rows) with
  | error reason => simp [made, Except.toOption] at member
  | ok built =>
      simp only [made, Except.toOption, Option.getD_some] at member
      obtain ⟨forBuilt, _⟩ := exists_mem_of_forall₂ (builtFrom_of_group made)
      obtain ⟨⟨key, members⟩, isGroup, from_⟩ := forBuilt entry member
      obtain ⟨isRows, someRow⟩ := exists_row_of_mem_group isGroup
      exact ⟨key, isRows ▸ from_, someRow⟩

/-- Where everything builds, a row's group is built. -/
theorem exists_mem_builtFor {rows : List Row} {built : List (Path × TapeSegment)}
    (made : build (group rows) = .ok built) {row : Row} (member : row ∈ rows)
    (someCells : row.cells ≠ []) :
    ∃ entry ∈ builtFor rows, BuiltFrom entry (row.key, rowsOf row.key rows) := by
  obtain ⟨_, forGroups⟩ := exists_mem_of_forall₂ (builtFrom_of_group made)
  obtain ⟨entry, isBuilt, from_⟩ := forGroups _ (mem_group_of_row member someCells)
  exact ⟨entry, by simpa [builtFor, made, Except.toOption] using isBuilt, from_⟩

/-- A group's segment holds the cells of its rows. -/
theorem BuiltFrom.mem_rows {entry : Path × TapeSegment} {key : GroupKey} {rows : List Row}
    (from_ : BuiltFrom entry (key, rowsOf key rows)) {cells : List Cell} :
    cells ∈ entry.2.rows ↔ ∃ row ∈ rows, row.key = key ∧ cells ∈ row.cells := by
  rw [from_.2.2.mem_iff, List.mem_flatMap]
  simp only [rowsOf, List.mem_filter, decide_eq_true_eq]
  constructor
  · rintro ⟨row, ⟨member, isKey⟩, inCells⟩
    exact ⟨row, member, isKey, inCells⟩
  · rintro ⟨row, member, isKey, inCells⟩
    exact ⟨row, ⟨member, isKey⟩, inCells⟩

/-- Built segments are told apart by partition, venue and source day. -/
theorem nodup_labels_builtFor (rows : List Row) :
    ((builtFor rows).map fun entry => (entry.1.partition, entry.2.label venueLabel,
      entry.2.label sourceDayLabel)).Nodup := by
  unfold builtFor
  cases made : build (group rows) with
  | error reason => simp [Except.toOption]
  | ok built =>
      simp only [Except.toOption, Option.getD_some]
      have same : built.map (fun entry => (entry.1.partition, entry.2.label venueLabel,
            entry.2.label sourceDayLabel)) =
          (filled (group rows)).map fun group =>
            (group.1.partition, some group.1.venue, some group.1.sourceDay) := by
        rw [← List.forall₂_eq_eq_eq, List.forall₂_map_left_iff, List.forall₂_map_right_iff]
        refine (builtFrom_of_group made).imp fun entry group from_ => ?_
        rw [from_.labels.1, from_.labels.2, from_.1, pathOf]
      have groupsApart : (filled (group rows)).Nodup :=
        (List.Nodup.of_map _ (nodup_keys_group rows)).filter _
      rw [same]
      refine groupsApart.map_on fun group isGroup other isOther sameLabels => ?_
      obtain ⟨groupRows, row, _, _, isKey⟩ := exists_row_of_mem_group isGroup
      obtain ⟨otherRows, otherRow, _, _, isOtherKey⟩ := exists_row_of_mem_group isOther
      have sameKey : group.1 = other.1 := by
        rw [← isKey, ← isOtherKey] at sameLabels ⊢
        simp only [Prod.mk.injEq, Option.some.injEq] at sameLabels
        exact Row.key_eq_of_labels_eq sameLabels.1 sameLabels.2.1 sameLabels.2.2
      exact Prod.ext sameKey (by rw [groupRows, otherRows, sameKey])

/-- Two built segments of one partition, venue and source day are one segment. -/
theorem eq_of_mem_builtFor {rows : List Row} {first second : Path × TapeSegment}
    (isFirst : first ∈ builtFor rows) (isSecond : second ∈ builtFor rows)
    (partition : first.1.partition = second.1.partition)
    (venue : first.2.label venueLabel = second.2.label venueLabel)
    (sourceDay : first.2.label sourceDayLabel = second.2.label sourceDayLabel) :
    first = second :=
  List.inj_on_of_nodup_map (nodup_labels_builtFor rows) isFirst isSecond
    (by simp [partition, venue, sourceDay])

section Day

variable {archive : ArchiveTree} {request : Request} {midnight : Int}

/-- A payload a receipt day yields was received on it. -/
theorem receivedOn_of_mem_streamOn (read : (streamOn archive request midnight).2 = none)
    {payload : Payload} (member : payload ∈ (streamOn archive request midnight).1) :
    ReceivedOn archive none midnight payload := by
  have ends : min (dayEnd midnight) request.toMicros ≤ midnight + microsPerDay := by
    rw [dayEnd]
    omega
  obtain ⟨path, file, found, selected, inFile⟩ := (mem_streamRange read).mp member
  exact ⟨path, file, found, (selected.of_le (le_max_left _ _) ends).of_scopes,
    mem_payloadsIn_of_le (le_max_left _ _) ends inFile⟩

theorem receipt_bounds {payload : Payload} {scopes : Option (List Text)}
    (received : ReceivedOn archive scopes midnight payload) :
    midnight ≤ payload.recvMicros ∧ payload.recvMicros < midnight + microsPerDay := by
  obtain ⟨_, _, _, _, member⟩ := received
  exact recv_mem_of_mem_payloadsIn member

/-- A row of a receipt day comes from a payload received on it. -/
theorem exists_payload_of_mem_rowsOn (read : (streamOn archive request midnight).2 = none)
    {row : Row} (member : row ∈ rowsOn ingest archive request midnight) :
    ∃ payload ∈ (streamOn archive request midnight).1, row ∈ rowsFrom ingest payload ∧
      row.sourceRecvMicros = payload.recvMicros ∧
      ReceivedOn archive none midnight payload := by
  obtain ⟨payload, inStream, isRow⟩ := List.mem_flatMap.mp member
  refine ⟨payload, inStream, isRow, ?_, receivedOn_of_mem_streamOn read inStream⟩
  obtain ⟨envelope, _, rfl⟩ := List.mem_map.mp isRow
  rfl

/-- The rows of a receipt day are labelled with it. -/
theorem sourceDay_of_mem_rowsOn (isDay : midnight ∈ daysOf archive request)
    (read : (streamOn archive request midnight).2 = none) {row : Row}
    (member : row ∈ rowsOn ingest archive request midnight) :
    midnightOf row.sourceDay = some midnight := by
  obtain ⟨payload, _, _, recv, received⟩ := exists_payload_of_mem_rowsOn read member
  obtain ⟨⟨date, isDate⟩, _⟩ := of_mem_receiptDays isDay
  obtain ⟨atLeast, before⟩ := receipt_bounds received
  rw [Row.sourceDay, recv]
  exact midnightOf_dateOf_of_mem isDate atLeast before

/-- The rows of a receipt day share their source day's label. -/
theorem sourceDay_eq_of_mem_rowsOn (isDay : midnight ∈ daysOf archive request)
    (read : (streamOn archive request midnight).2 = none) {first second : Row}
    (isFirst : first ∈ rowsOn ingest archive request midnight)
    (isSecond : second ∈ rowsOn ingest archive request midnight) :
    first.sourceDay = second.sourceDay := by
  obtain ⟨payload, _, _, recv, received⟩ := exists_payload_of_mem_rowsOn read isFirst
  obtain ⟨other, _, _, otherRecv, otherReceived⟩ := exists_payload_of_mem_rowsOn read isSecond
  obtain ⟨⟨date, isDate⟩, _⟩ := of_mem_receiptDays isDay
  rw [Row.sourceDay, Row.sourceDay, recv, otherRecv]
  exact dateOf_eq_of_mem isDate (receipt_bounds received) (receipt_bounds otherReceived)

/-- A segment built on a receipt day holds the rows of its partition and venue. -/
theorem mem_rows_of_mem_builtOn (isDay : midnight ∈ daysOf archive request)
    (read : (streamOn archive request midnight).2 = none) {entry : Path × TapeSegment}
    (member : entry ∈ builtOn ingest archive request midnight) {venue : Text}
    (isVenue : entry.2.label venueLabel = some venue) {cells : List Cell} :
    cells ∈ entry.2.rows ↔ ∃ row ∈ rowsOn ingest archive request midnight,
      row.partition = entry.1.partition ∧ venueOf row.envelope = venue ∧ cells ∈ row.cells := by
  obtain ⟨key, from_, keyRow, inRows, _, isKey⟩ := exists_of_mem_builtFor member
  rw [from_.labels.1, Option.some.injEq] at isVenue
  have partition : entry.1.partition = key.partition := by rw [from_.1, pathOf]
  rw [from_.mem_rows]
  constructor
  · rintro ⟨row, isRow, rfl, inCells⟩
    exact ⟨row, isRow, partition.symm, isVenue, inCells⟩
  · rintro ⟨row, isRow, samePartition, sameVenue, inCells⟩
    refine ⟨row, isRow, ?_, inCells⟩
    rw [← isKey] at partition isVenue ⊢
    exact Row.key_eq_of_labels_eq (samePartition.trans partition) (sameVenue.trans isVenue.symm)
      (sourceDay_eq_of_mem_rowsOn isDay read isRow inRows)

/-- A segment built on a receipt day is of one venue and of that day. -/
theorem derivedSegment_of_mem_builtOn (isDay : midnight ∈ daysOf archive request)
    (read : (streamOn archive request midnight).2 = none) {entry : Path × TapeSegment}
    (member : entry ∈ builtOn ingest archive request midnight) :
    ∃ venue ∈ venuesOn ingest archive request midnight,
      DerivedSegment ingest archive entry.1 entry.2 venue midnight := by
  obtain ⟨key, from_, keyRow, inRows, someCells, isKey⟩ := exists_of_mem_builtFor member
  have venue : entry.2.label venueLabel = some (venueOf keyRow.envelope) := by
    rw [from_.labels.1, ← isKey]
    rfl
  refine ⟨venueOf keyRow.envelope, List.mem_map_of_mem inRows, ?_, venue, ?_,
    mem_receiptDays_whole isDay, ?_, fun cells inCells => ?_⟩
  · rw [from_.1, pathOf, Cursor.parse_fileName (rangeOf_inRange _)]
    rfl
  · rw [from_.labels.2, ← isKey]
    exact sourceDay_of_mem_rowsOn isDay read inRows
  · obtain ⟨cells, inCells⟩ := List.exists_mem_of_ne_nil _ someCells
    exact List.ne_nil_of_mem (from_.mem_rows.mpr ⟨keyRow, inRows, isKey, inCells⟩)
  · obtain ⟨row, isRow, partition, sameVenue, inRow⟩ :=
      (mem_rows_of_mem_builtOn isDay read member venue).mp inCells
    obtain ⟨payload, _, fromPayload, _, received⟩ := exists_payload_of_mem_rowsOn read isRow
    exact ⟨payload, received, row, fromPayload, partition, sameVenue, inRow⟩

/-- Where a receipt day builds, each of its tape rows is in a segment of its own partition
and venue. -/
theorem exists_built_of_mem_rowsOn (builds : Builds ingest archive request midnight)
    {row : Row} (member : row ∈ rowsOn ingest archive request midnight) {cells : List Cell}
    (inCells : cells ∈ row.cells) :
    ∃ entry ∈ builtOn ingest archive request midnight, entry.1.partition = row.partition ∧
      entry.2.label venueLabel = some (venueOf row.envelope) ∧ cells ∈ entry.2.rows := by
  obtain ⟨_, built, made⟩ := builds
  obtain ⟨entry, isBuilt, from_⟩ := exists_mem_builtFor made member (List.ne_nil_of_mem inCells)
  refine ⟨entry, isBuilt, by rw [from_.1, pathOf]; rfl, from_.labels.1, ?_⟩
  exact from_.mem_rows.mpr ⟨row, member, rfl, inCells⟩

/-- Two segments of a receipt day in one partition and of one venue are one segment. -/
theorem eq_of_mem_builtOn (isDay : midnight ∈ daysOf archive request)
    (read : (streamOn archive request midnight).2 = none) {first second : Path × TapeSegment}
    (isFirst : first ∈ builtOn ingest archive request midnight)
    (isSecond : second ∈ builtOn ingest archive request midnight)
    (partition : first.1.partition = second.1.partition)
    (venue : first.2.label venueLabel = second.2.label venueLabel) : first = second := by
  refine eq_of_mem_builtFor isFirst isSecond partition venue ?_
  obtain ⟨firstKey, fromFirst, firstRow, inFirst, _, isFirstKey⟩ := exists_of_mem_builtFor isFirst
  obtain ⟨secondKey, fromSecond, secondRow, inSecond, _, isSecondKey⟩ :=
    exists_of_mem_builtFor isSecond
  rw [fromFirst.labels.2, fromSecond.labels.2, ← isFirstKey, ← isSecondKey]
  exact congrArg some (sourceDay_eq_of_mem_rowsOn isDay read inFirst inSecond)

end Day

section Run

variable (ingest) (archive : ArchiveTree) (request : Request)

/-- The segments a run may write: those built on a receipt day that reads. -/
def writes : List (Path × TapeSegment) :=
  ((daysOf archive request).filter fun midnight =>
    (streamOn archive request midnight).2 = none).flatMap (builtOn ingest archive request)

/-- A planned segment a run may remove once `front` is written: of a venue it derived and a
source day in its range, which is written at other paths where it is a receipt day. -/
structure Replaced (front : List (Path × TapeSegment)) (entry : Labelled) : Prop where
  derived : entry.venue ∈ (daysOf archive request).flatMap (venuesOn ingest archive request)
  atLeast : request.fromMicros ≤ entry.source
  before : entry.source < request.toMicros
  rewritten : entry.source ∈ daysOf archive request →
    Builds ingest archive request entry.source ∧
      (∀ built ∈ builtOn ingest archive request entry.source, built ∈ front) ∧
      ∀ built ∈ builtOn ingest archive request entry.source, built.1 ≠ entry.path

/-- A planned path whose segment a run may remove once `front` is written. -/
def ReplacedAt (tape : TapeTree) (front : List (Path × TapeSegment)) (path : Path) : Prop :=
  request.replace = .sourceDays ∧ ∃ labelled, plan tape (fun _ => false) = .ok labelled ∧
    ∃ entry ∈ labelled, entry.path = path ∧ Replaced ingest archive request front entry

variable {archive request}

variable {ingest} in
theorem mem_writes {entry : Path × TapeSegment} :
    entry ∈ writes ingest archive request ↔
      ∃ midnight ∈ daysOf archive request, (streamOn archive request midnight).2 = none ∧
        entry ∈ builtOn ingest archive request midnight := by
  simp only [writes, List.mem_flatMap, List.mem_filter, decide_eq_true_eq, and_assoc]

theorem mem_writes_of_mem_front {front : List Int} {after : List Int}
    (split : daysOf archive request = front ++ after)
    (builds : ∀ midnight ∈ front, Builds ingest archive request midnight)
    {entry : Path × TapeSegment}
    (member : entry ∈ front.flatMap (builtOn ingest archive request)) :
    entry ∈ writes ingest archive request := by
  obtain ⟨midnight, inFront, isBuilt⟩ := List.mem_flatMap.mp member
  refine mem_writes.mpr ⟨midnight, ?_, (builds midnight inFront).1, isBuilt⟩
  rw [split]
  exact List.mem_append_left _ inFront

variable (archive request)

/-- **Every run writes segments its days build, and then removes planned segments of the
venues and source days it replaced.** -/
theorem exists_effects (tape : TapeTree) (faults : Faults) :
    ∃ front names,
      (rebuildWith ingest archive tape request faults).effects =
        commits front ++ removals names ∧
      (∀ entry ∈ front, entry ∈ writes ingest archive request) ∧
      ∀ name ∈ names, ReplacedAt ingest archive request tape front name := by
  rw [rebuildWith]
  split
  · exact ⟨[], [], rfl, by simp, by simp⟩
  rename_i noSplit
  cases planned : (if request.replace = .sourceDays then plan tape faults.footer else .ok []) with
  | error reason => exact ⟨[], [], rfl, by simp, by simp⟩
  | ok labelled =>
      have isPlan {entry : Labelled} (member : entry ∈ labelled) :
          request.replace = .sourceDays ∧ plan tape (fun _ => false) = .ok labelled := by
        by_cases replaces : request.replace = .sourceDays
        · rw [if_pos replaces] at planned
          exact ⟨replaces, plan_of_ok planned⟩
        · rw [if_neg replaces] at planned
          obtain rfl : [] = labelled := Except.ok.inj planned
          cases member
      have ended := ended_rebuildDays ingest archive request faults labelled
        (daysOf archive request) Progress.start
      rw [daysOf] at ended
      cases ended with
      | finished final result builds effects committed ours written payloads =>
          have all (entry : Path × TapeSegment)
              (member : entry ∈ (daysOf archive request).flatMap
                (builtOn ingest archive request)) : entry ∈ writes ingest archive request :=
            mem_writes_of_mem_front ingest (List.append_nil _).symm builds member
          simp only [conclude, result]
          split
          · exact ⟨_, [], by rw [effects]; exact (List.append_nil _).symm, all, by simp⟩
          · obtain ⟨names, isFront, made, _⟩ := removeDoomed_spec faults.removal final.ours
              request.fromMicros request.toMicros final.written labelled
            refine ⟨_, names, by rw [effects, made]; rfl, all, fun name member => ?_⟩
            obtain ⟨entry, isPlanned, isPath, isVenue, atLeast, before, elsewhere⟩ :=
              mem_doomedPaths.mp (isFront.subset member)
            rw [ours, Progress.start_ours, List.nil_append] at isVenue
            rw [written, Progress.start_written, List.nil_append] at elsewhere
            refine ⟨(isPlan isPlanned).1, labelled, (isPlan isPlanned).2, entry, isPlanned, isPath,
              isVenue, atLeast, before, fun isDay => ⟨builds _ isDay, ?_, ?_⟩⟩
            · exact fun built isBuilt => List.mem_flatMap.mpr ⟨_, isDay, isBuilt⟩
            · rintro built isBuilt samePath
              exact elsewhere (List.mem_map.mpr ⟨built, List.mem_flatMap.mpr ⟨_, isDay, isBuilt⟩,
                samePath.trans isPath⟩)
      | unread before after reason result split builds effects committed =>
          simp only [conclude, result]
          exact ⟨_, [], by rw [effects]; exact (List.append_nil _).symm,
            fun entry member => mem_writes_of_mem_front ingest split builds member, by simp⟩
      | refused before after midnight reason front result split builds refusable isFront effects
          committed =>
          simp only [conclude, result]
          obtain ⟨names, isNames, made, _⟩ := removeDoomed_spec faults.removal _
            request.fromMicros (max midnight request.fromMicros) _ labelled
          refine ⟨_, names, by rw [effects, made], fun entry member => ?_, fun name member => ?_⟩
          · rcases List.mem_append.mp member with inBefore | inFront
            · exact mem_writes_of_mem_front ingest split builds inBefore
            · exact mem_writes.mpr
                ⟨midnight, by simp [daysOf, split], refusable.1, isFront.subset inFront⟩
          · obtain ⟨entry, isPlanned, isPath, isVenue, atLeast, earlier, elsewhere⟩ :=
              mem_doomedPaths.mp (isNames.subset member)
            have isSplit : daysOf archive request = before ++ midnight :: after := split
            have isMidnight : midnight ∈ daysOf archive request := by simp [isSplit]
            have inRange := of_mem_receiptDays isMidnight
            rw [Progress.start_ours, List.nil_append] at isVenue
            rw [Progress.start_written, List.nil_append] at elsewhere
            refine ⟨(isPlan isPlanned).1, labelled, (isPlan isPlanned).2, entry, isPlanned, isPath,
              ?_, atLeast, by omega, fun isDay => ?_⟩
            · obtain ⟨day, inDays, onDay⟩ := List.mem_flatMap.mp isVenue
              refine List.mem_flatMap.mpr ⟨day, ?_, onDay⟩
              rw [isSplit]
              rw [List.mem_append, List.mem_singleton] at inDays
              exact List.mem_append.mpr (inDays.imp_right fun same => by simp [same])
            · have ordered := pairwise_daysOf archive request
              rw [isSplit] at ordered isDay
              have inFront : entry.source ∈ before := mem_front_of_lt ordered isDay (by omega)
              refine ⟨builds _ inFront, fun built isBuilt => List.mem_append_left _
                (List.mem_flatMap.mpr ⟨_, inFront, isBuilt⟩), fun built isBuilt samePath => ?_⟩
              exact elsewhere (List.mem_map.mpr ⟨built,
                List.mem_flatMap.mpr ⟨_, inFront, isBuilt⟩, samePath.trans isPath⟩)

/-- A run cut after any of its effects wrote some segments its days build and then removed
some it replaced, which it began only once it had written all. -/
theorem exists_effects_take (tape : TapeTree) (faults : Faults) (count : Nat) :
    ∃ front names,
      (rebuildWith ingest archive tape request faults).effects.take count =
        commits front ++ removals names ∧
      (∀ entry ∈ front, entry ∈ writes ingest archive request) ∧
      ∀ name ∈ names, ReplacedAt ingest archive request tape front name := by
  obtain ⟨front, names, effects, written, replaced⟩ :=
    exists_effects ingest archive request tape faults
  refine ⟨front.take count, names.take (count - front.length), ?_,
    fun entry member => written entry (List.mem_of_mem_take member), fun name member => ?_⟩
  · rw [effects, take_commits_append_removals]
  · have began : front.length ≤ count := by
      by_contra short
      rw [Nat.sub_eq_zero_of_le (by omega)] at member
      simp at member
    rw [List.take_of_length_le began]
    exact replaced name (List.mem_of_mem_take member)

end Run

/-- What rebuilds left is derived from the archive. -/
theorem BuiltTape.derived {archive : ArchiveTree} {tape : TapeTree}
    (built : BuiltTape ingest archive tape) : Derived ingest archive tape := by
  induction built with
  | empty => simp [Derived]
  | rebuilt earlier isPrefix request faults count built inductionHypothesis =>
      intro path segment found
      obtain ⟨front, names, effects, written, _⟩ :=
        exists_effects_take ingest earlier request _ faults count
      rw [effects, lookup_applyAll_commits_append_removals] at found
      split at found
      · cases found
      · rcases lookup_applyAll_commits_cases front _ path with
          ⟨content, member, isContent⟩ | ⟨_, same⟩
        · obtain rfl : content = segment := Option.some.inj (isContent.symm.trans found)
          obtain ⟨midnight, isDay, read, isBuilt⟩ := mem_writes.mp (written _ member)
          obtain ⟨venue, _, derived⟩ := derivedSegment_of_mem_builtOn isDay read isBuilt
          exact ⟨venue, midnight, derived.of_isPrefix isPrefix⟩
        · exact inductionHypothesis path segment (same.symm.trans found)

end Tape
end Datawatch
