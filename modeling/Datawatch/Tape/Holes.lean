import Datawatch.Tape.Derived

/-!
# No hole while a tape is rebuilt

A segment is removed only after what replaces it is written, so the one way a row can be
missing is that another group's segment took the path of the segment holding it, or that the
run did not read what the row was derived from.
-/

namespace Datawatch
namespace Tape

open Library Library.Directory Wire Segments Calendar Record Ingest Replay

/-- A tape row is in some listed segment of its partition. -/
def Listed (tape : TapeTree) (partition : Text) (cells : List Cell) : Prop :=
  ∃ path ∈ tape.keys, path.partition = partition ∧ (Cursor.parse path.name).isSome ∧
    ∃ segment ∈ tape.lookup path, cells ∈ segment.rows

instance (tape : TapeTree) (partition : Text) (cells : List Cell) :
    Decidable (Listed tape partition cells) := by
  unfold Listed
  infer_instance

theorem listed_of_lookup {tape : TapeTree} {path : Path} {segment : TapeSegment}
    {cells : List Cell} (parsed : (Cursor.parse path.name).isSome)
    (found : tape.lookup path = some segment) (member : cells ∈ segment.rows) :
    Listed tape path.partition cells :=
  ⟨path, AList.lookup_isSome.mp (by simp [found]), rfl, parsed, segment, found, member⟩

variable (ingest : Payload → Ingested) (archive : ArchiveTree) (tape : TapeTree)
  (request : Request)

/-- **Whatever fails, and after whichever effect a run dies, every row of the prior tape is in
a listed segment.** -/
def LeavesNoHole : Prop :=
  ∀ faults count path segment cells, tape.lookup path = some segment → cells ∈ segment.rows →
    Listed (applyAll ((rebuildWith ingest archive tape request faults).effects.take count) tape)
      path.partition cells

/-- Two segments are labelled alike. -/
def SameGroup (first second : TapeSegment) : Prop :=
  first.label venueLabel = second.label venueLabel ∧
    first.label sourceDayLabel = second.label sourceDayLabel

instance (first second : TapeSegment) : Decidable (SameGroup first second) := by
  unfold SameGroup
  infer_instance

/-- No segment a run may write has the path of one of another venue or source day, on the
tape or of the same run. -/
def PathsApart : Prop :=
  ∀ entry ∈ writes ingest archive request,
    (∀ segment ∈ tape.lookup entry.1, SameGroup segment entry.2) ∧
      ∀ other ∈ writes ingest archive request, other.1 = entry.1 → SameGroup other.2 entry.2

/-- A run may replace a segment: it may remove the segments of its venue and source day, or
it may write at its path. -/
def Replaces (path : Path) (venue : Text) (source : Int) : Prop :=
  (request.replace = .sourceDays ∧
      venue ∈ (daysOf archive request).flatMap (venuesOn ingest archive request) ∧
      request.fromMicros ≤ source ∧ source < request.toMicros) ∨
    path ∈ (writes ingest archive request).map Prod.fst

instance (path : Path) (venue : Text) (source : Int) :
    Decidable (Replaces ingest archive request path venue source) := by
  unfold Replaces
  infer_instance

/-- A run derives every row of a segment, in its partition and for its venue, on a day. -/
def DerivesOn (partition venue : Text) (source : Int) (segment : TapeSegment) : Prop :=
  source ∈ daysOf archive request ∧ ∀ cells ∈ segment.rows,
    ∃ row ∈ rowsOn ingest archive request source, row.partition = partition ∧
      venueOf row.envelope = venue ∧ cells ∈ row.cells

instance (partition venue : Text) (source : Int) (segment : TapeSegment) :
    Decidable (DerivesOn ingest archive request partition venue source segment) := by
  unfold DerivesOn
  infer_instance

/-- A run derives, on its source day, every row of a segment it may replace. -/
def ReadsWhatItReplaces : Prop :=
  ∀ path ∈ tape.keys, ∀ segment ∈ tape.lookup path, ∀ venue ∈ segment.label venueLabel,
    ∀ source ∈ (segment.label sourceDayLabel).bind midnightOf,
      Replaces ingest archive request path venue source →
        DerivesOn ingest archive request path.partition venue source segment

instance : Decidable (PathsApart ingest archive tape request) := by
  unfold PathsApart
  infer_instance

instance : Decidable (ReadsWhatItReplaces ingest archive tape request) := by
  unfold ReadsWhatItReplaces
  infer_instance

variable {ingest archive tape request}

/-- What is written at the path of a tape's segment holds the segment's rows. -/
theorem mem_rows_of_written (apart : PathsApart ingest archive tape request)
    (reads : ReadsWhatItReplaces ingest archive tape request) {path : Path}
    {segment : TapeSegment} (found : tape.lookup path = some segment) {content : TapeSegment}
    (written : (path, content) ∈ writes ingest archive request) {cells : List Cell}
    (member : cells ∈ segment.rows) : cells ∈ content.rows := by
  obtain ⟨sameVenue, sameSource⟩ := (apart _ written).1 segment found
  obtain ⟨midnight, isDay, read, isBuilt⟩ := mem_writes.mp written
  obtain ⟨venue, onDay, built⟩ := derivedSegment_of_mem_builtOn isDay read isBuilt
  have isVenue : segment.label venueLabel = some venue := sameVenue.trans built.isVenue
  have isSource : (segment.label sourceDayLabel).bind midnightOf = some midnight := by
    rw [sameSource]
    exact built.isSource
  obtain ⟨_, derives⟩ := reads path (AList.lookup_isSome.mp (by simp [found])) segment found
    venue isVenue midnight isSource (.inr (List.mem_map_of_mem written))
  exact (mem_rows_of_mem_builtOn isDay read isBuilt built.isVenue).mpr (derives cells member)

/-- Commits of written segments leave every tape row listed, where it was. -/
theorem lookup_of_written (apart : PathsApart ingest archive tape request)
    (reads : ReadsWhatItReplaces ingest archive tape request)
    {front : List (Path × TapeSegment)}
    (written : ∀ entry ∈ front, entry ∈ writes ingest archive request) {path : Path}
    {segment : TapeSegment} (found : tape.lookup path = some segment) {cells : List Cell}
    (member : cells ∈ segment.rows) :
    ∃ content, (applyAll (commits front) tape).lookup path = some content ∧
      cells ∈ content.rows := by
  rcases lookup_applyAll_commits_cases front tape path with
    ⟨content, inFront, isContent⟩ | ⟨_, same⟩
  · exact ⟨content, isContent,
      mem_rows_of_written apart reads found (written _ inFront) member⟩
  · exact ⟨segment, same.trans found, member⟩

/-- Two segments a run may write at one path are one segment. -/
theorem eq_of_written (apart : PathsApart ingest archive tape request) {path : Path}
    {first second : TapeSegment} (isFirst : (path, first) ∈ writes ingest archive request)
    (isSecond : (path, second) ∈ writes ingest archive request) : first = second := by
  obtain ⟨sameVenue, sameSource⟩ := (apart _ isFirst).2 _ isSecond rfl
  obtain ⟨midnight, isDay, read, isBuilt⟩ := mem_writes.mp isFirst
  obtain ⟨other, otherDay, otherRead, otherBuilt⟩ := mem_writes.mp isSecond
  obtain ⟨_, _, derived⟩ := derivedSegment_of_mem_builtOn isDay read isBuilt
  obtain ⟨_, _, otherDerived⟩ := derivedSegment_of_mem_builtOn otherDay otherRead otherBuilt
  have sameDay := otherDerived.isSource
  simp only [sameSource, derived.isSource, Option.some.injEq] at sameDay
  subst sameDay
  exact congrArg Prod.snd (eq_of_mem_builtOn isDay read isBuilt otherBuilt rfl sameVenue.symm)

/-- A run removes no path it wrote. -/
theorem not_replacedAt_of_written (apart : PathsApart ingest archive tape request)
    {front : List (Path × TapeSegment)} {entry : Path × TapeSegment} {midnight : Int}
    (isDay : midnight ∈ daysOf archive request)
    (read : (streamOn archive request midnight).2 = none)
    (isBuilt : entry ∈ builtOn ingest archive request midnight) :
    ¬ ReplacedAt ingest archive request tape front entry.1 := by
  rintro ⟨_, labelled, planned, old, isPlanned, samePath, replaced⟩
  obtain ⟨segment, found, _, isSource⟩ := labels_of_mem_plan planned isPlanned
  rw [samePath] at found
  obtain ⟨_, derived⟩ := derivedSegment_of_mem_builtOn isDay read isBuilt
  have isWritten := mem_writes.mpr ⟨midnight, isDay, read, isBuilt⟩
  obtain ⟨_, sameSource⟩ := (apart entry isWritten).1 segment found
  rw [sameSource, derived.2.isSource, Option.some.injEq] at isSource
  obtain ⟨_, _, elsewhere⟩ := replaced.rewritten (isSource ▸ isDay)
  exact elsewhere entry (isSource ▸ isBuilt) samePath.symm

/-- A row of a replaced segment is in a segment the run wrote, which it does not remove. -/
theorem listed_of_replaced (apart : PathsApart ingest archive tape request)
    (reads : ReadsWhatItReplaces ingest archive tape request)
    {front : List (Path × TapeSegment)} {names : List Path}
    (written : ∀ entry ∈ front, entry ∈ writes ingest archive request)
    (replaced : ∀ name ∈ names, ReplacedAt ingest archive request tape front name)
    {path : Path} (isRemoved : path ∈ names) {segment : TapeSegment}
    (found : tape.lookup path = some segment) {cells : List Cell}
    (member : cells ∈ segment.rows) :
    Listed (applyAll (commits front ++ removals names) tape) path.partition cells := by
  obtain ⟨replaces, labelled, planned, old, isPlanned, rfl, isReplaced⟩ := replaced path isRemoved
  obtain ⟨planSegment, planFound, isVenue, isSource⟩ := labels_of_mem_plan planned isPlanned
  obtain rfl : segment = planSegment := Option.some.inj (found.symm.trans planFound)
  obtain ⟨isDay, derives⟩ := reads old.path (AList.lookup_isSome.mp (by simp [found])) segment
    found old.venue isVenue old.source isSource
    (.inl ⟨replaces, isReplaced.derived, isReplaced.atLeast, isReplaced.before⟩)
  obtain ⟨builds, inFront, _⟩ := isReplaced.rewritten isDay
  obtain ⟨row, isRow, partition, _, inCells⟩ := derives cells member
  obtain ⟨⟨newPath, newSegment⟩, isBuilt, newPartition, _, inNew⟩ :=
    exists_built_of_mem_rowsOn builds isRow inCells
  have kept : newPath ∉ names := fun removed =>
    not_replacedAt_of_written apart isDay builds.1 isBuilt (replaced newPath removed)
  have isWritten := written _ (inFront _ isBuilt)
  obtain ⟨_, _, derived⟩ := derivedSegment_of_mem_builtOn isDay builds.1 isBuilt
  have isThere : (applyAll (commits front) tape).lookup newPath = some newSegment := by
    rcases lookup_applyAll_commits_cases front tape newPath with
      ⟨content, isCommitted, isContent⟩ | ⟨absent, _⟩
    · rw [isContent, eq_of_written apart isWritten (written _ isCommitted)]
    · exact absurd (List.mem_map_of_mem (inFront _ isBuilt)) absent
  rw [← partition, ← newPartition]
  refine listed_of_lookup derived.listed ?_ inNew
  rw [lookup_applyAll_commits_append_removals, if_neg kept, isThere]

/-- **A rebuild leaves no hole where the segments it writes are apart from those of other
groups and it reads what it replaces.** -/
theorem leavesNoHole_of_pathsApart (generatedEnvelope : List UInt8 → Except Text Envelope)
    (normaliser : Normaliser)
    (built : BuiltTape (ingestReplayed generatedEnvelope normaliser) archive tape)
    (apart : PathsApart (ingestReplayed generatedEnvelope normaliser) archive tape request)
    (reads :
      ReadsWhatItReplaces (ingestReplayed generatedEnvelope normaliser) archive tape request) :
    LeavesNoHole (ingestReplayed generatedEnvelope normaliser) archive tape request := by
  intro faults count path segment cells found member
  obtain ⟨front, names, effects, written, replaced⟩ :=
    exists_effects_take _ archive request tape faults count
  rw [effects]
  by_cases isRemoved : path ∈ names
  · exact listed_of_replaced apart reads written replaced isRemoved found member
  · obtain ⟨content, isContent, inContent⟩ :=
      lookup_of_written apart reads written found member
    obtain ⟨_, _, derived⟩ := built.derived path segment found
    refine listed_of_lookup derived.listed ?_ inContent
    rw [lookup_applyAll_commits_append_removals, if_neg isRemoved]
    exact isContent

/-- A file that is new to an archive leaves what it holds. -/
theorem isPrefix_withFile {archive : ArchiveTree} {first : Payload} (rest : List Payload)
    (isNew : ∀ path ∈ archive.keys, path ≠ ⟨first.partition,
      (Cursor.time first.recvMicros first.recvMicros 0 0).fileName⟩) :
    IsPrefix archive (withFile archive (first :: rest)) := by
  refine isPrefix_of_files fun path file found => ?_
  have isThere : path ∈ archive.keys := AList.lookup_isSome.mp (by simp [found])
  exact (AList.lookup_insert_ne (isNew path isThere)).trans found

/-- A first rebuild's tape is a built tape of whatever the archive grew into. -/
theorem builtTape_firstTape {ingest : Payload → Ingested} {earlier archive : ArchiveTree}
    (isPrefix : IsPrefix earlier archive) :
    BuiltTape ingest archive (firstTape ingest earlier) := by
  have built := BuiltTape.rebuilt earlier isPrefix everything Faults.none
    (rebuildWith ingest earlier ∅ everything Faults.none).effects.length
    (BuiltTape.empty : BuiltTape ingest archive ∅)
  rwa [List.take_length] at built

/-- The archive of one quote. -/
def oneQuote : ArchiveTree := withFile ∅ [receipt firstVenue 1 0]

/-- The same archive a microsecond later. -/
def grown : ArchiveTree := withFile oneQuote [receipt firstVenue 2 1]

/-- A rebuild of the day that grew removes the segment of one quote, and leaves no hole. -/
theorem leavesNoHole_of_pathsApart_grown :
    (∃ path ∈ (firstTape ingestQuotes oneQuote).keys,
      .remove path ∈ (rebuildWith ingestQuotes grown (firstTape ingestQuotes oneQuote)
        ⟨none, 0, microsPerDay, .sourceDays⟩ Faults.none).effects) ∧
      LeavesNoHole ingestQuotes grown (firstTape ingestQuotes oneQuote)
        ⟨none, 0, microsPerDay, .sourceDays⟩ := by
  refine ⟨by decide +kernel, leavesNoHole_of_pathsApart _ _
    (builtTape_firstTape (isPrefix_withFile [] (by decide +kernel))) ?_ ?_⟩
  · decide +kernel
  · decide +kernel

/-- A gap of a venue that began at the epoch, reported at a moment. -/
def gapOf (venue : Venue) (recvMicros : Int) : Envelope :=
  .new venue btc (some 0) recvMicros
    (.gap ⟨.quotes, 0, recvMicros, .downtime, .continuous, none⟩)

/-- Two generated gaps, as they decode. -/
def decodeGap : List UInt8 → Except Text Envelope
  | [0] => .ok (gapOf firstVenue 0)
  | [1] => .ok (gapOf secondVenue microsPerDay)
  | _ => .error []

/-- A generated gap of a venue, the first payload of its own sequence. -/
def gapReceipt (venue : Venue) (recvMicros : Int) (payload : List UInt8) : Payload :=
  ⟨1, recvMicros, .venue venue.text, "gaps".toList, "gaps".toList, none, .generated, payload⟩

/-- The archive of the first venue's gap. -/
def oneGap : ArchiveTree := withFile ∅ [gapReceipt firstVenue 0 [0]]

/-- The same archive a day later. -/
def twoGaps : ArchiveTree := withFile oneGap [gapReceipt secondVenue microsPerDay [1]]

/-- The one path, decoding generated gaps. -/
def ingestGaps : Payload → Ingested := ingestReplayed decodeGap (quoting firstVenue)

theorem isPrefix_oneGap : IsPrefix oneGap twoGaps :=
  isPrefix_withFile [] (by decide +kernel)

/-- **The second venue's segment takes the name of the first's**, whose row is then nowhere
on the tape. -/
theorem rebuild_leaves_hole :
    ∃ archive tape request, BuiltTape ingestGaps archive tape ∧
      ¬ LeavesNoHole ingestGaps archive tape request := by
  refine ⟨twoGaps, firstTape ingestGaps oneGap, ⟨none, 0, 2 * microsPerDay, .sourceDays⟩,
    builtTape_firstTape isPrefix_oneGap, fun noHole => ?_⟩
  have lost : ∃ path ∈ (firstTape ingestGaps oneGap).keys,
      ∃ segment ∈ (firstTape ingestGaps oneGap).lookup path, ∃ cells ∈ segment.rows,
        ¬ Listed (applyAll ((rebuildWith ingestGaps twoGaps (firstTape ingestGaps oneGap)
          ⟨none, 0, 2 * microsPerDay, .sourceDays⟩ Faults.none).effects.take 2)
            (firstTape ingestGaps oneGap)) path.partition cells := by
    decide +kernel
  obtain ⟨path, _, segment, found, cells, member, notListed⟩ := lost
  exact notListed (noHole Faults.none 2 path segment cells found member)

end Tape
end Datawatch
