import Mathlib
import Datawatch.Calendar
import Datawatch.Library.Grouping
import Datawatch.Segments.Tree
import Datawatch.Tape.Batch

/-!
# Buffer, sort, write the segment, commit

A segment holds one venue's rows of one receipt day, in the partition of their dataset and
date, and is named by the stream-sequence range it covers.
-/

namespace Datawatch
namespace Tape

open Library Library.Directory Library.Grouping Wire Segments Calendar

/-- What a committed tape segment holds: its footer's labels, and one batch. -/
structure TapeSegment where
  labels : List (Text × Text)
  batch : RecordBatch
deriving DecidableEq

namespace TapeSegment

def rows (segment : TapeSegment) : List (List Cell) := segment.batch.rows

/-- What a footer says under one key. -/
def label (segment : TapeSegment) (key : Text) : Option Text :=
  (segment.labels.find? fun entry => entry.1 = key).map Prod.snd

end TapeSegment

/-- The tape's tree. -/
abbrev TapeTree := Segments.Tree TapeSegment

/-- `kind=<kind>/date=<yyyy-mm-dd>` -/
def partitionOf (kind : Kind) (atMicros : Int) : Text :=
  "kind=".toList ++ kind.asStr ++ '/' :: "date=".toList ++ dateOf atMicros

/-- What the rows of one segment share. -/
structure GroupKey where
  partition : Text
  kind : Kind
  venue : Text
  sourceDay : Text
deriving DecidableEq

/-- The order groups are written in. -/
def GroupKey.order (key : GroupKey) : Text ×ₗ Nat ×ₗ Text ×ₗ Text :=
  toLex (key.partition, toLex (key.kind.rank, toLex (key.venue, key.sourceDay)))

namespace Row

/-- The partition of a row: the date its event happened, by the venue's own time where it
states one. -/
def partition (row : Row) : Text :=
  partitionOf row.envelope.kind (row.envelope.atMicros.getD row.envelope.recvMicros)

/-- The day the payload a row came from was received. -/
def sourceDay (row : Row) : Text := dateOf row.sourceRecvMicros

/-- The group a row is written in. -/
def key (row : Row) : GroupKey :=
  ⟨row.partition, row.envelope.kind, venueOf row.envelope, row.sourceDay⟩

/-- The order of rows within a segment: ticker, then venue time, then stream position. -/
def order (row : Row) : Text ×ₗ WithBot Int ×ₗ Nat :=
  toLex (tickerOf row.envelope, toLex ((row.envelope.atMicros : WithBot Int), row.streamSeq.toNat))

end Row

/-- Group into partitions, by dataset and by the date a row belongs to. -/
def group (rows : List Row) : List (GroupKey × List Row) :=
  (groupBy Row.key rows).insertionSort fun first second => first.1.order ≤ second.1.order

/-- The stream-sequence range of a group. -/
def rangeOf (rows : List Row) : Cursor :=
  let seqs := rows.map fun row => row.streamSeq.toNat
  .seq (seqs.min?.getD 0) (seqs.max?.getD 0)

/-- Where a group is written. -/
def pathOf (key : GroupKey) (rows : List Row) : Path :=
  ⟨key.partition, (rangeOf rows).fileName⟩

/-- What a group is written as. -/
def segmentOf (key : GroupKey) (batch : RecordBatch) : TapeSegment :=
  ⟨[(venueLabel, key.venue), (sourceDayLabel, key.sourceDay)], batch⟩

/-- Every group's segment, built before any is written. -/
def build : List (GroupKey × List Row) → Except TapeError (List (Path × TapeSegment))
  | [] => .ok []
  | (key, rows) :: groups =>
      let sorted := rows.insertionSort fun first second => first.order ≤ second.order
      (batchFor key.kind sorted).bind fun batch =>
        (build groups).map fun built =>
          if batch.numRows = 0 then built
          else (pathOf key sorted, segmentOf key batch) :: built

/-- Write what was built, in order, up to the first write that reports an error. -/
def writeAll : (Nat → WriteFate) → List (Path × TapeSegment) →
    List (Effect Path TapeSegment) × Except TapeError (List Path)
  | _, [] => ([], .ok [])
  | fates, (path, segment) :: built =>
      let effects := (fates 0).effects path segment
      if (fates 0).succeeds then
        let rest := writeAll (fun count => fates (count + 1)) built
        (effects ++ rest.1, rest.2.map fun written => path :: written)
      else (effects, .error .segment)

/-- Write and commit everything taken: the effects in order, and what was returned. -/
def commit (fates : Nat → WriteFate) (rows : List Row) :
    List (Effect Path TapeSegment) × Except TapeError (List Path) :=
  match build (group rows) with
  | .error reason => ([], .error reason)
  | .ok built => writeAll fates built

/-- The venues among the rows taken. -/
def pendingVenues (rows : List Row) : List Text := rows.map fun row => venueOf row.envelope

end Tape
end Datawatch
