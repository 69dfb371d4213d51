import Datawatch.Record.Payload
import Datawatch.Tape.Writer

/-!
# The bounded reader

A window of one dataset is read as far as each venue's bound permits.  Partitions are left out by
their dates, segments by their names and labels, and row groups by their footers' statistics, and
every row that is decoded is then kept or dropped on its own.
-/

namespace Datawatch
namespace Tape

open Library Wire Segments Calendar

/-- What a caller wants to see: one dataset, a range of venue time, and one instrument or every
one. -/
structure Window where
  kind : Kind
  fromMicros : Int
  toMicros : Int
  ticker : Option Text

/-- The greatest stream sequence a caller may see, by venue. -/
abbrev Bound := Text → Option Int

/-- Why a read is refused. -/
inductive ReadError
  | backwards (fromMicros toMicros : Int)
  | unlabelled (path : Segments.Path)
  | segment (path : Segments.Path)
deriving DecidableEq

/-- What a footer says of one column of one row group. -/
inductive Statistics
  | int64 (least greatest : Option Int) (nullCount : Option Nat)
  | byteArray (least greatest : Option (List UInt8))

/-- The statistics of a segment's row groups, by their place and a column's name. -/
abbrev Footer := Nat → Text → Option Statistics

/-- What a row group must be able to hold to be decoded. -/
inductive Prune
  | int64Range (column : Text) (fromMicros toMicros : Int) (keepNulls : Bool)
  | equals (column value : Text)

/-- The column a test is about. -/
def Prune.column : Prune → Text
  | .int64Range column .. | .equals column _ => column

/-- A text, as the bytes it is stored in. -/
def bytesOf (text : Text) : List UInt8 := text.flatMap String.utf8EncodeChar

/-- The order of bytes: the first that differ decide, and a prefix comes first. -/
def bytesLe : List UInt8 → List UInt8 → Bool
  | [], _ => true
  | _ :: _, [] => false
  | first :: firstRest, second :: secondRest =>
      first < second || first == second && bytesLe firstRest secondRest

/-- Whether a row group can pass a test: it cannot only on the evidence of both bounds. -/
def mayHold (statistics : Option Statistics) : Prune → Bool
  | .int64Range _ fromMicros toMicros keepNulls =>
      match statistics with
      | some (.int64 least greatest nullCount) =>
          if keepNulls && nullCount != some 0 then true
          else
            match least, greatest with
            | some least, some greatest => decide (fromMicros ≤ greatest ∧ least < toMicros)
            | _, _ => true
      | _ => true
  | .equals _ value =>
      match statistics with
      | some (.byteArray (some least) (some greatest)) =>
          bytesLe least (bytesOf value) && bytesLe (bytesOf value) greatest
      | _ => true

/-- The row groups a segment's rows are written in. -/
def TapeSegment.groups (segment : TapeSegment) : List (List (List Cell)) :=
  segment.rows.toChunks Record.maxRowGroupRows

/-- The rows of the row groups every test can hold.  A test of a column the segment lacks rules
nothing out. -/
def readWhere (footer : Footer) (segment : TapeSegment) (prunes : List Prune) :
    List (List (List Cell)) :=
  (segment.groups.zipIdx.filter fun group =>
    prunes.all fun prune =>
      if segment.batch.fields.any fun field => field.name = prune.column then
        mayHold (footer group.2 prune.column) prune
      else true).map Prod.fst

/-- A column by its name, where it is of the type asked for. -/
def columnOf (fields : List Field) (name : Text) (dataType : DataType) : Option Nat :=
  (fields.findIdx? fun field => field.name = name).filter fun index =>
    (fields[index]?).any fun field => field.dataType = dataType

/-- Whether a row is in the window: a row of no venue time cannot be left out by one. -/
def inWindow (fields : List Field) (window : Window) (row : List Cell) : Bool :=
  match columnOf fields "at_micros".toList .int64 with
  | none => true
  | some index =>
      match row.getD index .null with
      | .int atMicros => decide (window.fromMicros ≤ atMicros ∧ atMicros < window.toMicros)
      | _ => true

/-- Whether a row is at or before the bound: a row that cannot be placed is withheld. -/
def permitted (fields : List Field) (position : Int) (row : List Cell) : Bool :=
  match columnOf fields "stream_seq".toList .uint64 with
  | none => false
  | some index =>
      match row.getD index .null with
      | .uint seq => decide (0 ≤ position ∧ (seq : Int) ≤ position)
      | _ => false

/-- Whether a row is of the instrument asked for, matched whole. -/
def isInstrument (fields : List Field) (window : Window) (row : List Cell) : Bool :=
  match window.ticker with
  | none => true
  | some wanted =>
      match columnOf fields "ticker".toList .utf8 with
      | none => false
      | some index => row.getD index .null = .text wanted

/-- The rows of one batch that the window selected and the bound permits. -/
def keep (fields : List Field) (window : Window) (position : Int) (rows : List (List Cell)) :
    List (List Cell) :=
  rows.filter fun row =>
    inWindow fields window row && permitted fields position row && isInstrument fields window row

/-- The tests a window makes of a row group. -/
def Window.prunes (window : Window) : List Prune :=
  .int64Range "at_micros".toList window.fromMicros window.toMicros true ::
    (window.ticker.map fun wanted => Prune.equals "ticker".toList wanted).toList

/-- Whether every row of a segment is past a position, which its name says. -/
def past (position : Int) : Cursor → Bool
  | .seq first _ => decide ((first : Int) ≤ i64Max ∧ position < first)
  | .time .. | .block .. => false

/-- The rows of one segment that the window selected and its venue's bound permits. -/
def viewSegment (footers : TapeSegment → Footer) (bound : Bound) (window : Window)
    (tape : TapeTree) (listed : Cursor × Segments.Path) : Except ReadError (List (List Cell)) :=
  match tape.lookup listed.2 with
  | none => .error (.segment listed.2)
  | some segment =>
      match segment.label venueLabel with
      | none => .error (.unlabelled listed.2)
      | some venue =>
          match bound venue with
          | none => .ok []
          | some position =>
              if past position listed.1 then .ok []
              else
                .ok ((readWhere (footers segment) segment window.prunes).flatMap
                  (keep segment.batch.fields window position))

/-- Where a dataset's partitions lie. -/
def kindScope (kind : Kind) : Text := "kind=".toList ++ kind.asStr

/-- The date of a partition of a dataset. -/
def dateIn (kind : Kind) (partition : Text) : Option Text :=
  let front := kindScope kind ++ "/date=".toList
  if front <+: partition then some (partition.drop front.length) else none

/-- Whether a partition may hold a moment of the window, which its date says. -/
def Window.touches (window : Window) (partition : Text) : Bool :=
  ((dateIn window.kind partition).bind midnightOf).any fun midnight =>
    decide (midnight < window.toMicros ∧ window.fromMicros < min (midnight + microsPerDay) i64Max)

/-- The segments of the partitions a window touches, in the order they are opened. -/
def segmentsFor (tape : TapeTree) (window : Window) : List (Cursor × Segments.Path) :=
  ((partitionsListed tape (kindScope window.kind)).filter fun listed =>
    window.touches listed.1).flatMap fun listed =>
      listed.2.map fun entry => (entry.1, ⟨listed.1, entry.2⟩)

/-- The rows a window holds, as the bound permits. -/
def view (footers : TapeSegment → Footer) (bound : Bound) (tape : TapeTree) (window : Window) :
    Except ReadError (List (List Cell)) :=
  if window.toMicros ≤ window.fromMicros then
    .error (.backwards window.fromMicros window.toMicros)
  else ((segmentsFor tape window).mapM (viewSegment footers bound window tape)).map List.flatten

/-- The moment a tape row is filed under: its venue time, or its receipt where it has none. -/
def filedAt : List Cell → Int
  | _ :: _ :: .int atMicros :: _ => atMicros
  | _ :: _ :: _ :: .int recvMicros :: _ => recvMicros
  | _ => 0

/-- A tape row a window holds, as the bound permits: of a day that overlaps the window, of no
venue time or one in the window, of the ticker asked for, and at most at its own venue's
bound. -/
def Shown (window : Window) (bound : Bound) (row : List Cell) : Prop :=
  (dayStart (filedAt row) < window.toMicros ∧
    window.fromMicros < dayStart (filedAt row) + microsPerDay) ∧
  match row with
  | .text venue :: ticker :: time :: _ :: .uint seq :: _ =>
      (time = .null ∨ ∃ atMicros, time = .int atMicros ∧ window.fromMicros ≤ atMicros ∧
        atMicros < window.toMicros) ∧
      (∀ wanted ∈ window.ticker, ticker = .text wanted) ∧
      ∃ position ∈ bound venue, (seq : Int) ≤ position
  | _ => False

open Classical in
/-- The rows of a list that a window holds, as the bound permits. -/
noncomputable def shownOf (window : Window) (bound : Bound) (rows : List (List Cell)) :
    List (List Cell) :=
  rows.filter fun row => Shown window bound row

/-- Every row of a tape that a window holds, as the bound permits. -/
noncomputable def rowsShown (tape : TapeTree) (bound : Bound) (window : Window) :
    List (List Cell) :=
  tape.entries.flatMap fun entry =>
    if kindScope window.kind ++ ['/'] <+: entry.1.partition then
      shownOf window bound entry.2.rows
    else []

/-- The tape a sequence of commits leaves. -/
def committed (commits : List ((Nat → WriteFate) × List Row)) : TapeTree :=
  commits.foldl
    (fun tape taken => Directory.applyAll (commit taken.1 taken.2).1 tape) ∅

/-- A footer that is true of its segment: bounds that hold every value of their row group, and a
count of no nulls only where there are none. -/
structure TrueFooter (footer : Footer) (segment : TapeSegment) : Prop where
  ints : ∀ group ∈ segment.groups.zipIdx, ∀ index field least greatest nullCount,
    segment.batch.fields[index]? = some field →
    footer group.2 field.name = some (.int64 (some least) (some greatest) nullCount) →
      ∀ row ∈ group.1, ∀ value, row.getD index .null = .int value →
        least ≤ value ∧ value ≤ greatest
  nulls : ∀ group ∈ segment.groups.zipIdx, ∀ index field least greatest,
    segment.batch.fields[index]? = some field →
    footer group.2 field.name = some (.int64 least greatest (some 0)) →
      ∀ row ∈ group.1, row.getD index .null ≠ .null
  texts : ∀ group ∈ segment.groups.zipIdx, ∀ index field least greatest,
    segment.batch.fields[index]? = some field →
    footer group.2 field.name = some (.byteArray (some least) (some greatest)) →
      ∀ row ∈ group.1, ∀ value, row.getD index .null = .text value →
        bytesLe least (bytesOf value) ∧ bytesLe (bytesOf value) greatest

end Tape
end Datawatch
