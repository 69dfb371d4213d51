import Datawatch.Library.Grouping
import Datawatch.Tape.Writer

/-!
# Signals on the tape

The one dataset that is computed and not projected.  A run's rows arrive as one hand-off file,
which is checked, written as one segment for each date its figures stand on, and then removed.
-/

namespace Datawatch
namespace Signals

open Library Library.Directory Library.Grouping Segments Wire Calendar

/-- A column's type, of those the dataset has. -/
inductive ColumnType
  | utf8
  | int64
  | float64
  | boolean
  /-- Any other, by its name. -/
  | other (name : Text)
deriving DecidableEq

/-- How a type is named in a refusal. -/
def ColumnType.name : ColumnType → Text
  | .utf8 => "Utf8".toList
  | .int64 => "Int64".toList
  | .float64 => "Float64".toList
  | .boolean => "Boolean".toList
  | .other name => name

/-- One column, without its metadata. -/
structure Field where
  name : Text
  dataType : ColumnType
  nullable : Bool
deriving DecidableEq

/-- The dataset's schema. -/
def schema : List Field :=
  [⟨"signal".toList, .utf8, false⟩, ⟨"horizon".toList, .utf8, false⟩,
    ⟨"measure".toList, .utf8, false⟩, ⟨"ticker_i".toList, .utf8, false⟩,
    ⟨"ticker_j".toList, .utf8, true⟩, ⟨"h".toList, .int64, false⟩,
    ⟨"value".toList, .float64, true⟩, ⟨"absent".toList, .utf8, true⟩,
    ⟨"n_eff".toList, .float64, true⟩, ⟨"asof_micros".toList, .int64, false⟩,
    ⟨"target_micros".toList, .int64, false⟩, ⟨"computed_micros".toList, .int64, false⟩,
    ⟨"fitted_through_micros".toList, .int64, true⟩, ⟨"fit_from_micros".toList, .int64, true⟩,
    ⟨"model".toList, .utf8, false⟩, ⟨"params".toList, .utf8, false⟩,
    ⟨"fitted".toList, .boolean, false⟩, ⟨"after_gap".toList, .boolean, false⟩,
    ⟨"code".toList, .utf8, false⟩, ⟨"run_id".toList, .utf8, false⟩]

/-- A double, by its bits. -/
abbrev Statistic := UInt64

/-- One figure, or the reason there is none. -/
structure Signal where
  signal : Text
  horizon : Text
  measure : Text
  tickerI : Text
  tickerJ : Option Text
  h : Int64
  value : Option Statistic
  absent : Option Text
  nEff : Option Statistic
  asofMicros : Int64
  targetMicros : Int64
  computedMicros : Int64
  fittedThroughMicros : Option Int64
  fitFromMicros : Option Int64
  model : Text
  params : Text
  fitted : Bool
  afterGap : Bool
  code : Text
  runId : Text
deriving DecidableEq

/-- Why a hand-off is not written. -/
inductive SignalError
  | valueOrAbsent (row : Nat)
  | notIpc (path reason : Text)
  | notTheSchema (path detail : Text)
  | notOneRun (path : Text)
  | empty (path : Text)
  | segment
deriving DecidableEq

/-- A hand-off file: its fields, and its batches as they read under the schema. -/
structure HandOff where
  fields : List Field
  batches : List (Except Text (List Signal))

def renderBool : Bool → Text
  | true => "true".toList
  | false => "false".toList

/-- The first field that differs from the schema's, or the count. -/
def differs (found : List Field) : Text :=
  match (schema.zip found).find? fun pair => pair.1 ≠ pair.2 with
  | some (expected, found) =>
      found.name ++ " is ".toList ++ found.dataType.name ++ " nullable=".toList ++
        renderBool found.nullable ++ ", expected ".toList ++ expected.name ++ ' ' ::
          expected.dataType.name ++ " nullable=".toList ++ renderBool expected.nullable
  | none =>
      Text.renderNat found.length ++ " fields, expected ".toList ++ Text.renderNat schema.length

/-- The column's one value, when every row holds the same one. -/
def oneOf {Value : Type} [DecidableEq Value] (column : Signal → Value) (rows : List Signal) :
    Option Value :=
  rows.head?.bind fun first =>
    if rows.all fun row => column row = column first then some (column first) else none

/-- One run's rows, and what they share. -/
structure Run where
  computedMicros : Int64
  runId : Text
  code : Text
  rows : List Signal

/-- A hand-off as the run it is, with nothing written. -/
def check (path : Text) (handOff : HandOff) : Except SignalError Run :=
  if handOff.fields ≠ schema then .error (.notTheSchema path (differs handOff.fields))
  else do
    let batches ← handOff.batches.mapM fun batch => batch.mapError (SignalError.notIpc path)
    let rows := batches.flatten
    if rows = [] then .error (.empty path)
    else
      match oneOf Signal.computedMicros rows, oneOf Signal.runId rows, oneOf Signal.code rows with
      | some computedMicros, some runId, some code =>
          match rows.findIdx? fun row => row.value.isNone == row.absent.isNone with
          | some row => .error (.valueOrAbsent row)
          | none => .ok ⟨computedMicros, runId, code, rows⟩
      | _, _, _ => .error (.notOneRun path)

/-- The footer label naming who wrote a signal segment. -/
def writerLabel : Text := "galata.writer".toList

/-- The writer this dataset has. -/
def writer : Text := "signals".toList

/-- The run that computed the segment's rows. -/
def runLabel : Text := "galata.run_id".toList

/-- The code that computed them. -/
def codeLabel : Text := "galata.code".toList

/-- What a committed signal segment holds. -/
structure SignalFile where
  labels : List (Text × Text)
  rows : List Signal
deriving DecidableEq

/-- The dataset's tree. -/
abbrev SignalTree := Segments.Tree SignalFile

namespace Run

/-- The run's segments are named at when it was computed, by the process that writes them. -/
def cursor (run : Run) (pid : UInt32) : Cursor :=
  .time run.computedMicros.toInt run.computedMicros.toInt pid.toNat 0

def labels (run : Run) : List (Text × Text) :=
  [(writerLabel, writer), (runLabel, run.runId), (codeLabel, run.code)]

/-- The date a row's figure stands on. -/
def dateOfRow (row : Signal) : Text := dateOf row.asofMicros.toInt

/-- The rows of each date, in the order of the dates. -/
def dated (run : Run) : List (Text × List Signal) :=
  (groupBy dateOfRow run.rows).insertionSort fun first second => first.1 ≤ second.1

/-- Where one date's rows are written. -/
def pathOf (run : Run) (pid : UInt32) (date : Text) : Path :=
  ⟨"kind=".toList ++ Kind.signals.asStr ++ '/' :: "date=".toList ++ date,
    (run.cursor pid).fileName⟩

/-- What a process writes: one labelled segment for each date. -/
def segments (run : Run) (pid : UInt32) : List (Path × SignalFile) :=
  run.dated.map fun group => (run.pathOf pid group.1, ⟨run.labels, group.2⟩)

end Run

/-- What becomes of the hand-off once every segment is committed. -/
inductive Removal
  | removed
  | refused
  | interrupted
deriving DecidableEq

/-- One attempt: by which process, and what becomes of its writes in turn.  It is interrupted
where they end. -/
structure Attempt where
  pid : UInt32
  fates : List WriteFate
  removal : Removal

/-- The dataset's tree, and the hand-off while it is there: readable, or not an IPC file. -/
structure Disk where
  tape : SignalTree
  handOff : Option (Except Text HandOff)

/-- What was committed. -/
structure Committed where
  rows : Nat
  segments : List Path
  runId : Text
deriving DecidableEq

/-- How an attempt ended. -/
inductive Ending
  | committed (committed : Committed)
  | refused (error : SignalError)
  | interrupted
deriving DecidableEq

/-- Write segments in order: an error where a write reports one, `none` where the process was
interrupted. -/
def write : List (Path × SignalFile) → List WriteFate → SignalTree →
    SignalTree × Option (Except SignalError Unit)
  | [], _, tape => (tape, some (.ok ()))
  | _ :: _, [], tape => (tape, none)
  | (path, file) :: segments, fate :: fates, tape =>
      let tape := applyAll (fate.effects path file) tape
      if fate.succeeds then write segments fates tape else (tape, some (.error .segment))

/-- Commit a hand-off: checked, written, and then removed. -/
def commit (path missing : Text) (disk : Disk) (attempt : Attempt) : Disk × Ending :=
  match disk.handOff with
  | none => (disk, .refused (.notIpc path missing))
  | some (.error reason) => (disk, .refused (.notIpc path reason))
  | some (.ok handOff) =>
      match check path handOff with
      | .error reason => (disk, .refused reason)
      | .ok run =>
          let segments := run.segments attempt.pid
          match write segments attempt.fates disk.tape with
          | (tape, none) => ({ disk with tape }, .interrupted)
          | (tape, some (.error reason)) => ({ disk with tape }, .refused reason)
          | (tape, some (.ok ())) =>
              match attempt.removal with
              | .removed =>
                  (⟨tape, none⟩,
                    .committed ⟨run.rows.length, segments.map Prod.fst, run.runId⟩)
              | .refused => ({ disk with tape }, .refused .segment)
              | .interrupted => ({ disk with tape }, .interrupted)

end Signals
end Datawatch
