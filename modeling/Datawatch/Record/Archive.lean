import Datawatch.Library.Grouping
import Datawatch.Wire.Event
import Datawatch.Record.Payload

/-!
# The record's writer

What a venue streams is buffered against the flush timer, and what is fetched or generated is
committed at once.  A flush writes one segment for each partition, and what it could not write
goes back in the buffer.
-/

namespace Datawatch
namespace Record

open Library Library.Grouping Segments Wire

/-- A process's handle on the record: the tree, the two markers of its scope, and what it
holds.  The numbering counts up from where the handle was opened. -/
structure Archive where
  tree : ArchiveTree := ∅
  unflushed : Option Int := none
  cleanShutdown : Option Int := none
  scope : Option Text := none
  pid : Nat := 0
  flushSeq : Nat := 0
  nextSeq : Nat := 0
  buffered : List Payload := []
  failures : List Failure := []

namespace Archive

/-- The name of the next segment, from the receipts it holds. -/
def cursorFor (archive : Archive) (times : List Int) : Cursor :=
  .time (times.min?.getD 0) (times.max?.getD 0) archive.pid (archive.flushSeq + 1)

/-- Write one segment, under the next name. -/
def write (archive : Archive) (partition : Text) (times : List Int) (file : ArchiveFile)
    (fate : WriteFate) : Archive :=
  { archive with
    flushSeq := archive.flushSeq + 1
    tree := Library.Directory.applyAll
      (fate.effects ⟨partition, (archive.cursorFor times).fileName⟩ file) archive.tree }

def commitGroup (archive : Archive) (partition : Text) (group : List Payload)
    (fate : WriteFate) : Archive :=
  archive.write partition (group.map Payload.recvMicros) (payloadFile group) fate

/-- Append a payload, which has been numbered, and whether the record took it.  Durability
follows its origin. -/
def append (archive : Archive) (payload : Payload) (fate : WriteFate) : Archive × Bool :=
  match payload.origin with
  | .fetched | .generated =>
      (archive.commitGroup payload.partition [payload] fate, fate.succeeds)
  | .streamed => ({ archive with buffered := archive.buffered ++ [payload] }, true)

/-- Record that a payload would not normalise, on the next flush. -/
def appendFailure (archive : Archive) (failure : Failure) : Archive :=
  { archive with failures := archive.failures ++ [failure] }

/-- How a sequence of writes ends: all written, one failed with what was not written, or the
process died before one. -/
inductive Ended (Held : Type)
  | done
  | failed (unwritten : Held)
  | died

/-- Commit partition by partition, handing back every payload not written where one fails.  The
process dies where the fates end. -/
def commitOrReturn :
    List (Text × List Payload) → List WriteFate → Archive → Archive × Ended (List Payload)
  | [], _, archive => (archive, .done)
  | _ :: _, [], archive => (archive, .died)
  | (partition, group) :: groups, fate :: fates, archive =>
      let archive := archive.commitGroup partition group fate
      if fate.succeeds then commitOrReturn groups fates archive
      else
        (archive, .failed ((group ++ groups.flatMap Prod.snd).insertionSort fun first second =>
          first.seq ≤ second.seq))

/-- Commit failures beside the partitions that hold the bytes. -/
def commitFailures :
    List (Text × List Failure) → List WriteFate → Archive → Archive × Ended Unit
  | [], _, archive => (archive, .done)
  | _ :: _, [], archive => (archive, .died)
  | (partition, group) :: groups, fate :: fates, archive =>
      let archive := archive.write (partition ++ "/failures".toList)
        (group.map Failure.recvMicros) (failureFile group) fate
      if fate.succeeds then commitFailures groups fates archive else (archive, .failed ())

/-- The earliest receipt held and not durable. -/
def earliestHeld (archive : Archive) : Option Int :=
  (archive.buffered.map Payload.recvMicros ++ archive.failures.map Failure.recvMicros).min?

/-- Date the restart gap from the earliest receipt held, where the marker can be written. -/
def markUnflushed (archive : Archive) (marks : Bool) : Archive :=
  match archive.earliestHeld with
  | none => archive
  | some earliest => if marks then { archive with unflushed := some earliest } else archive

/-- What becomes of one flush: its writes in their order, and whether a marker can be written or
removed. -/
structure FlushFates where
  payloads : List WriteFate
  failures : List WriteFate
  marks : Bool
  removes : Bool

/-- Commit everything held.  A flush that fails part-way loses nothing it still holds. -/
def flush (archive : Archive) (fates : FlushFates) : Archive × Ended Unit :=
  let emptied := { archive with buffered := [], failures := [] }
  match commitOrReturn (groupBy Payload.partition archive.buffered) fates.payloads emptied with
  | (written, .died) => (written, .died)
  | (written, .failed unwritten) =>
      (markUnflushed { written with buffered := unwritten, failures := archive.failures }
        fates.marks, .failed ())
  | (written, .done) =>
      match commitFailures (groupBy Failure.partition archive.failures) fates.failures written with
      | (written, .died) => (written, .died)
      | (written, .failed _) =>
          (markUnflushed { written with failures := archive.failures } fates.marks, .failed ())
      | (written, .done) =>
          ({ written with unflushed := if fates.removes then none else written.unflushed }, .done)

/-- The last moment the scope is durable to, from segment names alone. -/
def lastDurable (archive : Archive) : Option Int :=
  (Segments.lastDurable archive.tree (archive.scope.getD [])).map Prod.snd

/-- The last moment one venue's one kind is durable to. -/
def lastDurableFor (archive : Archive) (venue kind : Text) : Option Int :=
  (Segments.lastDurable archive.tree
    ("venue=".toList ++ venue ++ "/kind=".toList ++ kind)).map Prod.snd

/-- The interval this process was not capturing, and why. -/
def restartWindow (archive : Archive) (nowMicros : Int) : Option (Int × Int × GapCause) :=
  archive.lastDurable.bind fun durable =>
    let fromMicros := (archive.unflushed.map (min durable)).getD durable
    if nowMicros ≤ fromMicros then none
    else
      some (fromMicros, nowMicros,
        if archive.cleanShutdown.isSome then .downtime else .crashUnflushed)

/-- Clear the markers, so a kill from here on is reported as one. -/
def clearCleanShutdown (archive : Archive) : Archive :=
  { archive with unflushed := none, cleanShutdown := none }

/-- The next process's handle: the tree and the markers, and nothing held. -/
def reopened (archive : Archive) (pid nextSeq : Nat) : Archive :=
  { archive with pid, flushSeq := 0, nextSeq, buffered := [], failures := [] }

end Archive

/-- The next name is parsed as what it was written from. -/
theorem parse_cursorFor {archive : Archive} {times : List Int} (nonempty : times ≠ [])
    (inRange : ∀ time ∈ times, i64Min ≤ time ∧ time ≤ i64Max) (pid : archive.pid < 2 ^ 32)
    (fits : archive.flushSeq + 1 < 2 ^ 64) :
    Cursor.parse (archive.cursorFor times).fileName = some (archive.cursorFor times) := by
  obtain ⟨first, isFirst⟩ := Option.ne_none_iff_exists'.mp
    (fun noMin => nonempty (List.min?_eq_none_iff.mp noMin))
  obtain ⟨last, isLast⟩ := Option.ne_none_iff_exists'.mp
    (fun noMax => nonempty (List.max?_eq_none_iff.mp noMax))
  apply Cursor.parse_fileName
  simp only [Archive.cursorFor, isFirst, isLast, Option.getD_some, Cursor.InRange]
  exact ⟨inRange first (List.min?_mem isFirst), inRange last (List.max?_mem isLast), pid, fits⟩

end Record
end Datawatch
