import Datawatch.Ingest
import Datawatch.Replay
import Datawatch.Tape.Commit

/-!
# Archive, the one path, tape

A rebuild derives one receipt day at a time, commits it, and removes what it replaced once
every day is written.  A run is its filesystem effects in order, with what it returned, so a
crash keeps a prefix of them.
-/

namespace Datawatch
namespace Tape

open Library Library.Directory Wire Segments Calendar Record Ingest Replay

/-- Why a rebuild stopped. -/
inductive RebuildError
  | replay (reason : ReplayError)
  | tape (reason : TapeError)
  /-- A segment in the tape does not say whose rows it holds. -/
  | unknownVenue (path : Path)
  /-- A segment in the tape does not say which receipt day its rows came from. -/
  | unknownSource (path : Path)
  /-- Replacement was asked for over a range that splits a day. -/
  | splitDay (fromMicros toMicros : Int)
  | footer (path : Path)
  /-- A segment could not be removed. -/
  | replace (path : Path)
deriving DecidableEq

/-- Whether a rebuild may remove what a previous one wrote. -/
inductive Replace
  | never
  | sourceDays
deriving DecidableEq

/-- What a rebuild is asked for: archive subtrees, a half-open receipt range, and whether to
replace. -/
structure Request where
  scopes : Option (List Text)
  fromMicros : Int
  toMicros : Int
  replace : Replace
deriving DecidableEq

/-- What a rebuild did. -/
structure Rebuilt where
  payloads : Nat
  rows : Nat
  segments : Nat
  replaced : Nat
  unparsed : Nat
deriving DecidableEq

/-- What fails during a run: the replay of a day, the reading of a footer, each write of a
day's commit, the removal of a segment. -/
structure Faults where
  replay : Int → Option ReplayError
  footer : Path → Bool
  write : Int → Nat → WriteFate
  removal : Path → Bool

/-- Nothing fails. -/
def Faults.none : Faults :=
  ⟨fun _ => .none, fun _ => false, fun _ _ => .committed, fun _ => false⟩

theorem Faults.none_passes (days : List Int) :
    ∀ midnight ∈ days, Faults.none.replay midnight = .none ∧
      ∀ count, Faults.none.write midnight count = .committed :=
  fun _ _ => ⟨rfl, fun _ => rfl⟩

/-- Whether a range reads every receipt day it touches whole. -/
def WholeDays (fromMicros toMicros : Int) : Prop :=
  (fromMicros = i64Min ∨ fromMicros % microsPerDay = 0) ∧
    (toMicros = i64Max ∨ toMicros % microsPerDay = 0)

instance (fromMicros toMicros : Int) : Decidable (WholeDays fromMicros toMicros) := by
  unfold WholeDays
  infer_instance

/-- A segment with the venue and the source day its labels state. -/
structure Labelled where
  path : Path
  venue : Text
  source : Int
deriving DecidableEq

/-- The segments of the projected datasets, in the order they are planned. -/
def projectedPaths (tape : TapeTree) : List Path :=
  projectedKinds.flatMap fun kind =>
    (partitionsListed tape ("kind=".toList ++ kind.asStr)).flatMap fun listed =>
      listed.2.map fun entry => ⟨listed.1, entry.2⟩

/-- The labels of one segment, or a refusal naming it. -/
def labelsOf (tape : TapeTree) (fails : Path → Bool) (path : Path) :
    Except RebuildError Labelled :=
  if fails path then .error (.footer path)
  else
    match tape.lookup path with
    | none => .error (.footer path)
    | some segment =>
        match segment.label venueLabel with
        | none => .error (.unknownVenue path)
        | some venue =>
            match (segment.label sourceDayLabel).bind midnightOf with
            | none => .error (.unknownSource path)
            | some source => .ok ⟨path, venue, source⟩

/-- Every segment of the projected datasets with its labels. -/
def plan (tape : TapeTree) (fails : Path → Bool) : Except RebuildError (List Labelled) :=
  (projectedPaths tape).mapM (labelsOf tape fails)

/-- Whether a planned segment is one of `venues` with its source day in the range. -/
def doomed (venues : List Text) (fromMicros toMicros : Int) (labelled : Labelled) : Bool :=
  decide (labelled.venue ∈ venues ∧ fromMicros ≤ labelled.source ∧ labelled.source < toMicros)

/-- Remove the doomed segments but those this run wrote, up to the first that cannot be
removed, and count how many were replaced. -/
def removeDoomed (fails : Path → Bool) (venues : List Text) (fromMicros toMicros : Int)
    (written : List Path) :
    List Labelled → List (Effect Path TapeSegment) × Except RebuildError Nat
  | [] => ([], .ok 0)
  | labelled :: rest =>
      let others := removeDoomed fails venues fromMicros toMicros written rest
      if doomed venues fromMicros toMicros labelled then
        if labelled.path ∈ written then (others.1, others.2.map (· + 1))
        else if fails labelled.path then ([], .error (.replace labelled.path))
        else (.remove labelled.path :: others.1, others.2.map (· + 1))
      else others

variable (ingest : Payload → Ingested)

/-- The rows one payload derives through the one path. -/
def rowsFrom (payload : Payload) : List Row :=
  (ingest payload).emitted.map fun envelope => ⟨payload.seq, payload.recvMicros, envelope⟩

/-- The payloads that would not normalise. -/
def unparsedIn (payloads : List Payload) : Nat :=
  payloads.countP fun payload => (ingest payload).unparsed

/-- How far a run has come: its report, the venues it derived, the paths it wrote. -/
structure Progress where
  report : Rebuilt
  ours : List Text
  written : List Path

/-- A run's effects in order and what it returned.  The receipt days it committed are kept
beside them, to say what it re-derived. -/
structure Outcome (Result : Type) where
  effects : List (Effect Path TapeSegment)
  committed : List Int
  result : Except RebuildError Result

/-- The end of a receipt day, saturating. -/
def dayEnd (midnight : Int) : Int := min (midnight + microsPerDay) i64Max

/-- The replay of one receipt day of a request. -/
def streamOn (archive : ArchiveTree) (request : Request) (midnight : Int) :
    List Payload × Option ReplayError :=
  streamRange archive (fun _ => false) request.scopes (max midnight request.fromMicros)
    (min (dayEnd midnight) request.toMicros)

/-- The rows one receipt day of a request derives. -/
def rowsOn (archive : ArchiveTree) (request : Request) (midnight : Int) : List Row :=
  (streamOn archive request midnight).1.flatMap (rowsFrom ingest)

/-- Derive and commit each receipt day in turn.  Where a day's commit fails, the days before
it lose what they replaced and the run ends. -/
def rebuildDays (archive : ArchiveTree) (request : Request) (faults : Faults)
    (labelled : List Labelled) : List Int → Progress → Outcome Progress
  | [], progress => ⟨[], [], .ok progress⟩
  | midnight :: days, progress =>
      let stream := streamOn archive request midnight
      match (faults.replay midnight).or stream.2 with
      | some reason => ⟨[], [], .error (.replay reason)⟩
      | none =>
          if stream.1 = [] then rebuildDays archive request faults labelled days progress
          else
            let rows := rowsOn ingest archive request midnight
            let ours := progress.ours ++ pendingVenues rows
            let report := { progress.report with
              payloads := progress.report.payloads + stream.1.length
              rows := progress.report.rows + rows.length
              unparsed := progress.report.unparsed + unparsedIn ingest stream.1 }
            match commit (faults.write midnight) rows with
            | (effects, .ok paths) =>
                let rest := rebuildDays archive request faults labelled days
                  ⟨report, ours, progress.written ++ paths⟩
                ⟨effects ++ rest.effects, midnight :: rest.committed, rest.result⟩
            | (effects, .error reason) =>
                -- The failed removal of a doomed copy is ignored here.
                let removed := removeDoomed faults.removal ours request.fromMicros
                  (max midnight request.fromMicros) progress.written labelled
                ⟨effects ++ removed.1, [], .error (.tape reason)⟩

/-- What is left once the days are derived: remove what they replaced, and report. -/
def conclude (request : Request) (faults : Faults) (labelled : List Labelled)
    (derived : Outcome Progress) : Outcome Rebuilt :=
  match derived.result with
  | .error reason => ⟨derived.effects, derived.committed, .error reason⟩
  | .ok progress =>
      if progress.report.payloads = 0 then
        ⟨derived.effects, derived.committed, .ok progress.report⟩
      else
        let removed := removeDoomed faults.removal progress.ours request.fromMicros
          request.toMicros progress.written labelled
        ⟨derived.effects ++ removed.1, derived.committed,
          removed.2.map fun replaced =>
            { progress.report with segments := progress.written.dedup.length, replaced }⟩

/-- The progress of a run that has read no day yet. -/
def Progress.start : Progress := ⟨⟨0, 0, 0, 0, 0⟩, [], []⟩

@[simp] theorem Progress.start_ours : Progress.start.ours = [] := rfl

@[simp] theorem Progress.start_written : Progress.start.written = [] := rfl

@[simp] theorem Progress.start_payloads : Progress.start.report.payloads = 0 := rfl

/-- Rebuild the tape for a receipt range.  `ingest` is the one path with an adapter. -/
def rebuildWith (archive : ArchiveTree) (tape : TapeTree) (request : Request) (faults : Faults) :
    Outcome Rebuilt :=
  if request.replace = .sourceDays ∧ ¬ WholeDays request.fromMicros request.toMicros then
    ⟨[], [], .error (.splitDay request.fromMicros request.toMicros)⟩
  else
    match (if request.replace = .sourceDays then plan tape faults.footer else .ok []) with
    | .error reason => ⟨[], [], .error reason⟩
    | .ok labelled =>
        conclude request faults labelled
          (rebuildDays ingest archive request faults labelled
            (receiptDays archive request.scopes request.fromMicros request.toMicros)
            Progress.start)

end Tape
end Datawatch
