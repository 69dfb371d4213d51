import Datawatch.Segments.ClosedHoursOnce

/-!
# Closed days

The partitions of a root dated before today, each compacted whole in turn.  Capture still writes
today's, and none of those is touched.
-/

namespace Datawatch
namespace Segments

open Library Library.Directory

/-- Whether a partition's day is over: dates compare as the text of the path. -/
def isClosed (today partition : Text) : Bool :=
  ((components partition).filterMap fun level => "date=".toList.isPrefixOf? level).any
    fun date => date < today

/-- The partitions of a root whose day is over. -/
def closedPartitions {Content : Type u} (tree : Tree Content) (root today : Text) : List Text :=
  ((partitionsListed tree root).map Prod.fst).filter fun partition => isClosed today partition

section Run

variable {Row : Type u} {Schema : Type v} [DecidableEq Row] [DecidableEq Schema]
  (recvMicros : Row → Option Int) (faults : Text → Faults)

/-- What one closed partition's compaction does. -/
def dayRun (tree : Tree (SegmentFile Row Schema)) (partition : Text) :
    Trace Row Schema Compacted :=
  compactPartition recvMicros (faults partition) (filesIn tree partition) (namesIn tree partition)

/-- Compact partitions whole, in turn. -/
def compactEach : List Text → Compacted → Tree (SegmentFile Row Schema) → TreeTrace Row Schema
  | [], total, _ => ⟨[], .ok total⟩
  | partition :: rest, total, tree =>
      let run := dayRun recvMicros faults tree partition
      let effects := run.effects.map (within partition)
      match run.result with
      | .error error => ⟨effects, .error error⟩
      | .ok one =>
          let later := compactEach rest
            { segmentsBefore := total.segmentsBefore + one.segmentsBefore
              segmentsAfter := total.segmentsAfter + one.segmentsAfter
              rows := total.rows + one.rows }
            (applyAll effects tree)
          ⟨effects ++ later.effects, later.result⟩

/-- Compact every partition under a root whose day is over. -/
def compactClosed (tree : Tree (SegmentFile Row Schema)) (root today : Text) :
    TreeTrace Row Schema :=
  compactEach recvMicros faults (closedPartitions tree root today) ⟨0, 0, 0⟩ tree

end Run

section Listed

variable {Content : Type u} {tree : Tree Content} {root today partition : Text}

end Listed

variable {Row : Type u} {Schema : Type v} [DecidableEq Row] [DecidableEq Schema]
  {recvMicros : Row → Option Int} {faults : Text → Faults}

section Partition

variable {partitionFaults : Faults} {files : Partition Row Schema} {names : List Text}

/-- One partition's run does what its one set's does, or nothing. -/
theorem compactPartition_cases (recvMicros : Row → Option Int) (partitionFaults : Faults)
    (files : Partition Row Schema) (names : List Text) :
    (∃ error, compactPartition recvMicros partitionFaults files names = ⟨[], .error error⟩) ∨
    (compactPartition recvMicros partitionFaults files names).effects =
        (compactSet recvMicros partitionFaults files (listSegments names)).effects ∧
      ∀ counted, (compactPartition recvMicros partitionFaults files names).result = .ok counted →
        ∃ counts, (compactSet recvMicros partitionFaults files (listSegments names)).result =
          .ok counts := by
  unfold compactPartition
  simp only
  split
  · exact .inl ⟨_, rfl⟩
  · refine .inr ⟨rfl, fun counted returned => ?_⟩
    cases result : (compactSet recvMicros partitionFaults files (listSegments names)).result with
    | error error =>
        rw [result] at returned
        cases returned
    | ok counts => exact ⟨counts, rfl⟩

variable (read : names.Perm files.keys)

include read in
/-- A partition's run keeps its rows, where none is held twice. -/
theorem contents_compactPartition (once : (contents files).Nodup) :
    contents (applyAll (compactPartition recvMicros partitionFaults files names).effects files) =
      contents files := by
  have lists := lists_listSegments read
  rcases compactPartition_cases recvMicros partitionFaults files names with
    ⟨error, stopped⟩ | ⟨same, _⟩
  · rw [stopped]
    rfl
  · rw [same]
    exact contents_compactSet_of_disjoint lists mergeClosed_all fun first isFirst second isSecond =>
      disjoint_of_nodup once (lists.parsed first isFirst) (lists.parsed second isSecond)

end Partition

section Walk

variable {tree : Tree (SegmentFile Row Schema)} {total : Compacted} {partitions : List Text}

end Walk

variable {root today partition : Text} {tree : Tree (SegmentFile Row Schema)}

end Segments
end Datawatch
