import Datawatch.Segments.Keeps

/-!
# Histories of compactions

Whole partitions and closed hours are compacted again and again, each run stopping
after any of its effects.
-/

namespace Datawatch
namespace Segments

open Library Library.Directory Library.Transition

variable {Row : Type u} {Schema : Type v} [DecidableEq Row] [DecidableEq Schema]

/-- What a run is asked to compact. -/
inductive Request
  /-- The whole partition: `compact_partition`. -/
  | partition
  /-- Today's closed hours: `compact_closed_hours`. -/
  | closedHours (cutoffMicros : Int)
deriving DecidableEq

/-- One run, with what the filesystem did to it: the order `readdir` returned, the
reads that failed, and how many effects were made before the process died or an
effect was refused. -/
structure CompactionRun where
  request : Request
  names : List Text
  faults : Faults
  count : Nat

/-- The effects of a run in order, and what it returns once all are made. -/
def CompactionRun.trace (recvMicros : Row → Option Int) (run : CompactionRun)
    (files : Partition Row Schema) : Trace Row Schema Compacted :=
  match run.request with
  | .partition => compactPartition recvMicros run.faults files run.names
  | .closedHours cutoffMicros =>
      compactClosedHours recvMicros run.faults cutoffMicros files run.names

/-- One run of a partition's history.  It is enabled where its names are those of the
directory. -/
def compactionStep (recvMicros : Row → Option Int) (files : Partition Row Schema)
    (run : CompactionRun) : Option (Partition Row Schema) :=
  if run.names.Perm files.keys then
    some (applyAll ((run.trace recvMicros files).effects.take run.count) files)
  else none

variable {recvMicros : Row → Option Int} {faults : Faults}

omit [DecidableEq Row] [DecidableEq Schema] in
/-- Effects on one hour's names leave another hour's listing as it was. -/
theorem lists_after_other_hour {files : Partition Row Schema} {listed : Listing}
    {cutoffMicros hour other : Int} (different : other ≠ hour)
    {effects : List (Effect Text (SegmentFile Row Schema))}
    (touches : ∀ effect ∈ effects, ∃ cursor, Cursor.parse effect.target = some cursor ∧
      closedHour cutoffMicros cursor = some hour)
    (lists : Lists (fun cursor => closedHour cutoffMicros cursor = some other) files listed) :
    Lists (fun cursor => closedHour cutoffMicros cursor = some other)
      (applyAll effects files) listed := by
  refine lists.of_mem_iff fun name cursor parsed taken => ?_
  rw [← AList.lookup_isSome, ← AList.lookup_isSome, lookup_applyAll_of_untouched]
  rintro effect member rfl
  obtain ⟨touched, touchedParsed, touchedTaken⟩ := touches effect member
  obtain rfl : touched = cursor := Option.some.inj (touchedParsed.symm.trans parsed)
  exact different (Option.some.inj (taken.symm.trans touchedTaken))

/-- Every prefix of the closed hours' effects keeps every row. -/
theorem compactHours_keeps {cutoffMicros : Int} {listed : Listing} {hours : List Int}
    (distinct : hours.Nodup) {total : Compacted} {files : Partition Row Schema}
    (lists : ∀ hour ∈ hours, Lists (fun cursor => closedHour cutoffMicros cursor = some hour)
      files (inHour cutoffMicros hour listed)) (count : Nat) :
    Keeps files (applyAll
      ((compactHours recvMicros faults cutoffMicros listed hours total files).effects.take count)
      files) := by
  induction hours generalizing total files count with
  | nil => simpa [compactHours] using Keeps.refl files
  | cons hour hours inductionHypothesis =>
      obtain ⟨fresh, distinctRest⟩ := List.nodup_cons.mp distinct
      have listsHour := lists hour List.mem_cons_self
      have closed := mergeClosed_closedHour cutoffMicros hour
      simp only [compactHours]
      split
      · exact inductionHypothesis distinctRest
          (fun other member => lists other (List.mem_cons_of_mem _ member)) count
      · split
        · exact compactSet_keeps listsHour closed count
        · rename_i after rows finished
          simp only [List.take_append, applyAll_append]
          -- The later hours only start once every effect of this one is made.
          rcases reached : count - (compactSet recvMicros faults files
            (inHour cutoffMicros hour listed)).effects.length with _ | further
          · simpa using compactSet_keeps listsHour closed count
          · have whole := List.take_of_length_le (i := count)
              (l := (compactSet recvMicros faults files
                (inHour cutoffMicros hour listed)).effects) (by omega)
            have first : Keeps files (applyAll ((compactSet recvMicros faults files
                (inHour cutoffMicros hour listed)).effects.take count) files) :=
              compactSet_keeps listsHour closed count
            rw [whole] at first ⊢
            refine first.trans (inductionHypothesis distinctRest ?_ _)
            intro other member
            have different : other ≠ hour := fun same => fresh (same ▸ member)
            exact lists_after_other_hour different
              (fun effect inEffects => taken_of_mem_effects listsHour closed inEffects)
              (lists other (List.mem_cons_of_mem _ member))

/-- Every prefix of a run's effects keeps every row. -/
theorem trace_keeps {files : Partition Row Schema} {run : CompactionRun}
    (read : run.names.Perm files.keys) (count : Nat) :
    Keeps files (applyAll ((run.trace recvMicros files).effects.take count) files) := by
  have lists := lists_listSegments read
  unfold CompactionRun.trace
  cases run.request with
  | partition =>
      simp only [compactPartition]
      split
      · simpa using Keeps.refl files
      · exact compactSet_keeps lists mergeClosed_all count
  | closedHours cutoffMicros =>
      refine compactHours_keeps ?_ (fun hour _ => lists.inHour cutoffMicros hour) count
      exact (List.perm_insertionSort _ _).nodup_iff.mpr (List.nodup_dedup _)

/-- One step of a history keeps every row. -/
theorem compactionStep_keeps {files later : Partition Row Schema} {run : CompactionRun}
    (stepped : compactionStep recvMicros files run = some later) : Keeps files later := by
  unfold compactionStep at stepped
  split at stepped
  · rename_i read
    obtain rfl := Option.some.inj stepped
    exact trace_keeps read run.count
  · cases stepped

/-- A whole history keeps every row. -/
theorem exec_keeps {runs : List CompactionRun} {start finish : Partition Row Schema}
    (history : exec (compactionStep recvMicros) runs start = some finish) :
    Keeps start finish := by
  have preserved : ∀ state run next, Keeps start state →
      compactionStep recvMicros state run = some next → Keeps start next :=
    fun _ _ _ kept stepped => kept.trans (compactionStep_keeps stepped)
  exact invariant_of_exec preserved (Keeps.refl start) history

/-- **Compaction never loses a row.**  Over any history of runs, each stopped after any
of its effects, every row readable at the start stays readable; and after each run every
segment it found is held whole by one segment listed at that run's end. -/
theorem compaction_never_loses_a_row
    {runs : List CompactionRun} {start finish : Partition Row Schema}
    (history : exec (compactionStep recvMicros) runs start = some finish) :
    (∀ row, Readable start row → Readable finish row) ∧
      ∀ earlier run later, runs = earlier ++ run :: later →
        ∃ found left, exec (compactionStep recvMicros) earlier start = some found ∧
          compactionStep recvMicros found run = some left ∧
          ∀ name file, IsSegment found name file →
            ∃ keeper kept, IsSegment left keeper kept ∧
              (file.rows : Multiset Row) ≤ (kept.rows : Multiset Row) := by
  refine ⟨fun row readable => (exec_keeps history).readable readable, ?_⟩
  rintro earlier run later rfl
  rw [exec_append, Option.bind_eq_some_iff] at history
  obtain ⟨found, before, rest⟩ := history
  obtain ⟨left, stepped, _⟩ := exec_cons_eq_some_iff.mp rest
  exact ⟨found, left, before, stepped, compactionStep_keeps stepped⟩

/-- Rows of two columns, the first their receipt time. -/
def receiptOf (row : Int × Nat) : Option Int := some row.1

/-- Two flushes of one partition, one after the other. -/
def twoFlushes : Partition (Int × Nat) Unit :=
  ofList [((Cursor.time 1 2 7 1).fileName, ⟨(), [[(1, 10), (2, 20)]]⟩),
    ((Cursor.time 3 4 7 2).fileName, ⟨(), [[(3, 30), (4, 40)]]⟩)]

/-- A run that dies once the replacement is committed, before anything is removed. -/
def interrupted : CompactionRun :=
  ⟨.partition, twoFlushes.keys, .none, 1⟩

/-- What the interrupted run leaves: the replacement beside both originals. -/
def interruptedFlushes : Partition (Int × Nat) Unit :=
  twoFlushes.insert (Cursor.time 1 4 7 0).fileName
    ⟨(), [[(1, 10), (2, 20), (3, 30), (4, 40)]]⟩

theorem compaction_never_loses_a_row_interrupted :
    exec (compactionStep receiptOf) [interrupted] twoFlushes =
        some interruptedFlushes ∧
      ∀ row, Readable twoFlushes row → Readable interruptedFlushes row := by
  have history : exec (compactionStep receiptOf) [interrupted] twoFlushes =
      some interruptedFlushes :=
    eq_some_of_entries_eq (by decide +kernel)
  exact ⟨history, (compaction_never_loses_a_row history).1⟩

end Segments
end Datawatch
