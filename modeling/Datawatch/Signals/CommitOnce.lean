import Datawatch.Library.Outcome
import Datawatch.Signals

/-!
# A hand-off committed once

A retry repeats the names of the attempts before it only where it runs in the same process, so
a hand-off's rows lie on the tape once exactly when no other process committed any of them.
-/

namespace Datawatch
namespace Signals

open Library Library.Directory Library.Grouping Segments

theorem Run.cursor_inRange (run : Run) (pid : UInt32) : (run.cursor pid).InRange := by
  have lower := Int64.le_toInt run.computedMicros
  have upper := Int64.toInt_lt run.computedMicros
  refine ⟨⟨?_, ?_⟩, ⟨?_, ?_⟩, pid.toNat_lt, by decide⟩
  all_goals
    simp only [i64Min, i64Max]
    omega

/-- A segment's path tells its process and its date. -/
theorem Run.pathOf_injective {run : Run} {first second : UInt32} {firstDate secondDate : Text}
    (same : run.pathOf first firstDate = run.pathOf second secondDate) :
    first = second ∧ firstDate = secondDate := by
  obtain ⟨partitions, names⟩ := Segments.Path.mk.inj same
  have cursors := Cursor.fileName_injective (run.cursor_inRange first)
    (run.cursor_inRange second) names
  simp only [Run.cursor, Cursor.time.injEq, true_and, and_true] at cursors
  exact ⟨UInt32.toNat.inj cursors, List.append_cancel_left partitions⟩

/-- What a process writes is the rows of each date, at that date's path. -/
theorem Run.mem_segments {run : Run} {pid : UInt32} {path : Path} {file : SignalFile} :
    (path, file) ∈ run.segments pid ↔
      ∃ row ∈ run.rows, path = run.pathOf pid (Run.dateOfRow row) ∧
        file = ⟨run.labels,
          run.rows.filter fun other => Run.dateOfRow other = Run.dateOfRow row⟩ := by
  simp only [Run.segments, Run.dated, List.mem_map, List.mem_insertionSort, Prod.exists,
    Prod.mk.injEq]
  constructor
  · rintro ⟨date, rows, member, rfl, rfl⟩
    have isGroup := eq_filter_of_mem_groupBy member
    obtain ⟨row, inRows⟩ := List.exists_mem_of_ne_nil _ (ne_nil_of_mem_groupBy member)
    rw [isGroup, List.mem_filter, decide_eq_true_eq] at inRows
    obtain ⟨isRow, rfl⟩ := inRows
    exact ⟨row, isRow, rfl, by rw [isGroup]⟩
  · rintro ⟨row, isRow, rfl, rfl⟩
    exact ⟨_, _, mem_groupBy isRow, rfl, rfl⟩

/-- A run with rows writes a segment first. -/
theorem Run.exists_segments_eq_cons {run : Run} (nonempty : run.rows ≠ []) (pid : UInt32) :
    ∃ row ∈ run.rows, ∃ rest, run.segments pid = (run.pathOf pid (Run.dateOfRow row),
      ⟨run.labels, run.rows.filter fun other =>
        Run.dateOfRow other = Run.dateOfRow row⟩) :: rest := by
  obtain ⟨row, isRow⟩ := List.exists_mem_of_ne_nil _ nonempty
  have member : (run.pathOf pid (Run.dateOfRow row), _) ∈ run.segments pid :=
    Run.mem_segments.mpr ⟨row, isRow, rfl, rfl⟩
  cases isSegments : run.segments pid with
  | nil =>
      rw [isSegments] at member
      cases member
  | cons segment rest =>
      have isFirst : segment ∈ run.segments pid := by
        rw [isSegments]
        exact List.mem_cons_self
      obtain ⟨found, isFound, isPath, isFile⟩ := Run.mem_segments.mp isFirst
      exact ⟨found, isFound, rest, by rw [← isPath, ← isFile]⟩

/-- Segments that share a path are one. -/
theorem Run.file_eq_of_path_eq {run : Run} {first second : UInt32} {path : Path}
    {firstFile secondFile : SignalFile} (isFirst : (path, firstFile) ∈ run.segments first)
    (isSecond : (path, secondFile) ∈ run.segments second) : firstFile = secondFile := by
  obtain ⟨firstRow, _, firstPath, rfl⟩ := Run.mem_segments.mp isFirst
  obtain ⟨secondRow, _, secondPath, rfl⟩ := Run.mem_segments.mp isSecond
  rw [(Run.pathOf_injective (firstPath.symm.trans secondPath)).2]

/-- How many segments land before a write reports an error or the process is interrupted. -/
def landed : List WriteFate → Nat
  | .committed :: fates => landed fates + 1
  | .unsynced :: _ => 1
  | .refused :: _ | [] => 0

/-- Writing commits the segments that land, and all of them where it ends well. -/
theorem write_spec (segments : List (Path × SignalFile)) (fates : List WriteFate)
    (tape : SignalTree) :
    (write segments fates tape).1 = applyAll (commits (segments.take (landed fates))) tape ∧
      ((write segments fates tape).2 = some (.ok ()) →
        segments.take (landed fates) = segments) := by
  induction segments generalizing fates tape with
  | nil => simp [write, commits]
  | cons segment segments inductionHypothesis =>
      obtain ⟨path, file⟩ := segment
      cases fates with
      | nil => simp [write, landed, commits]
      | cons fate fates =>
          cases fate with
          | committed =>
              obtain ⟨isTape, whole⟩ :=
                inductionHypothesis fates (applyAll (WriteFate.committed.effects path file) tape)
              refine ⟨isTape, fun ended => ?_⟩
              rw [landed, List.take_succ_cons, whole ended]
          | refused => simp [write, landed, commits, WriteFate.effects, WriteFate.succeeds]
          | unsynced => simp [write, landed, commits, WriteFate.effects, WriteFate.succeeds]

/-- What an attempt commits of a run. -/
def Attempt.commits (attempt : Attempt) (run : Run) : List (Path × SignalFile) :=
  (run.segments attempt.pid).take (landed attempt.fates)

/-- Whether an attempt commits anything. -/
def Attempt.Lands (attempt : Attempt) : Prop := 0 < landed attempt.fates

instance (attempt : Attempt) : Decidable attempt.Lands := by
  unfold Attempt.Lands
  infer_instance

section Attempts

variable {path : Text} {handOff : HandOff} {run : Run} (missing : Text)

/-- An attempt at a valid hand-off commits what lands.  It removes the hand-off exactly where
it succeeds, and then everything landed. -/
theorem commit_spec (isRun : check path handOff = .ok run) (tape : SignalTree)
    (attempt : Attempt) :
    (commit path missing ⟨tape, some (.ok handOff)⟩ attempt).1.tape =
        applyAll (Directory.commits (attempt.commits run)) tape ∧
      ((∃ committed, (commit path missing ⟨tape, some (.ok handOff)⟩ attempt).2 =
          .committed committed) ∧ attempt.commits run = run.segments attempt.pid ∨
        (∀ committed, (commit path missing ⟨tape, some (.ok handOff)⟩ attempt).2 ≠
          .committed committed) ∧
          (commit path missing ⟨tape, some (.ok handOff)⟩ attempt).1.handOff =
            some (.ok handOff)) := by
  obtain ⟨isTape, whole⟩ := write_spec (run.segments attempt.pid) attempt.fates tape
  simp only [commit, isRun]
  cases written : write (run.segments attempt.pid) attempt.fates tape with
  | mk after ended =>
      rw [written] at isTape whole
      cases ended with
      | none => exact ⟨isTape, .inr ⟨by simp, rfl⟩⟩
      | some result =>
          cases result with
          | error reason => exact ⟨isTape, .inr ⟨by simp, rfl⟩⟩
          | ok done =>
              cases attempt.removal with
              | removed => exact ⟨isTape, .inl ⟨⟨_, rfl⟩, whole rfl⟩⟩
              | refused => exact ⟨isTape, .inr ⟨by simp, rfl⟩⟩
              | interrupted => exact ⟨isTape, .inr ⟨by simp, rfl⟩⟩

/-- A refusal, other than of a write, has written nothing. -/
theorem commit_of_refused {missing : Text} {disk : Disk} {attempt : Attempt} {reason : SignalError}
    (refused : (commit path missing disk attempt).2 = .refused reason)
    (notWriting : reason ≠ .segment) : (commit path missing disk attempt).1 = disk := by
  have writes : ∀ segments fates tape after error,
      write segments fates tape = (after, some (.error error)) → error = .segment := by
    intro segments
    induction segments with
    | nil =>
        intro fates tape after error written
        cases written
    | cons segment segments inductionHypothesis =>
        intro fates tape after error written
        cases fates with
        | nil => cases written
        | cons fate fates =>
            rw [write] at written
            split at written
            · exact inductionHypothesis _ _ _ _ written
            · cases written
              rfl
  unfold commit at refused ⊢
  split
  · rfl
  · rfl
  · rename_i handOff found
    simp only [found] at refused
    cases checked : check path handOff with
    | error error => rfl
    | ok run =>
        simp only [checked] at refused
        cases written : write (run.segments attempt.pid) attempt.fates disk.tape with
        | mk after ended =>
            simp only [written] at refused
            cases ended with
            | none => cases refused
            | some result =>
                cases result with
                | error error =>
                    cases refused
                    exact absurd (writes _ _ _ _ _ written) notWriting
                | ok done =>
                    cases isRemoval : attempt.removal with
                    | removed =>
                        simp only [isRemoval] at refused
                        cases refused
                    | refused =>
                        simp only [isRemoval] at refused
                        cases refused
                        exact absurd rfl notWriting
                    | interrupted =>
                        simp only [isRemoval] at refused
                        cases refused

/-- The disk after attempts, one after another. -/
def commitAll (path missing : Text) (disk : Disk) (attempts : List Attempt) : Disk :=
  attempts.foldl (fun disk attempt => (commit path missing disk attempt).1) disk

/-- No attempt of a list succeeds. -/
def NoneCommitted (path missing : Text) : Disk → List Attempt → Prop
  | _, [] => True
  | disk, attempt :: attempts =>
      (∀ committed, (commit path missing disk attempt).2 ≠ .committed committed) ∧
        NoneCommitted path missing (commit path missing disk attempt).1 attempts

/-- What attempts commit between them. -/
def allCommits (run : Run) (attempts : List Attempt) : List (Path × SignalFile) :=
  attempts.flatMap fun attempt => attempt.commits run

/-- Attempts that do not succeed leave the hand-off, and on the tape what each committed. -/
theorem commitAll_spec (isRun : check path handOff = .ok run) (attempts : List Attempt)
    (tape : SignalTree)
    (unfinished : NoneCommitted path missing ⟨tape, some (.ok handOff)⟩ attempts) :
    commitAll path missing ⟨tape, some (.ok handOff)⟩ attempts =
      ⟨applyAll (commits (allCommits run attempts)) tape, some (.ok handOff)⟩ := by
  induction attempts generalizing tape with
  | nil => rfl
  | cons attempt attempts inductionHypothesis =>
      obtain ⟨notCommitted, rest⟩ := unfinished
      obtain ⟨isTape, ended⟩ := commit_spec missing isRun tape attempt
      rcases ended with ⟨⟨committed, succeeded⟩, _⟩ | ⟨_, kept⟩
      · exact absurd succeeded (notCommitted committed)
      · have isDisk : (commit path missing ⟨tape, some (.ok handOff)⟩ attempt).1 =
            ⟨applyAll (commits (attempt.commits run)) tape, some (.ok handOff)⟩ := by
          generalize (commit path missing ⟨tape, some (.ok handOff)⟩ attempt).1 = disk
            at isTape kept
          cases disk
          simp only at isTape kept
          rw [isTape, kept]
        rw [isDisk] at rest
        rw [commitAll, List.foldl_cons, isDisk]
        refine (inductionHypothesis _ rest).trans ?_
        rw [← applyAll_append, ← commits_append]
        rfl

/-- What attempts commit are segments of the run, each by its process. -/
theorem exists_of_mem_allCommits {attempts : List Attempt} {entry : Path × SignalFile}
    (member : entry ∈ allCommits run attempts) :
    ∃ attempt ∈ attempts, attempt.Lands ∧ entry ∈ run.segments attempt.pid := by
  obtain ⟨attempt, isAttempt, committed⟩ := List.mem_flatMap.mp member
  refine ⟨attempt, isAttempt, ?_, List.mem_of_mem_take committed⟩
  apply Nat.pos_of_ne_zero
  intro none
  rw [Attempt.commits, none, List.take_zero] at committed
  cases committed

/-- A file of the tape after commits is one of them, or was there before. -/
theorem file_cases {entries : List (Path × SignalFile)} {tape : SignalTree} {place : Path}
    {file : SignalFile} (found : (applyAll (commits entries) tape).lookup place = some file) :
    (place, file) ∈ entries ∨ tape.lookup place = some file := by
  rcases lookup_applyAll_commits_cases entries tape place with
    ⟨content, member, isContent⟩ | ⟨_, same⟩
  · rw [found] at isContent
    obtain rfl := Option.some.inj isContent
    exact .inl member
  · exact .inr (same ▸ found)

/-- A segment of the run, once committed, is what its path holds. -/
theorem lookup_of_committed {entries : List (Path × SignalFile)} (tape : SignalTree)
    (ofRun : ∀ entry ∈ entries, ∃ pid, entry ∈ run.segments pid)
    {place : Path} {file : SignalFile} (member : (place, file) ∈ entries) :
    (applyAll (commits entries) tape).lookup place = some file := by
  rcases lookup_applyAll_commits_cases entries tape place with
    ⟨content, isEntry, found⟩ | ⟨absent, _⟩
  · obtain ⟨first, inFirst⟩ := ofRun _ member
    obtain ⟨second, inSecond⟩ := ofRun _ isEntry
    rw [found, Run.file_eq_of_path_eq inFirst inSecond]
  · exact absurd (List.mem_map_of_mem member) absent

/-- A hand-off that passes its check has rows. -/
theorem rows_ne_nil_of_check (isRun : check path handOff = .ok run) : run.rows ≠ [] := by
  unfold check at isRun
  split at isRun
  · cases isRun
  · obtain ⟨batches, _, rest⟩ := Outcome.bind_eq_ok isRun
    simp only at rest
    split at rest
    · cases rest
    · rename_i nonempty
      split at rest
      · split at rest
        · cases rest
        · cases rest
          exact nonempty
      · cases rest

/-- How often a tape holds a row. -/
def heldRows (tape : SignalTree) (row : Signal) : Nat :=
  weight (fun _ file => file.rows.count row) tape

/-- A tape of files without a row does not hold it. -/
theorem heldRows_eq_zero {tape : SignalTree} {row : Signal}
    (without : ∀ place file, tape.lookup place = some file → row ∉ file.rows) :
    heldRows tape row = 0 := by
  rw [heldRows, weight, List.sum_eq_zero_iff]
  intro amount member
  obtain ⟨entry, isEntry, rfl⟩ := List.mem_map.mp member
  exact List.count_eq_zero.mpr (without entry.1 entry.2 (mem_entries_iff_lookup.mp isEntry))

/-- The rows of one date hold each row of that date as often as the run does. -/
theorem count_dated (rows : List Signal) (row : Signal) :
    (rows.filter fun other => Run.dateOfRow other = Run.dateOfRow row).count row =
      rows.count row :=
  List.count_filter (by simp)

variable (path) in
/-- **Committed once.**  Of a valid hand-off none of whose rows the tape holds, attempted until
one attempt succeeds, the tape then holds each row as often as the hand-off does, exactly where
every earlier attempt that committed anything ran in the process of the last; and an attempt
that refuses a file has written nothing. -/
theorem committed_once_iff (isRun : check path handOff = .ok run) {tape : SignalTree}
    (fresh : ∀ place file, tape.lookup place = some file → ∀ row ∈ run.rows, row ∉ file.rows)
    (earlier : List Attempt) (last : Attempt)
    (unfinished : NoneCommitted path missing ⟨tape, some (.ok handOff)⟩ earlier)
    {committed : Committed}
    (succeeds : (commit path missing (commitAll path missing ⟨tape, some (.ok handOff)⟩ earlier)
      last).2 = .committed committed) :
    ((∀ row ∈ run.rows, heldRows (commitAll path missing ⟨tape, some (.ok handOff)⟩
          (earlier ++ [last])).tape row = run.rows.count row) ↔
        ∀ attempt ∈ earlier, attempt.Lands → attempt.pid = last.pid) ∧
      ∀ disk attempt reason, (commit path missing disk attempt).2 = .refused reason →
        reason ≠ .segment → (commit path missing disk attempt).1 = disk := by
  refine ⟨?_, fun disk attempt reason => commit_of_refused⟩
  rw [commitAll_spec missing isRun earlier tape unfinished] at succeeds
  rw [commitAll, List.foldl_append, List.foldl_cons, List.foldl_nil]
  change (∀ row ∈ run.rows, heldRows (commit path missing (commitAll path missing
    ⟨tape, some (.ok handOff)⟩ earlier) last).1.tape row = run.rows.count row) ↔ _
  rw [commitAll_spec missing isRun earlier tape unfinished]
  -- The last attempt committed every segment of its process.
  obtain ⟨isTape, ended⟩ := commit_spec missing isRun
    (applyAll (commits (allCommits run earlier)) tape) last
  have whole : last.commits run = run.segments last.pid := by
    rcases ended with ⟨_, whole⟩ | ⟨notCommitted, _⟩
    · exact whole
    · exact absurd succeeds (notCommitted committed)
  rw [isTape, whole, ← applyAll_append, ← commits_append]
  have ofRun : ∀ entry ∈ allCommits run earlier ++ run.segments last.pid,
      ∃ pid, entry ∈ run.segments pid := by
    intro entry member
    rcases List.mem_append.mp member with inEarlier | inLast
    · obtain ⟨attempt, _, _, isSegment⟩ := exists_of_mem_allCommits inEarlier
      exact ⟨_, isSegment⟩
    · exact ⟨_, inLast⟩
  generalize isFinal : applyAll (commits (allCommits run earlier ++ run.segments last.pid)) tape =
    final
  -- A row's share of the tape: its own segment by the last attempt, and whatever else.
  have share : ∀ row ∈ run.rows, heldRows final row = run.rows.count row +
      heldRows (final.erase (run.pathOf last.pid (Run.dateOfRow row))) row := by
    intro row isRow
    have found := lookup_of_committed tape ofRun
      (List.mem_append_right _ (Run.mem_segments.mpr ⟨row, isRow, rfl, rfl⟩))
    rw [isFinal] at found
    rw [heldRows, weight_eq_held_add_erase _ final (run.pathOf last.pid (Run.dateOfRow row)),
      held, found, Option.elim_some, count_dated]
    rfl
  constructor
  · intro once attempt isAttempt lands
    by_contra other
    -- The first segment the other process committed is still there beside the last one's.
    obtain ⟨row, isRow, rest, isSegments⟩ :=
      Run.exists_segments_eq_cons (rows_ne_nil_of_check isRun) attempt.pid
    have isCommitted : (run.pathOf attempt.pid (Run.dateOfRow row),
        (⟨run.labels, run.rows.filter fun other =>
          Run.dateOfRow other = Run.dateOfRow row⟩ : SignalFile)) ∈
        allCommits run earlier ++ run.segments last.pid := by
      apply List.mem_append_left
      apply List.mem_flatMap.mpr ⟨attempt, isAttempt, ?_⟩
      obtain ⟨count, isCount⟩ := Nat.exists_eq_succ_of_ne_zero (Nat.pos_iff_ne_zero.mp lands)
      rw [Attempt.commits, isCount, isSegments, List.take_succ_cons]
      exact List.mem_cons_self
    have apart : run.pathOf attempt.pid (Run.dateOfRow row) ≠
        run.pathOf last.pid (Run.dateOfRow row) :=
      fun same => other (Run.pathOf_injective same).1
    have found := lookup_of_committed tape ofRun isCommitted
    rw [isFinal, ← AList.lookup_erase_ne apart] at found
    have twice := share row isRow
    rw [once row isRow, heldRows, weight_eq_held_add_erase _ _
      (run.pathOf attempt.pid (Run.dateOfRow row)), held, found, Option.elim_some,
      count_dated] at twice
    have positive : 0 < run.rows.count row := List.count_pos_iff.mpr isRow
    omega
  · intro sameProcess row isRow
    rw [share row isRow, Nat.add_eq_left]
    apply heldRows_eq_zero
    intro place file found
    by_cases isPath : place = run.pathOf last.pid (Run.dateOfRow row)
    · rw [isPath, AList.lookup_erase] at found
      cases found
    · rw [AList.lookup_erase_ne isPath, ← isFinal] at found
      rcases file_cases found with member | before
      · have byLast : (place, file) ∈ run.segments last.pid := by
          rcases List.mem_append.mp member with inEarlier | inLast
          · obtain ⟨attempt, isAttempt, lands, isSegment⟩ := exists_of_mem_allCommits inEarlier
            rw [sameProcess attempt isAttempt lands] at isSegment
            exact isSegment
          · exact inLast
        obtain ⟨other, _, rfl, rfl⟩ := Run.mem_segments.mp byLast
        intro isIn
        have sameDate : Run.dateOfRow row = Run.dateOfRow other := by
          simpa using (List.mem_filter.mp isIn).2
        exact isPath (by rw [sameDate])
      · exact fresh place file before row isRow

end Attempts

/-- A figure that stands on a moment, of the run computed at 500. -/
def figureAt (asofMicros : Int64) : Signal :=
  ⟨"varcov".toList, "4h".toList, "correlation".toList, "BTC".toList, some "ETH".toList, 1,
    some 0, none, none, asofMicros, asofMicros + 14400000000, 500, none, none,
    "gjr-t/dcc".toList, [], true, false, "2b5e6a4".toList, "run-1".toList⟩

/-- A run with a figure on each of the epoch's first two days. -/
def twoDates : HandOff := ⟨schema, [.ok [figureAt 0, figureAt 86400000000]]⟩

/-- The run it is. -/
def twoDatesRun : Run :=
  ⟨500, "run-1".toList, "2b5e6a4".toList, [figureAt 0, figureAt 86400000000]⟩

theorem check_twoDates : check "run.arrow".toList twoDates = .ok twoDatesRun := rfl

/-- An attempt interrupted between the two dates. -/
def interruptedBy (pid : UInt32) : Attempt := ⟨pid, [.committed], .removed⟩

/-- An attempt that succeeds. -/
def completedBy (pid : UInt32) : Attempt := ⟨pid, [.committed, .committed], .removed⟩

/-- The attempts' disk at the start. -/
def handedOff : Disk := ⟨∅, some (.ok twoDates)⟩

theorem noneCommitted_interruptedBy :
    NoneCommitted "run.arrow".toList [] handedOff [interruptedBy 7] := by
  have interrupted : (commit "run.arrow".toList [] handedOff (interruptedBy 7)).2 =
      .interrupted := by
    decide +kernel
  refine ⟨fun committed succeeded => ?_, trivial⟩
  rw [interrupted] at succeeded
  cases succeeded

/-- A retry in the same process commits each row once. -/
theorem committed_once_iff_retried :
    twoDatesRun.rows.Forall fun row => heldRows (commitAll "run.arrow".toList [] handedOff
      [interruptedBy 7, completedBy 7]).tape row = 1 := by
  have succeeds : (commit "run.arrow".toList [] (commitAll "run.arrow".toList [] handedOff
      [interruptedBy 7]) (completedBy 7)).2 = .committed ⟨2,
        (twoDatesRun.segments 7).map Prod.fst, "run-1".toList⟩ := by
    decide +kernel
  have once := (@committed_once_iff "run.arrow".toList _ _ [] check_twoDates ∅
    (fun _ _ found => by cases found) [interruptedBy 7] (completedBy 7)
    noneCommitted_interruptedBy _ succeeds).1.mpr (by decide)
  rw [List.forall_iff_forall_mem]
  intro row member
  have isRow := once row member
  rw [List.count_eq_one_of_mem (by decide +kernel) member] at isRow
  exact isRow

/-- **A retry by another process commits rows twice.**  The first attempt is interrupted after
the first date, and the process that retries names its segments by its own number. -/
theorem retried_elsewhere_twice :
    NoneCommitted "run.arrow".toList [] handedOff [interruptedBy 7] ∧
      (∃ committed, (commit "run.arrow".toList [] (commitAll "run.arrow".toList [] handedOff
        [interruptedBy 7]) (completedBy 8)).2 = .committed committed) ∧
      heldRows (commitAll "run.arrow".toList [] handedOff
        [interruptedBy 7, completedBy 8]).tape (figureAt 0) = 2 ∧
      twoDatesRun.rows.count (figureAt 0) = 1 := by
  refine ⟨noneCommitted_interruptedBy, ⟨⟨2, (twoDatesRun.segments 8).map Prod.fst,
    "run-1".toList⟩, ?_⟩, ?_, ?_⟩
  · decide +kernel
  · decide +kernel
  · decide +kernel

end Signals
end Datawatch
