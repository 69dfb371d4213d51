import Datawatch.Record.Archive
import Datawatch.Replay.Partition

/-!
# What the writer leaves is replayed

Every segment the record's writer commits holds what its name and its place promise, so a replay
of the tree yields the payloads committed, each once.
-/

namespace Datawatch
namespace Replay

open Library Library.Grouping Segments Record Calendar Wire

/-- A tree whose segments hold what they promise, named by one handle up to its count. -/
structure Sound (archive : Archive) : Prop where
  placed : WellPlaced archive.tree
  schema : ∀ entry ∈ archive.tree.entries, isFailures entry.1.partition = false →
    entry.2.file.schema = .payload (addressLevel entry.1.partition)
  named : ∀ path ∈ archive.tree, ∃ firstMicros lastMicros flush, flush ≤ archive.flushSeq ∧
    Cursor.parse path.name = some (.time firstMicros lastMicros archive.pid flush)

/-- A segment that holds what its partition and its receipts promise. -/
structure WellMade (partition : Text) (times : List Int) (file : ArchiveFile) : Prop where
  nonempty : times ≠ []
  inRange : ∀ time ∈ times, i64Min ≤ time ∧ time ≤ i64Max
  rows : ∀ row ∈ file.file.rows, row.recvMicros ∈ times
  day : ∀ time ∈ times, ∀ part ∈ components partition,
    ∀ midnight ∈ (valueUnder "date=".toList [part]).bind midnightOf,
      midnight ≤ time ∧ time < midnight + microsPerDay
  schema : isFailures partition = false → file.file.schema = .payload (addressLevel partition)

section Write

variable {archive : Archive} {partition : Text} {times : List Int} {file : ArchiveFile}

/-- The next name is under no partition yet. -/
theorem cursorFor_fresh (sound : Sound archive)
    (parses : Cursor.parse (archive.cursorFor times).fileName = some (archive.cursorFor times)) :
    (⟨partition, (archive.cursorFor times).fileName⟩ : Path) ∉ archive.tree := by
  intro present
  obtain ⟨_, _, flush, counted, isNamed⟩ := sound.named _ present
  rw [parses, Option.some.injEq, Archive.cursorFor, Cursor.time.injEq] at isNamed
  omega

/-- The tree after a write that lands. -/
theorem entries_insert (sound : Sound archive)
    (parses : Cursor.parse (archive.cursorFor times).fileName = some (archive.cursorFor times)) :
    (archive.tree.insert ⟨partition, (archive.cursorFor times).fileName⟩ file).entries =
      ⟨⟨partition, (archive.cursorFor times).fileName⟩, file⟩ :: archive.tree.entries :=
  AList.entries_insert_of_notMem (cursorFor_fresh sound parses)

/-- A write keeps a tree sound. -/
theorem Sound.write (sound : Sound archive) (made : WellMade partition times file)
    (pid : archive.pid < 2 ^ 32) (fits : archive.flushSeq + 1 < 2 ^ 64) (fate : WriteFate) :
    Sound (archive.write partition times file fate) := by
  have parses := parse_cursorFor made.nonempty made.inRange pid fits
  have counted : ∀ path ∈ archive.tree, ∃ firstMicros lastMicros flush,
      flush ≤ archive.flushSeq + 1 ∧
        Cursor.parse path.name = some (.time firstMicros lastMicros archive.pid flush) := by
    intro path present
    obtain ⟨first, last, flush, counted, isNamed⟩ := sound.named path present
    exact ⟨first, last, flush, counted.trans (Nat.le_succ _), isNamed⟩
  have landed : Sound { archive with
      flushSeq := archive.flushSeq + 1
      tree := archive.tree.insert ⟨partition, (archive.cursorFor times).fileName⟩ file } := by
    have entries := @entries_insert archive partition times file sound parses
    refine ⟨?_, ?_, ?_⟩
    · intro entry member
      rw [entries] at member
      rcases List.mem_cons.mp member with rfl | old
      · intro cursor isCursor row isRow
        have isTime := made.rows row isRow
        rw [Option.mem_def, parses] at isCursor
        obtain rfl := Option.some.inj isCursor
        refine ⟨?_, fun part isPart midnight isDay => made.day _ isTime part isPart midnight isDay⟩
        obtain ⟨first, isFirst⟩ := Option.ne_none_iff_exists'.mp
          (fun noMin => made.nonempty (List.min?_eq_none_iff.mp noMin))
        obtain ⟨last, isLast⟩ := Option.ne_none_iff_exists'.mp
          (fun noMax => made.nonempty (List.max?_eq_none_iff.mp noMax))
        simp only [Archive.cursorFor, isFirst, isLast, Option.getD_some, namedFor]
        exact ⟨(List.min?_eq_some_iff.mp isFirst).2 _ isTime,
          (List.max?_eq_some_iff.mp isLast).2 _ isTime⟩
      · exact sound.placed entry old
    · intro entry member
      rw [entries] at member
      rcases List.mem_cons.mp member with rfl | old
      · exact made.schema
      · exact sound.schema entry old
    · intro path present
      rw [AList.mem_insert] at present
      rcases present with rfl | old
      · exact ⟨_, _, archive.flushSeq + 1, le_rfl, parses⟩
      · exact counted path old
  have unlanded : Sound { archive with flushSeq := archive.flushSeq + 1 } :=
    ⟨sound.placed, sound.schema, counted⟩
  cases fate with
  | committed => exact landed
  | refused => exact unlanded
  | unsynced => exact landed

/-- The payloads a tree holds after a write: those of the segment too, where it landed. -/
theorem payloadsHeld_write (sound : Sound archive) (made : WellMade partition times file)
    (pid : archive.pid < 2 ^ 32) (fits : archive.flushSeq + 1 < 2 ^ 64) (fate : WriteFate)
    (fromMicros toMicros : Int) :
    payloadsHeld (archive.write partition times file fate).tree none fromMicros toMicros =
      (if fate = .refused ∨ isFailures partition = true then []
        else rowsIn fromMicros toMicros
          ⟨partition, (archive.cursorFor times).fileName⟩ file) ++
        payloadsHeld archive.tree none fromMicros toMicros := by
  have parses := parse_cursorFor made.nonempty made.inRange pid fits
  have landed : payloadsHeld
      (archive.tree.insert ⟨partition, (archive.cursorFor times).fileName⟩ file) none fromMicros
        toMicros = (if isFailures partition = true then []
          else rowsIn fromMicros toMicros
            ⟨partition, (archive.cursorFor times).fileName⟩ file) ++
              payloadsHeld archive.tree none fromMicros toMicros := by
    unfold payloadsHeld
    rw [@entries_insert archive partition times file sound parses, List.flatMap_cons]
    congr 1
    by_cases failures : isFailures partition = true
    · simp [holdsPayloads, failures]
    · simp [holdsPayloads, failures, parses, inScope]
  cases fate with
  | committed =>
      simp only [reduceCtorEq, false_or]
      exact landed
  | refused => simp [Archive.write, WriteFate.effects]
  | unsynced =>
      simp only [reduceCtorEq, false_or]
      exact landed

end Write

/-- A payload received in the range of a replay, in a partition of plain levels. -/
structure Replayable (fromMicros toMicros : Int) (payload : Payload) : Prop where
  plain : PlainPayload payload
  inRange : fromMicros ≤ payload.recvMicros ∧ payload.recvMicros < toMicros

/-- Every moment of a partition's day lies in it. -/
theorem day_of_dayStart {time midnight : Int} (isDay : midnight = dayStart time) :
    midnight ≤ time ∧ time < midnight + microsPerDay := by
  rw [isDay]
  exact ⟨dayStart_le time, lt_dayStart_add time⟩

theorem wellMade_payloads {partition : Text} {group : List Payload}
    (place : OnePlace partition group)
    (inRange : ∀ payload ∈ group, i64Min ≤ payload.recvMicros ∧ payload.recvMicros ≤ i64Max) :
    WellMade partition (group.map Payload.recvMicros) (payloadFile group) := by
  refine ⟨by simpa using place.nonempty, ?_, ?_, ?_, fun _ => schema_payloadFile place⟩
  · intro time isTime
    obtain ⟨payload, member, rfl⟩ := List.mem_map.mp isTime
    exact inRange payload member
  · intro row isRow
    rw [rows_payloadFile] at isRow
    obtain ⟨payload, member, rfl⟩ := List.mem_map.mp isRow
    exact List.mem_map_of_mem member
  · intro time isTime part isPart midnight isDay
    obtain ⟨payload, member, rfl⟩ := List.mem_map.mp isTime
    have plain := place.plain payload member
    rw [← place.partition payload member, Payload.partition] at isPart
    exact day_of_dayStart (day_partitionOf plain.address plain.kind _ isPart isDay)

/-- A failure whose partition has plain levels, received in range. -/
structure PlainFailure (failure : Failure) : Prop where
  address : PlainAddress (match failure.account with
    | some account => .account account
    | none => .venue failure.venue)
  kind : Plain failure.kind
  inRange : i64Min ≤ failure.recvMicros ∧ failure.recvMicros ≤ i64Max

theorem partition_failure (failure : Failure) :
    failure.partition = partitionOf (match failure.account with
      | some account => .account account
      | none => .venue failure.venue) failure.kind failure.recvMicros := by
  unfold Failure.partition venuePartitionOf
  cases failure.account <;> rfl

theorem wellMade_failures {partition : Text} {group : List Failure} (nonempty : group ≠ [])
    (same : ∀ failure ∈ group, failure.partition = partition)
    (plain : ∀ failure ∈ group, PlainFailure failure) :
    WellMade (partition ++ "/failures".toList) (group.map Failure.recvMicros)
      (failureFile group) := by
  refine ⟨by simpa using nonempty, ?_, ?_, ?_, ?_⟩
  · intro time isTime
    obtain ⟨failure, member, rfl⟩ := List.mem_map.mp isTime
    exact (plain failure member).inRange
  · intro row isRow
    rw [rows_failureFile] at isRow
    obtain ⟨failure, member, rfl⟩ := List.mem_map.mp isRow
    exact List.mem_map_of_mem member
  · intro time isTime part isPart midnight isDay
    obtain ⟨failure, member, rfl⟩ := List.mem_map.mp isTime
    have split : partition ++ "/failures".toList = partition ++ '/' :: "failures".toList := rfl
    rw [split, components_append] at isPart
    rcases List.mem_append.mp isPart with inPartition | isLast
    · rw [← same failure member, partition_failure] at inPartition
      exact day_of_dayStart (day_partitionOf (plain failure member).address
        (plain failure member).kind _ inPartition isDay)
    · have lastPart : components "failures".toList = ["failures".toList] := by decide
      rw [lastPart, List.mem_singleton] at isLast
      rw [isLast] at isDay
      have noDay : valueUnder "date=".toList ["failures".toList] = none := by decide
      rw [noDay] at isDay
      cases isDay
  · intro notFailures
    rw [isFailures_append] at notFailures
    cases notFailures

/-- What a sequence of writes changes of a handle: its tree and its count, which only grows. -/
structure OnlyWrites (before after : Archive) : Prop where
  frame : after = { before with tree := after.tree, flushSeq := after.flushSeq }
  count : before.flushSeq ≤ after.flushSeq

theorem OnlyWrites.refl (archive : Archive) : OnlyWrites archive archive := ⟨rfl, le_rfl⟩

theorem OnlyWrites.trans {first second third : Archive} (front : OnlyWrites first second)
    (back : OnlyWrites second third) : OnlyWrites first third := by
  refine ⟨?_, front.count.trans back.count⟩
  rw [back.frame, front.frame]

theorem onlyWrites_write (archive : Archive) (partition : Text) (times : List Int)
    (file : ArchiveFile) (fate : WriteFate) :
    OnlyWrites archive (archive.write partition times file fate) :=
  ⟨rfl, Nat.le_succ _⟩

theorem OnlyWrites.pid {before after : Archive} (writes : OnlyWrites before after) :
    after.pid = before.pid := by
  rw [writes.frame]

theorem onlyWrites_commitOrReturn (groups : List (Text × List Payload))
    (fates : List WriteFate) (archive : Archive) :
    OnlyWrites archive (Archive.commitOrReturn groups fates archive).1 := by
  induction groups generalizing fates archive with
  | nil => exact OnlyWrites.refl archive
  | cons group groups inductionHypothesis =>
      cases fates with
      | nil => exact OnlyWrites.refl archive
      | cons fate fates =>
          have wrote := onlyWrites_write archive group.1 (group.2.map Payload.recvMicros)
            (payloadFile group.2) fate
          rw [Archive.commitOrReturn]
          split
          · exact wrote.trans (inductionHypothesis fates _)
          · exact wrote

theorem onlyWrites_commitFailures (groups : List (Text × List Failure))
    (fates : List WriteFate) (archive : Archive) :
    OnlyWrites archive (Archive.commitFailures groups fates archive).1 := by
  induction groups generalizing fates archive with
  | nil => exact OnlyWrites.refl archive
  | cons group groups inductionHypothesis =>
      cases fates with
      | nil => exact OnlyWrites.refl archive
      | cons fate fates =>
          have wrote := onlyWrites_write archive (group.1 ++ "/failures".toList)
            (group.2.map Failure.recvMicros) (failureFile group.2) fate
          rw [Archive.commitFailures]
          split
          · exact wrote.trans (inductionHypothesis fates _)
          · exact wrote

/-- What a sequence of writes did not write. -/
def unwrittenOf : Archive.Ended (List Payload) → List Payload
  | .done | .died => []
  | .failed unwritten => unwritten

section Flush

variable {fromMicros toMicros : Int} (within : i64Min ≤ fromMicros ∧ toMicros ≤ i64Max)

/-- Groups as they are committed: of one place, received in a replay's range. -/
def Placed (fromMicros toMicros : Int) (groups : List (Text × List Payload)) : Prop :=
  ∀ group ∈ groups, OnePlace group.1 group.2 ∧
    ∀ payload ∈ group.2, fromMicros ≤ payload.recvMicros ∧ payload.recvMicros < toMicros

include within in
/-- One partition's payloads, committed. -/
theorem commitGroup_spec {archive : Archive} (sound : Sound archive) {partition : Text}
    {group : List Payload} (place : OnePlace partition group)
    (inRange : ∀ payload ∈ group, fromMicros ≤ payload.recvMicros ∧
      payload.recvMicros < toMicros)
    (pid : archive.pid < 2 ^ 32) (fits : archive.flushSeq + 1 < 2 ^ 64) (fate : WriteFate) :
    Sound (archive.commitGroup partition group fate) ∧
      payloadsHeld (archive.commitGroup partition group fate).tree none fromMicros toMicros =
        (if fate = .refused then [] else group) ++
          payloadsHeld archive.tree none fromMicros toMicros := by
  have made := wellMade_payloads place fun payload member =>
    ⟨within.1.trans (inRange payload member).1,
      (inRange payload member).2.le.trans within.2⟩
  refine ⟨sound.write made pid fits fate, ?_⟩
  obtain ⟨payload, member⟩ := List.exists_mem_of_ne_nil _ place.nonempty
  have plain := place.plain payload member
  have notFailures := isFailures_partitionOf plain.address plain.kind payload.recvMicros
  rw [← Payload.partition, place.partition payload member] at notFailures
  have held := payloadsHeld_write sound made pid fits fate fromMicros toMicros
  rw [rowsIn_payloadFile place inRange] at held
  simp only [notFailures, Bool.false_eq_true, or_false] at held
  exact held

include within in
/-- Every payload of the groups is in the tree or handed back, once. -/
theorem commitOrReturn_spec {groups : List (Text × List Payload)}
    (placed : Placed fromMicros toMicros groups) {fates : List WriteFate}
    {archive : Archive} (sound : Sound archive) (pid : archive.pid < 2 ^ 32)
    (fits : (Archive.commitOrReturn groups fates archive).1.flushSeq < 2 ^ 64) :
    Sound (Archive.commitOrReturn groups fates archive).1 ∧
      ((∀ fate ∈ fates, fate ≠ .unsynced) →
        (Archive.commitOrReturn groups fates archive).2 ≠ .died →
          (payloadsHeld (Archive.commitOrReturn groups fates archive).1.tree none fromMicros
            toMicros ++ unwrittenOf (Archive.commitOrReturn groups fates archive).2).Perm
            (payloadsHeld archive.tree none fromMicros toMicros ++ groups.flatMap Prod.snd)) := by
  induction groups generalizing fates archive with
  | nil => exact ⟨sound, fun _ _ => by simp [Archive.commitOrReturn, unwrittenOf]⟩
  | cons group groups inductionHypothesis =>
      cases fates with
      | nil => exact ⟨sound, fun _ lives => absurd rfl lives⟩
      | cons fate fates =>
          obtain ⟨place, inRange⟩ := placed group List.mem_cons_self
          have wrote := onlyWrites_write archive group.1 (group.2.map Payload.recvMicros)
            (payloadFile group.2) fate
          rw [Archive.commitOrReturn] at fits ⊢
          have counted : archive.flushSeq + 1 < 2 ^ 64 := by
            split at fits
            · exact (onlyWrites_commitOrReturn groups fates _).count.trans_lt fits
            · exact fits
          obtain ⟨soundNext, held⟩ := commitGroup_spec within sound place inRange pid counted fate
          cases fate with
          | committed =>
              have succeeds : WriteFate.committed.succeeds = true := by decide
              rw [if_pos succeeds] at fits ⊢
              have rest := inductionHypothesis
                (fun other member => placed other (List.mem_cons_of_mem _ member)) soundNext pid
                fits
              refine ⟨rest.1, fun synced lives => ?_⟩
              apply (rest.2 (fun other member => synced other (List.mem_cons_of_mem _ member))
                lives).trans
              rw [held, if_neg (by decide), List.flatMap_cons, ← List.append_assoc]
              exact List.perm_append_comm.append_right _
          | refused =>
              rw [if_neg (by decide)]
              refine ⟨soundNext, fun _ _ => ?_⟩
              simp only [unwrittenOf, held, if_true, List.nil_append, List.flatMap_cons]
              exact (List.perm_insertionSort _ _).append_left _
          | unsynced =>
              rw [if_neg (by decide)]
              exact ⟨soundNext, fun synced _ => absurd rfl (synced _ List.mem_cons_self)⟩

/-- Failures are written beside payloads, and add none. -/
theorem commitFailures_spec {groups : List (Text × List Failure)}
    (placed : ∀ group ∈ groups, group.2 ≠ [] ∧ (∀ failure ∈ group.2, failure.partition = group.1) ∧
      ∀ failure ∈ group.2, PlainFailure failure)
    {fates : List WriteFate} {archive : Archive} (sound : Sound archive)
    (pid : archive.pid < 2 ^ 32)
    (fits : (Archive.commitFailures groups fates archive).1.flushSeq < 2 ^ 64) :
    Sound (Archive.commitFailures groups fates archive).1 ∧
      payloadsHeld (Archive.commitFailures groups fates archive).1.tree none fromMicros toMicros =
        payloadsHeld archive.tree none fromMicros toMicros := by
  induction groups generalizing fates archive with
  | nil => exact ⟨sound, rfl⟩
  | cons group groups inductionHypothesis =>
      cases fates with
      | nil => exact ⟨sound, rfl⟩
      | cons fate fates =>
          obtain ⟨nonempty, same, plain⟩ := placed group List.mem_cons_self
          have made := wellMade_failures nonempty same plain
          have wrote := onlyWrites_write archive (group.1 ++ "/failures".toList)
            (group.2.map Failure.recvMicros) (failureFile group.2) fate
          rw [Archive.commitFailures] at fits ⊢
          have counted : archive.flushSeq + 1 < 2 ^ 64 := by
            split at fits
            · exact (onlyWrites_commitFailures groups fates _).count.trans_lt fits
            · exact fits
          have soundNext := sound.write made pid counted fate
          have held := payloadsHeld_write sound made pid counted fate fromMicros toMicros
          simp only [isFailures_append, or_true, if_true, List.nil_append] at held
          by_cases succeeds : fate.succeeds = true
          · rw [if_pos succeeds] at fits ⊢
            have rest := inductionHypothesis
              (fun other member => placed other (List.mem_cons_of_mem _ member)) soundNext pid fits
            exact ⟨rest.1, rest.2.trans held⟩
          · rw [if_neg succeeds]
            exact ⟨soundNext, held⟩

variable {labelsOf : Text → List (Text × Text)}

/-- A handle whose tree is sound and which holds only what it can write: what it buffers of one
partition is labelled as that partition is. -/
structure Ready (labelsOf : Text → List (Text × Text)) (fromMicros toMicros : Int)
    (archive : Archive) : Prop where
  sound : Sound archive
  buffered : ∀ payload ∈ archive.buffered, Replayable fromMicros toMicros payload
  oneAddress : ∀ payload ∈ archive.buffered, payload.address.labels = labelsOf payload.partition
  failures : ∀ failure ∈ archive.failures, PlainFailure failure
  pid : archive.pid < 2 ^ 32

end Flush

end Replay
end Datawatch
