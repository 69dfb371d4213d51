import Datawatch.Library.Transition
import Datawatch.Record.Archive

/-!
# What a record's flushes write

Every row the record takes is held or in a segment, and the rows in two segments are those a
failed flush put back although it had written them.
-/

namespace Datawatch
namespace Record

open Library Library.Directory Library.Grouping Segments Wire

/-- What one write holds: its partition, the receipts it is named by, and its file. -/
structure Segment where
  partition : Text
  times : List Int
  file : ArchiveFile

/-- The segment of one partition's payloads. -/
def payloadSegment (group : Text × List Payload) : Segment :=
  ⟨group.1, group.2.map Payload.recvMicros, payloadFile group.2⟩

/-- The segment of one partition's failures, beside the bytes. -/
def failureSegment (group : Text × List Failure) : Segment :=
  ⟨group.1 ++ "/failures".toList, group.2.map Failure.recvMicros, failureFile group.2⟩

/-- The segments that land, of writes that end at the first that fails. -/
def landed : List Segment → List WriteFate → Archive → List (Segments.Path × ArchiveFile)
  | [], _, _ | _ :: _, [], _ => []
  | segment :: segments, fate :: fates, archive =>
      (if fate = .refused then []
        else
          [(⟨segment.partition, (archive.cursorFor segment.times).fileName⟩, segment.file)]) ++
        if fate.succeeds then
          landed segments fates
            (archive.write segment.partition segment.times segment.file fate)
        else []

/-- The first write that fails, by its place, of as many as are made. -/
def firstFailing : Nat → List WriteFate → Option (Nat × WriteFate)
  | 0, _ | _ + 1, [] => none
  | count + 1, fate :: fates =>
      if fate.succeeds then
        (firstFailing count fates).map fun failing => (failing.1 + 1, failing.2)
      else some (0, fate)

/-- What is done with a handle.  A flush makes as many writes as it has partitions, each of
some fate. -/
inductive Operation
  | append (payload : Payload) (fate : WriteFate)
  | appendFailure (failure : Failure)
  | flush (payloads failures : Nat → WriteFate) (marks removes : Bool)

/-- The fates of a flush the process outlives. -/
def flushFates (archive : Archive) (payloads failures : Nat → WriteFate) (marks removes : Bool) :
    Archive.FlushFates where
  payloads := (List.range (groupBy Payload.partition archive.buffered).length).map payloads
  failures := (List.range (groupBy Failure.partition archive.failures).length).map failures
  marks := marks
  removes := removes

namespace Operation

/-- The handle an operation leaves. -/
def apply (archive : Archive) : Operation → Archive
  | .append payload fate => (archive.append payload fate).1
  | .appendFailure failure => archive.appendFailure failure
  | .flush payloads failures marks removes =>
      (archive.flush (flushFates archive payloads failures marks removes)).1

/-- The rows an operation hands to the record.  A payload committed at once is refused where
its write is. -/
def appended : Operation → List ArchiveRow
  | .append payload fate =>
      match payload.origin with
      | .fetched | .generated => if fate = .refused then [] else [payload.row]
      | .streamed => [payload.row]
  | .appendFailure failure => [failure.row]
  | .flush .. => []

/-- The segments an operation writes. -/
def segments (archive : Archive) : Operation → List (Segments.Path × ArchiveFile)
  | .append payload fate =>
      match payload.origin with
      | .fetched | .generated =>
          landed [payloadSegment (payload.partition, [payload])] [fate] archive
      | .streamed => []
  | .appendFailure _ => []
  | .flush payloads failures marks removes =>
      let fates := flushFates archive payloads failures marks removes
      let groups := groupBy Payload.partition archive.buffered
      let emptied := { archive with buffered := [], failures := [] }
      landed (groups.map payloadSegment) fates.payloads emptied ++
        match Archive.commitOrReturn groups fates.payloads emptied with
        | (written, .done) =>
            landed ((groupBy Failure.partition archive.failures).map failureSegment)
              fates.failures written
        | _ => []

/-- A flush writes nothing it puts back: the write that fails, if any, is refused before its
rename, and where it is a failure's it is the first of them. -/
def WritesOnce (archive : Archive) : Operation → Prop
  | .append .. | .appendFailure _ => True
  | .flush payloads failures marks removes =>
      let fates := flushFates archive payloads failures marks removes
      match firstFailing (groupBy Payload.partition archive.buffered).length fates.payloads with
      | some (_, fate) => fate = .refused
      | none =>
          ∀ failed ∈ firstFailing (groupBy Failure.partition archive.failures).length
            fates.failures, failed = (0, .refused)

end Operation

/-- The handle a sequence of operations leaves. -/
def run (operations : List Operation) (archive : Archive) : Archive :=
  operations.foldl Operation.apply archive

/-- The segments a sequence of operations writes. -/
def written : List Operation → Archive → List (Segments.Path × ArchiveFile)
  | [], _ => []
  | operation :: operations, archive =>
      operation.segments archive ++ written operations (operation.apply archive)

/-- The rows a sequence of operations hands to the record. -/
def appended (operations : List Operation) : List ArchiveRow :=
  operations.flatMap Operation.appended

/-- The rows a handle holds. -/
def held (archive : Archive) : List ArchiveRow :=
  archive.buffered.map Payload.row ++ archive.failures.map Failure.row

/-- The rows of segments. -/
def rowsOf (entries : List (Segments.Path × ArchiveFile)) : List ArchiveRow :=
  entries.flatMap fun entry => entry.2.file.rows

/-- The flush that writes everything held. -/
def lastFlush (marks removes : Bool) : Operation :=
  .flush (fun _ => .committed) (fun _ => .committed) marks removes

/-- Segments one handle has written since, under names of its own numbering. -/
structure Wrote (before after : Archive) (entries : List (Segments.Path × ArchiveFile)) :
    Prop where
  tree : after.tree = applyAll (commits entries) before.tree
  pid : after.pid = before.pid
  counts : before.flushSeq ≤ after.flushSeq
  numbered : ∀ entry ∈ entries, ∃ first last seq,
    entry.1.name = (Cursor.time first last before.pid seq).fileName ∧
      before.flushSeq < seq ∧ seq ≤ after.flushSeq
  distinct : (entries.map Prod.fst).Nodup

/-- Names of different numbers differ, whatever else they carry. -/
theorem seq_eq_of_fileName_eq {first last other otherLast : Int} {pid seq otherSeq : Nat}
    (same : (Cursor.time first last pid seq).fileName =
      (Cursor.time other otherLast pid otherSeq).fileName) : seq = otherSeq := by
  have joined : ['_'].intercalate (Cursor.time first last pid seq).fields =
      ['_'].intercalate (Cursor.time other otherLast pid otherSeq).fields :=
    List.append_cancel_right (congrArg (List.drop 2) same)
  have fields := congrArg (List.splitOn '_') joined
  rw [Cursor.splitOn_intercalate_fields, Cursor.splitOn_intercalate_fields] at fields
  simp only [Cursor.fields, List.cons.injEq, and_true] at fields
  have digits := congrArg Text.parseDigits fields.2.2.2
  rw [Text.parseDigits_renderNat, Text.parseDigits_renderNat] at digits
  exact Option.some.inj digits

theorem Wrote.refl (archive : Archive) : Wrote archive archive [] :=
  ⟨rfl, rfl, le_rfl, by simp, List.nodup_nil⟩

/-- Whatever does not touch the tree or the numbering writes nothing. -/
theorem Wrote.of_unchanged {before after : Archive} (tree : after.tree = before.tree)
    (pid : after.pid = before.pid) (counts : after.flushSeq = before.flushSeq) :
    Wrote before after [] :=
  ⟨tree, pid, counts.ge, by simp, List.nodup_nil⟩

theorem Wrote.trans {before middle after : Archive}
    {entries others : List (Segments.Path × ArchiveFile)} (first : Wrote before middle entries)
    (second : Wrote middle after others) : Wrote before after (entries ++ others) := by
  refine ⟨?_, second.pid.trans first.pid, first.counts.trans second.counts, ?_, ?_⟩
  · rw [commits_append, applyAll_append, ← first.tree, second.tree]
  · intro entry member
    rcases List.mem_append.mp member with inFirst | inSecond
    · obtain ⟨micros, last, seq, isName, above, below⟩ := first.numbered entry inFirst
      exact ⟨micros, last, seq, isName, above, below.trans second.counts⟩
    · obtain ⟨micros, last, seq, isName, above, below⟩ := second.numbered entry inSecond
      rw [first.pid] at isName
      exact ⟨micros, last, seq, isName, first.counts.trans_lt above, below⟩
  · rw [List.map_append, List.nodup_append']
    refine ⟨first.distinct, second.distinct, ?_⟩
    intro path inFirst inSecond
    obtain ⟨entry, isEntry, rfl⟩ := List.mem_map.mp inFirst
    obtain ⟨other, isOther, samePath⟩ := List.mem_map.mp inSecond
    obtain ⟨_, _, seq, isName, _, below⟩ := first.numbered entry isEntry
    obtain ⟨_, _, otherSeq, otherName, above, _⟩ := second.numbered other isOther
    rw [samePath, isName, first.pid] at otherName
    have sameSeq := seq_eq_of_fileName_eq otherName
    omega

/-- What a write of one segment leaves. -/
theorem wrote_write (archive : Archive) (segment : Segment) (fate : WriteFate) :
    Wrote archive (archive.write segment.partition segment.times segment.file fate)
      (if fate = .refused then []
        else
          [(⟨segment.partition, (archive.cursorFor segment.times).fileName⟩, segment.file)]) := by
  have next : archive.flushSeq ≤ archive.flushSeq + 1 := by omega
  cases fate with
  | refused => exact ⟨rfl, rfl, next, by simp, List.nodup_nil⟩
  | committed | unsynced =>
      refine ⟨rfl, rfl, next, ?_, by simp⟩
      intro entry member
      obtain rfl := List.mem_singleton.mp member
      exact ⟨_, _, archive.flushSeq + 1, rfl, by omega, le_rfl⟩

theorem landed_singleton (segment : Segment) (fate : WriteFate) (archive : Archive) :
    landed [segment] [fate] archive =
      if fate = .refused then []
      else
        [(⟨segment.partition, (archive.cursorFor segment.times).fileName⟩, segment.file)] := by
  simp [landed]

open Archive (commitOrReturn commitFailures)

/-- Payload groups are written as their segments are. -/
theorem wrote_commitOrReturn (groups : List (Text × List Payload)) (fates : List WriteFate)
    (archive : Archive) :
    Wrote archive (commitOrReturn groups fates archive).1
      (landed (groups.map payloadSegment) fates archive) := by
  induction groups generalizing fates archive with
  | nil => exact Wrote.refl archive
  | cons group groups inductionHypothesis =>
      cases fates with
      | nil => exact Wrote.refl archive
      | cons fate fates =>
          have one := wrote_write archive (payloadSegment group) fate
          unfold commitOrReturn
          rw [List.map_cons, landed]
          simp only
          split
          · exact one.trans (inductionHypothesis fates _)
          · rw [List.append_nil]
            exact one

/-- Failure groups are written as their segments are. -/
theorem wrote_commitFailures (groups : List (Text × List Failure)) (fates : List WriteFate)
    (archive : Archive) :
    Wrote archive (commitFailures groups fates archive).1
      (landed (groups.map failureSegment) fates archive) := by
  induction groups generalizing fates archive with
  | nil => exact Wrote.refl archive
  | cons group groups inductionHypothesis =>
      cases fates with
      | nil => exact Wrote.refl archive
      | cons fate fates =>
          have one := wrote_write archive (failureSegment group) fate
          unfold commitFailures
          rw [List.map_cons, landed]
          simp only
          split
          · exact one.trans (inductionHypothesis fates _)
          · rw [List.append_nil]
            exact one

/-- A write that fails is one of those made. -/
theorem fails_of_firstFailing {count : Nat} {fates : List WriteFate} {index : Nat}
    {fate : WriteFate} (failing : firstFailing count fates = some (index, fate)) :
    fate ∈ fates ∧ fate ≠ .committed := by
  induction count generalizing fates index with
  | zero => simp [firstFailing] at failing
  | succ count inductionHypothesis =>
      cases fates with
      | nil => cases failing
      | cons first fates =>
          rw [firstFailing] at failing
          split at failing
          · obtain ⟨⟨place, other⟩, isFailing, same⟩ := Option.map_eq_some_iff.mp failing
            obtain ⟨-, rfl⟩ := Prod.mk.inj same
            obtain ⟨member, fails⟩ := inductionHypothesis isFailing
            exact ⟨List.mem_cons_of_mem _ member, fails⟩
          · rename_i notSucceeds
            obtain ⟨-, rfl⟩ := Prod.mk.inj (Option.some.inj failing)
            refine ⟨List.mem_cons_self, ?_⟩
            rintro rfl
            exact notSucceeds rfl

theorem rowsOf_append (first second : List (Segments.Path × ArchiveFile)) :
    rowsOf (first ++ second) = rowsOf first ++ rowsOf second := by
  simp [rowsOf]

/-- A partition's payloads are its segment's rows. -/
theorem rows_payloadFile (payloads : List Payload) :
    (payloadFile payloads).file.rows = payloads.map Payload.row :=
  flatten_toChunks (by decide) _

theorem rows_failureFile (failures : List Failure) :
    (failureFile failures).file.rows = failures.map Failure.row :=
  flatten_toChunks (by decide) _

/-- The rows of groups of payloads. -/
def payloadRows (groups : List (Text × List Payload)) : List ArchiveRow :=
  (groups.flatMap Prod.snd).map Payload.row

/-- The rows of groups of failures. -/
def failureRows (groups : List (Text × List Failure)) : List ArchiveRow :=
  (groups.flatMap Prod.snd).map Failure.row

/-- Where writes of payload groups leave the rows: in segments, or in what is handed back, and
in both where a write failed after its rename. -/
inductive PayloadsEnd (groups : List (Text × List Payload)) (fates : List WriteFate)
    (rows : List ArchiveRow) : Archive.Ended (List Payload) → Prop
  | done (none : firstFailing groups.length fates = none) (all : rows = payloadRows groups) :
      PayloadsEnd groups fates rows .done
  | failed (index : Nat) (fate : WriteFate) (unwritten : List Payload) (twice : List ArchiveRow)
      (failing : firstFailing groups.length fates = some (index, fate))
      (balanced : (rows ++ unwritten.map Payload.row).Perm (payloadRows groups ++ twice))
      (once : twice = [] ↔ fate = .refused) : PayloadsEnd groups fates rows (.failed unwritten)

/-- A group that is written comes before the rest. -/
theorem PayloadsEnd.cons {groups : List (Text × List Payload)} {fates : List WriteFate}
    {rows : List ArchiveRow} {ended : Archive.Ended (List Payload)}
    (rest : PayloadsEnd groups fates rows ended) (group : Text × List Payload) :
    PayloadsEnd (group :: groups) (.committed :: fates) (group.2.map Payload.row ++ rows) ended := by
  have all : payloadRows (group :: groups) = group.2.map Payload.row ++ payloadRows groups := by
    simp [payloadRows]
  cases rest with
  | done none isAll =>
      refine .done ?_ (by rw [all, isAll])
      simp [firstFailing, none, WriteFate.succeeds]
  | failed index fate unwritten twice failing balanced once =>
      refine .failed (index + 1) fate unwritten twice ?_ ?_ once
      · simp [firstFailing, failing, WriteFate.succeeds]
      · rw [all, List.append_assoc, List.append_assoc]
        exact balanced.append_left _

/-- Writes of payload groups keep what the handle holds, and leave every row somewhere. -/
theorem commitOrReturn_spec {groups : List (Text × List Payload)} {fates : List WriteFate}
    (nonempty : ∀ group ∈ groups, group.2 ≠ []) (enough : groups.length ≤ fates.length)
    (archive : Archive) :
    (commitOrReturn groups fates archive).1.failures = archive.failures ∧
      (commitOrReturn groups fates archive).1.buffered = archive.buffered ∧
      PayloadsEnd groups fates (rowsOf (landed (groups.map payloadSegment) fates archive))
        (commitOrReturn groups fates archive).2 := by
  induction groups generalizing fates archive with
  | nil => exact ⟨rfl, rfl, .done rfl rfl⟩
  | cons group groups inductionHypothesis =>
      -- What a failing write hands back is every group from its own on.
      have handedBack : (((group.2 ++ groups.flatMap Prod.snd).insertionSort fun first second =>
          first.seq ≤ second.seq).map Payload.row).Perm (payloadRows (group :: groups)) :=
        (List.perm_insertionSort _ _).map _
      cases fates with
      | nil => simp at enough
      | cons fate fates =>
          cases fate with
          | committed =>
              obtain ⟨failures, buffered, rest⟩ := @inductionHypothesis fates
                (fun other member => nonempty other (List.mem_cons_of_mem _ member))
                (Nat.le_of_succ_le_succ enough)
                (archive.commitGroup group.1 group.2 .committed)
              have rows : rowsOf (landed ((group :: groups).map payloadSegment)
                  (.committed :: fates) archive) = group.2.map Payload.row ++
                    rowsOf (landed (groups.map payloadSegment) fates
                      (archive.commitGroup group.1 group.2 .committed)) := by
                rw [← rows_payloadFile]
                rfl
              rw [rows]
              exact ⟨failures, buffered, rest.cons group⟩
          | refused =>
              refine ⟨rfl, rfl, .failed 0 .refused _ [] rfl ?_ (by simp)⟩
              rw [List.append_nil]
              exact handedBack
          | unsynced =>
              refine ⟨rfl, rfl, .failed 0 .unsynced _ (group.2.map Payload.row) rfl ?_ ?_⟩
              · have rows : rowsOf (landed ((group :: groups).map payloadSegment)
                    (.unsynced :: fates) archive) = group.2.map Payload.row := by
                  rw [← rows_payloadFile]
                  exact List.append_nil _
                rw [rows]
                exact (handedBack.append_left _).trans List.perm_append_comm
              · simp [nonempty group List.mem_cons_self]

/-- Where writes of failure groups leave the rows: in segments, and where one failed, in the
buffer too, for all of them are put back. -/
inductive FailuresEnd (groups : List (Text × List Failure)) (fates : List WriteFate)
    (rows : List ArchiveRow) : Archive.Ended Unit → Prop
  | done (none : firstFailing groups.length fates = none) (all : rows = failureRows groups) :
      FailuresEnd groups fates rows .done
  | failed (failing : Nat × WriteFate) (isFailing : firstFailing groups.length fates = some failing)
      (once : rows = [] ↔ failing = (0, .refused)) : FailuresEnd groups fates rows (.failed ())

/-- A group that is written comes before the rest. -/
theorem FailuresEnd.cons {groups : List (Text × List Failure)} {fates : List WriteFate}
    {rows : List ArchiveRow} {ended : Archive.Ended Unit}
    (rest : FailuresEnd groups fates rows ended) {group : Text × List Failure}
    (nonempty : group.2 ≠ []) :
    FailuresEnd (group :: groups) (.committed :: fates) (group.2.map Failure.row ++ rows) ended := by
  cases rest with
  | done none isAll =>
      refine .done ?_ ?_
      · simp [firstFailing, none, WriteFate.succeeds]
      · simp [failureRows, isAll]
  | failed failing isFailing once =>
      refine .failed (failing.1 + 1, failing.2) ?_ ?_
      · simp [firstFailing, isFailing, WriteFate.succeeds]
      · simp [nonempty]

/-- Writes of failure groups keep what the handle holds. -/
theorem commitFailures_spec {groups : List (Text × List Failure)} {fates : List WriteFate}
    (nonempty : ∀ group ∈ groups, group.2 ≠ []) (enough : groups.length ≤ fates.length)
    (archive : Archive) :
    (commitFailures groups fates archive).1.failures = archive.failures ∧
      (commitFailures groups fates archive).1.buffered = archive.buffered ∧
      FailuresEnd groups fates (rowsOf (landed (groups.map failureSegment) fates archive))
        (commitFailures groups fates archive).2 := by
  induction groups generalizing fates archive with
  | nil => exact ⟨rfl, rfl, .done rfl rfl⟩
  | cons group groups inductionHypothesis =>
      have isNonempty := nonempty group List.mem_cons_self
      cases fates with
      | nil => simp at enough
      | cons fate fates =>
          cases fate with
          | committed =>
              obtain ⟨failures, buffered, rest⟩ := @inductionHypothesis fates
                (fun other member => nonempty other (List.mem_cons_of_mem _ member))
                (Nat.le_of_succ_le_succ enough)
                (archive.write (failureSegment group).partition (failureSegment group).times
                  (failureSegment group).file .committed)
              have rows : rowsOf (landed ((group :: groups).map failureSegment)
                  (.committed :: fates) archive) = group.2.map Failure.row ++
                    rowsOf (landed (groups.map failureSegment) fates
                      (archive.write (failureSegment group).partition
                        (failureSegment group).times (failureSegment group).file
                          .committed)) := by
                rw [← rows_failureFile]
                rfl
              rw [rows]
              exact ⟨failures, buffered, rest.cons isNonempty⟩
          | refused => exact ⟨rfl, rfl, .failed (0, .refused) rfl (by simp [rowsOf, landed,
              WriteFate.succeeds])⟩
          | unsynced =>
              refine ⟨rfl, rfl, .failed (0, .unsynced) rfl ?_⟩
              have rows : rowsOf (landed ((group :: groups).map failureSegment)
                  (.unsynced :: fates) archive) = group.2.map Failure.row := by
                rw [← rows_failureFile]
                exact List.append_nil _
              rw [rows]
              simp [isNonempty]

/-! ## One operation -/

/-- What an operation leaves: segments under new names, every row held or in one, and a row in
two places exactly where the operation does not write once. -/
structure Accounted (archive : Archive) (operation : Operation) : Prop where
  wrote : Wrote archive (operation.apply archive) (operation.segments archive)
  rows : ∃ twice, (rowsOf (operation.segments archive) ++ held (operation.apply archive)).Perm
      (held archive ++ operation.appended ++ twice) ∧
    (twice = [] ↔ operation.WritesOnce archive)

/-- Dating a restart gap touches neither the tree nor what is held. -/
theorem markUnflushed_spec (archive : Archive) (marks : Bool) :
    Wrote archive (archive.markUnflushed marks) [] ∧
      held (archive.markUnflushed marks) = held archive := by
  unfold Archive.markUnflushed
  split
  · exact ⟨Wrote.refl archive, rfl⟩
  · split
    · exact ⟨.of_unchanged rfl rfl rfl, rfl⟩
    · exact ⟨Wrote.refl archive, rfl⟩

theorem payloadRows_groupBy (payloads : List Payload) :
    (payloadRows (groupBy Payload.partition payloads)).Perm (payloads.map Payload.row) :=
  (perm_flatMap_groupBy _ _).map _

theorem failureRows_groupBy (failures : List Failure) :
    (failureRows (groupBy Failure.partition failures)).Perm (failures.map Failure.row) :=
  (perm_flatMap_groupBy _ _).map _

section Flush

variable {archive middle last : Archive} {payloads failures : Nat → WriteFate}
  {marks removes : Bool}

/-- The handle a flush writes from. -/
def emptied (archive : Archive) : Archive := { archive with buffered := [], failures := [] }

theorem wrote_emptied (archive : Archive) : Wrote archive (emptied archive) [] :=
  .of_unchanged rfl rfl rfl

theorem held_perm (archive : Archive) :
    (held archive).Perm (payloadRows (groupBy Payload.partition archive.buffered) ++
      failureRows (groupBy Failure.partition archive.failures)) :=
  ((payloadRows_groupBy _).append (failureRows_groupBy _)).symm

/-- A flush that stops at a payload puts back that group and the rest. -/
theorem accounted_stopped {unwritten : List Payload} {index : Nat} {fate : WriteFate}
    {twice : List ArchiveRow}
    (result : commitOrReturn (groupBy Payload.partition archive.buffered)
      (flushFates archive payloads failures marks removes).payloads (emptied archive) =
        (middle, .failed unwritten))
    (failing : firstFailing (groupBy Payload.partition archive.buffered).length
      (flushFates archive payloads failures marks removes).payloads = some (index, fate))
    (balanced : (rowsOf (landed ((groupBy Payload.partition archive.buffered).map payloadSegment)
      (flushFates archive payloads failures marks removes).payloads (emptied archive)) ++
        unwritten.map Payload.row).Perm
          (payloadRows (groupBy Payload.partition archive.buffered) ++ twice))
    (once : twice = [] ↔ fate = .refused) :
    Accounted archive (.flush payloads failures marks removes) := by
  have first := wrote_commitOrReturn (groupBy Payload.partition archive.buffered)
    (flushFates archive payloads failures marks removes).payloads (emptied archive)
  have applied : (Operation.flush payloads failures marks removes).apply archive =
      Archive.markUnflushed { middle with
        buffered := unwritten, failures := archive.failures } marks := by
    unfold emptied at result
    simp only [Operation.apply, Archive.flush, result]
    rfl
  have segments : (Operation.flush payloads failures marks removes).segments archive =
      landed ((groupBy Payload.partition archive.buffered).map payloadSegment)
        (flushFates archive payloads failures marks removes).payloads (emptied archive) := by
    unfold emptied at result
    simp only [Operation.segments, result, List.append_nil]
    rfl
  rw [result] at first
  have put : Wrote middle { middle with buffered := unwritten, failures := archive.failures } [] :=
    .of_unchanged rfl rfl rfl
  obtain ⟨marked, heldThere⟩ := markUnflushed_spec
    { middle with buffered := unwritten, failures := archive.failures } marks
  refine ⟨?_, twice, ?_, ?_⟩
  · rw [applied, segments]
    simpa using (wrote_emptied archive).trans (first.trans (put.trans marked))
  · rw [applied, segments, heldThere]
    apply List.perm_iff_count.mpr
    intro row
    have total := (held_perm archive).count_eq row
    have moved := balanced.count_eq row
    have kept := (failureRows_groupBy archive.failures).count_eq row
    simp only [held, Operation.appended, List.count_append, List.append_nil] at *
    omega
  · simp only [Operation.WritesOnce, failing]
    exact once

variable
  (result : commitOrReturn (groupBy Payload.partition archive.buffered)
    (flushFates archive payloads failures marks removes).payloads (emptied archive) =
      (middle, .done))
  (noneFailing : firstFailing (groupBy Payload.partition archive.buffered).length
    (flushFates archive payloads failures marks removes).payloads = none)
  (all : rowsOf (landed ((groupBy Payload.partition archive.buffered).map payloadSegment)
    (flushFates archive payloads failures marks removes).payloads (emptied archive)) =
      payloadRows (groupBy Payload.partition archive.buffered))
  (noBuffered : last.buffered = [])

include result

/-- A flush that wrote its payloads writes its failures after them. -/
theorem segments_flush_of_done :
    (Operation.flush payloads failures marks removes).segments archive =
      landed ((groupBy Payload.partition archive.buffered).map payloadSegment)
        (flushFates archive payloads failures marks removes).payloads (emptied archive) ++
      landed ((groupBy Failure.partition archive.failures).map failureSegment)
        (flushFates archive payloads failures marks removes).failures middle := by
  unfold emptied at result
  simp only [Operation.segments, result]
  rfl

theorem wrote_flush_of_done :
    Wrote archive middle
      (landed ((groupBy Payload.partition archive.buffered).map payloadSegment)
        (flushFates archive payloads failures marks removes).payloads (emptied archive)) := by
  have first := wrote_commitOrReturn (groupBy Payload.partition archive.buffered)
    (flushFates archive payloads failures marks removes).payloads (emptied archive)
  rw [result] at first
  exact (wrote_emptied archive).trans first

include noneFailing all noBuffered

/-- A flush that writes everything holds nothing. -/
theorem accounted_done (noFailures : last.failures = [])
    (failureResult : commitFailures (groupBy Failure.partition archive.failures)
      (flushFates archive payloads failures marks removes).failures middle = (last, .done))
    (noneOfThem : firstFailing (groupBy Failure.partition archive.failures).length
      (flushFates archive payloads failures marks removes).failures = none)
    (allOfThem : rowsOf (landed ((groupBy Failure.partition archive.failures).map failureSegment)
      (flushFates archive payloads failures marks removes).failures middle) =
        failureRows (groupBy Failure.partition archive.failures)) :
    Accounted archive (.flush payloads failures marks removes) ∧
      held ((Operation.flush payloads failures marks removes).apply archive) = [] := by
  have second := wrote_commitFailures (groupBy Failure.partition archive.failures)
    (flushFates archive payloads failures marks removes).failures middle
  rw [failureResult] at second
  have applied : (Operation.flush payloads failures marks removes).apply archive =
      { last with unflushed := if removes then none else last.unflushed } := by
    have unfolded := result
    unfold emptied at unfolded
    simp only [Operation.apply, Archive.flush, unfolded, failureResult]
    rfl
  have cleared : Wrote last { last with
      unflushed := if removes then none else last.unflushed } [] :=
    .of_unchanged rfl rfl rfl
  have nothing : held { last with unflushed := if removes then none else last.unflushed } = [] := by
    simp [held, noBuffered, noFailures]
  refine ⟨⟨?_, [], ?_, ?_⟩, by rw [applied, nothing]⟩
  · rw [applied, segments_flush_of_done result]
    simpa using (wrote_flush_of_done result).trans (second.trans cleared)
  · rw [applied, segments_flush_of_done result, rowsOf_append, all, allOfThem, nothing]
    simpa [Operation.appended] using (held_perm archive).symm
  · simp [Operation.WritesOnce, noneFailing, noneOfThem]

/-- A flush that stops at a failure puts every failure back, the written ones among them. -/
theorem accounted_repeated {failing : Nat × WriteFate}
    (failureResult : commitFailures (groupBy Failure.partition archive.failures)
      (flushFates archive payloads failures marks removes).failures middle = (last, .failed ()))
    (isFailing : firstFailing (groupBy Failure.partition archive.failures).length
      (flushFates archive payloads failures marks removes).failures = some failing)
    (once : rowsOf (landed ((groupBy Failure.partition archive.failures).map failureSegment)
      (flushFates archive payloads failures marks removes).failures middle) = [] ↔
        failing = (0, .refused)) :
    Accounted archive (.flush payloads failures marks removes) := by
  have second := wrote_commitFailures (groupBy Failure.partition archive.failures)
    (flushFates archive payloads failures marks removes).failures middle
  rw [failureResult] at second
  have applied : (Operation.flush payloads failures marks removes).apply archive =
      Archive.markUnflushed { last with failures := archive.failures } marks := by
    have unfolded := result
    unfold emptied at unfolded
    simp only [Operation.apply, Archive.flush, unfolded, failureResult]
    rfl
  have put : Wrote last { last with failures := archive.failures } [] :=
    .of_unchanged rfl rfl rfl
  obtain ⟨marked, heldThere⟩ := markUnflushed_spec { last with failures := archive.failures } marks
  refine ⟨?_, _, ?_, once.trans ?_⟩
  · rw [applied, segments_flush_of_done result]
    simpa using (wrote_flush_of_done result).trans (second.trans (put.trans marked))
  · rw [applied, segments_flush_of_done result, heldThere, rowsOf_append, all]
    apply List.perm_iff_count.mpr
    intro row
    have kept := (payloadRows_groupBy archive.buffered).count_eq row
    simp only [held, Operation.appended, List.count_append, List.append_nil, noBuffered,
      List.map_nil, List.count_nil, kept]
    omega
  · simp [Operation.WritesOnce, noneFailing, isFailing]

end Flush

/-- A flush accounts for every row, and where no write fails it holds nothing. -/
theorem accounted_flush (archive : Archive) (payloads failures : Nat → WriteFate)
    (marks removes : Bool) :
    Accounted archive (.flush payloads failures marks removes) ∧
      ((∀ index, payloads index = .committed) → (∀ index, failures index = .committed) →
        held ((Operation.flush payloads failures marks removes).apply archive) = []) := by
  obtain ⟨keptFailures, keptBuffered, spec⟩ :=
    commitOrReturn_spec
      (fun group member => @ne_nil_of_mem_groupBy _ _ _ Payload.partition _ group.1 _ member)
      (by simp [flushFates] : (groupBy Payload.partition archive.buffered).length ≤
        (flushFates archive payloads failures marks removes).payloads.length) (emptied archive)
  rcases result : commitOrReturn (groupBy Payload.partition archive.buffered)
    (flushFates archive payloads failures marks removes).payloads (emptied archive)
      with ⟨middle, ended⟩
  rw [result] at keptFailures keptBuffered spec
  cases spec with
  | failed index fate unwritten twice failing balanced once =>
      refine ⟨accounted_stopped result failing balanced once, ?_⟩
      intro committed
      obtain ⟨member, fails⟩ := fails_of_firstFailing failing
      obtain ⟨place, _, rfl⟩ := List.mem_map.mp member
      exact absurd (committed place) fails
  | done noneFailing all =>
      obtain ⟨stillFailures, stillBuffered, failureSpec⟩ :=
        commitFailures_spec
          (fun group member =>
            @ne_nil_of_mem_groupBy _ _ _ Failure.partition _ group.1 _ member)
          (by simp [flushFates] : (groupBy Failure.partition archive.failures).length ≤
            (flushFates archive payloads failures marks removes).failures.length) middle
      rcases failureResult : commitFailures (groupBy Failure.partition archive.failures)
        (flushFates archive payloads failures marks removes).failures middle with ⟨last, ended⟩
      rw [failureResult] at stillFailures stillBuffered failureSpec
      have noFailures : last.failures = [] := stillFailures.trans keptFailures
      have noBuffered : last.buffered = [] := stillBuffered.trans keptBuffered
      cases failureSpec with
      | done noneOfThem allOfThem =>
          obtain ⟨accounted, nothing⟩ := accounted_done result noneFailing all noBuffered
            noFailures failureResult noneOfThem allOfThem
          exact ⟨accounted, fun _ _ => nothing⟩
      | failed failing isFailing once =>
          refine ⟨accounted_repeated result noneFailing all noBuffered failureResult
            isFailing once, ?_⟩
          intro _ committed
          obtain ⟨member, fails⟩ := @fails_of_firstFailing _ _ failing.1 failing.2
            isFailing
          obtain ⟨place, _, same⟩ := List.mem_map.mp member
          exact absurd (same.symm.trans (committed place)) fails

/-- **An operation leaves every row it had in a segment or held.** -/
theorem accounted (archive : Archive) (operation : Operation) : Accounted archive operation := by
  cases operation with
  | appendFailure failure =>
      refine ⟨.of_unchanged rfl rfl rfl, [], ?_, by simp [Operation.WritesOnce]⟩
      simp [held, Operation.apply, Operation.segments, Operation.appended, rowsOf,
        Archive.appendFailure]
  | append payload fate =>
      obtain ⟨seq, recvMicros, address, channel, kind, symbol, origin, bytes⟩ := payload
      cases origin with
      | streamed =>
          refine ⟨.of_unchanged rfl rfl rfl, [], ?_, by simp [Operation.WritesOnce]⟩
          apply List.perm_iff_count.mpr
          intro row
          simp only [held, Operation.apply, Archive.append, Operation.segments,
            Operation.appended, rowsOf, List.flatMap_nil, List.map_append, List.map_cons,
            List.map_nil, List.count_append, List.count_nil]
          omega
      | fetched | generated =>
          refine ⟨?_, [], ?_, by simp [Operation.WritesOnce]⟩
          · simp only [Operation.segments, landed_singleton]
            exact wrote_write archive (payloadSegment (_, [_])) fate
          · simp only [Operation.segments, landed_singleton, Operation.appended]
            split
            · exact List.Perm.of_eq (by simp [rowsOf, held, Operation.apply, Archive.append,
                Archive.commitGroup, Archive.write])
            · simp only [rowsOf, List.flatMap_cons, List.flatMap_nil, List.append_nil,
                payloadSegment, rows_payloadFile]
              exact List.perm_append_comm
  | flush payloads failures marks removes => exact (accounted_flush archive _ _ _ _).1

/-! ## A run of operations -/

/-- One operation, as a step of a machine that refuses none. -/
def step (archive : Archive) (operation : Operation) : Option Archive :=
  some (operation.apply archive)

/-- The guard of a run whose flushes write nothing they put back. -/
def WritesOnce (operations : List Operation) (archive : Archive) : Prop :=
  Transition.Guarded step (fun archive operation => operation.WritesOnce archive) operations
    archive

theorem writesOnce_cons {operation : Operation} {operations : List Operation}
    {archive : Archive} :
    WritesOnce (operation :: operations) archive ↔
      operation.WritesOnce archive ∧ WritesOnce operations (operation.apply archive) := by
  constructor
  · intro guarded
    exact ⟨guarded.1, guarded.2 _ rfl⟩
  · rintro ⟨here, rest⟩
    refine ⟨here, ?_⟩
    intro next stepped
    obtain rfl := Option.some.inj stepped
    exact rest

/-- A run writes segments under new names, and leaves every row it was handed in one or held. -/
theorem accounted_run (operations : List Operation) (archive : Archive) :
    Wrote archive (run operations archive) (written operations archive) ∧
      ∃ twice, (rowsOf (written operations archive) ++ held (run operations archive)).Perm
          (held archive ++ appended operations ++ twice) ∧
        (twice = [] ↔ WritesOnce operations archive) := by
  induction operations generalizing archive with
  | nil =>
      refine ⟨Wrote.refl archive, [], ?_, by simp [WritesOnce, Transition.Guarded]⟩
      simp [run, written, rowsOf, appended]
  | cons operation operations inductionHypothesis =>
      obtain ⟨wrote, twice, balanced, once⟩ := accounted archive operation
      obtain ⟨laterWrote, laterTwice, laterBalanced, laterOnce⟩ :=
        inductionHypothesis (operation.apply archive)
      refine ⟨wrote.trans laterWrote, twice ++ laterTwice, ?_, ?_⟩
      · have rows : rowsOf (written (operation :: operations) archive) =
            rowsOf (operation.segments archive) ++
              rowsOf (written operations (operation.apply archive)) := by
          rw [written, rowsOf_append]
        have handed : appended (operation :: operations) =
            operation.appended ++ appended operations := by
          simp [appended]
        have same : run (operation :: operations) archive =
            run operations (operation.apply archive) := rfl
        rw [rows, handed, same]
        apply List.perm_iff_count.mpr
        intro row
        have one := balanced.count_eq row
        have rest := laterBalanced.count_eq row
        simp only [List.count_append] at one rest ⊢
        omega
      · rw [List.append_eq_nil_iff, once, laterOnce, writesOnce_cons]

theorem run_append (first second : List Operation) (archive : Archive) :
    run (first ++ second) archive = run second (run first archive) :=
  List.foldl_append

/-- The last flush is no reason for a row to be in two places. -/
theorem writesOnce_lastFlush (marks removes : Bool) (archive : Archive) :
    (lastFlush marks removes).WritesOnce archive := by
  have none : ∀ count length,
      firstFailing count (List.replicate length WriteFate.committed) = none := by
    intro count length
    rw [Option.eq_none_iff_forall_ne_some]
    rintro ⟨index, fate⟩ failing
    obtain ⟨member, fails⟩ := fails_of_firstFailing failing
    exact fails (List.eq_of_mem_replicate member)
  simp [lastFlush, Operation.WritesOnce, flushFates, none]

theorem writesOnce_append {first second : List Operation} {archive : Archive} :
    WritesOnce (first ++ second) archive ↔
      WritesOnce first archive ∧ WritesOnce second (run first archive) := by
  induction first generalizing archive with
  | nil => simp [WritesOnce, Transition.Guarded, run]
  | cons operation first inductionHypothesis =>
      rw [List.cons_append, writesOnce_cons, writesOnce_cons, inductionHypothesis, and_assoc]
      rfl

/-- **Every row a handle takes is held or written, and after a flush that writes everything the
segments it wrote are the rows it took, once each, exactly where no earlier flush put back a row
it had written.** -/
theorem flush_exactly_once_iff (record : Archive) (pid nextSeq : Nat)
    (operations : List Operation) (marks removes : Bool) :
    let opened := record.reopened pid nextSeq
    let whole := operations ++ [lastFlush marks removes]
    let entries := written whole opened
    ((entries.map Prod.fst).Nodup ∧
      (∀ entry ∈ entries, (run whole opened).tree.lookup entry.1 = some entry.2) ∧
      ∀ path ∉ entries.map Prod.fst,
        (run whole opened).tree.lookup path = record.tree.lookup path) ∧
    (∀ count, (appended (operations.take count)).Subperm
      (rowsOf (written (operations.take count) opened) ++
        held (run (operations.take count) opened))) ∧
    ((rowsOf entries).Perm (appended operations) ↔ WritesOnce operations opened) := by
  intro opened whole entries
  have nothingHeld : held opened = [] := rfl
  obtain ⟨wrote, twice, balanced, once⟩ := accounted_run whole opened
  refine ⟨⟨wrote.distinct, ?_, ?_⟩, ?_, ?_⟩
  · intro entry member
    rw [wrote.tree]
    exact lookup_applyAll_commits wrote.distinct member _
  · intro path absent
    rw [wrote.tree]
    rcases lookup_applyAll_commits_cases entries opened.tree path with
      ⟨content, member, _⟩ | ⟨_, untouched⟩
    · exact absurd (List.mem_map_of_mem member) absent
    · exact untouched
  · intro count
    obtain ⟨_, more, sofar, _⟩ := accounted_run (operations.take count) opened
    rw [nothingHeld, List.nil_append] at sofar
    exact (List.sublist_append_left _ _).subperm.trans sofar.symm.subperm
  · have flushed : held (run whole opened) = [] := by
      rw [run_append]
      exact (accounted_flush _ _ _ _ _).2 (fun _ => rfl) fun _ => rfl
    have handed : appended whole = appended operations := by
      simp [whole, appended, lastFlush, Operation.appended]
    have sameGuard : WritesOnce whole opened ↔ WritesOnce operations opened := by
      rw [writesOnce_append, writesOnce_cons]
      exact and_iff_left ⟨writesOnce_lastFlush marks removes _, trivial⟩
    rw [flushed, nothingHeld, handed, List.append_nil, List.nil_append] at balanced
    rw [← sameGuard, ← once]
    constructor
    · intro exact
      have lengths := (exact.symm.trans balanced).length_eq
      rw [List.length_append] at lengths
      exact List.eq_nil_of_length_eq_zero (by omega)
    · intro none
      rw [none, List.append_nil] at balanced
      exact balanced

/-- A payload of a kind that did not normalise. -/
def failureOf (kind : Text) : Failure := ⟨1, 0, "h".toList, "c".toList, none, kind, []⟩

/-- A flush that writes the first failure and not the second leaves the first to be written
again. -/
theorem failure_written_twice :
    ¬ (rowsOf (written
        [.appendFailure (failureOf "quotes".toList), .appendFailure (failureOf "trades".toList),
          .flush (fun _ => .committed) (fun index => if index = 0 then .committed else .refused)
            true true, lastFlush true true] ({} : Archive))).Perm
      (appended [.appendFailure (failureOf "quotes".toList),
        .appendFailure (failureOf "trades".toList)]) := by
  decide +kernel

end Record
end Datawatch
