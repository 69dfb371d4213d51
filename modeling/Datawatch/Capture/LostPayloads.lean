import Datawatch.Capture.RestartGap
import Datawatch.Record.FlushOnce

/-!
# What a restart's window covers

A payload the record took and never wrote is lost with the process.  The next one dates its window
from the last durable receipt of the scope, or from the marker a failed flush left.
-/

namespace Datawatch
namespace Capture

open Library Library.Transition Library.Grouping Segments Wire Record

/-- How a sequence of writes ends: all made, one failed, or the process died before one. -/
inductive WritesEnd
  | written
  | failed
  | died
deriving DecidableEq

/-- How as many writes end. -/
def writesEnd : Nat → List WriteFate → WritesEnd
  | 0, _ => .written
  | _ + 1, [] => .died
  | count + 1, fate :: fates => if fate.succeeds then writesEnd count fates else .failed

/-- How a flush's writes end: its payloads', and after them its failures'. -/
def flushEnd (archive : Archive) (fates : Archive.FlushFates) : WritesEnd :=
  match writesEnd (groupBy Payload.partition archive.buffered).length fates.payloads with
  | .written => writesEnd (groupBy Failure.partition archive.failures).length fates.failures
  | .failed => .failed
  | .died => .died

/-- The segments a flush lands. -/
def flushEntries (archive : Archive) (fates : Archive.FlushFates) :
    List (Segments.Path × ArchiveFile) :=
  let groups := groupBy Payload.partition archive.buffered
  landed (groups.map payloadSegment) fates.payloads (emptied archive) ++
    if writesEnd groups.length fates.payloads = .written then
      landed ((groupBy Failure.partition archive.failures).map failureSegment) fates.failures
        (Archive.commitOrReturn groups fates.payloads (emptied archive)).1
    else []

/-- One thing done with a handle.  The process does not outlive a flush whose fates end. -/
inductive HandleAct
  | append (payload : Payload) (fate : WriteFate)
  | appendFailure (failure : Failure)
  | flush (fates : Archive.FlushFates)

/-- A handle, what it was handed, and the segments it landed. -/
structure HandleRun where
  archive : Archive
  received : List Payload := []
  entries : List (Segments.Path × ArchiveFile) := []
  alive : Bool := true

/-- What one thing makes of a handle, while its process lives. -/
def HandleRun.step (run : HandleRun) (act : HandleAct) : Option HandleRun :=
  if run.alive then
    some
      (match act with
      | .append payload fate =>
          { run with
            archive := (run.archive.append payload fate).1
            received := run.received ++ [payload]
            entries := run.entries ++ (Operation.append payload fate).segments run.archive }
      | .appendFailure failure => { run with archive := run.archive.appendFailure failure }
      | .flush fates =>
          { run with
            archive := (run.archive.flush fates).1
            entries := run.entries ++ flushEntries run.archive fates
            alive := decide (flushEnd run.archive fates ≠ .died) })
  else none

/-- The receipts a handle is handed are moments the record can name. -/
def HandleAct.InRange : HandleAct → Prop
  | .append payload _ => i64Min ≤ payload.recvMicros ∧ payload.recvMicros ≤ i64Max
  | .appendFailure failure => i64Min ≤ failure.recvMicros ∧ failure.recvMicros ≤ i64Max
  | .flush _ => True

/-- The scope a handle answers for. -/
def scopeOf (archive : Archive) : Text := archive.scope.getD []

/-- Whether segments hold no row of a payload. -/
def Unwritten (entries : List (Segments.Path × ArchiveFile)) (payload : Payload) : Prop :=
  ∀ entry ∈ entries, entry.1.partition = payload.partition →
    payload.row ∉ entry.2.file.rows

/-- Whether a tree holds no row of a payload. -/
def NotDurable (tree : ArchiveTree) (payload : Payload) : Prop :=
  ∀ path file, tree.lookup path = some file → path.partition = payload.partition →
    payload.row ∉ file.file.rows

/-- Whether a window would start no later than a receipt. -/
def DatedBy (archive : Archive) (micros : Int) : Prop :=
  ∃ durable ∈ archive.lastDurable,
    durable ≤ micros ∨ ∃ marker ∈ archive.unflushed, marker ≤ micros

/-- Whether segments hold nothing of a scope received after a moment. -/
def NoneLater (scope : Text) (entries : List (Segments.Path × ArchiveFile)) (micros : Int) :
    Prop :=
  ∀ entry ∈ entries, Under scope entry.1.partition → ∀ row ∈ entry.2.file.rows,
    row.recvMicros ≤ micros

/-- Whether a flush writes or removes the marker. -/
def replacesMarker (archive : Archive) (fates : Archive.FlushFates) : Bool :=
  match flushEnd archive fates with
  | .written => fates.removes
  | .failed => fates.marks
  | .died => false

/-- **What keeps every loss dated**, at one thing done with a handle.  What is received and not
written at once was received no earlier than the scope is durable to, or than the marker; what is
landed overtakes nothing left unwritten that the marker does not date; and a marker that is
replaced leaves nothing only it dated, but for what a failing flush puts back. -/
def HandleRun.Keeps (run : HandleRun) : HandleAct → Prop
  | .append payload fate =>
      Under (scopeOf run.archive) payload.partition →
        if payload.origin = .streamed ∨ fate = .refused then DatedBy run.archive payload.recvMicros
        else
          ∀ lost ∈ run.received, Under (scopeOf run.archive) lost.partition →
            Unwritten run.entries lost → payload.recvMicros ≤ lost.recvMicros ∨
              ∃ marker ∈ run.archive.unflushed, marker ≤ lost.recvMicros
  | .appendFailure _ => True
  | .flush fates =>
      ∀ lost ∈ run.received, Under (scopeOf run.archive) lost.partition →
        Unwritten (run.entries ++ flushEntries run.archive fates) lost →
          (flushEnd run.archive fates = .failed ∧ fates.marks ∧ lost ∈ run.archive.buffered) ∨
            (¬ replacesMarker run.archive fates ∧
              ∃ marker ∈ run.archive.unflushed, marker ≤ lost.recvMicros) ∨
              NoneLater (scopeOf run.archive) (flushEntries run.archive fates) lost.recvMicros ∧
                (replacesMarker run.archive fates → ∀ durable ∈ run.archive.lastDurable,
                  durable ≤ lost.recvMicros)

/-! ## What writes leave of a scope -/

/-- What segments add to a scope's names: receipts of their own, and nothing is taken away. -/
structure Extends (scope : Text) (before after : ArchiveTree)
    (entries : List (Segments.Path × ArchiveFile)) : Prop where
  named : ReceiptNamed after scope
  keeps : ∀ micros, DurableTo before scope micros → DurableTo after scope micros
  only : ∀ micros, DurableTo after scope micros → DurableTo before scope micros ∨
    ∃ entry ∈ entries, Under scope entry.1.partition ∧
      ∃ row ∈ entry.2.file.rows, row.recvMicros = micros

theorem Extends.refl {scope : Text} {tree : ArchiveTree} (named : ReceiptNamed tree scope) :
    Extends scope tree tree [] :=
  ⟨named, fun _ durable => durable, fun _ durable => .inl durable⟩

theorem Extends.trans {scope : Text} {before middle after : ArchiveTree}
    {entries others : List (Segments.Path × ArchiveFile)}
    (first : Extends scope before middle entries) (second : Extends scope middle after others) :
    Extends scope before after (entries ++ others) := by
  refine ⟨second.named, fun micros durable => second.keeps micros (first.keeps micros durable), ?_⟩
  intro micros durable
  rcases second.only micros durable with between | ⟨entry, isEntry, holds⟩
  · rcases first.only micros between with before | ⟨entry, isEntry, holds⟩
    · exact .inl before
    · exact .inr ⟨entry, List.mem_append_left _ isEntry, holds⟩
  · exact .inr ⟨entry, List.mem_append_right _ isEntry, holds⟩

/-- A segment named by the receipts of its rows. -/
structure WellNamed (segment : Segment) : Prop where
  nonempty : segment.times ≠ []
  ofRows : segment.file.file.rows.map ArchiveRow.recvMicros = segment.times
  inRange : ∀ time ∈ segment.times, i64Min ≤ time ∧ time ≤ i64Max

section Writes

variable {scope : Text}

/-- What a write of one segment leaves of a scope. -/
theorem extends_write {archive : Archive} {segment : Segment} (wellNamed : WellNamed segment)
    (named : ReceiptNamed archive.tree scope) (pid : archive.pid < 2 ^ 32)
    (fits : archive.flushSeq + 1 < 2 ^ 64) (fate : WriteFate) :
    Extends scope archive.tree
      (archive.write segment.partition segment.times segment.file fate).tree
      (if fate = .refused then []
        else
          [(⟨segment.partition, (archive.cursorFor segment.times).fileName⟩, segment.file)]) := by
  by_cases refused : fate = .refused
  · rw [if_pos refused, refused]
    exact Extends.refl named
  · rw [if_neg refused]
    refine ⟨named.write wellNamed.nonempty wellNamed.inRange pid fits, ?_, ?_⟩
    · rintro micros ⟨path, inTree, holds⟩
      exact ⟨path, (mem_tree_write refused).mpr (.inr inTree), holds⟩
    · rintro micros ⟨path, inTree, under, cursor, parsed, isPosition⟩
      rcases (mem_tree_write refused).mp inTree with rfl | before
      · obtain ⟨last, isLast⟩ := Option.ne_none_iff_exists'.mp
          (fun noMax => wellNamed.nonempty (List.max?_eq_none_iff.mp noMax))
        rw [parse_cursorFor wellNamed.nonempty wellNamed.inRange pid fits] at parsed
        obtain rfl := Option.some.inj parsed
        have position : last = micros := by
          rw [← isPosition, Archive.cursorFor, isLast]
          rfl
        have isTime := List.max?_mem isLast
        rw [← wellNamed.ofRows, position] at isTime
        obtain ⟨row, isRow, isMoment⟩ := List.mem_map.mp isTime
        exact .inr ⟨_, List.mem_singleton.mpr rfl, under, row, isRow, isMoment⟩
      · exact .inl ⟨path, before, under, cursor, parsed, isPosition⟩

open Archive (commitOrReturn commitFailures)

/-- What writes of payload groups leave of a scope. -/
theorem extends_commitOrReturn {groups : List (Text × List Payload)} {fates : List WriteFate}
    {archive : Archive} (wellNamed : ∀ group ∈ groups, WellNamed (payloadSegment group))
    (named : ReceiptNamed archive.tree scope) (pid : archive.pid < 2 ^ 32)
    (fits : (commitOrReturn groups fates archive).1.flushSeq < 2 ^ 64) :
    Extends scope archive.tree (commitOrReturn groups fates archive).1.tree
      (landed (groups.map payloadSegment) fates archive) := by
  induction groups generalizing fates archive with
  | nil => exact Extends.refl named
  | cons group groups inductionHypothesis =>
      cases fates with
      | nil => exact Extends.refl named
      | cons fate fates =>
          have isNamed := wellNamed group List.mem_cons_self
          unfold commitOrReturn at fits ⊢
          rw [List.map_cons, landed]
          simp only at fits ⊢
          split at fits
          · rename_i succeeds
            rw [if_pos succeeds, if_pos succeeds]
            have counts := (wrote_commitOrReturn groups fates
              (archive.commitGroup group.1 group.2 fate)).counts
            have one := @extends_write scope archive _ isNamed named pid
              (lt_of_le_of_lt counts fits) fate
            exact one.trans (inductionHypothesis
              (fun other member => wellNamed other (List.mem_cons_of_mem _ member)) one.named pid
              fits)
          · rename_i fails
            rw [if_neg fails, if_neg fails, List.append_nil]
            exact extends_write isNamed named pid fits fate

/-- What writes of failure groups leave of a scope. -/
theorem extends_commitFailures {groups : List (Text × List Failure)} {fates : List WriteFate}
    {archive : Archive} (wellNamed : ∀ group ∈ groups, WellNamed (failureSegment group))
    (named : ReceiptNamed archive.tree scope) (pid : archive.pid < 2 ^ 32)
    (fits : (commitFailures groups fates archive).1.flushSeq < 2 ^ 64) :
    Extends scope archive.tree (commitFailures groups fates archive).1.tree
      (landed (groups.map failureSegment) fates archive) := by
  induction groups generalizing fates archive with
  | nil => exact Extends.refl named
  | cons group groups inductionHypothesis =>
      cases fates with
      | nil => exact Extends.refl named
      | cons fate fates =>
          have isNamed := wellNamed group List.mem_cons_self
          unfold commitFailures at fits ⊢
          rw [List.map_cons, landed]
          simp only at fits ⊢
          split at fits
          · rename_i succeeds
            rw [if_pos succeeds, if_pos succeeds]
            have counts := (wrote_commitFailures groups fates
              (archive.write (group.1 ++ "/failures".toList) (group.2.map Failure.recvMicros)
                (failureFile group.2) fate)).counts
            have one := @extends_write scope archive _ isNamed named pid
              (lt_of_le_of_lt counts fits) fate
            exact one.trans (inductionHypothesis
              (fun other member => wellNamed other (List.mem_cons_of_mem _ member)) one.named pid
              fits)
          · rename_i fails
            rw [if_neg fails, if_neg fails, List.append_nil]
            exact extends_write isNamed named pid fits fate

/-- Whether segments hold a payload's row in its partition. -/
def WrittenIn (entries : List (Segments.Path × ArchiveFile)) (partition : Text)
    (payload : Payload) : Prop :=
  ∃ entry ∈ entries, entry.1.partition = partition ∧ payload.row ∈ entry.2.file.rows

theorem WrittenIn.mono {entries others : List (Segments.Path × ArchiveFile)} {partition : Text}
    {payload : Payload} (written : WrittenIn entries partition payload)
    (within : entries ⊆ others) : WrittenIn others partition payload := by
  obtain ⟨entry, isEntry, holds⟩ := written
  exact ⟨entry, within isEntry, holds⟩

/-- Writes of payload groups end as their fates do, with each payload in a segment or handed
back. -/
theorem ended_commitOrReturn (groups : List (Text × List Payload)) (fates : List WriteFate)
    (archive : Archive) :
    match writesEnd groups.length fates with
    | .written => (commitOrReturn groups fates archive).2 = .done ∧
        ∀ group ∈ groups, ∀ payload ∈ group.2,
          WrittenIn (landed (groups.map payloadSegment) fates archive) group.1 payload
    | .failed => ∃ unwritten, (commitOrReturn groups fates archive).2 = .failed unwritten ∧
        unwritten ⊆ groups.flatMap Prod.snd ∧
        ∀ group ∈ groups, ∀ payload ∈ group.2,
          WrittenIn (landed (groups.map payloadSegment) fates archive) group.1 payload ∨
            payload ∈ unwritten
    | .died => (commitOrReturn groups fates archive).2 = .died := by
  induction groups generalizing fates archive with
  | nil => exact ⟨rfl, by simp⟩
  | cons group groups inductionHypothesis =>
      cases fates with
      | nil => rfl
      | cons fate fates =>
          by_cases succeeds : fate.succeeds
          · have isCommitted : fate = .committed := of_decide_eq_true succeeds
            subst isCommitted
            have rest := inductionHypothesis fates (archive.commitGroup group.1 group.2 .committed)
            have entries : landed ((group :: groups).map payloadSegment) (.committed :: fates)
                archive =
                  (⟨group.1, (archive.cursorFor (group.2.map Payload.recvMicros)).fileName⟩,
                    payloadFile group.2) ::
                  landed (groups.map payloadSegment) fates
                    (archive.commitGroup group.1 group.2 .committed) := rfl
            have here : ∀ payload ∈ group.2, WrittenIn
                (landed ((group :: groups).map payloadSegment) (.committed :: fates) archive)
                  group.1 payload := by
              intro payload isPayload
              rw [entries]
              refine ⟨_, List.mem_cons_self, rfl, ?_⟩
              rw [rows_payloadFile]
              exact List.mem_map_of_mem isPayload
            have later {partition : Text} {payload : Payload} (written : WrittenIn
                (landed (groups.map payloadSegment) fates
                  (archive.commitGroup group.1 group.2 .committed)) partition payload) :
                WrittenIn (landed ((group :: groups).map payloadSegment) (.committed :: fates)
                  archive) partition payload := by
              rw [entries]
              exact written.mono (List.subset_cons_self _ _)
            have ends : writesEnd (group :: groups).length (.committed :: fates) =
                writesEnd groups.length fates := rfl
            have result : (commitOrReturn (group :: groups) (.committed :: fates) archive).2 =
                (commitOrReturn groups fates
                  (archive.commitGroup group.1 group.2 .committed)).2 := rfl
            rw [ends, result]
            split at rest
            · refine ⟨rest.1, ?_⟩
              intro other isOther payload isPayload
              rcases List.mem_cons.mp isOther with rfl | isRest
              · exact here payload isPayload
              · exact later (rest.2 other isRest payload isPayload)
            · obtain ⟨unwritten, isFailed, among, places⟩ := rest
              refine ⟨unwritten, isFailed, fun payload member => List.mem_append_right _
                (among member), ?_⟩
              intro other isOther payload isPayload
              rcases List.mem_cons.mp isOther with rfl | isRest
              · exact .inl (here payload isPayload)
              · exact (places other isRest payload isPayload).imp_left later
            · exact rest
          · have ends : writesEnd (group :: groups).length (fate :: fates) = .failed :=
              if_neg succeeds
            have result : (commitOrReturn (group :: groups) (fate :: fates) archive).2 =
                .failed ((group.2 ++ groups.flatMap Prod.snd).insertionSort fun first second =>
                  first.seq ≤ second.seq) := by
              unfold commitOrReturn
              simp only
              rw [if_neg succeeds]
            rw [ends, result]
            refine ⟨_, rfl, fun payload member => (List.mem_insertionSort _).mp member, ?_⟩
            intro other isOther payload isPayload
            refine .inr ((List.mem_insertionSort _).mpr ?_)
            have all : payload ∈ (group :: groups).flatMap Prod.snd :=
              List.mem_flatMap.mpr ⟨other, isOther, isPayload⟩
            exact all

/-- Writes of failure groups end as their fates do. -/
theorem ended_commitFailures (groups : List (Text × List Failure)) (fates : List WriteFate)
    (archive : Archive) :
    (commitFailures groups fates archive).2 =
      match writesEnd groups.length fates with
      | .written => .done
      | .failed => .failed ()
      | .died => .died := by
  induction groups generalizing fates archive with
  | nil => rfl
  | cons group groups inductionHypothesis =>
      cases fates with
      | nil => rfl
      | cons fate fates =>
          unfold commitFailures
          simp only [List.length_cons, writesEnd]
          by_cases succeeds : fate.succeeds
          · rw [if_pos succeeds, if_pos succeeds]
            exact inductionHypothesis fates _
          · rw [if_neg succeeds, if_neg succeeds]

/-- Writes of payload groups keep the marker, the scope and what is held. -/
theorem frame_commitOrReturn (groups : List (Text × List Payload)) (fates : List WriteFate)
    (archive : Archive) :
    (commitOrReturn groups fates archive).1.unflushed = archive.unflushed ∧
      (commitOrReturn groups fates archive).1.scope = archive.scope ∧
        (commitOrReturn groups fates archive).1.buffered = archive.buffered ∧
          (commitOrReturn groups fates archive).1.failures = archive.failures := by
  induction groups generalizing fates archive with
  | nil => exact ⟨rfl, rfl, rfl, rfl⟩
  | cons group groups inductionHypothesis =>
      cases fates with
      | nil => exact ⟨rfl, rfl, rfl, rfl⟩
      | cons fate fates =>
          unfold commitOrReturn
          simp only
          split
          · exact inductionHypothesis fates (archive.commitGroup group.1 group.2 fate)
          · exact ⟨rfl, rfl, rfl, rfl⟩

/-- Writes of failure groups keep the marker, the scope and what is held. -/
theorem frame_commitFailures (groups : List (Text × List Failure)) (fates : List WriteFate)
    (archive : Archive) :
    (commitFailures groups fates archive).1.unflushed = archive.unflushed ∧
      (commitFailures groups fates archive).1.scope = archive.scope ∧
        (commitFailures groups fates archive).1.buffered = archive.buffered ∧
          (commitFailures groups fates archive).1.failures = archive.failures := by
  induction groups generalizing fates archive with
  | nil => exact ⟨rfl, rfl, rfl, rfl⟩
  | cons group groups inductionHypothesis =>
      cases fates with
      | nil => exact ⟨rfl, rfl, rfl, rfl⟩
      | cons fate fates =>
          unfold commitFailures
          simp only
          split
          · exact inductionHypothesis fates (archive.write (group.1 ++ "/failures".toList)
              (group.2.map Failure.recvMicros) (failureFile group.2) fate)
          · exact ⟨rfl, rfl, rfl, rfl⟩

end Writes

section Flush

open Archive (commitOrReturn commitFailures)

/-- The handle once a flush's writes are made. -/
def flushWrote (archive : Archive) (fates : Archive.FlushFates) : Archive :=
  let groups := groupBy Payload.partition archive.buffered
  let written := (commitOrReturn groups fates.payloads (emptied archive)).1
  if writesEnd groups.length fates.payloads = .written then
    (commitFailures (groupBy Failure.partition archive.failures) fates.failures written).1
  else written

/-- The payloads a flush that fails puts back. -/
def putBack (archive : Archive) (fates : Archive.FlushFates) : List Payload :=
  match (commitOrReturn (groupBy Payload.partition archive.buffered) fates.payloads
    (emptied archive)).2 with
  | .failed unwritten => unwritten
  | .done | .died => []

variable {archive : Archive} {fates : Archive.FlushFates}

theorem wrote_flushWrote (archive : Archive) (fates : Archive.FlushFates) :
    Wrote archive (flushWrote archive fates) (flushEntries archive fates) := by
  have first := (wrote_emptied archive).trans (wrote_commitOrReturn
    (groupBy Payload.partition archive.buffered) fates.payloads (emptied archive))
  rw [List.nil_append] at first
  unfold flushWrote flushEntries
  simp only
  split
  · exact first.trans (wrote_commitFailures _ _ _)
  · rw [List.append_nil]
    exact first

theorem frame_flushWrote (archive : Archive) (fates : Archive.FlushFates) :
    (flushWrote archive fates).unflushed = archive.unflushed ∧
      (flushWrote archive fates).scope = archive.scope ∧
        (flushWrote archive fates).buffered = [] ∧ (flushWrote archive fates).failures = [] := by
  have first := frame_commitOrReturn (groupBy Payload.partition archive.buffered) fates.payloads
    (emptied archive)
  unfold flushWrote
  simp only
  split
  · have second := frame_commitFailures (groupBy Failure.partition archive.failures) fates.failures
      (commitOrReturn (groupBy Payload.partition archive.buffered) fates.payloads
        (emptied archive)).1
    exact ⟨second.1.trans first.1, second.2.1.trans first.2.1, second.2.2.1.trans first.2.2.1,
      second.2.2.2.trans first.2.2.2⟩
  · exact first

/-- Every group of what is held is a segment named by its receipts. -/
theorem wellNamed_payloads {payloads : List Payload}
    (inRange : ∀ payload ∈ payloads, i64Min ≤ payload.recvMicros ∧ payload.recvMicros ≤ i64Max) :
    ∀ group ∈ groupBy Payload.partition payloads, WellNamed (payloadSegment group) := by
  intro group isGroup
  have nonempty := @ne_nil_of_mem_groupBy _ _ _ Payload.partition _ group.1 _ isGroup
  refine ⟨?_, ?_, ?_⟩
  · simpa [payloadSegment] using nonempty
  · simp only [payloadSegment, rows_payloadFile, List.map_map]
    rfl
  · intro time isTime
    obtain ⟨payload, isPayload, rfl⟩ := List.mem_map.mp isTime
    exact inRange payload ((perm_flatMap_groupBy Payload.partition payloads).mem_iff.mp
      (List.mem_flatMap.mpr ⟨group, isGroup, isPayload⟩))

theorem wellNamed_failures {failures : List Failure}
    (inRange : ∀ failure ∈ failures, i64Min ≤ failure.recvMicros ∧ failure.recvMicros ≤ i64Max) :
    ∀ group ∈ groupBy Failure.partition failures, WellNamed (failureSegment group) := by
  intro group isGroup
  have nonempty := @ne_nil_of_mem_groupBy _ _ _ Failure.partition _ group.1 _ isGroup
  refine ⟨?_, ?_, ?_⟩
  · simpa [failureSegment] using nonempty
  · simp only [failureSegment, rows_failureFile, List.map_map]
    rfl
  · intro time isTime
    obtain ⟨failure, isFailure, rfl⟩ := List.mem_map.mp isTime
    exact inRange failure ((perm_flatMap_groupBy Failure.partition failures).mem_iff.mp
      (List.mem_flatMap.mpr ⟨group, isGroup, isFailure⟩))

/-- The receipts a handle holds are moments the record can name. -/
structure HeldInRange (archive : Archive) : Prop where
  payloads : ∀ payload ∈ archive.buffered,
    i64Min ≤ payload.recvMicros ∧ payload.recvMicros ≤ i64Max
  failures : ∀ failure ∈ archive.failures,
    i64Min ≤ failure.recvMicros ∧ failure.recvMicros ≤ i64Max

theorem extends_flushWrote {scope : Text} (inRange : HeldInRange archive)
    (named : ReceiptNamed archive.tree scope) (pid : archive.pid < 2 ^ 32)
    (fits : (flushWrote archive fates).flushSeq < 2 ^ 64) :
    Extends scope archive.tree (flushWrote archive fates).tree (flushEntries archive fates) := by
  have payloads := wellNamed_payloads inRange.payloads
  have failures := wellNamed_failures inRange.failures
  unfold flushWrote at fits ⊢
  unfold flushEntries
  simp only at fits ⊢
  split at fits
  · rename_i isWritten
    rw [if_pos isWritten, if_pos isWritten]
    have wrote := wrote_commitOrReturn (groupBy Payload.partition archive.buffered) fates.payloads
      (emptied archive)
    have counts := (wrote_commitFailures (groupBy Failure.partition archive.failures)
      fates.failures (commitOrReturn (groupBy Payload.partition archive.buffered) fates.payloads
        (emptied archive)).1).counts
    have first := @extends_commitOrReturn scope _ fates.payloads (emptied archive) payloads named
      pid (lt_of_le_of_lt counts fits)
    exact first.trans (extends_commitFailures failures first.named (wrote.pid ▸ pid) fits)
  · rename_i notWritten
    rw [if_neg notWritten, if_neg notWritten, List.append_nil]
    exact @extends_commitOrReturn scope _ fates.payloads (emptied archive) payloads named pid fits

/-- A flush writes, and then puts back what it could not write, or clears the marker. -/
theorem flush_eq (archive : Archive) (fates : Archive.FlushFates) :
    (archive.flush fates).1 =
      match flushEnd archive fates with
      | .written =>
          { flushWrote archive fates with
            unflushed := if fates.removes then none else archive.unflushed }
      | .failed =>
          Archive.markUnflushed
            { flushWrote archive fates with
              buffered := putBack archive fates
              failures := archive.failures } fates.marks
      | .died => flushWrote archive fates := by
  have frame := frame_flushWrote archive fates
  have ended := ended_commitOrReturn (groupBy Payload.partition archive.buffered) fates.payloads
    (emptied archive)
  rcases result : commitOrReturn (groupBy Payload.partition archive.buffered) fates.payloads
    (emptied archive) with ⟨written, outcome⟩
  have unfolded := result
  unfold emptied at unfolded
  unfold flushEnd
  unfold flushWrote at frame ⊢
  cases isEnd : writesEnd (groupBy Payload.partition archive.buffered).length fates.payloads with
  | died =>
      simp only [isEnd, result] at ended
      simp only [Archive.flush, unfolded, ended, result, isEnd, reduceCtorEq, if_false]
  | failed =>
      simp only [isEnd, result] at ended
      obtain ⟨unwritten, isFailed, _⟩ := ended
      simp only [Archive.flush, unfolded, isFailed, result, isEnd, reduceCtorEq, if_false, putBack]
  | written =>
      simp only [isEnd, result] at ended
      have failures := ended_commitFailures (groupBy Failure.partition archive.failures)
        fates.failures written
      simp only [isEnd, result, if_true] at frame
      rcases failureResult : commitFailures (groupBy Failure.partition archive.failures)
        fates.failures written with ⟨last, lastOutcome⟩
      rw [failureResult] at failures frame
      simp only at failures frame
      subst failures
      simp only [Archive.flush, unfolded, ended.1, result, isEnd, if_true, failureResult, putBack]
      cases writesEnd (groupBy Failure.partition archive.failures).length fates.failures with
      | written => simp only [frame.1]
      | failed => simp only [← frame.2.2.1]
      | died => rfl

/-- A flush's marker and buffers apart, a flush leaves what its writes do. -/
theorem frame_flush (archive : Archive) (fates : Archive.FlushFates) :
    (archive.flush fates).1.tree = (flushWrote archive fates).tree ∧
      (archive.flush fates).1.pid = (flushWrote archive fates).pid ∧
        (archive.flush fates).1.flushSeq = (flushWrote archive fates).flushSeq ∧
          (archive.flush fates).1.scope = archive.scope := by
  have frame := frame_flushWrote archive fates
  rw [flush_eq]
  cases flushEnd archive fates with
  | written => exact ⟨rfl, rfl, rfl, frame.2.1⟩
  | died => exact ⟨rfl, rfl, rfl, frame.2.1⟩
  | failed =>
      simp only [Archive.markUnflushed]
      split
      · exact ⟨rfl, rfl, rfl, frame.2.1⟩
      · split
        · exact ⟨rfl, rfl, rfl, frame.2.1⟩
        · exact ⟨rfl, rfl, rfl, frame.2.1⟩

/-- What a flush puts back was held. -/
theorem putBack_subset (archive : Archive) (fates : Archive.FlushFates) :
    putBack archive fates ⊆ archive.buffered := by
  have ended := ended_commitOrReturn (groupBy Payload.partition archive.buffered) fates.payloads
    (emptied archive)
  unfold putBack
  intro payload member
  split at ended
  · simp only [ended.1] at member
    cases member
  · obtain ⟨unwritten, isFailed, among, _⟩ := ended
    simp only [isFailed] at member
    exact (perm_flatMap_groupBy Payload.partition archive.buffered).mem_iff.mp (among member)
  · simp only [ended] at member
    cases member

/-- What a flush leaves held was held. -/
theorem HeldInRange.flush (inRange : HeldInRange archive) (fates : Archive.FlushFates) :
    HeldInRange (archive.flush fates).1 := by
  have frame := frame_flushWrote archive fates
  have emptyHeld : HeldInRange (flushWrote archive fates) := by
    refine ⟨?_, ?_⟩
    · rw [frame.2.2.1]
      intro payload member
      cases member
    · rw [frame.2.2.2]
      intro failure member
      cases member
  have returned : HeldInRange
      { flushWrote archive fates with
        buffered := putBack archive fates
        failures := archive.failures } :=
    ⟨fun payload member => inRange.payloads payload (putBack_subset archive fates member),
      inRange.failures⟩
  rw [flush_eq]
  cases flushEnd archive fates with
  | written => exact ⟨emptyHeld.payloads, emptyHeld.failures⟩
  | died => exact emptyHeld
  | failed =>
      simp only [Archive.markUnflushed]
      split
      · exact returned
      · split
        · exact ⟨returned.payloads, returned.failures⟩
        · exact returned

/-- A flush that neither writes nor removes the marker leaves it. -/
theorem unflushed_flush (kept : ¬ replacesMarker archive fates) :
    (archive.flush fates).1.unflushed = archive.unflushed := by
  have frame := frame_flushWrote archive fates
  unfold replacesMarker at kept
  rw [flush_eq]
  cases isEnd : flushEnd archive fates with
  | died => exact frame.1
  | written =>
      simp only [isEnd] at kept
      simp only [if_neg kept]
  | failed =>
      simp only [isEnd] at kept
      simp only [Archive.markUnflushed]
      split
      · exact frame.1
      · rw [if_neg kept]
        exact frame.1

/-- What is held and not landed is put back by a flush that fails. -/
theorem mem_putBack (isFailed : flushEnd archive fates = .failed) {lost : Payload}
    (held : lost ∈ archive.buffered) (unwritten : Unwritten (flushEntries archive fates) lost) :
    lost ∈ putBack archive fates := by
  have ended := ended_commitOrReturn (groupBy Payload.partition archive.buffered) fates.payloads
    (emptied archive)
  obtain ⟨group, isGroup, inGroup⟩ := List.mem_flatMap.mp
    ((perm_flatMap_groupBy Payload.partition archive.buffered).mem_iff.mpr held)
  have isPartition : group.1 = lost.partition := by
    have isFilter := @eq_filter_of_mem_groupBy _ _ _ Payload.partition archive.buffered group.1
      group.2 isGroup
    rw [isFilter] at inGroup
    exact (of_decide_eq_true (List.mem_filter.mp inGroup).2).symm
  have notThere : ¬ WrittenIn (landed ((groupBy Payload.partition archive.buffered).map
      payloadSegment) fates.payloads (emptied archive)) group.1 lost := by
    rintro ⟨entry, isEntry, inPartition, isRow⟩
    exact unwritten entry (List.mem_append_left _ isEntry) (inPartition.trans isPartition) isRow
  unfold flushEnd at isFailed
  split at ended
  · exact absurd (ended.2 group isGroup lost inGroup) notThere
  · obtain ⟨unwritten, outcome, _, places⟩ := ended
    simp only [putBack, outcome]
    exact (places group isGroup lost inGroup).resolve_left notThere
  · rename_i isDied
    rw [isDied] at isFailed
    cases isFailed

/-- **A flush that fails and can mark dates what it puts back.** -/
theorem marked_flush (isFailed : flushEnd archive fates = .failed) (marks : fates.marks)
    {lost : Payload} (held : lost ∈ archive.buffered)
    (unwritten : Unwritten (flushEntries archive fates) lost) :
    ∃ marker ∈ (archive.flush fates).1.unflushed, marker ≤ lost.recvMicros := by
  have isBack := mem_putBack isFailed held unwritten
  rw [flush_eq, isFailed]
  simp only [Archive.markUnflushed, Archive.earliestHeld]
  have isHeld : lost.recvMicros ∈ (putBack archive fates).map Payload.recvMicros ++
      archive.failures.map Failure.recvMicros :=
    List.mem_append_left _ (List.mem_map_of_mem isBack)
  cases isEarliest : ((putBack archive fates).map Payload.recvMicros ++
      archive.failures.map Failure.recvMicros).min? with
  | none =>
      rw [List.min?_eq_none_iff] at isEarliest
      rw [isEarliest] at isHeld
      cases isHeld
  | some earliest =>
      simp only [if_pos marks]
      exact ⟨earliest, rfl, (List.min?_eq_some_iff.mp isEarliest).2 _ isHeld⟩

end Flush

/-- A scope that is durable to something is durable to something last. -/
theorem exists_lastDurable {archive : Archive} {micros : Int}
    (named : ReceiptNamed archive.tree (scopeOf archive))
    (isDurable : DurableTo archive.tree (scopeOf archive) micros) :
    ∃ last, archive.lastDurable = some last ∧ DurableTo archive.tree (scopeOf archive) last ∧
      ∀ other, DurableTo archive.tree (scopeOf archive) other → other ≤ last := by
  have isLast := lastDurable_eq_max? named
  cases isMax : (positions archive.tree (scopeOf archive)).max? with
  | none =>
      rw [List.max?_eq_none_iff] at isMax
      have member := mem_positions.mpr isDurable
      rw [isMax] at member
      cases member
  | some last =>
      rw [isMax] at isLast
      exact ⟨last, isLast, (lastDurable_eq_some_iff named).mp isLast⟩

/-- What was dated stays so, where nothing later is landed and the marker dates no less, or where
the marker there is dates it. -/
theorem DatedBy.extend {before after : Archive} {entries : List (Segments.Path × ArchiveFile)}
    {micros : Int} (dated : DatedBy before micros)
    (named : ReceiptNamed before.tree (scopeOf before)) (scope : scopeOf after = scopeOf before)
    (wrote : Extends (scopeOf before) before.tree after.tree entries)
    (keeps : (∃ marker ∈ after.unflushed, marker ≤ micros) ∨
      NoneLater (scopeOf before) entries micros ∧ (after.unflushed = before.unflushed ∨
        ∀ durable ∈ before.lastDurable, durable ≤ micros)) : DatedBy after micros := by
  obtain ⟨durable, isDurable, dates⟩ := dated
  obtain ⟨holds, furthest⟩ := (lastDurable_eq_some_iff named).mp isDurable
  have namedAfter := wrote.named
  have durableAfter := wrote.keeps durable holds
  rw [← scope] at namedAfter durableAfter
  obtain ⟨last, isLast, lastHolds, _⟩ := exists_lastDurable namedAfter durableAfter
  refine ⟨last, isLast, ?_⟩
  rcases keeps with marked | ⟨noneLater, replaced⟩
  · exact .inr marked
  · rw [scope] at lastHolds
    rcases wrote.only last lastHolds with before | ⟨entry, isEntry, under, row, isRow, isMoment⟩
    · have bounded := furthest last before
      rcases replaced with same | early
      · rcases dates with early | marked
        · exact .inl (bounded.trans early)
        · rw [same]
          exact .inr marked
      · exact .inl (bounded.trans (early durable isDurable))
    · have bounded := noneLater entry isEntry under row isRow
      rw [isMoment] at bounded
      exact .inl bounded

/-! ## Runs -/

/-- What every run of a handle keeps, from the handle it opened. -/
structure HandleRun.Sound (opened : Archive) (run : HandleRun) : Prop where
  scope : scopeOf run.archive = scopeOf opened
  wrote : Wrote opened run.archive run.entries
  named : ReceiptNamed run.archive.tree (scopeOf opened)
  inRange : HeldInRange run.archive
  dated : ∀ lost ∈ run.received, Under (scopeOf opened) lost.partition →
    Unwritten run.entries lost → DatedBy run.archive lost.recvMicros

section Steps

variable {opened : Archive} {run : HandleRun}

theorem Unwritten.left {entries others : List (Segments.Path × ArchiveFile)} {lost : Payload}
    (unwritten : Unwritten (entries ++ others) lost) : Unwritten entries lost :=
  fun entry isEntry => unwritten entry (List.mem_append_left _ isEntry)

theorem Unwritten.right {entries others : List (Segments.Path × ArchiveFile)} {lost : Payload}
    (unwritten : Unwritten (entries ++ others) lost) : Unwritten others lost :=
  fun entry isEntry => unwritten entry (List.mem_append_right _ isEntry)

/-- A payload that is buffered leaves what was dated, and is dated itself. -/
theorem sound_append_streamed (sound : run.Sound opened) {payload : Payload} {fate : WriteFate}
    (streamed : payload.origin = .streamed)
    (inRange : i64Min ≤ payload.recvMicros ∧ payload.recvMicros ≤ i64Max)
    (dates : Under (scopeOf opened) payload.partition → DatedBy run.archive payload.recvMicros) :
    HandleRun.Sound opened
      { run with
        archive := (run.archive.append payload fate).1
        received := run.received ++ [payload]
        entries := run.entries ++ (Operation.append payload fate).segments run.archive } := by
  have appended : (run.archive.append payload fate).1 =
      { run.archive with buffered := run.archive.buffered ++ [payload] } := by
    rw [Archive.append, streamed]
  have noSegments : (Operation.append payload fate).segments run.archive = [] := by
    rw [Operation.segments, streamed]
  rw [appended, noSegments, List.append_nil]
  constructor
  case scope => exact sound.scope
  case wrote => exact ⟨sound.wrote.tree, sound.wrote.pid, sound.wrote.counts,
    sound.wrote.numbered, sound.wrote.distinct⟩
  case named => exact sound.named
  case inRange =>
    refine ⟨?_, sound.inRange.failures⟩
    intro held isHeld
    rcases List.mem_append.mp isHeld with before | isLast
    · exact sound.inRange.payloads held before
    · rw [List.mem_singleton.mp isLast]
      exact inRange
  case dated =>
    intro lost handed inScope unwritten
    rcases List.mem_append.mp handed with before | isLast
    · exact sound.dated lost before inScope unwritten
    · rw [List.mem_singleton.mp isLast] at inScope ⊢
      exact dates inScope

/-- A payload that is written at once overtakes nothing it leaves undated. -/
theorem sound_append_immediate (sound : run.Sound opened) {payload : Payload} {fate : WriteFate}
    (immediate : payload.origin ≠ .streamed) (pid : opened.pid < 2 ^ 32)
    (inRange : i64Min ≤ payload.recvMicros ∧ payload.recvMicros ≤ i64Max)
    (fits : run.archive.flushSeq + 1 < 2 ^ 64)
    (keeps : run.Keeps (.append payload fate)) :
    HandleRun.Sound opened
      { run with
        archive := (run.archive.append payload fate).1
        received := run.received ++ [payload]
        entries := run.entries ++ (Operation.append payload fate).segments run.archive } := by
  have written : (run.archive.append payload fate).1 =
      run.archive.write payload.partition [payload.recvMicros] (payloadFile [payload]) fate := by
    unfold Archive.append
    split
    · rfl
    · rfl
    · exact absurd ‹_› immediate
  have segments : (Operation.append payload fate).segments run.archive =
      if fate = .refused then []
      else
        [(⟨payload.partition, (run.archive.cursorFor [payload.recvMicros]).fileName⟩,
          payloadFile [payload])] := by
    cases isOrigin : payload.origin with
    | streamed => exact absurd isOrigin immediate
    | fetched | generated =>
        rw [Operation.segments, isOrigin]
        exact landed_singleton (payloadSegment (payload.partition, [payload])) fate run.archive
  have wellNamed : WellNamed (payloadSegment (payload.partition, [payload])) := by
    refine ⟨List.cons_ne_nil _ _, ?_, ?_⟩
    · rw [payloadSegment, rows_payloadFile]
      rfl
    · intro time isTime
      rw [List.mem_singleton.mp isTime]
      exact inRange
  have isPid : run.archive.pid < 2 ^ 32 := sound.wrote.pid ▸ pid
  have extended := extends_write wellNamed sound.named isPid fits fate
  have wrote := wrote_write run.archive (payloadSegment (payload.partition, [payload])) fate
  rw [written, segments]
  simp only [HandleRun.Keeps, sound.scope] at keeps
  constructor
  case scope => exact sound.scope
  case wrote => exact sound.wrote.trans wrote
  case named => exact extended.named
  case inRange => exact ⟨sound.inRange.payloads, sound.inRange.failures⟩
  case dated =>
    intro lost handed inScope unwritten
    rw [← sound.scope] at extended
    have extend {micros : Int} (dated : DatedBy run.archive micros) :=
      @DatedBy.extend run.archive
        (run.archive.write payload.partition [payload.recvMicros] (payloadFile [payload]) fate)
        _ micros dated (sound.scope ▸ sound.named) rfl extended
    rcases List.mem_append.mp handed with before | isLast
    · have wasDated := sound.dated lost before inScope unwritten.left
      apply extend wasDated
      by_cases refused : fate = .refused
      · rw [if_pos refused]
        exact .inr ⟨fun entry isEntry => absurd isEntry List.not_mem_nil, .inl rfl⟩
      · rw [if_neg refused]
        by_cases inside : Under (scopeOf opened) payload.partition
        · have here := keeps inside
          rw [if_neg (not_or.mpr ⟨immediate, refused⟩)] at here
          rcases here lost before inScope unwritten.left with later | marked
          · refine .inr ⟨?_, .inl rfl⟩
            intro entry isEntry _ row isRow
            rw [List.mem_singleton.mp isEntry] at isRow
            simp only [payloadSegment, rows_payloadFile, List.map_cons, List.map_nil,
              List.mem_singleton] at isRow
            rw [isRow]
            exact later
          · exact .inl marked
        · refine .inr ⟨?_, .inl rfl⟩
          intro entry isEntry under
          rw [List.mem_singleton.mp isEntry] at under
          rw [sound.scope] at under
          exact absurd under inside
    · rw [List.mem_singleton.mp isLast] at inScope unwritten ⊢
      by_cases refused : fate = .refused
      · have here := keeps inScope
        rw [if_pos (.inr refused)] at here
        apply extend here
        rw [if_pos refused]
        exact .inr ⟨fun entry isEntry => absurd isEntry List.not_mem_nil, .inl rfl⟩
      · rw [if_neg refused] at unwritten
        refine absurd ?_ (unwritten.right _ (List.mem_singleton.mpr rfl) rfl)
        rw [rows_payloadFile]
        exact List.mem_map_of_mem (List.mem_singleton.mpr rfl)

/-- A flush leaves dated whatever it leaves unwritten. -/
theorem sound_flush (sound : run.Sound opened) {fates : Archive.FlushFates}
    (pid : opened.pid < 2 ^ 32) (fits : (run.archive.flush fates).1.flushSeq < 2 ^ 64)
    (keeps : run.Keeps (.flush fates)) (alive : Bool) :
    HandleRun.Sound opened
      { run with
        archive := (run.archive.flush fates).1
        entries := run.entries ++ flushEntries run.archive fates
        alive := alive } := by
  obtain ⟨tree, isPid, counts, scope⟩ := frame_flush run.archive fates
  have wrote := wrote_flushWrote run.archive fates
  have runPid : run.archive.pid < 2 ^ 32 := sound.wrote.pid ▸ pid
  rw [counts] at fits
  have extended := extends_flushWrote sound.inRange sound.named runPid fits
  rw [← tree] at extended
  have isScope : scopeOf (run.archive.flush fates).1 = scopeOf run.archive := by
    rw [scopeOf, scope, scopeOf]
  simp only [HandleRun.Keeps, sound.scope] at keeps
  constructor
  case scope => exact isScope.trans sound.scope
  case wrote =>
    have through := sound.wrote.trans wrote
    exact ⟨tree.trans through.tree, isPid.trans through.pid, counts ▸ through.counts,
      counts ▸ through.numbered, through.distinct⟩
  case named => exact extended.named
  case inRange => exact sound.inRange.flush fates
  case dated =>
    intro lost handed inScope unwritten
    have wasDated := sound.dated lost handed inScope unwritten.left
    rw [← sound.scope] at extended
    apply wasDated.extend (sound.scope ▸ sound.named) isScope extended
    rcases keeps lost handed inScope unwritten with
      ⟨isFailed, marks, held⟩ | ⟨kept, marked⟩ | ⟨noneLater, replaced⟩
    · exact .inl (marked_flush isFailed marks held unwritten.right)
    · rw [← unflushed_flush (by simpa using kept)] at marked
      exact .inl marked
    · rw [sound.scope]
      refine .inr ⟨noneLater, ?_⟩
      by_cases replaces : replacesMarker run.archive fates = true
      · exact .inr (replaced replaces)
      · exact .inl (unflushed_flush replaces)

/-- **One thing done with a handle keeps every loss dated**, where it keeps to its guard. -/
theorem HandleRun.Sound.step (sound : run.Sound opened) {act : HandleAct} {next : HandleRun}
    (pid : opened.pid < 2 ^ 32) (inRange : act.InRange) (keeps : run.Keeps act)
    (stepped : run.step act = some next) (fits : next.archive.flushSeq < 2 ^ 64) :
    next.Sound opened := by
  unfold HandleRun.step at stepped
  split at stepped
  case isFalse => cases stepped
  case isTrue alive =>
    obtain rfl := Option.some.inj stepped
    cases act with
    | append payload fate =>
        by_cases streamed : payload.origin = .streamed
        · apply sound_append_streamed sound streamed inRange
          intro inScope
          rw [← sound.scope] at inScope
          have here := keeps inScope
          rwa [if_pos (.inl streamed)] at here
        · refine sound_append_immediate sound streamed pid inRange ?_ keeps
          have counted : (run.archive.append payload fate).1.flushSeq =
              run.archive.flushSeq + 1 := by
            unfold Archive.append
            split
            · rfl
            · rfl
            · exact absurd ‹_› streamed
          rw [← counted]
          exact fits
    | appendFailure failure =>
        constructor
        case scope => exact sound.scope
        case wrote => exact ⟨sound.wrote.tree, sound.wrote.pid, sound.wrote.counts,
          sound.wrote.numbered, sound.wrote.distinct⟩
        case named => exact sound.named
        case inRange =>
          refine ⟨sound.inRange.payloads, ?_⟩
          intro held isHeld
          rcases List.mem_append.mp isHeld with before | isLast
          · exact sound.inRange.failures held before
          · rw [List.mem_singleton.mp isLast]
            exact inRange
        case dated => exact sound.dated
    | flush fates => exact sound_flush sound pid fits keeps _

end Steps

/-- What no file of the tree holds, no segment landed since held. -/
theorem HandleRun.Sound.unwritten {opened : Archive} {run : HandleRun}
    (sound : run.Sound opened) {lost : Payload} (notDurable : NotDurable run.archive.tree lost) :
    Unwritten run.entries lost := by
  intro entry isEntry inPartition
  apply notDurable entry.1 entry.2 ?_ inPartition
  rw [sound.wrote.tree]
  exact Directory.lookup_applyAll_commits sound.wrote.distinct isEntry opened.tree

end Capture
end Datawatch
