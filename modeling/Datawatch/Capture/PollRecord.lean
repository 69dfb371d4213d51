import Datawatch.Capture.LostPayloads
import Datawatch.Capture.PollGaps

/-!
# What a poll loop leaves in the record

Every answer and every gap the record took is in a segment or still held, however the loop's writes
end, and a loop that returns has left nothing held.
-/

namespace Datawatch
namespace Capture

open Library Library.Transition Library.Grouping Segments Wire Record Ingest

/-- What is not unwritten is in a segment of its partition. -/
theorem writtenIn_of_not_unwritten {entries : List (Segments.Path × ArchiveFile)}
    {payload : Payload} (written : ¬ Unwritten entries payload) :
    WrittenIn entries payload.partition payload := by
  simp only [Unwritten, not_forall, not_not] at written
  obtain ⟨entry, isEntry, inPartition, isRow⟩ := written
  exact ⟨entry, isEntry, inPartition, isRow⟩

/-- Segments written since a handle was opened, and each payload of a list in one or still held. -/
def KeptSince (opened archive : Archive) (payloads : List Payload) : Prop :=
  ∃ entries, Wrote opened archive entries ∧
    ∀ payload ∈ payloads,
      WrittenIn entries payload.partition payload ∨ payload ∈ archive.buffered

section Keeping

variable {opened archive after : Archive} {payloads : List Payload}

/-- What neither writes nor lets go of what is held keeps every payload. -/
theorem KeptSince.of_wrote (kept : KeptSince opened archive payloads)
    {entries : List (Segments.Path × ArchiveFile)} (wrote : Wrote archive after entries)
    (holds : archive.buffered ⊆ after.buffered) : KeptSince opened after payloads := by
  obtain ⟨before, wroteBefore, places⟩ := kept
  refine ⟨before ++ entries, wroteBefore.trans wrote, ?_⟩
  intro payload member
  exact (places payload member).imp (fun written => written.mono (List.subset_append_left _ _))
    fun isHeld => holds isHeld

theorem KeptSince.of_unchanged (kept : KeptSince opened archive payloads)
    (tree : after.tree = archive.tree) (pid : after.pid = archive.pid)
    (flushSeq : after.flushSeq = archive.flushSeq) (buffered : after.buffered = archive.buffered) :
    KeptSince opened after payloads :=
  kept.of_wrote (.of_unchanged tree pid flushSeq) (by rw [buffered]; exact fun _ member => member)

/-- An append the record takes keeps its payload too. -/
theorem KeptSince.append (kept : KeptSince opened archive payloads) (payload : Payload)
    (fate : WriteFate) :
    KeptSince opened (archive.append payload fate).1
      (payloads ++ if (archive.append payload fate).2 then [payload] else []) := by
  have wrote : Wrote archive (archive.append payload fate).1
      ((Operation.append payload fate).segments archive) :=
    (accounted archive (.append payload fate)).wrote
  obtain ⟨before, wroteBefore, places⟩ := kept
  refine ⟨before ++ (Operation.append payload fate).segments archive, wroteBefore.trans wrote, ?_⟩
  have holds : archive.buffered ⊆ (archive.append payload fate).1.buffered := by
    unfold Archive.append
    split
    · exact List.Subset.refl _
    · exact List.Subset.refl _
    · exact List.subset_append_left _ _
  intro other member
  rcases List.mem_append.mp member with isBefore | isLast
  · exact (places other isBefore).imp
      (fun written => written.mono (List.subset_append_left _ _)) fun isHeld => holds isHeld
  · split at isLast
    case isFalse => cases isLast
    case isTrue took =>
        obtain rfl := List.mem_singleton.mp isLast
        cases isOrigin : other.origin with
        | streamed =>
            right
            simp [Archive.append, isOrigin]
        | fetched | generated =>
            left
            have committed : fate = .committed := by
              simpa [Archive.append, isOrigin, WriteFate.succeeds] using took
            subst committed
            refine WrittenIn.mono ?_ (List.subset_append_right _ _)
            simp only [Operation.segments, isOrigin, landed_singleton]
            refine ⟨_, List.mem_singleton.mpr rfl, rfl, ?_⟩
            rw [payloadSegment, rows_payloadFile]
            exact List.mem_map_of_mem (List.mem_singleton.mpr rfl)

/-- Fates enough for every write do not end a process. -/
theorem writesEnd_ne_died {count : Nat} {fates : List WriteFate} (enough : count ≤ fates.length) :
    writesEnd count fates ≠ .died := by
  induction count generalizing fates with
  | zero => simp [writesEnd]
  | succ count inductionHypothesis =>
      cases fates with
      | nil => simp at enough
      | cons fate fates =>
          rw [writesEnd]
          split
          · exact inductionHypothesis (by simpa using enough)
          · simp

theorem flushEnd_ne_died (outcome : FlushOutcome) (archive : Archive) :
    flushEnd archive (outcome.fates archive) ≠ .died := by
  unfold flushEnd FlushOutcome.fates flushFates
  simp only
  split
  · exact writesEnd_ne_died (by simp)
  · simp
  · rename_i isDied
    exact absurd isDied (writesEnd_ne_died (by simp))

/-- A flush that writes everything writes each payload it held. -/
theorem writtenIn_of_written {fates : Archive.FlushFates}
    (isEnd : flushEnd archive fates = .written) {payload : Payload}
    (isHeld : payload ∈ archive.buffered) :
    WrittenIn (flushEntries archive fates) payload.partition payload := by
  have ended := ended_commitOrReturn (groupBy Payload.partition archive.buffered) fates.payloads
    (emptied archive)
  obtain ⟨group, isGroup, inGroup⟩ := List.mem_flatMap.mp
    ((perm_flatMap_groupBy Payload.partition archive.buffered).mem_iff.mpr isHeld)
  have isPartition : group.1 = payload.partition := by
    have isFilter := @eq_filter_of_mem_groupBy _ _ _ Payload.partition archive.buffered group.1
      group.2 isGroup
    rw [isFilter] at inGroup
    exact (of_decide_eq_true (List.mem_filter.mp inGroup).2).symm
  unfold flushEnd at isEnd
  split at ended
  · rw [← isPartition]
    exact (ended.2 group isGroup payload inGroup).mono (List.subset_append_left _ _)
  · rename_i isFailed
    rw [isFailed] at isEnd
    cases isEnd
  · rename_i isDied
    rw [isDied] at isEnd
    cases isEnd

/-- A flush whose fates last keeps every payload. -/
theorem KeptSince.flush (kept : KeptSince opened archive payloads) (outcome : FlushOutcome) :
    KeptSince opened (archive.flush (outcome.fates archive)).1 payloads := by
  obtain ⟨tree, pid, flushSeq, _⟩ := frame_flush archive (outcome.fates archive)
  have wrote : Wrote archive (archive.flush (outcome.fates archive)).1
      (flushEntries archive (outcome.fates archive)) := by
    have whole := (wrote_flushWrote archive (outcome.fates archive)).trans
      (.of_unchanged tree pid flushSeq)
    rwa [List.append_nil] at whole
  obtain ⟨before, wroteBefore, places⟩ := kept
  refine ⟨before ++ flushEntries archive (outcome.fates archive), wroteBefore.trans wrote, ?_⟩
  intro payload member
  rcases places payload member with written | isHeld
  · exact .inl (written.mono (List.subset_append_left _ _))
  · by_cases unwritten : Unwritten (flushEntries archive (outcome.fates archive)) payload
    · cases isEnd : flushEnd archive (outcome.fates archive) with
      | died => exact absurd isEnd (flushEnd_ne_died outcome archive)
      | written =>
          exact .inl ((writtenIn_of_written isEnd isHeld).mono (List.subset_append_right _ _))
      | failed =>
          right
          have isBack := mem_putBack isEnd isHeld unwritten
          rw [flush_eq, isEnd]
          simp only [Archive.markUnflushed]
          split
          · exact isBack
          · split
            · exact isBack
            · exact isBack
    · exact .inl ((writtenIn_of_not_unwritten unwritten).mono (List.subset_append_right _ _))

/-- A flush that is done holds nothing. -/
theorem buffered_of_done {fates : Archive.FlushFates} (isDone : (archive.flush fates).2 = .done) :
    (archive.flush fates).1.buffered = [] := by
  have first := (frame_commitOrReturn (groupBy Payload.partition archive.buffered) fates.payloads
    (emptied archive)).2.2.1
  rcases result : Archive.commitOrReturn (groupBy Payload.partition archive.buffered)
    fates.payloads (emptied archive) with ⟨written, ended⟩
  rw [result] at first
  unfold emptied at result
  cases ended with
  | died => simp only [Archive.flush, result, reduceCtorEq] at isDone
  | failed unwritten => simp only [Archive.flush, result, reduceCtorEq] at isDone
  | done =>
      have second := (frame_commitFailures (groupBy Failure.partition archive.failures)
        fates.failures written).2.2.1
      rcases failureResult : Archive.commitFailures (groupBy Failure.partition archive.failures)
        fates.failures written with ⟨last, lastEnded⟩
      rw [failureResult] at second
      cases lastEnded with
      | died => simp only [Archive.flush, result, failureResult, reduceCtorEq] at isDone
      | failed unwritten => simp only [Archive.flush, result, failureResult, reduceCtorEq] at isDone
      | done =>
          simp only [Archive.flush, result, failureResult]
          exact second.trans first

/-- What the one path takes, the record has. -/
theorem KeptSince.ingest (kept : KeptSince opened archive payloads)
    (generatedEnvelope : List UInt8 → Except Text Envelope) (normaliser : Normaliser)
    (payload : Payload) (fate : WriteFate) :
    KeptSince opened (Ingest.ingest generatedEnvelope normaliser payload fate archive).1
      (payloads ++
        if (Ingest.ingest generatedEnvelope normaliser payload fate archive).2.isSome then
          [{ payload with seq := .ofNat archive.nextSeq }]
        else []) := by
  have numbered : KeptSince opened { archive with nextSeq := archive.nextSeq + 1 } payloads :=
    kept.of_unchanged rfl rfl rfl rfl
  have appended := numbered.append { payload with seq := .ofNat archive.nextSeq } fate
  unfold Ingest.ingest onePath
  simp only [Bool.false_eq_true, if_false]
  split
  case isTrue refused =>
      rw [refused] at appended
      exact appended
  case isFalse took =>
      rw [Bool.not_eq_false] at took
      rw [took] at appended
      split
      · exact appended
      · exact appended.of_unchanged rfl rfl rfl rfl

/-- A generated event the record takes, it has. -/
theorem KeptSince.recordGeneratedAt (kept : KeptSince opened archive payloads)
    (render : Envelope → List UInt8) (address : PayloadAddress) (envelope : Envelope)
    (fate : WriteFate) :
    KeptSince opened (Ingest.recordGeneratedAt render address envelope fate archive).1
      (payloads ++
        if (Ingest.recordGeneratedAt render address envelope fate archive).2.isSome then
          [generatedPayload render address (envelope.stamped (.ofNat archive.nextSeq))]
        else []) := by
  have numbered : KeptSince opened { archive with nextSeq := archive.nextSeq + 1 } payloads :=
    kept.of_unchanged rfl rfl rfl rfl
  have appended := numbered.append
    (generatedPayload render address (envelope.stamped (.ofNat archive.nextSeq))) fate
  unfold Ingest.recordGeneratedAt
  simp only
  split
  case isTrue took =>
      rw [took] at appended
      exact appended
  case isFalse refused =>
      rw [if_neg refused] at appended
      exact appended

end Keeping

/-- The one path stamps what it emits with the payload's number. -/
theorem seq_of_ingest {generatedEnvelope : List UInt8 → Except Text Envelope}
    {normaliser : Normaliser} {payload : Payload} {fate : WriteFate} {archive after : Archive}
    {ingested : Ingested}
    (took : Ingest.ingest generatedEnvelope normaliser payload fate archive =
      (after, some ingested)) {envelope : Envelope} (isEmitted : envelope ∈ ingested.emitted) :
    envelope.seq = .ofNat archive.nextSeq := by
  unfold Ingest.ingest onePath at took
  simp only [Bool.false_eq_true, if_false] at took
  split at took
  · cases took
  · split at took
    · obtain ⟨-, isIngested⟩ := Prod.mk.inj took
      obtain rfl := Option.some.inj isIngested
      obtain ⟨made, _, rfl⟩ := List.mem_map.mp isEmitted
      rfl
    · obtain ⟨-, isIngested⟩ := Prod.mk.inj took
      obtain rfl := Option.some.inj isIngested
      unfold emitUnparsed at isEmitted
      split at isEmitted
      · cases isEmitted
      · obtain rfl := List.mem_singleton.mp isEmitted
        rfl

/-- A generated event is emitted as it was recorded. -/
theorem seq_of_recordGeneratedAt {render : Envelope → List UInt8} {address : PayloadAddress}
    {made : Envelope} {fate : WriteFate} {archive after : Archive} {ingested : Ingested}
    (took : Ingest.recordGeneratedAt render address made fate archive = (after, some ingested))
    {envelope : Envelope} (isEmitted : envelope ∈ ingested.emitted) :
    envelope.seq = (generatedPayload render address
      (made.stamped (.ofNat archive.nextSeq))).seq := by
  unfold Ingest.recordGeneratedAt at took
  simp only at took
  split at took
  · obtain ⟨-, isIngested⟩ := Prod.mk.inj took
    obtain rfl := Option.some.inj isIngested
    obtain rfl := List.mem_singleton.mp isEmitted
    rfl
  · cases took

namespace PollLoop

variable {wiring : PollWiring} {opened : Archive}

/-- Whether every event was emitted of a payload among those taken. -/
def EmittedOf (taken : List Payload) (emitted : List Envelope) : Prop :=
  ∀ envelope ∈ emitted, ∃ payload ∈ taken, envelope.seq = payload.seq

theorem EmittedOf.append {taken : List Payload} {emitted more : List Envelope} {payload : Payload}
    (before : EmittedOf taken emitted) (here : ∀ envelope ∈ more, envelope.seq = payload.seq) :
    EmittedOf (taken ++ [payload]) (emitted ++ more) := by
  intro envelope isEmitted
  rcases List.mem_append.mp isEmitted with isBefore | isHere
  · obtain ⟨other, member, same⟩ := before envelope isBefore
    exact ⟨other, List.mem_append_left _ member, same⟩
  · exact ⟨payload, List.mem_append_right _ (List.mem_singleton.mpr rfl), here envelope isHere⟩

/-- What the loop took is in the record, what it emitted is of that, and nothing is held once it
has returned. -/
structure Kept (opened : Archive) (loop : PollLoop) : Prop where
  since : KeptSince opened loop.archive loop.taken
  emits : EmittedOf loop.taken loop.emitted
  emptied : loop.phase = .returned → loop.archive.buffered = []

/-- Only the loop's books change. -/
theorem Kept.of_unchanged {loop after : PollLoop} (kept : loop.Kept opened)
    (archive : after.archive = loop.archive) (taken : after.taken = loop.taken)
    (emitted : after.emitted = loop.emitted) (phase : after.phase = loop.phase) :
    after.Kept opened := by
  refine ⟨?_, ?_, ?_⟩
  · rw [archive, taken]
    exact kept.since
  · rw [taken, emitted]
    exact kept.emits
  · rw [archive, phase]
    exact kept.emptied

theorem kept_answered {loop : PollLoop} (kept : loop.Kept opened) (polling : loop.phase = .polling)
    (round : PollRound) (bytes : List UInt8) : (loop.answered wiring round bytes).Kept opened := by
  have ingested := kept.since.ingest wiring.seam.generatedEnvelope wiring.seam.normaliser
    { wiring.seam.classify bytes round.receivedMicros with seq := .ofNat loop.archive.nextSeq }
    round.answerFate
  unfold answered
  simp only
  split
  · rename_i archive isNone
    rw [isNone] at ingested
    refine ⟨?_, kept.emits, fun isReturned => by cases isReturned⟩
    simpa using ingested
  · rename_i archive result isSome
    rw [isSome] at ingested
    refine ⟨by simpa using ingested, ?_, fun isReturned => ?_⟩
    · exact kept.emits.append fun envelope isEmitted => seq_of_ingest isSome isEmitted
    · rw [polling] at isReturned
      cases isReturned

theorem answered_phase (loop : PollLoop) (round : PollRound) (bytes : List UInt8) :
    (loop.answered wiring round bytes).phase = .failed ∨
      (loop.answered wiring round bytes).phase = loop.phase := by
  unfold answered
  simp only
  split
  · exact .inl rfl
  · exact .inr rfl

theorem kept_publishGap {loop : PollLoop} (kept : loop.Kept opened)
    (polling : loop.phase = .polling) (ticker : Ticker) (gap : Gap) (fate : WriteFate) :
    (loop.publishGap wiring ticker gap fate).Kept opened ∧
      (loop.publishGap wiring ticker gap fate).phase = .polling := by
  have recorded := kept.since.recordGeneratedAt wiring.render (.venue wiring.venue.text)
    (.new wiring.venue ticker (some gap.fromMicros) gap.toMicros (.gap gap)) fate
  unfold publishGap
  simp only
  split
  · rename_i archive isNone
    rw [isNone] at recorded
    refine ⟨⟨by simpa using recorded, kept.emits, fun isReturned => ?_⟩, polling⟩
    rw [polling] at isReturned
    cases isReturned
  · rename_i archive result isSome
    rw [isSome] at recorded
    refine ⟨⟨by simpa using recorded, ?_, fun isReturned => ?_⟩, polling⟩
    · exact kept.emits.append fun envelope isEmitted => seq_of_recordGeneratedAt isSome isEmitted
    · rw [polling] at isReturned
      cases isReturned

theorem kept_publishGaps (gap : Gap) {loop : PollLoop} (kept : loop.Kept opened)
    (polling : loop.phase = .polling) (about : List Ticker) (fates : Nat → WriteFate) :
    (publishGaps wiring gap about fates loop).Kept opened ∧
      (publishGaps wiring gap about fates loop).phase = .polling := by
  induction about generalizing fates loop with
  | nil => exact ⟨kept, polling⟩
  | cons ticker about inductionHypothesis =>
      obtain ⟨keptHere, pollingHere⟩ := @kept_publishGap wiring _ _ kept polling ticker gap
        (fates 0)
      exact inductionHypothesis keptHere pollingHere _

theorem kept_missed {loop : PollLoop} (kept : loop.Kept opened) (polling : loop.phase = .polling)
    (round : PollRound) (refusal : Refusal) :
    (loop.missed wiring round refusal).Kept opened ∧
      (loop.missed wiring round refusal).phase = .polling := by
  have counted : Kept opened
      { loop with polls := { loop.polls with missed := loop.polls.missed + 1 } } :=
    kept.of_unchanged rfl rfl rfl rfl
  unfold missed
  simp only
  split
  · exact ⟨counted, polling⟩
  · exact kept_publishGaps _ counted polling _ _

theorem kept_pace {loop : PollLoop} (kept : loop.Kept opened) (round : PollRound) :
    (loop.pace wiring round).Kept opened ∧ (loop.pace wiring round).phase = loop.phase := by
  unfold pace
  split <;> exact ⟨kept.of_unchanged rfl rfl rfl rfl, rfl⟩

theorem kept_flushIfDue {loop : PollLoop} (kept : loop.Kept opened)
    (polling : loop.phase = .polling) (nowMicros : Int) (outcome : FlushOutcome) :
    (loop.flushIfDue wiring nowMicros outcome).Kept opened := by
  have flushed := kept.since.flush outcome
  unfold flushIfDue
  split
  · split
    · rename_i archive isDone
      rw [isDone] at flushed
      refine ⟨flushed, kept.emits, fun isReturned => ?_⟩
      rw [polling] at isReturned
      cases isReturned
    · rename_i archive ended _ isEnd
      rw [isEnd] at flushed
      exact ⟨flushed, kept.emits, fun isReturned => by cases isReturned⟩
  · exact kept

theorem kept_round {loop : PollLoop} (kept : loop.Kept opened) (polling : loop.phase = .polling)
    (round : PollRound) : (loop.round wiring round).Kept opened := by
  unfold PollLoop.round
  split
  · have keptAnswered := @kept_answered wiring _ _ kept polling round ‹_›
    simp only
    split
    case isTrue => exact keptAnswered
    case isFalse notFailed =>
        obtain ⟨keptPaced, samePhase⟩ := @kept_pace wiring _ _ keptAnswered round
        refine kept_flushIfDue keptPaced (samePhase.trans ?_) _ _
        exact (answered_phase loop round _).resolve_left notFailed |>.trans polling
  · obtain ⟨keptMissed, pollingMissed⟩ := @kept_missed wiring _ _ kept polling round ‹_›
    obtain ⟨keptPaced, samePhase⟩ := @kept_pace wiring _ _ keptMissed round
    exact kept_flushIfDue keptPaced (samePhase.trans pollingMissed) _ _

theorem kept_shutdown {loop : PollLoop} (kept : loop.Kept opened) (nowMicros : Int)
    (outcome : FlushOutcome) (writes : Bool) :
    (loop.shutdown nowMicros outcome writes).Kept opened := by
  have flushed := kept.since.flush outcome
  unfold shutdown
  split
  · rename_i archive isDone
    have nothing := @buffered_of_done loop.archive (outcome.fates loop.archive) (by rw [isDone])
    rw [isDone] at flushed nothing
    exact ⟨flushed.of_unchanged rfl rfl rfl rfl, kept.emits, fun _ => nothing⟩
  · rename_i archive ended _ isEnd
    rw [isEnd] at flushed
    exact ⟨flushed, kept.emits, fun isReturned => by cases isReturned⟩

/-- One thing that happens to the loop keeps what it took. -/
theorem kept_step {loop next : PollLoop} {event : Event} (kept : loop.Kept opened)
    (stepped : loop.step wiring event = some next) : next.Kept opened := by
  cases event with
  | round round =>
      rw [step] at stepped
      obtain ⟨polling, isNext⟩ := Option.ite_none_right_eq_some.mp stepped
      obtain rfl := Option.some.inj isNext
      exact kept_round kept polling round
  | cancelled nowMicros flush writes =>
      rw [step] at stepped
      obtain ⟨_, isNext⟩ := Option.ite_none_right_eq_some.mp stepped
      obtain rfl := Option.some.inj isNext
      exact kept_shutdown kept nowMicros flush writes

/-- **What a poll loop takes, the record has, and nothing else reaches the sink.**  In every run,
however its writes end, each answer and each gap the record took is in a committed segment or still
held; every event handed to the sink is of one of them; and once the loop has returned, every one of
them is in a segment. -/
theorem polled_recorded (wiring : PollWiring) (opened : Archive) (clipped : Clipped)
    {events : List Event} {final : PollLoop}
    (run : exec (step wiring) events (start wiring opened clipped) = some final) :
    (∀ payload ∈ final.taken,
        ¬ NotDurable final.archive.tree payload ∨ payload ∈ final.archive.buffered) ∧
      EmittedOf final.taken final.emitted ∧
        (final.phase = .returned →
          ∀ payload ∈ final.taken, ¬ NotDurable final.archive.tree payload) := by
  have initially : (start wiring opened clipped).Kept opened := by
    refine ⟨⟨[], Wrote.refl opened, ?_⟩, ?_, ?_⟩
    · intro payload member
      cases member
    · intro envelope isEmitted
      cases isEmitted
    · intro isReturned
      cases isReturned
  have kept := invariant_of_exec (fun _ _ _ kept stepped => kept_step kept stepped) initially run
  obtain ⟨entries, wrote, places⟩ := kept.since
  have durable {payload : Payload} (written : WrittenIn entries payload.partition payload) :
      ¬ NotDurable final.archive.tree payload := by
    obtain ⟨entry, isEntry, inPartition, isRow⟩ := written
    intro notDurable
    refine notDurable entry.1 entry.2 ?_ inPartition isRow
    rw [wrote.tree]
    exact Directory.lookup_applyAll_commits wrote.distinct isEntry opened.tree
  refine ⟨fun payload took => (places payload took).imp_left durable, kept.emits, ?_⟩
  intro returned payload took
  rcases places payload took with written | isHeld
  · exact durable written
  · rw [kept.emptied returned] at isHeld
    cases isHeld

/-- The outage, and then the loop is told to stop. -/
def stopped : PollLoop :=
  (exec (step polledStock) (outage.map .round ++ [.cancelled 50 .whole true])
    (start polledStock {} .continuous)).getD (start polledStock {} .continuous)

/-- Two answers and two gaps are in segments. -/
theorem polled_recorded_stopped :
    stopped.taken.length = 4 ∧
      ∀ payload ∈ stopped.taken, ¬ NotDurable stopped.archive.tree payload := by
  have ran : exec (step polledStock) (outage.map .round ++ [.cancelled 50 .whole true])
      (start polledStock {} .continuous) = some stopped := by
    have ends : (exec (step polledStock) (outage.map .round ++ [.cancelled 50 .whole true])
        (start polledStock {} .continuous)).isSome := by
      decide +kernel
    obtain ⟨final, isFinal⟩ := Option.isSome_iff_exists.mp ends
    rw [stopped, isFinal, Option.getD_some]
  have recorded := (polled_recorded polledStock {} .continuous ran).2.2
  exact ⟨by decide +kernel, recorded (by decide +kernel)⟩

end PollLoop

end Capture
end Datawatch
