import Datawatch.Library.Transition
import Datawatch.Ingest.Live
import Datawatch.Replay.Recorded

/-!
# Live and replay agree

What a run ingests, in the order it ingests it, is what its record replays: the same envelopes
under the same sequences.
-/

namespace Datawatch
namespace Replay

open Library Library.Transition Segments Record Calendar Wire Ingest

variable (generatedEnvelope : List UInt8 → Except Text Envelope)
  (render : Envelope → List UInt8) (normaliser : Normaliser)

/-- A capture with an accepting sink: its record, the payloads the record took, and what was
emitted of them. -/
structure Live where
  archive : Archive := {}
  ingested : List Payload := []
  emitted : List Envelope := []

/-- What a live run does next. -/
inductive Act
  | payload (payload : Payload) (fate : WriteFate)
  | generated (address : PayloadAddress) (envelope : Envelope) (fate : WriteFate)
  | flush (fates : Archive.FlushFates)

/-- What a run holds after an ingestion: more only where the record took the payload. -/
def Live.took (live : Live) (payload : Payload) (ran : Archive × Option Ingested) : Live :=
  match ran.2 with
  | none => { live with archive := ran.1 }
  | some result =>
      { archive := ran.1
        ingested := live.ingested ++ [payload]
        emitted := live.emitted ++ result.emitted }

/-- One act.  The process does not outlive a flush it dies in. -/
def act (live : Live) : Act → Option Live
  | .payload payload fate =>
      some (live.took { payload with seq := .ofNat live.archive.nextSeq }
        (ingest generatedEnvelope normaliser payload fate live.archive))
  | .generated address envelope fate =>
      some (live.took
        (generatedPayload render address (envelope.stamped (.ofNat live.archive.nextSeq)))
        (recordGeneratedAt render address envelope fate live.archive))
  | .flush fates =>
      match (live.archive.flush fates).2 with
      | .died => none
      | .done | .failed _ => some { live with archive := (live.archive.flush fates).1 }

/-- What one payload comes to when it is replayed. -/
def emissions (payload : Payload) : List Envelope :=
  (ingestReplayed generatedEnvelope normaliser payload).emitted

section Append

variable {fromMicros toMicros : Int} {labelsOf : Text → List (Text × Text)}
  (within : i64Min ≤ fromMicros ∧ toMicros ≤ i64Max)

/-- What the archive and the sink come to after an ingestion. -/
structure Ran (generatedEnvelope : List UInt8 → Except Text Envelope) (normaliser : Normaliser)
    (labelsOf : Text → List (Text × Text)) (fromMicros toMicros : Int) (payload : Payload)
    (before : Archive) (ran : Archive × Option Ingested) : Prop where
  ready : Ready labelsOf fromMicros toMicros ran.1
  nextSeq : ran.1.nextSeq = before.nextSeq + 1
  held : (payloadsHeld ran.1.tree none fromMicros toMicros ++ ran.1.buffered).Perm
    (payloadsHeld before.tree none fromMicros toMicros ++ before.buffered ++
      if ran.2.isSome then [payload] else [])
  emitted : ∀ result, ran.2 = some result →
    result.emitted = emissions generatedEnvelope normaliser payload

variable {generatedEnvelope normaliser}

variable {render}

end Append

/-! ## A run -/

/-- An act of payloads that replay, none of whose writes is reported failed after it landed, and
of events whose encoding reads back. -/
def Act.Placed (labelsOf : Text → List (Text × Text)) (fromMicros toMicros : Int) : Act → Prop
  | .payload asked fate =>
      Replayable fromMicros toMicros asked ∧
        (asked.origin = .streamed → asked.address.labels = labelsOf asked.partition) ∧
        fate ≠ .unsynced
  | .generated address envelope fate =>
      Replayable fromMicros toMicros (generatedPayload render address envelope) ∧
        (∀ seq, generatedEnvelope (render (envelope.stamped seq)) =
          .ok (envelope.stamped seq)) ∧
        fate ≠ .unsynced
  | .flush fates => ∀ fate ∈ fates.payloads, fate ≠ .unsynced

/-- What a run keeps: every payload it ingested is in its record or its buffer, once, and what it
emitted is what each emits replayed. -/
structure LiveWell (labelsOf : Text → List (Text × Text)) (fromMicros toMicros : Int)
    (live : Live) : Prop where
  ready : Ready labelsOf fromMicros toMicros live.archive
  held : (payloadsHeld live.archive.tree none fromMicros toMicros ++
    live.archive.buffered).Perm live.ingested
  emitted : live.emitted = live.ingested.flatMap (emissions generatedEnvelope normaliser)
  numbered : live.ingested.Pairwise fun first second => first.seq < second.seq
  counted : ∀ payload ∈ live.ingested, payload.seq.toNat < live.archive.nextSeq

section Run

variable {generatedEnvelope render normaliser} {fromMicros toMicros : Int}
  {labelsOf : Text → List (Text × Text)} (within : i64Min ≤ fromMicros ∧ toMicros ≤ i64Max)

/-- What an ingestion keeps. -/
theorem LiveWell.took {live : Live}
    (well : LiveWell generatedEnvelope normaliser labelsOf fromMicros toMicros live)
    {payload : Payload} (isSeq : payload.seq = .ofNat live.archive.nextSeq)
    {ran : Archive × Option Ingested}
    (spec : Ran generatedEnvelope normaliser labelsOf fromMicros toMicros payload live.archive ran)
    (fits : ran.1.nextSeq ≤ 2 ^ 64) :
    LiveWell generatedEnvelope normaliser labelsOf fromMicros toMicros
      (live.took payload ran) := by
  obtain ⟨ready, nextSeq, held, emitted⟩ := spec
  have later : ∀ other ∈ live.ingested, other.seq.toNat < ran.1.nextSeq := by
    intro other member
    rw [nextSeq]
    exact (well.counted other member).trans (Nat.lt_succ_self _)
  have seqNat : payload.seq.toNat = live.archive.nextSeq := by
    rw [isSeq, UInt64.toNat_ofNat_of_lt']
    rw [nextSeq] at fits
    exact fits
  unfold Live.took
  split
  · rename_i isResult
    simp only [isResult, Option.isSome_none, Bool.false_eq_true, if_false,
      List.append_nil] at held
    exact ⟨ready, held.trans well.held, well.emitted, well.numbered, later⟩
  · rename_i result isResult
    simp only [isResult, Option.isSome_some, if_true] at held
    refine ⟨ready, held.trans (well.held.append_right _), ?_, ?_, ?_⟩
    · simp only [well.emitted, emitted result isResult, List.flatMap_append,
        List.flatMap_singleton]
    · apply List.pairwise_append.mpr
      refine ⟨well.numbered, List.pairwise_singleton _ _, ?_⟩
      intro other member last isLast
      rw [List.mem_singleton.mp isLast, UInt64.lt_iff_toNat_lt, seqNat]
      exact well.counted other member
    · intro other member
      rcases List.mem_append.mp member with old | new
      · exact later other old
      · rw [List.mem_singleton.mp new, seqNat, nextSeq]
        exact Nat.lt_succ_self _

end Run

/-- A text of single bytes, as those bytes. -/
def bytesOf (text : Text) : List UInt8 := text.map fun char => .ofNat char.toNat

instance (fromMicros toMicros : Int) (payload : Payload) :
    Decidable (Replayable fromMicros toMicros payload) :=
  decidable_of_iff
    (PlainPayload payload ∧ fromMicros ≤ payload.recvMicros ∧ payload.recvMicros < toMicros)
    ⟨fun both => ⟨both.1, both.2⟩, fun replayable => ⟨replayable.plain, replayable.inRange⟩⟩

end Replay
end Datawatch
