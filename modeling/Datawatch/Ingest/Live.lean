import Datawatch.Ingest
import Datawatch.Record.Archive

/-!
# The one path, live

Archive, then normalise, then emit.  An event this process generates is recorded as a payload of
its own before it is emitted.
-/

namespace Datawatch
namespace Ingest

open Library Segments Wire Record

variable (generatedEnvelope : List UInt8 → Except Text Envelope) (normaliser : Normaliser)

/-- The failure row of a payload that would not normalise. -/
def failureOf (payload : Payload) (error : Text) : Failure where
  seq := payload.seq
  recvMicros := payload.recvMicros
  venue := payload.address.value
  channel := payload.channel
  account :=
    match payload.address with
    | .account address => some address
    | .venue _ | .market _ => none
  kind := payload.kind
  error := error

/-- Archive, normalise and emit one payload, with the fate of its write where it is committed at
once.  `none` where the record did not take it, and then nothing is emitted. -/
def onePath (payload : Payload) (replaying : Bool) (fate : WriteFate) (archive : Archive) :
    Archive × Option Ingested :=
  let numbered :=
    if replaying then (payload, archive)
    else
      ({ payload with seq := .ofNat archive.nextSeq },
        { archive with nextSeq := archive.nextSeq + 1 })
  let appended :=
    if replaying then (numbered.2, true) else numbered.2.append numbered.1 fate
  if appended.2 = false then (appended.1, none)
  else
    match interpret generatedEnvelope normaliser numbered.1 with
    | .ok envelopes =>
        (appended.1, some ⟨envelopes.map fun envelope => envelope.stamped numbered.1.seq, false⟩)
    | .error error =>
        (if replaying then appended.1 else appended.1.appendFailure (failureOf numbered.1 error),
          some ⟨emitUnparsed normaliser numbered.1 error, true⟩)

/-- The one ingestion function. -/
def ingest (payload : Payload) (fate : WriteFate) (archive : Archive) :
    Archive × Option Ingested :=
  onePath generatedEnvelope normaliser payload false fate archive

/-- The payload a generated event is stored as. -/
def generatedPayload (render : Envelope → List UInt8) (address : PayloadAddress)
    (envelope : Envelope) : Payload where
  seq := envelope.seq
  recvMicros := envelope.recvMicros
  address := address
  channel := envelope.kind.asStr
  kind := envelope.kind.asStr
  symbol := envelope.ticker.map Token.text
  origin := .generated
  payload := render envelope

/-- Record an event this process generated, then emit it. -/
def recordGeneratedAt (render : Envelope → List UInt8) (address : PayloadAddress)
    (envelope : Envelope) (fate : WriteFate) (archive : Archive) : Archive × Option Ingested :=
  let stamped := envelope.stamped (.ofNat archive.nextSeq)
  let appended := { archive with nextSeq := archive.nextSeq + 1 }.append
    (generatedPayload render address stamped) fate
  if appended.2 then (appended.1, some ⟨[stamped], false⟩) else (appended.1, none)

end Ingest
end Datawatch
