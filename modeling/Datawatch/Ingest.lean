import Datawatch.Record.Payload

/-!
# The one path, for a payload that came out of the record

A generated payload is decoded and any other is normalised by the venue's adapter.  What
will not normalise becomes an event of its own, addressed by whatever names the payload.
-/

namespace Datawatch
namespace Ingest

open Library Wire Record

/-- What an adapter makes of a payload.  A panic is caught and is an error here. -/
structure Normaliser where
  venue : Venue
  normalise : Payload → Except Text (List Envelope)

/-- What one payload came to: the envelopes emitted, and whether it would not normalise. -/
structure Ingested where
  emitted : List Envelope
  unparsed : Bool
deriving DecidableEq

/-- A channel name, made addressable. -/
def sanitise (channel : Text) : Text :=
  (channel.map fun char => if permitted char then char else '-').take maxToken

variable (generatedEnvelope : List UInt8 → Except Text Envelope) (normaliser : Normaliser)

/-- Turn a payload into events, by how the bytes came to exist. -/
def interpret (payload : Payload) : Except Text (List Envelope) :=
  match payload.origin with
  | .generated => (generatedEnvelope payload.payload).map fun envelope => [envelope]
  | .streamed | .fetched => normaliser.normalise payload

/-- The anomaly a payload that will not normalise is emitted as, where anything names it. -/
def emitUnparsed (payload : Payload) (error : Text) : List Envelope :=
  match Token.new (payload.symbol.getD (sanitise payload.channel)) with
  | none => []
  | some ticker =>
      [(Envelope.new normaliser.venue ticker none payload.recvMicros
        (.unparsed ⟨payload.channel, payload.seq.toNat, error⟩)).stamped payload.seq]

/-- Normalise and emit a replayed payload, appending nothing. -/
def ingestReplayed (payload : Payload) : Ingested :=
  match interpret generatedEnvelope normaliser payload with
  | .ok envelopes => ⟨envelopes.map fun envelope => envelope.stamped payload.seq, false⟩
  | .error error => ⟨emitUnparsed normaliser payload error, true⟩

end Ingest
end Datawatch
