import Datawatch.Ingest
import Datawatch.Capture.Coverage

/-!
# Taking payloads

Every payload of the live loop goes through one path, whether the stream sent it or a fill fetched
it, and covers the pairs it is of from its receipt.
-/

namespace Datawatch
namespace Capture

open Library Wire Record Ingest

/-- What taking a payload reads of the wiring: how the venue's bytes are read, and what is
declared. -/
structure Seam where
  normaliser : Normaliser
  generatedEnvelope : List UInt8 → Except Text Envelope
  classify : List UInt8 → Int → Payload
  seriesOfChannel : Text → Option Series
  venueTicker : Text → Text → Option Ticker
  declared : List Pair

namespace Seam

variable (seam : Seam)

/-- Which pairs a payload is coverage of: its own symbol's, or every declared one of its series. -/
def coveredBy (payload : Payload) (series : Series) : List Ticker :=
  match payload.symbol.bind (seam.venueTicker payload.channel) with
  | some ticker => [ticker]
  | none => (seam.declared.filter fun pair => pair.2 = series).map Prod.fst

/-- The pairs a payload covers once it is taken: none where it would not normalise. -/
def covers (payload : Payload) : List Pair :=
  match seam.seriesOfChannel payload.channel with
  | none => []
  | some series =>
      match interpret seam.generatedEnvelope seam.normaliser payload with
      | .error _ => []
      | .ok _ => (seam.coveredBy payload series).map fun ticker => (ticker, series)

/-- Whether a payload covers a pair once it is taken. -/
def credits (payload : Payload) (pair : Pair) : Bool :=
  (seam.covers payload).contains pair

theorem credits_iff {payload : Payload} {pair : Pair} :
    seam.credits payload pair = true ↔ pair ∈ seam.covers payload := List.contains_iff_mem

/-- Take one payload, as the archive numbered it. -/
def take (payload : Payload) (coverage : Coverage) : Coverage :=
  (seam.covers payload).foldl (fun coverage pair => coverage.received pair payload.recvMicros)
    coverage

end Seam

/-- One thing that happens in the live loop. -/
inductive LoopOp
  /-- A frame the venue sent. -/
  | frame (bytes : List UInt8) (nowMicros : Int)
  /-- A fill's page came back, of a range that was requested up to a moment. -/
  | page (toMicros : Int) (payload : Payload)
  | handedOver (nowMicros : Int)
  | sessionLost (nowMicros : Int)
  | askedAgain (subscriptions : List Pair) (nowMicros : Int)

/-- The ledger one thing leaves, and the gaps it publishes. -/
def LoopOp.apply (seam : Seam) (coverage : Coverage) : LoopOp → Coverage × List (Ticker × Gap)
  | .frame bytes nowMicros => (seam.take (seam.classify bytes nowMicros) coverage, [])
  | .page _ payload => (seam.take payload coverage, [])
  | .handedOver nowMicros => (coverage.handoverCompleted nowMicros, [])
  | .sessionLost nowMicros => coverage.gapsFor coverage.pairs.keys nowMicros .sessionLost
  | .askedAgain subscriptions nowMicros => coverage.askedAgain subscriptions nowMicros

/-- The ledger a run leaves. -/
def ledgerAfter (seam : Seam) (ops : List LoopOp) (coverage : Coverage) : Coverage :=
  ops.foldl (fun coverage op => (op.apply seam coverage).1) coverage

/-- The gaps a run publishes, in their order. -/
def published (seam : Seam) : List LoopOp → Coverage → List (Ticker × Gap)
  | [], _ => []
  | op :: ops, coverage =>
      (op.apply seam coverage).2 ++ published seam ops (op.apply seam coverage).1

/-- The gaps of one pair. -/
def about (pair : Pair) (gaps : List (Ticker × Gap)) : List (Ticker × Gap) :=
  gaps.filter fun row => (row.1, row.2.series) = pair

/-- The last receipt of a pair's stream, after one thing more. -/
def hear (seam : Seam) (pair : Pair) (heard : Option Int) : LoopOp → Option Int
  | .frame bytes nowMicros =>
      if seam.credits (seam.classify bytes nowMicros) pair then
        some (seam.classify bytes nowMicros).recvMicros
      else heard
  | .page .. | .handedOver _ | .sessionLost _ | .askedAgain .. => heard

/-- Whether a thing is anything but a page whose range ended at or before the last receipt of a
stream. -/
def ReachesPast (heard : Option Int) : LoopOp → Prop
  | .page toMicros _ => ∀ last, heard = some last → last < toMicros
  | .frame .. | .handedOver _ | .sessionLost _ | .askedAgain .. => True

instance (heard : Option Int) (op : LoopOp) : Decidable (ReachesPast heard op) := by
  cases op with
  | page toMicros payload =>
      exact decidable_of_iff (∀ last ∈ heard, last < toMicros) Iff.rfl
  | frame | handedOver | sessionLost | askedAgain => exact isTrue trivial

/-- A run without the pages whose range ended at or before the last receipt of a pair's stream. -/
def withoutUnreaching (seam : Seam) (pair : Pair) : Option Int → List LoopOp → List LoopOp
  | _, [] => []
  | heard, op :: ops =>
      if ReachesPast heard op then op :: withoutUnreaching seam pair (hear seam pair heard op) ops
      else withoutUnreaching seam pair (hear seam pair heard op) ops

end Capture
end Datawatch
