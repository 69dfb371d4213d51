import Datawatch.Ingest.Live
import Datawatch.Replay.Partition

/-!
# What a frame is recorded as

A frame's channel is read from its envelope and its kind from a table, and a channel the table
does not know is its own kind.
-/

namespace Datawatch
namespace Hyperliquid

open Library Segments Wire Record

/-- The venue's own name. -/
def venueName : Text := "hyperliquid".toList

/-- A frame's envelope: the channel, and what `data` is, uninterpreted. -/
structure Peek (Raw : Type u) where
  channel : Option Text
  data : Option Raw

/-- How frames are read as JSON: an envelope, and the symbol of its `data`. -/
structure Reader (Raw : Type u) where
  peek : List UInt8 → Option (Peek Raw)
  symbolOf : Raw → Option Text

variable {Raw : Type u}

/-- A frame's channel and the venue's own symbol; a frame that cannot be read is not discarded. -/
def envelopeOf (reader : Reader Raw) (bytes : List UInt8) : Text × Option Text :=
  match reader.peek bytes with
  | none => ("unknown".toList, none)
  | some peek => (peek.channel.getD "unknown".toList, peek.data.bind reader.symbolOf)

/-- The series a channel carries. -/
def seriesOfChannel (channel : Text) : Option Series :=
  if channel = "trades".toList then some .trades
  else if channel = "bbo".toList then some .quotes
  else if channel = "l2Book".toList then some .book
  else if channel = "candle".toList ∨ channel = "candleSnapshot".toList then some .candles
  else if channel = "activeAssetCtx".toList ∨ channel = "fundingHistory".toList then some .funding
  else none

/-- The kind a channel partitions under: the venue's own name for it, where no table knows it. -/
def kindOfChannel (channel : Text) : Text :=
  ((seriesOfChannel channel).map Series.asStr).getD channel

/-- The payload a frame is recorded as. -/
def classify (reader : Reader Raw) (bytes : List UInt8) (recvMicros : Int) : Payload :=
  let envelope := envelopeOf reader bytes
  { seq := 0
    recvMicros := recvMicros
    address := .venue venueName
    kind := kindOfChannel envelope.1
    channel := envelope.1
    symbol := envelope.2
    origin := .streamed
    payload := bytes }

/-- Every partition of a subtree with its segments, descending only into the directories a walk
accepts by name. -/
def partitionsListedWhere {Content : Type v} (tree : Segments.Tree Content) (root : Text)
    (descends : Text → Bool) : List (Text × Listing) :=
  (partitionsListed tree root).filter fun listed =>
    ((components listed.1).drop (components root).length).all descends

end Hyperliquid
end Datawatch
