import Datawatch.Wire.Event

/-!
# One schema per dataset

The columns a tape segment of each dataset holds, in their order.
-/

namespace Datawatch
namespace Tape

open Library Wire

/-- The type of a column. -/
inductive DataType
  | utf8
  | int64
  | uint64
  | uint32
  | boolean
  /-- `decimal(38,18)`. -/
  | price
deriving DecidableEq

/-- One column of a schema. -/
structure Field where
  name : Text
  dataType : DataType
  nullable : Bool
deriving DecidableEq

/-- The footer label naming the one venue whose rows a segment holds. -/
def venueLabel : Text := "galata.venue".toList

/-- The footer label naming the one UTC day on which every payload a segment's rows came
from was received. -/
def sourceDayLabel : Text := "galata.source_day".toList

/-- The five every row carries. -/
def commonFields : List Field :=
  [⟨"venue".toList, .utf8, false⟩, ⟨"ticker".toList, .utf8, false⟩,
    ⟨"at_micros".toList, .int64, true⟩, ⟨"recv_micros".toList, .int64, false⟩,
    ⟨"stream_seq".toList, .uint64, false⟩]

/-- What a dataset's rows carry besides. -/
def extraFields : Kind → Option (List Field)
  | .trades => some
      [⟨"price".toList, .price, false⟩, ⟨"size".toList, .price, false⟩,
        ⟨"aggressor".toList, .utf8, false⟩, ⟨"trade_id".toList, .utf8, true⟩]
  | .book => some
      [⟨"update_seq".toList, .int64, false⟩, ⟨"is_snapshot".toList, .boolean, false⟩,
        ⟨"side".toList, .utf8, false⟩, ⟨"price".toList, .price, false⟩,
        ⟨"size".toList, .price, false⟩, ⟨"level".toList, .uint32, true⟩]
  | .candles => some
      [⟨"interval".toList, .utf8, false⟩, ⟨"open".toList, .price, false⟩,
        ⟨"high".toList, .price, false⟩, ⟨"low".toList, .price, false⟩,
        ⟨"close".toList, .price, false⟩, ⟨"volume".toList, .price, false⟩,
        ⟨"trade_count".toList, .uint32, true⟩, ⟨"is_final".toList, .boolean, false⟩]
  | .funding => some
      [⟨"rate".toList, .price, false⟩, ⟨"next_micros".toList, .int64, true⟩,
        ⟨"premium".toList, .price, true⟩]
  | .quotes => some
      [⟨"bid_px".toList, .price, true⟩, ⟨"ask_px".toList, .price, true⟩,
        ⟨"bid_sz".toList, .price, true⟩, ⟨"ask_sz".toList, .price, true⟩,
        ⟨"bid_spread".toList, .price, true⟩, ⟨"ask_spread".toList, .price, true⟩]
  | .transfers => some
      [⟨"block".toList, .uint64, false⟩, ⟨"from_address".toList, .utf8, false⟩,
        ⟨"to_address".toList, .utf8, false⟩, ⟨"amount".toList, .price, false⟩,
        ⟨"tx_hash".toList, .utf8, false⟩, ⟨"log_index".toList, .uint32, false⟩]
  | .mints => some
      [⟨"block".toList, .uint64, false⟩, ⟨"holder".toList, .utf8, false⟩,
        ⟨"amount".toList, .price, false⟩, ⟨"is_issue".toList, .boolean, false⟩,
        ⟨"tx_hash".toList, .utf8, false⟩, ⟨"log_index".toList, .uint32, false⟩]
  | .marks => some
      [⟨"mark".toList, .price, true⟩, ⟨"index".toList, .price, true⟩,
        ⟨"oracle".toList, .price, true⟩, ⟨"open_interest".toList, .price, true⟩,
        ⟨"mid".toList, .price, true⟩, ⟨"premium".toList, .price, true⟩]
  | .gaps => some
      [⟨"series".toList, .utf8, false⟩, ⟨"from_micros".toList, .int64, false⟩,
        ⟨"to_micros".toList, .int64, false⟩, ⟨"cause".toList, .utf8, false⟩,
        ⟨"clipped".toList, .utf8, false⟩]
  | .unparsed => some
      [⟨"channel".toList, .utf8, false⟩, ⟨"archive_seq".toList, .uint64, false⟩,
        ⟨"error".toList, .utf8, false⟩]
  | .sessions => some
      [⟨"session_start".toList, .int64, false⟩, ⟨"session_end".toList, .int64, false⟩,
        ⟨"session_kind".toList, .utf8, false⟩, ⟨"tz".toList, .utf8, false⟩,
        ⟨"source".toList, .utf8, false⟩, ⟨"observed_at".toList, .int64, false⟩]
  | .instruments => some
      [⟨"tick_size".toList, .price, false⟩, ⟨"lot_size".toList, .price, false⟩,
        ⟨"min_size".toList, .price, false⟩, ⟨"contract_type".toList, .utf8, false⟩,
        ⟨"base".toList, .utf8, false⟩, ⟨"quote".toList, .utf8, false⟩,
        ⟨"hours".toList, .utf8, false⟩, ⟨"active".toList, .boolean, false⟩,
        ⟨"venue_index".toList, .uint32, true⟩, ⟨"ui_multiplier".toList, .price, true⟩,
        ⟨"observed_at".toList, .int64, false⟩]
  | .reorgs => some
      [⟨"from_block".toList, .uint64, false⟩, ⟨"to_block".toList, .uint64, false⟩,
        ⟨"old_hash".toList, .utf8, false⟩, ⟨"new_hash".toList, .utf8, false⟩]
  | .margin | .positions | .accounts | .fills | .fundingPayments | .ledgerUpdates | .signals =>
      none

/-- The schema of a dataset, or `none` for one the tape does not project. -/
def schemaFor (kind : Kind) : Option (List Field) :=
  (extraFields kind).map fun extra => commonFields ++ extra

/-- Whether a dataset is projected into the tape: the venue-addressed ones only. -/
def projected (kind : Kind) : Bool := kind.addressing = .venue

/-- Every dataset the tape projects. -/
def projectedKinds : List Kind := Kind.all.filter projected

/-- Every projected dataset has a schema, and no other does. -/
theorem isSome_schemaFor (kind : Kind) : (schemaFor kind).isSome = projected kind := by
  cases kind <;> rfl

theorem mem_projectedKinds {kind : Kind} : kind ∈ projectedKinds ↔ projected kind := by
  simp [projectedKinds, Kind.mem_all]

end Tape
end Datawatch
