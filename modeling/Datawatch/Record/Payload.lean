import Datawatch.Calendar
import Datawatch.Segments.Tree
import Datawatch.Wire.Event

/-!
# Payloads

One row for each payload, verbatim, in the partition of its address, kind and receipt day.
-/

namespace Datawatch
namespace Record

open Library Segments Wire Calendar

/-- One account's place in the record. -/
structure AccountAddress where
  venue : Text
  account : Text
  fingerprint : Text
deriving DecidableEq

/-- Where a payload partitions, above its kind. -/
inductive PayloadAddress
  | venue (venue : Text)
  | market (market : Text)
  | account (account : AccountAddress)
deriving DecidableEq

/-- The footer label naming a segment's account alias. -/
def accountLabel : Text := "galata.account".toList

/-- The footer label carrying the keyed fingerprint of that account's address. -/
def accountFpLabel : Text := "galata.account_fp".toList

/-- The column a record's rows are addressed in. -/
inductive Level
  | venue
  | market
deriving DecidableEq

namespace PayloadAddress

/-- The record's first column: an account's rows carry their venue there. -/
def key : PayloadAddress → Level
  | .venue _ | .account _ => .venue
  | .market _ => .market

/-- That column's value. -/
def value : PayloadAddress → Text
  | .venue name | .market name => name
  | .account inner => inner.venue

/-- What a segment of this address carries in its footer. -/
def labels : PayloadAddress → List (Text × Text)
  | .account inner => [(accountLabel, inner.account), (accountFpLabel, inner.fingerprint)]
  | .venue _ | .market _ => []

/-- The partition levels above `kind=`. -/
def display : PayloadAddress → Text
  | .venue name => "venue=".toList ++ name
  | .market name => "market=".toList ++ name
  | .account inner => "venue=".toList ++ inner.venue ++ "/account=".toList ++ inner.account

end PayloadAddress

/-- One payload as it arrived. -/
structure Payload where
  seq : UInt64
  recvMicros : Int
  address : PayloadAddress
  channel : Text
  kind : Text
  symbol : Option Text
  origin : Origin
  payload : List UInt8
deriving DecidableEq

/-- One payload that failed to normalise, sharing the sequence of the payload it refers to. -/
structure Failure where
  seq : UInt64
  recvMicros : Int
  venue : Text
  channel : Text
  account : Option AccountAddress
  kind : Text
  error : Text
deriving DecidableEq

/-- `<address>/kind=<kind>/date=<yyyy-mm-dd>` -/
def partitionOf (address : PayloadAddress) (kind : Text) (recvMicros : Int) : Text :=
  address.display ++ "/kind=".toList ++ kind ++ "/date=".toList ++ dateOf recvMicros

/-- The same, for bytes a venue sent. -/
def venuePartitionOf (venue kind : Text) (recvMicros : Int) : Text :=
  partitionOf (.venue venue) kind recvMicros

namespace Payload

def partition (payload : Payload) : Text :=
  partitionOf payload.address payload.kind payload.recvMicros

end Payload

/-- A failure lies beside the payload it refers to: the same partition, by kind. -/
def Failure.partition (failure : Failure) : Text :=
  match failure.account with
  | some account => partitionOf (.account account) failure.kind failure.recvMicros
  | none => venuePartitionOf failure.venue failure.kind failure.recvMicros

/-- A row of the record: a payload's columns, or a failure's. -/
inductive ArchiveRow
  | payload (seq : UInt64) (recvMicros : Int) (address channel : Text) (symbol : Option Text)
      (origin : Text) (payload : List UInt8)
  | failure (seq : UInt64) (recvMicros : Int) (venue channel error : Text)
deriving DecidableEq

/-- A record segment's schema: payloads by their addressing, or failures. -/
inductive ArchiveSchema
  | payload (level : Level)
  | failure
deriving DecidableEq

/-- What a committed record segment holds. -/
structure ArchiveFile where
  labels : List (Text × Text)
  file : SegmentFile ArchiveRow ArchiveSchema
deriving DecidableEq

/-- The record's tree. -/
abbrev ArchiveTree := Segments.Tree ArchiveFile

/-- The column every row group's statistics are about. -/
def ArchiveRow.recvMicros : ArchiveRow → Int
  | .payload _ recvMicros .. => recvMicros
  | .failure _ recvMicros .. => recvMicros

/-- The row a payload is stored as. -/
def Payload.row (payload : Payload) : ArchiveRow :=
  .payload payload.seq payload.recvMicros payload.address.value payload.channel payload.symbol
    payload.origin.asStr payload.payload

/-- The row a failure is stored as: the payload is not among its columns. -/
def Failure.row (failure : Failure) : ArchiveRow :=
  .failure failure.seq failure.recvMicros failure.venue failure.channel failure.error

/-- The most rows a row group holds. -/
def maxRowGroupRows : Nat := 16384

/-- Rows in row groups, in their order. -/
def rowGroups (rows : List ArchiveRow) : List (List ArchiveRow) := rows.toChunks maxRowGroupRows

/-- One partition's payloads, as what is committed for them.  The schema and the labels are
those of the first, which every payload of the partition shares. -/
def payloadFile (payloads : List Payload) : ArchiveFile :=
  { labels := (payloads.head?.map fun payload => payload.address.labels).getD []
    file :=
      { schema := .payload ((payloads.head?.map fun payload => payload.address.key).getD .venue)
        groups := rowGroups (payloads.map Payload.row) } }

/-- One partition's failures, as what is committed for them. -/
def failureFile (failures : List Failure) : ArchiveFile :=
  { labels := (failures.head?.bind fun failure =>
      failure.account.map fun account => (PayloadAddress.account account).labels).getD []
    file := { schema := .failure, groups := rowGroups (failures.map Failure.row) } }

end Record
end Datawatch
