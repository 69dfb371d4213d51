import Datawatch.Library.Attempt
import Datawatch.Library.Grouping
import Datawatch.Library.Inverse
import Datawatch.Library.Latest
import Datawatch.Library.PartitionPoint
import Datawatch.Segments.Cursor

/-!
# Returns between closing bars

The grid of one instrument: each bucket's closing bar, and the returns between consecutive
buckets.
-/

namespace Datawatch
namespace Derive

open Library

/-- A number of sixty-four bits and a sign. -/
def Fits (value : Int) : Prop := Segments.i64Min ≤ value ∧ value ≤ Segments.i64Max

instance (value : Int) : Decidable (Fits value) := inferInstanceAs (Decidable (_ ∧ _))

/-- A sum or a product, where it fits.  Beyond that the arithmetic overflows, which panics where
overflow is checked. -/
def checked (value : Int) : Attempt Int := if Fits value then .returns value else .panics

/-- One bar of one instrument, as the tape holds it. -/
structure Bar (Price : Type u) where
  startMicros : Int
  widthMicros : Int
  close : Price
  /-- False while it was still forming. -/
  isFinal : Bool
  recvMicros : Int
  startFits : Fits startMicros

/-- What to compute over. -/
structure Horizon where
  bucketSecs : Int
  fromMicros : Int
  /-- End, exclusive. -/
  toMicros : Int

/-- What prices are computed with. -/
structure Arithmetic (Price : Type u) where
  isPositive : Price → Bool
  divide : Price → Price → Price
  ln : Price → Price

variable {Price : Type u}

def Bar.endMicros (bar : Bar Price) : Attempt Int := checked (bar.startMicros + bar.widthMicros)

/-- Per bar width, the receipts of the forming rows, sorted. -/
def heardOf (bars : List (Bar Price)) : List (Int × List Int) :=
  (Grouping.groupBy Bar.widthMicros (bars.filter fun bar => !bar.isFinal)).map fun group =>
    (group.1, (group.2.map Bar.recvMicros).insertionSort (· ≤ ·))

/-- Whether a bar of this width was heard forming within one width of its close. -/
def heardAt (heard : List (Int × List Int)) (width close : Int) : Attempt Bool :=
  match heard.find? fun group => group.1 = width with
  | none => .returns false
  | some (_, receipts) =>
      (checked (close - width)).bind fun since =>
        match receipts[partitionPoint (· < since) receipts]? with
        | none => .returns false
        | some receipt => (checked (close + width)).bind fun limit => .returns (receipt ≤ limit)

/-- The closing bar of a slot, as it is held. -/
structure Held (Price : Type u) where
  recvMicros : Int
  close : Price
  backfilled : Bool

/-- Whether a bar that ends at a moment closes a bucket of the window. -/
def admits (horizon : Horizon) (bucket : Int) (bar : Bar Price) (endMicros : Int) : Bool :=
  -- Flagged final before its own close, its close is not the bar's.
  !(bar.recvMicros < endMicros || bar.widthMicros ≤ 0 || bucket.tmod bar.widthMicros ≠ 0 ||
    bar.startMicros < horizon.fromMicros || endMicros > horizon.toMicros ||
    endMicros % bucket ≠ 0)

/-- What a bar puts into a slot, where it does. -/
def candidate (heard : List (Int × List Int)) (horizon : Horizon) (bucket : Int)
    (bar : Bar Price) : Attempt (Option (Int × Held Price)) :=
  if bar.isFinal then
    bar.endMicros.bind fun endMicros =>
      if admits horizon bucket bar endMicros then
        (heardAt heard bar.widthMicros endMicros).bind fun near =>
          .returns (some (bar.startMicros / bucket, ⟨bar.recvMicros, bar.close, !near⟩))
      else .returns none
  else .returns none

/-- The slots once bars are placed, of those that compete for one the last heard. -/
def place (heard : List (Int × List Int)) (horizon : Horizon) (bucket : Int) :
    List (Bar Price) → Directory Int (Held Price) → Attempt (Directory Int (Held Price))
  | [], slots => .returns slots
  | bar :: bars, slots =>
      (candidate heard horizon bucket bar).bind fun entry =>
        place heard horizon bucket bars
          (entry.elim slots (Latest.keep Held.recvMicros slots))

/-- Each slot's closing bar. -/
def slots (bars : List (Bar Price)) (horizon : Horizon) : Attempt (Directory Int (Held Price)) :=
  (checked (horizon.bucketSecs * 1000000)).bind fun bucket =>
    place (heardOf bars) horizon bucket bars ∅

/-- A return, and whether it touches a backfilled bar. -/
structure Return (Price : Type u) where
  value : Price
  backfilled : Bool
deriving DecidableEq

/-- The return from one closing bar to the next. -/
def between (arithmetic : Arithmetic Price) (previous next : Held Price) : Return Price where
  value := arithmetic.ln (arithmetic.divide next.close previous.close)
  backfilled := next.backfilled || previous.backfilled

/-- The returns into slots in ascending order.  A slot is a quotient by a bucket of a second or
more, so the one after it never overflows. -/
def returnsAfter (arithmetic : Arithmetic Price) :
    Option (Σ _ : Int, Held Price) → List (Σ _ : Int, Held Price) → List (Int × Return Price)
  | _, [] => []
  | none, entry :: rest => returnsAfter arithmetic (some entry) rest
  | some previous, entry :: rest =>
      if previous.1 + 1 = entry.1 ∧ arithmetic.isPositive previous.2.close = true ∧
          arithmetic.isPositive entry.2.close = true then
        (entry.1, between arithmetic previous.2 entry.2) ::
          returnsAfter arithmetic (some entry) rest
      else returnsAfter arithmetic (some entry) rest

/-- The returns of one instrument, by slot. -/
def returns (arithmetic : Arithmetic Price) (bars : List (Bar Price)) (horizon : Horizon) :
    Attempt (List (Int × Return Price)) :=
  (slots bars horizon).bind fun held =>
    .returns (returnsAfter arithmetic none held.inOrder)

end Derive
end Datawatch
