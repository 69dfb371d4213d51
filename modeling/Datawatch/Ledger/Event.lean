import Mathlib
import Datawatch.Wire.Event

/-!
# An account's events

The rows a ledger keeps of one account: its fills, what funding and its ledger updates moved,
and the venue's own snapshots.  Amounts are exact.
-/

namespace Datawatch
namespace Ledger

open Library Wire

/-- How a venue says an account's collateral is held. -/
inductive AccountMode
  | unified
  | portfolioMargin
  | disabled
  | default
  | unknown
deriving DecidableEq

/-- Why the perp account value is not the account's equity, `none` where it is. -/
def AccountMode.equityNotHeld : AccountMode → Option Text
  | .unified => some "collateral is spot (unifiedAccount), out of scope".toList
  | .portfolioMargin => some "collateral is spot (portfolioMargin), out of scope".toList
  | .unknown => some "account mode unknown".toList
  | .disabled | .default => none

/-- An account's margin on one dex, as the venue stated it. -/
structure Margin where
  dex : Option Text
  mode : AccountMode
  /-- What else the row states, written out: only its identity reads it. -/
  rest : Text

/-- One open position, as the venue stated it.  Signed: positive is long. -/
structure Position where
  dex : Option Text
  ticker : Ticker
  size : ℚ
  entryPrice : Option ℚ
  rest : Text

/-- One fill, as the venue recorded it. -/
structure Fill where
  dex : Option Text
  ticker : Ticker
  side : Side
  price : ℚ
  size : ℚ
  /-- The position before this fill, signed. -/
  startPosition : Option ℚ
  closedPnl : Option ℚ
  fee : Option ℚ
  orderId : UInt64
  tradeId : UInt64

/-- Funding one position paid or received in one settlement, signed as the venue signs it. -/
structure FundingPayment where
  dex : Option Text
  ticker : Ticker
  usdc : ℚ
  rest : Text

/-- One movement of perp margin on one dex. -/
structure DexEffect where
  dex : Option Text
  usdc : ℚ
deriving DecidableEq

/-- What a ledger update did to perp margin. -/
inductive UpdateEffect
  | known (effects : List DexEffect)
  | unknown
deriving DecidableEq

/-- Who was on the other side of a ledger update. -/
inductive Counterparty
  | account (alias_ : Account)
  | fingerprint (fingerprint : Text)
deriving DecidableEq

structure LedgerUpdate where
  effect : UpdateEffect
  counterparty : Option Counterparty
  rest : Text

/-- What the record says about how much of a kind's history it holds. -/
inductive Reach
  | lost
  | consistent
  | unknown
deriving DecidableEq

/-- How far the ledger holds one kind of an account's history. -/
structure EventsReach where
  kind : Kind
  reach : Reach

/-- A row of an account's record. -/
inductive Event
  | margin (margin : Margin)
  | position (position : Position)
  | fill (fill : Fill)
  | fundingPayment (payment : FundingPayment)
  | ledgerUpdate (update : LedgerUpdate)
  | eventsReach (reach : EventsReach)

/-- The dataset an event belongs to. -/
def Event.kind : Event → Kind
  | .margin _ => .margin
  | .position _ => .positions
  | .fill _ => .fills
  | .fundingPayment _ => .fundingPayments
  | .ledgerUpdate _ => .ledgerUpdates
  | .eventsReach _ => .accounts

/-- An event of an account, with the venue's clock and ours. -/
structure Envelope where
  venue : Venue
  account : Account
  seq : UInt64
  atMicros : Option Int
  recvMicros : Int
  event : Event

namespace Envelope

def kind (envelope : Envelope) : Kind := envelope.event.kind

/-- The venue's clock, ours where the venue stated none. -/
def moment (envelope : Envelope) : Int := envelope.atMicros.getD envelope.recvMicros

end Envelope

end Ledger
end Datawatch
