import Datawatch.Segments.Cursor
import Datawatch.Wire.Dataset

/-!
# Events

What a normalised event is: two clocks, a stream position and a payload.  The
payloads of account events are never projected into the market tape, so they are
named here without their fields.
-/

namespace Datawatch
namespace Wire

open Library

/-- Venue milliseconds as microseconds, saturating. -/
def millisToMicros (millis : Int) : Int :=
  max Segments.i64Min (min (millis * 1000) Segments.i64Max)

/-- Nothing at or after a moment is before the whole millisecond it is sent as. -/
theorem tdiv_le_of_le {fromMicros millis : Int} (later : fromMicros ≤ millis * 1000) :
    fromMicros.tdiv 1000 ≤ millis := by
  rcases le_or_gt 0 fromMicros with nonneg | negative
  · rw [Int.tdiv_eq_ediv_of_nonneg nonneg]
    omega
  · rw [Int.tdiv_eq_ediv, show Int.sign 1000 = 1 from rfl]
    split
    all_goals omega

/-- The longest a token may be. -/
def maxToken : Nat := 64

/-- The characters a token may hold. -/
def permitted (char : Char) : Bool := char.isAlphanum || char = '_' || char = '-'

/-- A validated name: nonempty, bounded, and of permitted characters only. -/
structure Token where
  text : Text
  legal : text ≠ [] ∧ text.length ≤ maxToken ∧ text.all permitted
deriving DecidableEq

/-- The one constructor: `none` where the text is refused. -/
def Token.new (text : Text) : Option Token :=
  if legal : text ≠ [] ∧ text.length ≤ maxToken ∧ text.all permitted then some ⟨text, legal⟩
  else none

abbrev Venue := Token
abbrev Ticker := Token
abbrev Market := Token
abbrev Account := Token

/-- A token is what it spells. -/
theorem Token.eq_of_text {first second : Token} (same : first.text = second.text) :
    first = second := by
  cases first
  cases second
  congr

/-- How bytes came to exist. -/
inductive Origin
  | streamed
  | fetched
  | generated
deriving DecidableEq

/-- The discriminator written to disk. -/
def Origin.asStr : Origin → Text
  | .streamed => "streamed".toList
  | .fetched => "fetched".toList
  | .generated => "generated".toList

inductive Side
  | bid
  | ask
deriving DecidableEq

def Side.asStr : Side → Text
  | .bid => "bid".toList
  | .ask => "ask".toList

/-- A decimal: a mantissa over a power of ten. -/
structure Num where
  mantissa : Int
  scale : Nat
deriving DecidableEq

/-- A decimal as it is written: every digit of its scale, and a digit before the point. -/
def Num.render (num : Num) : Text :=
  let digits := Text.padNat (num.scale + 1) num.mantissa.natAbs
  let whole := digits.take (digits.length - num.scale)
  (if num.mantissa < 0 then ['-'] else []) ++ whole ++
    (if num.scale = 0 then [] else '.' :: digits.drop (digits.length - num.scale))

structure Trade where
  price : Num
  size : Num
  aggressor : Side
  tradeId : Option Text
deriving DecidableEq

structure BookLevel where
  side : Side
  price : Num
  size : Num
  level : Option Nat
deriving DecidableEq

structure Book where
  updateSeq : Int
  isSnapshot : Bool
  levels : List BookLevel
deriving DecidableEq

structure Candle where
  interval : Text
  openPx : Num
  high : Num
  low : Num
  close : Num
  volume : Num
  tradeCount : Option Nat
  isFinal : Bool
deriving DecidableEq

structure Quote where
  bidPx : Option Num
  askPx : Option Num
  bidSz : Option Num
  askSz : Option Num
  bidSpread : Option Num
  askSpread : Option Num
deriving DecidableEq

structure Transfer where
  block : Nat
  fromAddress : Text
  toAddress : Text
  amount : Num
  txHash : Text
  logIndex : Nat
deriving DecidableEq

structure Mint where
  block : Nat
  holder : Text
  amount : Num
  isIssue : Bool
  txHash : Text
  logIndex : Nat
deriving DecidableEq

structure Mark where
  mark : Option Num
  index : Option Num
  oracle : Option Num
  openInterest : Option Num
  mid : Option Num
  premium : Option Num
deriving DecidableEq

structure Funding where
  rate : Num
  nextMicros : Option Int
  premium : Option Num
deriving DecidableEq

/-- Why an absence happened. -/
inductive GapCause
  | sessionLost
  | crashUnflushed
  | downtime
  | rotationFailed
  | refused
  | pollFailed
  | throttled
  | reorg
  | beyondReach
deriving DecidableEq

def GapCause.asStr : GapCause → Text
  | .sessionLost => "session_lost".toList
  | .crashUnflushed => "crash_unflushed".toList
  | .downtime => "downtime".toList
  | .rotationFailed => "rotation_failed".toList
  | .refused => "refused".toList
  | .pollFailed => "poll_failed".toList
  | .throttled => "throttled".toList
  | .reorg => "reorg".toList
  | .beyondReach => "beyond_reach".toList

/-- How a gap was clipped to trading hours. -/
inductive Clipped
  | sessions
  | continuous
  | assumed24h
deriving DecidableEq

def Clipped.asStr : Clipped → Text
  | .sessions => "sessions".toList
  | .continuous => "continuous".toList
  | .assumed24h => "assumed-24h".toList

/-- An absence, half-open, with the reason it happened. -/
structure Gap where
  series : Series
  fromMicros : Int
  toMicros : Int
  cause : GapCause
  clipped : Clipped
  dex : Option Text
deriving DecidableEq

structure Unparsed where
  channel : Text
  archiveSeq : Nat
  error : Text
deriving DecidableEq

inductive SessionKind
  | full
  | regular
deriving DecidableEq

def SessionKind.asStr : SessionKind → Text
  | .full => "full".toList
  | .regular => "regular".toList

structure Session where
  sessionStart : Int
  sessionEnd : Int
  sessionKind : SessionKind
  tz : Text
  source : Text
  observedAt : Int
deriving DecidableEq

structure Instrument where
  tickSize : Num
  lotSize : Num
  minSize : Num
  contractType : Text
  base : Text
  quote : Text
  hours : Text
  active : Bool
  venueIndex : Option Nat
  uiMultiplier : Option Num
  observedAt : Int
deriving DecidableEq

structure Reorg where
  fromBlock : Nat
  toBlock : Nat
  oldHash : Text
  newHash : Text
deriving DecidableEq

/-- A payload.  The account events come last. -/
inductive Event
  | trade (trade : Trade)
  | book (book : Book)
  | candle (candle : Candle)
  | funding (funding : Funding)
  | quote (quote : Quote)
  | transfer (transfer : Transfer)
  | mint (mint : Mint)
  | mark (mark : Mark)
  | gap (gap : Gap)
  | unparsed (unparsed : Unparsed)
  | session (session : Session)
  | instrument (instrument : Instrument)
  | reorg (reorg : Reorg)
  | margin
  | position
  | accountSeen
  | fill
  | fundingPayment
  | ledgerUpdate
  | eventsReach
deriving DecidableEq

/-- The dataset an event belongs to. -/
def Event.kind : Event → Kind
  | .trade _ => .trades
  | .book _ => .book
  | .candle _ => .candles
  | .funding _ => .funding
  | .quote _ => .quotes
  | .transfer _ => .transfers
  | .mint _ => .mints
  | .mark _ => .marks
  | .gap _ => .gaps
  | .unparsed _ => .unparsed
  | .session _ => .sessions
  | .instrument _ => .instruments
  | .reorg _ => .reorgs
  | .margin => .margin
  | .position => .positions
  | .accountSeen | .eventsReach => .accounts
  | .fill => .fills
  | .fundingPayment => .fundingPayments
  | .ledgerUpdate => .ledgerUpdates

/-- What an event is about. -/
inductive Address
  | venue (venue : Venue) (ticker : Ticker)
  | market (market : Market)
  | account (venue : Venue) (account : Account)
deriving DecidableEq

/-- A normalised event. -/
structure Envelope where
  address : Address
  seq : UInt64
  atMicros : Option Int
  recvMicros : Int
  event : Event
deriving DecidableEq

namespace Envelope

/-- The envelope of an event at a venue, not yet stamped. -/
def new (venue : Venue) (ticker : Ticker) (atMicros : Option Int) (recvMicros : Int)
    (event : Event) : Envelope :=
  ⟨.venue venue ticker, 0, atMicros, recvMicros, event⟩

/-- The stream position, stamped where it is known. -/
def stamped (envelope : Envelope) (seq : UInt64) : Envelope := { envelope with seq := seq }

def venue (envelope : Envelope) : Option Venue :=
  match envelope.address with
  | .venue venue _ | .account venue _ => some venue
  | .market _ => none

def ticker (envelope : Envelope) : Option Ticker :=
  match envelope.address with
  | .venue _ ticker => some ticker
  | .market _ | .account _ _ => none

def kind (envelope : Envelope) : Kind := envelope.event.kind

@[simp] theorem stamped_venue (envelope : Envelope) (seq : UInt64) :
    (envelope.stamped seq).venue = envelope.venue := rfl

@[simp] theorem stamped_kind (envelope : Envelope) (seq : UInt64) :
    (envelope.stamped seq).kind = envelope.kind := rfl

end Envelope

end Wire
end Datawatch
