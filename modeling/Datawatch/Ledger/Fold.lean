import Datawatch.Library.Directory
import Datawatch.Ledger.Event

/-!
# Positions, basis and realised P&L

An account's books, derived from its fills and checked against what the venue states.
-/

namespace Datawatch
namespace Ledger

open Library Wire

/-- The declared tolerances: an absolute size, and a fraction of a notional. -/
structure Tolerances where
  position : ℚ
  relative : ℚ

/-- A book's cost basis: none when flat, and unknown for a position that was inherited. -/
inductive Basis
  | flat
  | known (price : ℚ)
  | unknown
deriving DecidableEq

/-- A fill's identity. -/
abbrev FillId := UInt64 × UInt64

def Fill.id (fill : Fill) : FillId := (fill.tradeId, fill.orderId)

/-- One book, folded. -/
structure Book where
  position : ℚ := 0
  basis : Basis := .flat
  realised : ℚ := 0
  realisedNotHeld : Nat := 0
  fees : ℚ := 0
  feesUnrecorded : Nat := 0
  funding : ℚ := 0
  seen : List FillId := []
  poisonedBy : Option FillId := none
  afterPoison : Nat := 0
deriving DecidableEq

/-- Where a fill's stated start position disagreed with the book. -/
structure Break where
  dex : Option Text
  ticker : Ticker
  tradeId : UInt64
  orderId : UInt64
  atMicros : Option Int
  folded : ℚ
  stated : ℚ
deriving DecidableEq

/-- Where the fold's realised P&L and the venue's disagreed beyond tolerance. -/
structure Skew where
  dex : Option Text
  ticker : Ticker
  tradeId : UInt64
  orderId : UInt64
  folded : ℚ
  stated : ℚ
  difference : ℚ
deriving DecidableEq

/-- Which figure of a snapshot disagreed. -/
inductive Quantity
  | position
  | basis
deriving DecidableEq

/-- Where a book and a snapshot disagreed beyond tolerance. -/
structure SnapshotDifference where
  dex : Option Text
  ticker : Ticker
  atMicros : Int
  quantity : Quantity
  folded : Option ℚ
  stated : Option ℚ
deriving DecidableEq

/-- What ledger updates moved in and out of one dex's perp margin. -/
structure CashFlow where
  usdc : ℚ := 0
  unknown : Nat := 0
deriving DecidableEq

/-- A book's place: its dex and its instrument. -/
abbrev Key := Option Text × Ticker

/-- What a fold holds as it goes: the books, the modes and what the checks found. -/
structure Folding where
  books : Directory Key Book := ∅
  modes : Directory Text AccountMode := ∅
  breaks : List Break := []
  skews : List Skew := []
  realisedAgreements : Nat := 0
  snapshotDifferences : List SnapshotDifference := []
  snapshotAgreements : Nat := 0
  cash : Directory Text CashFlow := ∅

namespace Folding

/-- The book under a key, an empty one where there is none. -/
def book (folding : Folding) (key : Key) : Book := (folding.books.lookup key).getD {}

end Folding

/-- A fill's size, negative where it sold. -/
def signed (fill : Fill) : ℚ :=
  match fill.side with
  | .bid => fill.size
  | .ask => -fill.size

def within (difference scale relative : ℚ) : Bool := decide (|difference| ≤ |scale| * relative)

/-- The basis of a position the venue states: the fold cannot know what it cost. -/
def Basis.stated (position : ℚ) : Basis := if position = 0 then .flat else .unknown

/-- The basis after more of the same side. -/
def Basis.add (position quantity price : ℚ) : Basis → Basis
  | .flat => .known price
  | .known basis =>
      .known ((|position| * basis + |quantity| * price) / (|position| + |quantity|))
  | .unknown => .unknown

/-- A fill's fee, or that it has none recorded. -/
def Book.charge (book : Book) : Option ℚ → Book
  | some fee => { book with fees := book.fees + fee }
  | none => { book with feesUnrecorded := book.feesUnrecorded + 1 }

section Charge

variable (book : Book) (fee : Option ℚ)

@[simp] theorem Book.charge_position : (book.charge fee).position = book.position := by
  cases fee <;> rfl

@[simp] theorem Book.charge_basis : (book.charge fee).basis = book.basis := by
  cases fee <;> rfl

@[simp] theorem Book.charge_realised : (book.charge fee).realised = book.realised := by
  cases fee <;> rfl

@[simp] theorem Book.charge_seen : (book.charge fee).seen = book.seen := by
  cases fee <;> rfl

@[simp] theorem Book.charge_poisonedBy : (book.charge fee).poisonedBy = book.poisonedBy := by
  cases fee <;> rfl

end Charge

/-- The anchor, and continuity: the venue says what the position was. -/
def anchor (tolerances : Tolerances) (row : Envelope) (fill : Fill) (fresh : Bool)
    (book : Book) : Book × List Break :=
  match fill.startPosition with
  | none => (book, [])
  | some stated =>
      if fresh then ({ book with position := stated, basis := .stated stated }, [])
      else if |book.position - stated| > tolerances.position then
        ({ book with position := stated, basis := .stated stated },
          [⟨fill.dex, fill.ticker, fill.tradeId, fill.orderId, row.atMicros, book.position, stated⟩])
      else (book, [])

/-- What a fill came to beside its book. -/
structure Checked where
  breaks : List Break := []
  skews : List Skew := []
  agreements : Nat := 0

/-- A fill against the position: what it closes is realised, and a flip opens the rest. -/
def close (tolerances : Tolerances) (fill : Fill) (book : Book) : Book × Checked :=
  let quantity := signed fill
  let position := book.position
  let closing := min |quantity| |position|
  let direction : ℚ := if 0 ≤ position then 1 else -1
  let (book, checked) : Book × Checked :=
    match book.basis with
    | .known basis =>
        let realised := closing * (fill.price - basis) * direction
        ({ book with realised := book.realised + realised },
          match fill.closedPnl with
          | none => {}
          | some stated =>
              let difference := stated - realised
              if within difference (closing * fill.price) tolerances.relative then
                { agreements := 1 }
              else
                { skews := [⟨fill.dex, fill.ticker, fill.tradeId, fill.orderId, realised, stated,
                    difference⟩] })
    | .flat | .unknown => ({ book with realisedNotHeld := book.realisedNotHeld + 1 }, {})
  let after := position + quantity
  ({ book with
      position := after
      basis :=
        if after = 0 then .flat
        -- A flip realised the whole old position; the rest opens here.
        else if decide (0 ≤ after) ≠ decide (0 ≤ position) then .known fill.price
        else book.basis }, checked)

/-- Whether a fill opens a position or adds to it. -/
def sameSide (position quantity : ℚ) : Bool :=
  decide (position = 0) || decide (0 ≤ position) == decide (0 ≤ quantity)

/-- Apply one fill to its book. -/
def apply (tolerances : Tolerances) (row : Envelope) (fill : Fill) (book : Book) :
    Book × Checked :=
  -- The first fill, not the first row: a funding payment makes a book too.
  let fresh := decide (book.seen = [])
  if book.poisonedBy.isSome then ({ book with afterPoison := book.afterPoison + 1 }, {})
  else if fill.id ∈ book.seen then (book, {})
  else
    let book := { book with seen := fill.id :: book.seen }
    if fill.size = 0 ∨ fill.price ≤ 0 then ({ book with poisonedBy := some fill.id }, {})
    else
      let (book, breaks) := anchor tolerances row fill fresh (book.charge fill.fee)
      let quantity := signed fill
      if sameSide book.position quantity then
        ({ book with
            position := book.position + quantity
            basis := book.basis.add book.position quantity fill.price }, { breaks })
      else
        let (book, checked) := close tolerances fill book
        (book, { checked with breaks })

/-- Compare one ticker of a snapshot. -/
def checkTicker (tolerances : Tolerances) (dex : Option Text) (atMicros : Int)
    (held : Directory Ticker (ℚ × Option ℚ)) (folding : Folding) (ticker : Ticker) : Folding :=
  let book := (folding.books.lookup (dex, ticker)).filter fun book => book.poisonedBy.isNone
  let folded := (book.map Book.position).getD 0
  let stated := ((held.lookup ticker).map Prod.fst).getD 0
  if ¬ |folded - stated| ≤ tolerances.position then
    { folding with snapshotDifferences := folding.snapshotDifferences ++
        [⟨dex, ticker, atMicros, .position, book.map Book.position,
          (held.lookup ticker).map Prod.fst⟩] }
  else
    let folding := { folding with snapshotAgreements := folding.snapshotAgreements + 1 }
    match book.map Book.basis, (held.lookup ticker).bind Prod.snd with
    | some (.known basis), some entry =>
        if within (basis - entry) entry tolerances.relative then
          { folding with snapshotAgreements := folding.snapshotAgreements + 1 }
        else
          { folding with snapshotDifferences := folding.snapshotDifferences ++
              [⟨dex, ticker, atMicros, .basis, some basis, some entry⟩] }
    | _, _ => folding

/-- Compare the books of a dex with a snapshot of it: the tickers either holds, in their
order. -/
def checkSnapshot (tolerances : Tolerances) (dex : Option Text) (atMicros : Int)
    (held : Directory Ticker (ℚ × Option ℚ)) (folding : Folding) : Folding :=
  let open_ := (folding.books.entries.filter fun entry =>
    entry.1.1 = dex ∧ entry.2.poisonedBy = none ∧ entry.2.position ≠ 0).map fun entry => entry.1.2
  let tickers := (held.keys ++ open_).dedup.insertionSort fun first second =>
    first.text ≤ second.text
  tickers.foldl (checkTicker tolerances dex atMicros held) folding

/-- The positions of a margin row's snapshot: the rows of its moment and dex that follow it. -/
def heldAt (dex : Option Text) (moment : Int) (rest : List Envelope) :
    Directory Ticker (ℚ × Option ℚ) :=
  (rest.takeWhile fun row => row.moment = moment).foldl
    (fun held row =>
      match row.event with
      | .position position =>
          if position.dex = dex then
            held.insert position.ticker (position.size, position.entryPrice)
          else held
      | _ => held) ∅

/-- Fold one row, with the rows that follow it. -/
def foldRow (tolerances : Tolerances) (folding : Folding) (row : Envelope)
    (rest : List Envelope) : Folding :=
  match row.event with
  | .fill fill =>
      let key := (fill.dex, fill.ticker)
      let (book, checked) := apply tolerances row fill (folding.book key)
      { folding with
        books := folding.books.insert key book
        breaks := folding.breaks ++ checked.breaks
        skews := folding.skews ++ checked.skews
        realisedAgreements := folding.realisedAgreements + checked.agreements }
  | .fundingPayment payment =>
      let key := (payment.dex, payment.ticker)
      let book := folding.book key
      { folding with
        books := folding.books.insert key { book with funding := book.funding + payment.usdc } }
  | .ledgerUpdate update =>
      match update.effect with
      | .known effects =>
          { folding with
            cash := effects.foldl
              (fun cash effect =>
                let dex := effect.dex.getD []
                let flow := (cash.lookup dex).getD {}
                cash.insert dex { flow with usdc := flow.usdc + effect.usdc }) folding.cash }
      | .unknown =>
          let flow := (folding.cash.lookup []).getD {}
          { folding with cash := folding.cash.insert [] { flow with unknown := flow.unknown + 1 } }
  | .margin margin =>
      checkSnapshot tolerances margin.dex row.moment (heldAt margin.dex row.moment rest)
        { folding with modes := folding.modes.insert (margin.dex.getD []) margin.mode }
  | .position _ | .eventsReach _ => folding

/-- Whether a row is one of a snapshot's. -/
def isSnapshot (row : Envelope) : Bool :=
  match row.event with
  | .margin _ | .position _ => true
  | _ => false

/-- Venue time, snapshots after the fills of the same moment, then receipt. -/
def foldsBefore (first second : Envelope) : Bool :=
  decide (first.moment < second.moment ∨ (first.moment = second.moment ∧
    ((isSnapshot first = false ∧ isSnapshot second = true) ∨
      (isSnapshot first = isSnapshot second ∧ first.recvMicros ≤ second.recvMicros))))

/-- The rows in the order they are folded. -/
def ordered (rows : List Envelope) : List Envelope :=
  rows.insertionSort fun first second => foldsBefore first second = true

/-- Fold rows with others still to come. -/
def foldThrough (tolerances : Tolerances) : Folding → List Envelope → List Envelope → Folding
  | folding, [], _ => folding
  | folding, row :: rows, later =>
      foldThrough tolerances (foldRow tolerances folding row (rows ++ later)) rows later

/-- One book, as reported. -/
structure BookReport where
  dex : Option Text
  ticker : Ticker
  position : Option ℚ
  basis : Basis
  realised : ℚ
  realisedNotHeld : Nat
  fees : Option ℚ
  funding : ℚ
  poisonedBy : Option FillId
  afterPoison : Nat
deriving DecidableEq

/-- A book as it is reported: without a position once poisoned, and without its fees while any
is unrecorded. -/
def Book.report (key : Key) (book : Book) : BookReport :=
  { dex := key.1
    ticker := key.2
    position := if book.poisonedBy = none then some book.position else none
    basis := book.basis
    realised := book.realised
    realisedNotHeld := book.realisedNotHeld
    fees := if book.feesUnrecorded = 0 then some book.fees else none
    funding := book.funding
    poisonedBy := book.poisonedBy
    afterPoison := book.afterPoison }

/-- Why no equity figure is composed. -/
inductive EquityNotHeld
  | noMark
  | mode (dex reason : Text)
deriving DecidableEq

/-- One account, folded and checked. -/
structure AccountFold where
  books : List BookReport
  realisedExcludes : List Text
  breaks : List Break
  skews : List Skew
  realisedAgreements : Nat
  snapshotDifferences : List SnapshotDifference
  snapshotAgreements : Nat
  cash : Directory Text CashFlow
  equityNotHeld : List EquityNotHeld

/-- The order books are reported in: the main dex first, then by name and ticker. -/
def keyBefore (first second : Key) : Bool :=
  decide ((first.1.isNone ∧ second.1.isSome) ∨
    (first.1.isSome ∧ second.1.isSome ∧ first.1.getD [] < second.1.getD []) ∨
    (first.1 = second.1 ∧ first.2.text ≤ second.2.text))

/-- Fold one account's rows. -/
def fold (rows : List Envelope) (tolerances : Tolerances) : AccountFold :=
  let folding := foldThrough tolerances {} (ordered rows) []
  { books := (folding.books.entries.insertionSort fun first second =>
      keyBefore first.1 second.1 = true).map fun entry => entry.2.report entry.1
    realisedExcludes := ["fees".toList, "funding".toList]
    breaks := folding.breaks
    skews := folding.skews
    realisedAgreements := folding.realisedAgreements
    snapshotDifferences := folding.snapshotDifferences
    snapshotAgreements := folding.snapshotAgreements
    cash := folding.cash
    equityNotHeld := .noMark ::
      (folding.modes.entries.insertionSort fun first second => first.1 ≤ second.1).filterMap
        fun entry => entry.2.equityNotHeld.map fun reason => .mode entry.1 reason }

end Ledger
end Datawatch
