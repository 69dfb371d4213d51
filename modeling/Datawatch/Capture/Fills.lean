import Datawatch.Capture.Walk

/-!
# Filling gaps while running

The live loop's queue of fills.  A fill asks for a range at one bar width, a page at a time and one
request at a time; a fill for a pair already queued widens that one.
-/

namespace Datawatch
namespace Capture

open Library Wire

/-- What a history fill's chain has done, carried from page to page. -/
structure HistoryFill where
  askedFromMicros : Int
  /-- Pages started across the chain. -/
  pages : Nat
  /-- Whether the page in flight is the last of a most-recent plan. -/
  lastStep : Bool
deriving DecidableEq

/-- One gap still to be asked for. -/
structure Fill where
  ticker : Ticker
  series : Series
  intervalMicros : Int
  fromMicros : Int
  /-- Not asked for before this. -/
  dueMicros : Int
  /-- Failed requests so far. -/
  attempts : Nat
  /-- Set where this fill asks a declared width's reach, rather than a gap or a settle. -/
  history : Option HistoryFill
deriving DecidableEq

/-- What a fill is the only one queued for: a ticker, a series and a width. -/
abbrev FillKey := Ticker × Series × Int

def Fill.pair (fill : Fill) : FillKey := (fill.ticker, fill.series, fill.intervalMicros)

/-- A fill widened by another of its pair. -/
def Fill.widen (queued fill : Fill) : Fill :=
  { queued with
    fromMicros := min queued.fromMicros fill.fromMicros
    dueMicros := max queued.dueMicros fill.dueMicros
    attempts := max queued.attempts fill.attempts
    history := queued.history.or fill.history }

/-- Queue a fill, one per pair. -/
def mergeInto : List Fill → Fill → List Fill
  | [], fill => [fill]
  | queued :: queue, fill =>
      if queued.pair = fill.pair then queued.widen fill :: queue
      else queued :: mergeInto queue fill

/-- A request that came back without a page. -/
structure FetchFailure where
  /-- The venue refused to pace. -/
  throttled : Bool
  retryAfterSecs : Option Nat

/-- How long to wait before asking again: the venue's word, else a minute. -/
def FetchFailure.waitSecs (failure : FetchFailure) : Nat := failure.retryAfterSecs.getD 60

/-- What a request came back with: a page, by where the adapter reads that it ended, or none. -/
abbrev FetchResult := Except FetchFailure (Option PageEnd)

/-- What the adapter and the walk's request say of fills. -/
structure FillTerms where
  paging : Series → Option Paging
  /-- How far back the venue holds a series at a width. -/
  reachMicros : Series → Int → Option Int
  venueSymbol : Ticker → Option Text
  /-- The pause a request for a range is worth. -/
  pauseMicros : Series → Int → Int → Int → Int
  /-- The most pages a chain takes, and the most failures a fill has. -/
  cap : UInt32

/-- The walk's planner for one series. -/
def FillTerms.planner (terms : FillTerms) (series : Series) : Walk where
  paging := (terms.paging series).getD ⟨0, .mostRecent⟩
  cap := terms.cap

/-- The live loop's fill queue. -/
structure Filler where
  queue : List Fill := []
  /-- The fill whose request is out. -/
  inFlight : Option Fill := none
  /-- No fill starts before this. -/
  nextStartMicros : Option Int := none
deriving DecidableEq

/-- What the loop has to say of a fill. -/
inductive Report
  /-- A page was taken, of a chain of history or of another fill. -/
  | took (pair : FillKey) (history : Bool) (fromMicros : Int)
  /-- A chain stopped at the cap. -/
  | reachedCap (pair : FillKey) (pages : Nat)
  | dropped (pair : FillKey)
  /-- The seam has no symbol for its ticker. -/
  | unnamed (pair : FillKey)
deriving DecidableEq

namespace Filler

variable (terms : FillTerms) (nowMicros : Int)

/-- Queue a fill, one per ticker, series and width. -/
def enqueue (filler : Filler) (fill : Fill) : Filler :=
  { filler with queue := mergeInto filler.queue fill }

/-- The rows of a full page, where a series is paged forward. -/
def forwardRows (series : Series) : Option Nat :=
  ((terms.paging series).filter fun paging => paging.direction = .forwardFromStart).map
    fun paging => paging.maxRowsPerCall.toNat

/-- Where a full forward page is continued from: past its last row. -/
def nextFrom (series : Series) (pageEnd : Option PageEnd) : Option Int :=
  (forwardRows terms series).bind fun full =>
    (pageEnd.filter fun last => decide (full ≤ last.rows)).map fun last => last.lastMicros + 1

/-- A fill's page came back. -/
def pageReturned (fill : Fill) (pageEnd : Option PageEnd) (filler : Filler) :
    Filler × List Report :=
  let taken := Report.took fill.pair fill.history.isSome fill.fromMicros
  match nextFrom terms fill.series pageEnd with
  | none => (filler, [taken])
  | some fromMicros =>
      if fill.history.any fun history => decide (terms.cap.toNat ≤ history.pages) then
        (filler, [.reachedCap fill.pair ((fill.history.map HistoryFill.pages).getD 0), taken])
      else
        (filler.enqueue { fill with fromMicros, dueMicros := nowMicros, attempts := 0 }, [taken])

/-- Hold every fill off, where the venue refused to pace: its limit is for all of them. -/
def holdOff (failure : FetchFailure) (filler : Filler) : Filler :=
  if failure.throttled then
    let untilMicros := nowMicros + failure.waitSecs * 1000000
    { filler with
      nextStartMicros := some ((filler.nextStartMicros.map (max untilMicros)).getD untilMicros) }
  else filler

/-- A fill's request failed: it is asked again, or dropped by name. -/
def requestFailed (fill : Fill) (failure : FetchFailure) (filler : Filler) :
    Filler × List Report :=
  let filler := holdOff nowMicros failure filler
  if terms.cap.toNat ≤ fill.attempts + 1 then (filler, [.dropped fill.pair])
  else
    (filler.enqueue
      { fill with
        attempts := fill.attempts + 1
        dueMicros :=
          if failure.throttled then nowMicros + failure.waitSecs * 1000000 else nowMicros
        -- A page that never came is not a page the chain took.
        history := fill.history.map fun history => { history with pages := history.pages - 1 } },
      [])

/-- A fill's page came back, or its request failed. -/
def fillReturned (result : FetchResult) (filler : Filler) : Filler × List Report :=
  match filler.inFlight with
  | none => (filler, [])
  | some fill =>
      let filler := { filler with inFlight := none }
      match result with
      | .ok pageEnd => pageReturned terms nowMicros fill pageEnd filler
      | .error failure => requestFailed terms nowMicros fill failure filler

/-- The fill due earliest, the first of those due at one moment. -/
def earliest : List Fill → Option Fill
  | [] => none
  | fill :: rest =>
      match earliest rest with
      | none => some fill
      | some other => if other.dueMicros < fill.dueMicros then some other else some fill

/-- The earliest due fill of a queue. -/
def due (queue : List Fill) : Option Fill :=
  earliest (queue.filter fun fill => decide (fill.dueMicros ≤ nowMicros))

/-- A fill as it is started: a history fill's start moves with the venue's reach. -/
def reached (fill : Fill) : Fill :=
  if fill.history.isSome then
    match terms.reachMicros fill.series fill.intervalMicros with
    | some reach => { fill with fromMicros := max fill.fromMicros (nowMicros - reach) }
    | none => fill
  else fill

/-- The steps a fill is asked in. -/
def steps (fill : Fill) : List Step :=
  (terms.planner fill.series).plan fill.series fill.fromMicros nowMicros fill.intervalMicros

/-- The next step of a fill, queued behind it. -/
def successor (fill : Fill) (next : Step) : Fill :=
  { fill with fromMicros := next.fromMicros, dueMicros := nowMicros, attempts := 0 }

/-- Ask a fill's first step, its next one queued behind it. -/
def launch (fill : Fill) (first : Step) (later : List Step) (filler : Filler) :
    Filler × List Report :=
  let filler :=
    match later with
    | [] => filler
    | next :: _ => filler.enqueue (successor nowMicros fill next)
  if (terms.venueSymbol fill.ticker).isSome then
    ({ filler with
        inFlight := some fill
        nextStartMicros := some (nowMicros +
          terms.pauseMicros fill.series fill.intervalMicros first.fromMicros first.toMicros) },
      [])
  else (filler, [.unnamed fill.pair])

/-- Start the first step of a fill out of the queue, unless its chain is at the cap. -/
def begin (fill : Fill) (filler : Filler) : Filler × List Report :=
  match steps terms nowMicros fill with
  | [] => (filler, [])
  | first :: later =>
      match fill.history with
      | none => launch terms nowMicros fill first later filler
      | some history =>
          if terms.cap.toNat ≤ history.pages then
            (filler, [.reachedCap fill.pair history.pages])
          else
            launch terms nowMicros
              { fill with
                history := some
                  { history with pages := history.pages + 1, lastStep := decide (later = []) } }
              first later filler

/-- Start the earliest due fill, if none is out and the pace allows. -/
def startDueFill (filler : Filler) : Filler × List Report :=
  if filler.inFlight.isSome then (filler, [])
  else if filler.nextStartMicros.any fun next => decide (nowMicros < next) then (filler, [])
  else
    match due nowMicros filler.queue with
    | none => (filler, [])
    | some fill =>
        begin terms nowMicros (reached terms nowMicros fill)
          { filler with queue := filler.queue.erase fill }

/-- One turn of the fill: take the page that came back, then start the next due fill. -/
def fillStep (answer : Option FetchResult) (filler : Filler) : Filler × List Report :=
  let returned :=
    match answer with
    | none => (filler, [])
    | some result => fillReturned terms nowMicros result filler
  let started := startDueFill terms nowMicros returned.1
  (started.1, started.2 ++ returned.2)

/-- The widths that ask for a stated need, queued as history fills: a pair, where it asks from, and
what it asked. -/
def fillHistory (asks : List (FillKey × Ask)) : Filler :=
  asks.foldl (fun filler ask =>
    filler.enqueue
      { ticker := ask.1.1
        series := ask.1.2.1
        intervalMicros := ask.1.2.2
        fromMicros := ask.2.fromMicros
        dueMicros := nowMicros
        attempts := 0
        history := some ⟨ask.2.askedFromMicros, 0, false⟩ }) {}

end Filler

end Capture
end Datawatch
