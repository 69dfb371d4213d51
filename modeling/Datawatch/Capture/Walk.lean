import Datawatch.Library.Pages
import Datawatch.Segments.Cursor
import Datawatch.Wire.Event

/-!
# The boot walk

A walk plans its requests over a range of a series' history, makes them, and reports how far it
covered the range.  Which rows a page holds is the venue's to state: the newest of the range, or
the oldest at or after its start.
-/

namespace Datawatch
namespace Capture

open Library Segments Wire

/-- Which rows a page holds when more are asked for than one call returns. -/
inductive PageDirection
  | mostRecent
  | forwardFromStart
deriving DecidableEq

/-- How a venue hands back one series' history. -/
structure Paging where
  maxRowsPerCall : UInt32
  direction : PageDirection

/-- How far successive backward steps overlap: a minute. -/
def overlapMicros : Int := 60000000

/-- What the walk asked for at one width, and where the plan begins. -/
structure Ask where
  intervalMicros : Int
  askedFromMicros : Int
  venueReachMicros : Option Int
  fromMicros : Int

/-- One request the walk intends to make, at one bar width. -/
structure Step where
  series : Series
  intervalMicros : Int
  fromMicros : Int
  toMicros : Int
deriving DecidableEq

/-- One walk request that did not come back with a page. -/
structure FailedFetch where
  ticker : Ticker
  fromMicros : Int
  toMicros : Int
  error : Text

/-- How a walk ended. -/
structure WalkOutcome where
  series : Series
  intervalMicros : Int
  askedFromMicros : Int
  venueReachMicros : Option Int
  requestedFromMicros : Int
  requestedToMicros : Int
  reachedMicros : Int
  /-- Whether our own cap stopped it short. -/
  capped : Bool
  requestsMade : Nat
  forward : Bool
  failed : List FailedFetch

/-- The outcome with the requests that failed: what was reached stops at the earliest failed
start. -/
def WalkOutcome.withFailures (outcome : WalkOutcome) (failed : List FailedFetch) : WalkOutcome :=
  match (failed.map FailedFetch.fromMicros).min? with
  | some earliest =>
      { outcome with
        reachedMicros := min outcome.reachedMicros (max earliest outcome.requestedFromMicros)
        failed }
  | none => { outcome with failed }

/-- The walk's plan for one series of one venue. -/
structure Walk where
  paging : Paging
  /-- The most requests one run will make. -/
  cap : UInt32

namespace Walk

/-- The most rows one call returns. -/
def pageRows (walk : Walk) : Nat := walk.paging.maxRowsPerCall.toNat

/-- The steps from a cursor, as many as the cap leaves. -/
def stepsFrom (series : Series) (barMicros span toMicros : Int) : Nat → Int → List Step
  | 0, _ => []
  | left + 1, cursor =>
      if cursor < toMicros then
        let stop := min (cursor + span) toMicros
        ⟨series, barMicros, cursor, stop⟩ ::
          if toMicros ≤ stop then []
          -- Overlap rather than abut.
          else stepsFrom series barMicros span toMicros left (stop - overlapMicros)
      else []

/-- The steps covering a range at one bar width, each overlapping the one before. -/
def plan (walk : Walk) (series : Series) (fromMicros toMicros barMicros : Int) : List Step :=
  if toMicros ≤ fromMicros then []
  else if walk.paging.direction = .forwardFromStart then
    [⟨series, barMicros, fromMicros, toMicros⟩]
  else
    let span := walk.pageRows * barMicros
    if span ≤ 0 then []
    else stepsFrom series barMicros span toMicros walk.cap.toNat fromMicros

/-- What a plan amounts to, over so many instruments fetched at each step. -/
def outcome (walk : Walk) (series : Series) (steps : List Step) (ask : Ask) (toMicros : Int)
    (instruments : Nat) : WalkOutcome :=
  let reached := (steps.getLast?.map Step.toMicros).getD ask.fromMicros
  { series
    intervalMicros := ask.intervalMicros
    askedFromMicros := ask.askedFromMicros
    venueReachMicros := ask.venueReachMicros
    requestedFromMicros := ask.fromMicros
    requestedToMicros := toMicros
    reachedMicros := reached
    capped := decide (reached < toMicros)
    requestsMade := steps.length * instruments
    forward := walk.paging.direction = .forwardFromStart
    failed := [] }

end Walk

/-- What a walk has fetched: how many requests it made, the pages taken, and the requests that
failed. -/
structure Fetched where
  made : Nat := 0
  taken : List (Ticker × Step) := []
  failed : List FailedFetch := []

/-- One fetch of one instrument at one step: a page, or the venue's words. -/
def oneFetch (errors : Nat → Option Text) (step : Step) (fetched : Fetched) (ticker : Ticker) :
    Fetched :=
  match errors fetched.made with
  | none =>
      { fetched with
        made := fetched.made + 1
        taken := fetched.taken ++ [(ticker, step)] }
  | some error =>
      { fetched with
        made := fetched.made + 1
        failed := fetched.failed ++ [⟨ticker, step.fromMicros, step.toMicros, error⟩] }

/-- Every instrument at every step.  Which requests fail, and with which words, is the venue's,
request by request. -/
def walkSteps (errors : Nat → Option Text) (steps : List Step) (instruments : List Ticker) :
    Fetched :=
  steps.foldl (fun fetched step => instruments.foldl (oneFetch errors step) fetched) {}

/-- A backward walk of one series, and the pages it took. -/
def walkBackward (walk : Walk) (series : Series) (ask : Ask) (toMicros : Int)
    (instruments : List Ticker) (errors : Nat → Option Text) : Fetched × WalkOutcome :=
  let steps := walk.plan series ask.fromMicros toMicros ask.intervalMicros
  let fetched := walkSteps errors steps instruments
  (fetched,
    (walk.outcome series steps ask toMicros instruments.length).withFailures fetched.failed)

/-- Where a page ended: its last row's time, and how many rows it held. -/
structure PageEnd where
  lastMicros : Int
  rows : Nat

/-- What one answer's bytes hold: a page of rows, or nothing that reads as one. -/
inductive Answer (Row : Type)
  | page (rows : List Row)
  | unreadable

/-- How a venue meets one request: with the page asked for, with a refusal, or with bytes that
are not a page. -/
inductive Reply
  | page
  | failed (error : Text)
  | unreadable

/-- One instrument's history at a venue, oldest first, and how the venue meets each request for
it in turn. -/
structure Feed (Row : Type) (time : Row → Int) where
  ticker : Ticker
  history : List Row
  replies : Nat → Reply
  sorted : history.Pairwise fun first second => time first ≤ time second
  dated : ∀ row ∈ history, i64Min ≤ time row * 1000 ∧ time row * 1000 < i64Max

/-- What paging one instrument came to: the answers taken, where it got to, and the request that
failed. -/
structure Paged (Row : Type) where
  made : Nat := 0
  taken : List (Answer Row) := []
  here : Int
  capped : Bool := false
  failed : List FailedFetch := []

/-- One answer taken before the rest. -/
def Paged.after {Row : Type} (paged : Paged Row) (answer : Answer Row) : Paged Row :=
  { paged with made := paged.made + 1, taken := answer :: paged.taken }

section Forward

variable {Row : Type} {time : Row → Int}

/-- Where a funding page ended, when its bytes are a page with a row. -/
def fundingPageEnd (time : Row → Int) : Answer Row → Option PageEnd
  | .page rows => rows.getLast?.map fun last => ⟨millisToMicros (time last), rows.length⟩
  | .unreadable => none

/-- The venue's page: the oldest rows at or after the start, which is asked for in whole
milliseconds. -/
def Feed.funding (feed : Feed Row time) (pageRows : Nat) (fromMicros : Int) : List Row :=
  Pages.oldest time feed.history pageRows (fromMicros.tdiv 1000)

/-- The venue's answer to one request, by how many were made of it before. -/
def Feed.fetch (feed : Feed Row time) (pageRows pages : Nat) (fromMicros : Int) :
    Except Text (Answer Row) :=
  match feed.replies pages with
  | .page => .ok (.page (feed.funding pageRows fromMicros))
  | .failed error => .error error
  | .unreadable => .ok .unreadable

/-- The pages of one instrument, as many as the cap leaves, each from past the last row of the
one before. -/
def pageForward (feed : Feed Row time) (pageRows : Nat) (toMicros : Int) :
    Nat → Nat → Int → Int → Paged Row
  | 0, _, _, here => { here := here, capped := true }
  | left + 1, pages, fromMicros, _ =>
      match feed.fetch pageRows pages fromMicros with
      -- There is no paging past a page that never came.
      | .error error =>
          { made := 1
            here := fromMicros
            failed := [⟨feed.ticker, fromMicros, toMicros, error⟩] }
      | .ok answer =>
          match fundingPageEnd time answer with
          | none => { made := 1, taken := [answer], here := toMicros }
          | some ended =>
              -- A short page is the last page.
              if ended.rows < pageRows then { made := 1, taken := [answer], here := toMicros }
              else
                (pageForward feed pageRows toMicros left (pages + 1) (ended.lastMicros + 1)
                  ended.lastMicros).after answer

/-- Every page of one instrument a walk takes. -/
def Feed.walked (feed : Feed Row time) (pageRows cap : Nat) (ask : Ask) (toMicros : Int) :
    Paged Row :=
  pageForward feed pageRows toMicros cap 0 ask.fromMicros ask.fromMicros

/-- The point every instrument so far reached, with one more. -/
def leastReached (reached : Option Int) (paged : Paged Row) : Option Int :=
  some (match reached with
    | none => paged.here
    | some current => min current paged.here)

/-- A forward walk of one series: each instrument paged on its own, and the point every one of
them reached. -/
def walkForward (pageRows cap : Nat) (series : Series) (ask : Ask) (toMicros : Int)
    (feeds : List (Feed Row time)) : List (Paged Row) × WalkOutcome :=
  let walked := feeds.map fun feed => feed.walked pageRows cap ask toMicros
  let reached := walked.foldl leastReached none
  let outcome : WalkOutcome :=
    { series
      intervalMicros := ask.intervalMicros
      askedFromMicros := ask.askedFromMicros
      venueReachMicros := ask.venueReachMicros
      requestedFromMicros := ask.fromMicros
      requestedToMicros := toMicros
      reachedMicros := reached.getD ask.fromMicros
      capped := walked.any Paged.capped
      requestsMade := (walked.map Paged.made).sum
      forward := true
      failed := [] }
  (walked, outcome.withFailures (walked.flatMap Paged.failed))

end Forward

end Capture
end Datawatch
