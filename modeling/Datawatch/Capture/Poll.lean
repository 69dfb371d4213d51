import Datawatch.Capture.Take
import Datawatch.Ingest.Live
import Datawatch.Library.Transition
import Datawatch.Record.FlushOnce

/-!
# The poll loop

Capture by asking on a timer.  Every answer is archived whether or not it changed, and a poll that
does not answer is a gap from the last one that did.
-/

namespace Datawatch
namespace Capture

open Library Segments Wire Record Ingest

/-- Why a poll did not answer. -/
inductive Refusal
  /-- The venue said we are asking too often. -/
  | throttled
  /-- The venue did not answer. -/
  | unreachable
deriving DecidableEq

/-- The cause a gap carries. -/
def Refusal.cause : Refusal → GapCause
  | .throttled => .throttled
  | .unreachable => .pollFailed

/-- What one poll amounted to. -/
inductive Polled
  | answered
  | missed (fromMicros toMicros : Int) (cause : GapCause)
deriving DecidableEq

/-- A poll cadence, and the last poll that answered. -/
structure Cadence where
  intervalMicros : Int
  lastAnsweredMicros : Option Int := none

namespace Cadence

/-- A cadence, not yet started. -/
def new (intervalMicros : Int) : Cadence where
  intervalMicros := max intervalMicros 1

/-- A poll that answered. -/
def answered (cadence : Cadence) (atMicros : Int) : Cadence × Polled :=
  ({ cadence with lastAnsweredMicros := some atMicros }, .answered)

/-- A poll that did not.  The gap runs from the last poll that answered, and before any has there
is none. -/
def missed (cadence : Cadence) (atMicros : Int) (cause : GapCause) : Polled :=
  match cadence.lastAnsweredMicros with
  | none => .answered
  | some fromMicros =>
      if atMicros ≤ fromMicros then .answered else .missed fromMicros atMicros cause

end Cadence

/-- The longest a duration can be, in nanoseconds. -/
def maxDuration : Nat := 2 ^ 64 * 1_000_000_000 - 1

/-- How long to wait before the next attempt, in nanoseconds and before jitter. -/
structure Backoff where
  initial : Nat := 250_000_000
  cap : Nat := 30_000_000_000
  current : Nat := initial

namespace Backoff

/-- The next wait, doubling toward the cap and jittered either way. -/
def nextWait (backoff : Backoff) (jittered : Nat → Nat) : Backoff × Nat :=
  ({ backoff with current := min (backoff.current * 2) backoff.cap }, jittered backoff.current)

/-- An attempt succeeded. -/
def reset (backoff : Backoff) : Backoff := { backoff with current := backoff.initial }

end Backoff

/-- What a poll loop is wired with. -/
structure PollWiring where
  venue : Venue
  seam : Seam
  render : Envelope → List UInt8
  /-- The instruments a gap is attributed to. -/
  about : List Ticker
  intervalMicros : Int
  flushSecs : Nat

/-- What a run of polls did. -/
structure Polls where
  answered : Nat := 0
  missed : Nat := 0
  gaps : Nat := 0
deriving DecidableEq

/-- What becomes of one flush. -/
structure FlushOutcome where
  payloads : Nat → WriteFate
  failures : Nat → WriteFate
  marks : Bool
  removes : Bool

/-- The fates of a flush of an archive. -/
def FlushOutcome.fates (outcome : FlushOutcome) (archive : Archive) : Archive.FlushFates :=
  flushFates archive outcome.payloads outcome.failures outcome.marks outcome.removes

/-- One poll: the clock's readings, what the venue answered, what becomes of each write, and how a
wait is jittered. -/
structure PollRound where
  askedMicros : Int
  answer : Except Refusal (List UInt8)
  receivedMicros : Int
  answerFate : WriteFate
  gapFates : Nat → WriteFate
  jittered : Nat → Nat
  tendedMicros : Int
  flush : FlushOutcome

/-- Where the loop stands. -/
inductive PollPhase
  | polling
  /-- The record failed it. -/
  | failed
  | returned
deriving DecidableEq

/-- What the poll loop holds, and what it has handed over: payloads the record took, gaps to be
recorded, events to the sink, and waits. -/
structure PollLoop where
  archive : Archive
  coverage : Coverage
  cadence : Cadence
  backoff : Backoff := {}
  polls : Polls := {}
  lastFlushMicros : Option Int := none
  phase : PollPhase := .polling
  taken : List Payload := []
  claimed : List (Ticker × Gap) := []
  emitted : List Envelope := []
  waits : List Nat := []

/-- The gap a missed poll is. -/
def pollGap (fromMicros toMicros : Int) (cause : GapCause) : Gap where
  series := .quotes
  fromMicros := fromMicros
  toMicros := toMicros
  cause := cause
  clipped := .continuous
  dex := none

namespace PollLoop

variable (wiring : PollWiring)

/-- A loop that has not asked yet. -/
def start (archive : Archive) (clipped : Clipped) : PollLoop where
  archive := archive
  coverage := { clipped }
  cadence := .new wiring.intervalMicros

/-- The venue answered: archive, normalise and emit, and only then count it. -/
def answered (loop : PollLoop) (round : PollRound) (bytes : List UInt8) : PollLoop :=
  let payload := { wiring.seam.classify bytes round.receivedMicros with
    seq := .ofNat loop.archive.nextSeq }
  match ingest wiring.seam.generatedEnvelope wiring.seam.normaliser payload round.answerFate
      loop.archive with
  | (archive, none) => { loop with archive := archive, phase := .failed }
  | (archive, some ingested) =>
      { loop with
        archive := archive
        coverage := wiring.seam.take payload loop.coverage
        cadence := (loop.cadence.answered round.askedMicros).1
        backoff := loop.backoff.reset
        polls := { loop.polls with answered := loop.polls.answered + 1 }
        taken := loop.taken ++ [payload]
        emitted := loop.emitted ++ ingested.emitted }

/-- Record the gap, then emit it.  A gap that could not be recorded is only logged. -/
def publishGap (loop : PollLoop) (ticker : Ticker) (gap : Gap) (fate : WriteFate) : PollLoop :=
  let envelope := Envelope.new wiring.venue ticker (some gap.fromMicros) gap.toMicros (.gap gap)
  let polls := { loop.polls with gaps := loop.polls.gaps + 1 }
  match recordGeneratedAt wiring.render (.venue wiring.venue.text) envelope fate loop.archive with
  | (archive, none) =>
      { loop with archive := archive, polls := polls, claimed := loop.claimed ++ [(ticker, gap)] }
  | (archive, some ingested) =>
      { loop with
        archive := archive
        polls := polls
        claimed := loop.claimed ++ [(ticker, gap)]
        taken := loop.taken ++ [generatedPayload wiring.render (.venue wiring.venue.text)
          (envelope.stamped (.ofNat loop.archive.nextSeq))]
        emitted := loop.emitted ++ ingested.emitted }

/-- A gap of each instrument, in their order. -/
def publishGaps (gap : Gap) : List Ticker → (Nat → WriteFate) → PollLoop → PollLoop
  | [], _, loop => loop
  | ticker :: about, fates, loop =>
      publishGaps gap about (fun index => fates (index + 1))
        (loop.publishGap wiring ticker gap (fates 0))

/-- The poll was not answered. -/
def missed (loop : PollLoop) (round : PollRound) (refusal : Refusal) : PollLoop :=
  let counted := { loop with polls := { loop.polls with missed := loop.polls.missed + 1 } }
  match loop.cadence.missed round.askedMicros refusal.cause with
  | .answered => counted
  | .missed fromMicros toMicros cause =>
      publishGaps wiring (pollGap fromMicros toMicros cause) wiring.about round.gapFates counted

/-- How long to wait after a poll, in nanoseconds.  A backoff is added to the cadence, never
instead of it. -/
def pace (loop : PollLoop) (round : PollRound) : PollLoop :=
  let wait := (max wiring.intervalMicros 1).toNat * 1000
  match round.answer with
  | .error .throttled =>
      let (backoff, longer) := loop.backoff.nextWait round.jittered
      { loop with
        backoff := backoff
        waits := loop.waits ++ [min (wait + longer) maxDuration] }
  | .error .unreachable | .ok _ => { loop with waits := loop.waits ++ [wait] }

/-- Whether the flush timer has run out. -/
def flushDue (loop : PollLoop) (nowMicros : Int) : Bool :=
  match loop.lastFlushMicros with
  | none => true
  | some last => decide (wiring.flushSecs * 1_000_000 ≤ nowMicros - last)

/-- Commit what is buffered, where it is time to. -/
def flushIfDue (loop : PollLoop) (nowMicros : Int) (outcome : FlushOutcome) : PollLoop :=
  if loop.flushDue wiring nowMicros then
    match loop.archive.flush (outcome.fates loop.archive) with
    | (archive, .done) => { loop with archive := archive, lastFlushMicros := some nowMicros }
    | (archive, _) => { loop with archive := archive, phase := .failed }
  else loop

/-- One poll, and what is due after it.  An answer the record does not take ends the loop there. -/
def round (loop : PollLoop) (round : PollRound) : PollLoop :=
  match round.answer with
  | .ok bytes =>
      let loop := loop.answered wiring round bytes
      if loop.phase = .failed then loop
      else (loop.pace wiring round).flushIfDue wiring round.tendedMicros round.flush
  | .error refusal =>
      ((loop.missed wiring round refusal).pace wiring round).flushIfDue wiring round.tendedMicros
        round.flush

/-- The loop is told to stop: flush, then mark the shutdown, where the marker can be written. -/
def shutdown (loop : PollLoop) (nowMicros : Int) (outcome : FlushOutcome) (writes : Bool) :
    PollLoop :=
  match loop.archive.flush (outcome.fates loop.archive) with
  | (archive, .done) =>
      { loop with
        archive :=
          { archive with
            cleanShutdown := if writes then some nowMicros else archive.cleanShutdown }
        phase := .returned }
  | (archive, _) => { loop with archive := archive, phase := .failed }

/-- What happens to the loop next. -/
inductive Event
  | round (round : PollRound)
  | cancelled (nowMicros : Int) (flush : FlushOutcome) (writes : Bool)

/-- What the loop makes of it, while it polls. -/
def step (loop : PollLoop) : Event → Option PollLoop
  | .round round =>
      if loop.phase = .polling then some (loop.round wiring round) else none
  | .cancelled nowMicros flush writes =>
      if loop.phase = .polling then some (loop.shutdown nowMicros flush writes) else none

end PollLoop

end Capture
end Datawatch
