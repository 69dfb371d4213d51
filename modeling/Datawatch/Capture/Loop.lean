import Datawatch.Capture.Session
import Datawatch.Capture.Take

/-!
# The live loop

Connect, subscribe, and deliver frames until cancelled.  The venue, the network, the clock and the
record decide what happens next; the loop decides what it does about it.
-/

namespace Datawatch
namespace Capture

open Library Wire Record Ingest

/-- Where the loop stands. -/
inductive Phase
  /-- Nothing has been reported yet. -/
  | starting
  /-- The gap of the restart is reported, and the walk runs. -/
  | walking
  /-- The session's loop was left, and the next connection is not open. -/
  | disconnected
  /-- At the head of the session's loop. -/
  | acting
  /-- What was due is done, and the next frame is awaited. -/
  | reading
  /-- The loop has returned. -/
  | ended
deriving DecidableEq

/-- What the live loop holds.  A replacement is a second socket, held open across a handover. -/
structure Loop where
  coverage : Coverage
  held : Held
  session : Option Session := none
  replacement : Bool := false
  phase : Phase := .starting

/-- One thing that happens to the loop. -/
inductive Happening
  /-- The record answered which window was not covered before the start. -/
  | reported (window : Option (Int × Int × GapCause)) (nowMicros : Int)
  /-- A page of the walk came back, or of a fill. -/
  | page (payload : Payload)
  | connectFailed
  /-- The venue accepted the connection, and so many of the subscriptions were sent on it before
  the connection refused the rest. -/
  | connected (openedMicros : Int) (sent : List Pair) (askedMicros : Int)
  /-- The loop takes its turn: what is due is tried, and succeeds or not.  A replacement that opens
  is subscribed at a moment of its own. -/
  | turned (nowMicros : Int) (succeeds : Bool) (askedMicros : Int)
  /-- The record failed a flush, a page or a frame. -/
  | archiveFailed (nowMicros : Int)
  | frame (bytes : List UInt8) (nowMicros : Int)
  | idle
  /-- The connection closed, or failed. -/
  | lost (nowMicros : Int)
  | cancelled

namespace Loop

variable (seam : Seam) (policy : ConnectionPolicy)

/-- A loop that has done nothing. -/
def start (clipped : Clipped) : Loop where
  coverage := { clipped }
  held := { declared := seam.declared }

/-- Report what was not covered while no process was running, and the gaps to be recorded. -/
def reportRestartGap (loop : Loop) (nowMicros : Int) :
    Option (Int × Int × GapCause) → Loop × List (Ticker × Gap)
  | none =>
      ({ loop with
          coverage := loop.coverage.establish seam.declared nowMicros
          phase := .walking }, [])
  | some (fromMicros, toMicros, cause) =>
      let (coverage, gaps) := (loop.coverage.establish seam.declared fromMicros).gapsFor
        seam.declared toMicros cause
      ({ loop with coverage := coverage, phase := .walking }, gaps)

/-- Take one payload, as the archive numbered it. -/
def take (loop : Loop) (payload : Payload) : Loop :=
  { loop with
    coverage := seam.take payload loop.coverage
    held := (seam.covers payload).foldl Held.markHeld loop.held }

/-- A session begins, on which nothing has been asked for. -/
def openSession (loop : Loop) (atMicros : Int) : Loop :=
  { loop with
    session := some (Session.opened policy atMicros)
    held := loop.held.connectionLost }

/-- A connection is open: ask for what is missing, and close the tails of the gaps still open. -/
def connect (loop : Loop) (openedMicros askedMicros : Int) : Loop × List (Ticker × Gap) :=
  let fresh := loop.openSession policy openedMicros
  let toSubscribe := fresh.held.converge
  let (coverage, tails) := fresh.coverage.askedAgain toSubscribe askedMicros
  ({ fresh with
      coverage := coverage
      held := toSubscribe.foldl Held.markSent fresh.held
      phase := .acting }, tails)

/-- The session stopped delivering: each pair's gap begins at its own last covered moment. -/
def sessionLost (loop : Loop) (nowMicros : Int) : Loop × List (Ticker × Gap) :=
  let (coverage, gaps) :=
    loop.coverage.gapsFor loop.coverage.pairs.keys nowMicros .sessionLost
  ({ loop with coverage := coverage, session := none, phase := .disconnected }, gaps)

/-- What the loop's session has due. -/
def due (loop : Loop) (nowMicros : Int) : Act :=
  (loop.session.map fun session => session.act nowMicros).getD .wait

/-- Do what is due.  A keepalive that cannot be sent leaves the session's loop at once. -/
def turn (loop : Loop) (nowMicros : Int) (succeeds : Bool) : Loop :=
  match loop.due nowMicros with
  | .keepalive =>
      if succeeds then
        { loop with
          session := loop.session.map fun session => session.keepaliveSent nowMicros
          phase := .reading }
      else { loop with phase := .disconnected }
  | .openReplacement =>
      if succeeds then
        { loop with
          replacement := true
          session := loop.session.map Session.replacementSubscribed
          phase := .reading }
      else
        { loop with
          session := loop.session.map Session.replacementAbandoned
          phase := .reading }
  | .closeReplaced =>
      if loop.replacement then
        let fresh := { loop with coverage := loop.coverage.handoverCompleted nowMicros }.openSession
          policy nowMicros
        { fresh with
          replacement := false
          held := seam.declared.foldl Held.markSent fresh.held
          phase := .reading }
      else { loop with phase := .reading }
  | .wait => { loop with phase := .reading }

/-- What the loop makes of what happens, and the gaps it hands to the record; none where the thing
cannot happen there. -/
def step (loop : Loop) : Happening → Option (Loop × List (Ticker × Gap))
  | .reported window nowMicros =>
      if loop.phase = .starting then some (loop.reportRestartGap seam nowMicros window) else none
  | .page payload =>
      if loop.phase = .walking ∨ loop.phase = .reading then some (loop.take seam payload, [])
      else none
  | .connectFailed =>
      if loop.phase = .walking ∨ loop.phase = .disconnected then
        some ({ loop with phase := .disconnected }, [])
      else none
  | .connected openedMicros _ askedMicros =>
      if loop.phase = .walking ∨ loop.phase = .disconnected then
        some (loop.connect policy openedMicros askedMicros)
      else none
  | .turned nowMicros succeeds _ =>
      if loop.phase = .acting then some (loop.turn seam policy nowMicros succeeds, []) else none
  | .archiveFailed _ =>
      if loop.phase = .reading then some ({ loop with phase := .ended }, []) else none
  | .frame bytes nowMicros =>
      if loop.phase = .reading then
        some ({ loop.take seam (seam.classify bytes nowMicros) with phase := .acting }, [])
      else none
  | .idle => if loop.phase = .reading then some ({ loop with phase := .acting }, []) else none
  | .lost nowMicros => if loop.phase = .reading then some (loop.sessionLost nowMicros) else none
  | .cancelled =>
      if loop.phase = .starting ∨ loop.phase = .reading ∨ loop.phase = .ended then none
      else some ({ loop with phase := .ended }, [])

end Loop

end Capture
end Datawatch
