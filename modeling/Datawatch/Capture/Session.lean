import Datawatch.Library.Directory
import Datawatch.Capture.Coverage

/-!
# Sessions

One connection's lifetime under its venue's declared policy, and what the venue has been asked for
on it.  Every moment is passed in by the loop, which owns the clock.
-/

namespace Datawatch
namespace Capture

open Library Wire

/-- How a venue's connection is replaced. -/
inductive ConnectionPolicy
  | rotateAhead (observedLifetimeSecs rotateAfterSecs keepaliveSecs : Nat)
  | keepAliveOnly (keepaliveSecs : Nat)
deriving DecidableEq

namespace ConnectionPolicy

/-- How often to send a keepalive. -/
def keepaliveSecs : ConnectionPolicy → Nat
  | .rotateAhead _ _ keepaliveSecs | .keepAliveOnly keepaliveSecs => keepaliveSecs

/-- When the handover begins, where the venue declares a lifetime. -/
def rotateAfterSecs : ConnectionPolicy → Option Nat
  | .rotateAhead _ rotateAfterSecs _ => some rotateAfterSecs
  | .keepAliveOnly _ => none

end ConnectionPolicy

/-- What a session should do next. -/
inductive Act
  | wait
  | keepalive
  | openReplacement
  | closeReplaced
deriving DecidableEq

/-- Where a session's replacement stands. -/
inductive Replacement
  | none
  | opening
  | subscribed
deriving DecidableEq

/-- One connection's lifetime under a venue's declared policy. -/
structure Session where
  policy : ConnectionPolicy
  openedAtMicros : Int
  lastKeepaliveMicros : Int
  replacement : Replacement
deriving DecidableEq

namespace Session

/-- A session opened at a moment. -/
def opened (policy : ConnectionPolicy) (atMicros : Int) : Session :=
  ⟨policy, atMicros, atMicros, .none⟩

/-- Whether the handover is due: the venue declares a lifetime and the session has reached it. -/
def rotationDue (session : Session) (nowMicros : Int) : Bool :=
  session.policy.rotateAfterSecs.any fun after =>
    decide ((after : Int) * 1000000 ≤ nowMicros - session.openedAtMicros)

/-- Whether a keepalive is due. -/
def keepaliveDue (session : Session) (nowMicros : Int) : Bool :=
  let due := (session.policy.keepaliveSecs : Int) * 1000000
  decide (0 < due ∧ due ≤ nowMicros - session.lastKeepaliveMicros)

/-- What is due at a moment.  Rotation outranks the keepalive. -/
def act (session : Session) (nowMicros : Int) : Act :=
  match session.replacement with
  | .subscribed => .closeReplaced
  | .opening => .wait
  | .none =>
      if session.rotationDue nowMicros then .openReplacement
      else if session.keepaliveDue nowMicros then .keepalive
      else .wait

/-- Record that the keepalive went out. -/
def keepaliveSent (session : Session) (atMicros : Int) : Session :=
  { session with lastKeepaliveMicros := atMicros }

/-- Record that the replacement is subscribed. -/
def replacementSubscribed (session : Session) : Session :=
  { session with replacement := .subscribed }

/-- The replacement could not be opened, so there is none in flight. -/
def replacementAbandoned (session : Session) : Session :=
  { session with replacement := .none }

/-- A session hands over exactly where its replacement is subscribed. -/
theorem act_eq_closeReplaced_iff (session : Session) (nowMicros : Int) :
    session.act nowMicros = .closeReplaced ↔ session.replacement = .subscribed := by
  unfold act
  cases session.replacement with
  | subscribed => simp
  | opening => simp
  | none =>
      simp only [reduceCtorEq, iff_false]
      split
      · simp
      · split <;> simp

end Session

/-- What the venue said about one subscription. -/
inductive SubscriptionOutcome
  | pending
  | held
  | refused (reason : Text)
deriving DecidableEq

/-- What the loop is missing, and what it holds. -/
structure Held where
  declared : List Pair
  outcomes : Directory Pair SubscriptionOutcome := ∅

namespace Held

/-- What is declared and not yet held.  A refused subscription is not asked for again on the same
connection. -/
def converge (held : Held) : List Pair :=
  held.declared.filter fun pair =>
    match held.outcomes.lookup pair with
    | some .held | some (.refused _) => false
    | some .pending | none => true

/-- Record that a subscription was sent. -/
def markSent (held : Held) (pair : Pair) : Held :=
  { held with
    outcomes := if pair ∈ held.outcomes then held.outcomes else held.outcomes.insert pair .pending }

/-- Record that the venue is delivering it. -/
def markHeld (held : Held) (pair : Pair) : Held :=
  { held with outcomes := held.outcomes.insert pair .held }

/-- The connection went away: everything said on it is forgotten. -/
def connectionLost (held : Held) : Held := { held with outcomes := ∅ }

/-- On a new connection everything declared is asked for. -/
theorem converge_connectionLost (held : Held) : held.connectionLost.converge = held.declared := by
  unfold converge connectionLost
  simp

theorem declared_foldl {change : Held → Pair → Held}
    (keeps : ∀ held pair, (change held pair).declared = held.declared) (pairs : List Pair)
    (held : Held) : (pairs.foldl change held).declared = held.declared := by
  induction pairs generalizing held with
  | nil => rfl
  | cons pair pairs inductionHypothesis =>
      rw [List.foldl_cons, inductionHypothesis, keeps]

end Held

end Capture
end Datawatch
