import Datawatch.Library.Transition
import Datawatch.Chain.Trail

/-!
# The cursor loop

A chain is captured by asking: each pass plans from the block after the cursor to the head, and
each step of it fetches a range of logs, archives it, checks two headers against the trail and
advances the cursor.
-/

namespace Datawatch
namespace Chain

open Library Library.Transition

/-- One request's range of blocks, both ends included. -/
structure BlockStep where
  first : Nat
  last : Nat
deriving DecidableEq

/-- How many blocks a step asks for. -/
def BlockStep.blocks (step : BlockStep) : Nat := step.last - step.first + 1

/-- How a provider serves ranges of blocks. -/
structure BlockPaging where
  maxSpan : Nat
  earliest : Option Nat

/-- Steps that abut, from a block to a last one. -/
def planSteps (maxSpan last : Nat) : Nat → Nat → List BlockStep
  | 0, _ => []
  | fuel + 1, first =>
      let stepLast := min (first + (maxSpan - 1)) last
      ⟨first, stepLast⟩ ::
        if last ≤ stepLast then [] else planSteps maxSpan last fuel (stepLast + 1)

/-- The steps that cover a range, `none` for one before the provider's reach. -/
def BlockPaging.plan (paging : BlockPaging) (first last : Nat) : Option (List BlockStep) :=
  if paging.earliest.any fun earliest => first < earliest then none
  else if last < first ∨ paging.maxSpan = 0 then some []
  else some (planSteps paging.maxSpan last (last - first + 1) first)

/-- Where the cursor goes when blocks from one onwards were replaced. -/
def rewindTo (cursor : Option Nat) (fromBlock : Nat) : Nat :=
  (cursor.map (min · (fromBlock - 1))).getD (fromBlock - 1)

/-- The span to try after the provider refused this one for its size. -/
def narrowed (span : Nat) : Nat := max (span / 2) 1

/-- The span to try after a clean pass. -/
def widened (span declared : Nat) : Nat := min (span * 2) declared

/-- What happened, as it happened. -/
inductive ChainEvent
  | planned (first : Nat)
  /-- A range was fetched and archived. -/
  | archived (step : BlockStep)
  /-- A range was not fetched, or not archived. -/
  | failed (step : BlockStep)
  /-- A reorganisation was detected, as far down as it was searched for. -/
  | reorganised (reorg : Reorg)
deriving DecidableEq

/-- What a chain is captured with. -/
structure CursorConfig where
  paging : BlockPaging
  backfill : Nat
  finalityLag : Nat

/-- A run of the loop: where it is, what is left of its pass and what has happened. -/
structure ChainRun where
  cursor : Option Nat
  trail : BlockTrail
  span : Nat
  pending : List BlockStep
  failed : Nat
  narrowTo : Option Nat
  history : List ChainEvent
  running : Bool

/-- A run before its first pass. -/
def ChainRun.start (config : CursorConfig) : ChainRun where
  cursor := none
  trail := .new config.finalityLag
  span := max config.paging.maxSpan 1
  pending := []
  failed := 0
  narrowTo := none
  history := []
  running := true

/-- How the provider answers a range of logs: it serves them, and they are archived or not, or it
refuses the range for its size, or otherwise. -/
inductive LogsAnswer
  | served (archives : Bool)
  | tooLarge
  | refused
deriving DecidableEq

/-- What one step is answered: the logs, each header asked for as its hash and its parent's, the
hash of each block a fork's search asks for, and whether the flush after it succeeds. -/
structure StepAnswers where
  logs : LogsAnswer
  header : Nat → Option (Text × Text)
  search : Nat → Option Text
  flushes : Bool

/-- Where a fork began: one above the newest held height the chain still agrees on, as far as the
search is answered. -/
def forkPoint (search : Nat → Option Text) : Nat → List (Nat × Text) → Nat
  | lowest, [] => lowest
  | lowest, (height, held) :: rest =>
      match search height with
      | none => lowest
      | some hash => if sameHash hash held then height + 1 else forkPoint search height rest

/-- Advance the trail by each header that is answered, until one proves a reorganisation. -/
def takeHeaders (header : Nat → Option (Text × Text)) :
    List Nat → BlockTrail → Option Reorg × BlockTrail
  | [], trail => (none, trail)
  | height :: heights, trail =>
      match header height with
      | none => takeHeaders header heights trail
      | some (hash, parentHash) =>
          match trail.advance ⟨height, hash, parentHash⟩ with
          | (.reorganised reorg, trail) => (some reorg, trail)
          | (.extended, trail) | (.notLinked, trail) => takeHeaders header heights trail

/-- A step's first block and its last. -/
def BlockStep.heights (step : BlockStep) : List Nat :=
  if step.last = step.first then [step.first] else [step.first, step.last]

namespace ChainRun

variable (config : CursorConfig)

/-- A pass that came to its end: the span follows what it met. -/
def endPass (run : ChainRun) : ChainRun :=
  match run.narrowTo with
  | some narrower =>
      -- Narrowing has nowhere left to go below a single block.
      if run.span ≤ 1 then { run with pending := [], running := false }
      else { run with pending := [], span := narrower }
  | none =>
      if run.failed = 0 ∧ run.span < config.paging.maxSpan then
        { run with pending := [], span := widened run.span config.paging.maxSpan }
      else { run with pending := [] }

/-- Note what happened. -/
def note (run : ChainRun) (event : ChainEvent) : ChainRun :=
  { run with history := run.history ++ [event] }

/-- Begin a pass: ask the head and plan up to it. -/
def beginPass (run : ChainRun) : Option Nat → ChainRun
  | none => run
  | some head =>
      let first := (run.cursor.map (· + 1)).getD (head - config.backfill)
      let run := { run with failed := 0, narrowTo := none }
      if head < first then run.endPass config
      else
        match ({ config.paging with maxSpan := run.span } : BlockPaging).plan first head with
        | none => run
        | some steps =>
            let run := { run with pending := steps }.note (.planned first)
            if steps = [] then run.endPass config else run

/-- One step of a pass. -/
def oneStep (run : ChainRun) (step : BlockStep) (rest : List BlockStep) (answers : StepAnswers) :
    ChainRun :=
  match answers.logs with
  -- The blocks hold what they hold: the next pass plans the same ground in halves.
  | .tooLarge =>
      ({ run with failed := run.failed + 1, narrowTo := some (narrowed step.blocks) }.note
        (.failed step)).endPass config
  | .refused => ({ run with failed := run.failed + 1 }.note (.failed step)).endPass config
  -- An error leaves the span as it was.
  | .served false => { run with pending := [] }.note (.failed step)
  | .served true =>
      let run := run.note (.archived step)
      match takeHeaders answers.header step.heights run.trail with
      | (some reorg, trail) =>
          let fromBlock := forkPoint answers.search reorg.fromBlock
            (trail.heldBelow reorg.fromBlock)
          ({ run with
            trail := trail.forgetFrom fromBlock
            cursor := some (rewindTo run.cursor fromBlock) }.note
              (.reorganised { reorg with fromBlock := fromBlock })).endPass config
      | (none, trail) =>
          let run := { run with trail := trail, cursor := some step.last }
          if answers.flushes then
            if rest = [] then run.endPass config else { run with pending := rest }
          else { run with pending := [] }

/-- What happens next: a pass begins with the head's answer, or takes its next step. -/
inductive Ask
  | pass (head : Option Nat)
  | step (answers : StepAnswers)

/-- One ask of the loop. -/
def ask (run : ChainRun) (next : Ask) : Option ChainRun :=
  if run.running then
    match next, run.pending with
    | .pass head, [] => some (run.beginPass config head)
    | .step answers, step :: rest => some (run.oneStep config step rest answers)
    | _, _ => none
  else none

end ChainRun

end Chain
end Datawatch
