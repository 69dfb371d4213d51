import Datawatch.Library.Directory
import Datawatch.Wire.Event

/-!
# Coverage

When each declared pair was last covered, and the gaps that dates.  A gap is dated from its own
pair's last covered moment, or from where the last published one ended.
-/

namespace Datawatch
namespace Capture

open Library Wire

/-- One instrument's one series. -/
abbrev Pair := Ticker × Series

instance lawfulPair : LawfulBEq Pair := inferInstance

/-- Where a pair's last published gap ended. -/
structure Gapped where
  endMicros : Int
  cause : GapCause
  isOpen : Bool
deriving DecidableEq

/-- What is known of one pair. -/
structure PairLedger where
  lastRecvMicros : Option Int := none
  gapped : Option Gapped := none
deriving DecidableEq

/-- The ledger of a venue's pairs, and what gaps are clipped against. -/
structure Coverage where
  pairs : Directory Pair PairLedger := ∅
  windowStartedMicros : Option Int := none
  clipped : Clipped

namespace Coverage

/-- A pair's ledger, or an empty one. -/
def entry (coverage : Coverage) (pair : Pair) : PairLedger := (coverage.pairs.lookup pair).getD {}

/-- Establish that a pair was covered to a moment. -/
def known (coverage : Coverage) (pair : Pair) (atMicros : Int) : Coverage :=
  { coverage with
    windowStartedMicros := some (coverage.windowStartedMicros.getD atMicros)
    pairs := coverage.pairs.insert pair
      { coverage.entry pair with lastRecvMicros := some atMicros } }

/-- When a pair was last covered. -/
def lastRecv (coverage : Coverage) (pair : Pair) : Option Int :=
  (coverage.pairs.lookup pair).bind PairLedger.lastRecvMicros

/-- Where a pair's last published gap ended. -/
def gappedTo (coverage : Coverage) (pair : Pair) : Option Int :=
  ((coverage.pairs.lookup pair).bind PairLedger.gapped).map Gapped.endMicros

def noteGapped (coverage : Coverage) (gaps : List (Ticker × Gap)) (isOpen : Bool) : Coverage :=
  { coverage with
    pairs := gaps.foldl
      (fun pairs published =>
        match pairs.lookup (published.1, published.2.series) with
        | none => pairs
        | some ledger =>
            pairs.insert (published.1, published.2.series)
              { ledger with
                gapped := some ⟨published.2.toMicros, published.2.cause, isOpen⟩ })
      coverage.pairs }

/-- The gap of one pair to a moment, from the later of covered and already gapped. -/
def gapOf (coverage : Coverage) (toMicros : Int) (cause : GapCause) (pair : Pair) :
    Option (Ticker × Gap) :=
  (coverage.lastRecv pair).bind fun covered =>
    let fromMicros := ((coverage.gappedTo pair).map fun ended => max ended covered).getD covered
    if toMicros ≤ fromMicros then none
    else some (pair.1, ⟨pair.2, fromMicros, toMicros, cause, coverage.clipped, none⟩)

/-- The gaps of a set of pairs, each dated from its own last covered moment. -/
def gapsFor (coverage : Coverage) (pairs : List Pair) (toMicros : Int) (cause : GapCause) :
    Coverage × List (Ticker × Gap) :=
  let out := pairs.filterMap (coverage.gapOf toMicros cause)
  (coverage.noteGapped out true, out)

/-- A message arrived for a pair. -/
def received (coverage : Coverage) (pair : Pair) (atMicros : Int) : Coverage :=
  { coverage with
    windowStartedMicros := some (coverage.windowStartedMicros.getD atMicros)
    pairs := coverage.pairs.insert pair
      { coverage.entry pair with lastRecvMicros := some atMicros } }

/-- Change the ledger of a pair that has one. -/
def modify (change : PairLedger → PairLedger) (pairs : Directory Pair PairLedger) (pair : Pair) :
    Directory Pair PairLedger :=
  match pairs.lookup pair with
  | none => pairs
  | some ledger => pairs.insert pair (change ledger)

/-- A handover completed: every pair that was covered is covered to this moment. -/
def handoverCompleted (coverage : Coverage) (atMicros : Int) : Coverage :=
  { coverage with
    pairs := coverage.pairs.keys.foldl
      (modify fun ledger =>
        if ledger.lastRecvMicros.isSome then { ledger with lastRecvMicros := some atMicros }
        else ledger)
      coverage.pairs }

/-- The tail of a pair's open gap, where nothing has covered the pair since. -/
def tailOf (coverage : Coverage) (atMicros : Int) (pair : Pair) : Option (Ticker × Gap) :=
  (coverage.pairs.lookup pair).bind fun ledger =>
    match ledger.gapped with
    | some ⟨fromMicros, cause, true⟩ =>
        if (ledger.lastRecvMicros.any fun recvMicros => fromMicros ≤ recvMicros) ∨
            atMicros ≤ fromMicros then none
        else some (pair.1, ⟨pair.2, fromMicros, atMicros, cause, coverage.clipped, none⟩)
    | _ => none

/-- The tails of the gaps still open, up to the moment the stream was asked again.  Every pair
asked is listened to from here. -/
def askedAgain (coverage : Coverage) (pairs : List Pair) (atMicros : Int) :
    Coverage × List (Ticker × Gap) :=
  let out := pairs.filterMap (coverage.tailOf atMicros)
  let noted := coverage.noteGapped out false
  ({ noted with
      pairs := pairs.foldl
        (modify fun ledger =>
          { ledger with gapped := ledger.gapped.map fun gapped => { gapped with isOpen := false } })
        noted.pairs }, out)

/-- Establish every declared pair at one moment. -/
def establish (coverage : Coverage) (declared : List Pair) (atMicros : Int) : Coverage :=
  declared.foldl (fun coverage pair => coverage.known pair atMicros) coverage

/-- Pairs known to one moment each have a ledger that says so and nothing else. -/
theorem lookup_establish (declared : List Pair) (atMicros : Int) {coverage : Coverage}
    (fresh : ∀ pair ledger, coverage.pairs.lookup pair = some ledger →
      ledger = ⟨some atMicros, none⟩) :
    (∀ pair ledger, (coverage.establish declared atMicros).pairs.lookup pair = some ledger →
      ledger = ⟨some atMicros, none⟩) ∧
      ∀ pair, pair ∈ declared ∨ pair ∈ coverage.pairs →
        pair ∈ (coverage.establish declared atMicros).pairs := by
  induction declared generalizing coverage with
  | nil => exact ⟨fresh, fun pair known => known.resolve_left (List.not_mem_nil)⟩
  | cons first declared inductionHypothesis =>
      have freshAfter : ∀ pair ledger,
          (coverage.known first atMicros).pairs.lookup pair = some ledger →
            ledger = ⟨some atMicros, none⟩ := by
        intro pair ledger isLedger
        by_cases same : pair = first
        · subst same
          rw [known, AList.lookup_insert] at isLedger
          rw [← Option.some.inj isLedger, entry]
          cases isEntry : coverage.pairs.lookup pair with
          | none => rfl
          | some before => rw [fresh pair before isEntry]; rfl
        · rw [known, AList.lookup_insert_ne same] at isLedger
          exact fresh pair ledger isLedger
      obtain ⟨ledgers, members⟩ := inductionHypothesis freshAfter
      refine ⟨ledgers, ?_⟩
      intro pair isKnown
      apply members
      rw [known, AList.mem_insert]
      rcases isKnown with isDeclared | before
      · rcases List.mem_cons.mp isDeclared with rfl | isDeclared
        · exact .inr (.inl rfl)
        · exact .inl isDeclared
      · exact .inr (.inr before)

/-- From one moment to a later one, each declared pair has the whole of it as its gap. -/
theorem gapsFor_establish (clipped : Clipped) (declared : List Pair) {fromMicros toMicros : Int}
    (later : fromMicros < toMicros) (cause : GapCause) :
    ((({ clipped } : Coverage).establish declared fromMicros).gapsFor declared toMicros cause).2 =
      declared.map fun pair =>
        (pair.1, ⟨pair.2, fromMicros, toMicros, cause, clipped, none⟩) := by
  obtain ⟨ledgers, members⟩ := @lookup_establish declared fromMicros
    { clipped } (fun pair ledger isLedger => by simp at isLedger)
  have sameClipped : ∀ coverage : Coverage,
      (coverage.establish declared fromMicros).clipped = coverage.clipped := by
    intro coverage
    clear ledgers members
    unfold establish
    induction declared generalizing coverage with
    | nil => rfl
    | cons first declared inductionHypothesis => exact inductionHypothesis _
  unfold gapsFor
  simp only
  rw [← List.filterMap_eq_map]
  apply List.filterMap_congr
  intro pair isDeclared
  obtain ⟨ledger, isLedger⟩ := Option.isSome_iff_exists.mp
    (AList.lookup_isSome.mpr (members pair (.inl isDeclared)))
  have isFresh := ledgers pair ledger isLedger
  simp only [gapOf, lastRecv, gappedTo, isLedger, isFresh, Option.bind_some,
    Option.map_none, Option.getD_none, if_neg (not_le_of_gt later), sameClipped,
    Function.comp_apply]

end Coverage

end Capture
end Datawatch
