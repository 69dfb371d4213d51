import Mathlib.Data.List.Pairwise
import Datawatch.Library.Intervals
import Datawatch.Capture.RestartGap

/-!
# The gaps of a run

What each call does to one pair, and what the gaps of any sequence of calls say of that pair.
-/

namespace Datawatch
namespace Capture

open Library Library.Intervals Wire

/-- A call of the ledger. -/
inductive Call
  | known (pair : Pair) (atMicros : Int)
  | received (pair : Pair) (atMicros : Int)
  | handoverCompleted (atMicros : Int)
  | gapsFor (pairs : List Pair) (toMicros : Int) (cause : GapCause)
  | askedAgain (pairs : List Pair) (atMicros : Int)

namespace Call

/-- The moment of a call. -/
def atMicros : Call → Int
  | .known _ atMicros | .received _ atMicros | .handoverCompleted atMicros
  | .gapsFor _ atMicros _ | .askedAgain _ atMicros => atMicros

/-- The pairs a call asks about. -/
def pairs : Call → List Pair
  | .gapsFor pairs .. | .askedAgain pairs _ => pairs
  | _ => []

/-- The ledger a call leaves, and the gaps it publishes. -/
def apply (coverage : Coverage) : Call → Coverage × List (Ticker × Gap)
  | .known pair atMicros => (coverage.known pair atMicros, [])
  | .received pair atMicros => (coverage.received pair atMicros, [])
  | .handoverCompleted atMicros => (coverage.handoverCompleted atMicros, [])
  | .gapsFor pairs toMicros cause => coverage.gapsFor pairs toMicros cause
  | .askedAgain pairs atMicros => coverage.askedAgain pairs atMicros

/-- Whether a call covers a pair to its moment, or asks for it again. -/
def settles (pair : Pair) : Call → Prop
  | .known other _ | .received other _ => other = pair
  | .handoverCompleted _ => True
  | .gapsFor .. => False
  | .askedAgain pairs _ => pair ∈ pairs

end Call

/-- The gaps a sequence of calls publishes. -/
def emitted : List Call → Coverage → List (Ticker × Gap)
  | [], _ => []
  | call :: calls, coverage => (call.apply coverage).2 ++ emitted calls (call.apply coverage).1

/-- The moment a pair is covered to after a call, from the one before it. -/
def Call.coveredTo (pair : Pair) (covered : Option Int) : Call → Option Int
  | .known other atMicros | .received other atMicros =>
      if other = pair then some atMicros else covered
  | .handoverCompleted atMicros => covered.map fun _ => atMicros
  | .gapsFor .. | .askedAgain .. => covered

/-- The moment a pair was last covered to. -/
def coveredTo (pair : Pair) (calls : List Call) : Option Int :=
  calls.foldl (Call.coveredTo pair) none

/-- What a call does to one pair. -/
inductive Touch
  | none
  | covered (atMicros : Int)
  | handedOver (atMicros : Int)
  | lost (toMicros : Int) (cause : GapCause)
  | asked (atMicros : Int)

/-- What a call does to a pair. -/
def Call.touch (pair : Pair) : Call → Touch
  | .known other atMicros | .received other atMicros =>
      if other = pair then .covered atMicros else .none
  | .handoverCompleted atMicros => .handedOver atMicros
  | .gapsFor pairs toMicros cause => if pair ∈ pairs then .lost toMicros cause else .none
  | .askedAgain pairs atMicros => if pair ∈ pairs then .asked atMicros else .none

namespace Touch

/-- The gap a touch dates, from the pair's ledger. -/
def gap (ledger : PairLedger) : Touch → Option (Int × Int)
  | .lost toMicros _ =>
      ledger.lastRecvMicros.bind fun covered =>
        let fromMicros := (ledger.gapped.map fun gapped => max gapped.endMicros covered).getD covered
        if toMicros ≤ fromMicros then Option.none else some (fromMicros, toMicros)
  | .asked atMicros =>
      match ledger.gapped with
      | some ⟨fromMicros, _, true⟩ =>
          if (ledger.lastRecvMicros.any fun recvMicros => fromMicros ≤ recvMicros) ∨
              atMicros ≤ fromMicros then Option.none
          else some (fromMicros, atMicros)
      | _ => Option.none
  | .none | .covered _ | .handedOver _ => Option.none

/-- The ledger a touch leaves. -/
def apply (ledger : PairLedger) (touch : Touch) : PairLedger :=
  match touch with
  | .none => ledger
  | .covered atMicros => { ledger with lastRecvMicros := some atMicros }
  | .handedOver atMicros =>
      if ledger.lastRecvMicros.isSome then { ledger with lastRecvMicros := some atMicros }
      else ledger
  | .lost toMicros cause =>
      if (touch.gap ledger).isSome then { ledger with gapped := some ⟨toMicros, cause, true⟩ }
      else ledger
  | .asked atMicros =>
      { ledger with
        gapped := ledger.gapped.map fun gapped =>
          ⟨if (touch.gap ledger).isSome then atMicros else gapped.endMicros, gapped.cause, false⟩ }

end Touch

namespace Touch

/-- The gap of a loss ends where the loss is noticed. -/
theorem gap_lost_snd {ledger : PairLedger} {toMicros : Int} {cause : GapCause}
    {interval : Int × Int} (isGap : (Touch.lost toMicros cause).gap ledger = some interval) :
    interval.2 = toMicros := by
  simp only [gap, Option.bind_eq_some_iff] at isGap
  obtain ⟨covered, _, dated⟩ := isGap
  split at dated
  · cases dated
  · rw [← Option.some.inj dated]

/-- A tail is of an open gap that has ended earlier, with nothing covered since. -/
theorem gap_asked_iff {ledger : PairLedger} {atMicros : Int} {interval : Int × Int} :
    (Touch.asked atMicros).gap ledger = some interval ↔
      (∃ cause, ledger.gapped = some ⟨interval.1, cause, true⟩) ∧
        (∀ recvMicros ∈ ledger.lastRecvMicros, recvMicros < interval.1) ∧
          interval.1 < atMicros ∧ interval.2 = atMicros := by
  obtain ⟨start, stop⟩ := interval
  obtain ⟨lastRecvMicros, gapped⟩ := ledger
  rcases gapped with _ | ⟨fromMicros, cause, _ | _⟩
  · simp [gap]
  · simp [gap]
  · have uncovered : (¬ ((lastRecvMicros.any fun recvMicros => fromMicros ≤ recvMicros) = true ∨
        atMicros ≤ fromMicros)) ↔
          (∀ recvMicros ∈ lastRecvMicros, recvMicros < fromMicros) ∧ fromMicros < atMicros := by
      cases lastRecvMicros with
      | none => simp
      | some recvMicros => simp
    simp only [gap]
    constructor
    · intro isGap
      split at isGap
      · cases isGap
      · rename_i open_
        obtain ⟨rfl, rfl⟩ := Prod.mk.inj (Option.some.inj isGap)
        obtain ⟨notSince, later⟩ := uncovered.mp open_
        exact ⟨⟨cause, rfl⟩, notSince, later, rfl⟩
    · rintro ⟨⟨_, same⟩, notSince, later, rfl⟩
      obtain ⟨rfl, _⟩ := Gapped.mk.inj (Option.some.inj same)
      rw [if_neg (uncovered.mpr ⟨notSince, later⟩)]

theorem gap_asked_snd {ledger : PairLedger} {atMicros : Int} {interval : Int × Int}
    (isGap : (Touch.asked atMicros).gap ledger = some interval) : interval.2 = atMicros :=
  (gap_asked_iff.mp isGap).2.2.2

theorem exists_gapped_of_asked {ledger : PairLedger} {atMicros : Int} {interval : Int × Int}
    (isGap : (Touch.asked atMicros).gap ledger = some interval) :
    ∃ gapped, ledger.gapped = some gapped := by
  obtain ⟨⟨cause, isGapped⟩, _⟩ := gap_asked_iff.mp isGap
  exact ⟨_, isGapped⟩

end Touch

/-! ## What a call does to one pair -/

/-- The pair a published gap is of. -/
def pairOf (published : Ticker × Gap) : Pair := (published.1, published.2.series)

/-- The interval of a published gap. -/
def intervalOf (published : Ticker × Gap) : Int × Int :=
  (published.2.fromMicros, published.2.toMicros)

theorem gapsOf_eq (pair : Pair) (published : List (Ticker × Gap)) :
    gapsOf pair published = (published.filter fun row => pairOf row = pair).map intervalOf := by
  unfold gapsOf
  congr 1
  apply List.filter_congr
  intro row _
  simp only [pairOf, Prod.ext_iff]

namespace Coverage

/-- Changing ledgers one after another changes a pair's as the one item of the pair says. -/
theorem lookup_foldl_modify {Item : Type} (keyOf : Item → Pair)
    (change : Item → PairLedger → PairLedger) {items : List Item}
    (distinct : (items.map keyOf).Nodup) (pairs : Directory Pair PairLedger) (pair : Pair) :
    (items.foldl (fun pairs item => modify (change item) pairs (keyOf item)) pairs).lookup pair =
      (pairs.lookup pair).map fun ledger =>
        ((items.find? fun item => keyOf item = pair).map fun item => change item ledger).getD
          ledger := by
  induction items generalizing pairs with
  | nil => simp
  | cons item items inductionHypothesis =>
      obtain ⟨fresh, distinctRest⟩ := List.nodup_cons.mp distinct
      rw [List.foldl_cons, inductionHypothesis distinctRest]
      by_cases same : keyOf item = pair
      · subst same
        have notLater : (items.find? fun other => keyOf other = keyOf item) = none := by
          apply List.find?_eq_none.mpr
          intro other member isSame
          rw [decide_eq_true_eq] at isSame
          exact fresh (isSame ▸ List.mem_map_of_mem member)
        rw [notLater, List.find?_cons_of_pos (by simp)]
        unfold modify
        cases isLedger : pairs.lookup (keyOf item) with
        | none => simp [isLedger]
        | some ledger => simp
      · rw [List.find?_cons_of_neg (by simpa using same)]
        congr 1
        unfold modify
        split
        · rfl
        · exact AList.lookup_insert_ne (Ne.symm same)

/-- The pairs a list dates gaps of, found by one of them. -/
theorem find?_filterMap {dates : Pair → Option (Ticker × Gap)}
    (ofPair : ∀ pair, ∀ published ∈ dates pair, pairOf published = pair) (pairs : List Pair)
    (pair : Pair) :
    ((pairs.filterMap dates).find? fun published => pairOf published = pair) =
      if pair ∈ pairs then dates pair else none := by
  induction pairs with
  | nil => simp
  | cons first pairs inductionHypothesis =>
      cases isDated : dates first with
      | none =>
          rw [List.filterMap_cons_none isDated, inductionHypothesis]
          by_cases same : pair = first
          · subst same
            simp [isDated]
          · simp [same]
      | some published =>
          rw [List.filterMap_cons_some isDated]
          by_cases same : pair = first
          · subst same
            rw [List.find?_cons_of_pos (by simpa using ofPair pair published isDated), isDated]
            simp
          · have other : pairOf published ≠ pair := by
              rw [ofPair first published isDated]
              exact Ne.symm same
            rw [List.find?_cons_of_neg (by simpa using other), inductionHypothesis]
            simp [same]

/-- A list of distinct pairs dates at most one gap of each. -/
theorem gapsOf_filterMap {dates : Pair → Option (Ticker × Gap)}
    (ofPair : ∀ pair, ∀ published ∈ dates pair, pairOf published = pair) {pairs : List Pair}
    (distinct : pairs.Nodup) (pair : Pair) :
    gapsOf pair (pairs.filterMap dates) =
      ((if pair ∈ pairs then dates pair else none).map intervalOf).toList := by
  rw [gapsOf_eq]
  induction pairs with
  | nil => simp
  | cons first pairs inductionHypothesis =>
      obtain ⟨fresh, distinctRest⟩ := List.nodup_cons.mp distinct
      have rest := inductionHypothesis distinctRest
      cases isDated : dates first with
      | none =>
          rw [List.filterMap_cons_none isDated, rest]
          by_cases same : pair = first
          · subst same
            simp [isDated]
          · simp [same]
      | some published =>
          have isPair := ofPair first published isDated
          rw [List.filterMap_cons_some isDated]
          by_cases same : pair = first
          · subst same
            rw [List.filter_cons_of_pos (by simpa using isPair), List.map_cons, rest,
              if_neg fresh, if_pos List.mem_cons_self, isDated]
            rfl
          · have other : pairOf published ≠ pair := by
              rw [isPair]
              exact Ne.symm same
            rw [List.filter_cons_of_neg (by simpa using other), rest]
            simp [same]

theorem find?_eq_some_of_mem {pairs : List Pair} {pair : Pair} (member : pair ∈ pairs) :
    (pairs.find? fun other => other = pair) = some pair := by
  obtain ⟨found, isFound⟩ := Option.isSome_iff_exists.mp
    (List.find?_isSome.mpr ⟨pair, member, decide_eq_true rfl⟩ :
      (pairs.find? fun other => decide (other = pair)).isSome)
  have same := List.find?_some isFound
  rw [isFound, Option.some.injEq]
  exact of_decide_eq_true same

theorem find?_eq_none_of_not_mem {pairs : List Pair} {pair : Pair} (absent : pair ∉ pairs) :
    (pairs.find? fun other => other = pair) = none := by
  apply List.find?_eq_none.mpr
  intro other member same
  exact absent (of_decide_eq_true same ▸ member)

theorem distinct_filterMap {dates : Pair → Option (Ticker × Gap)}
    (ofPair : ∀ pair, ∀ published ∈ dates pair, pairOf published = pair) {pairs : List Pair}
    (distinct : pairs.Nodup) : ((pairs.filterMap dates).map pairOf).Nodup := by
  refine List.Nodup.sublist ?_ distinct
  clear distinct
  induction pairs with
  | nil => exact .slnil
  | cons first pairs inductionHypothesis =>
      cases isDated : dates first with
      | none =>
          rw [List.filterMap_cons_none isDated]
          exact inductionHypothesis.cons _
      | some published =>
          rw [List.filterMap_cons_some isDated, List.map_cons, ofPair first published isDated]
          exact inductionHypothesis.cons_cons _

theorem pairOf_of_gapOf {coverage : Coverage} {toMicros : Int} {cause : GapCause} (pair : Pair) :
    ∀ published ∈ coverage.gapOf toMicros cause pair, pairOf published = pair := by
  intro published isGap
  simp only [gapOf, Option.mem_def, Option.bind_eq_some_iff] at isGap
  obtain ⟨_, _, dated⟩ := isGap
  split at dated
  · cases dated
  · obtain rfl := Option.some.inj dated
    rfl

theorem pairOf_of_tailOf {coverage : Coverage} {atMicros : Int} (pair : Pair) :
    ∀ published ∈ coverage.tailOf atMicros pair, pairOf published = pair := by
  intro published isTail
  simp only [tailOf, Option.mem_def, Option.bind_eq_some_iff] at isTail
  obtain ⟨_, _, dated⟩ := isTail
  split at dated
  · split at dated
    · cases dated
    · obtain rfl := Option.some.inj dated
      rfl
  · cases dated

/-- Published gaps are noted in their own pairs. -/
theorem lookup_noteGapped {gaps : List (Ticker × Gap)} (distinct : (gaps.map pairOf).Nodup)
    (coverage : Coverage) (isOpen : Bool) (pair : Pair) :
    (coverage.noteGapped gaps isOpen).pairs.lookup pair =
      (coverage.pairs.lookup pair).map fun ledger =>
        ((gaps.find? fun published => pairOf published = pair).map fun published =>
          { ledger with
            gapped := some ⟨published.2.toMicros, published.2.cause, isOpen⟩ }).getD ledger :=
  lookup_foldl_modify pairOf
    (fun published ledger =>
      { ledger with gapped := some ⟨published.2.toMicros, published.2.cause, isOpen⟩ })
    distinct coverage.pairs pair

/-- The gap of a loss is dated from the pair's own ledger. -/
theorem gapOf_eq (coverage : Coverage) (toMicros : Int) (cause : GapCause) (pair : Pair) :
    coverage.gapOf toMicros cause pair =
      ((Touch.lost toMicros cause).gap (coverage.entry pair)).map fun interval =>
        (pair.1, ⟨pair.2, interval.1, toMicros, cause, coverage.clipped, none⟩) := by
  unfold gapOf Touch.gap lastRecv gappedTo entry
  cases coverage.pairs.lookup pair with
  | none => rfl
  | some ledger =>
      simp only [Option.bind_some, Option.getD_some]
      cases ledger.lastRecvMicros with
      | none => rfl
      | some covered =>
          simp only [Option.bind_some, Option.map_map]
          split
          · rename_i empty
            rw [if_pos (by simpa [Function.comp_def] using empty)]
            rfl
          · rename_i nonempty
            rw [if_neg (by simpa [Function.comp_def] using nonempty)]
            rfl

/-- The tail of an open gap is dated from the pair's own ledger. -/
theorem tailOf_eq (coverage : Coverage) (atMicros : Int) (pair : Pair) :
    coverage.tailOf atMicros pair =
      ((Touch.asked atMicros).gap (coverage.entry pair)).bind fun interval =>
        (coverage.entry pair).gapped.map fun gapped =>
          (pair.1, ⟨pair.2, interval.1, atMicros, gapped.cause, coverage.clipped, none⟩) := by
  unfold tailOf Touch.gap entry
  cases coverage.pairs.lookup pair with
  | none => rfl
  | some ledger =>
      simp only [Option.bind_some, Option.getD_some]
      rcases ledger.gapped with _ | ⟨fromMicros, cause, _ | _⟩
      · rfl
      · rfl
      · simp only
        split
        · rfl
        · rfl

/-- **A call changes a pair's ledger as what it does to the pair says, and publishes that gap of
it.** -/
theorem touch_spec {call : Call} (distinct : call.pairs.Nodup) (coverage : Coverage)
    (pair : Pair) :
    ((call.apply coverage).1).entry pair = (call.touch pair).apply (coverage.entry pair) ∧
      gapsOf pair (call.apply coverage).2 =
        ((call.touch pair).gap (coverage.entry pair)).toList := by
  cases call with
  | known other atMicros | received other atMicros =>
      by_cases same : other = pair
      · subst same
        simp [Call.apply, Call.touch, known, received, entry, Touch.apply, Touch.gap, gapsOf]
      · have apart : pair ≠ other := Ne.symm same
        simp [Call.apply, Call.touch, known, received, entry, Touch.apply, Touch.gap, gapsOf, same,
          AList.lookup_insert_ne apart]
  | handoverCompleted atMicros =>
      refine ⟨?_, rfl⟩
      have distinctKeys : (coverage.pairs.keys.map id).Nodup := by
        rw [List.map_id]
        exact coverage.pairs.nodupKeys
      have changed := lookup_foldl_modify id
        (fun _ ledger =>
          if ledger.lastRecvMicros.isSome then { ledger with lastRecvMicros := some atMicros }
          else ledger)
        distinctKeys coverage.pairs pair
      change ((coverage.handoverCompleted atMicros).pairs.lookup pair).getD {} = _
      unfold handoverCompleted
      simp only [id_eq] at changed
      rw [changed, entry]
      cases isLedger : coverage.pairs.lookup pair with
      | none => rfl
      | some ledger =>
          have inKeys : pair ∈ coverage.pairs.keys :=
            AList.lookup_isSome.mp (by rw [isLedger]; rfl)
          rw [find?_eq_some_of_mem inKeys]
          rfl
  | gapsFor pairs toMicros cause =>
      change pairs.Nodup at distinct
      have ofPair := @pairOf_of_gapOf coverage toMicros cause
      have noted := lookup_noteGapped (distinct_filterMap ofPair distinct) coverage true pair
      have touched : Call.touch pair (.gapsFor pairs toMicros cause) =
          if pair ∈ pairs then .lost toMicros cause else .none := rfl
      rw [touched]
      refine ⟨?_, ?_⟩
      · change ((coverage.noteGapped (pairs.filterMap _) true).pairs.lookup pair).getD {} = _
        rw [noted, find?_filterMap ofPair, gapOf_eq]
        unfold entry
        by_cases asked : pair ∈ pairs
        · rw [if_pos asked, if_pos asked]
          cases coverage.pairs.lookup pair with
          | none => rfl
          | some ledger =>
              simp only [Option.map_some, Option.getD_some, Touch.apply]
              cases (Touch.lost toMicros cause).gap ledger with
              | none => rfl
              | some interval => rfl
        · rw [if_neg asked, if_neg asked]
          cases coverage.pairs.lookup pair with
          | none => rfl
          | some ledger => rfl
      · change gapsOf pair (pairs.filterMap _) = _
        rw [gapsOf_filterMap ofPair distinct, gapOf_eq]
        split
        · cases isGap : (Touch.lost toMicros cause).gap (coverage.entry pair) with
          | none => rfl
          | some interval =>
              rw [← Touch.gap_lost_snd isGap]
              rfl
        · rfl
  | askedAgain pairs atMicros =>
      change pairs.Nodup at distinct
      have ofPair := @pairOf_of_tailOf coverage atMicros
      have noted := lookup_noteGapped (distinct_filterMap ofPair distinct) coverage false pair
      have distinctIds : (pairs.map id).Nodup := by rwa [List.map_id]
      have closed := lookup_foldl_modify id
        (fun _ ledger =>
          { ledger with gapped := ledger.gapped.map fun gapped => { gapped with isOpen := false } })
        distinctIds
        (coverage.noteGapped (pairs.filterMap (coverage.tailOf atMicros)) false).pairs pair
      have touched : Call.touch pair (.askedAgain pairs atMicros) =
          if pair ∈ pairs then .asked atMicros else .none := rfl
      rw [touched]
      refine ⟨?_, ?_⟩
      · change ((pairs.foldl _ (coverage.noteGapped (pairs.filterMap _) false).pairs).lookup
          pair).getD {} = _
        simp only [id_eq] at closed
        rw [closed, noted, find?_filterMap ofPair, tailOf_eq]
        unfold entry
        by_cases asked : pair ∈ pairs
        · rw [if_pos asked, if_pos asked, find?_eq_some_of_mem asked]
          cases coverage.pairs.lookup pair with
          | none => rfl
          | some ledger =>
              simp only [Option.map_some, Option.getD_some, Touch.apply]
              rcases Option.eq_none_or_eq_some ((Touch.asked atMicros).gap ledger) with
                isGap | ⟨interval, isGap⟩
              · simp [isGap]
              · obtain ⟨gapped, isGapped⟩ := Touch.exists_gapped_of_asked isGap
                simp [isGap, isGapped]
        · rw [if_neg asked, if_neg asked, find?_eq_none_of_not_mem asked]
          cases coverage.pairs.lookup pair with
          | none => rfl
          | some ledger => rfl
      · change gapsOf pair (pairs.filterMap _) = _
        rw [gapsOf_filterMap ofPair distinct, tailOf_eq]
        split
        · cases isGap : (Touch.asked atMicros).gap (coverage.entry pair) with
          | none => rfl
          | some interval =>
              obtain ⟨gapped, isGapped⟩ := Touch.exists_gapped_of_asked isGap
              rw [isGapped, ← Touch.gap_asked_snd isGap]
              rfl
        · rfl

end Coverage

/-- What the gaps of a pair say, beside its ledger, after what was done to it up to now. -/
structure Accounted (touches : List Touch) (gaps : List (Int × Int)) (ledger : PairLedger)
    (now : Int) : Prop where
  covered : ∀ recvMicros ∈ ledger.lastRecvMicros, recvMicros ≤ now
  ended : ∀ gapped ∈ ledger.gapped, gapped.endMicros ≤ now
  within : ∀ gap ∈ gaps, ∃ gapped ∈ ledger.gapped, gap.2 ≤ gapped.endMicros
  apart : gaps.Pairwise fun first second => first.2 ≤ second.1
  recorded : ∀ atMicros, Touch.covered atMicros ∈ touches →
    (∃ recvMicros ∈ ledger.lastRecvMicros, atMicros ≤ recvMicros) ∧
      ∀ gap ∈ gaps, ¬ (gap.1 < atMicros ∧ atMicros < gap.2)
  covers : ∀ recvMicros ∈ ledger.lastRecvMicros, ∀ gapped ∈ ledger.gapped,
    recvMicros < gapped.endMicros → Covers gaps recvMicros gapped.endMicros
  closed : ∀ gapped ∈ ledger.gapped, gapped.isOpen = false →
    ∃ atMicros, Touch.asked atMicros ∈ touches ∧ gapped.endMicros ≤ atMicros
  since : ∀ gapped ∈ ledger.gapped, ledger.lastRecvMicros.isSome

namespace Accounted

variable {touches : List Touch} {gaps : List (Int × Int)} {ledger : PairLedger} {now : Int}

theorem mono (accounted : Accounted touches gaps ledger now) {later : Int}
    (isLater : now ≤ later) : Accounted touches gaps ledger later :=
  { accounted with
    covered := fun recvMicros isRecv => (accounted.covered recvMicros isRecv).trans isLater
    ended := fun gapped isGapped => (accounted.ended gapped isGapped).trans isLater }

/-- Nothing done to a pair is accounted for. -/
theorem nothing (now : Int) : Accounted [] [] {} now where
  covered := by simp
  ended := by simp
  within := by simp
  apart := .nil
  recorded := by simp
  covers := by simp
  closed := by simp
  since := by simp

/-- A touch that leaves the pair's ledger alone. -/
theorem keep (accounted : Accounted touches gaps ledger now) {touch : Touch}
    (notCovered : ∀ atMicros, touch ≠ .covered atMicros) :
    Accounted (touches ++ [touch]) gaps ledger now :=
  { accounted with
    recorded := fun atMicros member => by
      rcases List.mem_append.mp member with before | isNow
      · exact accounted.recorded atMicros before
      · exact absurd (List.mem_singleton.mp isNow).symm (notCovered atMicros)
    closed := fun gapped isGapped isClosed => by
      obtain ⟨atMicros, member, isEnd⟩ := accounted.closed gapped isGapped isClosed
      exact ⟨atMicros, List.mem_append_left _ member, isEnd⟩ }

/-- Covering a pair to now puts every gap of it behind. -/
theorem cover (accounted : Accounted touches gaps ledger now) {touch : Touch}
    (ofNow : ∀ atMicros, touch = .covered atMicros → atMicros = now) :
    Accounted (touches ++ [touch]) gaps { ledger with lastRecvMicros := some now } now where
  covered := by simp
  ended := accounted.ended
  within := accounted.within
  apart := accounted.apart
  recorded := by
    intro atMicros member
    rcases List.mem_append.mp member with before | isNow
    · obtain ⟨⟨recvMicros, isRecv, atMost⟩, outside⟩ := accounted.recorded atMicros before
      exact ⟨⟨now, rfl, atMost.trans (accounted.covered recvMicros isRecv)⟩, outside⟩
    · obtain rfl := ofNow atMicros (List.mem_singleton.mp isNow).symm
      refine ⟨⟨_, rfl, le_rfl⟩, ?_⟩
      rintro gap isGap ⟨_, short⟩
      obtain ⟨gapped, isGapped, isEnd⟩ := accounted.within gap isGap
      exact absurd (accounted.ended gapped isGapped) (by omega)
  covers := by
    intro recvMicros isRecv gapped isGapped short
    obtain rfl := Option.some.inj isRecv
    exact absurd (accounted.ended gapped isGapped) (by omega)
  closed := by
    intro gapped isGapped isClosed
    obtain ⟨atMicros, member, isEnd⟩ := accounted.closed gapped isGapped isClosed
    exact ⟨atMicros, List.mem_append_left _ member, isEnd⟩
  since := by simp

/-- A gap from the later of covered and already gapped joins what came before it. -/
theorem extend (accounted : Accounted touches gaps ledger now) {touch : Touch}
    (notCovered : ∀ atMicros, touch ≠ .covered atMicros) {recvMicros fromMicros : Int}
    (isRecv : ledger.lastRecvMicros = some recvMicros)
    (joins : fromMicros =
      (ledger.gapped.map fun gapped => max gapped.endMicros recvMicros).getD recvMicros)
    (nonempty : fromMicros < now) {cause : GapCause} {isOpen : Bool}
    (asks : isOpen = false → touch = .asked now) :
    Accounted (touches ++ [touch]) (gaps ++ [(fromMicros, now)])
      { ledger with gapped := some ⟨now, cause, isOpen⟩ } now := by
  have after : ∀ gap ∈ gaps, gap.2 ≤ fromMicros := by
    intro gap isGap
    obtain ⟨gapped, isGapped, isEnd⟩ := accounted.within gap isGap
    rw [Option.mem_def] at isGapped
    rw [joins, isGapped]
    exact isEnd.trans (le_max_left _ _)
  have sinceRecv : recvMicros ≤ fromMicros := by
    rw [joins]
    cases ledger.gapped with
    | none => exact le_rfl
    | some gapped => exact le_max_right _ _
  constructor
  · exact accounted.covered
  · intro gapped isGapped
    obtain rfl := Option.some.inj isGapped
    exact le_rfl
  · intro gap isGap
    refine ⟨_, rfl, ?_⟩
    rcases List.mem_append.mp isGap with before | isNew
    · exact (after gap before).trans nonempty.le
    · rw [List.mem_singleton.mp isNew]
  · rw [List.pairwise_append]
    refine ⟨accounted.apart, List.pairwise_singleton _ _, ?_⟩
    intro gap isGap other isNew
    rw [List.mem_singleton.mp isNew]
    exact after gap isGap
  · intro atMicros member
    rcases List.mem_append.mp member with before | isNow
    · obtain ⟨⟨covered, isCovered, atMost⟩, outside⟩ := accounted.recorded atMicros before
      refine ⟨⟨covered, isCovered, atMost⟩, ?_⟩
      rintro gap isGap ⟨above, below⟩
      rcases List.mem_append.mp isGap with old | isNew
      · exact outside gap old ⟨above, below⟩
      · rw [List.mem_singleton.mp isNew] at above
        rw [Option.mem_def, isRecv] at isCovered
        obtain rfl := Option.some.inj isCovered
        simp only at above
        omega
    · exact absurd (List.mem_singleton.mp isNow).symm (notCovered atMicros)
  · intro covered isCovered gapped isGapped _ moment atLeast below
    obtain rfl := Option.some.inj isGapped
    rw [Option.mem_def, isRecv] at isCovered
    obtain rfl := Option.some.inj isCovered
    by_cases inNew : fromMicros ≤ moment
    · exact ⟨(fromMicros, now), by simp, inNew, below⟩
    · cases isGapped : ledger.gapped with
      | none =>
          rw [isGapped] at joins
          exact absurd joins (by simp only [Option.map_none, Option.getD_none]; omega)
      | some old =>
          rw [isGapped, Option.map_some, Option.getD_some] at joins
          have inOld : recvMicros < old.endMicros ∧ moment < old.endMicros := by omega
          obtain ⟨gap, isGap, inside⟩ := accounted.covers recvMicros isRecv old isGapped inOld.1
            moment atLeast inOld.2
          exact ⟨gap, List.mem_append_left _ isGap, inside⟩
  · intro gapped isGapped isClosed
    obtain rfl := Option.some.inj isGapped
    exact ⟨now, List.mem_append_right _ (by simp [asks isClosed]), le_rfl⟩
  · intro gapped _
    simp [isRecv]

/-- Being asked again closes a pair's gap where it ended. -/
theorem close (accounted : Accounted touches gaps ledger now) :
    Accounted (touches ++ [.asked now]) gaps
      { ledger with
        gapped := ledger.gapped.map fun gapped => ⟨gapped.endMicros, gapped.cause, false⟩ }
      now := by
  have kept := @Accounted.keep _ _ _ _ accounted (.asked now) (by simp)
  constructor
  · exact kept.covered
  · intro gapped isGapped
    obtain ⟨old, isOld, rfl⟩ := Option.map_eq_some_iff.mp isGapped
    exact kept.ended old isOld
  · intro gap isGap
    obtain ⟨old, isOld, isEnd⟩ := kept.within gap isGap
    exact ⟨_, Option.map_eq_some_iff.mpr ⟨old, isOld, rfl⟩, isEnd⟩
  · exact kept.apart
  · exact kept.recorded
  · intro recvMicros isRecv gapped isGapped
    obtain ⟨old, isOld, rfl⟩ := Option.map_eq_some_iff.mp isGapped
    exact kept.covers recvMicros isRecv old isOld
  · intro gapped isGapped _
    obtain ⟨old, isOld, rfl⟩ := Option.map_eq_some_iff.mp isGapped
    exact ⟨now, by simp, kept.ended old isOld⟩
  · intro gapped isGapped
    obtain ⟨old, isOld, rfl⟩ := Option.map_eq_some_iff.mp isGapped
    exact kept.since old isOld

/-- What a loss leaves. -/
theorem lose (accounted : Accounted touches gaps ledger now) (cause : GapCause) :
    Accounted (touches ++ [.lost now cause])
      (gaps ++ ((Touch.lost now cause).gap ledger).toList)
      ((Touch.lost now cause).apply ledger) now := by
  unfold Touch.apply
  simp only
  cases isGap : (Touch.lost now cause).gap ledger with
  | none =>
      rw [Option.toList_none, List.append_nil]
      exact accounted.keep (by simp)
  | some interval =>
      simp only [Touch.gap, Option.bind_eq_some_iff] at isGap
      obtain ⟨recvMicros, isRecv, dated⟩ := isGap
      split at dated
      · cases dated
      · rename_i nonempty
        obtain rfl := Option.some.inj dated
        exact accounted.extend (by simp) isRecv rfl (by omega) (by simp)

/-- What being asked again leaves. -/
theorem ask (accounted : Accounted touches gaps ledger now) :
    Accounted (touches ++ [.asked now]) (gaps ++ ((Touch.asked now).gap ledger).toList)
      ((Touch.asked now).apply ledger) now := by
  unfold Touch.apply
  simp only
  cases isGap : (Touch.asked now).gap ledger with
  | none =>
      rw [Option.toList_none, List.append_nil]
      simpa using accounted.close
  | some interval =>
      obtain ⟨⟨cause, isGapped⟩, uncovered, short, stops⟩ := Touch.gap_asked_iff.mp isGap
      obtain ⟨recvMicros, isRecv⟩ := Option.isSome_iff_exists.mp (accounted.since _ isGapped)
      have isShort := uncovered recvMicros isRecv
      have joins : interval.1 =
          (ledger.gapped.map fun gapped => max gapped.endMicros recvMicros).getD recvMicros := by
        rw [isGapped, Option.map_some, Option.getD_some]
        exact (max_eq_left isShort.le).symm
      have extended := @Accounted.extend _ _ _ _ accounted (.asked now) (by simp) _ _ isRecv
        joins short cause false (fun _ => rfl)
      rw [isGapped]
      obtain ⟨start, stop⟩ := interval
      simp only at stops extended
      subst stops
      simpa using extended

/-- **What one call leaves.** -/
theorem step (accounted : Accounted touches gaps ledger now) {call : Call}
    (atNow : call.atMicros = now) (pair : Pair) :
    Accounted (touches ++ [call.touch pair]) (gaps ++ ((call.touch pair).gap ledger).toList)
      ((call.touch pair).apply ledger) now := by
  subst atNow
  have untouched := @Accounted.keep _ _ _ _ accounted .none (by simp)
  rw [← List.append_nil gaps] at untouched
  cases call with
  | known other atMicros | received other atMicros =>
      by_cases same : other = pair
      · have covered := @Accounted.cover _ _ _ _ accounted (.covered atMicros)
          (fun _ isSame => (Touch.covered.inj isSame).symm)
        simpa [Call.touch, Call.atMicros, same, Touch.gap, Touch.apply] using covered
      · simpa [Call.touch, Call.atMicros, same, Touch.gap, Touch.apply] using untouched
  | handoverCompleted atMicros =>
      by_cases wasCovered : ledger.lastRecvMicros.isSome
      · have covered := @Accounted.cover _ _ _ _ accounted (.handedOver atMicros) (by simp)
        simpa [Call.touch, Call.atMicros, wasCovered, Touch.gap, Touch.apply] using covered
      · have kept := @Accounted.keep _ _ _ _ accounted (.handedOver atMicros) (by simp)
        simpa [Call.touch, Call.atMicros, wasCovered, Touch.gap, Touch.apply] using kept
  | gapsFor pairs toMicros cause =>
      by_cases named : pair ∈ pairs
      · simpa only [Call.touch, Call.atMicros, if_pos named] using accounted.lose cause
      · simpa [Call.touch, Call.atMicros, named, Touch.gap, Touch.apply] using untouched
  | askedAgain pairs atMicros =>
      by_cases named : pair ∈ pairs
      · simpa only [Call.touch, Call.atMicros, if_pos named] using accounted.ask
      · simpa [Call.touch, Call.atMicros, named, Touch.gap, Touch.apply] using untouched

end Accounted

/-! ## A run -/

/-- The ledger a sequence of calls leaves. -/
def after (calls : List Call) (coverage : Coverage) : Coverage :=
  calls.foldl (fun coverage call => (call.apply coverage).1) coverage

theorem after_append (first second : List Call) (coverage : Coverage) :
    after (first ++ second) coverage = after second (after first coverage) :=
  List.foldl_append

theorem emitted_append (first second : List Call) (coverage : Coverage) :
    emitted (first ++ second) coverage =
      emitted first coverage ++ emitted second (after first coverage) := by
  induction first generalizing coverage with
  | nil => rfl
  | cons call first inductionHypothesis =>
      rw [List.cons_append, emitted, emitted, inductionHypothesis, List.append_assoc]
      rfl

/-- Calls in their order, none of which asks about a pair twice. -/
structure WellCalled (calls : List Call) : Prop where
  ordered : (calls.map Call.atMicros).Pairwise (· ≤ ·)
  distinct : ∀ call ∈ calls, call.pairs.Nodup

theorem WellCalled.of_append {first second : List Call} (well : WellCalled (first ++ second)) :
    WellCalled first := by
  constructor
  · have ordered := well.ordered
    rw [List.map_append, List.pairwise_append] at ordered
    exact ordered.1
  · exact fun call member => well.distinct call (List.mem_append_left _ member)

/-- **What the gaps of a run say of a pair.** -/
theorem accounted_run (clipped : Clipped) (pair : Pair) {calls : List Call}
    (well : WellCalled calls) {now : Int} (past : ∀ call ∈ calls, call.atMicros ≤ now) :
    Accounted (calls.map (Call.touch pair)) (gapsOf pair (emitted calls { clipped }))
      ((after calls { clipped }).entry pair) now := by
  induction calls using List.reverseRecOn generalizing now with
  | nil => exact Accounted.nothing now
  | append_singleton calls call inductionHypothesis =>
      have ordered := well.ordered
      rw [List.map_append, List.pairwise_append] at ordered
      have before : ∀ earlier ∈ calls, earlier.atMicros ≤ call.atMicros := by
        intro earlier member
        exact ordered.2.2 _ (List.mem_map_of_mem member) _ (by simp)
      have sofar := inductionHypothesis well.of_append before
      obtain ⟨ledger, gaps⟩ := Coverage.touch_spec (well.distinct call (by simp))
        (after calls { clipped }) pair
      have next := sofar.step rfl pair
      rw [← ledger, ← gaps, ← gapsOf_append] at next
      have whole : emitted (calls ++ [call]) { clipped } =
          emitted calls { clipped } ++ (call.apply (after calls { clipped })).2 := by
        rw [emitted_append, emitted, emitted, List.append_nil]
      rw [List.map_append, whole, after_append]
      exact next.mono (past call (by simp))

/-- A pair's coverage is told by what covered it last. -/
theorem lastRecv_after (clipped : Clipped) (pair : Pair) {calls : List Call}
    (distinct : ∀ call ∈ calls, call.pairs.Nodup) :
    ((after calls { clipped }).entry pair).lastRecvMicros = coveredTo pair calls := by
  induction calls using List.reverseRecOn with
  | nil => rfl
  | append_singleton calls call inductionHypothesis =>
      have sofar := inductionHypothesis fun other member =>
        distinct other (List.mem_append_left _ member)
      have ledger := (Coverage.touch_spec (distinct call (by simp))
        (after calls { clipped }) pair).1
      have whole : coveredTo pair (calls ++ [call]) = call.coveredTo pair (coveredTo pair calls) := by
        rw [coveredTo, List.foldl_append]
        rfl
      rw [after_append, whole]
      change ((call.apply (after calls { clipped })).1.entry pair).lastRecvMicros = _
      rw [ledger]
      cases call with
      | known other atMicros | received other atMicros =>
          by_cases same : other = pair
          · simp [Call.touch, Call.coveredTo, same, Touch.apply]
          · simp [Call.touch, Call.coveredTo, same, Touch.apply, sofar]
      | handoverCompleted atMicros =>
          rw [← sofar]
          simp only [Call.touch, Call.coveredTo, Touch.apply]
          cases isRecv : ((after calls { clipped }).entry pair).lastRecvMicros with
          | none => simp [isRecv]
          | some recvMicros => simp
      | gapsFor pairs toMicros cause =>
          rw [← sofar]
          simp only [Call.touch, Call.coveredTo]
          split
          · simp only [Touch.apply]
            split <;> rfl
          · rfl
      | askedAgain pairs atMicros =>
          rw [← sofar]
          simp only [Call.touch, Call.coveredTo]
          split <;> rfl

/-- A pair whose gap is open from its last covered moment on. -/
structure Losing (gaps : List (Int × Int)) (ledger : PairLedger) (covered : Int) : Prop where
  isRecv : ledger.lastRecvMicros = some covered
  isOpen : ∃ endMicros cause, ledger.gapped = some ⟨endMicros, cause, true⟩ ∧
    covered < endMicros ∧ Covers gaps covered endMicros

section Losing

variable {touches : List Touch} {gaps : List (Int × Int)} {ledger : PairLedger} {now covered : Int}

/-- A loss later than the last covered moment, and than the last ask, opens a gap. -/
theorem Losing.of_lost (accounted : Accounted touches gaps ledger now)
    (isRecv : ledger.lastRecvMicros = some covered) (later : covered < now)
    (asked : ∀ atMicros, Touch.asked atMicros ∈ touches → atMicros < now) (cause : GapCause) :
    Losing (gaps ++ ((Touch.lost now cause).gap ledger).toList)
      ((Touch.lost now cause).apply ledger) covered := by
  have lost := accounted.lose cause
  cases isGap : (Touch.lost now cause).gap ledger with
  | some interval =>
      have applied : (Touch.lost now cause).apply ledger =
          { ledger with gapped := some ⟨now, cause, true⟩ } := by
        simp [Touch.apply, isGap]
      rw [applied, isGap] at lost
      rw [applied]
      exact ⟨isRecv, now, cause, rfl, later, lost.covers covered isRecv _ rfl later⟩
  | none =>
      have applied : (Touch.lost now cause).apply ledger = ledger := by
        simp [Touch.apply, isGap]
      rw [applied]
      simp only [Touch.gap, isRecv, Option.bind_some] at isGap
      split at isGap
      · rename_i reached
        cases isGapped : ledger.gapped with
        | none =>
            rw [isGapped, Option.map_none, Option.getD_none] at reached
            omega
        | some gapped =>
            rw [isGapped, Option.map_some, Option.getD_some] at reached
            obtain ⟨endMicros, oldCause, isOpen⟩ := gapped
            have ended := accounted.ended _ isGapped
            simp only at reached ended
            have isNow : endMicros = now := by omega
            subst isNow
            cases isOpen with
            | true =>
                exact ⟨isRecv, endMicros, oldCause, isGapped, later,
                  Covers.append (accounted.covers covered isRecv _ isGapped later)⟩
            | false =>
                obtain ⟨atMicros, member, isEnd⟩ := accounted.closed _ isGapped rfl
                exact absurd (asked atMicros member) (not_lt_of_ge isEnd)
      · cases isGap

/-- A later loss keeps the gap open. -/
theorem Losing.lost (losing : Losing gaps ledger covered) (toMicros : Int) (cause : GapCause) :
    Losing (gaps ++ ((Touch.lost toMicros cause).gap ledger).toList)
      ((Touch.lost toMicros cause).apply ledger) covered := by
  obtain ⟨isRecv, endMicros, oldCause, isGapped, short, covers⟩ := losing
  have gap : (Touch.lost toMicros cause).gap ledger =
      if toMicros ≤ endMicros then none else some (endMicros, toMicros) := by
    simp only [Touch.gap, isRecv, isGapped, Option.bind_some, Option.map_some, Option.getD_some,
      max_eq_left short.le]
  by_cases later : toMicros ≤ endMicros
  · rw [if_pos later] at gap
    rw [gap]
    simp only [Touch.apply, gap, Option.isSome_none, Option.toList_none, List.append_nil]
    exact ⟨isRecv, endMicros, oldCause, isGapped, short, covers⟩
  · rw [if_neg later] at gap
    rw [gap]
    simp only [Touch.apply, gap, Option.isSome_some, if_true, Option.toList_some]
    refine ⟨isRecv, toMicros, cause, rfl, by omega, ?_⟩
    intro moment atLeast below
    by_cases before : moment < endMicros
    · exact Covers.append covers moment atLeast before
    · exact ⟨(endMicros, toMicros), by simp, by omega, below⟩

/-- Being asked again covers what was lost, up to the ask. -/
theorem Losing.asked (losing : Losing gaps ledger covered) (atMicros : Int) :
    Covers (gaps ++ ((Touch.asked atMicros).gap ledger).toList) covered atMicros := by
  obtain ⟨isRecv, endMicros, cause, isGapped, short, covers⟩ := losing
  intro moment atLeast below
  by_cases before : moment < endMicros
  · exact Covers.append covers moment atLeast before
  · have isGap : (Touch.asked atMicros).gap ledger = some (endMicros, atMicros) := by
      rw [Touch.gap_asked_iff]
      refine ⟨⟨cause, isGapped⟩, ?_, by omega, rfl⟩
      intro recvMicros isCovered
      rw [Option.mem_def, isRecv] at isCovered
      obtain rfl := Option.some.inj isCovered
      exact short
    rw [isGap]
    exact ⟨(endMicros, atMicros), by simp, by omega, below⟩

end Losing

/-- A pair that nothing covers or asks for goes on losing. -/
theorem Losing.run {pair : Pair} {covered : Int} {calls : List Call} {gaps : List (Int × Int)}
    {coverage : Coverage} (losing : Losing gaps (coverage.entry pair) covered)
    (distinct : ∀ call ∈ calls, call.pairs.Nodup)
    (unsettled : ∀ call ∈ calls, ¬ call.settles pair) :
    Losing (gaps ++ gapsOf pair (emitted calls coverage)) ((after calls coverage).entry pair)
      covered := by
  induction calls generalizing gaps coverage with
  | nil => simpa [emitted, gapsOf, after] using losing
  | cons call calls inductionHypothesis =>
      obtain ⟨ledger, published⟩ :=
        Coverage.touch_spec (distinct call List.mem_cons_self) coverage pair
      have notSettled := unsettled call List.mem_cons_self
      have next : Losing (gaps ++ gapsOf pair (call.apply coverage).2)
          ((call.apply coverage).1.entry pair) covered := by
        rw [ledger, published]
        have kept : Losing (gaps ++ (Touch.none.gap (coverage.entry pair)).toList)
            (Touch.none.apply (coverage.entry pair)) covered := by
          simpa [Touch.gap, Touch.apply] using losing
        cases call with
        | known other atMicros | received other atMicros =>
            have isOther : ¬ other = pair := notSettled
            rw [Call.touch, if_neg isOther]
            exact kept
        | handoverCompleted atMicros => exact absurd trivial notSettled
        | gapsFor pairs toMicros cause =>
            rw [Call.touch]
            split
            · exact losing.lost toMicros cause
            · exact kept
        | askedAgain pairs atMicros =>
            have notNamed : pair ∉ pairs := notSettled
            rw [Call.touch, if_neg notNamed]
            exact kept
      have rest := inductionHypothesis next
        (fun other member => distinct other (List.mem_cons_of_mem _ member))
        (fun other member => unsettled other (List.mem_cons_of_mem _ member))
      rw [emitted, gapsOf_append, ← List.append_assoc]
      exact rest

/-- **The gaps of a pair never overlap, none holds a receipt of it inside, and from the moment it
was last covered to until it is asked for again after a later loss, they leave nothing out.** -/
theorem gaps_exact (clipped : Clipped) {calls : List Call} (well : WellCalled calls)
    (pair : Pair) :
    (gapsOf pair (emitted calls { clipped })).Pairwise
        (fun first second => first.2 ≤ second.1) ∧
      (∀ atMicros, Call.received pair atMicros ∈ calls →
        ∀ gap ∈ gapsOf pair (emitted calls { clipped }),
          ¬ (gap.1 < atMicros ∧ atMicros < gap.2)) ∧
      ∀ before lost lostMicros cause between asked askedMicros rest covered,
        calls = before ++ .gapsFor lost lostMicros cause :: between ++
          .askedAgain asked askedMicros :: rest →
        pair ∈ lost → pair ∈ asked →
        coveredTo pair before = some covered → covered < lostMicros →
        (∀ pairs atMicros, Call.askedAgain pairs atMicros ∈ before → pair ∈ pairs →
          atMicros < lostMicros) →
        (∀ call ∈ between, ¬ call.settles pair) →
          Covers (gapsOf pair (emitted calls { clipped })) covered askedMicros := by
  obtain ⟨now, past⟩ : ∃ now, ∀ call ∈ calls, call.atMicros ≤ now := by
    refine ⟨(calls.map Call.atMicros).max?.getD 0, ?_⟩
    intro call member
    have isMoment := List.mem_map_of_mem (f := Call.atMicros) member
    obtain ⟨last, isLast⟩ := Option.ne_none_iff_exists'.mp
      (fun none => List.ne_nil_of_mem isMoment (List.max?_eq_none_iff.mp none))
    rw [isLast, Option.getD_some]
    exact (List.max?_eq_some_iff.mp isLast).2 _ isMoment
  have accounted := accounted_run clipped pair well past
  refine ⟨accounted.apart, ?_, ?_⟩
  · intro atMicros member
    refine (accounted.recorded atMicros (List.mem_map.mpr ⟨_, member, ?_⟩)).2
    exact if_pos rfl
  · rintro before lost lostMicros cause between asked askedMicros rest covered rfl inLost inAsked
      isCovered later lastAsk unsettled
    have shape : before ++ .gapsFor lost lostMicros cause :: between ++
        .askedAgain asked askedMicros :: rest =
          ((before ++ [.gapsFor lost lostMicros cause]) ++ between ++
            [.askedAgain asked askedMicros]) ++ rest := by
      simp
    rw [shape] at well ⊢
    have wellLost := well.of_append.of_append.of_append
    have earlier : ∀ call ∈ before, call.atMicros ≤ lostMicros := by
      intro call member
      have ordered := wellLost.ordered
      rw [List.map_append, List.pairwise_append] at ordered
      exact ordered.2.2 _ (List.mem_map_of_mem member) _ (by simp [Call.atMicros])
    have sofar := accounted_run clipped pair wellLost.of_append earlier
    have isRecv := lastRecv_after clipped pair wellLost.of_append.distinct
    rw [isCovered] at isRecv
    have asks : ∀ atMicros, Touch.asked atMicros ∈ before.map (Call.touch pair) →
        atMicros < lostMicros := by
      intro atMicros member
      obtain ⟨call, isCall, touched⟩ := List.mem_map.mp member
      cases call with
      | askedAgain pairs moment =>
          rw [Call.touch] at touched
          split at touched
          · rename_i named
            obtain rfl := Touch.asked.inj touched
            exact lastAsk pairs moment isCall named
          · cases touched
      | known other moment | received other moment | gapsFor pairs moment cause =>
          rw [Call.touch] at touched
          split at touched <;> cases touched
      | handoverCompleted moment => cases touched
    -- The loss opens a gap, which goes on up to the ask and is covered by it.
    have opened := Losing.of_lost sofar isRecv later asks cause
    obtain ⟨lostLedger, lostGaps⟩ := Coverage.touch_spec
      (wellLost.distinct (.gapsFor lost lostMicros cause) (by simp))
      (after before { clipped }) pair
    rw [Call.touch, if_pos inLost] at lostLedger lostGaps
    rw [← lostLedger, ← lostGaps] at opened
    have ongoing := opened.run
      (fun call member => well.distinct call (by simp [member])) unsettled
    obtain ⟨_, askedGaps⟩ := Coverage.touch_spec
      (well.distinct (.askedAgain asked askedMicros) (by simp))
      (after between (after (before ++ [.gapsFor lost lostMicros cause]) { clipped })) pair
    rw [Call.touch, if_pos inAsked] at askedGaps
    have covers := ongoing.asked askedMicros
    have state : after (before ++ [.gapsFor lost lostMicros cause]) { clipped } =
        (Call.apply (after before { clipped }) (.gapsFor lost lostMicros cause)).1 := by
      rw [after_append]
      rfl
    rw [← state, ← askedGaps] at covers
    rw [emitted_append, emitted_append, emitted_append, emitted_append, gapsOf_append,
      gapsOf_append, gapsOf_append, gapsOf_append]
    apply Covers.append
    have single : ∀ call coverage, emitted [call] coverage = (call.apply coverage).2 :=
      fun call coverage => List.append_nil _
    rw [single, single, after_append (before ++ [Call.gapsFor lost lostMicros cause]) between]
    exact covers

/-- A pair. -/
def teslaTrades : Pair := (tesla, .trades)

/-- A pair received at 0 and handed over at 10, lost at 20 and asked for again at 25. -/
def handedOver : List Call :=
  [.received teslaTrades 0, .handoverCompleted 10, .gapsFor [teslaTrades] 20 .sessionLost,
    .askedAgain [teslaTrades] 25]

/-- What was covered up to the handover is covered to the ask by the pair's gaps. -/
theorem gaps_exact_handedOver :
    Covers (gapsOf teslaTrades (emitted handedOver { clipped := .continuous })) 10 25 :=
  (@gaps_exact .continuous handedOver ⟨by decide, by decide +kernel⟩ teslaTrades).2.2
      [.received teslaTrades 0, .handoverCompleted 10] [teslaTrades] 20 .sessionLost [] [teslaTrades] 25
      [] 10 rfl (by simp) (by simp) (by decide +kernel) (by decide) (by simp) (by simp)

/-- The gaps of a pair do not cover the time from its last receipt to a handover. -/
theorem handover_not_a_gap :
    WellCalled handedOver ∧ Call.received teslaTrades 0 ∈ handedOver ∧
      ¬ Covers (gapsOf teslaTrades (emitted handedOver { clipped := .continuous })) 0 25 := by
  refine ⟨⟨by decide, by decide +kernel⟩, by simp [handedOver], ?_⟩
  have gaps : gapsOf teslaTrades (emitted handedOver { clipped := .continuous }) =
      [(10, 20), (20, 25)] := by
    decide +kernel
  rw [gaps]
  intro covers
  obtain ⟨gap, member, early, _⟩ := covers 0 le_rfl (by decide)
  simp only [List.mem_cons, List.not_mem_nil, or_false] at member
  rcases member with rfl | rfl <;> simp at early

end Capture
end Datawatch
