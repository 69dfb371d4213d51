import Datawatch.Capture.CoverageRuns
import Datawatch.Capture.Take

/-!
# Pages of the past

A fetched page covers its pair from the moment it was received, whatever range it is of.  Where the
range ended before the pair's stream was last heard, the gap of a session lost later is dated from
the page and not from the stream.
-/

namespace Datawatch
namespace Capture

open Library Wire Record Ingest

namespace PairLedger

/-- The moment a lost session's gap would be dated from: the later of covered and already gapped. -/
def datedFrom (ledger : PairLedger) : Option Int :=
  ledger.lastRecvMicros.map fun covered =>
    (ledger.gapped.map fun gapped => max gapped.endMicros covered).getD covered

/-- Whether a pair was covered since its open gap ended, where it has one. -/
def coveredSince (ledger : PairLedger) : Bool :=
  match ledger.gapped with
  | some ⟨endMicros, _, true⟩ =>
      ledger.lastRecvMicros.any fun recvMicros => decide (endMicros ≤ recvMicros)
  | _ => true

/-- Two ledgers of one pair that date its gaps alike. -/
structure DatesAs (first second : PairLedger) : Prop where
  gapped : first.gapped = second.gapped
  datedFrom : first.datedFrom = second.datedFrom
  coveredSince : first.coveredSince = second.coveredSince

theorem DatesAs.refl (ledger : PairLedger) : DatesAs ledger ledger := ⟨rfl, rfl, rfl⟩

/-- What a loss dates is what the ledger is dated from. -/
theorem gap_lost_eq (ledger : PairLedger) (toMicros : Int) (cause : GapCause) :
    (Touch.lost toMicros cause).gap ledger =
      ledger.datedFrom.bind fun fromMicros =>
        if toMicros ≤ fromMicros then none else some (fromMicros, toMicros) := by
  unfold Touch.gap datedFrom
  cases ledger.lastRecvMicros with
  | none => rfl
  | some covered => rfl

/-- What an ask-again dates is an open gap's tail, where nothing covered the pair since. -/
theorem gap_asked_eq (ledger : PairLedger) (atMicros : Int) :
    (Touch.asked atMicros).gap ledger =
      ledger.gapped.bind fun gapped =>
        if ledger.coveredSince = true ∨ atMicros ≤ gapped.endMicros then none
        else some (gapped.endMicros, atMicros) := by
  unfold Touch.gap coveredSince
  rcases ledger.gapped with _ | ⟨endMicros, cause, _ | _⟩
  · rfl
  · simp
  · rfl

/-- Ledgers that date alike publish the same gaps. -/
theorem DatesAs.gap {first second : PairLedger} (alike : DatesAs first second) (touch : Touch) :
    touch.gap first = touch.gap second := by
  cases touch with
  | none | covered | handedOver => rfl
  | lost toMicros cause => rw [gap_lost_eq, gap_lost_eq, alike.datedFrom]
  | asked atMicros => rw [gap_asked_eq, gap_asked_eq, alike.gapped, alike.coveredSince]

/-- Ledgers that were gapped alike and publish the same gaps at every moment date alike. -/
theorem datesAs_of_gap {first second : PairLedger} (gapped : first.gapped = second.gapped)
    (lost : ∀ toMicros, (Touch.lost toMicros .sessionLost).gap first =
      (Touch.lost toMicros .sessionLost).gap second)
    (asked : ∀ atMicros, (Touch.asked atMicros).gap first = (Touch.asked atMicros).gap second) :
    DatesAs first second := by
  refine ⟨gapped, ?_, ?_⟩
  · have dates {early late : PairLedger} {dated : Int} (isDated : early.datedFrom = some dated)
        (same : (Touch.lost (dated + 1) .sessionLost).gap early =
          (Touch.lost (dated + 1) .sessionLost).gap late) : late.datedFrom = some dated := by
      rw [gap_lost_eq, gap_lost_eq, isDated, Option.bind_some, if_neg (by omega)] at same
      obtain ⟨other, isOther, isGap⟩ := Option.bind_eq_some_iff.mp same.symm
      split at isGap
      · cases isGap
      · rw [isOther, (Prod.mk.inj (Option.some.inj isGap)).1]
    cases isFirst : first.datedFrom with
    | some dated => exact (dates isFirst (lost _)).symm
    | none =>
        cases isSecond : second.datedFrom with
        | none => rfl
        | some dated =>
            rw [dates isSecond (lost _).symm] at isFirst
            cases isFirst
  · cases isGapped : second.gapped with
    | none => simp only [coveredSince, gapped, isGapped]
    | some last =>
        have same := asked (last.endMicros + 1)
        rw [gap_asked_eq, gap_asked_eq, gapped, isGapped, Option.bind_some, Option.bind_some] at same
        have late : ¬ last.endMicros + 1 ≤ last.endMicros := by omega
        simp only [late, or_false] at same
        cases isFirst : first.coveredSince <;> cases isSecond : second.coveredSince <;>
          simp_all

/-- A loss that publishes a gap is noticed after everything that covered the pair. -/
theorem lt_of_lost {ledger : PairLedger} {toMicros : Int} {cause : GapCause}
    (isGap : ((Touch.lost toMicros cause).gap ledger).isSome) :
    ∃ covered, ledger.lastRecvMicros = some covered ∧ covered < toMicros := by
  rw [gap_lost_eq, datedFrom] at isGap
  cases isRecv : ledger.lastRecvMicros with
  | none =>
      rw [isRecv] at isGap
      cases isGap
  | some covered =>
      refine ⟨covered, rfl, ?_⟩
      by_contra later
      rw [isRecv, Option.map_some, Option.bind_some] at isGap
      cases isGapped : ledger.gapped with
      | none =>
          rw [isGapped, Option.map_none, Option.getD_none, if_pos (not_lt.mp later)] at isGap
          cases isGap
      | some gapped =>
          rw [isGapped, Option.map_some, Option.getD_some,
            if_pos ((not_lt.mp later).trans (le_max_right _ _))] at isGap
          cases isGap

/-- An ask-again that publishes a tail comes after everything that covered the pair. -/
theorem lt_of_asked {ledger : PairLedger} {atMicros : Int}
    (isGap : ((Touch.asked atMicros).gap ledger).isSome) :
    ∀ covered, ledger.lastRecvMicros = some covered → covered < atMicros := by
  intro covered isRecv
  obtain ⟨interval, isInterval⟩ := Option.isSome_iff_exists.mp isGap
  rw [gap_asked_eq] at isInterval
  obtain ⟨gapped, isGapped, dated⟩ := Option.bind_eq_some_iff.mp isInterval
  split at dated
  · cases dated
  · rename_i late
    rw [not_or] at late
    unfold coveredSince at late
    rw [isGapped] at late
    obtain ⟨endMicros, cause, _ | _⟩ := gapped
    · exact absurd rfl late.1
    · simp only [isRecv, Option.any_some, decide_eq_true_eq, not_le] at late
      omega

/-- A ledger gapped after everything that covered its pair is dated from there. -/
theorem datedFrom_of_lt {covered : Option Int} {endMicros : Int} {cause : GapCause} {isOpen : Bool}
    (before : ∀ recvMicros, covered = some recvMicros → recvMicros < endMicros) :
    datedFrom ⟨covered, some ⟨endMicros, cause, isOpen⟩⟩ = covered.map fun _ => endMicros := by
  cases covered with
  | none => rfl
  | some recvMicros =>
      have bound := before recvMicros rfl
      simp only [datedFrom, Option.map_some, Option.getD_some, Option.some.injEq]
      omega

theorem isSome_datedFrom (ledger : PairLedger) :
    ledger.datedFrom.isSome = ledger.lastRecvMicros.isSome := Option.isSome_map

/-- **Whatever happens to a pair, ledgers that date alike go on doing so.** -/
theorem DatesAs.apply {first second : PairLedger} (alike : DatesAs first second) (touch : Touch) :
    DatesAs (touch.apply first) (touch.apply second) := by
  have sameGap := alike.gap touch
  have sameSome : first.lastRecvMicros.isSome = second.lastRecvMicros.isSome := by
    rw [← isSome_datedFrom, ← isSome_datedFrom, alike.datedFrom]
  cases touch with
  | none => exact alike
  | covered atMicros =>
      rw [Touch.apply, Touch.apply, alike.gapped]
      exact DatesAs.refl _
  | handedOver atMicros =>
      rw [Touch.apply, Touch.apply, sameSome]
      split
      · rw [alike.gapped]
        exact DatesAs.refl _
      · exact alike
  | lost toMicros cause =>
      rw [Touch.apply, Touch.apply, sameGap]
      split
      · rename_i isGap
        obtain ⟨one, isOne, oneBefore⟩ := lt_of_lost (sameGap ▸ isGap)
        obtain ⟨other, isOther, otherBefore⟩ := lt_of_lost isGap
        refine ⟨rfl, ?_, ?_⟩
        · rw [datedFrom_of_lt, datedFrom_of_lt, isOne, isOther]
          · rfl
          · intro recvMicros isRecv
            rw [isOther] at isRecv
            exact Option.some.inj isRecv ▸ otherBefore
          · intro recvMicros isRecv
            rw [isOne] at isRecv
            exact Option.some.inj isRecv ▸ oneBefore
        · simp only [PairLedger.coveredSince, isOne, isOther, Option.any_some,
            not_le.mpr oneBefore, not_le.mpr otherBefore]
      · exact alike
  | asked atMicros =>
      rw [Touch.apply, Touch.apply, sameGap, alike.gapped]
      cases isGapped : second.gapped with
      | none =>
          refine ⟨rfl, ?_, rfl⟩
          have same := alike.datedFrom
          unfold PairLedger.datedFrom at same
          rwa [alike.gapped, isGapped] at same
      | some last =>
          refine ⟨rfl, ?_, rfl⟩
          simp only [Option.map_some]
          split
          · rename_i isGap
            rw [datedFrom_of_lt (lt_of_asked (sameGap ▸ isGap)),
              datedFrom_of_lt (lt_of_asked isGap)]
            cases isOne : first.lastRecvMicros <;> cases isOther : second.lastRecvMicros <;>
              simp_all
          · have same := alike.datedFrom
            unfold PairLedger.datedFrom at same
            rwa [alike.gapped, isGapped] at same

theorem DatesAs.symm {first second : PairLedger} (alike : DatesAs first second) :
    DatesAs second first := ⟨alike.gapped.symm, alike.datedFrom.symm, alike.coveredSince.symm⟩

theorem DatesAs.trans {first second third : PairLedger} (alike : DatesAs first second)
    (next : DatesAs second third) : DatesAs first third :=
  ⟨alike.gapped.trans next.gapped, alike.datedFrom.trans next.datedFrom,
    alike.coveredSince.trans next.coveredSince⟩

/-- Whether a receipt is one that changes nothing of what a pair's gaps are dated from: the pair was
covered to that very moment, or both moments are before its last published gap ended, or at its end
once that gap is closed. -/
def Hides (ledger : PairLedger) (recvMicros : Int) : Prop :=
  ∃ covered, ledger.lastRecvMicros = some covered ∧
    (recvMicros = covered ∨ ∃ gapped, ledger.gapped = some gapped ∧
      recvMicros ≤ gapped.endMicros ∧ covered ≤ gapped.endMicros ∧
      (gapped.isOpen = true → recvMicros < gapped.endMicros ∧ covered < gapped.endMicros))

/-- A receipt leaves a pair's gaps dated as they were exactly where the ledger hides it. -/
theorem datesAs_covered_iff (ledger : PairLedger) (recvMicros : Int) :
    DatesAs ((Touch.covered recvMicros).apply ledger) ledger ↔ ledger.Hides recvMicros := by
  obtain ⟨covered, gapped⟩ := ledger
  constructor
  · intro alike
    have dated := alike.datedFrom
    have since := alike.coveredSince
    cases covered with
    | none => cases dated
    | some covered =>
        refine ⟨covered, rfl, ?_⟩
        cases gapped with
        | none => exact .inl (Option.some.inj dated)
        | some gapped =>
            obtain ⟨endMicros, cause, isOpen⟩ := gapped
            have same : max endMicros recvMicros = max endMicros covered := Option.some.inj dated
            by_cases isCovered : recvMicros = covered
            · exact .inl isCovered
            · refine .inr ⟨_, rfl, ?_⟩
              have before : recvMicros ≤ endMicros ∧ covered ≤ endMicros := by omega
              refine ⟨before.1, before.2, ?_⟩
              rintro rfl
              simp only [PairLedger.coveredSince, Touch.apply, Option.any_some,
                decide_eq_decide] at since
              simp only at before ⊢
              omega
  · rintro ⟨last, isLast, hidden⟩
    obtain rfl : covered = some last := isLast
    rcases hidden with rfl | ⟨⟨endMicros, cause, isOpen⟩, isGapped, before, lastBefore, apart⟩
    · exact DatesAs.refl _
    · obtain rfl : gapped = some ⟨endMicros, cause, isOpen⟩ := isGapped
      simp only at before lastBefore apart
      refine ⟨rfl, ?_, ?_⟩
      · simp only [PairLedger.datedFrom, Touch.apply, Option.map_some, Option.getD_some,
          max_eq_left before, max_eq_left lastBefore]
      · cases isOpen with
        | false => rfl
        | true =>
            have both := apart rfl
            simp only [PairLedger.coveredSince, Touch.apply, Option.any_some,
              not_le.mpr both.1, not_le.mpr both.2]

end PairLedger

/-! ## What happens to one pair -/

/-- What one thing in the loop does to a pair. -/
def LoopOp.touch (seam : Seam) (pair : Pair) : LoopOp → Touch
  | .frame bytes nowMicros =>
      if seam.credits (seam.classify bytes nowMicros) pair then
        .covered (seam.classify bytes nowMicros).recvMicros
      else .none
  | .page _ payload => if seam.credits payload pair then .covered payload.recvMicros else .none
  | .handedOver nowMicros => .handedOver nowMicros
  | .sessionLost nowMicros => .lost nowMicros .sessionLost
  | .askedAgain subscriptions nowMicros => Call.touch pair (.askedAgain subscriptions nowMicros)

/-- A payload covers its pairs from its receipt. -/
theorem entry_foldl_received (pairs : List Pair) (atMicros : Int) (coverage : Coverage)
    (pair : Pair) :
    (pairs.foldl (fun coverage pair => coverage.received pair atMicros) coverage).entry pair =
      if pair ∈ pairs then (Touch.covered atMicros).apply (coverage.entry pair)
      else coverage.entry pair := by
  induction pairs generalizing coverage with
  | nil => rfl
  | cons first pairs inductionHypothesis =>
      have here := (@Coverage.touch_spec (.received first atMicros) List.nodup_nil coverage pair).1
      simp only [Call.apply, Call.touch] at here
      rw [List.foldl_cons, inductionHypothesis, here]
      by_cases same : first = pair
      · subst same
        rw [if_pos rfl, if_pos List.mem_cons_self]
        split <;> rfl
      · simp only [same, if_false, List.mem_cons, Ne.symm same, false_or, Touch.apply]

theorem lookup_modify_of_ne {change : PairLedger → PairLedger} {pairs : Directory Pair PairLedger}
    {other pair : Pair} (different : other ≠ pair) :
    (Coverage.modify change pairs other).lookup pair = pairs.lookup pair := by
  unfold Coverage.modify
  split
  · rfl
  · exact AList.lookup_insert_ne (Ne.symm different)

theorem lookup_modify {change : PairLedger → PairLedger} {pairs : Directory Pair PairLedger}
    (pair : Pair) :
    (Coverage.modify change pairs pair).lookup pair = (pairs.lookup pair).map change := by
  unfold Coverage.modify
  cases isLedger : pairs.lookup pair with
  | none => exact isLedger
  | some ledger => exact AList.lookup_insert _

/-- Changing ledgers by items that change a pair's alike, once or more, changes it once. -/
theorem lookup_foldl_modify_alike {Item : Type} (keyOf : Item → Pair)
    (change : Item → PairLedger → PairLedger) (pair : Pair) (once : PairLedger → PairLedger)
    (again : ∀ ledger, once (once ledger) = once ledger) (items : List Item)
    (alike : ∀ item ∈ items, keyOf item = pair → change item = once)
    (pairs : Directory Pair PairLedger) :
    (items.foldl (fun pairs item => Coverage.modify (change item) pairs (keyOf item)) pairs).lookup
        pair =
      if pair ∈ items.map keyOf then (pairs.lookup pair).map once else pairs.lookup pair := by
  induction items generalizing pairs with
  | nil => rfl
  | cons item items inductionHypothesis =>
      rw [List.forall_mem_cons] at alike
      rw [List.foldl_cons, inductionHypothesis alike.2]
      simp only [List.map_cons, List.mem_cons]
      by_cases same : keyOf item = pair
      · subst same
        simp only [lookup_modify, alike.1 rfl, Option.map_map, true_or, if_true]
        split
        · congr 1
          funext ledger
          exact again ledger
        · rfl
      · simp only [lookup_modify_of_ne same, Ne.symm same, false_or]

/-- A list dates its gaps of a pair as often as it names it. -/
theorem about_filterMap {dates : Pair → Option (Ticker × Gap)}
    (ofPair : ∀ pair, ∀ row ∈ dates pair, pairOf row = pair) (pairs : List Pair) (pair : Pair) :
    about pair (pairs.filterMap dates) =
      (pairs.filter fun other => other = pair).filterMap dates := by
  induction pairs with
  | nil => rfl
  | cons first pairs inductionHypothesis =>
      unfold about at inductionHypothesis ⊢
      cases isDated : dates first with
      | none =>
          rw [List.filterMap_cons_none isDated, inductionHypothesis]
          by_cases same : first = pair
          · rw [List.filter_cons_of_pos (by simpa using same), List.filterMap_cons_none isDated]
          · rw [List.filter_cons_of_neg (by simpa using same)]
      | some row =>
          have isPair : (row.1, row.2.series) = first := ofPair first row isDated
          rw [List.filterMap_cons_some isDated]
          by_cases same : first = pair
          · rw [List.filter_cons_of_pos (by simpa [isPair] using same), inductionHypothesis,
              List.filter_cons_of_pos (by simpa using same), List.filterMap_cons_some isDated]
          · rw [List.filter_cons_of_neg (by simpa [isPair] using same), inductionHypothesis,
              List.filter_cons_of_neg (by simpa using same)]

/-- Noting the gaps a list dates changes a pair's ledger once, however often the list names it. -/
theorem lookup_noteGapped_filterMap {dates : Pair → Option (Ticker × Gap)}
    (ofPair : ∀ pair, ∀ row ∈ dates pair, pairOf row = pair) (coverage : Coverage)
    (pairs : List Pair) (isOpen : Bool) (pair : Pair) :
    (coverage.noteGapped (pairs.filterMap dates) isOpen).pairs.lookup pair =
      (coverage.pairs.lookup pair).map fun ledger =>
        ((if pair ∈ pairs then dates pair else none).map fun row =>
          { ledger with gapped := some ⟨row.2.toMicros, row.2.cause, isOpen⟩ }).getD ledger := by
  have ofRow {row : Ticker × Gap} (isRow : row ∈ pairs.filterMap dates) (same : pairOf row = pair) :
      pair ∈ pairs ∧ dates pair = some row := by
    obtain ⟨other, isOther, isDated⟩ := List.mem_filterMap.mp isRow
    rw [← same, ofPair other row isDated]
    exact ⟨isOther, isDated⟩
  have change (once : PairLedger → PairLedger) (again : ∀ ledger, once (once ledger) = once ledger)
      (alike : ∀ row ∈ pairs.filterMap dates, pairOf row = pair →
        (fun ledger : PairLedger =>
          { ledger with gapped := some ⟨row.2.toMicros, row.2.cause, isOpen⟩ }) = once) :=
    lookup_foldl_modify_alike pairOf
      (fun row ledger => { ledger with gapped := some ⟨row.2.toMicros, row.2.cause, isOpen⟩ })
      pair once again _ alike coverage.pairs
  cases isDated : (if pair ∈ pairs then dates pair else none) with
  | none =>
      have noRow {row : Ticker × Gap} (isRow : row ∈ pairs.filterMap dates) :
          pairOf row ≠ pair := by
        intro same
        obtain ⟨isPair, isRow⟩ := ofRow isRow same
        rw [if_pos isPair, isRow] at isDated
        cases isDated
      refine (change id (fun _ => rfl) fun row isRow same => absurd same (noRow isRow)).trans ?_
      simp
  | some dated =>
      have isPair : pair ∈ pairs := by
        by_contra absent
        rw [if_neg absent] at isDated
        cases isDated
      rw [if_pos isPair] at isDated
      refine (change
        (fun ledger => { ledger with gapped := some ⟨dated.2.toMicros, dated.2.cause, isOpen⟩ })
        (fun _ => rfl) ?_).trans ?_
      · intro row isRow same
        obtain rfl := Option.some.inj (isDated.symm.trans (ofRow isRow same).2)
        rfl
      · rw [if_pos]
        · rfl
        · exact List.mem_map.mpr ⟨dated, List.mem_filterMap.mpr ⟨pair, isPair, isDated⟩,
            ofPair pair dated isDated⟩

/-- An ask-again changes a pair's ledger once, however often it names the pair. -/
theorem entry_askedAgain (coverage : Coverage) (subscriptions : List Pair) (atMicros : Int)
    (pair : Pair) :
    (coverage.askedAgain subscriptions atMicros).1.entry pair =
      if pair ∈ subscriptions then (Touch.asked atMicros).apply (coverage.entry pair)
      else coverage.entry pair := by
  have noted := lookup_noteGapped_filterMap (@Coverage.pairOf_of_tailOf coverage atMicros) coverage
    subscriptions false pair
  have closed := lookup_foldl_modify_alike id
    (fun _ ledger =>
      { ledger with gapped := ledger.gapped.map fun gapped => { gapped with isOpen := false } })
    pair _ (fun ledger => by cases ledger.gapped <;> rfl) subscriptions (fun _ _ _ => rfl)
    (coverage.noteGapped (subscriptions.filterMap (coverage.tailOf atMicros)) false).pairs
  change ((subscriptions.foldl _ (coverage.noteGapped (subscriptions.filterMap _)
    false).pairs).lookup pair).getD {} = _
  simp only [id_eq, List.map_id_fun] at closed
  rw [closed, noted, Coverage.tailOf_eq]
  unfold Coverage.entry
  by_cases asked : pair ∈ subscriptions
  · rw [if_pos asked, if_pos asked, if_pos asked]
    cases coverage.pairs.lookup pair with
    | none => rfl
    | some ledger =>
        simp only [Option.map_some, Option.getD_some, Touch.apply]
        rcases Option.eq_none_or_eq_some ((Touch.asked atMicros).gap ledger) with
          isGap | ⟨interval, isGap⟩
        · simp [isGap]
        · obtain ⟨gapped, isGapped⟩ := Touch.exists_gapped_of_asked isGap
          simp [isGap, isGapped]
  · rw [if_neg asked, if_neg asked, if_neg asked]
    cases coverage.pairs.lookup pair with
    | none => rfl
    | some ledger => rfl

/-- **A thing in the loop changes a pair's ledger as what it does to the pair says.** -/
theorem entry_apply (seam : Seam) (op : LoopOp) (coverage : Coverage) (pair : Pair) :
    ((op.apply seam coverage).1).entry pair = (op.touch seam pair).apply (coverage.entry pair) := by
  cases op with
  | frame bytes nowMicros | page toMicros payload =>
      simp only [LoopOp.apply, LoopOp.touch, Seam.take, entry_foldl_received, Seam.credits_iff]
      split <;> rfl
  | handedOver nowMicros =>
      exact (@Coverage.touch_spec (.handoverCompleted nowMicros) List.nodup_nil coverage pair).1
  | sessionLost nowMicros =>
      have whole := (@Coverage.touch_spec (.gapsFor coverage.pairs.keys nowMicros .sessionLost)
        coverage.pairs.nodupKeys coverage pair).1
      refine whole.trans ?_
      simp only [Call.touch, LoopOp.touch]
      split
      · rfl
      · rename_i unknown
        have empty : coverage.entry pair = {} := by
          rw [Coverage.entry, AList.lookup_eq_none.mpr unknown]
          rfl
        rw [empty]
        rfl
  | askedAgain subscriptions nowMicros =>
      simp only [LoopOp.apply, LoopOp.touch, Call.touch, entry_askedAgain]
      split <;> rfl

theorem clipped_apply (seam : Seam) (op : LoopOp) (coverage : Coverage) :
    ((op.apply seam coverage).1).clipped = coverage.clipped := by
  have taken (pairs : List Pair) (atMicros : Int) (coverage : Coverage) :
      (pairs.foldl (fun coverage pair => coverage.received pair atMicros) coverage).clipped =
        coverage.clipped := by
    induction pairs generalizing coverage with
    | nil => rfl
    | cons first pairs inductionHypothesis => exact inductionHypothesis _
  cases op with
  | frame bytes nowMicros | page toMicros payload => exact taken _ _ coverage
  | handedOver | sessionLost | askedAgain => rfl

/-- Two ledgers that date the gaps of one pair alike. -/
structure Alike (pair : Pair) (first second : Coverage) : Prop where
  clipped : first.clipped = second.clipped
  entry : PairLedger.DatesAs (first.entry pair) (second.entry pair)

theorem Alike.gapOf {pair : Pair} {first second : Coverage} (alike : Alike pair first second)
    (toMicros : Int) (cause : GapCause) :
    first.gapOf toMicros cause pair = second.gapOf toMicros cause pair := by
  rw [Coverage.gapOf_eq, Coverage.gapOf_eq, alike.clipped, alike.entry.gap]

theorem Alike.tailOf {pair : Pair} {first second : Coverage} (alike : Alike pair first second)
    (atMicros : Int) : first.tailOf atMicros pair = second.tailOf atMicros pair := by
  rw [Coverage.tailOf_eq, Coverage.tailOf_eq, alike.clipped, alike.entry.gap, alike.entry.gapped]

/-- A loss publishes a pair's gap where the pair has one. -/
theorem about_sessionLost (coverage : Coverage) (nowMicros : Int) (pair : Pair) :
    about pair (coverage.gapsFor coverage.pairs.keys nowMicros .sessionLost).2 =
      (coverage.gapOf nowMicros .sessionLost pair).toList := by
  unfold Coverage.gapsFor
  rw [about_filterMap Coverage.pairOf_of_gapOf]
  by_cases isKnown : pair ∈ coverage.pairs.keys
  · have once : coverage.pairs.keys.count pair = 1 :=
      List.count_eq_one_of_mem coverage.pairs.nodupKeys isKnown
    rw [List.filter_eq, once]
    cases isGap : coverage.gapOf nowMicros .sessionLost pair <;> simp [isGap]
  · have alone : (coverage.pairs.keys.filter fun other => other = pair) = [] := by
      rw [List.filter_eq_nil_iff]
      rintro other isOther same
      exact isKnown (of_decide_eq_true same ▸ isOther)
    have unknown : coverage.gapOf nowMicros .sessionLost pair = none := by
      rw [Coverage.gapOf, Coverage.lastRecv, AList.lookup_eq_none.mpr isKnown]
      rfl
    rw [alone, unknown]
    rfl

/-- **Whatever happens in the loop, ledgers that date a pair's gaps alike publish the same, and go
on doing so.** -/
theorem Alike.apply {pair : Pair} {first second : Coverage} (alike : Alike pair first second)
    (seam : Seam) (op : LoopOp) :
    Alike pair (op.apply seam first).1 (op.apply seam second).1 ∧
      about pair (op.apply seam first).2 = about pair (op.apply seam second).2 := by
  refine ⟨⟨?_, ?_⟩, ?_⟩
  · rw [clipped_apply, clipped_apply, alike.clipped]
  · rw [entry_apply, entry_apply]
    exact alike.entry.apply _
  · cases op with
    | frame | page | handedOver => rfl
    | sessionLost nowMicros =>
        simp only [LoopOp.apply]
        rw [about_sessionLost, about_sessionLost, alike.gapOf]
    | askedAgain subscriptions nowMicros =>
        simp only [LoopOp.apply, Coverage.askedAgain]
        rw [about_filterMap Coverage.pairOf_of_tailOf, about_filterMap Coverage.pairOf_of_tailOf]
        apply List.filterMap_congr
        intro other isOther
        obtain rfl : other = pair := of_decide_eq_true (List.mem_filter.mp isOther).2
        exact alike.tailOf nowMicros

theorem ledgerAfter_concat (seam : Seam) (ops : List LoopOp) (op : LoopOp) (coverage : Coverage) :
    ledgerAfter seam (ops ++ [op]) coverage = (op.apply seam (ledgerAfter seam ops coverage)).1 :=
  List.foldl_concat ..

theorem published_append (seam : Seam) (first second : List LoopOp) (coverage : Coverage) :
    published seam (first ++ second) coverage =
      published seam first coverage ++ published seam second (ledgerAfter seam first coverage) := by
  induction first generalizing coverage with
  | nil => rfl
  | cons op first inductionHypothesis =>
      rw [List.cons_append, published, published, inductionHypothesis, List.append_assoc]
      rfl

theorem about_append (pair : Pair) (first second : List (Ticker × Gap)) :
    about pair (first ++ second) = about pair first ++ about pair second := List.filter_append _ _

/-- When a pair's stream was last heard in a run. -/
def heardIn (seam : Seam) (pair : Pair) (ops : List LoopOp) : Option Int :=
  ops.foldl (hear seam pair) none

theorem withoutUnreaching_append (seam : Seam) (pair : Pair) (first second : List LoopOp)
    (heard : Option Int) :
    withoutUnreaching seam pair heard (first ++ second) =
      withoutUnreaching seam pair heard first ++
        withoutUnreaching seam pair (first.foldl (hear seam pair) heard) second := by
  induction first generalizing heard with
  | nil => rfl
  | cons op first inductionHypothesis =>
      simp only [List.cons_append, withoutUnreaching, inductionHypothesis, List.foldl_cons]
      split <;> rfl

/-- One thing more is kept where it reaches. -/
theorem withoutUnreaching_concat (seam : Seam) (pair : Pair) (ops : List LoopOp) (op : LoopOp) :
    withoutUnreaching seam pair none (ops ++ [op]) =
      withoutUnreaching seam pair none ops ++
        if ReachesPast (heardIn seam pair ops) op then [op] else [] := by
  rw [withoutUnreaching_append]
  rfl

/-- The ledger of a run without the pages that do not reach. -/
abbrev keptAfter (seam : Seam) (pair : Pair) (ops : List LoopOp) (coverage : Coverage) : Coverage :=
  ledgerAfter seam (withoutUnreaching seam pair none ops) coverage

/-- **Pages of the past do not move a pair's gaps.**  At every moment of a run, what was published
of the pair is what the run without the pages that do not reach publishes, and so would be the gap
of a loss and the tail of an ask-again. -/
def Unmoved (seam : Seam) (pair : Pair) (coverage : Coverage) (ops : List LoopOp) : Prop :=
  ∀ earlier later, ops = earlier ++ later →
    about pair (published seam earlier coverage) =
        about pair (published seam (withoutUnreaching seam pair none earlier) coverage) ∧
      (∀ nowMicros, (ledgerAfter seam earlier coverage).gapOf nowMicros .sessionLost pair =
        (keptAfter seam pair earlier coverage).gapOf nowMicros .sessionLost pair) ∧
      ∀ nowMicros, (ledgerAfter seam earlier coverage).tailOf nowMicros pair =
        (keptAfter seam pair earlier coverage).tailOf nowMicros pair

/-- A page that covers a pair reaches past the last receipt of the pair's stream, or the ledger
hides it. -/
def ReachesOrHides (seam : Seam) (pair : Pair) (coverage : Coverage) (heard : Option Int) :
    LoopOp → Prop
  | .page toMicros payload => ReachesPast heard (.page toMicros payload) ∨
      pair ∉ seam.covers payload ∨ (coverage.entry pair).Hides payload.recvMicros
  | .frame .. | .handedOver _ | .sessionLost _ | .askedAgain .. => True

section Runs

variable {seam : Seam} {pair : Pair} {coverage : Coverage}

/-- One thing more that reaches leaves two runs alike. -/
theorem alike_of_reaches {ops : List LoopOp} {op : LoopOp}
    (alike : Alike pair (ledgerAfter seam ops coverage) (keptAfter seam pair ops coverage))
    (reaches : ReachesPast (heardIn seam pair ops) op) :
    Alike pair (ledgerAfter seam (ops ++ [op]) coverage) (keptAfter seam pair (ops ++ [op]) coverage) ∧
      about pair (op.apply seam (ledgerAfter seam ops coverage)).2 =
        about pair (op.apply seam (keptAfter seam pair ops coverage)).2 := by
  unfold keptAfter
  rw [withoutUnreaching_concat, if_pos reaches, ledgerAfter_concat, ledgerAfter_concat]
  exact alike.apply seam op

/-- What does not reach is a page, which publishes nothing and is left out of the other run. -/
theorem exists_page_of_not_reaches {heard : Option Int} {op : LoopOp}
    (unreaching : ¬ ReachesPast heard op) : ∃ toMicros payload, op = .page toMicros payload := by
  cases op with
  | page toMicros payload => exact ⟨toMicros, payload, rfl⟩
  | frame | handedOver | sessionLost | askedAgain => exact absurd trivial unreaching

/-- A page that does not reach leaves two runs alike exactly where the ledger hides it, if it covers
the pair. -/
theorem alike_page_iff {ops : List LoopOp} {toMicros : Int} {payload : Payload}
    (alike : Alike pair (ledgerAfter seam ops coverage) (keptAfter seam pair ops coverage))
    (unreaching : ¬ ReachesPast (heardIn seam pair ops) (.page toMicros payload)) :
    Alike pair (ledgerAfter seam (ops ++ [.page toMicros payload]) coverage)
        (keptAfter seam pair (ops ++ [.page toMicros payload]) coverage) ↔
      (pair ∈ seam.covers payload →
        ((ledgerAfter seam ops coverage).entry pair).Hides payload.recvMicros) := by
  have kept : keptAfter seam pair (ops ++ [.page toMicros payload]) coverage =
      keptAfter seam pair ops coverage := by
    unfold keptAfter
    rw [withoutUnreaching_concat, if_neg unreaching, List.append_nil]
  have entry := entry_apply seam (.page toMicros payload) (ledgerAfter seam ops coverage) pair
  rw [kept, ledgerAfter_concat]
  constructor
  · intro after isCovered
    have same := after.entry
    rw [entry, LoopOp.touch, if_pos (seam.credits_iff.mpr isCovered)] at same
    exact (PairLedger.datesAs_covered_iff _ _).mp (same.trans alike.entry.symm)
  · intro hides
    refine ⟨(clipped_apply seam _ _).trans alike.clipped, ?_⟩
    rw [entry, LoopOp.touch]
    split
    · rename_i isCovered
      exact ((PairLedger.datesAs_covered_iff _ _).mpr (hides (seam.credits_iff.mp isCovered))).trans
        alike.entry
    · exact alike.entry

/-- A run whose pages each reach, or are hidden, is alike the run without those that do not. -/
theorem alike_of_reachesOrHides {ops : List LoopOp}
    (hidden : ∀ earlier op later, ops = earlier ++ op :: later →
      ReachesOrHides seam pair (ledgerAfter seam earlier coverage) (heardIn seam pair earlier) op) :
    Alike pair (ledgerAfter seam ops coverage) (keptAfter seam pair ops coverage) ∧
      about pair (published seam ops coverage) =
        about pair (published seam (withoutUnreaching seam pair none ops) coverage) := by
  induction ops using List.reverseRecOn with
  | nil => exact ⟨⟨rfl, PairLedger.DatesAs.refl _⟩, rfl⟩
  | append_singleton ops op inductionHypothesis =>
      have sofar := inductionHypothesis fun earlier other later isPart =>
        hidden earlier other (later ++ [op]) (by rw [isPart, List.append_assoc, List.cons_append])
      have here := hidden ops op [] rfl
      by_cases reaches : ReachesPast (heardIn seam pair ops) op
      · obtain ⟨after, same⟩ := alike_of_reaches sofar.1 reaches
        refine ⟨after, ?_⟩
        rw [withoutUnreaching_concat, if_pos reaches, published_append, published_append,
          about_append, about_append, sofar.2]
        simp only [published, List.append_nil]
        rw [same]
      · obtain ⟨toMicros, payload, rfl⟩ := exists_page_of_not_reaches reaches
        refine ⟨(alike_page_iff sofar.1 reaches).mpr fun isCovered =>
          (here.resolve_left reaches).resolve_left (not_not.mpr isCovered), ?_⟩
        rw [withoutUnreaching_concat, if_neg reaches, List.append_nil, published_append,
          about_append, sofar.2]
        exact List.append_nil _

/-- Equal gaps of a loss are dated from one moment. -/
theorem gap_lost_of_gapOf {first second : Coverage} {toMicros : Int} {cause : GapCause}
    (same : first.gapOf toMicros cause pair = second.gapOf toMicros cause pair) :
    (Touch.lost toMicros cause).gap (first.entry pair) =
      (Touch.lost toMicros cause).gap (second.entry pair) := by
  rw [Coverage.gapOf_eq, Coverage.gapOf_eq] at same
  cases isFirst : (Touch.lost toMicros cause).gap (first.entry pair) with
  | none =>
      rw [isFirst] at same
      exact (Option.map_eq_none_iff.mp same.symm).symm
  | some interval =>
      rw [isFirst] at same
      obtain ⟨other, isSecond, isRow⟩ := Option.map_eq_some_iff.mp same.symm
      have ends := (Touch.gap_lost_snd isFirst).trans (Touch.gap_lost_snd isSecond).symm
      have starts := (Gap.mk.inj (Prod.mk.inj isRow).2).2.1
      rw [isSecond, Prod.ext starts ends.symm]

/-- Equal tails of an open gap are dated from one moment. -/
theorem gap_asked_of_tailOf {first second : Coverage} {atMicros : Int}
    (same : first.tailOf atMicros pair = second.tailOf atMicros pair) :
    (Touch.asked atMicros).gap (first.entry pair) =
      (Touch.asked atMicros).gap (second.entry pair) := by
  have row {coverage : Coverage} {interval : Int × Int}
      (isGap : (Touch.asked atMicros).gap (coverage.entry pair) = some interval) :
      ∃ gapped : Gapped, coverage.tailOf atMicros pair = some (pair.1,
        ⟨pair.2, interval.1, atMicros, gapped.cause, coverage.clipped, none⟩) := by
    obtain ⟨gapped, isGapped⟩ := Touch.exists_gapped_of_asked isGap
    exact ⟨gapped, by rw [Coverage.tailOf_eq, isGap, isGapped]; rfl⟩
  have none {coverage : Coverage}
      (isGap : (Touch.asked atMicros).gap (coverage.entry pair) = none) :
      coverage.tailOf atMicros pair = none := by
    rw [Coverage.tailOf_eq, isGap]
    rfl
  cases isFirst : (Touch.asked atMicros).gap (first.entry pair) with
  | none =>
      cases isSecond : (Touch.asked atMicros).gap (second.entry pair) with
      | none => rfl
      | some interval =>
          obtain ⟨gapped, isRow⟩ := row isSecond
          rw [none isFirst, isRow] at same
          cases same
  | some interval =>
      obtain ⟨gapped, isRow⟩ := row isFirst
      cases isSecond : (Touch.asked atMicros).gap (second.entry pair) with
      | none =>
          rw [none isSecond, isRow] at same
          cases same
      | some other =>
          obtain ⟨otherGapped, isOther⟩ := row isSecond
          rw [isRow, isOther] at same
          have starts := (Gap.mk.inj (Prod.mk.inj (Option.some.inj same)).2).2.1
          have ends := (Touch.gap_asked_snd isFirst).trans (Touch.gap_asked_snd isSecond).symm
          rw [Prod.ext starts ends]

/-- A run in which nothing moved is alike the run without the pages that do not reach. -/
theorem alike_of_unmoved {ops : List LoopOp} (unmoved : Unmoved seam pair coverage ops) :
    Alike pair (ledgerAfter seam ops coverage) (keptAfter seam pair ops coverage) := by
  induction ops using List.reverseRecOn with
  | nil => exact ⟨rfl, PairLedger.DatesAs.refl _⟩
  | append_singleton ops op inductionHypothesis =>
      have sofar := inductionHypothesis fun earlier later isPart =>
        unmoved earlier (later ++ [op]) (by rw [isPart, List.append_assoc])
      by_cases reaches : ReachesPast (heardIn seam pair ops) op
      · exact (alike_of_reaches sofar reaches).1
      · obtain ⟨toMicros, payload, rfl⟩ := exists_page_of_not_reaches reaches
        obtain ⟨_, lost, asked⟩ := unmoved (ops ++ [.page toMicros payload]) []
          (List.append_nil _).symm
        have kept : keptAfter seam pair (ops ++ [.page toMicros payload]) coverage =
            keptAfter seam pair ops coverage := by
          unfold keptAfter
          rw [withoutUnreaching_concat, if_neg reaches, List.append_nil]
        refine ⟨?_, PairLedger.datesAs_of_gap ?_ (fun toMicros => gap_lost_of_gapOf (lost toMicros))
          fun atMicros => gap_asked_of_tailOf (asked atMicros)⟩
        · rw [kept, ledgerAfter_concat, clipped_apply, sofar.clipped]
        · rw [kept, ← sofar.entry.gapped, ledgerAfter_concat, entry_apply, LoopOp.touch]
          split <;> rfl

/-- **When pages of the past do not move a pair's gaps.** -/
theorem unmoved_iff (seam : Seam) (pair : Pair) (coverage : Coverage) (ops : List LoopOp) :
    Unmoved seam pair coverage ops ↔
      ∀ earlier op later, ops = earlier ++ op :: later →
        ReachesOrHides seam pair (ledgerAfter seam earlier coverage) (heardIn seam pair earlier)
          op := by
  constructor
  · intro unmoved earlier op later isOps
    have before : Alike pair (ledgerAfter seam earlier coverage)
        (keptAfter seam pair earlier coverage) :=
      alike_of_unmoved fun first second isPart => unmoved first (second ++ op :: later) (by
        rw [isOps, isPart, List.append_assoc])
    have after : Alike pair (ledgerAfter seam (earlier ++ [op]) coverage)
        (keptAfter seam pair (earlier ++ [op]) coverage) :=
      alike_of_unmoved fun first second isPart => unmoved first (second ++ later) (by
        rw [isOps, ← List.append_assoc, ← isPart, List.append_assoc, List.singleton_append])
    cases op with
    | page toMicros payload =>
        by_cases reaches : ReachesPast (heardIn seam pair earlier) (.page toMicros payload)
        · exact .inl reaches
        · have hides := (alike_page_iff before reaches).mp after
          by_cases isCovered : pair ∈ seam.covers payload
          · exact .inr (.inr (hides isCovered))
          · exact .inr (.inl isCovered)
    | frame | handedOver | sessionLost | askedAgain => trivial
  · intro hidden earlier later isPart
    have reaching : ∀ first op second, earlier = first ++ op :: second →
        ReachesOrHides seam pair (ledgerAfter seam first coverage) (heardIn seam pair first) op := by
      intro first op second isEarlier
      apply hidden first op (second ++ later)
      rw [isPart, isEarlier, List.append_assoc, List.cons_append]
    obtain ⟨alike, same⟩ := alike_of_reachesOrHides reaching
    exact ⟨same, fun nowMicros => alike.gapOf nowMicros _, fun nowMicros => alike.tailOf nowMicros⟩

end Runs

/-- A trade payload of one moment. -/
def tradeAt (origin : Origin) (recvMicros : Int) : Payload :=
  ⟨0, recvMicros, .venue "robinhood".toList, "trades".toList, "trades".toList, none, origin, []⟩

/-- A venue of one declared pair, all of whose payloads parse. -/
def quietSeam : Seam where
  normaliser := ⟨robinhood, fun _ => .ok []⟩
  generatedEnvelope := fun _ => .error []
  classify := fun _ nowMicros => tradeAt .streamed nowMicros
  seriesOfChannel := fun _ => some .trades
  venueTicker := fun _ _ => none
  declared := [teslaTrades]

/-- A stream heard at 100, a page of the range to 50 received at 200, and a session lost at 300. -/
def pageWhileSilent : List LoopOp :=
  [.frame [] 100, .page 50 (tradeAt .fetched 200), .sessionLost 300]

/-- **A page about the past shrinks a gap.**  The loss is dated from the page, and without the page
from the stream. -/
theorem past_page_shrinks_gap :
    (published quietSeam pageWhileSilent { clipped := .continuous }).map
        (fun row => (row.2.fromMicros, row.2.toMicros)) = [(200, 300)] ∧
      (published quietSeam (withoutUnreaching quietSeam teslaTrades none pageWhileSilent)
        { clipped := .continuous }).map (fun row => (row.2.fromMicros, row.2.toMicros)) =
          [(100, 300)] ∧
      ¬ Unmoved quietSeam teslaTrades { clipped := .continuous } pageWhileSilent := by
  refine ⟨by decide +kernel, by decide +kernel, ?_⟩
  intro unmoved
  have same := congrArg (List.map fun row => row.2.fromMicros)
    (unmoved pageWhileSilent [] (List.append_nil _).symm).1
  have moved : (about teslaTrades (published quietSeam pageWhileSilent
      { clipped := .continuous })).map (fun row => row.2.fromMicros) = [200] := by
    decide +kernel
  have kept : (about teslaTrades (published quietSeam (withoutUnreaching quietSeam teslaTrades none
      pageWhileSilent) { clipped := .continuous })).map (fun row => row.2.fromMicros) = [100] := by
    decide +kernel
  rw [moved, kept] at same
  cases same

end Capture
end Datawatch
