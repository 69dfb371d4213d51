import Mathlib.Data.List.Sort
import Datawatch.Derive.Returns

/-!
# Returns on the right closes

Which bar a slot's close is, when a return is there and when it is backfilled, and the lists of
bars whose returns do not depend on their order.
-/

namespace Datawatch
namespace Derive

open Library

variable {Price : Type u}

/-- The bucket, in microseconds. -/
def Horizon.bucket (horizon : Horizon) : Int := horizon.bucketSecs * 1000000

/-- A bar closes a slot: a final one, received at or after its own end, of a positive width that
divides the bucket, inside the window, and ending where the slot's bucket does. -/
structure Closes (horizon : Horizon) (slot : Int) (bar : Bar Price) : Prop where
  isFinal : bar.isFinal = true
  heardWhole : bar.startMicros + bar.widthMicros ≤ bar.recvMicros
  positive : 0 < bar.widthMicros
  divides : bar.widthMicros ∣ horizon.bucket
  fromInside : horizon.fromMicros ≤ bar.startMicros
  toInside : bar.startMicros + bar.widthMicros ≤ horizon.toMicros
  ends : bar.startMicros + bar.widthMicros = (slot + 1) * horizon.bucket

/-- A bar is the last heard of those that close a slot.  Several may be. -/
structure LastHeard (bars : List (Bar Price)) (horizon : Horizon) (slot : Int)
    (bar : Bar Price) : Prop where
  isBar : bar ∈ bars
  closes : Closes horizon slot bar
  last : ∀ other ∈ bars, Closes horizon slot other → other.recvMicros ≤ bar.recvMicros

/-- A forming row of a bar's width was received within one width of the bar's close. -/
def HeardLive (bars : List (Bar Price)) (bar : Bar Price) : Prop :=
  ∃ forming ∈ bars, forming.isFinal = false ∧ forming.widthMicros = bar.widthMicros ∧
    bar.startMicros + bar.widthMicros - bar.widthMicros ≤ forming.recvMicros ∧
      forming.recvMicros ≤ bar.startMicros + bar.widthMicros + bar.widthMicros

instance (bars : List (Bar Price)) (bar : Bar Price) : Decidable (HeardLive bars bar) :=
  inferInstanceAs (Decidable (∃ forming ∈ bars, _))

/-- The grid and the returns stand on the right closes. -/
structure StandsOn (arithmetic : Arithmetic Price) (bars : List (Bar Price)) (horizon : Horizon)
    (held : Directory Int (Held Price)) (out : List (Int × Return Price)) : Prop where
  /-- A slot is filled exactly where a bar closes it. -/
  filled : ∀ slot, (∃ closing, held.lookup slot = some closing) ↔
    ∃ bar ∈ bars, Closes horizon slot bar
  /-- Its close is that of the last heard. -/
  closes : ∀ slot closing, held.lookup slot = some closing →
    ∀ bar, LastHeard bars horizon slot bar → closing.close = bar.close
  /-- There is at most one return into a slot, and they stand in the order of their slots. -/
  ascending : out.Pairwise fun first second => first.1 < second.1
  /-- A return is there exactly where its slot and the one before are filled, with positive
  closes. -/
  present : ∀ slot, (∃ value, (slot, value) ∈ out) ↔ ∃ previous next,
    held.lookup (slot - 1) = some previous ∧ held.lookup slot = some next ∧
      arithmetic.isPositive previous.close = true ∧ arithmetic.isPositive next.close = true
  /-- It is the logarithm of the ratio of the last heard closes. -/
  values : ∀ slot value, (slot, value) ∈ out → ∀ previous next,
    LastHeard bars horizon (slot - 1) previous → LastHeard bars horizon slot next →
      value.value = arithmetic.ln (arithmetic.divide next.close previous.close)
  /-- It is backfilled exactly where either closing bar was not heard live. -/
  backfilled : ∀ slot value, (slot, value) ∈ out → ∀ previous next,
    LastHeard bars horizon (slot - 1) previous → LastHeard bars horizon slot next →
      (value.backfilled = true ↔ ¬ HeardLive bars previous ∨ ¬ HeardLive bars next)

/-- The derivation returns, stands on the right closes, and does not depend on the order of the
bars. -/
def RightCloses (arithmetic : Arithmetic Price) (bars : List (Bar Price)) (horizon : Horizon) :
    Prop :=
  ∃ held out, slots bars horizon = .returns held ∧
    returns arithmetic bars horizon = .returns out ∧
      StandsOn arithmetic bars horizon held out ∧
        ∀ other, bars.Perm other → returns arithmetic other horizon = .returns out

/-- No sum a bar needs overflows: its end, and a width beyond it where it closes a slot and a
forming row of its width was received since it opened. -/
structure FitsBar (bars : List (Bar Price)) (horizon : Horizon) (bar : Bar Price) : Prop where
  ends : bar.isFinal = true → Fits (bar.startMicros + bar.widthMicros)
  near : ∀ slot, Closes horizon slot bar → ∀ forming ∈ bars, forming.isFinal = false →
    forming.widthMicros = bar.widthMicros → bar.startMicros ≤ forming.recvMicros →
      Fits (bar.startMicros + bar.widthMicros + bar.widthMicros)

/-- Nothing the derivation computes overflows. -/
structure NoOverflow (bars : List (Bar Price)) (horizon : Horizon) : Prop where
  bucket : Fits horizon.bucket
  bars : ∀ bar ∈ bars, FitsBar bars horizon bar

/-- The receipts decide the returns: bars of one slot that tie as its last heard have one close,
and those that tie around a return agree on whether both were heard live. -/
structure Decided (arithmetic : Arithmetic Price) (bars : List (Bar Price))
    (horizon : Horizon) : Prop where
  close : ∀ slot first second, LastHeard bars horizon slot first →
    LastHeard bars horizon slot second → first.close = second.close
  live : ∀ slot first firstNext second secondNext,
    LastHeard bars horizon (slot - 1) first → LastHeard bars horizon slot firstNext →
      LastHeard bars horizon (slot - 1) second → LastHeard bars horizon slot secondNext →
        arithmetic.isPositive first.close = true → arithmetic.isPositive firstNext.close = true →
          (HeardLive bars first ∧ HeardLive bars firstNext ↔
            HeardLive bars second ∧ HeardLive bars secondNext)

theorem checked_eq_returns_iff {value result : Int} :
    checked value = .returns result ↔ Fits value ∧ value = result := by
  unfold checked
  split
  next fits => simp [fits]
  next overflows => simp [overflows]

theorem checked_bind_eq_returns_iff {Result : Type v} {value : Int} {next : Int → Attempt Result}
    {result : Result} :
    (checked value).bind next = .returns result ↔ Fits value ∧ next value = .returns result := by
  rw [Attempt.bind_eq_returns_iff]
  simp only [checked_eq_returns_iff]
  constructor
  · intro returned
    obtain ⟨_, ⟨fits, rfl⟩, isResult⟩ := returned
    exact ⟨fits, isResult⟩
  · intro returned
    exact ⟨value, ⟨returned.1, rfl⟩, returned.2⟩

/-- What ends where a bucket does, and is no wider, starts in it. -/
theorem ediv_eq_of_ends {bucket width start slot : Int} (positive : 0 < width)
    (within : width ≤ bucket) (ends : start + width = (slot + 1) * bucket) :
    start / bucket = slot := by
  have isStart : start = bucket - width + bucket * slot := by
    rw [add_mul, one_mul, Int.mul_comm] at ends
    omega
  have belowOne : (bucket - width) / bucket = 0 :=
    Int.ediv_eq_zero_of_lt (by omega) (by omega)
  rw [isStart, Int.add_mul_ediv_left _ _ (by omega), belowOne, Int.zero_add]

/-- A bar closes the slot it starts in. -/
theorem Closes.ediv_eq {horizon : Horizon} (positive : 0 < horizon.bucket) {slot : Int}
    {bar : Bar Price} (closes : Closes horizon slot bar) :
    bar.startMicros / horizon.bucket = slot :=
  ediv_eq_of_ends closes.positive (Int.le_of_dvd positive closes.divides) closes.ends

/-- A final bar is admitted exactly where it closes the slot it starts in. -/
theorem admits_iff {horizon : Horizon} (positive : 0 < horizon.bucket) {bar : Bar Price}
    (isFinal : bar.isFinal = true) :
    admits horizon horizon.bucket bar (bar.startMicros + bar.widthMicros) = true ↔
      Closes horizon (bar.startMicros / horizon.bucket) bar := by
  simp only [admits, Bool.not_eq_true', Bool.or_eq_false_iff, decide_eq_false_iff_not, not_lt,
    not_le, ne_eq, not_not, gt_iff_lt]
  constructor
  · intro admitted
    obtain ⟨⟨⟨⟨⟨heardWhole, widthPositive⟩, divided⟩, fromInside⟩, toInside⟩, onBoundary⟩ :=
      admitted
    have divides := Int.dvd_of_tmod_eq_zero divided
    obtain ⟨quotient, isEnd⟩ := Int.dvd_of_emod_eq_zero onBoundary
    have ends : bar.startMicros + bar.widthMicros = (quotient - 1 + 1) * horizon.bucket := by
      rw [isEnd, Int.sub_add_cancel, Int.mul_comm]
    have isSlot := ediv_eq_of_ends widthPositive (Int.le_of_dvd positive divides) ends
    exact ⟨isFinal, heardWhole, widthPositive, divides, fromInside, toInside, by rw [isSlot, ends]⟩
  · intro closes
    refine ⟨⟨⟨⟨⟨closes.heardWhole, closes.positive⟩, ?_⟩, closes.fromInside⟩, closes.toInside⟩, ?_⟩
    · exact Int.tmod_eq_zero_of_dvd closes.divides
    · rw [closes.ends]
      exact Int.mul_emod_left _ _

/-- The receipts of a width are those of the forming rows of that width, in order. -/
theorem of_find_heardOf {bars : List (Bar Price)} {width found : Int} {receipts : List Int}
    (isFound : (heardOf bars).find? (fun group => group.1 = width) = some (found, receipts)) :
    receipts.Pairwise (· ≤ ·) ∧ ∀ receipt, receipt ∈ receipts ↔ ∃ forming ∈ bars,
      forming.isFinal = false ∧ forming.widthMicros = width ∧ forming.recvMicros = receipt := by
  have isWidth : found = width := by simpa using List.find?_some isFound
  obtain ⟨group, isGroup, same⟩ := List.mem_map.mp (List.mem_of_find?_eq_some isFound)
  cases same
  refine ⟨List.pairwise_insertionSort _ _, fun receipt => ?_⟩
  rw [List.mem_insertionSort, Grouping.eq_filter_of_mem_groupBy isGroup, isWidth]
  simp only [List.mem_map, List.mem_filter, Bool.not_eq_true', decide_eq_true_eq, and_assoc]

/-- A width without receipts has no forming row. -/
theorem not_forming_of_find_heardOf {bars : List (Bar Price)} {width : Int}
    (absent : (heardOf bars).find? (fun group => group.1 = width) = none)
    {forming : Bar Price} (isBar : forming ∈ bars) (isForming : forming.isFinal = false) :
    forming.widthMicros ≠ width := by
  intro sameWidth
  have inForming : forming ∈ bars.filter fun bar => !bar.isFinal :=
    List.mem_filter.mpr ⟨isBar, by simp [isForming]⟩
  have isGroup := @Grouping.mem_groupBy _ _ _ Bar.widthMicros _ _ inForming
  rw [heardOf, List.find?_map, Option.map_eq_none_iff, List.find?_eq_none] at absent
  exact absent _ isGroup (by simpa using sameWidth)

/-- The index is read without an overflow exactly where a width beyond the bar's end fits, if a
forming row of its width was received since it opened; it answers whether one was heard live. -/
theorem heardAt_eq_returns_iff {bars : List (Bar Price)} {bar : Bar Price} {near : Bool} :
    heardAt (heardOf bars) bar.widthMicros (bar.startMicros + bar.widthMicros) = .returns near ↔
      (∀ forming ∈ bars, forming.isFinal = false → forming.widthMicros = bar.widthMicros →
        bar.startMicros ≤ forming.recvMicros →
          Fits (bar.startMicros + bar.widthMicros + bar.widthMicros)) ∧
        near = decide (HeardLive bars bar) := by
  have opened : bar.startMicros + bar.widthMicros - bar.widthMicros = bar.startMicros := by omega
  unfold heardAt
  split
  next absent =>
    have none {forming : Bar Price} (isBar : forming ∈ bars) (isForming : forming.isFinal = false) :
        forming.widthMicros ≠ bar.widthMicros :=
      not_forming_of_find_heardOf absent isBar isForming
    have notLive : ¬ HeardLive bars bar := by
      intro live
      obtain ⟨forming, isBar, isForming, sameWidth, _⟩ := live
      exact none isBar isForming sameWidth
    rw [decide_eq_false notLive, Attempt.returns.injEq, eq_comm]
    exact ⟨fun same => ⟨fun _ isBar isForming sameWidth => absurd sameWidth (none isBar isForming),
      same⟩, And.right⟩
  next found receipts isFound =>
    obtain ⟨sorted, isReceipt⟩ := of_find_heardOf isFound
    rw [checked_bind_eq_returns_iff, opened]
    simp only [bar.startFits, true_and]
    split
    next absent =>
      rw [getElem?_partitionPoint_eq_none_iff] at absent
      have before {forming : Bar Price} (isBar : forming ∈ bars)
          (isForming : forming.isFinal = false)
          (sameWidth : forming.widthMicros = bar.widthMicros) :
          forming.recvMicros < bar.startMicros :=
        of_decide_eq_true (absent _ ((isReceipt _).mpr ⟨forming, isBar, isForming, sameWidth, rfl⟩))
      have notLive : ¬ HeardLive bars bar := by
        intro live
        obtain ⟨forming, isBar, isForming, sameWidth, since, _⟩ := live
        have := before isBar isForming sameWidth
        omega
      rw [decide_eq_false notLive, Attempt.returns.injEq, eq_comm]
      refine ⟨fun same => ⟨fun _ isBar isForming sameWidth since => ?_, same⟩, And.right⟩
      have := before isBar isForming sameWidth
      omega
    next receipt isFirst =>
      obtain ⟨inReceipts, since, least⟩ := of_getElem?_partitionPoint_eq_some sorted isFirst
      obtain ⟨first, isBar, isForming, sameWidth, sameReceipt⟩ := (isReceipt _).mp inReceipts
      have live_iff : HeardLive bars bar ↔
          receipt ≤ bar.startMicros + bar.widthMicros + bar.widthMicros := by
        constructor
        · intro live
          obtain ⟨forming, inBars, forms, ofWidth, isSince, isNear⟩ := live
          have := least _ ((isReceipt _).mpr ⟨forming, inBars, forms, ofWidth, rfl⟩) (by omega)
          omega
        · intro isNear
          exact ⟨first, isBar, isForming, sameWidth, by omega, by omega⟩
      rw [checked_bind_eq_returns_iff, Attempt.returns.injEq, decide_eq_decide.mpr live_iff,
        @eq_comm _ near]
      refine and_congr_left fun _ => ⟨fun fits _ _ _ _ _ => fits, fun fits => ?_⟩
      exact fits first isBar isForming sameWidth (by omega)

/-- What a bar is held as. -/
def heldOf (bars : List (Bar Price)) (bar : Bar Price) : Held Price :=
  ⟨bar.recvMicros, bar.close, !decide (HeardLive bars bar)⟩

/-- What a bar puts into the slot it closes. -/
def entryOf (bars : List (Bar Price)) (horizon : Horizon) (bar : Bar Price) :
    Option (Int × Held Price) :=
  if bar.isFinal && admits horizon horizon.bucket bar (bar.startMicros + bar.widthMicros) then
    some (bar.startMicros / horizon.bucket, heldOf bars bar)
  else none

theorem entryOf_eq_some_iff {bars : List (Bar Price)} {horizon : Horizon}
    (positive : 0 < horizon.bucket) {bar : Bar Price} {slot : Int} {held : Held Price} :
    entryOf bars horizon bar = some (slot, held) ↔
      Closes horizon slot bar ∧ held = heldOf bars bar := by
  unfold entryOf
  rw [Option.ite_none_right_eq_some, Bool.and_eq_true, Option.some_inj, Prod.mk.injEq]
  constructor
  · intro isEntry
    obtain ⟨⟨isFinal, admitted⟩, isSlot, isHeld⟩ := isEntry
    rw [← isSlot]
    exact ⟨(admits_iff positive isFinal).mp admitted, isHeld.symm⟩
  · intro isEntry
    obtain ⟨closes, isHeld⟩ := isEntry
    have isSlot := closes.ediv_eq positive
    refine ⟨⟨closes.isFinal, (admits_iff positive closes.isFinal).mpr ?_⟩, isSlot, isHeld.symm⟩
    rw [isSlot]
    exact closes

/-- A bar is considered without an overflow exactly where its sums fit. -/
theorem candidate_eq_returns_iff {bars : List (Bar Price)} {horizon : Horizon}
    (positive : 0 < horizon.bucket) {bar : Bar Price} {entry : Option (Int × Held Price)} :
    candidate (heardOf bars) horizon horizon.bucket bar = .returns entry ↔
      FitsBar bars horizon bar ∧ entry = entryOf bars horizon bar := by
  unfold candidate
  split
  next isFinal =>
    rw [Bar.endMicros, checked_bind_eq_returns_iff]
    split
    next admitted =>
      have closes := (admits_iff positive isFinal).mp admitted
      have isEntry : entryOf bars horizon bar =
          some (bar.startMicros / horizon.bucket, heldOf bars bar) :=
        (entryOf_eq_some_iff positive).mpr ⟨closes, rfl⟩
      rw [Attempt.bind_eq_returns_iff, isEntry]
      simp only [heardAt_eq_returns_iff, Attempt.returns.injEq]
      constructor
      · intro returned
        obtain ⟨fits, near, ⟨isNear, rfl⟩, rfl⟩ := returned
        exact ⟨⟨fun _ => fits, fun _ _ => isNear⟩, rfl⟩
      · intro returned
        obtain ⟨fits, rfl⟩ := returned
        exact ⟨fits.ends isFinal, _, ⟨fits.near _ closes, rfl⟩, rfl⟩
    next refused =>
      have noSlot (slot : Int) : ¬ Closes horizon slot bar := by
        intro closes
        have isSlot := closes.ediv_eq positive
        rw [← isSlot] at closes
        exact refused ((admits_iff positive isFinal).mpr closes)
      have isEntry : entryOf bars horizon bar = none := by
        simp [entryOf, refused]
      rw [isEntry, Attempt.returns.injEq, @eq_comm _ none]
      refine and_congr_left fun _ => ⟨fun fits => ?_, fun fits => fits.ends isFinal⟩
      exact ⟨fun _ => fits, fun slot closes => absurd closes (noSlot slot)⟩
  next forming =>
    have isEntry : entryOf bars horizon bar = none := by
      simp [entryOf, forming]
    rw [isEntry, Attempt.returns.injEq, @eq_comm _ none]
    refine ⟨fun same => ⟨⟨fun isFinal => absurd isFinal forming, fun _ closes =>
      absurd closes.isFinal forming⟩, same⟩, And.right⟩

/-- Bars are placed without an overflow exactly where the sums of each fit. -/
theorem place_eq_returns_iff {bars : List (Bar Price)} {horizon : Horizon}
    (positive : 0 < horizon.bucket) {rest : List (Bar Price)}
    {start final : Directory Int (Held Price)} :
    place (heardOf bars) horizon horizon.bucket rest start = .returns final ↔
      (∀ bar ∈ rest, FitsBar bars horizon bar) ∧
        final =
          (rest.filterMap (entryOf bars horizon)).foldl (Latest.keep Held.recvMicros) start := by
  induction rest generalizing start with
  | nil =>
      rw [place, Attempt.returns.injEq, eq_comm]
      simp
  | cons bar rest inductionHypothesis =>
      rw [place, Attempt.bind_eq_returns_iff]
      simp only [candidate_eq_returns_iff positive, inductionHypothesis, List.forall_mem_cons]
      have step : ((bar :: rest).filterMap (entryOf bars horizon)).foldl
          (Latest.keep Held.recvMicros) start =
            (rest.filterMap (entryOf bars horizon)).foldl (Latest.keep Held.recvMicros)
              ((entryOf bars horizon bar).elim start (Latest.keep Held.recvMicros start)) := by
        cases isEntry : entryOf bars horizon bar with
        | none => rw [List.filterMap_cons_none isEntry, Option.elim_none]
        | some entry =>
            rw [List.filterMap_cons_some isEntry, List.foldl_cons, Option.elim_some]
      rw [step]
      constructor
      · intro placed
        obtain ⟨_, ⟨fits, rfl⟩, fitsRest, isFinal⟩ := placed
        exact ⟨⟨fits, fitsRest⟩, isFinal⟩
      · intro placed
        exact ⟨_, ⟨placed.1.1, rfl⟩, placed.1.2, placed.2⟩

/-- The slots are returned exactly where nothing overflows, and hold the latest of each. -/
theorem slots_eq_returns_iff {bars : List (Bar Price)} {horizon : Horizon}
    (positive : 0 < horizon.bucket) {held : Directory Int (Held Price)} :
    slots bars horizon = .returns held ↔ NoOverflow bars horizon ∧
      held = Latest.keepAll Held.recvMicros (bars.filterMap (entryOf bars horizon)) := by
  rw [slots, checked_bind_eq_returns_iff]
  refine (and_congr_right fun _ => place_eq_returns_iff positive).trans ?_
  rw [← and_assoc]
  refine and_congr_left fun _ => ⟨fun fits => ⟨fits.1, fits.2⟩, fun fits => ⟨fits.1, fits.2⟩⟩

/-- The latest of a slot is the last heard of the bars that close it. -/
theorem isLatest_iff {bars : List (Bar Price)} {horizon : Horizon}
    (positive : 0 < horizon.bucket) {slot : Int} {held : Held Price} :
    Latest.IsLatest Held.recvMicros (bars.filterMap (entryOf bars horizon)) slot held ↔
      ∃ bar, LastHeard bars horizon slot bar ∧ held = heldOf bars bar := by
  simp only [Latest.IsLatest, List.mem_filterMap, entryOf_eq_some_iff positive]
  constructor
  · intro latest
    obtain ⟨⟨bar, isBar, closes, isHeld⟩, none⟩ := latest
    refine ⟨bar, ⟨isBar, closes, fun other isOther otherCloses => ?_⟩, isHeld⟩
    have notLater := none _ ⟨other, isOther, otherCloses, rfl⟩
    rw [isHeld] at notLater
    exact notLater
  · intro latest
    obtain ⟨bar, lastHeard, isHeld⟩ := latest
    refine ⟨⟨bar, lastHeard.isBar, lastHeard.closes, isHeld⟩, fun other isOther => ?_⟩
    obtain ⟨otherBar, inBars, otherCloses, sameHeld⟩ := isOther
    rw [sameHeld, isHeld]
    exact lastHeard.last otherBar inBars otherCloses

/-- What a slot holds comes from a bar that was the last heard of those that close it. -/
theorem exists_lastHeard_of_lookup {bars : List (Bar Price)} {horizon : Horizon}
    (positive : 0 < horizon.bucket) {slot : Int} {held : Held Price}
    (found : (Latest.keepAll Held.recvMicros (bars.filterMap (entryOf bars horizon))).lookup slot =
      some held) : ∃ bar, LastHeard bars horizon slot bar ∧ held = heldOf bars bar :=
  (isLatest_iff positive).mp (Latest.isLatest_of_lookup_keepAll _ found)

/-- A slot holds something exactly where a bar closes it. -/
theorem exists_lookup_iff {bars : List (Bar Price)} {horizon : Horizon}
    (positive : 0 < horizon.bucket) {slot : Int} :
    (∃ held, (Latest.keepAll Held.recvMicros
      (bars.filterMap (entryOf bars horizon))).lookup slot = some held) ↔
        ∃ bar ∈ bars, Closes horizon slot bar := by
  rw [← Option.isSome_iff_exists, ← Option.ne_none_iff_isSome, ne_eq,
    Latest.lookup_keepAll_eq_none_iff]
  simp only [List.mem_filterMap, entryOf_eq_some_iff positive, not_forall, not_not]
  constructor
  · intro held
    obtain ⟨_, bar, isBar, closes, _⟩ := held
    exact ⟨bar, isBar, closes⟩
  · intro closed
    obtain ⟨bar, isBar, closes⟩ := closed
    exact ⟨_, bar, isBar, closes, rfl⟩

/-- An entry whose slot is no later than another's does not stand after it. -/
theorem not_mem_of_le {entry : Σ _ : Int, Held Price} {rest : List (Σ _ : Int, Held Price)}
    (ascending : (entry :: rest).Pairwise fun first second => first.1 < second.1)
    {slot : Int} (notLater : slot ≤ entry.1) (held : Held Price) : ⟨slot, held⟩ ∉ rest := by
  intro member
  have later : entry.1 < slot := List.rel_of_pairwise_cons ascending member
  omega

/-- Two entries of consecutive slots are the first two, or stand after the first. -/
theorem consecutive_cons_iff {previous entry : Σ _ : Int, Held Price}
    {rest : List (Σ _ : Int, Held Price)}
    (ascending : (previous :: entry :: rest).Pairwise fun first second => first.1 < second.1)
    {slot : Int} {first second : Held Price} :
    ⟨slot - 1, first⟩ ∈ previous :: entry :: rest ∧ ⟨slot, second⟩ ∈ entry :: rest ↔
      (previous = ⟨slot - 1, first⟩ ∧ entry = ⟨slot, second⟩) ∨
        (⟨slot - 1, first⟩ ∈ entry :: rest ∧ ⟨slot, second⟩ ∈ rest) := by
  have later := List.rel_of_pairwise_cons ascending List.mem_cons_self
  have ascendingRest := ascending.of_cons
  constructor
  · intro consecutive
    obtain ⟨isFirst, isSecond⟩ := consecutive
    cases List.mem_cons.mp isSecond with
    | inl isEntry =>
        cases List.mem_cons.mp isFirst with
        | inl isPrevious => exact .inl ⟨isPrevious.symm, isEntry.symm⟩
        | inr notPrevious =>
            cases List.mem_cons.mp notPrevious with
            | inl isSame =>
                have slots := congrArg Sigma.fst (isEntry.trans isSame.symm)
                simp only at slots
                omega
            | inr inRest =>
                rw [← isEntry] at ascendingRest
                exact absurd inRest (not_mem_of_le ascendingRest (by simp only; omega) first)
    | inr inRest =>
        refine .inr ⟨?_, inRest⟩
        cases List.mem_cons.mp isFirst with
        | inl isPrevious =>
            have latest := List.rel_of_pairwise_cons ascendingRest inRest
            rw [← isPrevious] at later
            simp only at later latest
            omega
        | inr notPrevious => exact notPrevious
  · intro consecutive
    cases consecutive with
    | inl firstTwo =>
        rw [firstTwo.1, firstTwo.2]
        exact ⟨List.mem_cons_self, List.mem_cons_self⟩
    | inr after => exact ⟨List.mem_cons_of_mem _ after.1, List.mem_cons_of_mem _ after.2⟩

/-- A return is there exactly for two entries of consecutive slots with positive closes. -/
theorem mem_returnsAfter_some_iff {arithmetic : Arithmetic Price}
    {previous : Σ _ : Int, Held Price} {entries : List (Σ _ : Int, Held Price)}
    (ascending : (previous :: entries).Pairwise fun first second => first.1 < second.1)
    {slot : Int} {value : Return Price} :
    (slot, value) ∈ returnsAfter arithmetic (some previous) entries ↔ ∃ first second,
      (⟨slot - 1, first⟩ ∈ previous :: entries ∧ ⟨slot, second⟩ ∈ entries) ∧
        arithmetic.isPositive first.close = true ∧ arithmetic.isPositive second.close = true ∧
          value = between arithmetic first second := by
  induction entries generalizing previous with
  | nil => simp [returnsAfter]
  | cons entry rest inductionHypothesis =>
      have later := inductionHypothesis ascending.of_cons
      have split : (slot, value) ∈ returnsAfter arithmetic (some previous) (entry :: rest) ↔
          ((previous.1 + 1 = entry.1 ∧ arithmetic.isPositive previous.2.close = true ∧
            arithmetic.isPositive entry.2.close = true) ∧
              (slot, value) = (entry.1, between arithmetic previous.2 entry.2)) ∨
            (slot, value) ∈ returnsAfter arithmetic (some entry) rest := by
        rw [returnsAfter]
        split
        next consecutive => simp [consecutive]
        next apart => simp [apart]
      simp only [consecutive_cons_iff ascending, or_and_right, exists_or]
      rw [split, later]
      refine or_congr_left ?_
      constructor
      · intro isNext
        obtain ⟨⟨consecutive, firstPositive, nextPositive⟩, same⟩ := isNext
        obtain ⟨rfl, rfl⟩ := Prod.mk.inj same
        refine ⟨previous.2, entry.2, ⟨?_, rfl⟩, firstPositive, nextPositive, rfl⟩
        rw [← consecutive, Int.add_sub_cancel]
      · intro isNext
        obtain ⟨first, second, ⟨rfl, rfl⟩, firstPositive, nextPositive, rfl⟩ := isNext
        exact ⟨⟨Int.sub_add_cancel slot 1, firstPositive, nextPositive⟩, rfl⟩

/-- Of the entries in ascending order, a return is there exactly for two of consecutive slots
with positive closes. -/
theorem mem_returnsAfter_none_iff {arithmetic : Arithmetic Price}
    {entries : List (Σ _ : Int, Held Price)}
    (ascending : entries.Pairwise fun first second => first.1 < second.1)
    {slot : Int} {value : Return Price} :
    (slot, value) ∈ returnsAfter arithmetic none entries ↔ ∃ first second,
      (⟨slot - 1, first⟩ ∈ entries ∧ ⟨slot, second⟩ ∈ entries) ∧
        arithmetic.isPositive first.close = true ∧ arithmetic.isPositive second.close = true ∧
          value = between arithmetic first second := by
  cases entries with
  | nil => simp [returnsAfter]
  | cons entry rest =>
      rw [returnsAfter, mem_returnsAfter_some_iff ascending]
      refine exists_congr fun first => exists_congr fun second => and_congr_left fun _ => ?_
      refine and_congr_right fun isFirst => ⟨List.mem_cons_of_mem _, fun isSecond => ?_⟩
      cases List.mem_cons.mp isSecond with
      | inr inRest => exact inRest
      | inl isEntry =>
          cases List.mem_cons.mp isFirst with
          | inl isSame =>
              have sameSlot : slot - 1 = slot := congrArg Sigma.fst (isSame.trans isEntry.symm)
              omega
          | inr inRest =>
              rw [← isEntry] at ascending
              exact absurd inRest (not_mem_of_le ascending (by simp only; omega) first)

/-- The slots of the returns are among those of the entries, in their order. -/
theorem sublist_returnsAfter (arithmetic : Arithmetic Price)
    (previous : Option (Σ _ : Int, Held Price)) (entries : List (Σ _ : Int, Held Price)) :
    ((returnsAfter arithmetic previous entries).map Prod.fst).Sublist
      (entries.map Sigma.fst) := by
  induction entries generalizing previous with
  | nil => cases previous <;> exact List.Sublist.slnil
  | cons entry rest inductionHypothesis =>
      cases previous with
      | none => exact (inductionHypothesis (some entry)).cons _
      | some previous =>
          rw [returnsAfter]
          split
          · exact (inductionHypothesis (some entry)).cons_cons _
          · exact (inductionHypothesis (some entry)).cons _

/-- Returns stand in the order of their slots. -/
theorem pairwise_returnsAfter (arithmetic : Arithmetic Price)
    (previous : Option (Σ _ : Int, Held Price)) {entries : List (Σ _ : Int, Held Price)}
    (ascending : entries.Pairwise fun first second => first.1 < second.1) :
    (returnsAfter arithmetic previous entries).Pairwise
      fun first second => first.1 < second.1 :=
  List.pairwise_map.mp ((List.pairwise_map.mpr ascending).sublist
    (sublist_returnsAfter arithmetic previous entries))

/-- A return is there exactly where two consecutive slots hold positive closes. -/
theorem mem_returns_iff {arithmetic : Arithmetic Price} {held : Directory Int (Held Price)}
    {slot : Int} {value : Return Price} :
    (slot, value) ∈ returnsAfter arithmetic none held.inOrder ↔ ∃ previous next,
      (held.lookup (slot - 1) = some previous ∧ held.lookup slot = some next) ∧
        arithmetic.isPositive previous.close = true ∧ arithmetic.isPositive next.close = true ∧
          value = between arithmetic previous next := by
  simp only [mem_returnsAfter_none_iff held.pairwise_lt_inOrder, Directory.mem_inOrder_iff]

/-! ## When the receipts decide the returns -/

/-- The return between two bars. -/
def returnOf (arithmetic : Arithmetic Price) (bars : List (Bar Price)) (previous next : Bar Price) :
    Return Price :=
  between arithmetic (heldOf bars previous) (heldOf bars next)

/-- The derivation of bars that overflow nothing. -/
def held (bars : List (Bar Price)) (horizon : Horizon) : Directory Int (Held Price) :=
  Latest.keepAll Held.recvMicros (bars.filterMap (entryOf bars horizon))

/-- Where the receipts decide, a return is there exactly between last heard bars of consecutive
slots, whichever they are. -/
theorem mem_returns_iff_of_decided {arithmetic : Arithmetic Price} {bars : List (Bar Price)}
    {horizon : Horizon} (positive : 0 < horizon.bucket)
    (decided : Decided arithmetic bars horizon) {slot : Int} {value : Return Price} :
    (slot, value) ∈ returnsAfter arithmetic none (held bars horizon).inOrder ↔ ∃ previous next,
      (LastHeard bars horizon (slot - 1) previous ∧ LastHeard bars horizon slot next) ∧
        arithmetic.isPositive previous.close = true ∧ arithmetic.isPositive next.close = true ∧
          value = returnOf arithmetic bars previous next := by
  rw [mem_returns_iff]
  constructor
  · intro isReturn
    obtain ⟨first, second, ⟨isFirst, isSecond⟩, firstPositive, secondPositive, isValue⟩ := isReturn
    obtain ⟨previous, previousLast, rfl⟩ := exists_lastHeard_of_lookup positive isFirst
    obtain ⟨next, nextLast, rfl⟩ := exists_lastHeard_of_lookup positive isSecond
    exact ⟨previous, next, ⟨previousLast, nextLast⟩, firstPositive, secondPositive, isValue⟩
  · intro isReturn
    obtain ⟨previous, next, ⟨previousLast, nextLast⟩, firstPositive, secondPositive, isValue⟩ :=
      isReturn
    obtain ⟨first, isFirst⟩ := (exists_lookup_iff positive).mpr
      ⟨previous, previousLast.isBar, previousLast.closes⟩
    obtain ⟨second, isSecond⟩ := (exists_lookup_iff positive).mpr
      ⟨next, nextLast.isBar, nextLast.closes⟩
    obtain ⟨firstBar, firstLast, rfl⟩ := exists_lastHeard_of_lookup positive isFirst
    obtain ⟨secondBar, secondLast, rfl⟩ := exists_lastHeard_of_lookup positive isSecond
    have sameFirst := decided.close _ _ _ previousLast firstLast
    have sameSecond := decided.close _ _ _ nextLast secondLast
    have sameLive := decided.live slot previous next firstBar secondBar previousLast nextLast
      firstLast secondLast firstPositive secondPositive
    refine ⟨_, _, ⟨isFirst, isSecond⟩, ?_, ?_, ?_⟩
    · rw [heldOf, ← sameFirst]
      exact firstPositive
    · rw [heldOf, ← sameSecond]
      exact secondPositive
    · rw [isValue, returnOf, between, between]
      simp only [heldOf, sameFirst, sameSecond, Return.mk.injEq, true_and]
      rw [Bool.eq_iff_iff]
      simp only [Bool.or_eq_true, Bool.not_eq_true', decide_eq_false_iff_not]
      rw [← not_and_or, ← not_and_or, and_comm, sameLive, and_comm]

section Order

variable {bars other : List (Bar Price)} (perm : bars.Perm other)
include perm

/-- Whether a bar was heard live does not depend on the order of the bars. -/
theorem heardLive_perm (bar : Bar Price) : HeardLive bars bar ↔ HeardLive other bar := by
  simp only [HeardLive, perm.mem_iff]

/-- Nor which bars are the last heard. -/
theorem LastHeard.of_perm {horizon : Horizon} {slot : Int} {bar : Bar Price}
    (lastHeard : LastHeard bars horizon slot bar) : LastHeard other horizon slot bar where
  isBar := perm.mem_iff.mp lastHeard.isBar
  closes := lastHeard.closes
  last competing isBar := lastHeard.last competing (perm.mem_iff.mpr isBar)

/-- Nor whether anything overflows. -/
theorem NoOverflow.of_perm {horizon : Horizon} (noOverflow : NoOverflow bars horizon) :
    NoOverflow other horizon := by
  refine ⟨noOverflow.bucket, fun bar isBar => ?_⟩
  have fits := noOverflow.bars bar (perm.mem_iff.mpr isBar)
  exact ⟨fits.ends, fun slot closes forming isForming =>
    fits.near slot closes forming (perm.mem_iff.mpr isForming)⟩

/-- Nor whether the receipts decide the returns. -/
theorem Decided.of_perm {arithmetic : Arithmetic Price} {horizon : Horizon}
    (decided : Decided arithmetic bars horizon) : Decided arithmetic other horizon := by
  constructor
  · intro slot first second firstLast secondLast
    exact decided.close slot first second (firstLast.of_perm perm.symm)
      (secondLast.of_perm perm.symm)
  · intro slot first firstNext second secondNext firstLast firstNextLast secondLast secondNextLast
    simp only [← heardLive_perm perm]
    exact decided.live slot first firstNext second secondNext (firstLast.of_perm perm.symm)
      (firstNextLast.of_perm perm.symm) (secondLast.of_perm perm.symm)
      (secondNextLast.of_perm perm.symm)

/-- Where the receipts decide, neither does any return. -/
theorem returnsAfter_perm {arithmetic : Arithmetic Price} {horizon : Horizon}
    (positive : 0 < horizon.bucket) (decided : Decided arithmetic bars horizon) :
    returnsAfter arithmetic none (held other horizon).inOrder =
      returnsAfter arithmetic none (held bars horizon).inOrder := by
  have irreflexive : Std.Irrefl fun first second : Int × Return Price => first.1 < second.1 :=
    ⟨fun _ => lt_irrefl _⟩
  have antisymmetric : Std.Antisymm fun first second : Int × Return Price => first.1 < second.1 :=
    ⟨fun _ _ before after => absurd after before.asymm⟩
  refine List.Pairwise.eq_of_mem_iff
    (pairwise_returnsAfter arithmetic none (held other horizon).pairwise_lt_inOrder)
    (pairwise_returnsAfter arithmetic none (held bars horizon).pairwise_lt_inOrder) ?_
  intro entry
  obtain ⟨slot, value⟩ := entry
  rw [mem_returns_iff_of_decided positive decided,
    mem_returns_iff_of_decided positive (decided.of_perm perm)]
  have sameHeld (bar : Bar Price) : heldOf other bar = heldOf bars bar := by
    rw [heldOf, heldOf, decide_eq_decide.mpr (heardLive_perm perm bar)]
  have sameLast (slot : Int) (bar : Bar Price) :
      LastHeard other horizon slot bar ↔ LastHeard bars horizon slot bar :=
    ⟨fun last => last.of_perm perm.symm, fun last => last.of_perm perm⟩
  simp only [returnOf, sameHeld, sameLast]

end Order

/-- A derivation that overflows nothing returns what the held closing bars give. -/
theorem returns_eq {arithmetic : Arithmetic Price} {bars : List (Bar Price)} {horizon : Horizon}
    (positive : 0 < horizon.bucket) (noOverflow : NoOverflow bars horizon) :
    returns arithmetic bars horizon =
      .returns (returnsAfter arithmetic none (held bars horizon).inOrder) := by
  rw [returns, (slots_eq_returns_iff positive).mpr ⟨noOverflow, rfl⟩]
  rfl

/-- Where the receipts decide the returns, they stand on the right closes. -/
theorem standsOn_of_decided {arithmetic : Arithmetic Price} {bars : List (Bar Price)}
    {horizon : Horizon} (positive : 0 < horizon.bucket)
    (decided : Decided arithmetic bars horizon) :
    StandsOn arithmetic bars horizon (held bars horizon)
      (returnsAfter arithmetic none (held bars horizon).inOrder) := by
  constructor
  · exact fun slot => exists_lookup_iff positive
  · intro slot closing isHeld bar lastHeard
    obtain ⟨closer, closerLast, rfl⟩ := exists_lastHeard_of_lookup positive isHeld
    exact decided.close slot closer bar closerLast lastHeard
  · exact pairwise_returnsAfter arithmetic none (held bars horizon).pairwise_lt_inOrder
  · intro slot
    simp only [mem_returns_iff]
    constructor
    · intro isReturn
      obtain ⟨_, previous, next, ⟨isPrevious, isNext⟩, previousPositive, nextPositive, _⟩ :=
        isReturn
      exact ⟨previous, next, isPrevious, isNext, previousPositive, nextPositive⟩
    · intro filled
      obtain ⟨previous, next, isPrevious, isNext, previousPositive, nextPositive⟩ := filled
      exact ⟨_, previous, next, ⟨isPrevious, isNext⟩, previousPositive, nextPositive, rfl⟩
  · intro slot value isReturn previous next previousLast nextLast
    obtain ⟨first, second, ⟨firstLast, secondLast⟩, _, _, rfl⟩ :=
      (mem_returns_iff_of_decided positive decided).mp isReturn
    rw [decided.close _ _ _ previousLast firstLast, decided.close _ _ _ nextLast secondLast]
    rfl
  · intro slot value isReturn previous next previousLast nextLast
    obtain ⟨first, second, ⟨firstLast, secondLast⟩, firstPositive, secondPositive, rfl⟩ :=
      (mem_returns_iff_of_decided positive decided).mp isReturn
    have sameLive := decided.live slot first second previous next firstLast secondLast
      previousLast nextLast firstPositive secondPositive
    simp only [returnOf, between, heldOf, Bool.or_eq_true, Bool.not_eq_true',
      decide_eq_false_iff_not]
    rw [or_comm, ← not_and_or, ← not_and_or, sameLive]

/-- The receipts decide the returns wherever these stand on the right closes. -/
theorem decided_of_standsOn {arithmetic : Arithmetic Price} {bars : List (Bar Price)}
    {horizon : Horizon} {held : Directory Int (Held Price)} {out : List (Int × Return Price)}
    (standsOn : StandsOn arithmetic bars horizon held out) : Decided arithmetic bars horizon := by
  constructor
  · intro slot first second firstLast secondLast
    obtain ⟨closing, isHeld⟩ :=
      (standsOn.filled slot).mpr ⟨first, firstLast.isBar, firstLast.closes⟩
    rw [← standsOn.closes slot closing isHeld first firstLast,
      standsOn.closes slot closing isHeld second secondLast]
  · intro slot first firstNext second secondNext firstLast firstNextLast secondLast secondNextLast
      firstPositive nextPositive
    obtain ⟨previous, isPrevious⟩ :=
      (standsOn.filled (slot - 1)).mpr ⟨first, firstLast.isBar, firstLast.closes⟩
    obtain ⟨next, isNext⟩ :=
      (standsOn.filled slot).mpr ⟨firstNext, firstNextLast.isBar, firstNextLast.closes⟩
    rw [← standsOn.closes _ _ isPrevious first firstLast] at firstPositive
    rw [← standsOn.closes _ _ isNext firstNext firstNextLast] at nextPositive
    obtain ⟨value, isReturn⟩ := (standsOn.present slot).mpr
      ⟨previous, next, isPrevious, isNext, firstPositive, nextPositive⟩
    have oneWay := standsOn.backfilled slot value isReturn first firstNext firstLast firstNextLast
    have otherWay :=
      standsOn.backfilled slot value isReturn second secondNext secondLast secondNextLast
    rw [← not_and_or] at oneWay otherWay
    exact not_iff_not.mp (oneWay.symm.trans otherWay)

/-- The returns of a positive bucket stand on the right closes, in whatever order the bars are,
exactly where nothing overflows and the receipts decide them. -/
theorem rightCloses_iff {arithmetic : Arithmetic Price} {bars : List (Bar Price)}
    {horizon : Horizon} (positive : 0 < horizon.bucketSecs) :
    RightCloses arithmetic bars horizon ↔
      NoOverflow bars horizon ∧ Decided arithmetic bars horizon := by
  have bucketPositive : 0 < horizon.bucket := by
    rw [Horizon.bucket]
    omega
  constructor
  · intro rightCloses
    obtain ⟨held, out, isHeld, _, standsOn, _⟩ := rightCloses
    exact ⟨((slots_eq_returns_iff bucketPositive).mp isHeld).1, decided_of_standsOn standsOn⟩
  · intro decides
    obtain ⟨noOverflow, decided⟩ := decides
    refine ⟨held bars horizon, _, (slots_eq_returns_iff bucketPositive).mpr ⟨noOverflow, rfl⟩,
      returns_eq bucketPositive noOverflow, standsOn_of_decided bucketPositive decided, ?_⟩
    intro other perm
    rw [returns_eq bucketPositive (noOverflow.of_perm perm),
      returnsAfter_perm perm bucketPositive decided]

/-- Bars whose receipts differ decide their returns. -/
theorem decided_of_distinct_receipts {arithmetic : Arithmetic Price} {bars : List (Bar Price)}
    {horizon : Horizon} (distinct : ∀ first ∈ bars, ∀ second ∈ bars,
      first.recvMicros = second.recvMicros → first = second) :
    Decided arithmetic bars horizon := by
  have unique {slot : Int} {first second : Bar Price}
      (firstLast : LastHeard bars horizon slot first)
      (secondLast : LastHeard bars horizon slot second) : first = second :=
    distinct first firstLast.isBar second secondLast.isBar
      (le_antisymm (secondLast.last first firstLast.isBar firstLast.closes)
        (firstLast.last second secondLast.isBar secondLast.closes))
  constructor
  · intro slot first second firstLast secondLast
    rw [unique firstLast secondLast]
  · intro slot first firstNext second secondNext firstLast firstNextLast secondLast secondNextLast
      _ _
    rw [unique firstLast secondLast, unique firstNextLast secondNextLast]

/-- Whole prices. -/
def wholePrices : Arithmetic Int where
  isPositive price := decide (0 < price)
  divide := (· / ·)
  ln := id

/-- Two buckets of a minute. -/
def twoMinutes : Horizon := ⟨60, 0, 120000000⟩

/-- The first minute's bar. -/
def firstMinute : Bar Int where
  startMicros := 0
  widthMicros := 60000000
  close := 100
  isFinal := true
  recvMicros := 120000000
  startFits := by decide

/-- The second minute's bar, with a close and a receipt. -/
def secondMinute (close recvMicros : Int) : Bar Int where
  startMicros := 60000000
  widthMicros := 60000000
  close := close
  isFinal := true
  recvMicros := recvMicros
  startFits := by decide

/-- Two minutes with receipts of their own stand on the right closes. -/
theorem rightCloses_twoMinutes :
    RightCloses wholePrices [firstMinute, secondMinute 200 130000000] twoMinutes := by
  refine (rightCloses_iff (by decide)).mpr ⟨⟨by decide, ?_⟩, ?_⟩
  · simp only [List.forall_mem_cons]
    refine ⟨⟨fun _ => by decide, fun _ _ _ _ _ _ _ => by decide⟩,
      ⟨fun _ => by decide, fun _ _ _ _ _ _ _ => by decide⟩, by simp⟩
  · apply decided_of_distinct_receipts
    simp [firstMinute, secondMinute]

/-- The second minute's bar is re-sent with one receipt and two closes: which of them the return
stands on depends on the order. -/
theorem resent_depends_on_order :
    ¬ RightCloses wholePrices
      [firstMinute, secondMinute 200 130000000, secondMinute 300 130000000] twoMinutes := by
  intro rightCloses
  obtain ⟨held, out, _, isOut, _, ordered⟩ := rightCloses
  have swapped := ordered [firstMinute, secondMinute 300 130000000, secondMinute 200 130000000]
    ((List.Perm.swap _ _ _).cons _)
  have differ : returns wholePrices
      [firstMinute, secondMinute 200 130000000, secondMinute 300 130000000] twoMinutes ≠
        returns wholePrices
          [firstMinute, secondMinute 300 130000000, secondMinute 200 130000000] twoMinutes := by
    decide +kernel
  exact differ (isOut.trans swapped.symm)

end Derive
end Datawatch
