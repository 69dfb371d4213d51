import Datawatch.Library.Spaced
import Datawatch.Capture.Walk

/-!
# What a backward walk covers

A full-width step asks for one bar more than a page holds when both its ends are on the bar
grid.  The bar left out is the step's first, which only the step before can have taken, so the
first bar of a whole walk can be left out of a range reported covered.
-/

namespace Datawatch
namespace Capture

open Library Library.Spaced Segments Wire

/-- The newest at most so many bars opening in a closed range. -/
def page (count : Nat) (bars : Finset Int) (fromMicros toMicros : Int) : Finset Int :=
  bars.filter fun bar =>
    fromMicros ≤ bar ∧ bar ≤ toMicros ∧ (after bars bar toMicros).card < count

theorem mem_page {count : Nat} {bars : Finset Int} {fromMicros toMicros bar : Int} :
    bar ∈ page count bars fromMicros toMicros ↔
      bar ∈ bars ∧ fromMicros ≤ bar ∧ bar ≤ toMicros ∧
        (after bars bar toMicros).card < count := by
  rw [page, Finset.mem_filter]

section Plan

variable {series : Series} {barMicros span toMicros : Int}

/-- Each step ends where its span or the range does. -/
theorem ends_of_mem_stepsFrom {left : Nat} {cursor : Int} {step : Step}
    (member : step ∈ Walk.stepsFrom series barMicros span toMicros left cursor) :
    step.toMicros = min (step.fromMicros + span) toMicros ∧ step.fromMicros < toMicros := by
  induction left generalizing cursor with
  | zero => cases member
  | succ left inductionHypothesis =>
      rw [Walk.stepsFrom] at member
      split at member
      · rename_i within
        rcases List.mem_cons.mp member with rfl | inRest
        · exact ⟨rfl, within⟩
        · split at inRest
          · cases inRest
          · exact inductionHypothesis inRest
      · cases member

/-- A plan with room begins with the step at its cursor. -/
theorem stepsFrom_succ {left : Nat} {cursor : Int} (within : cursor < toMicros) :
    Walk.stepsFrom series barMicros span toMicros (left + 1) cursor =
      ⟨series, barMicros, cursor, min (cursor + span) toMicros⟩ ::
        if toMicros ≤ min (cursor + span) toMicros then []
        else Walk.stepsFrom series barMicros span toMicros left
          (min (cursor + span) toMicros - overlapMicros) := by
  rw [Walk.stepsFrom, if_pos within]

/-- Where spans are no shorter than the overlap no step begins before the cursor, and one that
begins at it is the first. -/
theorem from_of_mem_stepsFrom (long : overlapMicros ≤ span) {left : Nat} {cursor : Int}
    {step : Step} (member : step ∈ Walk.stepsFrom series barMicros span toMicros left cursor) :
    cursor ≤ step.fromMicros := by
  induction left generalizing cursor with
  | zero => cases member
  | succ left inductionHypothesis =>
      rw [Walk.stepsFrom] at member
      split at member
      · rcases List.mem_cons.mp member with rfl | inRest
        · exact le_rfl
        · split at inRest
          · cases inRest
          · rename_i unfinished
            have later := inductionHypothesis inRest
            omega
      · cases member

/-- Where spans are shorter than the overlap each step ends before the one it follows. -/
theorem to_of_mem_stepsFrom (short : span < overlapMicros) {left : Nat} {cursor : Int}
    {step : Step} (member : step ∈ Walk.stepsFrom series barMicros span toMicros left cursor) :
    step.fromMicros ≤ cursor ∧ step.toMicros ≤ cursor + span := by
  induction left generalizing cursor with
  | zero => cases member
  | succ left inductionHypothesis =>
      rw [Walk.stepsFrom] at member
      split at member
      · rcases List.mem_cons.mp member with rfl | inRest
        · exact ⟨le_rfl, min_le_left _ _⟩
        · split at inRest
          · cases inRest
          · have earlier := inductionHypothesis inRest
            omega
      · cases member

/-- A bar strictly after a plan's start and before the end of its last step lies in a step that
begins strictly before it. -/
theorem exists_step_of_bar {left : Nat} {cursor bar : Int} (later : cursor < bar) {last : Step}
    (isLast : (Walk.stepsFrom series barMicros span toMicros left cursor).getLast? = some last)
    (before : bar < last.toMicros) :
    ∃ step ∈ Walk.stepsFrom series barMicros span toMicros left cursor,
      step.fromMicros < bar ∧ bar ≤ step.toMicros := by
  induction left generalizing cursor with
  | zero => cases isLast
  | succ left inductionHypothesis =>
      rw [Walk.stepsFrom] at isLast ⊢
      split at isLast
      · rename_i within
        rw [if_pos within]
        by_cases inFirst : bar ≤ min (cursor + span) toMicros
        · exact ⟨_, List.mem_cons_self, later, inFirst⟩
        · simp only at isLast ⊢
          split at isLast
          · cases isLast
            exact absurd before.le inFirst
          · rename_i unfinished
            rw [if_neg unfinished]
            cases isRest : Walk.stepsFrom series barMicros span toMicros left
                (min (cursor + span) toMicros - overlapMicros) with
            | nil =>
                rw [isRest] at isLast
                cases isLast
                exact absurd before.le inFirst
            | cons next rest =>
                rw [isRest, List.getLast?_cons_cons] at isLast
                rw [← isRest] at isLast
                have beyond : min (cursor + span) toMicros - overlapMicros < bar := by
                  have : (0 : Int) < overlapMicros := by decide
                  omega
                obtain ⟨step, member, found⟩ := inductionHypothesis beyond isLast
                rw [isRest] at member
                exact ⟨step, List.mem_cons_of_mem _ member, found⟩
      · cases isLast

end Plan

/-- A walk's requests, in the order they are made. -/
def requests (steps : List Step) (instruments : List Ticker) : List (Ticker × Step) :=
  steps.flatMap fun step => instruments.map fun ticker => (ticker, step)

theorem mem_requests {steps : List Step} {instruments : List Ticker} {ticker : Ticker}
    {step : Step} :
    (ticker, step) ∈ requests steps instruments ↔ step ∈ steps ∧ ticker ∈ instruments := by
  simp only [requests, List.mem_flatMap, List.mem_map, Prod.mk.injEq]
  constructor
  · rintro ⟨found, isStep, other, isTicker, rfl, rfl⟩
    exact ⟨isStep, isTicker⟩
  · rintro ⟨isStep, isTicker⟩
    exact ⟨step, isStep, ticker, isTicker, rfl, rfl⟩

/-- Each request is a page taken or a fetch that failed, as the venue answered it. -/
structure Answered (errors : Nat → Option Text) (asked : List (Ticker × Step))
    (fetched : Fetched) : Prop where
  made : fetched.made = asked.length
  taken : ∀ request, request ∈ fetched.taken ↔
    ∃ index, asked[index]? = some request ∧ errors index = none
  failed : ∀ failure, failure ∈ fetched.failed ↔
    ∃ index request error, asked[index]? = some request ∧ errors index = some error ∧
      failure = ⟨request.1, request.2.fromMicros, request.2.toMicros, error⟩

/-- One more request is answered. -/
theorem Answered.oneFetch {errors : Nat → Option Text} {asked : List (Ticker × Step)}
    {fetched : Fetched} (answered : Answered errors asked fetched) (request : Ticker × Step) :
    Answered errors (asked ++ [request])
      (Capture.oneFetch errors request.2 fetched request.1) := by
  -- A request of the longer list is an earlier one, or the last.
  have cases_of : ∀ {index : Nat} {found : Ticker × Step},
      (asked ++ [request])[index]? = some found ↔
        asked[index]? = some found ∨ index = asked.length ∧ found = request := by
    intro index found
    rcases lt_trichotomy index asked.length with before | rfl | beyond
    · rw [List.getElem?_append_left before]
      constructor
      · exact .inl
      · rintro (isFound | ⟨same, _⟩)
        · exact isFound
        · omega
    · simp [eq_comm]
    · rw [List.getElem?_eq_none (by simp; omega), List.getElem?_eq_none beyond.le]
      constructor
      · rintro ⟨⟩
      · rintro (⟨⟨⟩⟩ | ⟨same, _⟩)
        omega
  have atLast := answered.made
  cases isError : errors fetched.made with
  | none =>
      simp only [Capture.oneFetch, isError]
      constructor
      · simp [atLast]
      · intro found
        rw [List.mem_append, answered.taken, List.mem_singleton]
        constructor
        · rintro (⟨index, isFound, isNone⟩ | rfl)
          · exact ⟨index, cases_of.mpr (.inl isFound), isNone⟩
          · exact ⟨asked.length, cases_of.mpr (.inr ⟨rfl, rfl⟩), atLast ▸ isError⟩
        · rintro ⟨index, isFound, isNone⟩
          rcases cases_of.mp isFound with earlier | ⟨_, rfl⟩
          · exact .inl ⟨index, earlier, isNone⟩
          · exact .inr rfl
      · intro failure
        rw [answered.failed]
        constructor
        · rintro ⟨index, found, error, isFound, isFailed⟩
          exact ⟨index, found, error, cases_of.mpr (.inl isFound), isFailed⟩
        · rintro ⟨index, found, error, isFound, isFailed, same⟩
          rcases cases_of.mp isFound with earlier | ⟨rfl, rfl⟩
          · exact ⟨index, found, error, earlier, isFailed, same⟩
          · rw [← atLast, isError] at isFailed
            cases isFailed
  | some error =>
      simp only [Capture.oneFetch, isError]
      constructor
      · simp [atLast]
      · intro found
        rw [answered.taken]
        constructor
        · rintro ⟨index, isFound, isNone⟩
          exact ⟨index, cases_of.mpr (.inl isFound), isNone⟩
        · rintro ⟨index, isFound, isNone⟩
          rcases cases_of.mp isFound with earlier | ⟨rfl, rfl⟩
          · exact ⟨index, earlier, isNone⟩
          · rw [← atLast, isError] at isNone
            cases isNone
      · intro failure
        rw [List.mem_append, answered.failed, List.mem_singleton]
        constructor
        · rintro (⟨index, found, words, isFound, isFailed⟩ | rfl)
          · exact ⟨index, found, words, cases_of.mpr (.inl isFound), isFailed⟩
          · exact ⟨asked.length, request, error, cases_of.mpr (.inr ⟨rfl, rfl⟩),
              atLast ▸ isError, rfl⟩
        · rintro ⟨index, found, words, isFound, isFailed, same⟩
          rcases cases_of.mp isFound with earlier | ⟨rfl, rfl⟩
          · exact .inl ⟨index, found, words, earlier, isFailed, same⟩
          · rw [← atLast, isError] at isFailed
            cases isFailed
            exact .inr same

/-- A walk's requests are each answered. -/
theorem answered_walkSteps (errors : Nat → Option Text) (steps : List Step)
    (instruments : List Ticker) :
    Answered errors (requests steps instruments) (walkSteps errors steps instruments) := by
  have flat : walkSteps errors steps instruments =
      (requests steps instruments).foldl
        (fun fetched request => oneFetch errors request.2 fetched request.1) {} := by
    rw [walkSteps, requests, List.foldl_flatMap]
    simp only [List.foldl_map]
  rw [flat]
  induction requests steps instruments using List.reverseRecOn with
  | nil => constructor <;> simp
  | append_singleton asked request inductionHypothesis =>
      rw [List.foldl_append]
      exact inductionHypothesis.oneFetch request

/-- What is reached with failures lies before the earliest failed start, and within what the
plan reached. -/
theorem lt_reached_withFailures {outcome : WalkOutcome} {failed : List FailedFetch}
    {moment : Int} :
    moment < (outcome.withFailures failed).reachedMicros ↔
      moment < outcome.reachedMicros ∧
        ∀ failure ∈ failed, moment < max failure.fromMicros outcome.requestedFromMicros := by
  rw [WalkOutcome.withFailures]
  cases isLeast : (failed.map FailedFetch.fromMicros).min? with
  | none =>
      have empty : failed = [] := by simpa using isLeast
      simp [empty]
  | some earliest =>
      obtain ⟨attained, least⟩ := List.min?_eq_some_iff.mp isLeast
      simp only [lt_min_iff]
      apply and_congr_right
      intro _
      constructor
      · intro before failure member
        have := least _ (List.mem_map_of_mem member)
        omega
      · intro before
        obtain ⟨failure, member, rfl⟩ := List.mem_map.mp attained
        exact before failure member

@[simp] theorem withFailures_requestedFrom (outcome : WalkOutcome) (failed : List FailedFetch) :
    (outcome.withFailures failed).requestedFromMicros = outcome.requestedFromMicros := by
  unfold WalkOutcome.withFailures
  split <;> rfl

@[simp] theorem withFailures_failed (outcome : WalkOutcome) (failed : List FailedFetch) :
    (outcome.withFailures failed).failed = failed := by
  unfold WalkOutcome.withFailures
  split <;> rfl

@[simp] theorem withFailures_capped (outcome : WalkOutcome) (failed : List FailedFetch) :
    (outcome.withFailures failed).capped = outcome.capped := by
  unfold WalkOutcome.withFailures
  split <;> rfl

/-! ## The bars a walk covers -/

/-- Every bar opening within what a walk reports reached is in a page taken for its
instrument. -/
def Honest (walk : Walk) (bars : Ticker → Finset Int) (instruments : List Ticker)
    (walked : Fetched × WalkOutcome) : Prop :=
  ∀ ticker ∈ instruments, ∀ bar ∈ bars ticker,
    walked.2.requestedFromMicros ≤ bar → bar < walked.2.reachedMicros →
      ∃ step, (ticker, step) ∈ walked.1.taken ∧
        bar ∈ page walk.pageRows (bars ticker) step.fromMicros step.toMicros

/-- An instrument has a bar at the walk's start and at each of the next widths of a page, the
first step reaches the last of them, no later step begins before the first, and no request that
begins with it fails. -/
def Overfull (walk : Walk) (bars : Ticker → Finset Int) (series : Series) (ask : Ask)
    (toMicros : Int) (instruments : List Ticker) (errors : Nat → Option Text) : Prop :=
  let span : Int := walk.pageRows * ask.intervalMicros
  0 < span ∧ ask.fromMicros + span ≤ toMicros ∧
    (overlapMicros ≤ span ∨ walk.cap.toNat = 1 ∨ ask.fromMicros + span = toMicros) ∧
    (∃ ticker ∈ instruments, ∀ index ≤ walk.pageRows,
      ask.fromMicros + (index : Int) * ask.intervalMicros ∈ bars ticker) ∧
    ∀ index request,
      (requests (walk.plan series ask.fromMicros toMicros ask.intervalMicros)
        instruments)[index]? = some request →
      (errors index).isSome → ask.fromMicros < request.2.fromMicros

section Walked

variable {walk : Walk} {bars : Ticker → Finset Int} {series : Series} {ask : Ask}
  {toMicros : Int} {instruments : List Ticker} {errors : Nat → Option Text}

/-- A backward plan is its steps from the start. -/
theorem plan_mostRecent (paged : walk.paging.direction = .mostRecent)
    (ordered : ask.fromMicros < toMicros)
    (positive : 0 < (walk.pageRows : Int) * ask.intervalMicros) :
    walk.plan series ask.fromMicros toMicros ask.intervalMicros =
      Walk.stepsFrom series ask.intervalMicros (walk.pageRows * ask.intervalMicros) toMicros
        walk.cap.toNat ask.fromMicros := by
  rw [Walk.plan, if_neg (by omega), if_neg (by rw [paged]; decide)]
  simp only [if_neg (not_le.mpr positive)]

/-- A walk whose pages hold nothing plans nothing. -/
theorem plan_of_not_pos (paged : walk.paging.direction = .mostRecent)
    (ordered : ask.fromMicros < toMicros)
    (empty : (walk.pageRows : Int) * ask.intervalMicros ≤ 0) :
    walk.plan series ask.fromMicros toMicros ask.intervalMicros = [] := by
  rw [Walk.plan, if_neg (by omega), if_neg (by rw [paged]; decide)]
  simp only [if_pos empty]

/-- No step of a backward plan ends beyond the range. -/
theorem to_le_of_mem_plan (paged : walk.paging.direction = .mostRecent)
    (ordered : ask.fromMicros < toMicros) {step : Step}
    (isStep : step ∈ walk.plan series ask.fromMicros toMicros ask.intervalMicros) :
    step.toMicros ≤ toMicros := by
  rcases lt_or_ge 0 ((walk.pageRows : Int) * ask.intervalMicros) with positive | empty
  · rw [plan_mostRecent paged ordered positive] at isStep
    have ends := (ends_of_mem_stepsFrom isStep).1
    omega
  · rw [plan_of_not_pos paged ordered empty] at isStep
    cases isStep

/-- A request that did not fail took its page. -/
theorem taken_of_unfailed {steps : List Step} {ticker : Ticker} {step : Step}
    (isStep : step ∈ steps) (isTicker : ticker ∈ instruments)
    (unfailed : ∀ failure ∈ (walkSteps errors steps instruments).failed,
      failure.fromMicros ≠ step.fromMicros) :
    (ticker, step) ∈ (walkSteps errors steps instruments).taken := by
  have answered := answered_walkSteps errors steps instruments
  obtain ⟨index, isRequest⟩ := List.getElem?_of_mem (mem_requests.mpr ⟨isStep, isTicker⟩)
  cases isError : errors index with
  | none => exact (answered.taken _).mpr ⟨index, isRequest, isError⟩
  | some error =>
      have isFailure := (answered.failed _).mpr
        ⟨index, _, error, isRequest, isError, rfl⟩
      exact absurd rfl (unfailed _ isFailure)

/-- A bar strictly after the start, within what is reached, is in a page taken. -/
theorem taken_of_later (apart : ∀ ticker ∈ instruments, Apart ask.intervalMicros (bars ticker))
    {steps : List Step} {span : Int} {left : Nat}
    (planned : steps = Walk.stepsFrom series ask.intervalMicros span toMicros left
      ask.fromMicros)
    (isSpan : span = walk.pageRows * ask.intervalMicros) (positive : 0 < span)
    {ticker : Ticker} (isTicker : ticker ∈ instruments) {bar : Int} (isBar : bar ∈ bars ticker)
    (later : ask.fromMicros < bar) {last : Step} (isLast : steps.getLast? = some last)
    (before : bar < last.toMicros)
    (unfailed : ∀ failure ∈ (walkSteps errors steps instruments).failed,
      bar < max failure.fromMicros ask.fromMicros) :
    ∃ step, (ticker, step) ∈ (walkSteps errors steps instruments).taken ∧
      bar ∈ page walk.pageRows (bars ticker) step.fromMicros step.toMicros := by
  subst planned
  obtain ⟨step, isStep, begins, within⟩ := exists_step_of_bar later isLast before
  have ends := (ends_of_mem_stepsFrom isStep).1
  have nonzero : 0 < walk.pageRows := by
    rcases Nat.eq_zero_or_pos walk.pageRows with zero | nonzero
    · rw [isSpan, zero] at positive
      simp at positive
    · exact nonzero
  have wide : 0 < ask.intervalMicros := by
    rw [isSpan] at positive
    exact pos_of_mul_pos_right positive (Int.natCast_nonneg _)
  refine ⟨step, taken_of_unfailed isStep isTicker ?_, ?_⟩
  · intro failure member
    have := unfailed failure member
    omega
  · refine mem_page.mpr ⟨isBar, begins.le, within, ?_⟩
    exact card_after_lt (apart ticker isTicker) wide isBar (by omega) nonzero

/-- Where spans are shorter than the overlap, a bar at the start that is within what is reached
is within the second step. -/
theorem second_step_of_short {span : Int} {left : Nat} {cursor : Int}
    (short : span < overlapMicros) (unfinished : cursor + span < toMicros) {last : Step}
    (isLast : (Walk.stepsFrom series ask.intervalMicros span toMicros (left + 2)
      cursor).getLast? = some last) (before : cursor < last.toMicros) (positive : 0 < span) :
    ∃ step ∈ Walk.stepsFrom series ask.intervalMicros span toMicros (left + 2) cursor,
      step.fromMicros < cursor ∧ cursor < step.toMicros ∧ step.toMicros < cursor + span := by
  have isStop : min (cursor + span) toMicros = cursor + span := min_eq_left unfinished.le
  rw [stepsFrom_succ (by omega), isStop, if_neg (not_le.mpr unfinished),
    stepsFrom_succ (by omega)] at isLast ⊢
  rw [List.getLast?_cons_cons, ← stepsFrom_succ (by omega)] at isLast
  have inRest := List.mem_of_getLast? isLast
  have least := (to_of_mem_stepsFrom short inRest).2
  have most := (ends_of_mem_stepsFrom inRest).1
  refine ⟨_, List.mem_cons_of_mem _ List.mem_cons_self, ?_, ?_, ?_⟩
  · change cursor + span - overlapMicros < cursor
    omega
  · change cursor < min (cursor + span - overlapMicros + span) toMicros
    omega
  · change min (cursor + span - overlapMicros + span) toMicros < cursor + span
    omega

/-- A bar at the start, within what is reached, is in a page taken unless the first step is
overfull. -/
theorem taken_at_start (apart : ∀ ticker ∈ instruments, Apart ask.intervalMicros (bars ticker))
    (paged : walk.paging.direction = .mostRecent) (capped : 0 < walk.cap.toNat)
    (ordered : ask.fromMicros < toMicros)
    (positive : 0 < (walk.pageRows : Int) * ask.intervalMicros)
    (sound : ¬ Overfull walk bars series ask toMicros instruments errors) {steps : List Step}
    (planned : steps = walk.plan series ask.fromMicros toMicros ask.intervalMicros)
    {ticker : Ticker} (isTicker : ticker ∈ instruments)
    (isBar : ask.fromMicros ∈ bars ticker) {last : Step} (isLast : steps.getLast? = some last)
    (before : ask.fromMicros < last.toMicros)
    (unfailed : ∀ failure ∈ (walkSteps errors steps instruments).failed,
      ask.fromMicros < failure.fromMicros) :
    ∃ step, (ticker, step) ∈ (walkSteps errors steps instruments).taken ∧
      ask.fromMicros ∈ page walk.pageRows (bars ticker) step.fromMicros step.toMicros := by
  have nonzero : 0 < walk.pageRows := by
    rcases Nat.eq_zero_or_pos walk.pageRows with zero | nonzero
    · rw [zero] at positive
      simp at positive
    · exact nonzero
  have wide : 0 < ask.intervalMicros := pos_of_mul_pos_right positive (Int.natCast_nonneg _)
  have isPlan := @plan_mostRecent walk series ask toMicros paged ordered positive
  obtain ⟨left, isCap⟩ : ∃ left, walk.cap.toNat = left + 1 := ⟨_, (Nat.succ_pred capped.ne').symm⟩
  -- A step that begins no later than the start did not fail.
  have taken : ∀ step ∈ steps, step.fromMicros ≤ ask.fromMicros →
      (ticker, step) ∈ (walkSteps errors steps instruments).taken := by
    intro step isStep begins
    refine taken_of_unfailed isStep isTicker ?_
    intro failure member same
    have := unfailed failure member
    omega
  rw [isPlan] at planned
  have isFirst : (⟨series, ask.intervalMicros, ask.fromMicros,
      min (ask.fromMicros + walk.pageRows * ask.intervalMicros) toMicros⟩ : Step) ∈ steps := by
    rw [planned, isCap, stepsFrom_succ ordered]
    exact List.mem_cons_self
  have ends : ask.fromMicros ≤
      min (ask.fromMicros + walk.pageRows * ask.intervalMicros) toMicros := by
    omega
  by_cases fits : (after (bars ticker) ask.fromMicros
      (min (ask.fromMicros + walk.pageRows * ask.intervalMicros) toMicros)).card < walk.pageRows
  · exact ⟨_, taken _ isFirst le_rfl, mem_page.mpr ⟨isBar, le_rfl, ends, fits⟩⟩
  · have reaches : ask.fromMicros + walk.pageRows * ask.intervalMicros ≤ toMicros := by
      by_contra short
      exact fits (card_after_lt (apart ticker isTicker) wide isBar (by omega) nonzero)
    rw [min_eq_left reaches] at fits
    have all := (card_after_lt_or_all (apart ticker isTicker) wide isBar).resolve_left fits
    -- No other part of an overfull first step is missing, so a second step begins before it.
    have several : ¬ (overlapMicros ≤ walk.pageRows * ask.intervalMicros ∨
        walk.cap.toNat = 1 ∨
        ask.fromMicros + walk.pageRows * ask.intervalMicros = toMicros) := by
      intro single
      refine sound ⟨positive, reaches, single, ⟨ticker, isTicker, all⟩, ?_⟩
      intro index request isRequest isFailed
      obtain ⟨error, isError⟩ := Option.isSome_iff_exists.mp isFailed
      have answered := answered_walkSteps errors steps instruments
      rw [isPlan, ← planned] at isRequest
      exact unfailed _ ((answered.failed _).mpr
        ⟨index, request, error, isRequest, isError, rfl⟩)
    rw [not_or, not_or, not_le] at several
    obtain ⟨short, plural, unequal⟩ := several
    obtain ⟨fewer, isFewer⟩ : ∃ fewer, walk.cap.toNat = fewer + 2 :=
      ⟨walk.cap.toNat - 2, by omega⟩
    rw [planned, isFewer] at isLast
    obtain ⟨step, isStep, begins, ends, within⟩ :=
      second_step_of_short short (by omega) isLast before positive
    rw [← isFewer, ← planned] at isStep
    refine ⟨step, taken step isStep begins.le, mem_page.mpr ⟨isBar, begins.le, ends.le, ?_⟩⟩
    exact card_after_lt (apart ticker isTicker) wide isBar (by omega) nonzero

/-- An overfull first step leaves the bar at the start in no page taken, and reports it
covered. -/
theorem not_honest_of_overfull (paged : walk.paging.direction = .mostRecent)
    (capped : 0 < walk.cap.toNat) (ordered : ask.fromMicros < toMicros)
    (full : Overfull walk bars series ask toMicros instruments errors) :
    ¬ Honest walk bars instruments
      (walkBackward walk series ask toMicros instruments errors) := by
  obtain ⟨positive, reaches, single, ⟨ticker, isTicker, all⟩, begins⟩ := full
  have wide : 0 < ask.intervalMicros := pos_of_mul_pos_right positive (Int.natCast_nonneg _)
  have isPlan := @plan_mostRecent walk series ask toMicros paged ordered positive
  obtain ⟨left, isCap⟩ : ∃ left, walk.cap.toNat = left + 1 := ⟨_, (Nat.succ_pred capped.ne').symm⟩
  have answered := answered_walkSteps errors
    (walk.plan series ask.fromMicros toMicros ask.intervalMicros) instruments
  have isBar : ask.fromMicros ∈ bars ticker := by
    simpa using all 0 (Nat.zero_le _)
  -- No step begins before the start.
  have noEarlier : ∀ step ∈ walk.plan series ask.fromMicros toMicros ask.intervalMicros,
      ask.fromMicros ≤ step.fromMicros := by
    intro step isStep
    rw [isPlan] at isStep
    rcases single with long | isOne | same
    · exact from_of_mem_stepsFrom long isStep
    · rw [isOne, stepsFrom_succ ordered] at isStep
      split at isStep <;> simp_all [Walk.stepsFrom]
    · rw [isCap, stepsFrom_succ ordered, if_pos (by omega), List.mem_singleton] at isStep
      rw [isStep]
  intro honest
  have covered := honest ticker isTicker ask.fromMicros isBar
  simp only [walkBackward, withFailures_requestedFrom] at covered
  obtain ⟨step, isTaken, inPage⟩ := covered le_rfl (by
    refine lt_reached_withFailures.mpr ⟨?_, ?_⟩
    · simp only [Walk.outcome]
      cases isLast : (walk.plan series ask.fromMicros toMicros
          ask.intervalMicros).getLast? with
      | none =>
          rw [List.getLast?_eq_none_iff, isPlan, isCap, stepsFrom_succ ordered] at isLast
          cases isLast
      | some last =>
          have isStep := List.mem_of_getLast? isLast
          have notEarlier := noEarlier last isStep
          rw [isPlan] at isStep
          have ends := ends_of_mem_stepsFrom isStep
          simp only [Option.map_some, Option.getD_some]
          omega
    · intro failure member
      obtain ⟨index, request, error, isRequest, isError, rfl⟩ := (answered.failed _).mp member
      have := begins index request isRequest (by rw [isError]; rfl)
      exact lt_max_of_lt_left this)
  obtain ⟨index, isRequest, _⟩ := (answered.taken _).mp isTaken
  have isStep := (mem_requests.mp (List.mem_of_getElem? isRequest)).1
  obtain ⟨_, notLater, _, fewer⟩ := mem_page.mp inPage
  have notEarlier := noEarlier step isStep
  rw [isPlan] at isStep
  have ends := (ends_of_mem_stepsFrom isStep).1
  have isStop : step.toMicros = ask.fromMicros + walk.pageRows * ask.intervalMicros := by omega
  rw [isStop] at fewer
  exact absurd (card_after_of_all wide all) (not_le.mpr fewer)

/-- A backward walk's coverage is honest exactly where its first step is not overfull; with no
failure and no cap it reaches the end, and a plan that stops before the end is reported
capped. -/
theorem walkBackward_honest_iff
    (apart : ∀ ticker ∈ instruments, Apart ask.intervalMicros (bars ticker))
    (paged : walk.paging.direction = .mostRecent) (capped : 0 < walk.cap.toNat)
    (ordered : ask.fromMicros < toMicros) :
    let walked := walkBackward walk series ask toMicros instruments errors
    (Honest walk bars instruments walked ↔
        ¬ Overfull walk bars series ask toMicros instruments errors) ∧
      (walked.2.failed = [] → walked.2.capped = false → walked.2.reachedMicros = toMicros) ∧
      ((∀ step ∈ walk.plan series ask.fromMicros toMicros ask.intervalMicros,
        step.toMicros < toMicros) → walked.2.capped = true) := by
  intro walked
  refine ⟨⟨?_, ?_⟩, ?_, ?_⟩
  · intro honest full
    exact not_honest_of_overfull paged capped ordered full honest
  · intro sound ticker isTicker bar isBar begins before
    simp only [walked, walkBackward, withFailures_requestedFrom] at begins before
    obtain ⟨beforeLast, beforeFailures⟩ := lt_reached_withFailures.mp before
    simp only [Walk.outcome] at begins beforeLast beforeFailures
    cases isLast : (walk.plan series ask.fromMicros toMicros
        ask.intervalMicros).getLast? with
    | none =>
        rw [isLast] at beforeLast
        exact absurd begins (not_le.mpr beforeLast)
    | some last =>
        rw [isLast] at beforeLast
        have positive : 0 < (walk.pageRows : Int) * ask.intervalMicros := by
          by_contra empty
          rw [plan_of_not_pos paged ordered (not_lt.mp empty)] at isLast
          cases isLast
        rcases begins.eq_or_lt with rfl | later
        · exact taken_at_start apart paged capped ordered positive sound rfl isTicker isBar
            isLast beforeLast fun failure member =>
              (lt_max_iff.mp (beforeFailures failure member)).resolve_right (lt_irrefl _)
        · exact taken_of_later apart (plan_mostRecent paged ordered positive) rfl positive
            isTicker isBar later isLast beforeLast beforeFailures
  · intro noneFailed uncapped
    simp only [walked, walkBackward, withFailures_failed, withFailures_capped] at *
    rw [noneFailed, WalkOutcome.withFailures]
    simp only [Walk.outcome, decide_eq_false_iff_not, not_lt, List.map_nil,
      List.min?_nil] at uncapped ⊢
    refine le_antisymm ?_ uncapped
    cases isLast : (walk.plan series ask.fromMicros toMicros
        ask.intervalMicros).getLast? with
    | none => exact ordered.le
    | some last => exact to_le_of_mem_plan paged ordered (List.mem_of_getLast? isLast)
  · intro stops
    simp only [walked, walkBackward, withFailures_capped, Walk.outcome, decide_eq_true_eq]
    cases isLast : (walk.plan series ask.fromMicros toMicros
        ask.intervalMicros).getLast? with
    | none => exact ordered
    | some last => exact stops last (List.mem_of_getLast? isLast)

end Walked

/-- An instrument walked. -/
def sol : Ticker := ⟨"SOL".toList, by decide⟩

/-- A walk of a venue with two bars a page. -/
def twoRows : Walk := ⟨⟨2, .mostRecent⟩, 10⟩

/-- An ask of minute bars from the epoch. -/
def minuteAsk : Ask := ⟨60000000, 0, none, 0⟩

/-- A walk from between two bars. -/
theorem walkBackward_honest_iff_between :
    Honest twoRows (fun _ => {-30000000, 30000000, 90000000}) [sol]
      (walkBackward twoRows .candles minuteAsk 120000000 [sol] fun _ => none) := by
  refine (@walkBackward_honest_iff _ _ .candles _ _ _ _ ?_ rfl (by decide) (by decide)).1.mpr ?_
  · intro ticker _
    unfold Apart
    decide
  · rintro ⟨_, _, _, ⟨ticker, _, all⟩, _⟩
    have atStart := all 0 (Nat.zero_le _)
    simp [minuteAsk] at atStart

/-- Two minutes of two bars a page, with a bar at either end: nothing fails, both minutes are
reported covered, and the first bar was never taken. -/
theorem first_bar_left_out :
    let bars : Finset Int := {0, 60000000, 120000000}
    let walked := walkBackward twoRows .candles minuteAsk 120000000 [sol] fun _ => none
    Apart minuteAsk.intervalMicros bars ∧ walked.2.failed = [] ∧
      walked.2.reachedMicros = 120000000 ∧ ¬ Honest twoRows (fun _ => bars) [sol] walked := by
  refine ⟨by unfold Apart; decide, by decide, by decide, ?_⟩
  intro honest
  obtain ⟨step, isTaken, inPage⟩ := honest sol (by decide) 0 (by decide) (by decide) (by decide)
  have only : step = ⟨.candles, 60000000, 0, 120000000⟩ := by
    have isStep : (sol, step) ∈ [(sol, (⟨.candles, 60000000, 0, 120000000⟩ : Step))] := isTaken
    simpa using isStep
  rw [only] at inPage
  exact absurd inPage (by decide)

end Capture
end Datawatch
