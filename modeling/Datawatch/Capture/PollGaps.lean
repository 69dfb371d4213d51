import Datawatch.Capture.Poll
import Datawatch.Capture.RestartGap

/-!
# What a poll loop claims

A moment after the first answer lies in a gap exactly where the next poll asked was not answered,
and the gaps of one outage widen from one origin.
-/

namespace Datawatch
namespace Capture

open Library Library.Transition Segments Wire Record Ingest

/-- A poll that was not answered. -/
def PollRound.isMissed (round : PollRound) : Bool :=
  match round.answer with
  | .ok _ => false
  | .error _ => true

/-- The gap a poll that did not answer amounts to, where there is one. -/
def Cadence.gapOf (cadence : Cadence) (round : PollRound) (refusal : Refusal) : List Gap :=
  match cadence.missed round.askedMicros refusal.cause with
  | .answered => []
  | .missed fromMicros toMicros cause => [pollGap fromMicros toMicros cause]

/-- The gaps a sequence of polls amounts to. -/
def missedGaps : Cadence → List PollRound → List Gap
  | _, [] => []
  | cadence, round :: rounds =>
      match round.answer with
      | .ok _ => missedGaps (cadence.answered round.askedMicros).1 rounds
      | .error refusal => cadence.gapOf round refusal ++ missedGaps cadence rounds

/-- Polls asked no earlier than the last that answered, and each no earlier than the one before. -/
structure Forward (cadence : Cadence) (rounds : List PollRound) : Prop where
  started : ∀ start ∈ cadence.lastAnsweredMicros, ∀ round ∈ rounds, start ≤ round.askedMicros
  ordered : rounds.Pairwise fun first second => first.askedMicros ≤ second.askedMicros

/-- Whether a gap holds a moment. -/
def GapHolds (gap : Gap) (moment : Int) : Prop :=
  gap.fromMicros ≤ moment ∧ moment < gap.toMicros

/-- The first poll asked after a moment. -/
def nextAfter (moment : Int) (rounds : List PollRound) : Option PollRound :=
  rounds.find? fun round => decide (moment < round.askedMicros)

/-- Whether a poll had answered by a moment. -/
def AnsweredBy (cadence : Cadence) (rounds : List PollRound) (moment : Int) : Prop :=
  (∃ start ∈ cadence.lastAnsweredMicros, start ≤ moment) ∨
    ∃ round ∈ rounds, round.isMissed = false ∧ round.askedMicros ≤ moment

theorem mem_gapOf {cadence : Cadence} {round : PollRound} {refusal : Refusal} {gap : Gap} :
    gap ∈ cadence.gapOf round refusal ↔
      ∃ start ∈ cadence.lastAnsweredMicros, start < round.askedMicros ∧
        gap = pollGap start round.askedMicros refusal.cause := by
  unfold Cadence.gapOf Cadence.missed
  cases cadence.lastAnsweredMicros with
  | none => simp
  | some start =>
      by_cases later : round.askedMicros ≤ start
      · simp [later]
      · simp [later, not_le.mp later]

section Sequences

variable {cadence : Cadence} {round : PollRound} {rounds : List PollRound}

theorem Forward.tail (forward : Forward cadence (round :: rounds)) : Forward cadence rounds :=
  ⟨fun start isStart other member => forward.started start isStart other
    (List.mem_cons_of_mem _ member), forward.ordered.of_cons⟩

theorem Forward.answered (forward : Forward cadence (round :: rounds)) :
    Forward (cadence.answered round.askedMicros).1 rounds := by
  refine ⟨?_, forward.ordered.of_cons⟩
  rintro start isStart other member
  obtain rfl := Option.some.inj isStart
  exact List.rel_of_pairwise_cons forward.ordered member

theorem nextAfter_cons_of_lt {moment : Int} (after : moment < round.askedMicros) :
    nextAfter moment (round :: rounds) = some round := by
  rw [nextAfter, List.find?_cons_of_pos (by simpa using after)]

theorem nextAfter_cons_of_le {moment : Int} (before : round.askedMicros ≤ moment) :
    nextAfter moment (round :: rounds) = nextAfter moment rounds := by
  rw [nextAfter, List.find?_cons_of_neg (by simpa using before)]
  rfl

/-- No later poll had answered by a moment before this one was asked. -/
theorem answeredBy_cons_of_lt (forward : Forward cadence (round :: rounds)) {moment : Int}
    (after : moment < round.askedMicros) :
    AnsweredBy cadence (round :: rounds) moment ↔
      ∃ start ∈ cadence.lastAnsweredMicros, start ≤ moment := by
  refine or_iff_left ?_
  rintro ⟨other, member, _, asked⟩
  rcases List.mem_cons.mp member with rfl | later
  · omega
  · have ordered := List.rel_of_pairwise_cons forward.ordered later
    omega

theorem answeredBy_cons_of_isMissed (missed : round.isMissed = true) (moment : Int) :
    AnsweredBy cadence (round :: rounds) moment ↔ AnsweredBy cadence rounds moment := by
  simp [AnsweredBy, missed]

/-- **A moment lies in a gap exactly where a poll had answered by it and the next poll did not.** -/
theorem exists_missedGaps_iff (forward : Forward cadence rounds) (moment : Int) :
    (∃ gap ∈ missedGaps cadence rounds, GapHolds gap moment) ↔
      AnsweredBy cadence rounds moment ∧
        ∃ next ∈ nextAfter moment rounds, next.isMissed = true := by
  induction rounds generalizing cadence with
  | nil => simp [missedGaps, nextAfter]
  | cons round rounds inductionHypothesis =>
      cases isAnswer : round.answer with
      | ok bytes =>
          have answered : round.isMissed = false := by simp [PollRound.isMissed, isAnswer]
          have unfolded : missedGaps cadence (round :: rounds) =
              missedGaps (cadence.answered round.askedMicros).1 rounds := by
            simp only [missedGaps, isAnswer]
          rw [unfolded, inductionHypothesis forward.answered]
          by_cases after : moment < round.askedMicros
          · rw [nextAfter_cons_of_lt after]
            simp only [Option.mem_some_iff, exists_eq_left', answered, Bool.false_eq_true,
              and_false, iff_false]
            rintro ⟨(⟨start, isStart, le⟩ | ⟨other, member, _, asked⟩), _⟩
            · obtain rfl := Option.some.inj isStart
              omega
            · have ordered := List.rel_of_pairwise_cons forward.ordered member
              omega
          · rw [nextAfter_cons_of_le (not_lt.mp after)]
            apply and_congr_left
            intro _
            constructor
            · intro _
              exact .inr ⟨round, List.mem_cons_self, answered, not_lt.mp after⟩
            · intro _
              exact .inl ⟨_, rfl, not_lt.mp after⟩
      | error refusal =>
          have missed : round.isMissed = true := by simp [PollRound.isMissed, isAnswer]
          have unfolded : missedGaps cadence (round :: rounds) =
              cadence.gapOf round refusal ++ missedGaps cadence rounds := by
            simp only [missedGaps, isAnswer]
          rw [unfolded]
          simp only [List.mem_append, or_and_right, exists_or]
          rw [inductionHypothesis forward.tail]
          by_cases after : moment < round.askedMicros
          · rw [nextAfter_cons_of_lt after, answeredBy_cons_of_lt forward after]
            constructor
            · rintro (⟨gap, isGap, holds, _⟩ | ⟨answered, _⟩)
              · obtain ⟨start, isStart, _, rfl⟩ := mem_gapOf.mp isGap
                exact ⟨⟨start, isStart, holds⟩, round, rfl, missed⟩
              · rcases answered with started | ⟨other, member, _, asked⟩
                · exact ⟨started, round, rfl, missed⟩
                · have ordered := List.rel_of_pairwise_cons forward.ordered member
                  omega
            · rintro ⟨⟨start, isStart, le⟩, _⟩
              have opens := lt_of_le_of_lt le after
              exact .inl ⟨_, mem_gapOf.mpr ⟨start, isStart, opens, rfl⟩, le, after⟩
          · rw [nextAfter_cons_of_le (not_lt.mp after), answeredBy_cons_of_isMissed missed]
            refine or_iff_right ?_
            rintro ⟨gap, isGap, _, before⟩
            obtain ⟨start, _, _, rfl⟩ := mem_gapOf.mp isGap
            exact after before

/-- A gap starts where the last poll before them answered or where one of them did, and ends where
one of them did not. -/
theorem of_mem_missedGaps {gap : Gap} (isGap : gap ∈ missedGaps cadence rounds) :
    (gap.fromMicros ∈ cadence.lastAnsweredMicros ∨
        ∃ round ∈ rounds, gap.fromMicros = round.askedMicros) ∧
      ∃ round ∈ rounds, gap.toMicros = round.askedMicros := by
  induction rounds generalizing cadence with
  | nil => cases isGap
  | cons round rounds inductionHypothesis =>
      rw [missedGaps] at isGap
      split at isGap
      case h_1 =>
          obtain ⟨starts, ends⟩ := inductionHypothesis isGap
          refine ⟨.inr ?_, List.exists_mem_cons_of_exists ends⟩
          rcases starts with isStart | started
          · exact ⟨round, List.mem_cons_self, (Option.some.inj isStart).symm⟩
          · exact List.exists_mem_cons_of_exists started
      case h_2 =>
          rcases List.mem_append.mp isGap with here | later
          · obtain ⟨start, isStart, _, rfl⟩ := mem_gapOf.mp here
            exact ⟨.inl isStart, round, List.mem_cons_self, rfl⟩
          · obtain ⟨starts, ends⟩ := inductionHypothesis later
            exact ⟨starts.imp_right List.exists_mem_cons_of_exists,
              List.exists_mem_cons_of_exists ends⟩

/-- One gap widens into another, or ends before it. -/
def WidensOrEnds (first second : Gap) : Prop :=
  (first.fromMicros = second.fromMicros ∧ first.toMicros ≤ second.toMicros) ∨
    first.toMicros ≤ second.fromMicros

/-- The gaps of one outage widen from one origin, and those of two do not overlap. -/
theorem widensOrEnds_missedGaps (forward : Forward cadence rounds) :
    (missedGaps cadence rounds).Pairwise WidensOrEnds := by
  induction rounds generalizing cadence with
  | nil => exact List.Pairwise.nil
  | cons round rounds inductionHypothesis =>
      rw [missedGaps]
      split
      · exact inductionHypothesis forward.answered
      · refine List.pairwise_append.mpr ⟨?_, inductionHypothesis forward.tail, ?_⟩
        · unfold Cadence.gapOf
          split
          · exact List.Pairwise.nil
          · exact List.pairwise_singleton _ _
        · intro gap isGap later isLater
          obtain ⟨start, isStart, _, rfl⟩ := mem_gapOf.mp isGap
          obtain ⟨starts, other, member, isEnd⟩ := of_mem_missedGaps isLater
          have ordered := List.rel_of_pairwise_cons forward.ordered member
          rcases starts with same | ⟨answered, isRound, isFrom⟩
          · exact .inl ⟨Option.mem_unique isStart same, isEnd ▸ ordered⟩
          · exact .inr (isFrom ▸ List.rel_of_pairwise_cons forward.ordered isRound)

end Sequences

namespace PollLoop

variable (wiring : PollWiring)

/-- What a loop keeps for its gaps is left alone. -/
def SameClaims (before after : PollLoop) : Prop :=
  after.claimed = before.claimed ∧ after.cadence = before.cadence

theorem sameClaims_pace (loop : PollLoop) (round : PollRound) :
    SameClaims loop (loop.pace wiring round) := by
  unfold pace
  split <;> exact ⟨rfl, rfl⟩

theorem sameClaims_flushIfDue (loop : PollLoop) (nowMicros : Int) (outcome : FlushOutcome) :
    SameClaims loop (loop.flushIfDue wiring nowMicros outcome) := by
  unfold flushIfDue
  split
  · split <;> exact ⟨rfl, rfl⟩
  · exact ⟨rfl, rfl⟩

theorem publishGaps_claims (gap : Gap) (about : List Ticker) (fates : Nat → WriteFate)
    (loop : PollLoop) :
    (publishGaps wiring gap about fates loop).claimed =
        loop.claimed ++ about.map (fun ticker => (ticker, gap)) ∧
      (publishGaps wiring gap about fates loop).cadence = loop.cadence := by
  induction about generalizing fates loop with
  | nil => exact ⟨(List.append_nil _).symm, rfl⟩
  | cons ticker about inductionHypothesis =>
      have published : (loop.publishGap wiring ticker gap (fates 0)).claimed =
          loop.claimed ++ [(ticker, gap)] ∧
            (loop.publishGap wiring ticker gap (fates 0)).cadence = loop.cadence := by
        unfold publishGap
        simp only
        split <;> exact ⟨rfl, rfl⟩
      rw [publishGaps]
      obtain ⟨claimed, cadence⟩ := inductionHypothesis (fun index => fates (index + 1))
        (loop.publishGap wiring ticker gap (fates 0))
      rw [claimed, cadence, published.1, published.2, List.append_assoc]
      exact ⟨rfl, rfl⟩

/-- The rows a gap is handed over as: one of each instrument. -/
def rowsOfGaps (gaps : List Gap) : List (Ticker × Gap) :=
  gaps.flatMap fun gap => wiring.about.map fun ticker => (ticker, gap)

theorem missed_claims (loop : PollLoop) (round : PollRound) (refusal : Refusal) :
    (loop.missed wiring round refusal).claimed =
        loop.claimed ++ rowsOfGaps wiring (loop.cadence.gapOf round refusal) ∧
      (loop.missed wiring round refusal).cadence = loop.cadence := by
  unfold missed Cadence.gapOf rowsOfGaps
  cases loop.cadence.missed round.askedMicros refusal.cause with
  | answered => simp
  | missed fromMicros toMicros cause =>
      obtain ⟨claimed, cadence⟩ := publishGaps_claims wiring (pollGap fromMicros toMicros cause)
        wiring.about round.gapFates
        { loop with polls := { loop.polls with missed := loop.polls.missed + 1 } }
      simp [claimed, cadence]

theorem answered_claims (loop : PollLoop) (round : PollRound) (bytes : List UInt8) :
    (loop.answered wiring round bytes).claimed = loop.claimed ∧
      ((loop.answered wiring round bytes).phase = .failed ∨
        (loop.answered wiring round bytes).cadence =
          (loop.cadence.answered round.askedMicros).1) := by
  unfold answered
  simp only
  split
  · exact ⟨rfl, .inl rfl⟩
  · exact ⟨rfl, .inr rfl⟩

/-- A loop that polls no longer is asked nothing more. -/
theorem eq_nil_of_not_polling {rounds : List PollRound} {loop final : PollLoop}
    (stopped : loop.phase ≠ .polling)
    (run : exec (step wiring) (rounds.map .round) loop = some final) : rounds = [] := by
  cases rounds with
  | nil => rfl
  | cons round rounds =>
      obtain ⟨next, stepped, _⟩ := exec_cons_eq_some_iff.mp run
      rw [step, if_neg stopped] at stepped
      cases stepped

/-- What one poll hands over, and what it leaves the next. -/
theorem round_claims (loop : PollLoop) (round : PollRound) :
    (round.isMissed = false ∧ (loop.round wiring round).claimed = loop.claimed ∧
        ((loop.round wiring round).phase = .failed ∨
          (loop.round wiring round).cadence = (loop.cadence.answered round.askedMicros).1)) ∨
      ∃ refusal, round.answer = .error refusal ∧
        (loop.round wiring round).claimed =
            loop.claimed ++ rowsOfGaps wiring (loop.cadence.gapOf round refusal) ∧
          (loop.round wiring round).cadence = loop.cadence := by
  unfold PollLoop.round
  cases isAnswer : round.answer with
  | ok bytes =>
      left
      simp only
      obtain ⟨claimed, cadence⟩ := answered_claims wiring loop round bytes
      refine ⟨by simp [PollRound.isMissed, isAnswer], ?_⟩
      split
      case isTrue isFailed => exact ⟨claimed, .inl isFailed⟩
      case isFalse notFailed =>
          obtain ⟨paced, pacedCadence⟩ := sameClaims_pace wiring (loop.answered wiring round bytes)
            round
          obtain ⟨flushed, flushedCadence⟩ := sameClaims_flushIfDue wiring
            ((loop.answered wiring round bytes).pace wiring round) round.tendedMicros round.flush
          rw [flushed, paced, flushedCadence, pacedCadence]
          exact ⟨claimed, .inr (cadence.resolve_left notFailed)⟩
  | error refusal =>
      right
      obtain ⟨claimed, cadence⟩ := missed_claims wiring loop round refusal
      obtain ⟨paced, pacedCadence⟩ := sameClaims_pace wiring (loop.missed wiring round refusal)
        round
      obtain ⟨flushed, flushedCadence⟩ := sameClaims_flushIfDue wiring
        ((loop.missed wiring round refusal).pace wiring round) round.tendedMicros round.flush
      simp only
      rw [flushed, paced, flushedCadence, pacedCadence]
      exact ⟨refusal, rfl, claimed, cadence⟩

/-- **A run hands over the gaps its polls amount to**, one of each instrument. -/
theorem claimed_of_exec {rounds : List PollRound} {loop final : PollLoop}
    (run : exec (step wiring) (rounds.map .round) loop = some final) :
    final.claimed = loop.claimed ++ rowsOfGaps wiring (missedGaps loop.cadence rounds) := by
  induction rounds generalizing loop with
  | nil =>
      obtain rfl := Option.some.inj run
      exact (List.append_nil _).symm
  | cons round rounds inductionHypothesis =>
      obtain ⟨next, stepped, rest⟩ := exec_cons_eq_some_iff.mp run
      have isNext : next = loop.round wiring round := by
        rw [step] at stepped
        exact (Option.some.inj (Option.ite_none_right_eq_some.mp stepped).2).symm
      have later := inductionHypothesis rest
      rw [later, isNext]
      rcases round_claims wiring loop round with
        ⟨answered, claimed, ended⟩ | ⟨refusal, isAnswer, claimed, cadence⟩
      · rw [claimed]
        cases isAnswer : round.answer with
        | error refusal => simp [PollRound.isMissed, isAnswer] at answered
        | ok bytes =>
            rcases ended with failed | cadence
            · have none : rounds = [] := by
                refine eq_nil_of_not_polling wiring ?_ rest
                rw [isNext, failed]
                simp
              subst none
              simp [missedGaps, isAnswer]
            · rw [cadence, missedGaps, isAnswer]
      · rw [claimed, cadence, missedGaps, isAnswer, rowsOfGaps, rowsOfGaps, rowsOfGaps,
          List.flatMap_append, List.append_assoc]

/-- **What a poll loop claims is exact.**  Over every run of a clock that does not go back, a moment
lies in a gap of an instrument exactly where a poll had answered by it and the next one asked was
not answered; and an instrument's gaps widen from one origin through an outage, and are apart from
those of any other. -/
theorem poll_gaps_exact {rounds : List PollRound} {opened : Archive} {clipped : Clipped}
    {final : PollLoop}
    (run : exec (step wiring) (rounds.map .round) (start wiring opened clipped) = some final)
    (forward : rounds.Pairwise fun first second => first.askedMicros ≤ second.askedMicros)
    {ticker : Ticker} (about : ticker ∈ wiring.about) :
    (∀ moment, (∃ row ∈ final.claimed, row.1 = ticker ∧ GapHolds row.2 moment) ↔
      (∃ round ∈ rounds, round.isMissed = false ∧ round.askedMicros ≤ moment) ∧
        ∃ next ∈ nextAfter moment rounds, next.isMissed = true) ∧
      final.claimed.Pairwise fun first second => WidensOrEnds first.2 second.2 := by
  have starts : Forward (start wiring opened clipped).cadence rounds :=
    ⟨fun _ isStart => (by cases isStart), forward⟩
  have claimed : final.claimed = rowsOfGaps wiring (missedGaps _ rounds) :=
    claimed_of_exec wiring run
  rw [claimed]
  constructor
  · intro moment
    have exactly := exists_missedGaps_iff starts moment
    rw [AnsweredBy, or_iff_right (by rintro ⟨_, isStart, _⟩; cases isStart)] at exactly
    rw [← exactly]
    constructor
    · rintro ⟨row, isRow, _, holds⟩
      obtain ⟨gap, isGap, inRows⟩ := List.mem_flatMap.mp isRow
      obtain ⟨_, _, rfl⟩ := List.mem_map.mp inRows
      exact ⟨gap, isGap, holds⟩
    · rintro ⟨gap, isGap, holds⟩
      have inRows : (ticker, gap) ∈ wiring.about.map fun other => (other, gap) :=
        List.mem_map_of_mem about
      exact ⟨(ticker, gap), List.mem_flatMap.mpr ⟨gap, isGap, inRows⟩, rfl, holds⟩
  · refine List.pairwise_flatMap.mpr ⟨?_, ?_⟩
    · intro gap _
      refine List.pairwise_map.mpr (List.pairwise_of_forall fun _ _ => ?_)
      exact .inl ⟨rfl, le_rfl⟩
    · refine (widensOrEnds_missedGaps starts).imp ?_
      intro first second widens firstRow isFirst secondRow isSecond
      obtain ⟨_, _, rfl⟩ := List.mem_map.mp isFirst
      obtain ⟨_, _, rfl⟩ := List.mem_map.mp isSecond
      exact widens

end PollLoop

/-- A flush that writes everything. -/
def FlushOutcome.whole : FlushOutcome where
  payloads := fun _ => .committed
  failures := fun _ => .committed
  marks := true
  removes := true

/-- A venue of one stock, asked every five seconds, that quotes nothing. -/
def polledStock : PollWiring where
  venue := robinhood
  seam :=
    { normaliser := ⟨robinhood, fun _ => .ok []⟩
      generatedEnvelope := fun _ => .error []
      classify := fun bytes recvMicros =>
        ⟨0, recvMicros, .venue robinhood.text, "quotes".toList, "quotes".toList, none, .fetched,
          bytes⟩
      seriesOfChannel := fun _ => some .quotes
      venueTicker := fun _ _ => none
      declared := [(tesla, .quotes)] }
  render := fun _ => []
  about := [tesla]
  intervalMicros := 5_000_000
  flushSecs := 1

/-- A poll whose writes all land. -/
def pollAt (askedMicros : Int) (answer : Except Refusal (List UInt8)) : PollRound where
  askedMicros := askedMicros
  answer := answer
  receivedMicros := askedMicros + 1
  answerFate := .committed
  gapFates := fun _ => .committed
  jittered := id
  tendedMicros := askedMicros + 2
  flush := .whole

/-- An answer, two polls that are not answered, and an answer. -/
def outage : List PollRound :=
  [pollAt 10 (.ok []), pollAt 20 (.error .unreachable), pollAt 30 (.error .throttled),
    pollAt 40 (.ok [])]

/-- The loop after the outage. -/
def afterOutage : PollLoop :=
  (exec (PollLoop.step polledStock) (outage.map .round)
    (PollLoop.start polledStock {} .continuous)).getD (PollLoop.start polledStock {} .continuous)

/-- The outage is claimed from the first answer to the last poll that was missed. -/
theorem poll_gaps_exact_outage :
    (∃ row ∈ afterOutage.claimed, row.1 = tesla ∧ GapHolds row.2 29) ∧
      ¬ (∃ row ∈ afterOutage.claimed, row.1 = tesla ∧ GapHolds row.2 30) := by
  have ran : exec (PollLoop.step polledStock) (outage.map .round)
      (PollLoop.start polledStock {} .continuous) = some afterOutage := by
    have ends : (exec (PollLoop.step polledStock) (outage.map .round)
        (PollLoop.start polledStock {} .continuous)).isSome := by
      decide +kernel
    obtain ⟨final, isFinal⟩ := Option.isSome_iff_exists.mp ends
    rw [afterOutage, isFinal, Option.getD_some]
  have exactly := (PollLoop.poll_gaps_exact polledStock ran (by decide)
    (List.mem_singleton.mpr rfl : tesla ∈ polledStock.about)).1
  rw [exactly 29, exactly 30]
  refine ⟨⟨⟨pollAt 10 (.ok []), List.mem_cons_self, rfl, by decide⟩, pollAt 30 (.error .throttled),
    rfl, rfl⟩, ?_⟩
  rintro ⟨_, next, isNext, missed⟩
  obtain rfl : pollAt 40 (.ok []) = next := Option.some.inj isNext
  cases missed

end Capture
end Datawatch
