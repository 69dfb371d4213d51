import Datawatch.Chain.NeverSkips

/-!
# A refused range is asked again in halves

The loop's span stays between one block and the declared span, each pass covers its range in steps
no wider, and a range refused for its size is next asked for in halves, where no pass ends clean
in between.
-/

namespace Datawatch
namespace Chain

open Library Library.Transition

/-- What a run of the loop has asked for and how its span grew. -/
inductive SpanEvent
  /-- A range of logs was asked for, and answered. -/
  | asked (step : BlockStep) (answer : LogsAnswer)
  /-- A pass ended clean, and the span grew. -/
  | widened
deriving DecidableEq

/-- A run of the loop, with what it has asked for, newest first. -/
structure SpanRun where
  run : ChainRun
  log : List SpanEvent

/-- A run that has asked for nothing. -/
def SpanRun.start (config : CursorConfig) : SpanRun := ⟨.start config, []⟩

/-- The range an ask asks for. -/
def requestOf : ChainRun.Ask → List BlockStep → List SpanEvent
  | .step answers, step :: _ => [.asked step answers.logs]
  | .step _, [] => []
  | .pass _, _ => []

/-- One ask of the loop, noted. -/
def SpanRun.ask (config : CursorConfig) (watched : SpanRun) (next : ChainRun.Ask) :
    Option SpanRun :=
  (watched.run.ask config next).map fun after =>
    ⟨after, (if watched.run.span < after.span then [SpanEvent.widened] else []) ++
      requestOf next watched.run.pending ++ watched.log⟩

/-- The noted run is the run. -/
theorem SpanRun.exec_run {config : CursorConfig} {asks : List ChainRun.Ask}
    {watched final : SpanRun} (ran : exec (SpanRun.ask config) asks watched = some final) :
    exec (ChainRun.ask config) asks watched.run = some final.run := by
  induction asks generalizing watched with
  | nil =>
      obtain rfl := Option.some.inj ran
      rfl
  | cons next asks inductionHypothesis =>
      obtain ⟨after, asked, rest⟩ := exec_cons_eq_some_iff.mp ran
      obtain ⟨afterRun, isAsk, rfl⟩ := Option.map_eq_some_iff.mp asked
      exact exec_cons_eq_some_iff.mpr ⟨afterRun, isAsk, inductionHypothesis rest⟩

/-- No range asked for starts at a height. -/
def NotAskedAt (height : Nat) (events : List SpanEvent) : Prop :=
  ∀ step answer, .asked step answer ∈ events → step.first ≠ height

/-- Steps that cover a range of blocks and are no wider than a span. -/
structure Covers (steps : List BlockStep) (first last span : Nat) : Prop where
  abuts : Abuts first steps
  reaches : steps.getLast?.map BlockStep.last = some last
  within : ∀ step ∈ steps, step.blocks ≤ span

/-- **A refused range is never asked again unchanged.**  The span is between one block and the
declared span, a pass covers its range in steps no wider, a range refused for its size is next
asked for in halves, and the run ends exactly when a single block is refused, without asking for
it again. -/
structure NeverUnchanged (config : CursorConfig) (watched : SpanRun) : Prop where
  span : 1 ≤ watched.run.span ∧ watched.run.span ≤ config.paging.maxSpan
  plans : ∀ head after, watched.run.ask config (.pass (some head)) = some after →
    (watched.run.cursor.map (· + 1)).getD (head - config.backfill) ≤ head →
    (∀ earliest ∈ config.paging.earliest,
      earliest ≤ (watched.run.cursor.map (· + 1)).getD (head - config.backfill)) →
    Covers after.pending ((watched.run.cursor.map (· + 1)).getD (head - config.backfill)) head
      watched.run.span
  halves : ∀ later next answer between refused earlier,
    watched.log = later ++ .asked next answer :: (between ++ .asked refused .tooLarge :: earlier) →
    next.first = refused.first → NotAskedAt refused.first between → 1 < refused.blocks →
    next.blocks ≤ max (refused.blocks / 2) 1
  ends : watched.run.running = false ↔
    ∃ step, .asked step .tooLarge ∈ watched.log ∧ step.blocks = 1
  once : ∀ later step earlier, watched.log = later ++ .asked step .tooLarge :: earlier →
    step.blocks = 1 → ∀ other answer, .asked other answer ∉ later

/-- No pass has ended clean since the last range asked for at a height was refused for its size. -/
def NotWidenedSince (height : Nat) (log : List SpanEvent) : Prop :=
  ∀ between refused earlier, log = between ++ .asked refused .tooLarge :: earlier →
    refused.first = height → NotAskedAt height between → .widened ∉ between

/-- A range is asked for where no pass has ended clean since it was refused, and a single block is
refused only once the span is down to it. -/
def AsksNarrower (watched : SpanRun) : ChainRun.Ask → Prop
  | .pass _ => True
  | .step answers => ∀ step ∈ watched.run.pending.head?,
      NotWidenedSince step.first watched.log ∧
        (answers.logs = .tooLarge → step.blocks = 1 → watched.run.span = 1)

variable {config : CursorConfig}

theorem planSteps_within {maxSpan last fuel first : Nat} (positive : 0 < maxSpan)
    (within : first ≤ last) :
    ∀ step ∈ planSteps maxSpan last fuel first, step.blocks ≤ maxSpan := by
  induction fuel generalizing first with
  | zero => intro step member; cases member
  | succ fuel inductionHypothesis =>
      intro step member
      rw [planSteps] at member
      rcases List.mem_cons.mp member with rfl | later
      · simp only [BlockStep.blocks]
        omega
      · split at later
        · cases later
        · exact inductionHypothesis (by omega) step later

theorem planSteps_reaches {maxSpan last fuel first : Nat} (positive : 0 < maxSpan)
    (within : first ≤ last) (enough : last - first < fuel) :
    (planSteps maxSpan last fuel first).getLast?.map BlockStep.last = some last := by
  induction fuel generalizing first with
  | zero => omega
  | succ fuel inductionHypothesis =>
      rw [planSteps]
      split
      · rename_i reached
        have isLast : min (first + (maxSpan - 1)) last = last := by omega
        rw [List.getLast?_singleton, Option.map_some, isLast]
      · rename_i more
        have rest := @inductionHypothesis (min (first + (maxSpan - 1)) last + 1) (by omega)
          (by omega)
        rw [List.getLast?_cons]
        cases isLast : (planSteps maxSpan last fuel
            (min (first + (maxSpan - 1)) last + 1)).getLast? with
        | none =>
            rw [isLast] at rest
            cases rest
        | some step =>
            rw [isLast] at rest
            exact rest

/-- A plan covers its range. -/
theorem BlockPaging.plan_covers {paging : BlockPaging} {first last : Nat}
    {steps : List BlockStep} (positive : 0 < paging.maxSpan) (within : first ≤ last)
    (isPlan : paging.plan first last = some steps) : Covers steps first last paging.maxSpan := by
  have abuts := abuts_of_plan isPlan within
  unfold BlockPaging.plan at isPlan
  split at isPlan
  · cases isPlan
  · rw [if_neg (by omega)] at isPlan
    obtain rfl := Option.some.inj isPlan
    exact ⟨abuts, planSteps_reaches positive within (by omega), planSteps_within positive within⟩

/-- An ask that is not refused for its size: the span is left or widened, and widened only where
the pass is over. -/
structure Unrefused (config : CursorConfig) (run after : ChainRun) (rest : List BlockStep) :
    Prop where
  running : after.running = run.running
  pending : after.pending = [] ∨
    after.pending = rest ∧ after.narrowTo = none ∧ after.span = run.span
  span : after.span = run.span ∨
    run.span < config.paging.maxSpan ∧ after.span = widened run.span config.paging.maxSpan

/-- A pass that comes to its end unrefused leaves the span, or widens it. -/
theorem Unrefused.endPass {run before : ChainRun} {rest : List BlockStep}
    (unrefused : before.narrowTo = none) (running : before.running = run.running)
    (span : before.span = run.span) : Unrefused config run (before.endPass config) rest := by
  unfold ChainRun.endPass
  rw [unrefused]
  simp only
  split
  · rename_i clean
    rw [span] at clean
    refine ⟨running, .inl rfl, .inr ⟨clean.2, ?_⟩⟩
    rw [← span]
  · exact ⟨running, .inl rfl, .inl span⟩

/-- A pass that comes to its end refused narrows the span, or ends the run. -/
theorem endPass_of_narrowTo_some {run : ChainRun} {narrower : Nat}
    (refused : run.narrowTo = some narrower) :
    (run.endPass config).pending = [] ∧
      ((run.span ≤ 1 ∧ (run.endPass config).span = run.span ∧
        (run.endPass config).running = false) ∨
      (1 < run.span ∧ (run.endPass config).span = narrower ∧
        (run.endPass config).running = run.running)) := by
  unfold ChainRun.endPass
  rw [refused]
  simp only
  split
  · rename_i single
    exact ⟨rfl, .inl ⟨single, rfl, rfl⟩⟩
  · rename_i wider
    exact ⟨rfl, .inr ⟨not_le.mp wider, rfl, rfl⟩⟩

/-- A range refused for its size halves the span, or ends the run where it is one block. -/
theorem oneStep_tooLarge {run : ChainRun} {step : BlockStep} {rest : List BlockStep}
    {answers : StepAnswers} (refused : answers.logs = .tooLarge) :
    (run.oneStep config step rest answers).pending = [] ∧
      ((run.span ≤ 1 ∧ (run.oneStep config step rest answers).span = run.span ∧
        (run.oneStep config step rest answers).running = false) ∨
      (1 < run.span ∧ (run.oneStep config step rest answers).span = narrowed step.blocks ∧
        (run.oneStep config step rest answers).running = run.running)) := by
  unfold ChainRun.oneStep
  rw [refused]
  exact @endPass_of_narrowTo_some config ({ run with
    failed := run.failed + 1, narrowTo := some (narrowed step.blocks) }.note (.failed step)) _ rfl

/-- A range that is not refused for its size leaves the span, or widens it. -/
theorem oneStep_of_ne_tooLarge {run : ChainRun} {step : BlockStep} {rest : List BlockStep}
    {answers : StepAnswers} (unrefused : run.narrowTo = none)
    (served : answers.logs ≠ .tooLarge) :
    Unrefused config run (run.oneStep config step rest answers) rest := by
  unfold ChainRun.oneStep
  cases isLogs : answers.logs with
  | tooLarge => exact absurd isLogs served
  | refused => exact Unrefused.endPass unrefused rfl rfl
  | served archives =>
      cases archives with
      | false => exact ⟨rfl, .inl rfl, .inl rfl⟩
      | true =>
          simp only
          split
          · exact Unrefused.endPass unrefused rfl rfl
          · split
            · split
              · exact Unrefused.endPass unrefused rfl rfl
              · exact ⟨rfl, .inr ⟨rfl, unrefused, rfl⟩, .inl rfl⟩
            · exact ⟨rfl, .inl rfl, .inl rfl⟩

/-- A pass that has blocks to ask for, within the provider's reach, plans steps that cover them. -/
theorem beginPass_covers {run : ChainRun} (positive : 0 < run.span) {head : Nat}
    (within : (run.cursor.map (· + 1)).getD (head - config.backfill) ≤ head)
    (reach : ∀ earliest ∈ config.paging.earliest,
      earliest ≤ (run.cursor.map (· + 1)).getD (head - config.backfill)) :
    Covers (run.beginPass config (some head)).pending
      ((run.cursor.map (· + 1)).getD (head - config.backfill)) head run.span ∧
      (run.beginPass config (some head)).running = run.running ∧
      (run.beginPass config (some head)).narrowTo = none ∧
      (run.beginPass config (some head)).span = run.span := by
  rw [ChainRun.beginPass]
  simp only
  rw [if_neg (by omega)]
  cases isPlan : ({ config.paging with maxSpan := run.span } : BlockPaging).plan
      ((run.cursor.map (· + 1)).getD (head - config.backfill)) head with
  | none =>
      unfold BlockPaging.plan at isPlan
      split at isPlan
      · rename_i before
        obtain ⟨earliest, isEarliest, below⟩ := (Option.any_eq_true _ _).mp before
        have := reach earliest isEarliest
        have := of_decide_eq_true below
        omega
      · split at isPlan <;> cases isPlan
  | some steps =>
      have covers := BlockPaging.plan_covers positive within isPlan
      have nonempty : steps ≠ [] := by
        rintro rfl
        cases covers.reaches
      simp only
      rw [if_neg nonempty]
      exact ⟨covers, rfl, rfl, rfl⟩

/-- A pass that plans nothing leaves the span, or widens it. -/
theorem beginPass_of_nothing {run : ChainRun} (idle : run.pending = []) {head : Nat}
    (nothing : head < (run.cursor.map (· + 1)).getD (head - config.backfill) ∨
      ¬ ∀ earliest ∈ config.paging.earliest,
        earliest ≤ (run.cursor.map (· + 1)).getD (head - config.backfill)) :
    Unrefused config run (run.beginPass config (some head)) [] := by
  rw [ChainRun.beginPass]
  simp only
  split
  · exact Unrefused.endPass rfl rfl rfl
  · rename_i notBeyond
    cases isPlan : ({ config.paging with maxSpan := run.span } : BlockPaging).plan
        ((run.cursor.map (· + 1)).getD (head - config.backfill)) head with
    | none => exact ⟨rfl, .inl idle, .inl rfl⟩
    | some steps =>
        refine absurd ?_ (nothing.resolve_left notBeyond)
        intro earliest isEarliest
        unfold BlockPaging.plan at isPlan
        split at isPlan
        · cases isPlan
        · rename_i reached
          rw [Option.any_eq_true, not_exists] at reached
          have := reached earliest
          rw [not_and, decide_eq_true_eq] at this
          exact not_lt.mp (this isEarliest)

/-- The span against what was asked for: it is half of what was refused since, and what was asked
for is half of what was refused before. -/
structure SpanLog (span : Nat) (log : List SpanEvent) : Prop where
  outstanding : ∀ between refused earlier, log = between ++ .asked refused .tooLarge :: earlier →
    NotAskedAt refused.first between → .widened ∉ between → span ≤ max (refused.blocks / 2) 1
  halves : ∀ later next answer between refused earlier,
    log = later ++ .asked next answer :: (between ++ .asked refused .tooLarge :: earlier) →
    next.first = refused.first → NotAskedAt refused.first between →
    next.blocks ≤ max (refused.blocks / 2) 1

theorem SpanLog.nil (span : Nat) : SpanLog span [] := by
  refine ⟨?_, ?_⟩
  · intro between refused earlier isLog
    exact absurd isLog (by simp)
  · intro later next answer between refused earlier isLog
    exact absurd isLog (by simp)

theorem NotAskedAt.of_cons {height : Nat} {event : SpanEvent} {events : List SpanEvent}
    (notAsked : NotAskedAt height (event :: events)) : NotAskedAt height events :=
  fun step answer member => notAsked step answer (List.mem_cons_of_mem _ member)

/-- One more range asked for, no wider than the span, which is then no wider. -/
theorem SpanLog.asked {span after : Nat} {log : List SpanEvent} (holds : SpanLog span log)
    {step : BlockStep} {answer : LogsAnswer} (within : step.blocks ≤ span)
    (narrower : NotWidenedSince step.first log) (notWider : after ≤ span)
    (halved : answer = .tooLarge → after ≤ max (step.blocks / 2) 1) :
    SpanLog after (.asked step answer :: log) := by
  refine ⟨?_, ?_⟩
  · intro between refused earlier isLog notAsked unwidened
    cases between with
    | nil =>
        obtain ⟨rfl, rfl⟩ := SpanEvent.asked.inj (List.cons.inj isLog).1
        exact halved rfl
    | cons event between =>
        refine notWider.trans (holds.outstanding between refused earlier (List.cons.inj isLog).2
          notAsked.of_cons ?_)
        exact fun member => unwidened (List.mem_cons_of_mem _ member)
  · intro later next other between refused earlier isLog sameHeight notAsked
    cases later with
    | nil =>
        obtain ⟨isAsked, isRest⟩ := List.cons.inj isLog
        obtain ⟨rfl, rfl⟩ := SpanEvent.asked.inj isAsked
        refine within.trans (holds.outstanding between refused earlier isRest notAsked ?_)
        exact narrower between refused earlier isRest sameHeight.symm
          (by rw [sameHeight]; exact notAsked)
    | cons event later =>
        exact holds.halves later next other between refused earlier (List.cons.inj isLog).2
          sameHeight notAsked

/-- A pass that ended clean widens the span. -/
theorem SpanLog.widened {span after : Nat} {log : List SpanEvent} (holds : SpanLog span log) :
    SpanLog after (.widened :: log) := by
  refine ⟨?_, ?_⟩
  · intro between refused earlier isLog notAsked unwidened
    cases between with
    | nil => cases (List.cons.inj isLog).1
    | cons event between =>
        rw [← (List.cons.inj isLog).1] at unwidened
        exact absurd List.mem_cons_self unwidened
  · intro later next other between refused earlier isLog sameHeight notAsked
    cases later with
    | nil => cases (List.cons.inj isLog).1
    | cons event later =>
        exact holds.halves later next other between refused earlier (List.cons.inj isLog).2
          sameHeight notAsked

/-- A single block was refused for its size. -/
def SingleRefused (log : List SpanEvent) : Prop :=
  ∃ step, .asked step .tooLarge ∈ log ∧ step.blocks = 1

/-- What holds of every run that asks narrower. -/
structure Narrowing (config : CursorConfig) (watched : SpanRun) : Prop where
  span : 1 ≤ watched.run.span ∧ watched.run.span ≤ config.paging.maxSpan
  within : ∀ step ∈ watched.run.pending, step.blocks ≤ watched.run.span
  unrefused : watched.run.pending ≠ [] → watched.run.narrowTo = none
  log : SpanLog watched.run.span watched.log
  ends : watched.run.running = false ↔ SingleRefused watched.log
  once : ∀ later step earlier, watched.log = later ++ .asked step .tooLarge :: earlier →
    step.blocks = 1 → ∀ other answer, .asked other answer ∉ later

theorem widened_bounds {span declared : Nat} (positive : 1 ≤ span) (below : span < declared) :
    span < widened span declared ∧ widened span declared ≤ declared := by
  unfold widened
  omega

theorem narrowed_le {span blocks : Nat} (positive : 1 ≤ span) (within : blocks ≤ span) :
    1 ≤ narrowed blocks ∧ narrowed blocks ≤ span := by
  unfold narrowed
  omega

/-- A log of a run that goes on holds no refused single block, so one more event keeps that none
is asked for after one. -/
theorem once_cons {event : SpanEvent} {log : List SpanEvent} (noSingle : ¬ SingleRefused log) :
    ∀ later step earlier, event :: log = later ++ .asked step .tooLarge :: earlier →
      step.blocks = 1 → ∀ other answer, SpanEvent.asked other answer ∉ later := by
  intro later step earlier isLog single other answer member
  cases later with
  | nil => cases member
  | cons first later =>
      apply noSingle
      refine ⟨step, ?_, single⟩
      rw [(List.cons.inj isLog).2]
      simp

theorem singleRefused_cons {event : SpanEvent} {log : List SpanEvent} :
    SingleRefused (event :: log) ↔
      (∃ step, event = .asked step .tooLarge ∧ step.blocks = 1) ∨ SingleRefused log := by
  simp only [SingleRefused, List.mem_cons]
  constructor
  · rintro ⟨step, isNew | member, single⟩
    · exact .inl ⟨step, isNew.symm, single⟩
    · exact .inr ⟨step, member, single⟩
  · rintro (⟨step, isNew, single⟩ | ⟨step, member, single⟩)
    · exact ⟨step, .inl isNew.symm, single⟩
    · exact ⟨step, .inr member, single⟩

/-! ## What an ask keeps -/

/-- An unrefused ask that asked for nothing, or for a range already noted, keeps what holds. -/
theorem Narrowing.unrefusedAsk {run after : ChainRun} {log : List SpanEvent}
    {rest : List BlockStep} (holds : Narrowing config ⟨run, log⟩)
    (unrefused : Unrefused config run after rest)
    (restWithin : ∀ step ∈ rest, step.blocks ≤ run.span) (running : run.running = true) :
    Narrowing config
      ⟨after, (if run.span < after.span then [SpanEvent.widened] else []) ++ log⟩ := by
  have noSingle : ¬ SingleRefused log := by
    intro single
    have ended := holds.ends.mpr single
    rw [show run.running = false from ended] at running
    cases running
  have afterRuns : after.running = true := unrefused.running.trans running
  have span : 1 ≤ after.span ∧ after.span ≤ config.paging.maxSpan := by
    rcases unrefused.span with same | ⟨below, wider⟩
    · rw [same]
      exact holds.span
    · have bounds := widened_bounds holds.span.1 below
      rw [wider]
      exact ⟨holds.span.1.trans bounds.1.le, bounds.2⟩
  have within : ∀ step ∈ after.pending, step.blocks ≤ after.span := by
    intro step member
    rcases unrefused.pending with isOver | ⟨isRest, _, same⟩
    · rw [isOver] at member
      cases member
    · rw [isRest] at member
      rw [same]
      exact restWithin step member
  have fresh : after.pending ≠ [] → after.narrowTo = none := by
    intro more
    rcases unrefused.pending with isOver | ⟨_, unrefused, _⟩
    · exact absurd isOver more
    · exact unrefused
  by_cases wider : run.span < after.span
  · rw [if_pos wider]
    refine ⟨span, within, fresh, holds.log.widened, ?_, once_cons noSingle⟩
    rw [List.singleton_append, singleRefused_cons]
    refine iff_of_false (by simp [afterRuns]) ?_
    rintro (⟨step, isWidened, _⟩ | single)
    · cases isWidened
    · exact noSingle single
  · rw [if_neg wider]
    have same : after.span = run.span := by
      rcases unrefused.span with same | ⟨below, isWider⟩
      · exact same
      · exact absurd (isWider ▸ (widened_bounds holds.span.1 below).1) wider
    refine ⟨span, within, fresh, ?_, ?_, holds.once⟩
    · rw [same]
      exact holds.log
    · exact iff_of_false (by simp [afterRuns]) noSingle

/-- A run that goes on has had no single block refused. -/
theorem Narrowing.noSingle {watched : SpanRun} (holds : Narrowing config watched)
    (running : watched.run.running = true) : ¬ SingleRefused watched.log := by
  intro single
  rw [holds.ends.mpr single] at running
  cases running

/-- Noting a range asked for, and not refused for its size, keeps what holds. -/
theorem Narrowing.noted {run : ChainRun} {log : List SpanEvent}
    (holds : Narrowing config ⟨run, log⟩) (running : run.running = true) {step : BlockStep}
    {answer : LogsAnswer} (within : step.blocks ≤ run.span)
    (narrower : NotWidenedSince step.first log) (served : answer ≠ .tooLarge) :
    Narrowing config ⟨run, .asked step answer :: log⟩ := by
  have noSingle := holds.noSingle running
  refine ⟨holds.span, holds.within, holds.unrefused, ?_, ?_, once_cons noSingle⟩
  · exact holds.log.asked within narrower le_rfl fun refused => absurd refused served
  · refine iff_of_false (by simp [running]) ?_
    rw [singleRefused_cons]
    rintro (⟨single, isNew, _⟩ | single)
    · exact served (SpanEvent.asked.inj isNew).2
    · exact noSingle single

/-- A range refused for its size, a single block only where the span is down to it, keeps what
holds. -/
theorem Narrowing.refused {run : ChainRun} {log : List SpanEvent}
    (holds : Narrowing config ⟨run, log⟩) (running : run.running = true) {step : BlockStep}
    {rest : List BlockStep} {answers : StepAnswers} (within : step.blocks ≤ run.span)
    (narrower : NotWidenedSince step.first log) (isRefused : answers.logs = .tooLarge)
    (single : step.blocks = 1 → run.span = 1) :
    ¬ run.span < (run.oneStep config step rest answers).span ∧
      Narrowing config ⟨run.oneStep config step rest answers, .asked step .tooLarge :: log⟩ := by
  obtain ⟨isOver, cases⟩ := @oneStep_tooLarge config run step rest answers isRefused
  have noSingle := holds.noSingle running
  have bounds := narrowed_le holds.span.1 within
  have positive := holds.span.1
  have fresh : (run.oneStep config step rest answers).pending ≠ [] →
      (run.oneStep config step rest answers).narrowTo = none := fun more => absurd isOver more
  have nothing : ∀ next ∈ (run.oneStep config step rest answers).pending,
      next.blocks ≤ (run.oneStep config step rest answers).span := by
    rw [isOver]
    exact fun next member => absurd member List.not_mem_nil
  rcases cases with ⟨down, same, ended⟩ | ⟨wider, isNarrowed, runs⟩
  · have isSingle : step.blocks = 1 := by
      have atLeast : 1 ≤ step.blocks := Nat.le_add_left _ _
      exact le_antisymm (within.trans down) atLeast
    refine ⟨by rw [same]; exact lt_irrefl _, ⟨by rw [same]; exact holds.span, nothing, fresh, ?_,
      ?_, once_cons noSingle⟩⟩
    · rw [same]
      exact holds.log.asked within narrower le_rfl fun _ => down.trans (le_max_right _ _)
    · exact iff_of_true ended (singleRefused_cons.mpr (.inl ⟨step, rfl, isSingle⟩))
  · refine ⟨by rw [isNarrowed]; exact not_lt.mpr bounds.2, ⟨?_, nothing, fresh, ?_, ?_,
      once_cons noSingle⟩⟩
    · rw [isNarrowed]
      exact ⟨bounds.1, bounds.2.trans holds.span.2⟩
    · rw [isNarrowed]
      exact holds.log.asked within narrower bounds.2 fun _ => le_rfl
    · refine iff_of_false (by rw [runs, running]; exact Bool.noConfusion) ?_
      rw [singleRefused_cons]
      rintro (⟨other, isNew, isSingle⟩ | before)
      · obtain ⟨rfl, _⟩ := SpanEvent.asked.inj isNew
        rw [single isSingle] at wider
        exact absurd wider (lt_irrefl _)
      · exact noSingle before

/-- Beginning a pass keeps what holds. -/
theorem narrowing_beginPass {run : ChainRun} {log : List SpanEvent}
    (holds : Narrowing config ⟨run, log⟩) (running : run.running = true)
    (idle : run.pending = []) (head : Option Nat) :
    Narrowing config ⟨run.beginPass config head,
      (if run.span < (run.beginPass config head).span then [SpanEvent.widened] else []) ++ log⟩ := by
  cases head with
  | none =>
      rw [ChainRun.beginPass, if_neg (lt_irrefl _)]
      exact holds
  | some head =>
      by_cases asks : (run.cursor.map (· + 1)).getD (head - config.backfill) ≤ head ∧
          ∀ earliest ∈ config.paging.earliest,
            earliest ≤ (run.cursor.map (· + 1)).getD (head - config.backfill)
      · obtain ⟨covers, runs, unrefused, span⟩ :=
          beginPass_covers holds.span.1 asks.1 asks.2
        rw [span, if_neg (lt_irrefl _)]
        refine ⟨?_, ?_, fun _ => unrefused, ?_, ?_, holds.once⟩
        · rw [span]
          exact holds.span
        · rw [span]
          exact covers.within
        · rw [span]
          exact holds.log
        · rw [runs]
          exact holds.ends
      · apply holds.unrefusedAsk (beginPass_of_nothing idle ?_) (by simp) running
        rcases not_and_or.mp asks with beyond | before
        · exact .inl (not_le.mp beyond)
        · exact .inr before

/-- Every ask keeps what holds. -/
theorem narrowing_ask {watched after : SpanRun} {next : ChainRun.Ask}
    (holds : Narrowing config watched) (narrower : AsksNarrower watched next)
    (asked : watched.ask config next = some after) : Narrowing config after := by
  obtain ⟨run, log⟩ := watched
  obtain ⟨afterRun, isAsk, rfl⟩ := Option.map_eq_some_iff.mp asked
  simp only at isAsk ⊢
  unfold ChainRun.ask at isAsk
  split at isAsk
  · rename_i running
    cases next with
    | pass head =>
        cases isPending : run.pending with
        | cons step rest =>
            rw [isPending] at isAsk
            cases isAsk
        | nil =>
            rw [isPending] at isAsk
            obtain rfl := Option.some.inj isAsk
            simp only [requestOf, List.append_nil]
            apply narrowing_beginPass holds running isPending
    | step answers =>
        cases isPending : run.pending with
        | nil =>
            rw [isPending] at isAsk
            cases isAsk
        | cons step rest =>
            rw [isPending] at isAsk
            obtain rfl := Option.some.inj isAsk
            have isHead : step ∈ run.pending.head? := by rw [isPending]; rfl
            obtain ⟨unwidened, single⟩ := narrower step isHead
            have within : step.blocks ≤ run.span :=
              holds.within step (by rw [isPending]; exact List.mem_cons_self)
            have restWithin : ∀ other ∈ rest, other.blocks ≤ run.span := fun other member =>
              holds.within other (by rw [isPending]; exact List.mem_cons_of_mem _ member)
            simp only [requestOf, List.append_assoc, List.singleton_append]
            by_cases isRefused : answers.logs = .tooLarge
            · obtain ⟨notWider, kept⟩ := @Narrowing.refused config run log holds running step rest
                answers within unwidened isRefused (single isRefused)
              rw [if_neg notWider, isRefused]
              exact kept
            · apply (holds.noted running within unwidened isRefused).unrefusedAsk
                (oneStep_of_ne_tooLarge (holds.unrefused ?_) isRefused) restWithin running
              rw [isPending]
              exact List.cons_ne_nil _ _
  · cases isAsk

/-- **A refused range is never asked again unchanged.**  Whatever the heads, refusals, failures and
clean passes of a run, where a range refused for its size is asked again before a pass ends clean,
and a single block is refused only once the span is down to it. -/
theorem neverUnchanged_of_asksNarrower (config : CursorConfig) (declared : 0 < config.paging.maxSpan)
    (asks : List ChainRun.Ask) (final : SpanRun)
    (narrower : Guarded (SpanRun.ask config) AsksNarrower asks (.start config))
    (run : exec (SpanRun.ask config) asks (.start config) = some final) :
    NeverUnchanged config final := by
  have start : Narrowing config (.start config) := by
    refine ⟨⟨le_max_right _ _, max_le le_rfl declared⟩, ?_, fun _ => rfl, SpanLog.nil _, ?_, ?_⟩
    · exact fun step member => absurd member List.not_mem_nil
    · refine iff_of_false Bool.noConfusion ?_
      rintro ⟨step, member, _⟩
      cases member
    · intro later step earlier isLog
      exact absurd isLog (by simp [SpanRun.start])
  have holds : Narrowing config final :=
    invariant_of_guarded (fun _ _ _ holds narrower asked => narrowing_ask holds narrower asked)
      start narrower run
  refine ⟨holds.span, ?_, ?_, holds.ends, holds.once⟩
  · intro head after asked within reach
    unfold ChainRun.ask at asked
    split at asked
    · cases isPending : final.run.pending with
      | nil =>
          rw [isPending] at asked
          obtain rfl := Option.some.inj asked
          exact (beginPass_covers holds.span.1 within reach).1
      | cons step rest =>
          rw [isPending] at asked
          cases asked
    · cases asked
  · intro later next answer between refused earlier isLog sameHeight notAsked _
    exact holds.log.halves later next answer between refused earlier isLog sameHeight notAsked

/-- A run whose passes never ended clean has not widened its span. -/
theorem notWidenedSince_of_not_mem {height : Nat} {log : List SpanEvent}
    (never : .widened ∉ log) : NotWidenedSince height log := by
  intro between refused earlier isLog _ _ member
  apply never
  rw [isLog]
  exact List.mem_append_left _ member

/-- A range of ten refused for its size is asked for in fives. -/
theorem neverUnchanged_of_asksNarrower_halved :
    ∃ final, exec (SpanRun.ask tenBlocks) [.pass (some 100), unheaded .tooLarge, .pass (some 100),
        unheaded (.served true)] (.start tenBlocks) = some final ∧
      NeverUnchanged tenBlocks final := by
  refine ⟨_, rfl, neverUnchanged_of_asksNarrower tenBlocks (by decide) [.pass (some 100),
    unheaded .tooLarge, .pass (some 100), unheaded (.served true)] _ ?_ rfl⟩
  refine ⟨trivial, fun first isFirst => ⟨?_, fun second isSecond => ⟨trivial, fun third isThird =>
    ⟨?_, fun _ _ => trivial⟩⟩⟩⟩
  · obtain rfl := Option.some.inj isFirst
    intro step isHead
    obtain rfl := Option.some.inj isHead
    exact ⟨notWidenedSince_of_not_mem List.not_mem_nil, fun _ single => absurd single (by decide)⟩
  · obtain rfl := Option.some.inj isFirst
    obtain rfl := Option.some.inj isSecond
    obtain rfl := Option.some.inj isThird
    intro step isHead
    obtain rfl := Option.some.inj isHead
    exact ⟨notWidenedSince_of_not_mem (by decide +kernel), fun isRefused => by cases isRefused⟩

/-- **A head that goes back restores the span.**  A range of ten is refused for its size, the next
head is behind the cursor, so its pass ends clean, and the same ten blocks are asked for again. -/
theorem refused_range_asked_unchanged :
    ∃ final, exec (SpanRun.ask tenBlocks) [.pass (some 10), unheaded (.served true),
        unheaded (.served true), .pass (some 20), unheaded .tooLarge, .pass (some 9),
        .pass (some 20), unheaded .tooLarge] (.start tenBlocks) = some final ∧
      ¬ NeverUnchanged tenBlocks final := by
  refine ⟨_, rfl, ?_⟩
  intro never
  have halved := never.halves [] ⟨11, 20⟩ .tooLarge [.widened] ⟨11, 20⟩ _ rfl rfl
    (fun step answer member => by simp at member) (by decide)
  exact absurd halved (by decide)

/-- **A single block is asked for again.**  The block at the head is refused for its size while the
span is ten, and is asked for again on its own. -/
theorem refused_block_asked_again :
    ∃ final, exec (SpanRun.ask tenBlocks) [.pass (some 10), unheaded (.served true),
        unheaded (.served true), .pass (some 11), unheaded .tooLarge, .pass (some 11),
        unheaded .tooLarge] (.start tenBlocks) = some final ∧
      ¬ NeverUnchanged tenBlocks final := by
  refine ⟨_, rfl, ?_⟩
  intro never
  exact never.once [.asked ⟨11, 11⟩ .tooLarge] ⟨11, 11⟩ _ rfl rfl ⟨11, 11⟩ .tooLarge
    List.mem_cons_self

end Chain
end Datawatch
