import Mathlib.Data.List.MinMax
import Datawatch.Chain.NeverSkips

/-!
# What stands after a reorganisation

A reorganisation contradicts the rows of its blocks that were recorded before it.  The cursor goes
back and archives those blocks again, so of every block it has passed some archived range stands.
-/

namespace Datawatch
namespace Chain

open Library Library.Transition

/-- A reorganisation, as much of one as the join needs, and when it was recorded. -/
structure Reorganised where
  fromBlock : Nat
  toBlock : Nat
  streamSeq : Nat
deriving DecidableEq

/-- Whether a reorganisation contradicts a row: one of its blocks, recorded before it. -/
def Reorganised.contradicts (reorg : Reorganised) (block streamSeq : Nat) : Bool :=
  decide (reorg.fromBlock ≤ block ∧ block ≤ reorg.toBlock) && decide (streamSeq < reorg.streamSeq)

/-- One row, as much of one as the join needs. -/
structure Row where
  block : Nat
  streamSeq : Nat
deriving DecidableEq

/-- What became of one row. -/
inductive Standing
  | uncontradicted
  | superseded (reorg : Reorganised)
deriving DecidableEq

/-- Where one row stands against every known reorganisation: the latest wins where several apply,
and of two recorded at once the last. -/
def standing (reorgs : List Reorganised) (row : Row) : Standing :=
  match (reorgs.filter fun reorg => reorg.contradicts row.block row.streamSeq).reverse.argmax
      Reorganised.streamSeq with
  | some reorg => .superseded reorg
  | none => .uncontradicted

theorem contradicts_eq_true_iff {reorg : Reorganised} {block streamSeq : Nat} :
    reorg.contradicts block streamSeq = true ↔
      (reorg.fromBlock ≤ block ∧ block ≤ reorg.toBlock) ∧ streamSeq < reorg.streamSeq := by
  unfold Reorganised.contradicts
  rw [Bool.and_eq_true, decide_eq_true_iff, decide_eq_true_iff]

/-- A row stands exactly where no known reorganisation contradicts it. -/
theorem standing_eq_uncontradicted_iff {reorgs : List Reorganised} {row : Row} :
    standing reorgs row = .uncontradicted ↔
      ∀ reorg ∈ reorgs, reorg.contradicts row.block row.streamSeq = false := by
  unfold standing
  cases isLatest : (reorgs.filter fun reorg =>
      reorg.contradicts row.block row.streamSeq).reverse.argmax Reorganised.streamSeq with
  | none =>
      have isNil := List.reverse_eq_nil_iff.mp (List.argmax_eq_none.mp isLatest)
      refine ⟨fun _ reorg isKnown => ?_, fun _ => rfl⟩
      exact Bool.eq_false_iff.mpr (List.filter_eq_nil_iff.mp isNil reorg isKnown)
  | some latest =>
      refine ⟨fun isStanding => (by cases isStanding), fun stands => ?_⟩
      have member := List.mem_reverse.mp (List.argmax_mem isLatest)
      obtain ⟨isKnown, contradicted⟩ := List.mem_filter.mp member
      rw [stands latest isKnown] at contradicted
      cases contradicted

/-- A row is superseded by one of the known reorganisations that contradict it, and by none that was
recorded before another of them. -/
theorem standing_eq_superseded {reorgs : List Reorganised} {row : Row} {latest : Reorganised}
    (superseded : standing reorgs row = .superseded latest) :
    latest ∈ reorgs ∧ latest.contradicts row.block row.streamSeq = true ∧
      ∀ reorg ∈ reorgs, reorg.contradicts row.block row.streamSeq = true →
        reorg.streamSeq ≤ latest.streamSeq := by
  unfold standing at superseded
  cases isLatest : (reorgs.filter fun reorg =>
      reorg.contradicts row.block row.streamSeq).reverse.argmax Reorganised.streamSeq with
  | none =>
      rw [isLatest] at superseded
      cases superseded
  | some found =>
      rw [isLatest] at superseded
      obtain rfl := Standing.superseded.inj superseded
      obtain ⟨isKnown, contradicted⟩ :=
        List.mem_filter.mp (List.mem_reverse.mp (List.argmax_mem isLatest))
      refine ⟨isKnown, contradicted, fun reorg isReorg contradicts => ?_⟩
      exact List.le_of_mem_argmax
        (List.mem_reverse.mpr (List.mem_filter.mpr ⟨isReorg, contradicts⟩)) isLatest

/-- The rows a run records, one for each transfer of a range it archived, under the numbers its
stream gave what happened.  Which blocks the transfers of a range are of is the chain's to say. -/
def rowsOf (transfers : Nat → List Nat) (number : Nat → Nat) (history : List ChainEvent) :
    List Row :=
  history.zipIdx.flatMap fun (event, index) =>
    match event with
    | .archived _ => (transfers index).map fun block => ⟨block, number index⟩
    | .planned _ | .failed _ | .reorganised _ => []

/-- The reorganisations a run records. -/
def reorgsOf (number : Nat → Nat) (history : List ChainEvent) : List Reorganised :=
  history.zipIdx.filterMap fun (event, index) =>
    match event with
    | .reorganised reorg => some ⟨reorg.fromBlock, reorg.toBlock, number index⟩
    | .planned _ | .failed _ | .archived _ => none

theorem mem_rowsOf {transfers : Nat → List Nat} {number : Nat → Nat} {history : List ChainEvent}
    {row : Row} :
    row ∈ rowsOf transfers number history ↔ ∃ (index : Nat) (step : BlockStep),
      history[index]? = some (.archived step) ∧ row.block ∈ transfers index ∧
        row.streamSeq = number index := by
  unfold rowsOf
  rw [List.mem_flatMap]
  constructor
  · rintro ⟨⟨event, index⟩, isEvent, isRow⟩
    cases event with
    | archived step =>
        obtain ⟨block, isBlock, rfl⟩ := List.mem_map.mp isRow
        exact ⟨index, step, List.mem_zipIdx_iff_getElem?.mp isEvent, isBlock, rfl⟩
    | planned | failed | reorganised => cases isRow
  · rintro ⟨index, step, isEvent, isBlock, isNumber⟩
    refine ⟨(.archived step, index), List.mem_zipIdx_iff_getElem?.mpr isEvent, ?_⟩
    exact List.mem_map.mpr ⟨row.block, isBlock, by rw [← isNumber]⟩

theorem mem_reorgsOf {number : Nat → Nat} {history : List ChainEvent} {known : Reorganised} :
    known ∈ reorgsOf number history ↔ ∃ (index : Nat) (reorg : Reorg),
      history[index]? = some (.reorganised reorg) ∧
        known = ⟨reorg.fromBlock, reorg.toBlock, number index⟩ := by
  unfold reorgsOf
  rw [List.mem_filterMap]
  constructor
  · rintro ⟨⟨event, index⟩, isEvent, isKnown⟩
    cases event with
    | reorganised reorg =>
        exact ⟨index, reorg, List.mem_zipIdx_iff_getElem?.mp isEvent,
          (Option.some.inj isKnown).symm⟩
    | planned first => cases isKnown
    | failed step => cases isKnown
    | archived step => cases isKnown
  · rintro ⟨index, reorg, isEvent, rfl⟩
    exact ⟨(.reorganised reorg, index), List.mem_zipIdx_iff_getElem?.mpr isEvent, rfl⟩

variable {config : CursorConfig} {genesis : Text} {run after : ChainRun}

/-- The end of a pass reads nothing of the history. -/
theorem endPass_history (run : ChainRun) (old : List ChainEvent) :
    ({ run with history := old } : ChainRun).endPass config =
      { run.endPass config with history := old } := by
  unfold ChainRun.endPass
  cases run.narrowTo with
  | some narrower =>
      simp only
      split
      · rfl
      · rfl
  | none =>
      simp only
      split
      · rfl
      · rfl

/-- What an ask adds to a run's history, whatever is there: it depends on none of it, and a cursor
that is still to start has met no reorganisation. -/
def Adds (run after : ChainRun) (ask : ChainRun → Option ChainRun) : Prop :=
  ∃ new, after.history = run.history ++ new ∧
    (∀ old, ask { run with history := old } = some { after with history := old ++ new }) ∧
      (after.cursor = none → run.cursor = none ∧ ∀ reorg, .reorganised reorg ∉ new)

theorem adds_beginPass (run : ChainRun) (head : Option Nat) :
    Adds run (run.beginPass config head) fun run => some (run.beginPass config head) := by
  cases head with
  | none =>
      refine ⟨[], (List.append_nil _).symm, fun old => ?_, fun isCold => ⟨isCold, by simp⟩⟩
      rw [List.append_nil]
      rfl
  | some head =>
      unfold Adds ChainRun.beginPass
      simp only
      split
      · have frame := @endPass_frame config { run with failed := 0, narrowTo := none }
        refine ⟨[], ?_, fun old => ?_, fun isCold => ⟨frame.1.symm.trans isCold, by simp⟩⟩
        · rw [frame.2.2.1, List.append_nil]
        · rw [List.append_nil, ← endPass_history]
      · split
        · refine ⟨[], (List.append_nil _).symm, fun old => ?_, fun isCold => ⟨isCold, by simp⟩⟩
          rw [List.append_nil]
        · rename_i steps _
          let planned : ChainEvent :=
            .planned ((run.cursor.map (· + 1)).getD (head - config.backfill))
          refine ⟨[planned], ?_, fun old => ?_, fun isCold => ⟨?_, by simp [planned]⟩⟩
          · split
            · rw [endPass_frame.2.2.1]
              rfl
            · rfl
          · split
            · rw [← endPass_history]
              rfl
            · rfl
          · split at isCold
            · rw [endPass_frame.1] at isCold
              exact isCold
            · exact isCold

theorem adds_oneStep (run : ChainRun) (step : BlockStep) (rest : List BlockStep)
    (answers : StepAnswers) :
    Adds run (run.oneStep config step rest answers) fun run =>
      some (run.oneStep config step rest answers) := by
  unfold Adds ChainRun.oneStep
  cases answers.logs with
  | tooLarge =>
      simp only
      refine ⟨[.failed step], ?_, fun old => ?_, fun isCold => ⟨?_, by simp⟩⟩
      · rw [endPass_frame.2.2.1]
        rfl
      · rw [← endPass_history]
        rfl
      · rw [endPass_frame.1] at isCold
        exact isCold
  | refused =>
      simp only
      refine ⟨[.failed step], ?_, fun old => ?_, fun isCold => ⟨?_, by simp⟩⟩
      · rw [endPass_frame.2.2.1]
        rfl
      · rw [← endPass_history]
        rfl
      · rw [endPass_frame.1] at isCold
        exact isCold
  | served archives =>
      cases archives with
      | false => exact ⟨[.failed step], rfl, fun _ => rfl, fun isCold => ⟨isCold, by simp⟩⟩
      | true =>
          simp only [ChainRun.note]
          cases takeHeaders answers.header step.heights run.trail with
          | mk reorg trail =>
              cases reorg with
              | some reorg =>
                  refine ⟨[.archived step, .reorganised
                    { reorg with
                      fromBlock := forkPoint answers.search reorg.fromBlock
                        (trail.heldBelow reorg.fromBlock) }], ?_, fun old => ?_, fun isCold => ?_⟩
                  · simp only [endPass_frame.2.2.1, List.append_assoc]
                    rfl
                  · simp only [← endPass_history, List.append_assoc]
                    rfl
                  · simp only [endPass_frame.1] at isCold
                    cases isCold
              | none =>
                  refine ⟨[.archived step], ?_, fun old => ?_, fun isCold => ?_⟩
                  · simp only
                    split
                    · split
                      · rw [endPass_frame.2.2.1]
                      · rfl
                    · rfl
                  · simp only
                    split
                    · split
                      · rw [← endPass_history]
                      · rfl
                    · rfl
                  · simp only at isCold
                    split at isCold
                    · split at isCold
                      · rw [endPass_frame.1] at isCold
                        cases isCold
                      · cases isCold
                    · cases isCold

/-- An ask adds to the history, and depends on none of it. -/
theorem adds_ask {next : ChainRun.Ask} (asked : run.ask config next = some after) :
    Adds run after fun run => run.ask config next := by
  unfold ChainRun.ask at asked ⊢
  split at asked
  · rename_i running
    cases next with
    | pass head =>
        cases isPending : run.pending with
        | nil =>
            rw [isPending] at asked
            obtain rfl := Option.some.inj asked
            obtain ⟨new, isHistory, same, cold⟩ := @adds_beginPass config run head
            refine ⟨new, isHistory, fun old => ?_, cold⟩
            rw [← same old]
            simp only [running, isPending, if_true]
        | cons step rest =>
            rw [isPending] at asked
            cases asked
    | step answers =>
        cases isPending : run.pending with
        | nil =>
            rw [isPending] at asked
            cases asked
        | cons step rest =>
            rw [isPending] at asked
            obtain rfl := Option.some.inj asked
            obtain ⟨new, isHistory, same, cold⟩ :=
              @adds_oneStep config run step rest answers
            refine ⟨new, isHistory, fun old => ?_, cold⟩
            rw [← same old]
            simp only [running, isPending, if_true]
  · cases asked

/-- **What holds of a run, whatever it planned before it archived anything.**  Some of its history,
and no reorganisation, left out, a run of the same state keeps what it left to fetch. -/
structure Replaces (genesis : Text) (run : ChainRun) : Prop where
  keeps : ∃ old recent new, run.history = old ++ new ∧ (∀ reorg, .reorganised reorg ∉ old) ∧
    Keeps genesis { run with history := recent ++ new } ∧
      Continues { run with history := recent ++ new }
  cold : run.cursor = none → ∀ reorg, .reorganised reorg ∉ run.history

theorem replaces_start : Replaces genesis (ChainRun.start config) := by
  refine ⟨⟨[], [], [], rfl, by simp, ⟨?_, ?_, ?_⟩, continues_of_nil rfl⟩, ?_⟩
  · intro front event back isEmpty
    simp at isEmpty
  · intro _ event member
    cases member
  · intro hash member
    cases member
  · intro _ reorg member
    cases member

/-- A run that is still to start keeps what it left to fetch from the range it takes next. -/
theorem keeps_cold (isCold : run.cursor = none) {step : BlockStep} {rest : List BlockStep}
    (isPending : run.pending = step :: rest) {history : List ChainEvent}
    (keeps : Keeps genesis { run with history := history })
    (continues : Continues { run with history := history }) :
    Keeps genesis { run with history := [.planned step.first] } ∧
      Continues { run with history := [.planned step.first] } := by
  have isHead {head : BlockStep} (isHead : head ∈ run.pending.head?) : head = step := by
    rw [isPending] at isHead
    exact (Option.some.inj isHead).symm
  refine ⟨⟨?_, ?_, keeps.genesis⟩, ⟨continues.abuts, continues.warm, ?_⟩⟩
  · rintro front event back _ first _ height _ ⟨last, isLast, _⟩
    rw [isCold] at isLast
    cases isLast
  · intro _ event member first leaves
    rw [List.mem_singleton.mp member] at leaves
    obtain rfl := Option.some.inj leaves
    exact ⟨step.first, List.mem_singleton_self _, le_rfl⟩
  · intro head member _
    rw [isHead member]
    exact List.mem_singleton_self _

/-- Every ask keeps it. -/
theorem replaces_ask {next : ChainRun.Ask} (replaces : Replaces genesis run)
    (keepsGenesis : StepKeepsGenesis genesis run next) (asked : run.ask config next = some after) :
    Replaces genesis after := by
  obtain ⟨⟨old, recent, new, isHistory, noReorg, keeps, continues⟩, cold⟩ := replaces
  obtain ⟨added, isAfter, same, staysCold⟩ := adds_ask asked
  have further (base front : List ChainEvent) (isBase : run.history = base ++ front)
      (none : ∀ reorg, .reorganised reorg ∉ base) (recent : List ChainEvent)
      (holds : Keeps genesis { run with history := recent ++ front } ∧
        Continues { run with history := recent ++ front })
      (lowest : StartsLowest { run with history := recent ++ front } next) :
      Replaces genesis after := by
    refine ⟨⟨base, recent, front ++ added, ?_, none, ?_⟩, ?_⟩
    · rw [isAfter, isBase, List.append_assoc]
    · rw [← List.append_assoc]
      refine keeps_ask holds ?_ lowest (same _)
      cases next with
      | pass head => trivial
      | step answers => exact keepsGenesis
    · intro isCold reorg member
      obtain ⟨wasCold, noneAdded⟩ := staysCold isCold
      rw [isAfter] at member
      rcases List.mem_append.mp member with before | isNew
      · exact cold wasCold reorg before
      · exact noneAdded reorg isNew
  cases next with
  | pass head => exact further old new isHistory noReorg recent ⟨keeps, continues⟩ trivial
  | step answers =>
      cases isCursor : run.cursor with
      | some last =>
          refine further old new isHistory noReorg recent ⟨keeps, continues⟩ fun isCold => ?_
          rw [isCursor] at isCold
          cases isCold
      | none =>
          cases isPending : run.pending with
          | nil =>
              unfold ChainRun.ask at asked
              rw [isPending] at asked
              split at asked
              · cases asked
              · cases asked
          | cons step rest =>
              refine further run.history [] (List.append_nil _).symm (cold isCursor)
                [.planned step.first] (keeps_cold isCursor isPending keeps continues) ?_
              intro _ _ head isHead event member first isStart
              rw [show ({ run with history := [.planned step.first] } : ChainRun).pending =
                step :: rest from isPending] at isHead
              rw [List.mem_singleton.mp member] at isStart
              obtain rfl := Option.some.inj isHead
              exact (Option.some.inj isStart).le

/-- What a reorganisation replaced is archived after it, as far as the cursor has passed it. -/
theorem Replaces.refetched (replaces : Replaces genesis run) {front back : List ChainEvent}
    {reorg : Reorg} (isHistory : run.history = front ++ .reorganised reorg :: back) {height : Nat}
    (above : reorg.fromBlock ≤ height) (passed : Passed run.cursor height) :
    Archived back height := by
  obtain ⟨old, recent, new, isSplit, none, keeps, _⟩ := replaces.keeps
  rw [isSplit, List.append_eq_append_iff] at isHistory
  rcases isHistory with ⟨middle, _, isNew⟩ | ⟨middle, isOld, isBack⟩
  · exact keeps.fetched (recent ++ middle) _ back
      (by rw [isNew, List.append_assoc]) _ rfl height above passed
  · cases middle with
    | nil => exact keeps.fetched recent _ back (by rw [isBack]; rfl) _ rfl height above passed
    | cons event middle =>
        obtain rfl := (List.cons.inj isBack).1
        refine absurd ?_ (none reorg)
        rw [isOld]
        exact List.mem_append_right _ List.mem_cons_self

/-- The last of a list's entries that satisfy a predicate, where any does. -/
theorem exists_last_of_exists {Entry : Type u} {entries : List Entry} {satisfies : Entry → Prop}
    (any : ∃ entry ∈ entries, satisfies entry) :
    ∃ front entry back, entries = front ++ entry :: back ∧ satisfies entry ∧
      ∀ later ∈ back, ¬ satisfies later := by
  induction entries with
  | nil =>
      obtain ⟨_, member, _⟩ := any
      cases member
  | cons first rest inductionHypothesis =>
      by_cases further : ∃ entry ∈ rest, satisfies entry
      · obtain ⟨front, entry, back, isRest, holds, isLast⟩ := inductionHypothesis further
        exact ⟨first :: front, entry, back, by rw [isRest]; rfl, holds, isLast⟩
      · obtain ⟨entry, member, holds⟩ := any
        rcases List.mem_cons.mp member with rfl | isRest
        · exact ⟨[], entry, rest, rfl, holds, fun later isLater satisfied =>
            further ⟨later, isLater, satisfied⟩⟩
        · exact absurd ⟨entry, isRest, holds⟩ further

/-- The rows of a block that no reorganisation of it follows stand. -/
theorem stands_from {transfers : Nat → List Nat} {number : Nat → Nat} {history : List ChainEvent}
    {known : List Reorganised} (recorded : known ⊆ reorgsOf number history)
    (increasing : StrictMono number) {block from_ : Nat}
    (noneAfter : ∀ later reorg, history[later]? = some (.reorganised reorg) →
      reorg.fromBlock ≤ block → later < from_) :
    ∀ row ∈ rowsOf transfers number history, row.block = block → number from_ ≤ row.streamSeq →
      standing known row = .uncontradicted := by
  rintro row isRow rfl isLater
  obtain ⟨index, _, _, _, isNumber⟩ := mem_rowsOf.mp isRow
  rw [standing_eq_uncontradicted_iff]
  intro reorg isKnown
  obtain ⟨later, found, isEvent, rfl⟩ := mem_reorgsOf.mp (recorded isKnown)
  rw [Bool.eq_false_iff]
  intro contradicts
  obtain ⟨⟨above, _⟩, before⟩ := contradicts_eq_true_iff.mp contradicts
  have earlier := increasing (noneAfter later found isEvent above)
  exact absurd before (not_lt.mpr (earlier.le.trans isLater))

/-- **Of every block passed, some archived range stands.**  Whatever heads, refusals, header
failures and reorganisations a run meets, whatever transfers its ranges hold, and whichever of its
reorganisations a reader knows of, a range archived of a block that the cursor has passed is, or is
followed by, one of that block from which on all the block's rows stand. -/
theorem passed_rows_stand (config : CursorConfig) (genesis : Text) (asks : List ChainRun.Ask)
    (final : ChainRun)
    (keepsGenesis : Guarded (ChainRun.ask config) (StepKeepsGenesis genesis) asks (.start config))
    (run : exec (ChainRun.ask config) asks (.start config) = some final)
    (transfers : Nat → List Nat) {number : Nat → Nat} (increasing : StrictMono number)
    {known : List Reorganised} (recorded : known ⊆ reorgsOf number final.history) {index : Nat}
    {step : BlockStep} (isArchived : final.history[index]? = some (.archived step)) {block : Nat}
    (above : step.first ≤ block) (below : block ≤ step.last)
    (passed : Passed final.cursor block) :
    ∃ later again, index ≤ later ∧ final.history[later]? = some (.archived again) ∧
      again.first ≤ block ∧ block ≤ again.last ∧
        ∀ row ∈ rowsOf transfers number final.history, row.block = block →
          number later ≤ row.streamSeq → standing known row = .uncontradicted := by
  have replaces : Replaces genesis final :=
    invariant_of_guarded (fun _ _ _ replaces keepsGenesis asked =>
      replaces_ask replaces keepsGenesis asked) replaces_start keepsGenesis run
  let replacesBlock (event : ChainEvent) : Prop :=
    ∃ reorg, event = .reorganised reorg ∧ reorg.fromBlock ≤ block
  by_cases any : ∃ event ∈ final.history, replacesBlock event
  · obtain ⟨front, event, back, isHistory, ⟨reorg, rfl, from_le⟩, isLast⟩ :=
      exists_last_of_exists any
    -- What comes after the last reorganisation of the block stands.
    have afterLast {later : Nat} (isAfter : front.length < later) (other : Nat) (found : Reorg)
        (isFound : final.history[other]? = some (.reorganised found))
        (covers : found.fromBlock ≤ block) : other < later := by
      by_contra notBefore
      rw [isHistory, List.getElem?_append_right (by omega)] at isFound
      obtain ⟨offset, isOffset⟩ : ∃ offset, other - front.length = offset + 1 :=
        ⟨other - front.length - 1, by omega⟩
      rw [isOffset, List.getElem?_cons_succ] at isFound
      exact isLast _ (List.mem_of_getElem? isFound) ⟨found, rfl, covers⟩
    rcases lt_or_ge front.length index with isAfter | notAfter
    · exact ⟨index, step, le_rfl, isArchived, above, below,
        stands_from recorded increasing (afterLast isAfter)⟩
    · obtain ⟨again, isAgain, againAbove, againBelow⟩ :=
        replaces.refetched isHistory from_le passed
      obtain ⟨offset, isOffset⟩ := List.mem_iff_getElem?.mp isAgain
      refine ⟨front.length + (offset + 1), again, by omega, ?_, againAbove, againBelow,
        stands_from recorded increasing (afterLast (by omega))⟩
      rw [isHistory, List.getElem?_append_right (by omega), Nat.add_sub_cancel_left,
        List.getElem?_cons_succ, isOffset]
  · refine ⟨index, step, le_rfl, isArchived, above, below, stands_from recorded increasing ?_⟩
    intro later reorg isFound covers
    exact absurd ⟨_, List.mem_of_getElem? isFound, reorg, rfl, covers⟩ any

/-- A header of every block from the ninetieth, of a chain that names its hashes alike. -/
def named (hash : Text) (height : Nat) : Option (Text × Text) :=
  if 90 ≤ height then some (hash, hash) else none

/-- The chain of one hash is replaced by that of another from the ninety-first block on. -/
def forkedAsks : List ChainRun.Ask :=
  [.pass (some 100),
    .step ⟨.served true, named ['a'], fun _ => some ['a'], true⟩,
    .step ⟨.served true, named ['b'], fun height => (named ['a'] height).map Prod.fst, true⟩,
    .pass (some 100),
    .step ⟨.served true, fun _ => none, fun _ => none, true⟩]

/-- The run that meets it. -/
def forked : ChainRun :=
  (exec (ChainRun.ask tenBlocks) forkedAsks (.start tenBlocks)).getD (.start tenBlocks)

/-- The old chain's row of the ninety-fifth block is superseded, and a range that stands follows. -/
theorem passed_rows_stand_forked :
    standing (reorgsOf id forked.history) ⟨95, 1⟩ = .superseded ⟨91, 99, 3⟩ ∧
      ∃ later again, 1 ≤ later ∧ forked.history[later]? = some (.archived again) ∧
        again.first ≤ 95 ∧ 95 ≤ again.last ∧
          ∀ row ∈ rowsOf (fun _ => [95, 97]) id forked.history, row.block = 95 →
            later ≤ row.streamSeq →
              standing (reorgsOf id forked.history) row = .uncontradicted := by
  have ran : exec (ChainRun.ask tenBlocks) forkedAsks (.start tenBlocks) = some forked := rfl
  have quiet (answers : StepAnswers) (zero : answers.header 0 = none)
      (one : answers.header 1 = none) (search : ∀ hash ∈ answers.search 0, hash = ['a']) :
      KeepsGenesis ['a'] answers := by
    refine ⟨?_, ?_, ?_⟩
    · intro header isHeader
      rw [zero] at isHeader
      cases isHeader
    · intro header isHeader
      rw [one] at isHeader
      cases isHeader
    · intro hash isHash
      rw [search hash isHash]
      rfl
  have keeps : Guarded (ChainRun.ask tenBlocks) (StepKeepsGenesis ['a']) forkedAsks
      (.start tenBlocks) := by
    refine ⟨trivial, fun _ _ => ⟨quiet _ rfl rfl ?_, fun _ _ => ⟨quiet _ rfl rfl ?_, fun _ _ =>
      ⟨trivial, fun _ _ => ⟨quiet _ rfl rfl ?_, fun _ _ => trivial⟩⟩⟩⟩⟩
    · rintro hash isHash
      exact (Option.some.inj isHash).symm
    · rintro hash isHash
      cases isHash
    · rintro hash isHash
      cases isHash
  have isArchived : forked.history[1]? = some (.archived ⟨90, 99⟩) := by
    decide +kernel
  exact ⟨by decide +kernel, passed_rows_stand tenBlocks ['a'] forkedAsks forked keeps ran
    (fun _ => [95, 97]) strictMono_id (List.Subset.refl _) isArchived (by decide) (by decide)
    ⟨100, rfl, by decide⟩⟩

end Chain
end Datawatch
