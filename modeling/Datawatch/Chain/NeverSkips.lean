import Datawatch.Chain.Cursor

/-!
# The cursor never skips a height

Whatever the cursor has passed was archived since it was planned, since it failed and since it was
replaced, where the first range a run archives starts no higher than any it planned before.
-/

namespace Datawatch
namespace Chain

open Library Library.Transition

/-- A height was fetched and archived. -/
def Archived (events : List ChainEvent) (height : Nat) : Prop :=
  ∃ step, .archived step ∈ events ∧ step.first ≤ height ∧ height ≤ step.last

theorem Archived.mono {events more : List ChainEvent} {height : Nat}
    (archived : Archived events height) (within : events ⊆ more) : Archived more height := by
  obtain ⟨step, member, above, below⟩ := archived
  exact ⟨step, within member, above, below⟩

/-- The cursor has passed a height. -/
def Passed (cursor : Option Nat) (height : Nat) : Prop := ∃ last ∈ cursor, height ≤ last

/-- The height a plan starts at. -/
def ChainEvent.starts : ChainEvent → Option Nat
  | .planned first => some first
  | .archived _ | .failed _ | .reorganised _ => none

/-- The first height a run ever planned. -/
def firstPlanned (events : List ChainEvent) : Option Nat := events.findSome? ChainEvent.starts

/-- **No height is skipped.**  Every height from the first ever planned up to the cursor is
archived, what failed is archived after it failed before the cursor passes it, and so is what was
replaced. -/
structure NeverSkips (run : ChainRun) : Prop where
  archived : ∀ first, firstPlanned run.history = some first →
    ∀ height, first ≤ height → Passed run.cursor height → Archived run.history height
  failed : ∀ front step back, run.history = front ++ .failed step :: back →
    ∀ height, step.first ≤ height → Passed run.cursor height → Archived back height
  refetched : ∀ front reorg back, run.history = front ++ .reorganised reorg :: back →
    ∀ height, reorg.fromBlock ≤ height → Passed run.cursor height → Archived back height

/-- The height from which an event leaves every block to be fetched. -/
def ChainEvent.leaves : ChainEvent → Option Nat
  | .planned first => some first
  | .failed step => some step.first
  | .reorganised reorg => some reorg.fromBlock
  | .archived _ => none

/-- What an event left to be fetched is archived since, as far as the cursor has passed it. -/
def Fetched (events : List ChainEvent) (cursor : Option Nat) : Prop :=
  ∀ front event back, events = front ++ event :: back → ∀ first, event.leaves = some first →
    ∀ height, first ≤ height → Passed cursor height → Archived back height

/-- One more event keeps what is fetched, where it archives what the cursor passes with it and the
cursor has not passed what it leaves. -/
theorem Fetched.concat {events : List ChainEvent} {cursor next : Option Nat}
    (fetched : Fetched events cursor) {event : ChainEvent}
    (passes : ∀ height, Passed next height → Passed cursor height ∨ Archived [event] height ∨
      ∀ earlier ∈ events, ∀ first, earlier.leaves = some first → height < first)
    (notPassed : ∀ first, event.leaves = some first → ∀ height, first ≤ height →
      ¬ Passed next height) :
    Fetched (events ++ [event]) next := by
  intro front earlier back isEvents first leaves height above passed
  rcases List.eq_nil_or_concat back with rfl | ⟨before, last, rfl⟩
  · obtain ⟨_, same⟩ := List.append_inj' isEvents rfl
    obtain rfl := (List.cons.inj same).1
    exact absurd passed (notPassed first leaves height above)
  · rw [List.concat_eq_append, ← List.cons_append, ← List.append_assoc] at isEvents
    obtain ⟨rfl, same⟩ := List.append_inj' isEvents rfl
    obtain rfl := (List.cons.inj same).1
    rw [List.concat_eq_append]
    rcases passes height passed with already | now | below
    · exact (fetched front earlier before rfl first leaves height above already).mono
        (List.subset_append_left _ _)
    · exact now.mono (List.subset_append_right _ _)
    · have := below earlier (by simp) first leaves
      omega

theorem ChainEvent.eq_planned {event : ChainEvent} {first : Nat}
    (isStart : event.starts = some first) : event = .planned first := by
  cases event with
  | planned height => rw [Option.some.inj isStart]
  | archived step => cases isStart
  | failed step => cases isStart
  | reorganised reorg => cases isStart

/-- Where everything left to fetch is fetched, nothing is skipped. -/
theorem Fetched.neverSkips {run : ChainRun} (fetched : Fetched run.history run.cursor) :
    NeverSkips run := by
  refine ⟨?_, ?_, ?_⟩
  · intro first isFirst height above passed
    obtain ⟨event, member, isStart⟩ := List.exists_of_findSome?_eq_some isFirst
    rw [ChainEvent.eq_planned isStart] at member
    obtain ⟨front, back, isHistory⟩ := List.append_of_mem member
    apply (fetched front _ back isHistory first rfl height above passed).mono
    rw [isHistory]
    exact fun _ member => List.mem_append_right _ (List.mem_cons_of_mem _ member)
  · exact fun front step back isHistory => fetched front _ back isHistory _ rfl
  · exact fun front reorg back isHistory => fetched front _ back isHistory _ rfl

/-- Steps that abut from a height on. -/
def Abuts : Nat → List BlockStep → Prop
  | _, [] => True
  | first, step :: rest => step.first = first ∧ step.first ≤ step.last ∧ Abuts (step.last + 1) rest

theorem abuts_planSteps {maxSpan last fuel first : Nat} (within : first ≤ last) :
    Abuts first (planSteps maxSpan last fuel first) := by
  induction fuel generalizing first with
  | zero => trivial
  | succ fuel inductionHypothesis =>
      rw [planSteps]
      refine ⟨rfl, ?_, ?_⟩
      · exact le_min (Nat.le_add_right _ _) within
      · split
        · trivial
        · rename_i more
          exact inductionHypothesis (Nat.succ_le_of_lt (not_le.mp more))

theorem abuts_of_plan {paging : BlockPaging} {first last : Nat} {steps : List BlockStep}
    (isPlan : paging.plan first last = some steps) (within : first ≤ last) :
    Abuts first steps := by
  unfold BlockPaging.plan at isPlan
  split at isPlan
  · cases isPlan
  · split at isPlan
    · obtain rfl := Option.some.inj isPlan
      trivial
    · obtain rfl := Option.some.inj isPlan
      exact abuts_planSteps within

/-- A fork is looked for at and below where it is proved. -/
theorem forkPoint_le {search : Nat → Option Text} {held : List (Nat × Text)} {lowest changed : Nat}
    (notAbove : lowest ≤ changed) (below : ∀ pair ∈ held, pair.1 < changed) :
    forkPoint search lowest held ≤ changed := by
  induction held generalizing lowest with
  | nil => exact notAbove
  | cons pair rest inductionHypothesis =>
      have isBelow := below pair List.mem_cons_self
      rw [forkPoint]
      split
      · exact notAbove
      · split
        · exact isBelow
        · exact inductionHypothesis isBelow.le fun other member =>
            below other (List.mem_cons_of_mem _ member)

/-- Headers prove a reorganisation only below the last of them. -/
theorem takeHeaders_reorg_lt {header : Nat → Option (Text × Text)} {heights : List Nat}
    {trail after : BlockTrail} {reorg : Reorg} {last : Nat}
    (isReorg : takeHeaders header heights trail = (some reorg, after))
    (within : ∀ height ∈ heights, height ≤ last) : reorg.fromBlock < last := by
  induction heights generalizing trail with
  | nil => cases isReorg
  | cons height heights inductionHypothesis =>
      have isWithin := within height List.mem_cons_self
      have rest : ∀ other ∈ heights, other ≤ last := fun other member =>
        within other (List.mem_cons_of_mem _ member)
      rw [takeHeaders] at isReorg
      split at isReorg
      · exact inductionHypothesis isReorg rest
      · rename_i hash parentHash _
        split at isReorg
        · rename_i found trail' isAdvance
          have judged : trail.judge ⟨height, hash, parentHash⟩ = .reorganised found :=
            congrArg Prod.fst isAdvance
          obtain rfl := Option.some.inj (Prod.mk.inj isReorg).1
          have := (BlockTrail.judge_eq_reorganised judged).1
          simp only at this
          omega
        · exact inductionHypothesis isReorg rest
        · exact inductionHypothesis isReorg rest

/-- No answer says another genesis block. -/
structure KeepsGenesis (genesis : Text) (answers : StepAnswers) : Prop where
  hash : ∀ header ∈ answers.header 0, sameHash header.1 genesis = true
  parentHash : ∀ header ∈ answers.header 1, sameHash header.2 genesis = true
  search : ∀ hash ∈ answers.search 0, sameHash hash genesis = true

/-- A trail holds no other genesis block. -/
def HoldsGenesis (genesis : Text) (held : List (Nat × Text)) : Prop :=
  ∀ hash, (0, hash) ∈ held → sameHash hash genesis = true

theorem sameHash_of_genesis {genesis first second : Text} (isFirst : sameHash first genesis = true)
    (isSecond : sameHash second genesis = true) : sameHash first second = true := by
  rw [sameHash_eq_true] at *
  exact isFirst.trans isSecond.symm

/-- A search that meets no other genesis block finds no fork from it. -/
theorem forkPoint_pos {genesis : Text} {search : Nat → Option Text} {held : List (Nat × Text)}
    {lowest : Nat} (positive : 0 < lowest) (holds : HoldsGenesis genesis held)
    (keeps : ∀ hash, search 0 = some hash → sameHash hash genesis = true) :
    0 < forkPoint search lowest held := by
  induction held generalizing lowest with
  | nil => exact positive
  | cons pair rest inductionHypothesis =>
      obtain ⟨height, heldHash⟩ := pair
      rw [forkPoint]
      split
      · exact positive
      · rename_i hash isHash
        split
        · exact Nat.succ_pos height
        · rename_i different
          apply inductionHypothesis
          · by_contra isGenesis
            obtain rfl : height = 0 := by omega
            exact different (sameHash_of_genesis (keeps hash isHash)
              (holds heldHash List.mem_cons_self))
          · exact fun other member => holds other (List.mem_cons_of_mem _ member)

/-- Headers that name no other genesis block prove no fork from it, and leave the trail holding
none. -/
theorem takeHeaders_genesis {genesis : Text} {answers : StepAnswers} {heights : List Nat}
    {trail : BlockTrail} (keeps : KeepsGenesis genesis answers)
    (holds : HoldsGenesis genesis trail.seen) :
    HoldsGenesis genesis (takeHeaders answers.header heights trail).2.seen ∧
      ∀ reorg, (takeHeaders answers.header heights trail).1 = some reorg →
        0 < reorg.fromBlock := by
  induction heights generalizing trail with
  | nil => exact ⟨holds, fun _ isReorg => by cases isReorg⟩
  | cons height heights inductionHypothesis =>
      rw [takeHeaders]
      cases isHeader : answers.header height with
      | none => exact inductionHypothesis holds
      | some pair =>
          obtain ⟨hash, parentHash⟩ := pair
          have advanced : HoldsGenesis genesis
              (trail.advance ⟨height, hash, parentHash⟩).2.seen := by
            intro other member
            rcases BlockTrail.mem_of_mem_advance member with same | kept
            · obtain ⟨isZero, rfl⟩ := Prod.mk.inj same
              simp only at isZero
              rw [← isZero] at isHeader
              exact keeps.hash (other, parentHash) isHeader
            · exact holds other kept
          simp only
          cases isAdvance : trail.advance ⟨height, hash, parentHash⟩ with
          | mk outcome after =>
              rw [isAdvance] at advanced
              cases outcome with
              | extended => exact inductionHypothesis advanced
              | notLinked => exact inductionHypothesis advanced
              | reorganised reorg =>
                  refine ⟨advanced, ?_⟩
                  rintro found isFound
                  obtain rfl := Option.some.inj isFound
                  have judged : trail.judge ⟨height, hash, parentHash⟩ = .reorganised reorg :=
                    congrArg Prod.fst isAdvance
                  obtain ⟨isParent, held, isHeld, different⟩ :=
                    BlockTrail.judge_eq_reorganised judged
                  by_contra isGenesis
                  have isZero : reorg.fromBlock = 0 := by omega
                  rw [isZero] at isHeld isParent
                  rw [← show 1 = height from isParent] at isHeader
                  rw [sameHash_of_genesis (holds held isHeld)
                    (keeps.parentHash (hash, parentHash) isHeader)] at different
                  cases different

/-- In a step no answer says another genesis block. -/
def StepKeepsGenesis (genesis : Text) (_ : ChainRun) : ChainRun.Ask → Prop
  | .step answers => KeepsGenesis genesis answers
  | .pass _ => True

/-- The first range a run archives starts no higher than any height it planned. -/
def StartsLowest (run : ChainRun) : ChainRun.Ask → Prop
  | .step answers => run.cursor = none → answers.logs = .served true →
      ∀ step ∈ run.pending.head?, ∀ event ∈ run.history, ∀ first ∈ event.starts,
        step.first ≤ first
  | .pass _ => True

instance (run : ChainRun) : ∀ next, Decidable (StartsLowest run next)
  | .step answers => inferInstanceAs (Decidable (run.cursor = none → answers.logs = .served true →
      ∀ step ∈ run.pending.head?, ∀ event ∈ run.history, ∀ first ∈ event.starts,
        step.first ≤ first))
  | .pass _ => isTrue trivial

/-- What holds of a run between any two asks. -/
structure Keeps (genesis : Text) (run : ChainRun) : Prop where
  fetched : Fetched run.history run.cursor
  cold : run.cursor = none → ∀ event ∈ run.history, ∀ first, event.leaves = some first →
    ∃ planned, .planned planned ∈ run.history ∧ planned ≤ first
  genesis : HoldsGenesis genesis run.trail.seen

/-- What is left of a pass abuts what the cursor has passed. -/
structure Continues (run : ChainRun) : Prop where
  abuts : ∀ step ∈ run.pending.head?, Abuts step.first run.pending
  warm : ∀ step ∈ run.pending.head?, ∀ last, run.cursor = some last → step.first = last + 1
  cold : ∀ step ∈ run.pending.head?, run.cursor = none → .planned step.first ∈ run.history

variable {config : CursorConfig} {genesis : Text} {run : ChainRun}

theorem endPass_frame : (run.endPass config).cursor = run.cursor ∧
    (run.endPass config).trail = run.trail ∧ (run.endPass config).history = run.history ∧
      (run.endPass config).pending = [] := by
  unfold ChainRun.endPass
  split
  · split
    · exact ⟨rfl, rfl, rfl, rfl⟩
    · exact ⟨rfl, rfl, rfl, rfl⟩
  · split
    · exact ⟨rfl, rfl, rfl, rfl⟩
    · exact ⟨rfl, rfl, rfl, rfl⟩

theorem continues_of_nil (isNil : run.pending = []) : Continues run := by
  refine ⟨?_, ?_, ?_⟩
  all_goals
    intro step isHead
    rw [isNil] at isHead
    cases isHead

/-- The end of a pass keeps what holds. -/
theorem Keeps.endPass (keeps : Keeps genesis run) :
    Keeps genesis (run.endPass config) ∧ Continues (run.endPass config) := by
  obtain ⟨sameCursor, sameTrail, sameHistory, isNil⟩ := @endPass_frame config run
  refine ⟨⟨?_, ?_, ?_⟩, continues_of_nil isNil⟩
  · rw [sameHistory, sameCursor]
    exact keeps.fetched
  · rw [sameHistory, sameCursor]
    exact keeps.cold
  · rw [sameTrail]
    exact keeps.genesis

theorem passed_some {last height : Nat} : Passed (some last) height ↔ height ≤ last := by
  simp [Passed]

/-- A range that is not archived keeps what holds. -/
theorem Keeps.failed (keeps : Keeps genesis run) (continues : Continues run) {step : BlockStep}
    {rest : List BlockStep} (isPending : run.pending = step :: rest) :
    Keeps genesis (run.note (.failed step)) := by
  refine ⟨?_, ?_, keeps.genesis⟩
  · apply keeps.fetched.concat
    · exact fun height passed => .inl passed
    · intro first leaves height above passed
      obtain rfl := Option.some.inj leaves
      obtain ⟨last, isLast, within⟩ := passed
      have := continues.warm step (by simp [isPending]) last isLast
      omega
  · intro isCold event member first leaves
    rcases List.mem_append.mp member with before | isNew
    · obtain ⟨planned, isPlanned, below⟩ := keeps.cold isCold event before first leaves
      exact ⟨planned, List.mem_append_left _ isPlanned, below⟩
    · rw [List.mem_singleton.mp isNew] at leaves
      obtain rfl := Option.some.inj leaves
      exact ⟨step.first, List.mem_append_left _ (continues.cold step (by simp [isPending]) isCold),
        le_rfl⟩

/-- A range that is archived is fetched up to its last block. -/
theorem Keeps.archived (keeps : Keeps genesis run) (continues : Continues run) {step : BlockStep}
    {rest : List BlockStep} (isPending : run.pending = step :: rest)
    (lowest : run.cursor = none → ∀ first, .planned first ∈ run.history → step.first ≤ first) :
    Fetched (run.history ++ [.archived step]) (some step.last) := by
  apply keeps.fetched.concat
  · intro height passed
    rw [passed_some] at passed
    rcases lt_or_ge height step.first with below | above
    · cases isCursor : run.cursor with
      | none =>
          refine .inr (.inr ?_)
          intro earlier member first leaves
          obtain ⟨planned, isPlanned, notAbove⟩ := keeps.cold isCursor earlier member first leaves
          have := lowest isCursor planned isPlanned
          omega
      | some last =>
          have := continues.warm step (by simp [isPending]) last isCursor
          exact .inl (passed_some.mpr (by omega))
    · exact .inr (.inl ⟨step, List.mem_singleton_self _, above, passed⟩)
  · intro first leaves
    cases leaves

theorem rewindTo_lt {cursor : Option Nat} {fromBlock : Nat} (positive : 0 < fromBlock) :
    rewindTo cursor fromBlock < fromBlock := by
  unfold rewindTo
  cases cursor with
  | none =>
      rw [Option.map_none, Option.getD_none]
      omega
  | some last =>
      rw [Option.map_some, Option.getD_some]
      omega

/-- A rewind leaves everything from the replaced block on to be fetched. -/
theorem Fetched.reorganised {events : List ChainEvent} {cursor : Option Nat} {last : Nat}
    (fetched : Fetched events (some last)) {reorg : Reorg} (positive : 0 < reorg.fromBlock)
    (within : reorg.fromBlock ≤ last) :
    Fetched (events ++ [.reorganised reorg]) (some (rewindTo cursor reorg.fromBlock)) := by
  have rewound := @rewindTo_lt cursor reorg.fromBlock positive
  apply fetched.concat
  · intro height passed
    rw [passed_some] at passed
    left
    rw [passed_some]
    omega
  · intro first leaves height above passed
    obtain rfl := Option.some.inj leaves
    rw [passed_some] at passed
    omega

/-- One step of a pass keeps what holds. -/
theorem keeps_oneStep (keeps : Keeps genesis run) (continues : Continues run) {step : BlockStep}
    {rest : List BlockStep} (isPending : run.pending = step :: rest) {answers : StepAnswers}
    (keepsGenesis : KeepsGenesis genesis answers)
    (lowest : StartsLowest run (.step answers)) :
    Keeps genesis (run.oneStep config step rest answers) ∧
      Continues (run.oneStep config step rest answers) := by
  have failed := keeps.failed continues isPending
  unfold ChainRun.oneStep
  cases isLogs : answers.logs with
  | tooLarge => exact Keeps.endPass ⟨failed.fetched, failed.cold, failed.genesis⟩
  | refused => exact Keeps.endPass ⟨failed.fetched, failed.cold, failed.genesis⟩
  | served archives =>
      cases archives with
      | false => exact ⟨⟨failed.fetched, failed.cold, failed.genesis⟩, continues_of_nil rfl⟩
      | true =>
          have abuts := continues.abuts step (by simp [isPending])
          rw [isPending] at abuts
          have archived := keeps.archived continues isPending fun isCold first isPlanned =>
            lowest isCold isLogs step (by simp [isPending]) _ isPlanned first rfl
          have heights : ∀ height ∈ step.heights, height ≤ step.last := by
            intro height member
            have := abuts.2.1
            unfold BlockStep.heights at member
            split at member
            · rw [List.mem_singleton] at member
              omega
            · simp only [List.mem_cons, List.not_mem_nil, or_false] at member
              omega
          have taken := @takeHeaders_genesis genesis answers step.heights run.trail keepsGenesis
            keeps.genesis
          simp only
          cases isTaken : takeHeaders answers.header step.heights (run.note
              (.archived step)).trail with
          | mk reorg trail =>
              rw [show takeHeaders answers.header step.heights run.trail = (reorg, trail) from
                isTaken] at taken
              cases reorg with
              | some reorg =>
                  simp only
                  apply Keeps.endPass
                  let fromBlock := forkPoint answers.search reorg.fromBlock
                    (trail.heldBelow reorg.fromBlock)
                  have notAbove : fromBlock ≤ reorg.fromBlock := by
                    apply forkPoint_le le_rfl
                    intro pair member
                    exact of_decide_eq_true (List.mem_filter.mp member).2
                  have within := takeHeaders_reorg_lt isTaken heights
                  have positive : 0 < fromBlock := by
                    apply forkPoint_pos (taken.2 reorg rfl) ?_ keepsGenesis.search
                    intro hash member
                    exact taken.1 hash (List.mem_of_mem_filter member)
                  refine ⟨?_, fun isCold => (Option.some_ne_none _ isCold).elim, ?_⟩
                  · exact @Fetched.reorganised _ run.cursor _ archived
                      { reorg with fromBlock := fromBlock } positive
                      (notAbove.trans within.le)
                  · intro hash member
                    exact taken.1 hash (BlockTrail.mem_of_mem_retain member)
              | none =>
                  have advanced : ∀ pending, Keeps genesis { run.note (.archived step) with
                      trail := trail, cursor := some step.last, pending := pending } :=
                    fun _ =>
                      ⟨archived, fun isCold => (Option.some_ne_none _ isCold).elim, taken.1⟩
                  simp only
                  split
                  · split
                    · exact (advanced run.pending).endPass
                    · refine ⟨advanced rest, ?_, ?_, ?_⟩
                      · intro next isNext
                        have abutsRest := abuts.2.2
                        cases rest with
                        | nil => cases isNext
                        | cons following others =>
                            obtain rfl := Option.some.inj isNext
                            rw [abutsRest.1]
                            exact abutsRest
                      · intro next isNext last isLast
                        obtain rfl := Option.some.inj isLast
                        have abutsRest := abuts.2.2
                        cases rest with
                        | nil => cases isNext
                        | cons following others =>
                            obtain rfl := Option.some.inj isNext
                            exact abutsRest.1
                      · intro next _ isCold
                        cases isCold
                  · exact ⟨advanced [], continues_of_nil rfl⟩

/-- Beginning a pass keeps what holds. -/
theorem keeps_beginPass (keeps : Keeps genesis run) (isNil : run.pending = [])
    (head : Option Nat) :
    Keeps genesis (run.beginPass config head) ∧ Continues (run.beginPass config head) := by
  cases head with
  | none => exact ⟨keeps, continues_of_nil isNil⟩
  | some head =>
      rw [ChainRun.beginPass]
      simp only
      split
      · exact Keeps.endPass ⟨keeps.fetched, keeps.cold, keeps.genesis⟩
      · rename_i notBeyond
        split
        · exact ⟨⟨keeps.fetched, keeps.cold, keeps.genesis⟩, continues_of_nil isNil⟩
        · rename_i steps isPlan
          have abuts := abuts_of_plan isPlan (not_lt.mp notBeyond)
          have planned : Keeps genesis { run.note (.planned
              ((run.cursor.map (· + 1)).getD (head - config.backfill))) with
                pending := steps, failed := 0, narrowTo := none } := by
            refine ⟨?_, ?_, keeps.genesis⟩
            · apply keeps.fetched.concat
              · exact fun height passed => .inl passed
              · intro first leaves height above passed
                obtain rfl := Option.some.inj leaves
                obtain ⟨last, isLast, within⟩ := passed
                rw [show run.cursor = some last from isLast, Option.map_some,
                  Option.getD_some] at above
                omega
            · intro isCold event member first leaves
              rcases List.mem_append.mp member with before | isNew
              · obtain ⟨earlier, isPlanned, below⟩ := keeps.cold isCold event before first leaves
                exact ⟨earlier, List.mem_append_left _ isPlanned, below⟩
              · rw [List.mem_singleton.mp isNew] at leaves
                exact ⟨first, List.mem_append_right _ (by
                  rw [Option.some.inj leaves]; exact List.mem_singleton_self _), le_rfl⟩
          have isFirst : ∀ step ∈ steps.head?,
              step.first = (run.cursor.map (· + 1)).getD (head - config.backfill) := by
            intro step isHead
            cases steps with
            | nil => cases isHead
            | cons next rest =>
                obtain rfl := Option.some.inj isHead
                exact abuts.1
          split
          · exact planned.endPass
          · refine ⟨planned, ?_, ?_, ?_⟩
            · intro step isHead
              rw [isFirst step isHead]
              exact abuts
            · intro step isHead last isLast
              rw [isFirst step isHead, show run.cursor = some last from isLast]
              rfl
            · intro step isHead _
              rw [isFirst step isHead]
              exact List.mem_append_right _ (List.mem_singleton_self _)

/-- Every ask keeps what holds. -/
theorem keeps_ask {next : ChainRun.Ask} {after : ChainRun}
    (holds : Keeps genesis run ∧ Continues run) (keepsGenesis : StepKeepsGenesis genesis run next)
    (lowest : StartsLowest run next) (asked : run.ask config next = some after) :
    Keeps genesis after ∧ Continues after := by
  unfold ChainRun.ask at asked
  split at asked
  · cases next with
    | pass head =>
        cases isPending : run.pending with
        | nil =>
            rw [isPending] at asked
            obtain rfl := Option.some.inj asked
            exact keeps_beginPass holds.1 isPending head
        | cons step rest =>
            rw [isPending] at asked
            cases asked
    | step answers =>
        cases isPending : run.pending with
        | nil =>
            rw [isPending] at asked
            cases asked
        | cons step rest =>
            rw [isPending] at asked
            obtain rfl := Option.some.inj asked
            exact keeps_oneStep holds.1 holds.2 isPending keepsGenesis lowest
  · cases asked

/-- **The cursor never skips a height.**  Whatever heads, refusals, header failures and
reorganisations a run meets, no height is skipped in any state it reaches, where the first range it
archives starts no higher than any it planned before. -/
theorem neverSkips_of_startsLowest (config : CursorConfig) (genesis : Text)
    (asks : List ChainRun.Ask) (final : ChainRun)
    (keepsGenesis : Guarded (ChainRun.ask config) (StepKeepsGenesis genesis) asks (.start config))
    (lowest : Guarded (ChainRun.ask config) StartsLowest asks (.start config))
    (run : exec (ChainRun.ask config) asks (.start config) = some final) : NeverSkips final := by
  have start : Keeps genesis (ChainRun.start config) ∧ Continues (ChainRun.start config) := by
    refine ⟨⟨?_, ?_, ?_⟩, continues_of_nil rfl⟩
    · intro front event back isEmpty
      simp [ChainRun.start] at isEmpty
    · intro _ event member
      cases member
    · intro hash member
      cases member
  have holds : Keeps genesis final ∧ Continues final :=
    invariant_of_guarded (fun _ _ _ holds guards asked =>
      keeps_ask holds guards.1 guards.2 asked) start (keepsGenesis.and lowest) run
  exact holds.1.fetched.neverSkips

/-- Ten blocks a range, from ten behind the head. -/
def tenBlocks : CursorConfig := ⟨⟨10, none⟩, 10, 64⟩

/-- A step whose headers are not answered. -/
def unheaded (logs : LogsAnswer) : ChainRun.Ask := .step ⟨logs, fun _ => none, fun _ => none, true⟩

theorem keepsGenesis_unheaded (genesis : Text) (run : ChainRun) (logs : LogsAnswer) :
    StepKeepsGenesis genesis run (unheaded logs) :=
  ⟨fun _ isHeader => (Option.some_ne_none _ isHeader.symm).elim,
    fun _ isHeader => (Option.some_ne_none _ isHeader.symm).elim,
    fun _ isHash => (Option.some_ne_none _ isHash.symm).elim⟩

/-- Asked again from the same head, the failed range is archived first. -/
theorem neverSkips_of_startsLowest_sameHead :
    ∃ final, exec (ChainRun.ask tenBlocks) [.pass (some 100), unheaded .refused,
        .pass (some 100), unheaded (.served true)] (.start tenBlocks) = some final ∧
      NeverSkips final := by
  refine ⟨_, rfl, neverSkips_of_startsLowest tenBlocks [] [.pass (some 100), unheaded .refused,
    .pass (some 100), unheaded (.served true)] _ ?_ ?_ rfl⟩
  · exact ⟨trivial, fun _ _ => ⟨keepsGenesis_unheaded _ _ _, fun _ _ => ⟨trivial, fun _ _ =>
      ⟨keepsGenesis_unheaded _ _ _, fun _ _ => trivial⟩⟩⟩⟩
  · decide +kernel

/-- **A first range skipped.**  The first range fails before any has succeeded, the head moves on,
and the next pass plans from behind the new head. -/
theorem first_range_skipped :
    ∃ final, exec (ChainRun.ask tenBlocks) [.pass (some 100), unheaded .refused,
        .pass (some 105), unheaded (.served true)] (.start tenBlocks) = some final ∧
      ¬ NeverSkips final := by
  refine ⟨_, rfl, ?_⟩
  intro skips
  obtain ⟨step, member, above, _⟩ :=
    skips.archived 90 rfl 90 le_rfl ⟨104, rfl, by decide⟩
  have history : .archived step ∈ [ChainEvent.planned 90, .failed ⟨90, 99⟩, .planned 95,
      .archived ⟨95, 104⟩] := member
  simp only [List.mem_cons, ChainEvent.archived.injEq, reduceCtorEq, List.not_mem_nil, or_false,
    false_or] at history
  rw [history] at above
  exact absurd above (by decide)

end Chain
end Datawatch
