import Datawatch.Library.Transition
import Datawatch.Capture.LoopSteps

/-!
# Lost sessions

Whether every session whose loop is left is in the record as a gap of each covered pair, from the
moment the pair was last received to the moment its subscription is sent again.
-/

namespace Datawatch
namespace Capture

open Library Library.Intervals Library.Transition Wire Record Ingest

/-- Something that happens to the loop, and the pairs whose gaps the record refuses then. -/
structure Occurrence where
  happening : Happening
  refused : List Pair := []

/-- A loop and what was seen of it. -/
structure LoopRun where
  loop : Loop
  /-- The gaps the record took. -/
  published : List (Ticker × Gap) := []
  /-- The latest moment each pair was received. -/
  latest : Pair → Option Int := fun _ => none
  /-- Where a declared pair was not asked for since its session's loop was left, the latest moment
  it was received before that. -/
  owed : Pair → Option Int := fun _ => none

/-- The later of a moment and one there may be. -/
def laterOf (latest : Option Int) (recvMicros : Int) : Int :=
  (latest.map fun before => max before recvMicros).getD recvMicros

namespace LoopRun

variable (seam : Seam) (policy : ConnectionPolicy)

/-- A run that has not begun. -/
def start (clipped : Clipped) : LoopRun := { loop := Loop.start seam clipped }

/-- A run, one occurrence later. -/
def step (run : LoopRun) (occurrence : Occurrence) : Option LoopRun :=
  (run.loop.step seam policy occurrence.happening).map fun next =>
    { loop := next.1
      published := run.published ++ next.2.filter fun row => pairOf row ∉ occurrence.refused
      latest := fun pair =>
        ((Loop.receivedAt seam pair occurrence.happening).map (laterOf (run.latest pair))).or
          (run.latest pair)
      owed := fun pair =>
        if (run.loop.asksAt seam pair occurrence.happening).isSome then none
        else if (run.loop.leavesAt occurrence.happening).isSome ∧ pair ∈ seam.declared then
          (run.owed pair).or (run.latest pair)
        else run.owed pair }

/-- **A lost session is recorded.**  Where the session's loop is left, the gaps in the record cover
a pair from the latest moment it was received, one of them starting no later; and where the pair's
subscription is sent again, they go on to that moment. -/
structure Records (run : LoopRun) (pair : Pair) (happening : Happening) (next : LoopRun) :
    Prop where
  leaves : ∀ leftMicros ∈ run.loop.leavesAt happening, ∀ latest ∈ run.latest pair,
    (latest < leftMicros → ∃ gap ∈ gapsOf pair next.published, gap.1 ≤ latest) ∧
      Covers (gapsOf pair next.published) latest leftMicros
  asks : ∀ askedMicros ∈ run.loop.asksAt seam pair happening, ∀ since ∈ run.owed pair,
    Covers (gapsOf pair next.published) since askedMicros

/-- A moment no later than a pair is accounted for: it was received later, or its last gap ended
later. -/
def Reached (run : LoopRun) (pair : Pair) (moment : Int) : Prop :=
  (∃ latest ∈ run.latest pair, moment ≤ latest) ∨
    ∃ gapped ∈ (run.loop.coverage.entry pair).gapped, moment ≤ gapped.endMicros

/-- A pair's ledger is at no moment later than it is accounted for.  A receipt never takes it past
one; a completed handover does, until the pair is received again. -/
def Heard (run : LoopRun) (pair : Pair) : Prop :=
  ∀ recvMicros ∈ (run.loop.coverage.entry pair).lastRecvMicros, run.Reached pair recvMicros

/-- A pair's last gap is still open, and nothing covered the pair since it ended. -/
def StillOpen (run : LoopRun) (pair : Pair) : Prop :=
  ∃ gapped ∈ (run.loop.coverage.entry pair).gapped, gapped.isOpen = true ∧
    ∀ recvMicros ∈ (run.loop.coverage.entry pair).lastRecvMicros, recvMicros < gapped.endMicros

/-- What keeps a pair's lost sessions recorded, at a turn that has something due. -/
def KeepsTurn (run : LoopRun) (pair : Pair) (nowMicros : Int) (succeeds : Bool)
    (askedMicros : Int) : Act → Prop
  | .keepalive => succeeds = false → (run.latest pair).isSome → run.Reached pair nowMicros
  | .openReplacement => (run.owed pair).isSome → succeeds = true → run.Reached pair askedMicros
  | .closeReplaced | .wait => True

/-- What keeps a pair's lost sessions recorded, at one occurrence.  The record takes the pair's
gaps.  The loop is not left by a keepalive or by the record, nor lost before the pair is received
after a handover, unless the pair is accounted for to that very moment.  While the pair has not been
asked for since its session's loop was left, nothing covers it past what is accounted for; and it is
asked for where its gap is still open, or where it is accounted for already. -/
def Keeps (run : LoopRun) (pair : Pair) (occurrence : Occurrence) : Prop :=
  pair ∉ occurrence.refused ∧
    match occurrence.happening with
    | .page payload =>
        (run.owed pair).isSome → pair ∈ seam.covers payload → run.Reached pair payload.recvMicros
    | .frame bytes nowMicros =>
        (run.owed pair).isSome → pair ∈ seam.covers (seam.classify bytes nowMicros) →
          run.Reached pair (seam.classify bytes nowMicros).recvMicros
    | .connected _ sent askedMicros =>
        (run.owed pair).isSome → pair ∈ sent → run.StillOpen pair ∨ run.Reached pair askedMicros
    | .turned nowMicros succeeds askedMicros =>
        run.KeepsTurn pair nowMicros succeeds askedMicros (run.loop.due nowMicros)
    | .archiveFailed nowMicros => (run.latest pair).isSome → run.Reached pair nowMicros
    | .lost nowMicros => (run.latest pair).isSome → run.Heard pair ∨ run.Reached pair nowMicros
    | .reported .. | .connectFailed | .idle | .cancelled => True

instance (run : LoopRun) (pair : Pair) (moment : Int) : Decidable (run.Reached pair moment) :=
  inferInstanceAs (Decidable (_ ∨ _))

instance (run : LoopRun) (pair : Pair) : Decidable (run.Heard pair) :=
  inferInstanceAs (Decidable (∀ recvMicros ∈ _, _))

instance (run : LoopRun) (pair : Pair) : Decidable (run.StillOpen pair) :=
  inferInstanceAs (Decidable (∃ gapped ∈ _, _))

instance (run : LoopRun) (pair : Pair) (nowMicros : Int) (succeeds : Bool) (askedMicros : Int) :
    ∀ due, Decidable (run.KeepsTurn pair nowMicros succeeds askedMicros due)
  | .keepalive | .openReplacement => inferInstanceAs (Decidable (_ → _ → _))
  | .closeReplaced | .wait => isTrue trivial

instance (run : LoopRun) (pair : Pair) : ∀ occurrence, Decidable (run.Keeps seam pair occurrence)
  | ⟨.page _, _⟩ | ⟨.frame _ _, _⟩ | ⟨.connected _ _ _, _⟩ | ⟨.archiveFailed _, _⟩
  | ⟨.lost _, _⟩ =>
      inferInstanceAs (Decidable (_ ∧ (_ → _)))
  | ⟨.turned _ _ _, _⟩ => inferInstanceAs (Decidable (_ ∧ KeepsTurn ..))
  | ⟨.reported _ _, _⟩ | ⟨.connectFailed, _⟩ | ⟨.idle, _⟩ | ⟨.cancelled, _⟩ =>
      inferInstanceAs (Decidable (_ ∧ True))

end LoopRun

/-- The moment a covered pair is accounted for to: the later of received and already gapped. -/
def accountedTo (latest : Int) (gapped : Option Gapped) : Int :=
  (gapped.map fun gapped => max gapped.endMicros latest).getD latest

theorem le_accountedTo_iff {latest moment : Int} {gapped : Option Gapped} :
    moment ≤ accountedTo latest gapped ↔
      moment ≤ latest ∨ ∃ last ∈ gapped, moment ≤ last.endMicros := by
  unfold accountedTo
  cases gapped with
  | none => simp
  | some gapped => simp [or_comm]

/-- What the gaps in the record say of a covered pair: nothing after it was received is missing
before its last gap's end, nor since it was owed before what is accounted for. -/
structure Accounts (gaps : List (Int × Int)) (ledger : PairLedger) (latest : Int)
    (owed : Option Int) : Prop where
  covered : ledger.lastRecvMicros.isSome
  accounted : ∀ gapped ∈ ledger.gapped, Covers gaps latest gapped.endMicros
  owing : ∀ since ∈ owed, Covers gaps since (accountedTo latest ledger.gapped)

namespace Accounts

variable {gaps more : List (Int × Int)} {ledger : PairLedger} {latest : Int} {owed : Option Int}

/-- A pair is covered, and its gaps are, to what it is accounted for. -/
theorem reaches (accounts : Accounts gaps ledger latest owed) :
    Covers gaps latest (accountedTo latest ledger.gapped) := by
  intro moment atLeast below
  rcases lt_or_ge moment latest with before | _
  · exact absurd before (not_lt_of_ge atLeast)
  · cases isGapped : ledger.gapped with
    | none =>
        rw [isGapped] at below
        exact absurd below (not_lt_of_ge atLeast)
    | some gapped =>
        rw [isGapped] at below
        apply accounts.accounted gapped isGapped moment atLeast
        exact (lt_max_iff.mp below).resolve_right (not_lt_of_ge atLeast)

/-- More gaps say no less. -/
theorem append (accounts : Accounts gaps ledger latest owed) (more : List (Int × Int)) :
    Accounts (gaps ++ more) ledger latest owed where
  covered := accounts.covered
  accounted := fun gapped isGapped => (accounts.accounted gapped isGapped).append
  owing := fun since isOwed => (accounts.owing since isOwed).append

/-- A pair that is asked for is owed nothing. -/
theorem settle (accounts : Accounts gaps ledger latest owed) : Accounts gaps ledger latest none :=
  { accounts with owing := fun since isOwed => by cases isOwed }

/-- Leaving the session's loop owes a pair what follows the moment it was received. -/
theorem leave (accounts : Accounts gaps ledger latest owed) :
    Accounts gaps ledger latest (owed.or (some latest)) :=
  { accounts with
    owing := by
      intro since isOwed
      cases owed with
      | none =>
          obtain rfl := Option.some.inj isOwed
          exact accounts.reaches
      | some before => exact accounts.owing since isOwed }

/-- Being received at a moment, which where the pair is owed is one it is accounted for to. -/
theorem receive (accounts : Accounts gaps ledger latest owed) {recvMicros : Int}
    (reached : owed.isSome → recvMicros ≤ accountedTo latest ledger.gapped) :
    Accounts gaps { ledger with lastRecvMicros := some recvMicros } (max latest recvMicros)
      owed where
  covered := rfl
  accounted := fun gapped isGapped moment atLeast below =>
    accounts.accounted gapped isGapped moment ((le_max_left _ _).trans atLeast) below
  owing := by
    intro since isOwed
    have same : accountedTo (max latest recvMicros) ledger.gapped =
        accountedTo latest ledger.gapped := by
      have within := reached (by rw [isOwed]; rfl)
      unfold accountedTo at within ⊢
      generalize ledger.gapped = last at within ⊢
      cases last with
      | none => exact max_eq_left within
      | some gapped =>
          simp only [Option.map_some, Option.getD_some, le_max_iff] at within
          simp only [Option.map_some, Option.getD_some]
          rcases within with ended | covered
          · rw [← max_assoc, max_eq_left (ended.trans (le_max_left _ _))]
          · rw [max_eq_left covered]
    rw [same]
    exact accounts.owing since isOwed

/-- Gaps that go on to a moment from wherever they ended. -/
theorem covers_of_dated {start reach fromMicros toMicros : Int}
    (covers : Covers gaps start reach) (joins : fromMicros ≤ reach)
    (dated : (fromMicros, toMicros) ∈ more) : Covers (gaps ++ more) start toMicros := by
  intro moment atLeast below
  rcases lt_or_ge moment reach with before | after
  · exact covers.append moment atLeast before
  · exact ⟨(fromMicros, toMicros), List.mem_append_right _ dated, joins.trans after, below⟩

/-- Gaps that reach a moment cover what is before it. -/
theorem covers_of_le {start reach toMicros : Int} (covers : Covers gaps start reach)
    (within : toMicros ≤ reach) : Covers (gaps ++ more) start toMicros :=
  fun moment atLeast below => covers.append moment atLeast (below.trans_le within)

/-- A later last gap, where gaps that reach what is accounted for go on to its end. -/
theorem regap (accounts : Accounts gaps ledger latest owed) {gapped : Gapped}
    (goesOn : ∀ start, Covers gaps start (accountedTo latest ledger.gapped) →
      Covers (gaps ++ more) start gapped.endMicros) :
    Accounts (gaps ++ more) { ledger with gapped := some gapped } latest owed where
  covered := accounts.covered
  accounted := by
    intro last isLast
    obtain rfl := Option.some.inj isLast
    exact goesOn latest accounts.reaches
  owing := by
    intro since isOwed moment atLeast below
    have covers := accounts.owing since isOwed
    rcases lt_max_iff.mp below with inGap | inCovered
    · exact goesOn since covers moment atLeast inGap
    · exact covers_of_le covers (le_accountedTo_iff.mpr (.inl le_rfl)) moment atLeast inCovered

/-- Where a loss dates its gap, and the ledger is at no moment past what is accounted for, gaps that
reach what is accounted for go on to the moment the loss was noticed. -/
theorem covers_of_heard (accounts : Accounts gaps ledger latest owed) {toMicros : Int}
    {cause : GapCause}
    (heard : ∀ recvMicros ∈ ledger.lastRecvMicros, recvMicros ≤ accountedTo latest ledger.gapped)
    (recorded : ∀ gap ∈ (Touch.lost toMicros cause).gap ledger, gap ∈ more) {start : Int}
    (covers : Covers gaps start (accountedTo latest ledger.gapped)) :
    Covers (gaps ++ more) start toMicros := by
  obtain ⟨recvMicros, isRecv⟩ := Option.isSome_iff_exists.mp accounts.covered
  have isHeard := heard recvMicros isRecv
  have joins : (ledger.gapped.map fun gapped => max gapped.endMicros recvMicros).getD recvMicros ≤
      accountedTo latest ledger.gapped := by
    cases isGapped : ledger.gapped with
    | none =>
        rw [isGapped] at isHeard
        exact isHeard
    | some gapped =>
        rw [isGapped] at isHeard
        exact max_le (le_max_left _ _) isHeard
  cases isGap : (Touch.lost toMicros cause).gap ledger with
  | none =>
      apply covers_of_le covers
      simp only [Touch.gap, isRecv, Option.bind_some] at isGap
      split at isGap
      · rename_i reached
        exact reached.trans joins
      · cases isGap
  | some gap =>
      have dated := recorded gap isGap
      simp only [Touch.gap, isRecv, Option.bind_some] at isGap
      split at isGap
      · cases isGap
      · obtain rfl := Option.some.inj isGap
        exact covers_of_dated covers joins dated

/-- **What a loss leaves**, where the gap it dates is recorded, and the ledger is at no moment past
what is accounted for or the loss is not: the gaps go on to the moment it was noticed. -/
theorem lose (accounts : Accounts gaps ledger latest owed) {toMicros : Int} {cause : GapCause}
    (heard : (∀ recvMicros ∈ ledger.lastRecvMicros,
        recvMicros ≤ accountedTo latest ledger.gapped) ∨
      toMicros ≤ accountedTo latest ledger.gapped)
    (recorded : ∀ gap ∈ (Touch.lost toMicros cause).gap ledger, gap ∈ more) :
    Accounts (gaps ++ more) ((Touch.lost toMicros cause).apply ledger) latest owed ∧
      Covers (gaps ++ more) latest toMicros := by
  have goesOn (start : Int) (covers : Covers gaps start (accountedTo latest ledger.gapped)) :
      Covers (gaps ++ more) start toMicros := by
    rcases heard with heard | within
    · exact accounts.covers_of_heard heard recorded covers
    · exact covers_of_le covers within
  refine ⟨?_, goesOn latest accounts.reaches⟩
  rw [Touch.apply]
  cases (Touch.lost toMicros cause).gap ledger with
  | none => exact accounts.append more
  | some gap => exact accounts.regap goesOn

/-- **What being asked again leaves**, where the tail it dates is recorded. -/
theorem ask (accounts : Accounts gaps ledger latest owed) {atMicros : Int}
    (recorded : ∀ gap ∈ (Touch.asked atMicros).gap ledger, gap ∈ more) :
    Accounts (gaps ++ more) ((Touch.asked atMicros).apply ledger) latest owed := by
  cases isGap : (Touch.asked atMicros).gap ledger with
  | none =>
      have closed : (Touch.asked atMicros).apply ledger =
          { ledger with
            gapped :=
              ledger.gapped.map fun gapped => ⟨gapped.endMicros, gapped.cause, false⟩ } := by
        simp [Touch.apply, isGap]
      have sameReach : accountedTo latest
          (ledger.gapped.map fun gapped => (⟨gapped.endMicros, gapped.cause, false⟩ : Gapped)) =
          accountedTo latest ledger.gapped := by
        unfold accountedTo
        rw [Option.map_map]
        rfl
      rw [closed]
      refine ⟨accounts.covered, ?_, ?_⟩
      · intro gapped isGapped
        obtain ⟨last, isLast, rfl⟩ := Option.map_eq_some_iff.mp isGapped
        exact (accounts.accounted last isLast).append
      · intro since isOwed
        rw [sameReach]
        exact (accounts.owing since isOwed).append
  | some gap =>
      have dated := recorded gap isGap
      obtain ⟨⟨cause, isGapped⟩, _, later, stops⟩ := Touch.gap_asked_iff.mp isGap
      obtain ⟨start, stop⟩ := gap
      simp only at isGapped later stops dated
      subst stops
      have closed : (Touch.asked stop).apply ledger =
          { ledger with gapped := some ⟨stop, cause, false⟩ } := by
        simp [Touch.apply, isGap, isGapped]
      have joins : start ≤ accountedTo latest ledger.gapped :=
        le_accountedTo_iff.mpr (.inr ⟨_, isGapped, le_rfl⟩)
      rw [closed]
      exact accounts.regap fun _ covers => covers_of_dated covers joins dated

/-- Being asked again covers what the pair was owed, where its gap is still open or it is accounted
for to that moment. -/
theorem asked_covers (accounts : Accounts gaps ledger latest owed) {atMicros : Int}
    (recorded : ∀ gap ∈ (Touch.asked atMicros).gap ledger, gap ∈ more)
    (unsettled : (∃ gapped ∈ ledger.gapped, gapped.isOpen = true ∧
        ∀ recvMicros ∈ ledger.lastRecvMicros, recvMicros < gapped.endMicros) ∨
      atMicros ≤ accountedTo latest ledger.gapped) :
    ∀ since ∈ owed, Covers (gaps ++ more) since atMicros := by
  intro since isOwed
  rcases unsettled with ⟨gapped, isGapped, isOpen, uncovered⟩ | reached
  · have joins : gapped.endMicros ≤ accountedTo latest ledger.gapped :=
      le_accountedTo_iff.mpr (.inr ⟨gapped, isGapped, le_rfl⟩)
    rcases lt_or_ge gapped.endMicros atMicros with later | within
    · apply covers_of_dated (accounts.owing since isOwed) joins
      apply recorded (gapped.endMicros, atMicros)
      rw [Option.mem_def, Touch.gap_asked_iff]
      refine ⟨⟨gapped.cause, ?_⟩, uncovered, later, rfl⟩
      rw [isGapped, ← isOpen]
    · exact covers_of_le (accounts.owing since isOwed) (within.trans joins)
  · exact covers_of_le (accounts.owing since isOwed) reached

/-- **Whatever happens to a covered pair.** -/
theorem touch (accounts : Accounts gaps ledger latest owed) {touch : Touch} {received : Option Int}
    (isReceived : ∀ atMicros, touch = .covered atMicros ↔ received = some atMicros)
    (recorded : ∀ gap ∈ touch.gap ledger, gap ∈ more)
    (reached : owed.isSome → ∀ atMicros, touch = .covered atMicros →
      atMicros ≤ accountedTo latest ledger.gapped)
    (heard : ∀ toMicros cause, touch = .lost toMicros cause →
      (∀ recvMicros ∈ ledger.lastRecvMicros, recvMicros ≤ accountedTo latest ledger.gapped) ∨
        toMicros ≤ accountedTo latest ledger.gapped) :
    ∃ later, (received.map (laterOf (some latest))).or (some latest) = some later ∧
      Accounts (gaps ++ more) (touch.apply ledger) later owed := by
  have unreceived (notCovered : ∀ atMicros, touch ≠ .covered atMicros) :
      (received.map (laterOf (some latest))).or (some latest) = some latest := by
    cases received with
    | none => rfl
    | some atMicros => exact absurd ((isReceived atMicros).mpr rfl) (notCovered atMicros)
  cases touch with
  | none => exact ⟨latest, unreceived (by simp), accounts.append more⟩
  | covered atMicros =>
      refine ⟨max latest atMicros, ?_, ?_⟩
      · rw [(isReceived atMicros).mp rfl]
        rfl
      · exact (accounts.receive fun isOwed => reached isOwed atMicros rfl).append more
  | handedOver atMicros =>
      -- The ledger's moment moves, and nothing is received.
      have moved : (Touch.handedOver atMicros).apply ledger =
          { ledger with lastRecvMicros := some atMicros } := by
        simp [Touch.apply, accounts.covered]
      rw [moved]
      exact ⟨latest, unreceived (by simp), { accounts.append more with covered := rfl }⟩
  | lost toMicros cause =>
      exact ⟨latest, unreceived (by simp), (accounts.lose (heard toMicros cause rfl) recorded).1⟩
  | asked atMicros => exact ⟨latest, unreceived (by simp), accounts.ask recorded⟩

end Accounts

/-! ## A run -/

namespace LoopRun

variable {seam : Seam} {policy : ConnectionPolicy} {run next : LoopRun} {pair : Pair}
variable {occurrence : Occurrence}

/-- What holds of a pair wherever a run that keeps its losses recorded arrives. -/
structure Sound (seam : Seam) (run : LoopRun) (pair : Pair) : Prop where
  declared : run.loop.held.declared = seam.declared
  begins : run.loop.phase = .starting → run.latest pair = none
  unheard : run.latest pair = none → run.loop.coverage.entry pair = {} ∧ run.owed pair = none
  heard : ∀ latest ∈ run.latest pair,
    Accounts (gapsOf pair run.published) (run.loop.coverage.entry pair) latest (run.owed pair)

theorem sound_start (seam : Seam) (clipped : Clipped) (pair : Pair) :
    Sound seam (start seam clipped) pair where
  declared := rfl
  begins := fun _ => rfl
  unheard := fun _ => ⟨rfl, rfl⟩
  heard := fun latest isLatest => by cases isLatest

theorem reached_iff {latest moment : Int} (isLatest : run.latest pair = some latest) :
    run.Reached pair moment ↔
      moment ≤ accountedTo latest (run.loop.coverage.entry pair).gapped := by
  rw [le_accountedTo_iff, Reached, isLatest]
  simp only [Option.mem_def, Option.some.injEq, exists_eq_left']

/-- The record takes every gap of a pair it does not refuse. -/
theorem gapsOf_recorded {refused : List Pair} (taken : pair ∉ refused)
    (published rows : List (Ticker × Gap)) :
    gapsOf pair (published ++ rows.filter fun row => pairOf row ∉ refused) =
      gapsOf pair published ++ gapsOf pair rows := by
  rw [gapsOf_append, gapsOf_eq pair (rows.filter _), gapsOf_eq pair rows, List.filter_filter]
  congr 2
  apply List.filter_congr
  intro row _
  by_cases same : pairOf row = pair
  · simp [same, taken]
  · simp [same]

/-- A pair that is owed is received at no moment past what it is accounted for. -/
theorem reached_of_keeps (keeps : run.Keeps seam pair occurrence)
    (begun : ∀ window nowMicros, occurrence.happening ≠ .reported window nowMicros) {latest : Int}
    (isLatest : run.latest pair = some latest) (isOwed : (run.owed pair).isSome) (atMicros : Int)
    (received : Loop.receivedAt seam pair occurrence.happening = some atMicros) :
    atMicros ≤ accountedTo latest (run.loop.coverage.entry pair).gapped := by
  rw [← reached_iff isLatest]
  obtain ⟨_, keeps⟩ := keeps
  cases isHappening : occurrence.happening with
  | page payload | frame bytes nowMicros =>
      rw [isHappening] at keeps received
      obtain ⟨isCovered, isAt⟩ := Option.ite_none_right_eq_some.mp received
      exact Option.some.inj isAt ▸ keeps isOwed isCovered
  | reported window nowMicros => exact absurd isHappening (begun window nowMicros)
  | turned | connected | connectFailed | archiveFailed | idle | lost | cancelled =>
      rw [isHappening] at received
      cases received

/-- A session lost leaves a covered pair's ledger at no moment past what the pair is accounted for,
or is lost no later than that. -/
theorem heard_of_keeps (keeps : run.Keeps seam pair occurrence) {latest : Int}
    (isLatest : run.latest pair = some latest) {toMicros : Int}
    (loses : occurrence.happening = .lost toMicros) :
    (∀ recvMicros ∈ (run.loop.coverage.entry pair).lastRecvMicros,
        recvMicros ≤ accountedTo latest (run.loop.coverage.entry pair).gapped) ∨
      toMicros ≤ accountedTo latest (run.loop.coverage.entry pair).gapped := by
  obtain ⟨_, keeps⟩ := keeps
  rw [loses] at keeps
  rcases keeps (by rw [isLatest]; rfl) with heard | reached
  · exact .inl fun recvMicros isRecv => (reached_iff isLatest).mp (heard recvMicros isRecv)
  · exact .inr ((reached_iff isLatest).mp reached)

/-- What a pair is owed, one occurrence later, in its accounts of before. -/
theorem Sound.owed_next (sound : run.Sound seam pair) {latest : Int}
    (isLatest : run.latest pair = some latest)
    (stepped : run.step seam policy occurrence = some next) :
    Accounts (gapsOf pair run.published) (run.loop.coverage.entry pair) latest (next.owed pair) ∧
      ((next.owed pair).isSome → (run.owed pair).isSome ∨
        (run.loop.leavesAt occurrence.happening).isSome) := by
  have accounts := sound.heard latest isLatest
  obtain ⟨_, _, rfl⟩ := Option.map_eq_some_iff.mp stepped
  simp only
  split
  · exact ⟨accounts.settle, fun isOwed => by cases isOwed⟩
  · split
    · rename_i leaves
      rw [isLatest]
      exact ⟨accounts.leave, fun _ => .inr leaves.1⟩
    · exact ⟨accounts, .inl⟩

/-- A pair received for the first time has no gap yet. -/
theorem accounts_of_empty (gaps : List (Int × Int)) (atMicros : Int) :
    Accounts gaps ((Touch.covered atMicros).apply {}) atMicros none :=
  ⟨rfl, fun _ isGapped => (by cases isGapped), fun _ isOwed => (by cases isOwed)⟩

/-- The restart's report receives what is declared where its window begins, and hands over the
window as a gap. -/
theorem entry_reportRestartGap {loop : Loop} (unheard : loop.coverage.entry pair = {})
    (gaps : List (Int × Int)) (nowMicros : Int) (window : Option (Int × Int × GapCause)) :
    let reported := loop.reportRestartGap seam nowMicros window
    (Loop.receivedAt seam pair (.reported window nowMicros) = none ∧
        reported.1.coverage.entry pair = {}) ∨
      ∃ latest, Loop.receivedAt seam pair (.reported window nowMicros) = some latest ∧
        Accounts (gaps ++ gapsOf pair reported.2) (reported.1.coverage.entry pair) latest none := by
  cases window with
  | none =>
      simp only [Loop.reportRestartGap, Coverage.entry_establish, unheard, Loop.receivedAt]
      split
      · exact .inr ⟨nowMicros, rfl, (accounts_of_empty gaps nowMicros).append _⟩
      · exact .inl ⟨rfl, rfl⟩
  | some window =>
      obtain ⟨fromMicros, toMicros, cause⟩ := window
      simp only [Loop.reportRestartGap, Coverage.entry_gapsFor, Coverage.entry_establish, unheard,
        Loop.receivedAt]
      split
      · rename_i isDeclared
        refine .inr ⟨fromMicros, rfl, ?_⟩
        apply ((accounts_of_empty gaps fromMicros).lose ?_ ?_).1
        · left
          intro recvMicros isRecv
          obtain rfl := Option.some.inj isRecv
          exact le_rfl
        · have handed := @Coverage.mem_gapsFor (loop.coverage.establish seam.declared fromMicros)
            _ toMicros cause pair isDeclared
          rwa [Coverage.entry_establish, if_pos isDeclared, unheard] at handed
      · exact .inl ⟨rfl, rfl⟩

/-- A pair never received stays so unless it is received. -/
theorem apply_empty {touch : Touch} (uncovered : ∀ atMicros, touch ≠ .covered atMicros) :
    touch.apply {} = {} := by
  cases touch with
  | covered atMicros => exact absurd rfl (uncovered atMicros)
  | none | handedOver | lost | asked => rfl

/-- The pair's accounts after an occurrence. -/
theorem Sound.heard_next (sound : run.Sound seam pair) (keeps : run.Keeps seam pair occurrence)
    (stepped : run.step seam policy occurrence = some next) :
    (next.latest pair = none → next.loop.coverage.entry pair = {} ∧ next.owed pair = none) ∧
      ∀ latest ∈ next.latest pair,
        Accounts (gapsOf pair next.published) (next.loop.coverage.entry pair) latest
          (next.owed pair) := by
  have owedNext (latest : Int) (isLatest : run.latest pair = some latest) :=
    sound.owed_next isLatest stepped
  have unowed : run.latest pair = none → next.owed pair = none := by
    intro isLatest
    obtain ⟨_, _, rfl⟩ := Option.map_eq_some_iff.mp stepped
    simp only [(sound.unheard isLatest).2, isLatest, Option.or_none, ite_self]
  obtain ⟨⟨loop, rows⟩, isStep, isNext⟩ := Option.map_eq_some_iff.mp stepped
  have isLoop : next.loop = loop := by rw [← isNext]
  have isPublished : gapsOf pair next.published =
      gapsOf pair run.published ++ gapsOf pair rows := by
    rw [← isNext]
    exact gapsOf_recorded keeps.1 _ _
  have isLatestNext : next.latest pair =
      ((Loop.receivedAt seam pair occurrence.happening).map (laterOf (run.latest pair))).or
        (run.latest pair) := by
    rw [← isNext]
  rw [isLoop, isPublished, isLatestNext]
  by_cases begins : run.loop.phase = .starting
  · have isLatest := sound.begins begins
    obtain ⟨unheard, _⟩ := sound.unheard isLatest
    obtain ⟨window, nowMicros, isHappening, isReported⟩ := Loop.reported_of_starting begins isStep
    have reported := @entry_reportRestartGap seam pair run.loop unheard
      (gapsOf pair run.published) nowMicros window
    rw [← isReported] at reported
    rw [unowed isLatest, isLatest, isHappening]
    rcases reported with ⟨unreceived, isEmpty⟩ | ⟨latest, isReceived, accounts⟩
    · rw [unreceived, isEmpty]
      exact ⟨fun _ => ⟨rfl, rfl⟩, fun latest isLatest => by cases isLatest⟩
    · rw [isReceived]
      refine ⟨fun none => (by cases none), ?_⟩
      intro other isOther
      obtain rfl : latest = other := Option.some.inj isOther
      exact accounts
  · have begun (window : Option (Int × Int × GapCause)) (nowMicros : Int) :
        occurrence.happening ≠ .reported window nowMicros := by
      intro isReported
      rw [isReported, Loop.step, if_neg begins] at isStep
      cases isStep
    have isReceived (atMicros : Int) :
        run.loop.touch seam pair occurrence.happening = .covered atMicros ↔
          Loop.receivedAt seam pair occurrence.happening = some atMicros :=
      Loop.touch_eq_covered_iff begun atMicros
    obtain ⟨isEntry, recorded⟩ := Loop.step_touch begins isStep pair
    rw [isEntry]
    cases isLatest : run.latest pair with
    | none =>
        rw [unowed isLatest, (sound.unheard isLatest).1]
        cases received : Loop.receivedAt seam pair occurrence.happening with
        | none =>
            refine ⟨fun _ => ⟨apply_empty ?_, rfl⟩, fun latest isLatest => by cases isLatest⟩
            intro atMicros isCovered
            rw [(isReceived atMicros).mp isCovered] at received
            cases received
        | some atMicros =>
            refine ⟨fun none => (by cases none), ?_⟩
            intro other isOther
            obtain rfl : atMicros = other := Option.some.inj isOther
            rw [(isReceived atMicros).mpr received]
            exact accounts_of_empty _ atMicros
    | some latest =>
        obtain ⟨accounts, isOwed⟩ := owedNext latest isLatest
        obtain ⟨later, isLater, after⟩ := accounts.touch isReceived recorded (by
          intro owed atMicros isCovered
          have received := (isReceived atMicros).mp isCovered
          rcases isOwed owed with before | leaves
          · exact reached_of_keeps keeps begun isLatest before atMicros received
          · rw [Loop.receivedAt_of_leaves leaves] at received
            cases received) (by
          intro toMicros cause isLost
          exact heard_of_keeps keeps isLatest (Loop.happening_of_lost isLost))
        rw [isLater]
        refine ⟨fun none => (by cases none), ?_⟩
        intro other isOther
        obtain rfl : later = other := Option.some.inj isOther
        exact after

/-- **What keeps one occurrence's losses recorded keeps the pair's accounts.** -/
theorem Sound.step (sound : run.Sound seam pair) (keeps : run.Keeps seam pair occurrence)
    (stepped : run.step seam policy occurrence = some next) : next.Sound seam pair := by
  obtain ⟨unheard, heard⟩ := sound.heard_next keeps stepped
  obtain ⟨⟨loop, rows⟩, isStep, isNext⟩ := Option.map_eq_some_iff.mp stepped
  have isLoop : next.loop = loop := by rw [← isNext]
  obtain ⟨declared, begun⟩ := Loop.step_frame isStep
  refine ⟨?_, ?_, unheard, heard⟩
  · rw [isLoop, declared, sound.declared]
  · rw [isLoop]
    intro starting
    exact absurd starting begun

/-- What keeps a pair's losses recorded records them. -/
theorem Sound.records (sound : run.Sound seam pair) (keeps : run.Keeps seam pair occurrence)
    (stepped : run.step seam policy occurrence = some next) :
    run.Records seam pair occurrence.happening next := by
  obtain ⟨⟨loop, rows⟩, isStep, isNext⟩ := Option.map_eq_some_iff.mp stepped
  have isPublished : gapsOf pair next.published =
      gapsOf pair run.published ++ gapsOf pair rows := by
    rw [← isNext]
    exact gapsOf_recorded keeps.1 _ _
  have guarded := keeps
  obtain ⟨_, keeps⟩ := keeps
  have covers : ∀ leftMicros ∈ run.loop.leavesAt occurrence.happening,
      ∀ latest ∈ run.latest pair, Covers (gapsOf pair next.published) latest leftMicros := by
    intro leftMicros leaves latest isLatest
    have accounts := sound.heard latest isLatest
    rw [isPublished]
    cases isHappening : occurrence.happening with
    | lost nowMicros =>
        rw [isHappening] at leaves isStep
        obtain rfl := Option.some.inj leaves
        have begun : run.loop.phase ≠ .starting :=
          Loop.begun_of_step isStep (by intro window otherMicros isReported; cases isReported)
        exact (accounts.lose (heard_of_keeps guarded isLatest isHappening)
          (Loop.step_touch begun isStep pair).2).2
    | archiveFailed nowMicros =>
        rw [isHappening] at leaves keeps
        obtain rfl := Option.some.inj leaves
        have isSome : (run.latest pair).isSome := by rw [isLatest]; rfl
        exact Accounts.covers_of_le accounts.reaches ((reached_iff isLatest).mp (keeps isSome))
    | turned nowMicros succeeds askedMicros =>
        rw [isHappening] at leaves keeps
        simp only [Loop.leavesAt, Option.mem_def, Option.ite_none_right_eq_some,
          Option.some.injEq] at leaves
        obtain ⟨⟨isDue, failed⟩, rfl⟩ := leaves
        simp only [isDue, KeepsTurn] at keeps
        have isSome : (run.latest pair).isSome := by rw [isLatest]; rfl
        exact Accounts.covers_of_le accounts.reaches
          ((reached_iff isLatest).mp (keeps failed isSome))
    | reported | page | connectFailed | connected | frame | idle | cancelled =>
        rw [isHappening] at leaves
        cases leaves
  refine ⟨fun leftMicros leaves latest isLatest => ⟨?_, covers _ leaves _ isLatest⟩, ?_⟩
  · intro later
    obtain ⟨gap, isGap, starts, _⟩ := covers _ leaves _ isLatest latest le_rfl later
    exact ⟨gap, isGap, starts⟩
  · intro askedMicros asks since isOwed
    obtain ⟨latest, isLatest⟩ : ∃ latest, run.latest pair = some latest := by
      cases isLatest : run.latest pair with
      | some latest => exact ⟨latest, rfl⟩
      | none =>
          rw [(sound.unheard isLatest).2] at isOwed
          cases isOwed
    have accounts := sound.heard latest isLatest
    have isSome : (run.owed pair).isSome := by rw [Option.mem_def.mp isOwed]; rfl
    rw [isPublished]
    cases isHappening : occurrence.happening with
    | connected openedMicros sent atMicros =>
        rw [isHappening] at asks keeps isStep
        simp only [Loop.asksAt, Option.mem_def, Option.ite_none_right_eq_some,
          Option.some.injEq] at asks
        obtain ⟨⟨isDeclared, isSent⟩, rfl⟩ := asks
        have begun : run.loop.phase ≠ .starting :=
          Loop.begun_of_step isStep (by intro window nowMicros isReported; cases isReported)
        have recorded := (Loop.step_touch begun isStep pair).2
        simp only [Loop.touch, if_pos isDeclared] at recorded
        apply accounts.asked_covers recorded _ since isOwed
        exact (keeps isSome isSent).imp_right (reached_iff isLatest).mp
    | turned nowMicros succeeds atMicros =>
        rw [isHappening] at asks keeps
        simp only [Loop.asksAt, Option.mem_def, Option.ite_none_right_eq_some,
          Option.some.injEq] at asks
        obtain ⟨⟨isDue, succeeded, _⟩, rfl⟩ := asks
        simp only [isDue, KeepsTurn] at keeps
        exact Accounts.covers_of_le (accounts.owing since isOwed)
          ((reached_iff isLatest).mp (keeps isSome succeeded))
    | reported | page | connectFailed | archiveFailed | frame | idle | lost | cancelled =>
        rw [isHappening] at asks
        cases asks

/-- **A lost session is recorded.**  In every run of the loop whose occurrences all keep a pair's
losses recorded, the gaps in the record cover the pair from its last received moment to where the
session's loop is left, and from there to where its subscription is sent again. -/
theorem lost_session_recorded (seam : Seam) (policy : ConnectionPolicy) (clipped : Clipped)
    (pair : Pair) (occurrences : List Occurrence) (occurrence : Occurrence) (run next : LoopRun)
    (guarded : Guarded (LoopRun.step seam policy)
      (fun run occurrence => run.Keeps seam pair occurrence) (occurrences ++ [occurrence])
      (start seam clipped))
    (ran : exec (LoopRun.step seam policy) occurrences (start seam clipped) = some run)
    (stepped : run.step seam policy occurrence = some next) :
    run.Records seam pair occurrence.happening next := by
  have preserved (before : LoopRun) (occurrence : Occurrence) (after : LoopRun)
      (sound : before.Sound seam pair) (keeps : before.Keeps seam pair occurrence)
      (stepped : before.step seam policy occurrence = some after) : after.Sound seam pair :=
    sound.step keeps stepped
  have sound := invariant_of_guarded preserved (sound_start seam clipped pair) guarded.of_append ran
  exact sound.records (guarded.drop ran).1 stepped

/-- A venue with a keepalive every twenty seconds, and a pair heard at 10. -/
def heardOnce : List Occurrence :=
  [⟨.reported none 0, []⟩, ⟨.connected 0 [teslaTrades] 0, []⟩, ⟨.turned 5 true 5, []⟩,
    ⟨.frame [] 10, []⟩]

/-- The connection closes, and the next one is open a little later. -/
def closedAndAsked : List Occurrence :=
  heardOnce ++ [⟨.turned 15 true 15, []⟩, ⟨.lost 20, []⟩]

/-- Where a run of the one pair's venue arrives. -/
def arrived (occurrences : List Occurrence) : LoopRun :=
  (exec (LoopRun.step quietSeam (.keepAliveOnly 20)) occurrences
    (start quietSeam .continuous)).getD (start quietSeam .continuous)

/-- A session that closes is recorded to the moment the next one asks. -/
theorem lost_session_recorded_closed :
    (arrived closedAndAsked).Records quietSeam teslaTrades (.connected 24 [teslaTrades] 25)
      (arrived (closedAndAsked ++ [⟨.connected 24 [teslaTrades] 25, []⟩])) := by
  apply lost_session_recorded quietSeam (.keepAliveOnly 20) .continuous teslaTrades closedAndAsked
    ⟨.connected 24 [teslaTrades] 25, []⟩
  · decide +kernel
  · rfl
  · rfl

/-- **A keepalive that cannot be sent loses the session without a gap.** -/
theorem keepalive_failure_unrecorded :
    ¬ ∀ (occurrences : List Occurrence) (occurrence : Occurrence) (run next : LoopRun),
      exec (LoopRun.step quietSeam (.keepAliveOnly 20)) occurrences
        (start quietSeam .continuous) = some run →
      run.step quietSeam (.keepAliveOnly 20) occurrence = some next →
        run.Records quietSeam teslaTrades occurrence.happening next := by
  intro recorded
  have records := recorded heardOnce ⟨.turned 20000000 false 20000000, []⟩ _ _ rfl rfl
  obtain ⟨gap, isGap, _⟩ := (records.leaves 20000000 rfl 10 rfl).1 (by decide)
  cases isGap

end LoopRun

end Capture
end Datawatch
