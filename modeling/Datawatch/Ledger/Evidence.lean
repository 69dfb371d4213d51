import Datawatch.Ledger.Accounting
import Datawatch.Ledger.Known

/-!
# A lost reach is recorded on evidence

What a ledger knows of an account's times is what its record holds.  So a fill history is
recorded lost on what was answered, where no judgement is made of an account with funding
payments and no fill.
-/

namespace Datawatch
namespace Ledger

open Library Library.Outcome Library.Transition Segments Wire Record Replay

namespace LedgerRun

variable (venue : AccountVenue) (json : Json) (about : Text → Kind × Option Int)

/-- The earliest fill recorded of an account is later than a funding payment held of it. -/
def FundedBefore (record : List RecordEntry) (account : Account) : Prop :=
  timesOf venue record account .fills ≠ [] ∧
    ∃ paid ∈ timesOf venue record account .fundingPayments,
      ∀ fill ∈ timesOf venue record account .fills, paid < fill

/-- The last page recorded was the first of a walk of the account's fills, full, and started
after every fill recorded before it. -/
def StartsBeyond (record : List RecordEntry) (account : Account) : Prop :=
  ∃ earlier page gap first last rows, record = earlier ++ [.page page true, gap] ∧
    inScopes venue.venue account [.fills] page ∧
    venue.pageSpan page.payload = some (first, last, rows) ∧ venue.pageSize .fills ≤ rows ∧
    timesOf venue earlier account .fills ≠ [] ∧
    ∀ held ∈ timesOf venue earlier account .fills, held < first

/-- Wherever a record says an account's fills are lost, what was recorded before proves it. -/
def LostOnEvidence (record : List RecordEntry) : Prop :=
  ∀ front payload reach back account, record = front ++ .reach payload reach :: back →
    reach.kind = .fills → reach.reach = .lost →
    inScopes venue.venue account [.accounts] payload →
      FundedBefore venue front account ∨ StartsBeyond venue front account

/-- A record of honest payloads that says nothing is lost without evidence. -/
structure Kept (record : List RecordEntry) : Prop where
  honest : ∀ entry ∈ record, Honest venue json about entry.payload
  lost : LostOnEvidence venue record

/-- What a process knows is what is recorded, and nothing of that is lost without evidence. -/
structure Known (run : LedgerRun) : Prop extends Knows venue json about run where
  lost : LostOnEvidence venue run.record

section Record

variable {venue json about} {record : List RecordEntry} {run : LedgerRun}

theorem Known.kept (known : Known venue json about run) : Kept venue json about run.record :=
  ⟨known.honest, known.lost⟩

/-- A record that says nothing is lost without evidence still does with one more entry, where
that entry has it. -/
theorem LostOnEvidence.concat (lost : LostOnEvidence venue record) {entry : RecordEntry}
    (evidence : ∀ payload reach account, entry = .reach payload reach → reach.kind = .fills →
      reach.reach = .lost → inScopes venue.venue account [.accounts] payload →
        FundedBefore venue record account ∨ StartsBeyond venue record account) :
    LostOnEvidence venue (record ++ [entry]) := by
  intro front payload reach back account isRecord ofFills isLost inScope
  rcases List.eq_nil_or_concat back with rfl | ⟨earlier, last, rfl⟩
  · obtain ⟨rfl, isEntry⟩ := List.append_inj' isRecord rfl
    obtain rfl := List.singleton_inj.mp isEntry
    exact evidence payload reach account rfl ofFills isLost inScope
  · rw [List.concat_eq_append, ← List.cons_append, ← List.append_assoc] at isRecord
    obtain ⟨isFront, _⟩ := List.append_inj' isRecord rfl
    exact lost front payload reach earlier account isFront ofFills isLost inScope

theorem Kept.concat (kept : Kept venue json about record) {entry : RecordEntry}
    (honest : Honest venue json about entry.payload)
    (evidence : ∀ payload reach account, entry = .reach payload reach → reach.kind = .fills →
      reach.reach = .lost → inScopes venue.venue account [.accounts] payload →
        FundedBefore venue record account ∨ StartsBeyond venue record account) :
    Kept venue json about (record ++ [entry]) := by
  refine ⟨?_, kept.lost.concat evidence⟩
  intro other member
  rcases List.mem_append.mp member with held | new
  · exact kept.honest other held
  · rwa [List.mem_singleton.mp new]

/-- An entry of no event kind changes nothing that is known. -/
theorem Known.concat (known : Known venue json about run) {entry : RecordEntry}
    (kept : Kept venue json about (run.record ++ [entry]))
    (noEvent : ∀ kind ∈ eventKinds, entry.payload.kind ≠ kind.asStr) (seq : UInt64)
    (reached : List (Account × Kind)) :
    Known venue json about
      { run with nextSeq := seq, record := run.record ++ [entry], reached := reached } := by
  refine ⟨known.toKnows.concat ?_ noEvent seq reached, kept.lost⟩
  exact kept.honest entry (List.mem_append_right _ (List.mem_singleton_self _))

/-- A process that loads an account knows what is recorded of it. -/
theorem load_leaves (known : Known venue json about run) {account : ResolvedAccount}
    (ours : account.venue = venue.venue) (reads : Bool) :
    Leaves (fun next => Known venue json about next ∧ account.alias_ ∈ next.loaded)
      (fun left => Kept venue json about left.record)
      (run.load venue json account reads) := by
  have leaves := known.toKnows.load ours reads
  cases isLoad : run.load venue json account reads with
  | ok next =>
      rw [isLoad] at leaves
      exact ⟨⟨leaves.1, by rw [leaves.2.2]; exact known.lost⟩, leaves.2.1⟩
  | error left =>
      rw [isLoad, leaves_error] at leaves
      rw [leaves_error, leaves]
      exact known.kept

/-- A record keeps well with a reach that has evidence. -/
theorem Kept.reach (kept : Kept venue json about record)
    (generated : ∀ payload, payload.origin = .generated → Honest venue json about payload)
    {account : ResolvedAccount} {payload : Payload} {row : EventsReach}
    (isGenerated : Generated account .accounts payload)
    (evidence : row.kind = .fills → row.reach = .lost →
      FundedBefore venue record account.alias_ ∨ StartsBeyond venue record account.alias_) :
    Kept venue json about (record ++ [.reach payload row]) := by
  apply @Kept.concat _ _ _ _ kept (.reach payload row) (generated payload isGenerated.origin)
  intro other otherRow name isEntry ofFills isLost inScope
  obtain ⟨rfl, rfl⟩ := RecordEntry.reach.inj isEntry
  obtain ⟨address, isOther, _, sameAccount, _⟩ := inScopes_iff.mp inScope
  rw [isGenerated.address] at isOther
  obtain rfl := PayloadAddress.account.inj isOther
  obtain rfl : account.alias_ = name := Token.eq_of_text sameAccount
  exact evidence ofFills isLost

/-- A reach is recorded of what has evidence. -/
theorem recordReach_leaves (known : Known venue json about run)
    (generated : ∀ payload, payload.origin = .generated → Honest venue json about payload)
    {account : ResolvedAccount} {kind : Kind} {reach : Reach}
    (evidence : kind = .fills → reach = .lost →
      FundedBefore venue run.record account.alias_ ∨
        StartsBeyond venue run.record account.alias_)
    (nowMicros : Int) (commit : Commit) :
    Leaves (fun next => Known venue json about next ∧ Changes account.alias_ [] run next ∧
        (account.alias_, kind) ∈ next.reached)
      (fun left => Kept venue json about left.record)
      (run.recordReach json account kind reach nowMicros commit) := by
  apply leaves_recordReach nowMicros commit
  · intro payload isGenerated
    refine ⟨known.concat (known.kept.reach generated isGenerated evidence)
      (isGenerated.noEvent (.inl rfl)) _ _, ⟨rfl, List.subset_cons_self _ _, fun _ _ _ => rfl,
        fun _ _ isKnown => isKnown⟩, List.mem_cons_self⟩
  · rintro record (rfl | ⟨payload, isGenerated, rfl⟩) left isLeft
    · rw [isLeft]
      exact known.kept
    · rw [isLeft]
      exact known.kept.reach generated isGenerated evidence

/-- A record keeps well with an honest page. -/
theorem Kept.page (kept : Kept venue json about record) {payload : Payload}
    (honest : Honest venue json about payload) (firstPage : Bool) :
    Kept venue json about (record ++ [.page payload firstPage]) := by
  apply @Kept.concat _ _ _ _ kept (.page payload firstPage) honest
  intro _ _ _ isEntry
  cases isEntry

/-- A page recorded and not yet taken in: once it is, what is known is what is recorded. -/
theorem Known.page (known : Known venue json about run) {account : ResolvedAccount}
    (ours : account.venue = venue.venue) (isLoaded : account.alias_ ∈ run.loaded) {kind : Kind}
    (isEvent : kind ∈ eventKinds) {channel : Text} {page : List UInt8} {nowMicros : Int}
    {seq : UInt64} (well : WellPage venue json about kind
      (pagePayload account kind channel page nowMicros seq)) (firstPage : Bool) :
    let next := { run with
      nextSeq := run.nextSeq + 1
      record := run.record ++
        [.page (pagePayload account kind channel page nowMicros seq) firstPage] }
    (venue.pageSpan page = none → Known venue json about next) ∧
      ∀ first last rows, venue.pageSpan page = some (first, last, rows) →
        Known venue json about (next.extend account kind first last) := by
  intro next
  have lost : LostOnEvidence venue next.record :=
    (known.kept.page well.honest firstPage).lost
  have taken := known.toKnows.page ours isLoaded isEvent well firstPage
  exact ⟨fun isEmpty => ⟨taken.1 isEmpty, lost⟩,
    fun first last rows isSpan => ⟨taken.2 first last rows isSpan, lost⟩⟩

/-- A first page that starts beyond what is recorded is judged lost on that evidence. -/
theorem judgeFirst_leaves {account : ResolvedAccount} {kind : Kind} {first last : Int}
    (known : Known venue json about (run.extend account kind first last))
    (generated : ∀ payload, payload.origin = .generated → Honest venue json about payload)
    {recorded : Option Int} {firstPage pageFull : Bool}
    (beyond : ∀ newest, recorded = some newest → firstPage = true →
      beyondReach newest first pageFull = true → kind = .fills →
        ∀ gap, StartsBeyond venue (run.record ++ [gap]) account.alias_)
    (nowMicros : Int) (commits : Commits) :
    Leaves (fun next => Known venue json about (next.extend account kind first last) ∧
        Changes account.alias_ [] run next)
      (fun left => Kept venue json about left.record)
      (run.judgeFirst json account kind recorded firstPage pageFull first nowMicros commits) := by
  have unjudged : Leaves (fun next => Known venue json about (next.extend account kind first last) ∧
      Changes account.alias_ [] run next)
      (fun left : LedgerRun => Kept venue json about left.record) (.ok run) :=
    ⟨known, Changes.refl _ _ _⟩
  have keptGap : ∀ payload gap, Generated account .gaps payload →
      Kept venue json about (run.record ++ [.gap payload gap]) := by
    intro payload gap isGenerated
    apply @Kept.concat _ _ _ _ known.kept (.gap payload gap)
      (generated payload isGenerated.origin)
    intro _ _ _ isEntry
    cases isEntry
  unfold judgeFirst
  cases recorded with
  | none => exact unjudged
  | some newest =>
      simp only
      split
      · rename_i isBeyond
        refine @Leaves.bind _ _ _ (fun next => Known venue json about
          (next.extend account kind first last) ∧ Changes account.alias_ [] run next ∧
            (kind = .fills → StartsBeyond venue next.record account.alias_)) _ _ _ _ ?_ ?_
        · apply leaves_recordGapFor nowMicros commits.gap
          · intro payload isGenerated
            refine ⟨?_, ⟨rfl, List.Subset.refl _, fun _ _ _ => rfl, fun _ _ isKnown => isKnown⟩,
              fun ofFills => beyond newest rfl isBeyond.1 isBeyond.2 ofFills _⟩
            exact @Known.concat _ _ _ _ known (.gap payload _) (keptGap _ _ isGenerated)
              (isGenerated.noEvent (.inr rfl)) _ run.reached
          · rintro record (rfl | ⟨payload, isGenerated, rfl⟩) left isLeft
            · rw [isLeft]
              exact known.kept
            · rw [isLeft]
              exact keptGap payload _ isGenerated
        · rintro next ⟨isKnown, changes, startsBeyond⟩
          have keptReach : ∀ payload (row : EventsReach), row.kind = kind →
              Generated account .accounts payload →
                Kept venue json about (next.record ++ [.reach payload row]) := by
            intro payload row ofKind isGenerated
            apply isKnown.kept.reach generated isGenerated
            exact fun ofFills _ => .inr (startsBeyond (ofKind ▸ ofFills))
          apply leaves_recordReach nowMicros commits.reach
          · intro payload isGenerated
            refine ⟨?_, changes.trans ⟨rfl, List.subset_cons_self _ _, fun _ _ _ => rfl,
              fun _ _ isKnown => isKnown⟩⟩
            exact @Known.concat _ _ _ _ isKnown (.reach payload _) (keptReach _ _ rfl isGenerated)
              (isGenerated.noEvent (.inl rfl)) _ _
          · rintro record (rfl | ⟨payload, isGenerated, rfl⟩) left isLeft
            · rw [isLeft]
              exact isKnown.kept
            · rw [isLeft]
              exact keptReach payload _ rfl isGenerated
      · exact unjudged

variable (venue) in
/-- Whether the first answer is a page with rows. -/
def answersRows : List Answer → Bool
  | .answered page _ _ :: _ => (venue.pageSpan page).isSome
  | _ => false

/-- A full first page that starts after the newest fill known starts beyond what is recorded. -/
theorem startsBeyond_of_page (known : Known venue json about run) {account : ResolvedAccount}
    (ours : account.venue = venue.venue) (isLoaded : account.alias_ ∈ run.loaded)
    {channel : Text} {page : List UInt8} {nowMicros : Int} {seq : UInt64} {first last : Int}
    {rows : Nat} (isSpan : venue.pageSpan page = some (first, last, rows))
    (isFull : venue.pageSize .fills ≤ rows) {newest : Int}
    (isNewest : run.newest account.alias_ .fills = some newest) (isBeyond : newest < first)
    (gap : RecordEntry) :
    StartsBeyond venue
      (run.record ++ [.page (pagePayload account .fills channel page nowMicros seq) true] ++
        [gap]) account.alias_ := by
  have greatest := (known.loaded _ isLoaded .fills (by decide)).2
  rw [isNewest] at greatest
  refine ⟨run.record, pagePayload account .fills channel page nowMicros seq, gap, first, last,
    rows, List.append_assoc _ _ _, (inScopes_pagePayload ours).mpr ⟨rfl, rfl⟩, isSpan, isFull,
    List.ne_nil_of_mem greatest.1, ?_⟩
  intro held isHeld
  exact (greatest.2 held isHeld).trans_lt isBeyond

/-- A walk keeps what is known, and knows its kind's earliest time where its first answer has
rows, and only what it knew where it has none. -/
theorem walkPages_leaves (known : Known venue json about run)
    (generated : ∀ payload, payload.origin = .generated → Honest venue json about payload)
    {account : ResolvedAccount} (ours : account.venue = venue.venue)
    (isLoaded : account.alias_ ∈ run.loaded) {kind : Kind} (isEvent : kind ∈ eventKinds)
    {channel : Text} {answers : List Answer}
    (well : ∀ page nowMicros commits, .answered page nowMicros commits ∈ answers → ∀ seq,
      WellPage venue json about kind (pagePayload account kind channel page nowMicros seq))
    {recorded : Option Int} {firstPage : Bool}
    (opening : firstPage = true → recorded = run.newest account.alias_ kind) (start : Int) :
    Leaves (fun next => Known venue json about next ∧
        Changes account.alias_ [kind] run next ∧
        (answersRows venue answers → next.earliest account.alias_ kind ≠ none) ∧
        (¬ answersRows venue answers →
          next.earliest account.alias_ kind = run.earliest account.alias_ kind))
      (fun left => Kept venue json about left.record)
      (run.walkPages venue json account kind channel recorded answers firstPage start) := by
  induction answers generalizing run firstPage start with
  | nil => exact known.kept
  | cons answer answers inductionHypothesis =>
      cases answer with
      | refused => exact ⟨known, Changes.refl _ _ _, by simp [answersRows], fun _ => rfl⟩
      | answered page nowMicros commits =>
          have wellPage := well page nowMicros commits List.mem_cons_self run.nextSeq
          obtain ⟨whenEmpty, whenRows⟩ := known.page ours isLoaded isEvent wellPage firstPage
          rw [walkPages]
          refine @Leaves.bind _ _ _ (fun next => next = { run with
            nextSeq := run.nextSeq + 1
            record := run.record ++ [.page (pagePayload account kind channel page nowMicros
              run.nextSeq) firstPage] }) _ _ _ _ ?_ ?_
          · apply leaves_append commits.page
            · rfl
            · exact known.kept
            · exact known.kept.page wellPage.honest firstPage
          · rintro next rfl
            cases isSpan : venue.pageSpan page with
            | none =>
                refine ⟨whenEmpty isSpan, ⟨rfl, List.Subset.refl _, fun _ _ _ => rfl,
                  fun _ _ isKnown => isKnown⟩, ?_, fun _ => rfl⟩
                simp [answersRows, isSpan]
            | some span =>
                obtain ⟨first, last, rows⟩ := span
                refine Leaves.bind (judgeFirst_leaves (whenRows first last rows isSpan) generated
                  ?_ nowMicros commits) ?_
                · intro newest isRecorded isFirst isBeyond ofFills gap
                  subst ofFills
                  subst isFirst
                  rw [opening rfl] at isRecorded
                  simp only [beyondReach, Bool.and_eq_true, decide_eq_true_eq] at isBeyond
                  exact startsBeyond_of_page known ours isLoaded isSpan isBeyond.1 isRecorded
                    isBeyond.2 gap
                · rintro judged ⟨isKnown, changes⟩
                  have walked : Changes account.alias_ [kind] run
                      (judged.extend account kind first last) := by
                    refine (Changes.mono ?_ (List.nil_subset _)).trans changes_extend
                    exact ⟨changes.loaded, changes.reached, changes.earliest, changes.known⟩
                  have taken : (judged.extend account kind first last).earliest
                      account.alias_ kind ≠ none := by
                    simp [extend]
                  have ends : Known venue json about (judged.extend account kind first last) ∧
                      Changes account.alias_ [kind] run
                        (judged.extend account kind first last) ∧
                      (answersRows venue (.answered page nowMicros commits :: answers) →
                        (judged.extend account kind first last).earliest account.alias_ kind ≠
                          none) ∧
                      (¬ answersRows venue (.answered page nowMicros commits :: answers) →
                        (judged.extend account kind first last).earliest account.alias_ kind =
                          run.earliest account.alias_ kind) := by
                    refine ⟨isKnown, walked, fun _ => taken, fun noRows => ?_⟩
                    simp [answersRows, isSpan] at noRows
                  dsimp only
                  split
                  · exact ends
                  · split
                    · exact ends
                    · apply (inductionHypothesis isKnown ?_ ?_ ?_ last).imp
                      · rintro next ⟨nextKnown, nextChanges, _, _⟩
                        refine ⟨nextKnown, walked.trans nextChanges,
                          fun _ => nextChanges.known _ _ taken, fun noRows => ?_⟩
                        simp [answersRows, isSpan] at noRows
                      · rw [walked.loaded]
                        exact isLoaded
                      · intro other moment made member
                        exact well other moment made (List.mem_cons_of_mem _ member)
                      · intro isFirst
                        cases isFirst

/-! ## A pass -/

variable (venue) in
/-- Whether a pass's first ask of a kind is answered with rows. -/
def asksRows (pass : AccountPass) (kind : Kind) : Bool :=
  (venue.eventsChannel kind).isSome && answersRows venue (pass.asks kind)

theorem walk_leaves (known : Known venue json about run)
    (generated : ∀ payload, payload.origin = .generated → Honest venue json about payload)
    {pass : AccountPass} (well : WellAnswered venue json about pass)
    (isLoaded : pass.account.alias_ ∈ run.loaded) (kind : Kind) (isEvent : kind ∈ eventKinds) :
    Leaves (fun next => Known venue json about next ∧
        Changes pass.account.alias_ [kind] run next ∧
        (asksRows venue pass kind → next.earliest pass.account.alias_ kind ≠ none) ∧
        (¬ asksRows venue pass kind → next.earliest pass.account.alias_ kind =
          run.earliest pass.account.alias_ kind))
      (fun left => Kept venue json about left.record)
      (run.walk venue json pass.account kind (pass.asks kind)) := by
  unfold walk asksRows
  cases served : venue.eventsChannel kind with
  | none => exact ⟨known, Changes.refl _ _ _, by simp, fun _ => rfl⟩
  | some channel =>
      simp only [Option.isSome_some, Bool.true_and]
      exact walkPages_leaves known generated well.ours isLoaded isEvent
        (well.pages kind isEvent channel served) (fun _ => rfl) _

/-- An account whose fills are judged already, or of which some fill is known, or no funding
payment is. -/
def Judgeable (run : LedgerRun) (account : Account) : Prop :=
  (account, Kind.fills) ∈ run.reached ∨ run.earliest account .fills ≠ none ∨
    run.earliest account .fundingPayments = none

theorem Judgeable.of_changes {account : Account} {kinds : List Kind} {after : LedgerRun}
    (judgeable : Judgeable run account) (changes : Changes account kinds run after)
    (notFunding : Kind.fundingPayments ∉ kinds) :
    Judgeable after account := by
  rcases judgeable with judged | filled | unfunded
  · exact .inl (changes.reached judged)
  · exact .inr (.inl (changes.known _ _ filled))
  · refine .inr (.inr ?_)
    rw [changes.earliest account .fundingPayments fun _ => notFunding]
    exact unfunded

/-- Fills judged lost from what is known are lost on evidence. -/
theorem fundedBefore_of_fillsReach (known : Known venue json about run) {account : Account}
    (isLoaded : account ∈ run.loaded)
    (judgeable : run.earliest account .fills ≠ none ∨
      run.earliest account .fundingPayments = none)
    (isLost : fillsReach (run.earliest account .fills) (run.earliest account .fundingPayments) =
      .lost) :
    FundedBefore venue run.record account := by
  have fills := (known.loaded account isLoaded .fills (by decide)).1
  have funding := (known.loaded account isLoaded .fundingPayments (by decide)).1
  cases isFill : run.earliest account .fills with
  | none =>
      have unfunded := judgeable.resolve_left (not_not.mpr isFill)
      rw [isFill, unfunded] at isLost
      cases isLost
  | some fill =>
      cases isFunding : run.earliest account .fundingPayments with
      | none =>
          rw [isFill, isFunding] at isLost
          cases isLost
      | some paid =>
          rw [isFill, isFunding] at isLost
          have paidBefore : paid < fill := by
            by_contra notBefore
            simp [fillsReach, notBefore] at isLost
          rw [isFill] at fills
          rw [isFunding] at funding
          refine ⟨List.ne_nil_of_mem fills.1, paid, funding.1, ?_⟩
          intro held isHeld
          exact paidBefore.trans_le (fills.2 held isHeld)

theorem judge_leaves (known : Known venue json about run)
    (generated : ∀ payload, payload.origin = .generated → Honest venue json about payload)
    {pass : AccountPass} (isLoaded : pass.account.alias_ ∈ run.loaded)
    (judgeable : Judgeable run pass.account.alias_) (kind : Kind) :
    Leaves (fun next => Known venue json about next ∧ Changes pass.account.alias_ [] run next)
      (fun left => Kept venue json about left.record)
      (run.judge json pass kind) := by
  unfold judge
  split
  · exact ⟨known, Changes.refl _ _ _⟩
  · rename_i unjudged
    split
    · apply (recordReach_leaves known generated ?_ pass.nowMicros (pass.judged kind)).imp
      · rintro next ⟨isKnown, changes, _⟩
        exact ⟨isKnown, changes⟩
      · rintro rfl isLost
        exact .inl (fundedBefore_of_fillsReach known isLoaded
          (judgeable.resolve_left unjudged) isLost)
    · exact ⟨known, Changes.refl _ _ _⟩

variable (venue json) in
/-- A pass whose account's history loads knows one of the account's fills, or is answered with
one, unless their reach was judged before or no funding payment is known or answered. -/
def FillsWithFunding (run : LedgerRun) (pass : AccountPass) : Prop :=
  ∀ loaded, run.load venue json pass.account pass.reads = .ok loaded →
    (pass.account.alias_, Kind.fills) ∈ loaded.reached ∨
      loaded.earliest pass.account.alias_ .fills ≠ none ∨ asksRows venue pass .fills ∨
      (loaded.earliest pass.account.alias_ .fundingPayments = none ∧
        ¬ asksRows venue pass .fundingPayments)

/-- Funding walked before fills, and both before they are judged, leave an account judgeable. -/
theorem walks_leaves (known : Known venue json about run)
    (generated : ∀ payload, payload.origin = .generated → Honest venue json about payload)
    {pass : AccountPass} (well : WellAnswered venue json about pass)
    (isLoaded : pass.account.alias_ ∈ run.loaded)
    (outcome : (pass.account.alias_, Kind.fills) ∈ run.reached ∨
      run.earliest pass.account.alias_ .fills ≠ none ∨ asksRows venue pass .fills ∨
      (run.earliest pass.account.alias_ .fundingPayments = none ∧
        ¬ asksRows venue pass .fundingPayments)) :
    Leaves (fun next => Known venue json about next ∧ pass.account.alias_ ∈ next.loaded ∧
        Judgeable next pass.account.alias_)
      (fun left => Kept venue json about left.record)
      (eventKinds.foldlM (fun run kind => walk venue json pass.account kind (pass.asks kind) run)
        run) := by
  simp only [eventKinds, List.foldlM_cons, List.foldlM_nil]
  refine Leaves.bind (walk_leaves known generated well isLoaded .fundingPayments (by decide)) ?_
  rintro funded ⟨fundedKnown, fundedChanges, _, unfunded⟩
  have fundedLoaded : pass.account.alias_ ∈ funded.loaded := by
    rwa [fundedChanges.loaded]
  refine Leaves.bind (walk_leaves fundedKnown generated well fundedLoaded .fills (by decide)) ?_
  rintro filled ⟨filledKnown, filledChanges, withFills, _⟩
  have filledLoaded : pass.account.alias_ ∈ filled.loaded := by
    rwa [filledChanges.loaded]
  have judgeable : Judgeable filled pass.account.alias_ := by
    rcases outcome with reached | isKnown | answered | ⟨noFunding, notAnswered⟩
    · exact .inl (filledChanges.reached (fundedChanges.reached reached))
    · exact .inr (.inl (filledChanges.known _ _ (fundedChanges.known _ _ isKnown)))
    · exact .inr (.inl (withFills answered))
    · refine .inr (.inr ?_)
      rw [filledChanges.earliest _ _ fun _ => by decide, unfunded notAnswered]
      exact noFunding
  refine Leaves.bind
    (walk_leaves filledKnown generated well filledLoaded .ledgerUpdates (by decide)) ?_
  rintro walked ⟨walkedKnown, walkedChanges, _, _⟩
  refine ⟨walkedKnown, ?_, judgeable.of_changes walkedChanges (by decide)⟩
  rwa [walkedChanges.loaded]

/-- One account's part of a pass keeps what is known. -/
theorem events_leaves (known : Known venue json about run)
    (generated : ∀ payload, payload.origin = .generated → Honest venue json about payload)
    {pass : AccountPass} (well : WellAnswered venue json about pass)
    (judged : FillsWithFunding venue json run pass) :
    Leaves (Known venue json about) (fun left => Kept venue json about left.record)
      (run.events venue json pass) := by
  unfold events
  have leaves := load_leaves known well.ours pass.reads
  cases isLoad : run.load venue json pass.account pass.reads with
  | error left =>
      rw [isLoad] at leaves
      exact leaves
  | ok loaded =>
      rw [isLoad] at leaves
      change Leaves _ _ (eventKinds.foldlM (fun run kind => walk venue json pass.account kind
        (pass.asks kind) run) loaded >>= fun run =>
          eventKinds.foldlM (fun run kind => judge json pass kind run) run)
      refine Leaves.bind (walks_leaves leaves.1 generated well leaves.2 (judged loaded isLoad)) ?_
      rintro walked isWalked
      apply (@Leaves.foldlM _ _ _ (fun next => Known venue json about next ∧
        pass.account.alias_ ∈ next.loaded ∧ Judgeable next pass.account.alias_) _ _ _ ?_ _
          isWalked).imp
      · exact fun next isNext => isNext.1
      · rintro kind _ next ⟨nextKnown, isLoaded, judgeable⟩
        apply (judge_leaves nextKnown generated isLoaded judgeable kind).imp
        rintro after ⟨isKnown, changes⟩
        refine ⟨isKnown, ?_, judgeable.of_changes changes List.not_mem_nil⟩
        rwa [changes.loaded]

variable (venue json about) in
/-- What a run keeps: its record, and what its process knows while it runs. -/
def KeptWell (run : LedgerRun) : Prop :=
  Kept venue json about run.record ∧ (run.running = true → Known venue json about run)
variable (venue json) in
/-- A step's pass knows a fill wherever it knows a funding payment. -/
def StepFunded (run : LedgerRun) : Step → Prop
  | .events pass => FillsWithFunding venue json run pass
  | .restart _ => True

/-- One step keeps what a run keeps. -/
theorem keptWell_step (well : KeptWell venue json about run)
    (generated : ∀ payload, payload.origin = .generated → Honest venue json about payload)
    {action : Step} (answered : StepAnswered venue json about run action)
    (funded : StepFunded venue json run action) {next : LedgerRun}
    (stepped : run.step venue json action = some next) : KeptWell venue json about next := by
  refine @keeps_step venue json run (Known venue json about) (Kept venue json about)
    (fun _ known => known.kept) ?_ action ?_ well next stepped
  · intro nowMicros kept
    exact ⟨knows_of_nothing_loaded kept.honest _, kept.lost⟩
  · rintro pass rfl known
    exact events_leaves known generated answered funded

end Record

/-- **Lost is recorded on evidence.**  Across every run of passes and restarts, whatever is
refused, empty or answered, a record says an account's fills are lost only after its earliest
fill is later than a funding payment, or a full first page started after every fill recorded,
where each pass that judges an account with a funding payment knows one of its fills. -/
theorem lostOnEvidence_of_fillsWithFunding
    (generated : ∀ payload, payload.origin = .generated → Honest venue json about payload)
    (steps : List Step) (final : LedgerRun)
    (answered : Guarded (step venue json) (StepAnswered venue json about) steps {})
    (funded : Guarded (step venue json) (StepFunded venue json) steps {})
    (run : exec (step venue json) steps {} = some final) :
    LostOnEvidence venue final.record := by
  have lost : LostOnEvidence venue [] := by
    intro front payload reach back account isRecord
    simp at isRecord
  have start : KeptWell venue json about {} :=
    ⟨⟨by simp, lost⟩, fun _ => ⟨knows_of_nothing_loaded (by simp) 0, lost⟩⟩
  have kept : KeptWell venue json about final :=
    invariant_of_guarded (fun _ _ _ well guards stepped =>
      keptWell_step well generated guards.1 guards.2 stepped) start (answered.and funded) run
  exact kept.1.lost

/-- A row of a kind at a moment. -/
def rowAt (kind : Kind) (moment : UInt8) : Envelope :=
  if kind = .fills then fillAt moment.toNat moment.toUInt64 .bid 1 100 0
  else
    { fillAt moment.toNat moment.toUInt64 .bid 1 100 0 with
      event := .fundingPayment ⟨none, eth, 1, []⟩ }

/-- A venue whose pages are the moments of their rows, two to a full page. -/
def momentVenue : AccountVenue where
  venue := hyperliquid
  eventsChannel kind := some kind.asStr
  pageSize _ := 2
  pageSpan page :=
    match page.head?, page.getLast? with
    | some first, some last => some (first.toNat, last.toNat, page.length)
    | _, _ => none
  normalise payload :=
    match payload.origin with
    | .generated => .error []
    | .streamed | .fetched =>
        .ok (payload.payload.map
          (rowAt (if payload.kind = Kind.fills.asStr then .fills else .fundingPayments)))

/-- Nothing reads what a row is written as. -/
def noJson : Json := ⟨fun _ => [], fun _ => [], fun _ => []⟩

/-- A pass whose funding ask is answered with one payment, and whose other asks are as given. -/
def fundedPass (fills : Answer) : AccountPass where
  account := ⟨hyperliquid, mainAccount, "fp".toList⟩
  reads := true
  asks
    | .fundingPayments => [.answered [1] 10 ⟨.committed, .committed, .committed⟩]
    | .fills => [fills]
    | _ => [.refused]
  nowMicros := 11
  judged _ := .committed

/-- One event of each kind. -/
def aboutMoments (id : Text) : Kind × Option Int :=
  if id = identity (fun _ => []) (rowAt .fills 5) then (.fills, some 5)
  else (.fundingPayments, some 1)

/-- A page of one moment is well formed. -/
theorem wellPage_moment {venue : AccountVenue} {about : Text → Kind × Option Int} {kind : Kind}
    {moment : UInt8} {payload : Payload}
    (isRow : rowsOf venue.normalise payload = [rowAt kind moment])
    (isSpan : venue.pageSpan payload.payload =
      some ((moment.toNat : Int), (moment.toNat : Int), 1))
    (isKind : kind.asStr = payload.kind) (ofKind : (rowAt kind moment).kind = kind)
    (isAbout : about (identity noJson.event (rowAt kind moment)) =
      (kind, some (moment.toNat : Int))) :
    WellPage venue noJson about kind payload := by
  have atMoment : (rowAt kind moment).atMicros = some (moment.toNat : Int) := by
    unfold rowAt
    split <;> rfl
  have times : timesIn venue kind payload = [(moment.toNat : Int)] := by
    simp [timesIn, isRow, ofKind, atMoment]
  refine ⟨?_, ?_, ?_⟩
  · intro row member
    rw [isRow, List.mem_singleton] at member
    rw [member, ofKind, atMoment]
    exact ⟨isKind, isAbout⟩
  · intro noSpan
    rw [isSpan] at noSpan
    cases noSpan
  · intro first last rows found
    rw [isSpan, Option.some.injEq, Prod.mk.injEq, Prod.mk.injEq] at found
    obtain ⟨rfl, rfl, _⟩ := found
    rw [times]
    exact ⟨⟨List.mem_singleton_self _, by simp⟩, ⟨List.mem_singleton_self _, by simp⟩⟩

theorem answered_fundedPass {fills : Answer}
    (isFills : fills = .refused ∨
      fills = .answered [5] 10 ⟨.committed, .committed, .committed⟩) :
    WellAnswered momentVenue noJson aboutMoments (fundedPass fills) := by
  refine ⟨rfl, ?_⟩
  intro kind isEvent channel _ page nowMicros commits asked seq
  simp only [eventKinds, List.mem_cons, List.not_mem_nil, or_false] at isEvent
  rcases isEvent with rfl | rfl | rfl
  · obtain ⟨rfl, _⟩ := Answer.answered.inj (List.mem_singleton.mp asked)
    exact @wellPage_moment _ _ _ 1 _ rfl rfl rfl rfl (by decide +kernel)
  · have isAsked := List.mem_singleton.mp asked
    rcases isFills with rfl | rfl
    · cases isAsked
    · obtain ⟨rfl, _⟩ := Answer.answered.inj isAsked
      exact @wellPage_moment _ _ _ 5 _ rfl rfl rfl rfl (by decide +kernel)
  · cases List.mem_singleton.mp asked

/-- The venue's generated payloads have no rows. -/
theorem honest_generated (payload : Payload) (isGenerated : payload.origin = .generated) :
    Honest momentVenue noJson aboutMoments payload := by
  intro row member
  simp [rowsOf, momentVenue, isGenerated] at member

/-- **A refused ask is recorded as a loss.**  The fills ask is refused and the funding ask
answered, and the record says the fills are lost. -/
theorem refused_fills_recorded_lost :
    Guarded (step momentVenue noJson) (StepAnswered momentVenue noJson aboutMoments)
        [.events (fundedPass .refused)] {} ∧
      ∃ final, exec (step momentVenue noJson) [.events (fundedPass .refused)] {} = some final ∧
        ¬ LostOnEvidence momentVenue final.record := by
  refine ⟨⟨answered_fundedPass (.inl rfl), fun _ _ => trivial⟩, _, rfl, ?_⟩
  intro lost
  rcases lost [_, _] _ _ [] mainAccount rfl rfl rfl (by decide +kernel) with
    ⟨someFill, _⟩ | ⟨earlier, page, gap, first, last, rows, isFront, inScope, _⟩
  · exact someFill (by decide +kernel)
  · obtain rfl : earlier = [] := by simpa using congrArg List.length isFront
    obtain ⟨rfl, _⟩ := RecordEntry.page.inj (List.cons.inj isFront).1
    revert inScope
    decide +kernel

/-- With the fill before the payment answered too, nothing is lost without evidence. -/
theorem lostOnEvidence_of_fillsWithFunding_answered :
    ∃ final, exec (step momentVenue noJson) [.events (fundedPass (.answered [5] 10
        ⟨.committed, .committed, .committed⟩)), .restart 20] {} = some final ∧
      LostOnEvidence momentVenue final.record := by
  refine ⟨_, rfl, lostOnEvidence_of_fillsWithFunding momentVenue noJson aboutMoments
    honest_generated [.events (fundedPass (.answered [5] 10
      ⟨.committed, .committed, .committed⟩)), .restart 20] _ ?_ ?_ rfl⟩
  · exact ⟨answered_fundedPass (.inr rfl), fun _ _ => ⟨trivial, fun _ _ => trivial⟩⟩
  · refine ⟨?_, fun _ _ => ⟨trivial, fun _ _ => trivial⟩⟩
    intro loaded _
    exact .inr (.inr (.inl (by decide +kernel)))

end LedgerRun

end Ledger
end Datawatch
