import Datawatch.Ledger.Evidence

/-!
# A reach is recorded once

A process keeps which kinds of an account's history it has judged, and rebuilds that from the
record by reading its reach rows back through the venue's normaliser.  Where it holds them, an
account's reaches are at most one consistent row and then lost rows.  The normaliser knows the
venue's own channels and not the one a reach row is recorded under.
-/

namespace Datawatch
namespace Ledger

open Library Library.Outcome Library.Transition Segments Wire Record Replay

/-- Why a payload gives no rows. -/
inductive NormaliseError
  | unknownChannel (channel : Text)
  | shape (kind detail : Text)
  | token (text : Text)
  | rows (error : Text)

/-- A venue's account channels. -/
def snapshotChannel : Text := "clearinghouseState".toList
def listingChannel : Text := "subAccounts".toList
def roleChannel : Text := "userRole".toList
def modeChannel : Text := "userAbstraction".toList
def fillsChannel : Text := "userFillsByTime".toList
def fundingChannel : Text := "userFunding".toList
def updatesChannel : Text := "userNonFundingLedgerUpdates".toList

/-- The readers of each channel's bytes.  Ledger updates are read under a fingerprint key, which
a normaliser may be without. -/
structure LedgerNormaliser where
  snapshotRows : Account → Int → List UInt8 → Except Text (List Envelope)
  fillRows : Account → Int → List UInt8 → Except Text (List Envelope)
  fundingRows : Account → Int → List UInt8 → Except Text (List Envelope)
  updateRows : Option (Account → Text → Int → List UInt8 → Except Text (List Envelope))

namespace LedgerNormaliser

/-- The account a payload is addressed to, under its validated name. -/
def accountOf (kind detail : Text) (payload : Payload) :
    Except NormaliseError (Account × AccountAddress) :=
  match payload.address with
  | .account address =>
      match Token.new address.account with
      | some account => .ok (account, address)
      | none => .error (.token address.account)
  | .venue _ | .market _ => .error (.shape kind detail)

/-- One payload's rows, by the channel it came on. -/
def normalise (normaliser : LedgerNormaliser) (payload : Payload) :
    Except NormaliseError (List Envelope) :=
  if payload.channel = snapshotChannel then do
    let (account, _) ← accountOf snapshotChannel "a snapshot not addressed to an account".toList
      payload
    (normaliser.snapshotRows account payload.recvMicros payload.payload).mapError .rows
  else if payload.channel = listingChannel ∨ payload.channel = roleChannel ∨
      payload.channel = modeChannel then
    .ok []
  else if payload.channel = fillsChannel ∨ payload.channel = fundingChannel ∨
      payload.channel = updatesChannel then do
    let (account, address) ← accountOf "events".toList
      "an events page not addressed to an account".toList payload
    if payload.channel = fillsChannel then
      (normaliser.fillRows account payload.recvMicros payload.payload).mapError .rows
    else if payload.channel = fundingChannel then
      (normaliser.fundingRows account payload.recvMicros payload.payload).mapError .rows
    else
      match normaliser.updateRows with
      | some updateRows =>
          (updateRows account address.fingerprint payload.recvMicros payload.payload).mapError
            .rows
      | none =>
          .error (.shape updatesChannel
            "no fingerprint key: this normaliser cannot tell the parties of a transfer apart".toList)
  else .error (.unknownChannel payload.channel)

end LedgerNormaliser

namespace LedgerRun

/-- Whether a payload is recorded of an account. -/
def ofAccount (account : Account) (payload : Payload) : Bool :=
  match payload.address with
  | .account address => address.account = account.text
  | .venue _ | .market _ => false

/-- The reaches recorded of one kind of an account's history, in their order. -/
def reachesOf (record : List RecordEntry) (account : Account) (kind : Kind) : List Reach :=
  record.filterMap fun entry =>
    match entry with
    | .reach payload reach =>
        if ofAccount account payload ∧ reach.kind = kind then some reach.reach else none
    | .page _ _ | .gap _ _ => none

/-- At most one consistent row, and then lost rows. -/
def Stable (reaches : List Reach) : Prop :=
  ∃ losts : List Reach, (∀ reach ∈ losts, reach = .lost) ∧
    (reaches = losts ∨ reaches = .consistent :: losts)

/-- A stable list is stable with one more loss. -/
theorem Stable.lost {reaches : List Reach} (stable : Stable reaches) :
    Stable (reaches ++ [.lost]) := by
  rcases stable with ⟨losts, areLost, shape⟩
  refine ⟨losts ++ [.lost], ?_, ?_⟩
  · intro reach member
    rcases List.mem_append.mp member with held | new
    · exact areLost reach held
    · exact List.mem_singleton.mp new
  · rcases shape with rfl | rfl
    · exact .inl rfl
    · exact .inr rfl

/-- A first verdict is stable. -/
theorem stable_singleton {reach : Reach} (isVerdict : reach ≠ .unknown) : Stable [reach] := by
  cases reach with
  | lost => exact ⟨[.lost], by simp, .inl rfl⟩
  | consistent => exact ⟨[], by simp, .inr rfl⟩
  | unknown => exact absurd rfl isVerdict

section Reaches

variable {venue : AccountVenue} {json : Json} {record : List RecordEntry} {run : LedgerRun}
  {account : Account} {kind : Kind}

@[simp] theorem reachesOf_page (payload : Payload) (firstPage : Bool) :
    reachesOf (record ++ [.page payload firstPage]) account kind =
      reachesOf record account kind := by
  simp [reachesOf]

@[simp] theorem reachesOf_gap (payload : Payload) (gap : Gap) :
    reachesOf (record ++ [.gap payload gap]) account kind = reachesOf record account kind := by
  simp [reachesOf]

/-- A reach row is its account's and its kind's. -/
theorem reachesOf_reach {resolved : ResolvedAccount} {payload : Payload} (row : EventsReach)
    (generated : Generated resolved .accounts payload) :
    reachesOf (record ++ [.reach payload row]) account kind = reachesOf record account kind ++
      if account = resolved.alias_ ∧ kind = row.kind then [row.reach] else [] := by
  have ofResolved : ofAccount account payload = true ↔ account = resolved.alias_ := by
    simp only [ofAccount, generated.address, ResolvedAccount.recordAddress, decide_eq_true_eq]
    exact ⟨fun same => Token.eq_of_text same.symm, fun same => by rw [same]⟩
  simp only [reachesOf, List.filterMap_append, List.filterMap_cons, List.filterMap_nil, ofResolved,
    eq_comm (a := row.kind)]
  split <;> simp_all

/-- Every reach recorded is stable. -/
def AllStable (record : List RecordEntry) : Prop :=
  ∀ account kind, Stable (reachesOf record account kind)

/-- A process holds every reach recorded of an account. -/
def Remembers (run : LedgerRun) (account : Account) : Prop :=
  ∀ kind ∈ eventKinds, reachesOf run.record account kind ≠ [] → (account, kind) ∈ run.reached

/-- The reaches are stable, and the account's are held. -/
structure Settled (run : LedgerRun) (account : Account) : Prop where
  stable : AllStable run.record
  remembers : Remembers run account

/-- A reach that keeps its own list stable keeps every list stable, and is held once recorded. -/
theorem settled_recordReach {resolved : ResolvedAccount} {reach : Reach}
    (settled : Settled run resolved.alias_)
    (stable : Stable (reachesOf run.record resolved.alias_ kind ++ [reach])) (nowMicros : Int)
    (commit : Commit) :
    Leaves (fun next => Settled next resolved.alias_) (fun left => AllStable left.record)
      (run.recordReach json resolved kind reach nowMicros commit) := by
  have recorded : ∀ payload, Generated resolved .accounts payload →
      AllStable (run.record ++
        [.reach payload ⟨kind, reach⟩]) := by
    intro payload generated account asked
    rw [reachesOf_reach _ generated]
    split
    · rename_i same
      rw [same.1, same.2]
      exact stable
    · rw [List.append_nil]
      exact settled.stable account asked
  apply leaves_recordReach nowMicros commit
  · intro payload generated
    refine ⟨recorded payload generated, ?_⟩
    intro asked isEvent someReach
    rw [reachesOf_reach _ generated] at someReach
    by_cases same : asked = kind
    · rw [same]
      exact List.mem_cons_self
    · rw [if_neg (fun both => same both.2), List.append_nil] at someReach
      exact List.mem_cons_of_mem _ (settled.remembers asked isEvent someReach)
  · rintro record (rfl | ⟨payload, generated, rfl⟩) left isLeft
    · rw [isLeft]
      exact settled.stable
    · rw [isLeft]
      exact recorded payload generated

/-- Loading an account records nothing, and forgets no reach. -/
theorem settled_load {resolved : ResolvedAccount} (settled : Settled run resolved.alias_)
    (reads : Bool) :
    Leaves (fun next => Settled next resolved.alias_) (fun left => AllStable left.record)
      (run.load venue json resolved reads) := by
  unfold load
  split
  · exact settled
  · split
    · refine ⟨settled.stable, ?_⟩
      intro asked isEvent someReach
      exact List.mem_append_left _ (settled.remembers asked isEvent someReach)
    · exact settled.stable

/-- A first page is judged lost at most. -/
theorem settled_judgeFirst {resolved : ResolvedAccount} {recorded : Option Int}
    {firstPage pageFull : Bool} {first nowMicros : Int} {commits : Commits}
    (settled : Settled run resolved.alias_) :
    Leaves (fun next => Settled next resolved.alias_) (fun left => AllStable left.record)
      (run.judgeFirst json resolved kind recorded firstPage pageFull first nowMicros commits) := by
  unfold judgeFirst
  cases recorded with
  | none => exact settled
  | some newest =>
      simp only
      split
      · apply @Leaves.bind _ _ _ (fun next => Settled next resolved.alias_)
        · apply leaves_recordGapFor nowMicros commits.gap
          · intro payload _
            refine ⟨fun account asked => ?_, fun asked isEvent someReach => ?_⟩
            · rw [reachesOf_gap]
              exact settled.stable account asked
            · rw [reachesOf_gap] at someReach
              exact settled.remembers asked isEvent someReach
          · rintro record (rfl | ⟨payload, _, rfl⟩) left isLeft account asked
            · rw [isLeft]
              exact settled.stable account asked
            · rw [isLeft, reachesOf_gap]
              exact settled.stable account asked
        · intro next isNext
          exact settled_recordReach isNext (isNext.stable _ _).lost nowMicros commits.reach
      · exact settled

/-- Paging keeps what is settled. -/
theorem settled_walkPages {resolved : ResolvedAccount} {channel : Text} {recorded : Option Int}
    {answers : List Answer} {firstPage : Bool} {start : Int}
    (settled : Settled run resolved.alias_) :
    Leaves (fun next => Settled next resolved.alias_) (fun left => AllStable left.record)
      (run.walkPages venue json resolved kind channel recorded answers firstPage start) := by
  induction answers generalizing run firstPage start with
  | nil => exact settled.stable
  | cons answer answers inductionHypothesis =>
      cases answer with
      | refused => exact settled
      | answered page nowMicros commits =>
          rw [walkPages]
          apply @Leaves.bind _ _ _ (fun next => Settled next resolved.alias_)
          · have recorded_ : ∀ payload, AllStable (run.record ++ [.page payload firstPage]) := by
              intro payload account asked
              rw [reachesOf_page]
              exact settled.stable account asked
            apply leaves_append commits.page
            · refine ⟨recorded_ _, fun asked isEvent someReach => ?_⟩
              rw [reachesOf_page] at someReach
              exact settled.remembers asked isEvent someReach
            · exact settled.stable
            · exact recorded_ _
          · intro next isNext
            cases isSpan : venue.pageSpan page with
            | none => exact isNext
            | some span =>
                obtain ⟨first, last, rows⟩ := span
                apply Leaves.bind (settled_judgeFirst isNext)
                intro judged isJudged
                have taken : Settled (judged.extend resolved kind first last) resolved.alias_ :=
                  ⟨isJudged.stable, isJudged.remembers⟩
                dsimp only
                split
                · exact taken
                · split
                  · exact taken
                  · exact inductionHypothesis taken

/-- A judgement is the first of its kind. -/
theorem settled_judge {pass : AccountPass} (isEvent : kind ∈ eventKinds)
    (settled : Settled run pass.account.alias_) :
    Leaves (fun next => Settled next pass.account.alias_) (fun left => AllStable left.record)
      (run.judge json pass kind) := by
  unfold judge
  split
  · exact settled
  · rename_i unjudged
    split
    · rename_i isVerdict
      apply settled_recordReach settled
      have none_ : reachesOf run.record pass.account.alias_ kind = [] := by
        by_contra someReach
        exact unjudged (settled.remembers kind isEvent someReach)
      rw [none_]
      exact stable_singleton isVerdict
    · exact settled

/-- A pass of an account whose reaches the process holds leaves every reach stable. -/
theorem settled_events {pass : AccountPass} (settled : Settled run pass.account.alias_) :
    Leaves (fun next => AllStable next.record) (fun left => AllStable left.record)
      (run.events venue json pass) := by
  apply @leaves_events _ _ _ _ _ fun next => Settled next pass.account.alias_
  · exact settled_load settled pass.reads
  · intro kind _ run isSettled
    unfold walk
    split
    · exact isSettled
    · exact settled_walkPages isSettled
  · intro kind isEvent run isSettled
    exact settled_judge isEvent isSettled
  · exact fun run isSettled => isSettled.stable

variable (venue json) in
/-- No page a pass is answered starts after the newest event its process knows. -/
def Quiet (run : LedgerRun) (pass : AccountPass) : Prop :=
  ∀ loaded, run.load venue json pass.account pass.reads = .ok loaded →
    ∀ kind ∈ eventKinds, ∀ page nowMicros commits,
      .answered page nowMicros commits ∈ pass.asks kind → ∀ first last rows,
        venue.pageSpan page = some (first, last, rows) →
          ∃ newest, loaded.newest pass.account.alias_ kind = some newest ∧ first ≤ newest

/-- The reaches of each kind that had one are what they were. -/
def Unmoved (held : Kind → List Reach) (account : Account) (record : List RecordEntry) : Prop :=
  ∀ kind ∈ eventKinds, held kind ≠ [] → reachesOf record account kind = held kind

/-- A process that holds the reaches there were, and knows events no older than it did. -/
structure Undisturbed (held : Kind → List Reach) (known : Kind → Option Int) (account : Account)
    (run : LedgerRun) : Prop where
  unmoved : Unmoved held account run.record
  reached : ∀ kind ∈ eventKinds, held kind ≠ [] → (account, kind) ∈ run.reached
  newest : ∀ kind newest, known kind = some newest →
    ∃ more, run.newest account kind = some more ∧ newest ≤ more

variable {held : Kind → List Reach} {known : Kind → Option Int}

/-- Paging through pages that start within what is known judges nothing. -/
theorem undisturbed_walkPages {resolved : ResolvedAccount} {channel : Text}
    {recorded : Option Int} {answers : List Answer} {firstPage : Bool} {start : Int}
    (within : ∀ page nowMicros commits, .answered page nowMicros commits ∈ answers →
      ∀ first last rows, venue.pageSpan page = some (first, last, rows) →
        ∀ newest, recorded = some newest → first ≤ newest)
    (undisturbed : Undisturbed held known resolved.alias_ run) :
    Leaves (Undisturbed held known resolved.alias_)
      (fun left => Unmoved held resolved.alias_ left.record)
      (run.walkPages venue json resolved kind channel recorded answers firstPage start) := by
  induction answers generalizing run firstPage start with
  | nil => exact undisturbed.unmoved
  | cons answer answers inductionHypothesis =>
      cases answer with
      | refused => exact undisturbed
      | answered page nowMicros commits =>
          rw [walkPages]
          have recorded_ : ∀ payload, Unmoved held resolved.alias_
              (run.record ++ [.page payload firstPage]) := by
            intro payload asked isEvent someReach
            rw [reachesOf_page]
            exact undisturbed.unmoved asked isEvent someReach
          apply @Leaves.bind _ _ _ (Undisturbed held known resolved.alias_)
          · apply leaves_append commits.page
            · exact ⟨recorded_ _, undisturbed.reached, undisturbed.newest⟩
            · exact undisturbed.unmoved
            · exact recorded_ _
          · intro next isNext
            cases isSpan : venue.pageSpan page with
            | none => exact isNext
            | some span =>
                obtain ⟨first, last, rows⟩ := span
                have unjudged : ∀ pageFull, next.judgeFirst json resolved kind recorded firstPage
                    pageFull first nowMicros commits = .ok next := by
                  intro pageFull
                  unfold judgeFirst
                  cases isRecorded : recorded with
                  | none => rfl
                  | some newest =>
                      have notBeyond := within page nowMicros commits List.mem_cons_self first last
                        rows isSpan newest isRecorded
                      simp only [beyondReach, decide_eq_false (not_lt.mpr notBeyond),
                        Bool.and_false, Bool.false_eq_true, and_false, if_false]
                dsimp only
                rw [unjudged]
                have taken : Undisturbed held known resolved.alias_
                    (next.extend resolved kind first last) := by
                  refine ⟨isNext.unmoved, isNext.reached, ?_⟩
                  intro asked newest isKnown
                  obtain ⟨more, isMore, later⟩ := isNext.newest asked newest isKnown
                  simp only [extend, true_and, isMore]
                  split
                  · exact ⟨_, rfl, later.trans (le_max_left _ _)⟩
                  · exact ⟨more, rfl, later⟩
                change Leaves _ _ (if _ then Except.ok _ else if _ then Except.ok _ else _)
                split
                · exact taken
                · split
                  · exact taken
                  · apply inductionHypothesis _ taken
                    intro other moment made member
                    exact within other moment made (List.mem_cons_of_mem _ member)

/-- A judgement of a kind not judged before leaves those that were. -/
theorem undisturbed_judge {pass : AccountPass} (isEvent : kind ∈ eventKinds)
    (undisturbed : Undisturbed held known pass.account.alias_ run) :
    Leaves (Undisturbed held known pass.account.alias_)
      (fun left => Unmoved held pass.account.alias_ left.record) (run.judge json pass kind) := by
  unfold judge
  split
  · exact undisturbed
  · rename_i unjudged
    split
    · have recorded : ∀ payload reach, Generated pass.account .accounts payload →
          Unmoved held pass.account.alias_
            (run.record ++ [.reach payload ⟨kind, reach⟩]) := by
        intro payload reach generated asked isAsked someReach
        have other : asked ≠ kind := by
          rintro rfl
          exact unjudged (undisturbed.reached asked isEvent someReach)
        rw [reachesOf_reach _ generated, if_neg (fun both => other both.2), List.append_nil]
        exact undisturbed.unmoved asked isAsked someReach
      apply leaves_recordReach
      · intro payload generated
        exact ⟨recorded payload _ generated, fun asked isAsked someReach =>
          List.mem_cons_of_mem _ (undisturbed.reached asked isAsked someReach),
          undisturbed.newest⟩
      · rintro record (rfl | ⟨payload, generated, rfl⟩) left isLeft
        · rw [isLeft]
          exact undisturbed.unmoved
        · rw [isLeft]
          exact recorded payload _ generated
    · exact undisturbed

/-- A pass that is answered nothing new records no reach of a kind that has one. -/
theorem unmoved_events {pass : AccountPass} (remembers : Remembers run pass.account.alias_)
    (quiet : Quiet venue json run pass) :
    Leaves (fun next => Unmoved (reachesOf run.record pass.account.alias_)
        pass.account.alias_ next.record)
      (fun left => Unmoved (reachesOf run.record pass.account.alias_)
        pass.account.alias_ left.record)
      (run.events venue json pass) := by
  cases isLoad : run.load venue json pass.account pass.reads with
  | error left =>
      have same : left.record = run.record := by
        unfold load at isLoad
        split at isLoad
        · cases isLoad
        · split at isLoad
          · cases isLoad
          · cases isLoad
            rfl
      unfold events
      rw [isLoad]
      intro kind _ _
      rw [same]
  | ok loaded =>
      have isLoaded : loaded.record = run.record ∧ run.reached ⊆ loaded.reached := by
        unfold load at isLoad
        split at isLoad
        · cases isLoad
          exact ⟨rfl, List.Subset.refl _⟩
        · split at isLoad
          · cases isLoad
            exact ⟨rfl, List.subset_append_left _ _⟩
          · cases isLoad
      apply @leaves_events _ _ _ _ _ (Undisturbed (reachesOf run.record pass.account.alias_)
        (loaded.newest pass.account.alias_) pass.account.alias_)
      · rw [isLoad]
        refine ⟨?_, ?_, fun _ newest isNewest => ⟨newest, isNewest, le_rfl⟩⟩
        · intro kind _ _
          rw [isLoaded.1]
        · intro kind isEvent someReach
          exact isLoaded.2 (remembers kind isEvent someReach)
      · intro kind isEvent next undisturbed
        unfold walk
        split
        · exact undisturbed
        · apply undisturbed_walkPages _ undisturbed
          intro page nowMicros commits asked first last rows isSpan newest isNewest
          obtain ⟨old, isOld, before⟩ := quiet loaded isLoad kind isEvent page nowMicros commits
            asked first last rows isSpan
          obtain ⟨more, isMore, later⟩ := undisturbed.newest kind old isOld
          obtain rfl := Option.some.inj (isMore.symm.trans isNewest)
          exact before.trans later
      · intro kind isEvent next undisturbed
        exact undisturbed_judge isEvent undisturbed
      · exact fun next undisturbed => undisturbed.unmoved

end Reaches

variable (venue : AccountVenue) (json : Json)

/-- A step's pass is of an account whose reaches its process holds. -/
def StepRemembers (run : LedgerRun) : Step → Prop
  | .events pass => Remembers run pass.account.alias_
  | .restart _ => True

/-- **A recorded reach is stable.**  Across every run of passes and restarts in which each pass
holds the reaches recorded of its account, every account's reaches of a kind are at most one
consistent row and then lost rows; and a pass that is answered nothing new records none of a
kind that has one. -/
theorem reaches_stable_of_remembers (steps : List Step) (final : LedgerRun)
    (remembers : Guarded (step venue json) StepRemembers steps {})
    (run : exec (step venue json) steps {} = some final) :
    (∀ account kind, Stable (reachesOf final.record account kind)) ∧
      ∀ pass next, Remembers final pass.account.alias_ → Quiet venue json final pass →
        step venue json final (.events pass) = some next →
          ∀ kind ∈ eventKinds, reachesOf final.record pass.account.alias_ kind ≠ [] →
            reachesOf next.record pass.account.alias_ kind =
              reachesOf final.record pass.account.alias_ kind := by
  constructor
  · have preserved : ∀ run action next, AllStable run.record ∧
        (run.running = true → AllStable run.record) → StepRemembers run action →
          step venue json run action = some next →
            AllStable next.record ∧ (next.running = true → AllStable next.record) := by
      intro run action next holds remembered stepped
      refine @keeps_step venue json run (fun run => AllStable run.record) AllStable
        (fun _ stable => stable) (fun _ stable => stable) action ?_ holds next stepped
      rintro pass rfl stable
      exact settled_events ⟨stable, remembered⟩
    have start : AllStable [] := fun _ _ => ⟨[], by simp, .inl rfl⟩
    exact (invariant_of_guarded preserved ⟨start, fun _ => start⟩ remembers run).1
  · intro pass next remembered quiet stepped
    have leaves := unmoved_events remembered quiet
    simp only [step] at stepped
    split at stepped
    · split at stepped
      · rename_i after isAfter
        obtain rfl := Option.some.inj stepped
        rw [isAfter] at leaves
        exact leaves
      · rename_i left isLeft
        obtain rfl := Option.some.inj stepped
        rw [isLeft] at leaves
        exact leaves
    · cases stepped

/-- Readers of pages that are the moments of their rows. -/
def momentReaders : LedgerNormaliser where
  snapshotRows _ _ _ := .ok []
  fillRows _ _ bytes := .ok (bytes.map (rowAt .fills))
  fundingRows _ _ bytes := .ok (bytes.map (rowAt .fundingPayments))
  updateRows := none

/-- A venue whose pages are read by the channel they came on. -/
def channelVenue : AccountVenue :=
  { momentVenue with
    eventsChannel
      | .fills => some fillsChannel
      | .fundingPayments => some fundingChannel
      | .ledgerUpdates => some updatesChannel
      | _ => none
    normalise payload := (momentReaders.normalise payload).mapError fun _ => [] }

/-- A pass whose every ask is refused. -/
def refusedPass : AccountPass :=
  { fundedPass .refused with asks := fun _ => [.refused] }

/-- Two passes of one process: its account's funding is judged once. -/
theorem reaches_stable_of_remembers_twice :
    ∃ final, exec (step channelVenue noJson)
        [.events (fundedPass .refused), .events refusedPass] {} = some final ∧
      Stable (reachesOf final.record mainAccount .fundingPayments) := by
  refine ⟨_, rfl, (reaches_stable_of_remembers channelVenue noJson
    [.events (fundedPass .refused), .events refusedPass] _ ?_ rfl).1 _ _⟩
  refine ⟨by intro kind _ someReach; exact absurd rfl someReach, ?_⟩
  intro next stepped
  refine ⟨?_, fun _ _ => trivial⟩
  cases stepped
  intro kind isEvent _
  simp only [eventKinds, List.mem_cons, List.not_mem_nil, or_false] at isEvent
  rcases isEvent with rfl | rfl | rfl
  · decide +kernel
  · decide +kernel
  · rename_i someReach
    exact absurd (by decide +kernel) someReach

/-- **A restart forgets what was judged.**  Funding is judged consistent, the process starts
again, and a pass whose every ask is refused records it consistent once more. -/
theorem rejudged_after_restart :
    ∃ final, exec (step channelVenue noJson)
        [.events (fundedPass .refused), .restart 20, .events refusedPass] {} = some final ∧
      reachesOf final.record mainAccount .fundingPayments = [.consistent, .consistent] ∧
      ¬ Stable (reachesOf final.record mainAccount .fundingPayments) := by
  have twice : ∀ reaches : List Reach, reaches = [.consistent, .consistent] →
      ¬ Stable reaches := by
    rintro reaches rfl ⟨losts, areLost, same | same⟩
    · have := areLost .consistent (by simp [← same])
      cases this
    · have := areLost .consistent (by simp [← (List.cons.inj same).2])
      cases this
  have isTwice : ∃ final, exec (step channelVenue noJson)
      [.events (fundedPass .refused), .restart 20, .events refusedPass] {} = some final ∧
        reachesOf final.record mainAccount .fundingPayments = [.consistent, .consistent] :=
    ⟨_, rfl, by decide +kernel⟩
  obtain ⟨final, ran, reaches⟩ := isTwice
  exact ⟨final, ran, reaches, twice _ reaches⟩

end LedgerRun

end Ledger
end Datawatch
