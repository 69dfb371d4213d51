import Datawatch.Library.Outcome
import Datawatch.Ledger.Run

/-!
# What a ledger knows is what it recorded

A process keeps the earliest and the newest time of each kind of an account's history.  Across
pages, passes and restarts these are the extremes of what is recorded, so where a walk resumes
is where the record ends.
-/

namespace Datawatch
namespace Ledger

open Library Library.Outcome Library.Transition Segments Wire Record Replay

/-- The time no other is before, in an order, and none only of no times. -/
def Extreme (le : Int → Int → Prop) (found : Option Int) (times : List Int) : Prop :=
  match found with
  | none => times = []
  | some time => time ∈ times ∧ ∀ other ∈ times, le time other

/-- The earliest of some times. -/
abbrev Least : Option Int → List Int → Prop := Extreme fun first second => first ≤ second

/-- The newest of some times. -/
abbrev Greatest : Option Int → List Int → Prop := Extreme fun first second => second ≤ first

theorem Extreme.eq_nil {le : Int → Int → Prop} {times : List Int}
    (extreme : Extreme le none times) : times = [] := extreme

/-- The extreme of two lists of times is the better of their own. -/
theorem Extreme.append {le : Int → Int → Prop} {better : Int → Int → Int}
    (isBetter : ∀ first second, (better first second = first ∧ le first second) ∨
      (better first second = second ∧ le second first))
    (isTrans : ∀ {first second third}, le first second → le second third → le first third)
    {found : Option Int} {fresh : Int} {times freshTimes : List Int}
    (extreme : Extreme le found times) (isFresh : Extreme le (some fresh) freshTimes) :
    Extreme le (some ((found.map (better · fresh)).getD fresh)) (times ++ freshTimes) := by
  cases found with
  | none =>
      rw [extreme.eq_nil]
      exact isFresh
  | some time =>
      simp only [Option.map_some, Option.getD_some, Extreme, List.mem_append]
      rcases isBetter time fresh with ⟨isTime, before⟩ | ⟨isOther, before⟩
      · rw [isTime]
        refine ⟨.inl extreme.1, ?_⟩
        rintro other (held | new)
        · exact extreme.2 other held
        · exact isTrans before (isFresh.2 other new)
      · rw [isOther]
        refine ⟨.inr isFresh.1, ?_⟩
        rintro other (held | new)
        · exact isTrans before (extreme.2 other held)
        · exact isFresh.2 other new

theorem Least.append {found : Option Int} {fresh : Int} {times freshTimes : List Int}
    (least : Least found times) (isFresh : Least (some fresh) freshTimes) :
    Least (some ((found.map (min · fresh)).getD fresh)) (times ++ freshTimes) := by
  apply Extreme.append ?_ (fun first second => first.trans second) least isFresh
  intro first second
  omega

theorem Greatest.append {found : Option Int} {fresh : Int} {times freshTimes : List Int}
    (greatest : Greatest found times) (isFresh : Greatest (some fresh) freshTimes) :
    Greatest (some ((found.map (max · fresh)).getD fresh)) (times ++ freshTimes) := by
  apply Extreme.append ?_ (fun first second => second.trans first) greatest isFresh
  intro first second
  omega

theorem Extreme.congr {le : Int → Int → Prop} {found : Option Int} {times others : List Int}
    (extreme : Extreme le found times) (same : ∀ time, time ∈ times ↔ time ∈ others) :
    Extreme le found others := by
  cases found with
  | none =>
      apply List.eq_nil_iff_forall_not_mem.mpr
      intro time member
      have isHeld := (same time).mpr member
      rw [extreme.eq_nil] at isHeld
      cases isHeld
  | some time =>
      exact ⟨(same time).mp extreme.1, fun other member =>
        extreme.2 other ((same other).mpr member)⟩

theorem least_min? (times : List Int) : Least times.min? times := by
  cases found : times.min? with
  | none => exact List.min?_eq_none_iff.mp found
  | some time =>
      have isLeast := List.min?_eq_some_iff.mp found
      exact ⟨isLeast.1, isLeast.2⟩

theorem greatest_max? (times : List Int) : Greatest times.max? times := by
  cases found : times.max? with
  | none => exact List.max?_eq_none_iff.mp found
  | some time =>
      have isGreatest := List.max?_eq_some_iff.mp found
      exact ⟨isGreatest.1, isGreatest.2⟩

section Read

variable {toJson : Event → Text} {normalise : Payload → Except Text (List Envelope)}
  {kinds : List Kind}

@[simp] theorem aliased_nil (row : Envelope) : aliased [] row = row := by
  unfold aliased
  split
  · split
    · rfl
    · rfl
    · rfl
  · rfl

/-- What a taking holds: only rows of what it read, and one for each identity it holds. -/
structure Taking.Of (toJson : Event → Text) (rows : List Envelope) (taking : Taking) : Prop where
  fresh : ∀ row ∈ taking.fresh, row ∈ rows
  ids : ∀ id ∈ taking.freshIds, ∃ row ∈ taking.fresh, identity toJson row = id

theorem Taking.Of.takeRow {rows : List Envelope} {taking : Taking}
    (holds : taking.Of toJson rows) {row : Envelope} (member : row ∈ rows) :
    (takeRow toJson kinds [] [] taking row).Of toJson rows := by
  unfold Ledger.takeRow
  split
  · exact holds
  · split
    · exact holds
    · simp only [aliased_nil]
      constructor
      · intro other isFresh
        rcases List.mem_append.mp isFresh with held | new
        · exact holds.fresh other held
        · rwa [List.mem_singleton.mp new]
      · intro id isId
        rcases List.mem_cons.mp isId with rfl | held
        · exact ⟨row, by simp, rfl⟩
        · obtain ⟨other, isFresh, same⟩ := holds.ids id held
          exact ⟨other, List.mem_append_left _ isFresh, same⟩

theorem Taking.Of.takeRows {rows : List Envelope} {taking : Taking}
    (holds : taking.Of toJson rows) {taken : List Envelope} (within : taken ⊆ rows) :
    (taken.foldl (Ledger.takeRow toJson kinds [] []) taking).Of toJson rows := by
  induction taken generalizing taking with
  | nil => exact holds
  | cons row taken inductionHypothesis =>
      apply inductionHypothesis (holds.takeRow (within List.mem_cons_self))
      exact fun other member => within (List.mem_cons_of_mem _ member)

/-- The rows of a payload, none where it will not normalise. -/
def rowsOf (normalise : Payload → Except Text (List Envelope)) (payload : Payload) :
    List Envelope :=
  match normalise payload with
  | .ok rows => rows
  | .error _ => []

theorem Taking.Of.takePayload {rows : List Envelope} {taking : Taking}
    (holds : taking.Of toJson rows) {payload : Payload}
    (within : rowsOf normalise payload ⊆ rows) :
    (takePayload toJson normalise kinds [] [] taking payload).Of toJson rows := by
  have received : (taking.receive payload).Of toJson rows := ⟨holds.fresh, holds.ids⟩
  unfold Ledger.takePayload
  split
  · exact received
  · unfold rowsOf at within
    split
    · exact received
    · rename_i normalised
      rw [normalised] at within
      exact received.takeRows within

theorem Taking.Of.takeAll {rows : List Envelope} {taking : Taking}
    (holds : taking.Of toJson rows) {payloads : List Payload}
    (within : ∀ payload ∈ payloads, rowsOf normalise payload ⊆ rows) :
    (takeAll toJson normalise kinds [] [] taking payloads).Of toJson rows := by
  induction payloads generalizing taking with
  | nil => exact holds
  | cons payload payloads inductionHypothesis =>
      apply inductionHypothesis (holds.takePayload (within payload List.mem_cons_self))
      exact fun other member => within other (List.mem_cons_of_mem _ member)

end Read

namespace LedgerRun

variable (venue : AccountVenue) (json : Json) (about : Text → Kind × Option Int)

/-- The venue times of one payload's rows of a kind. -/
def timesIn (kind : Kind) (payload : Payload) : List Int :=
  ((rowsOf venue.normalise payload).filter fun row => row.kind = kind).filterMap
    Envelope.atMicros

/-- The venue times recorded of an account's rows of a kind. -/
def timesOf (record : List RecordEntry) (account : Account) (kind : Kind) : List Int :=
  ((record.map RecordEntry.payload).filter (inScopes venue.venue account [kind])).flatMap
    (timesIn venue kind)

/-- Each row of a payload is of its kind, and one identity is one event: of one kind, at one
moment. -/
def Honest (payload : Payload) : Prop :=
  ∀ row ∈ rowsOf venue.normalise payload, row.kind.asStr = payload.kind ∧
    about (identity json.event row) = (row.kind, row.atMicros)

/-- What a process knows of the accounts it has loaded is the extremes of what is recorded. -/
structure Knows (run : LedgerRun) : Prop where
  honest : ∀ entry ∈ run.record, Honest venue json about entry.payload
  loaded : ∀ account ∈ run.loaded, ∀ kind ∈ eventKinds,
    Least (run.earliest account kind) (timesOf venue run.record account kind) ∧
      Greatest (run.newest account kind) (timesOf venue run.record account kind)
  fresh : ∀ account ∉ run.loaded, ∀ kind,
    run.earliest account kind = none ∧ run.newest account kind = none

section Record

variable {venue json about} {record : List RecordEntry} {run : LedgerRun}

theorem inScopes_iff {asked : Venue} {account : Account} {kinds : List Kind}
    {payload : Payload} :
    inScopes asked account kinds payload ↔ ∃ address, payload.address = .account address ∧
      address.venue = asked.text ∧ address.account = account.text ∧
        payload.kind ∈ kinds.map Kind.asStr := by
  unfold inScopes
  cases payload.address <;> simp [and_assoc]

@[simp] theorem timesOf_concat (entry : RecordEntry) (account : Account) (kind : Kind) :
    timesOf venue (record ++ [entry]) account kind = timesOf venue record account kind ++
      if inScopes venue.venue account [kind] entry.payload then
        timesIn venue kind entry.payload else [] := by
  unfold timesOf
  rw [List.map_append, List.filter_append, List.flatMap_append]
  by_cases inScope : inScopes venue.venue account [kind] entry.payload
  · simp [inScope]
  · simp [inScope]

/-- The payloads a read of an account's history takes its rows from. -/
def readPayloads (record : List RecordEntry) (account : ResolvedAccount) (kinds : List Kind) :
    List Payload :=
  ((record.map RecordEntry.payload).filter
    (inScopes account.venue account.alias_ kinds)).insertionSort
      fun first second => before first second = true

theorem mem_readPayloads {account : ResolvedAccount} {kinds : List Kind} {payload : Payload} :
    payload ∈ readPayloads record account kinds ↔
      payload ∈ record.map RecordEntry.payload ∧
        inScopes account.venue account.alias_ kinds payload := by
  rw [readPayloads, List.mem_insertionSort, List.mem_filter]

/-- What a read takes. -/
theorem mem_read {account : ResolvedAccount} {kinds : List Kind} {row : Envelope} :
    row ∈ read venue json record account kinds ↔
      row ∈ (takeAll json.event venue.normalise kinds [] [] {}
        (readPayloads record account kinds)).fresh :=
  List.mem_insertionSort _

variable (venue json record) in
/-- A read takes only rows of what it reads. -/
theorem taking_of_read (account : ResolvedAccount) (kinds : List Kind) :
    (takeAll json.event venue.normalise kinds [] [] {} (readPayloads record account kinds)).Of
      json.event ((readPayloads record account kinds).flatMap (rowsOf venue.normalise)) := by
  apply Taking.Of.takeAll ⟨by simp, by simp⟩
  intro payload member row isRow
  exact List.mem_flatMap.mpr ⟨payload, member, isRow⟩

variable (venue json record) in
/-- What a read took holds every payload it read. -/
theorem held_of_read (account : ResolvedAccount) (kinds : List Kind) {payload : Payload}
    (isHeld : payload ∈ readPayloads record account kinds) :
    Held venue.normalise kinds json.event
      (takeAll json.event venue.normalise kinds [] [] {}
        (readPayloads record account kinds)).freshIds payload :=
  (@freshIds_takeAll json.event venue.normalise kinds [] {}
    (readPayloads record account kinds)).2 payload isHeld

/-- A row read is of a payload recorded of the account. -/
theorem exists_payload_of_read {account : ResolvedAccount} {kinds : List Kind} {row : Envelope}
    (member : row ∈ read venue json record account kinds) :
    ∃ payload ∈ readPayloads record account kinds, row ∈ rowsOf venue.normalise payload :=
  List.mem_flatMap.mp ((taking_of_read venue json record account kinds).fresh row
    (mem_read.mp member))

/-- Every time a read returns of a kind is recorded of it, where rows are of their payload's
kind. -/
theorem mem_timesOf_of_read
    (ofKind : ∀ entry ∈ record, ∀ row ∈ rowsOf venue.normalise entry.payload,
      row.kind.asStr = entry.payload.kind)
    {account : ResolvedAccount} (ours : account.venue = venue.venue) {kind : Kind}
    {kinds : List Kind} {time : Int}
    (member : time ∈ ((read venue json record account kinds).filter fun row =>
      row.kind = kind).filterMap Envelope.atMicros) :
    time ∈ timesOf venue record account.alias_ kind := by
  simp only [List.mem_filterMap, List.mem_filter, decide_eq_true_eq] at member
  obtain ⟨row, ⟨isRead, isKind⟩, isTime⟩ := member
  obtain ⟨payload, isHeld, isRow⟩ := exists_payload_of_read isRead
  obtain ⟨isRecorded, inScope⟩ := mem_readPayloads.mp isHeld
  obtain ⟨entry, isEntry, rfl⟩ := List.mem_map.mp isRecorded
  obtain ⟨address, isAddress, sameVenue, sameAccount, _⟩ := inScopes_iff.mp inScope
  simp only [timesOf, timesIn, List.mem_flatMap, List.mem_filter, List.mem_filterMap,
    decide_eq_true_eq]
  refine ⟨entry.payload, ⟨isRecorded, ?_⟩, row, ⟨isRow, isKind⟩, isTime⟩
  rw [ours] at sameVenue
  apply inScopes_iff.mpr ⟨address, isAddress, sameVenue, sameAccount, ?_⟩
  rw [← ofKind entry isEntry row isRow, isKind]
  exact List.mem_singleton_self _

/-- What a read of an account's history returns of a kind: every time recorded of it. -/
theorem mem_times_read (honest : ∀ entry ∈ record, Honest venue json about entry.payload)
    {account : ResolvedAccount} (ours : account.venue = venue.venue) {kind : Kind}
    (isEvent : kind ∈ eventKinds) (time : Int) :
    time ∈ ((read venue json record account (eventKinds ++ [.accounts])).filter fun row =>
        row.kind = kind).filterMap Envelope.atMicros ↔
      time ∈ timesOf venue record account.alias_ kind := by
  have isAsked : kind ∈ eventKinds ++ [Kind.accounts] := List.mem_append_left _ isEvent
  constructor
  · exact mem_timesOf_of_read (fun entry isEntry row isRow => (honest entry isEntry row isRow).1)
      ours
  · simp only [List.mem_filterMap, List.mem_filter, decide_eq_true_eq, timesOf, timesIn,
      List.mem_flatMap]
    rintro ⟨payload, ⟨isRecorded, inScope⟩, row, ⟨isRow, isKind⟩, isTime⟩
    obtain ⟨address, isAddress, sameVenue, sameAccount, ofKind⟩ := inScopes_iff.mp inScope
    have sameKind : payload.kind = kind.asStr := List.mem_singleton.mp ofKind
    have wanted : payload.kind ∈ (eventKinds ++ [Kind.accounts]).map Kind.asStr := by
      rw [sameKind]
      exact List.mem_map_of_mem isAsked
    have honestPayload : ∀ payload ∈ readPayloads record account (eventKinds ++ [.accounts]),
        Honest venue json about payload := by
      intro payload member
      obtain ⟨entry, isEntry, rfl⟩ := List.mem_map.mp (mem_readPayloads.mp member).1
      exact honest entry isEntry
    have isHeld : payload ∈ readPayloads record account (eventKinds ++ [.accounts]) := by
      refine mem_readPayloads.mpr ⟨isRecorded, inScopes_iff.mpr ⟨address, isAddress, ?_,
        sameAccount, wanted⟩⟩
      rw [ours]
      exact sameVenue
    have held :=
      held_of_read venue json record account (eventKinds ++ [.accounts]) isHeld wanted
    unfold rowsOf at isRow
    split at isRow
    · rename_i rows normalised
      have isId := held rows normalised row isRow (isKind ▸ isAsked)
      obtain ⟨other, isFresh, same⟩ :=
        (taking_of_read venue json record account (eventKinds ++ [.accounts])).ids _ isId
      obtain ⟨origin, isOrigin, isOther⟩ := exists_payload_of_read (mem_read.mpr isFresh)
      have rowAbout := (honestPayload payload isHeld row (by
        unfold rowsOf
        rwa [normalised])).2
      have otherAbout := (honestPayload origin isOrigin other isOther).2
      rw [same, rowAbout, Prod.mk.injEq] at otherAbout
      refine ⟨other, ⟨mem_read.mpr isFresh, ?_⟩, ?_⟩
      · rw [← otherAbout.1, isKind]
      · rw [← otherAbout.2, isTime]
    · cases isRow

/-! ## What each operation keeps -/

/-- A commit that goes on holds one more entry, and one that ends may. -/
theorem leaves_append {goesOn ends : LedgerRun → Prop} {entry : Payload → RecordEntry}
    {payload : Payload} (commit : Commit)
    (committed : goesOn { run with
      nextSeq := run.nextSeq + 1
      record := run.record ++ [entry { payload with seq := run.nextSeq }] })
    (refused : ends { run with nextSeq := run.nextSeq + 1 })
    (unsynced : ends { run with
      nextSeq := run.nextSeq + 1
      record := run.record ++ [entry { payload with seq := run.nextSeq }] }) :
    Leaves goesOn ends (run.append entry payload commit) := by
  cases commit with
  | committed => exact committed
  | refused => exact refused
  | unsynced => exact unsynced

/-- An entry of no event kind changes nothing that is known. -/
theorem Knows.concat (knows : Knows venue json about run) {entry : RecordEntry}
    (honest : Honest venue json about entry.payload)
    (noEvent : ∀ kind ∈ eventKinds, entry.payload.kind ≠ kind.asStr) (seq : UInt64)
    (reached : List (Account × Kind)) :
    Knows venue json about
      { run with nextSeq := seq, record := run.record ++ [entry], reached := reached } := by
  refine ⟨?_, ?_, knows.fresh⟩
  · intro other member
    rcases List.mem_append.mp member with held | new
    · exact knows.honest other held
    · rwa [List.mem_singleton.mp new]
  · intro account isLoaded kind isEvent
    have outOfScope : ¬ inScopes venue.venue account [kind] entry.payload := by
      intro inScope
      obtain ⟨_, _, _, _, ofKind⟩ := inScopes_iff.mp inScope
      exact noEvent kind isEvent (List.mem_singleton.mp ofKind)
    have unchanged := @timesOf_concat venue run.record entry account kind
    rw [if_neg outOfScope, List.append_nil] at unchanged
    simp only [unchanged]
    exact knows.loaded account isLoaded kind isEvent

/-- What an operation on one account may change: more reaches, and nothing known of any kind but
those it names. -/
structure Changes (account : Account) (kinds : List Kind) (before after : LedgerRun) : Prop where
  loaded : after.loaded = before.loaded
  reached : before.reached ⊆ after.reached
  earliest : ∀ name kind, (name = account → kind ∉ kinds) →
    after.earliest name kind = before.earliest name kind
  known : ∀ name kind, before.earliest name kind ≠ none → after.earliest name kind ≠ none

theorem Changes.refl (account : Account) (kinds : List Kind) (run : LedgerRun) :
    Changes account kinds run run :=
  ⟨rfl, List.Subset.refl _, fun _ _ _ => rfl, fun _ _ isKnown => isKnown⟩

theorem Changes.trans {account : Account} {kinds : List Kind} {first second third : LedgerRun}
    (front : Changes account kinds first second) (back : Changes account kinds second third) :
    Changes account kinds first third :=
  ⟨back.loaded.trans front.loaded, fun _ member => back.reached (front.reached member),
    fun name kind other => (back.earliest name kind other).trans (front.earliest name kind other),
    fun name kind isKnown => back.known name kind (front.known name kind isKnown)⟩

/-- A process that loads an account knows what is recorded of it, and records nothing. -/
theorem Knows.load (knows : Knows venue json about run) {account : ResolvedAccount}
    (ours : account.venue = venue.venue) (reads : Bool) :
    Leaves (fun next => Knows venue json about next ∧ account.alias_ ∈ next.loaded ∧
        next.record = run.record)
      (fun left => left.record = run.record)
      (run.load venue json account reads) := by
  unfold LedgerRun.load
  by_cases isLoaded : account.alias_ ∈ run.loaded
  · rw [if_pos isLoaded]
    exact ⟨knows, isLoaded, rfl⟩
  · rw [if_neg isLoaded]
    cases reads with
    | false => rfl
    | true =>
        simp only [if_true, leaves_ok]
        refine ⟨⟨knows.honest, ?_, ?_⟩, List.mem_cons_self, trivial⟩
        · intro name isName kind isEvent
          by_cases same : name = account.alias_
          · subst same
            obtain ⟨noEarliest, noNewest⟩ := knows.fresh _ isLoaded kind
            simp only [isEvent, and_true, if_true, noEarliest, noNewest, Option.or_none]
            have times := mem_times_read knows.honest ours isEvent
            exact ⟨(least_min? _).congr times, (greatest_max? _).congr times⟩
          · simp only [same, false_and, if_false]
            exact knows.loaded name ((List.mem_cons.mp isName).resolve_left same) kind isEvent
        · intro name isFresh kind
          have notSame : name ≠ account.alias_ := fun same => isFresh (by simp [same])
          simp only [notSame, false_and, if_false]
          exact knows.fresh name (fun isName => isFresh (List.mem_cons_of_mem _ isName)) kind

/-- A generated payload of an account. -/
structure Generated (account : ResolvedAccount) (kind : Kind) (payload : Payload) : Prop where
  origin : payload.origin = .generated
  address : payload.address = .account account.recordAddress
  kind : payload.kind = kind.asStr

/-- How recording a reach comes out. -/
theorem leaves_recordReach {goesOn ends : LedgerRun → Prop} {account : ResolvedAccount}
    {kind : Kind} {reach : Reach} (nowMicros : Int) (commit : Commit)
    (committed : ∀ payload, Generated account .accounts payload →
      goesOn { run with
        nextSeq := run.nextSeq + 1
        record := run.record ++ [.reach payload ⟨kind, reach⟩]
        reached := (account.alias_, kind) :: run.reached })
    (kept : ∀ record, record = run.record ∨ (∃ payload, Generated account .accounts payload ∧
        record = run.record ++ [.reach payload ⟨kind, reach⟩]) →
      ∀ left : LedgerRun, left.record = record → ends left) :
    Leaves goesOn ends (run.recordReach json account kind reach nowMicros commit) := by
  unfold recordReach
  cases commit with
  | committed => exact committed _ ⟨rfl, rfl, rfl⟩
  | refused => exact kept _ (.inl rfl) _ rfl
  | unsynced => exact kept _ (.inr ⟨_, ⟨rfl, rfl, rfl⟩, rfl⟩) _ rfl

theorem Generated.noEvent {account : ResolvedAccount} {kind : Kind} {payload : Payload}
    (generated : Generated account kind payload) (other : kind = .accounts ∨ kind = .gaps) :
    ∀ event ∈ eventKinds, payload.kind ≠ event.asStr := by
  rw [generated.kind]
  rcases other with rfl | rfl <;> decide

/-- A page as it is recorded. -/
def pagePayload (account : ResolvedAccount) (kind : Kind) (channel : Text) (page : List UInt8)
    (nowMicros : Int) (seq : UInt64) : Payload :=
  ⟨seq, nowMicros, .account account.recordAddress, channel, kind.asStr, none, .fetched, page⟩

variable (venue json about) in
/-- A page whose rows are honest and whose span is theirs. -/
structure WellPage (kind : Kind) (payload : Payload) : Prop where
  honest : Honest venue json about payload
  empty : venue.pageSpan payload.payload = none → timesIn venue kind payload = []
  span : ∀ first last rows, venue.pageSpan payload.payload = some (first, last, rows) →
    Least (some first) (timesIn venue kind payload) ∧
      Greatest (some last) (timesIn venue kind payload)

theorem inScopes_pagePayload {account : ResolvedAccount} (ours : account.venue = venue.venue)
    {kind asked : Kind} {name : Account} {channel : Text} {page : List UInt8} {nowMicros : Int}
    {seq : UInt64} :
    inScopes venue.venue name [asked] (pagePayload account kind channel page nowMicros seq) ↔
      name = account.alias_ ∧ asked.asStr = kind.asStr := by
  rw [inScopes_iff]
  constructor
  · rintro ⟨address, isAddress, _, sameAccount, ofKind⟩
    obtain rfl := PayloadAddress.account.inj isAddress
    exact ⟨Token.eq_of_text sameAccount.symm, (List.mem_singleton.mp ofKind).symm⟩
  · rintro ⟨rfl, sameKind⟩
    refine ⟨_, rfl, by rw [← ours]; rfl, rfl, ?_⟩
    rw [List.map_singleton, List.mem_singleton]
    exact sameKind.symm

/-- A page recorded and not yet taken in: once it is, what is known is what is recorded. -/
theorem Knows.page (knows : Knows venue json about run) {account : ResolvedAccount}
    (ours : account.venue = venue.venue) (isLoaded : account.alias_ ∈ run.loaded) {kind : Kind}
    (isEvent : kind ∈ eventKinds) {channel : Text} {page : List UInt8} {nowMicros : Int}
    {seq : UInt64} (well : WellPage venue json about kind
      (pagePayload account kind channel page nowMicros seq)) (firstPage : Bool) :
    let next := { run with
      nextSeq := run.nextSeq + 1
      record := run.record ++
        [.page (pagePayload account kind channel page nowMicros seq) firstPage] }
    (venue.pageSpan page = none → Knows venue json about next) ∧
      ∀ first last rows, venue.pageSpan page = some (first, last, rows) →
        Knows venue json about (next.extend account kind first last) := by
  intro next
  have honest : ∀ entry ∈ next.record, Honest venue json about entry.payload := by
    intro entry member
    rcases List.mem_append.mp member with held | new
    · exact knows.honest entry held
    · rw [List.mem_singleton.mp new]
      exact well.honest
  have others : ∀ name asked, asked ∈ eventKinds → ¬ (name = account.alias_ ∧ asked = kind) →
      timesOf venue next.record name asked = timesOf venue run.record name asked := by
    intro name asked isAsked other
    have outOfScope : ¬ inScopes venue.venue name [asked]
        (pagePayload account kind channel page nowMicros seq) := by
      rw [inScopes_pagePayload ours]
      exact fun inScope => other ⟨inScope.1, Kind.asStr_injective inScope.2⟩
    exact (timesOf_concat _ _ _).trans (by
      rw [RecordEntry.payload, if_neg outOfScope, List.append_nil])
  have same : timesOf venue next.record account.alias_ kind =
      timesOf venue run.record account.alias_ kind ++
        timesIn venue kind (pagePayload account kind channel page nowMicros seq) := by
    exact (timesOf_concat _ _ _).trans (by
      rw [RecordEntry.payload, if_pos ((inScopes_pagePayload ours).mpr ⟨rfl, rfl⟩)])
  constructor
  · intro isEmpty
    refine ⟨honest, ?_, knows.fresh⟩
    intro name isName asked isAsked
    by_cases taken : name = account.alias_ ∧ asked = kind
    · obtain ⟨rfl, rfl⟩ := taken
      rw [same, well.empty isEmpty, List.append_nil]
      exact knows.loaded _ isName _ isAsked
    · rw [others name asked isAsked taken]
      exact knows.loaded name isName asked isAsked
  · intro first last rows isSpan
    obtain ⟨least, greatest⟩ := well.span first last rows isSpan
    refine ⟨honest, ?_, ?_⟩
    · intro name isName asked isAsked
      by_cases taken : name = account.alias_ ∧ asked = kind
      · obtain ⟨rfl, rfl⟩ := taken
        obtain ⟨wasLeast, wasGreatest⟩ := knows.loaded _ isName _ isAsked
        simp only [extend, and_self, if_true, same]
        exact ⟨Least.append wasLeast least, Greatest.append wasGreatest greatest⟩
      · simp only [extend, if_neg taken, others name asked isAsked taken]
        exact knows.loaded name isName asked isAsked
    · intro name isFresh asked
      have notSame : name ≠ account.alias_ := fun isName => isFresh (isName ▸ isLoaded)
      simp only [extend, notSame, false_and, if_false]
      exact knows.fresh name isFresh asked

/-- How recording a gap comes out. -/
theorem leaves_recordGapFor {goesOn ends : LedgerRun → Prop} {account : ResolvedAccount}
    {series : Series} {fromMicros toMicros : Int} {cause : GapCause} (nowMicros : Int)
    (commit : Commit)
    (committed : ∀ payload, Generated account .gaps payload →
      goesOn { run with
        nextSeq := run.nextSeq + 1
        record := run.record ++
          [.gap payload ⟨series, fromMicros, toMicros, cause, .continuous, none⟩] })
    (kept : ∀ record, record = run.record ∨ (∃ payload, Generated account .gaps payload ∧
        record = run.record ++
          [.gap payload ⟨series, fromMicros, toMicros, cause, .continuous, none⟩]) →
      ∀ left : LedgerRun, left.record = record → ends left) :
    Leaves goesOn ends
      (run.recordGapFor json account series fromMicros toMicros cause nowMicros commit) := by
  unfold recordGapFor
  cases commit with
  | committed => exact committed _ ⟨rfl, rfl, rfl⟩
  | refused => exact kept _ (.inl rfl) _ rfl
  | unsynced => exact kept _ (.inr ⟨_, ⟨rfl, rfl, rfl⟩, rfl⟩) _ rfl

theorem changes_extend {account : ResolvedAccount} {kind : Kind} {first last : Int} :
    Changes account.alias_ [kind] run (run.extend account kind first last) := by
  refine ⟨rfl, List.Subset.refl _, ?_, ?_⟩
  · intro name asked other
    apply if_neg
    rintro ⟨isName, rfl⟩
    exact other isName (List.mem_singleton_self _)
  · intro name asked isKnown
    simp only [extend]
    split
    · exact Option.some_ne_none _
    · exact isKnown

theorem Changes.mono {account : Account} {kinds more : List Kind} {before after : LedgerRun}
    (changes : Changes account kinds before after) (within : kinds ⊆ more) :
    Changes account more before after :=
  ⟨changes.loaded, changes.reached,
    fun name kind other => changes.earliest name kind fun isName inKinds =>
      other isName (within inKinds), changes.known⟩

variable (venue json about) in
/-- A pass asks the ledger's venue, and every page it is answered is well formed. -/
structure WellAnswered (pass : AccountPass) : Prop where
  ours : pass.account.venue = venue.venue
  pages : ∀ kind ∈ eventKinds, ∀ channel, venue.eventsChannel kind = some channel →
    ∀ page nowMicros commits, .answered page nowMicros commits ∈ pass.asks kind → ∀ seq,
      WellPage venue json about kind (pagePayload pass.account kind channel page nowMicros seq)

variable (venue json about) in
/-- A step's pages are well formed. -/
def StepAnswered (_ : LedgerRun) : Step → Prop
  | .events pass => WellAnswered venue json about pass
  | .restart _ => True

/-- A process that starts on an honest record knows nothing it has not read. -/
theorem knows_of_nothing_loaded (honest : ∀ entry ∈ record, Honest venue json about entry.payload)
    (seq : UInt64) : Knows venue json about { record := record, nextSeq := seq } :=
  ⟨honest, fun _ isLoaded => (List.not_mem_nil isLoaded).elim, fun _ _ _ => ⟨rfl, rfl⟩⟩

/-- What a record keeps, and what a process keeps while it runs: a restart needs the first for
the second, and a pass keeps both. -/
theorem keeps_step {goesOn : LedgerRun → Prop} {kept : List RecordEntry → Prop}
    (recorded : ∀ run, goesOn run → kept run.record)
    (restarts : ∀ nowMicros, kept run.record → goesOn (run.restarted nowMicros))
    {action : Step} (events : ∀ pass, action = .events pass → goesOn run →
      Leaves goesOn (fun left => kept left.record) (run.events venue json pass))
    (holds : kept run.record ∧ (run.running = true → goesOn run)) {next : LedgerRun}
    (stepped : run.step venue json action = some next) :
    kept next.record ∧ (next.running = true → goesOn next) := by
  cases action with
  | restart nowMicros =>
      obtain rfl := Option.some.inj stepped
      exact ⟨holds.1, fun _ => restarts nowMicros holds.1⟩
  | events pass =>
      simp only [step] at stepped
      split at stepped
      · rename_i running
        have leaves := events pass rfl (holds.2 running)
        split at stepped
        · rename_i after isAfter
          obtain rfl := Option.some.inj stepped
          rw [isAfter] at leaves
          exact ⟨recorded _ leaves, fun _ => leaves⟩
        · rename_i left isLeft
          obtain rfl := Option.some.inj stepped
          rw [isLeft] at leaves
          exact ⟨leaves, fun stillRunning => by cases stillRunning⟩
      · cases stepped

/-- A pass keeps what its load, each of its walks and each of its judgements keep. -/
theorem leaves_events {pass : AccountPass} {goesOn within : LedgerRun → Prop}
    {ends : LedgerRun → Prop}
    (load : Leaves within ends (run.load venue json pass.account pass.reads))
    (walks : ∀ kind ∈ eventKinds, ∀ run, within run →
      Leaves within ends (run.walk venue json pass.account kind (pass.asks kind)))
    (judges : ∀ kind ∈ eventKinds, ∀ run, within run →
      Leaves within ends (run.judge json pass kind))
    (weaker : ∀ run, within run → goesOn run) :
    Leaves goesOn ends (run.events venue json pass) := by
  unfold events
  apply Leaves.bind load
  intro loaded isLoaded
  apply Leaves.bind (Leaves.foldlM walks isLoaded)
  intro walked isWalked
  exact (Leaves.foldlM judges isWalked).imp weaker

end Record

end LedgerRun

end Ledger
end Datawatch
