import Datawatch.Library.Transition
import Datawatch.Ledger.History

/-!
# The ledger's events passes

An account's history is walked forward from the newest event recorded, a page at a time, and how
far the record holds it is judged once for each kind.
-/

namespace Datawatch
namespace Ledger

open Library Library.Transition Segments Wire Record Replay

/-- The kinds that make an account's history, in the order a walk asks them. -/
def eventKinds : List Kind := [.fundingPayments, .fills, .ledgerUpdates]

/-- The newest venue time among the rows of a kind: where the next ask starts. -/
def newestOf (rows : List Envelope) (kind : Kind) : Option Int :=
  ((rows.filter fun row => row.kind = kind).filterMap Envelope.atMicros).max?

/-- The earliest venue time among the rows of a kind. -/
def earliestOf (rows : List Envelope) (kind : Kind) : Option Int :=
  ((rows.filter fun row => row.kind = kind).filterMap Envelope.atMicros).min?

/-- The fill history's reach: a funding payment on an open position proves a fill at or before
it. -/
def fillsReach (earliestFill earliestFundingHeld : Option Int) : Reach :=
  match earliestFill, earliestFundingHeld with
  | some fill, some funding => if funding < fill then .lost else .consistent
  | none, some _ => .lost
  | some _, none => .consistent
  | none, none => .unknown

/-- A full page asked from the newest recorded event that starts beyond it. -/
def beyondReach (newestRecorded pageFirst : Int) (pageFull : Bool) : Bool :=
  pageFull && decide (newestRecorded < pageFirst)

/-- An account as it is asked for. -/
structure ResolvedAccount where
  venue : Venue
  alias_ : Account
  fingerprint : Text

def ResolvedAccount.recordAddress (account : ResolvedAccount) : AccountAddress :=
  ⟨account.venue.text, account.alias_.text, account.fingerprint⟩

/-- What a venue's account adapter says of its pages. -/
structure AccountVenue where
  venue : Venue
  eventsChannel : Kind → Option Text
  pageSize : Kind → Nat
  /-- A page's earliest and newest venue time and its row count, `none` for an empty page. -/
  pageSpan : List UInt8 → Option (Int × Int × Nat)
  normalise : Payload → Except Text (List Envelope)

/-- How rows are written as JSON. -/
structure Json where
  event : Event → Text
  envelope : Envelope → List UInt8
  gap : Wire.Envelope → List UInt8

/-- What the record gained, and what of it no reader sees: whether a page was the first of its
walk, and the row a generated payload was written from. -/
inductive RecordEntry
  | page (payload : Payload) (firstPage : Bool)
  | reach (payload : Payload) (reach : EventsReach)
  | gap (payload : Payload) (gap : Gap)

def RecordEntry.payload : RecordEntry → Payload
  | .page payload _ | .reach payload _ | .gap payload _ => payload

/-- A ledger: its record, oldest entry first, and what its process holds of each account. -/
structure LedgerRun where
  record : List RecordEntry := []
  nextSeq : UInt64 := 0
  newest : Account → Kind → Option Int := fun _ _ => none
  earliest : Account → Kind → Option Int := fun _ _ => none
  loaded : List Account := []
  reached : List (Account × Kind) := []
  running : Bool := true

/-- How a commit comes out: one that only fails to sync has still landed. -/
inductive Commit
  | committed
  | refused
  | unsynced
deriving DecidableEq

namespace LedgerRun

/-- Stamp a payload and commit it.  An error ends the process, with the run as it was left. -/
def append (run : LedgerRun) (entry : Payload → RecordEntry) (payload : Payload)
    (commit : Commit) : Except LedgerRun LedgerRun :=
  let stamped := { payload with seq := run.nextSeq }
  let counted := { run with nextSeq := run.nextSeq + 1 }
  match commit with
  | .committed => .ok { counted with record := run.record ++ [entry stamped] }
  | .refused => .error counted
  | .unsynced => .error { counted with record := run.record ++ [entry stamped] }

/-- Whether a payload is of an account and of one of the kinds: what a read's scopes select. -/
def inScopes (venue : Venue) (account : Account) (kinds : List Kind) (payload : Payload) : Bool :=
  match payload.address with
  | .account address =>
      address.venue = venue.text && address.account = account.text &&
        decide (payload.kind ∈ kinds.map Kind.asStr)
  | .venue _ | .market _ => false

variable (venue : AccountVenue) (json : Json)

/-- One account's events of the given kinds, one row for each identity, oldest first. -/
def read (record : List RecordEntry) (account : ResolvedAccount) (kinds : List Kind) :
    List Envelope :=
  let payloads := ((record.map RecordEntry.payload).filter
    (inScopes account.venue account.alias_ kinds)).insertionSort fun first second =>
      before first second = true
  (takeAll json.event venue.normalise kinds [] [] {} payloads).fresh.insertionSort
    fun first second => happensBefore first second = true

/-- Read an account's history back from the record, once. -/
def load (account : ResolvedAccount) (reads : Bool) (run : LedgerRun) :
    Except LedgerRun LedgerRun :=
  if account.alias_ ∈ run.loaded then .ok run
  else
    let run := { run with loaded := account.alias_ :: run.loaded }
    if reads then
      let rows := read venue json run.record account (eventKinds ++ [.accounts])
      .ok
        { run with
          newest := fun name kind =>
            if name = account.alias_ ∧ kind ∈ eventKinds then
              (newestOf rows kind).or (run.newest name kind)
            else run.newest name kind
          earliest := fun name kind =>
            if name = account.alias_ ∧ kind ∈ eventKinds then
              (earliestOf rows kind).or (run.earliest name kind)
            else run.earliest name kind
          reached := run.reached ++ rows.filterMap fun row =>
            match row.event with
            | .eventsReach reach => some (account.alias_, reach.kind)
            | _ => none }
    else .error run

/-- Record one page, before anything reads it. -/
def recordPage (account : ResolvedAccount) (kind : Kind) (channel : Text) (page : List UInt8)
    (nowMicros : Int) (firstPage : Bool) (commit : Commit) (run : LedgerRun) :
    Except LedgerRun LedgerRun :=
  run.append (.page · firstPage)
    ⟨0, nowMicros, .account account.recordAddress, channel, kind.asStr, none, .fetched, page⟩
    commit

/-- The series a kind's gaps are about. -/
def kindSeries : Kind → Series
  | .fills => .fills
  | .fundingPayments => .fundingPayments
  | _ => .ledgerUpdates

/-- Record what the venue no longer holds. -/
def recordGapFor (account : ResolvedAccount) (series : Series) (fromMicros toMicros : Int)
    (cause : GapCause) (nowMicros : Int) (commit : Commit) (run : LedgerRun) :
    Except LedgerRun LedgerRun :=
  let gap : Gap := ⟨series, fromMicros, toMicros, cause, .continuous, none⟩
  let envelope : Wire.Envelope :=
    ⟨.account account.venue account.alias_, run.nextSeq, none, nowMicros, .gap gap⟩
  run.append (.gap · gap)
    ⟨0, nowMicros, .account account.recordAddress, Kind.gaps.asStr, Kind.gaps.asStr, none,
      .generated, json.gap envelope⟩ commit

/-- Record how far this ledger holds one kind of an account's history. -/
def recordReach (account : ResolvedAccount) (kind : Kind) (reach : Reach) (nowMicros : Int)
    (commit : Commit) (run : LedgerRun) : Except LedgerRun LedgerRun := do
  let row : EventsReach := ⟨kind, reach⟩
  let envelope : Envelope :=
    ⟨account.venue, account.alias_, run.nextSeq, none, nowMicros, .eventsReach row⟩
  let run ← run.append (.reach · row)
    ⟨0, nowMicros, .account account.recordAddress, Kind.accounts.asStr, Kind.accounts.asStr,
      none, .generated, json.envelope envelope⟩ commit
  return { run with reached := (account.alias_, kind) :: run.reached }

/-- How the commits of one page come out: the page's own, and those of a gap and a reach. -/
structure Commits where
  page : Commit
  gap : Commit
  reach : Commit

/-- What a venue answers one ask with. -/
inductive Answer
  | refused
  | answered (page : List UInt8) (nowMicros : Int) (commits : Commits)

/-- Take a page's span into what is known of a kind. -/
def extend (run : LedgerRun) (account : ResolvedAccount) (kind : Kind) (first last : Int) :
    LedgerRun :=
  { run with
    earliest := fun name asked =>
      if name = account.alias_ ∧ asked = kind then
        some (((run.earliest name asked).map (min · first)).getD first)
      else run.earliest name asked
    newest := fun name asked =>
      if name = account.alias_ ∧ asked = kind then
        some (((run.newest name asked).map (max · last)).getD last)
      else run.newest name asked }

/-- A first page beyond what is recorded: the gap between them, and the reach. -/
def judgeFirst (account : ResolvedAccount) (kind : Kind) (recorded : Option Int)
    (firstPage pageFull : Bool) (first nowMicros : Int) (commits : Commits) (run : LedgerRun) :
    Except LedgerRun LedgerRun :=
  match recorded with
  | some newest =>
      if firstPage ∧ beyondReach newest first pageFull then do
        let run ← run.recordGapFor json account (kindSeries kind) newest first .beyondReach
          nowMicros commits.gap
        run.recordReach json account kind .lost nowMicros commits.reach
      else .ok run
  | none => .ok run

/-- Page forward while pages come back full.  Where the answers end the process is stopped. -/
def walkPages (account : ResolvedAccount) (kind : Kind) (channel : Text)
    (recorded : Option Int) :
    List Answer → Bool → Int → LedgerRun → Except LedgerRun LedgerRun
  | [], _, _, run => .error run
  | .refused :: _, _, _, run => .ok run
  | .answered page nowMicros commits :: answers, firstPage, start, run => do
      let run ← run.recordPage account kind channel page nowMicros firstPage commits.page
      match venue.pageSpan page with
      | none => return run
      | some (first, last, rows) =>
          let pageFull := decide (venue.pageSize kind ≤ rows)
          let run ← run.judgeFirst json account kind recorded firstPage pageFull first nowMicros
            commits
          let run := run.extend account kind first last
          if pageFull = false then return run
          -- A full page that does not move the start forward would be asked again forever.
          else if last ≤ start then return run
          else walkPages account kind channel recorded answers false last run

/-- Walk one kind of one account's history forward from the newest event recorded. -/
def walk (account : ResolvedAccount) (kind : Kind) (answers : List Answer) (run : LedgerRun) :
    Except LedgerRun LedgerRun :=
  match venue.eventsChannel kind with
  | none => .ok run
  | some channel =>
      let recorded := run.newest account.alias_ kind
      run.walkPages venue json account kind channel recorded answers true (recorded.getD 0)

/-- One account's part of a pass: whether its history can be read back, what its asks are
answered, and how the commits of its judgements come out. -/
structure AccountPass where
  account : ResolvedAccount
  reads : Bool
  asks : Kind → List Answer
  nowMicros : Int
  judged : Kind → Commit

/-- The reach of one kind, from what is known of the account. -/
def reachOf (run : LedgerRun) (name : Account) (kind : Kind) : Reach :=
  match kind with
  | .fills => fillsReach (run.earliest name .fills) (run.earliest name .fundingPayments)
  | other => if (run.earliest name other).isSome then .consistent else .unknown

/-- Record a kind's reach once.  Unknown is the absence of evidence and is not recorded. -/
def judge (pass : AccountPass) (kind : Kind) (run : LedgerRun) : Except LedgerRun LedgerRun :=
  if (pass.account.alias_, kind) ∈ run.reached then .ok run
  else if run.reachOf pass.account.alias_ kind ≠ .unknown then
    run.recordReach json pass.account kind (run.reachOf pass.account.alias_ kind) pass.nowMicros
      (pass.judged kind)
  else .ok run

/-- One account's part of a pass: every kind walked, and then every kind judged. -/
def events (pass : AccountPass) (run : LedgerRun) : Except LedgerRun LedgerRun := do
  let run ← run.load venue json pass.account pass.reads
  let run ← eventKinds.foldlM (fun run kind => walk venue json pass.account kind
    (pass.asks kind) run) run
  eventKinds.foldlM (fun run kind => judge json pass kind run) run

/-- What happens next: one account's part of a pass, or the process starting again. -/
inductive Step
  | events (pass : AccountPass)
  | restart (nowMicros : Int)

/-- A process that starts again holds the record, and sequences from its clock. -/
def restarted (run : LedgerRun) (nowMicros : Int) : LedgerRun :=
  { record := run.record, nextSeq := .ofNat nowMicros.toNat }

/-- One step.  A pass that fails ends the process. -/
def step (run : LedgerRun) : Step → Option LedgerRun
  | .restart nowMicros => some (run.restarted nowMicros)
  | .events pass =>
      if run.running then
        match run.events venue json pass with
        | .ok run => some run
        | .error run => some { run with running := false }
      else none

end LedgerRun

end Ledger
end Datawatch
