import Datawatch.Library.Pages
import Datawatch.Ledger.Evidence

/-!
# A walk skips nothing and ends

Each page of a walk holds the oldest events at or after where it is asked from, and the next is
asked from its last event's own moment.  So what lies before where a ledger resumes is on record,
through refusals, stalls, crashes and restarts, and a walk that reports neither a refusal nor a
stall has the rest.
-/

namespace Datawatch
namespace Ledger

open Library Library.Outcome Library.Transition Segments Wire Record Replay

/-- The events a venue holds of each account and kind, oldest first and in whole milliseconds
since the epoch, and how it writes a page of them. -/
structure EventHistory (Item : Type) where
  items : Account → Kind → List Item
  millis : Item → Int
  write : List Item → List UInt8
  sorted : ∀ account kind,
    (items account kind).Pairwise fun first second => millis first ≤ millis second
  dated : ∀ account kind, ∀ item ∈ items account kind, 0 ≤ millis item

namespace EventHistory

variable {Item : Type} (history : EventHistory Item)

/-- An event's time as the ledger keeps it. -/
def micros (item : Item) : Int := millisToMicros (history.millis item)

/-- The venue's page: the oldest events at or after the start, asked for in whole
milliseconds. -/
def page (account : Account) (kind : Kind) (size : Nat) (startMicros : Int) : List Item :=
  Pages.oldest history.millis (history.items account kind) size (startMicros.tdiv 1000)

/-- A page's first and last time and its row count, `none` for an empty page. -/
def span (items : List Item) : Option (Int × Int × Nat) :=
  items.head?.bind fun first => items.getLast?.map fun last =>
    (history.micros first, history.micros last, items.length)

variable {history} {account : Account} {kind : Kind} {item other : Item} {size : Nat}
  {startMicros : Int}

/-- An event's time in microseconds is exact, where it fits. -/
theorem micros_of_mem (isItem : item ∈ history.items account kind) :
    history.micros item = min (history.millis item * 1000) i64Max := by
  have := history.dated account kind item isItem
  have least : i64Min ≤ 0 := by decide
  have most : 0 ≤ i64Max := by decide
  rw [micros, millisToMicros]
  omega

/-- A page is asked for from no later than its start. -/
theorem tdiv_le_millis (isItem : item ∈ history.items account kind)
    (later : startMicros ≤ history.micros item) :
    startMicros.tdiv 1000 ≤ history.millis item := by
  rw [micros_of_mem isItem] at later
  exact tdiv_le_of_le (le_trans later (min_le_left _ _))

theorem mem_page (member : item ∈ history.page account kind size startMicros) :
    item ∈ history.items account kind :=
  (Pages.mem_of_mem_oldest member).1

/-- An event at or after a page's start and before one of the page is in the page. -/
theorem mem_page_of_lt (isItem : item ∈ history.items account kind)
    (later : startMicros ≤ history.micros item)
    (isOther : other ∈ history.page account kind size startMicros)
    (before : history.micros item < history.micros other) :
    item ∈ history.page account kind size startMicros := by
  by_contra leftOut
  rw [micros_of_mem isItem, micros_of_mem (mem_page isOther)] at before
  have notLater := (Pages.full_of_not_mem_oldest (history.sorted account kind) isItem
    (tdiv_le_millis isItem later) leftOut).2 other isOther
  omega

/-- A page that is not full holds every event at or after its start. -/
theorem mem_page_of_short (isItem : item ∈ history.items account kind)
    (later : startMicros ≤ history.micros item)
    (short : (history.page account kind size startMicros).length < size) :
    item ∈ history.page account kind size startMicros := by
  by_contra leftOut
  have full := (Pages.full_of_not_mem_oldest (history.sorted account kind) isItem
    (tdiv_le_millis isItem later) leftOut).1
  exact absurd full short.ne

/-- A page has a span exactly where it has an event, and then its last event is in it. -/
theorem span_eq_some {items : List Item} {first last : Int} {rows : Nat}
    (isSpan : history.span items = some (first, last, rows)) :
    rows = items.length ∧ ∃ item, items.getLast? = some item ∧ history.micros item = last := by
  simp only [span, Option.bind_eq_some_iff, Option.map_eq_some_iff, Prod.mk.injEq] at isSpan
  obtain ⟨_, _, item, isLast, _, isMicros, rfl⟩ := isSpan
  exact ⟨rfl, item, isLast, isMicros⟩

theorem span_eq_none {items : List Item} (noSpan : history.span items = none) : items = [] := by
  cases items with
  | nil => rfl
  | cons head rest =>
      simp only [span, List.head?_cons, Option.bind_some, Option.map_eq_none_iff,
        List.getLast?_eq_none_iff] at noSpan
      cases noSpan

end EventHistory

namespace LedgerRun

variable {Item : Type} (venue : AccountVenue) (json : Json) (history : EventHistory Item)

/-- The ledger's venue reads the pages its history is written in: a page's span is its events',
its rows are of its kind and of its events' times, and a generated payload has none. -/
structure Serves : Prop where
  span : ∀ items, venue.pageSpan (history.write items) = history.span items
  rows : ∀ account kind channel items nowMicros seq, ∀ row ∈ rowsOf venue.normalise
      (pagePayload account kind channel (history.write items) nowMicros seq),
    row.kind = kind ∧ ∀ time, row.atMicros = some time →
      ∃ item ∈ items, time = history.micros item
  generated : ∀ payload, payload.origin = .generated → rowsOf venue.normalise payload = []
  full : ∀ kind, 0 < venue.pageSize kind
  channel : ∀ kind ∈ eventKinds, (venue.eventsChannel kind).isSome

/-- The answers to a walk's asks are refusals and the venue's pages, each from where it is
asked. -/
def Follows (account : Account) (kind : Kind) : List Answer → Int → Prop
  | [], _ => True
  | .refused :: _, _ => True
  | .answered page _ _ :: answers, start =>
      page = history.write (history.page account kind (venue.pageSize kind) start) ∧
        ∀ first last rows, venue.pageSpan page = some (first, last, rows) →
          venue.pageSize kind ≤ rows → start < last →
            Follows account kind answers last

/-- An event is on record: a page recorded of its account and kind holds it. -/
def Archived (record : List RecordEntry) (account : Account) (kind : Kind) (item : Item) :
    Prop :=
  ∃ payload firstPage items, .page payload firstPage ∈ record ∧
    inScopes venue.venue account [kind] payload ∧ payload.payload = history.write items ∧
      item ∈ items

/-- What a walk counts: the pages recorded, the asks that did not answer, and whether it stopped
because a full page did not advance. -/
structure EventsPass where
  pages : Nat := 0
  missed : Nat := 0
  stalled : Nat := 0

/-- What a walk counts, answer by answer. -/
def walkReport (kind : Kind) : List Answer → Int → EventsPass
  | [], _ => {}
  | .refused :: _, _ => { missed := 1 }
  | .answered page _ _ :: answers, start =>
      match venue.pageSpan page with
      | none => { pages := 1 }
      | some (_, last, rows) =>
          if rows < venue.pageSize kind then { pages := 1 }
          else if last ≤ start then { pages := 1, stalled := 1 }
          else
            let rest := walkReport kind answers last
            { rest with pages := rest.pages + 1 }

/-- The answers to a walk, where which asks are refused and how the commits come out is given
ask by ask. -/
def answersFor (account : Account) (kind : Kind) (ask : Nat → Option (Int × Commits)) :
    Nat → Nat → Int → List Answer
  | 0, _, _ => []
  | fuel + 1, asked, start =>
      match ask asked with
      | none => [.refused]
      | some (nowMicros, commits) =>
          let items := history.page account kind (venue.pageSize kind) start
          .answered (history.write items) nowMicros commits ::
            match history.span items with
            | some (_, last, rows) =>
                if venue.pageSize kind ≤ rows ∧ start < last then
                  answersFor account kind ask fuel (asked + 1) last
                else []
            | none => []

/-- Commits that all land. -/
def Commits.landed : Commits := ⟨.committed, .committed, .committed⟩

section Walk

variable {venue json history} {record : List RecordEntry} {run : LedgerRun}
  {account : ResolvedAccount} {kind : Kind} {channel : Text} {recorded : Option Int}
  {firstPage : Bool} {start : Int}

/-! ## A walk ends -/

/-- How many events lie after a moment. -/
def laterThan (history : EventHistory Item) (account : Account) (kind : Kind) (start : Int) :
    Nat :=
  ((history.items account kind).filter fun item => decide (start < history.micros item)).length

/-- Fewer events lie after a later event. -/
theorem laterThan_lt {name : Account} {item : Item} (isItem : item ∈ history.items name kind)
    (later : start < history.micros item) :
    laterThan history name kind (history.micros item) < laterThan history name kind start := by
  have within : (history.items name kind).filter (fun other =>
        decide (history.micros item < history.micros other)) =
      ((history.items name kind).filter fun other =>
        decide (start < history.micros other)).filter fun other =>
          decide (history.micros item < history.micros other) := by
    rw [List.filter_filter]
    apply List.filter_congr
    intro other _
    rw [Bool.eq_iff_iff, Bool.and_eq_true, decide_eq_true_eq, decide_eq_true_eq]
    omega
  rw [laterThan, within, laterThan, List.length_filter_lt_length_iff_exists]
  exact ⟨item, List.mem_filter.mpr ⟨isItem, decide_eq_true later⟩, by simp⟩

/-- With an ask for each event after its start and one more, a walk asks for nothing else. -/
theorem walkPages_answersFor (serves : Serves venue history)
    (ask : Nat → Option (Int × Commits)) {fuel asked : Nat}
    (enough : laterThan history account.alias_ kind start < fuel) (more : List Answer) :
    run.walkPages venue json account kind channel recorded
        (answersFor venue history account.alias_ kind ask fuel asked start ++ more) firstPage
        start =
      run.walkPages venue json account kind channel recorded
        (answersFor venue history account.alias_ kind ask fuel asked start) firstPage start := by
  induction fuel generalizing run asked firstPage start with
  | zero => exact absurd enough (Nat.not_lt_zero _)
  | succ fuel inductionHypothesis =>
      rw [answersFor]
      cases ask asked with
      | none => rfl
      | some answered =>
          obtain ⟨nowMicros, commits⟩ := answered
          simp only [List.cons_append, walkPages]
          apply congrArg (Bind.bind _)
          funext next
          rw [serves.span]
          cases isSpan : history.span
              (history.page account.alias_ kind (venue.pageSize kind) start) with
          | none => rfl
          | some span =>
              obtain ⟨first, last, rows⟩ := span
              apply congrArg (Bind.bind _)
              funext judged
              simp only
              split
              · rfl
              · split
                · rfl
                · rename_i full advanced
                  rw [decide_eq_false_iff_not, not_not] at full
                  rw [if_pos ⟨full, not_le.mp advanced⟩]
                  obtain ⟨_, item, isLast, rfl⟩ := EventHistory.span_eq_some isSpan
                  apply inductionHypothesis
                  have fewer := laterThan_lt
                    (EventHistory.mem_page (List.mem_of_getLast? isLast)) (not_le.mp advanced)
                  omega

/-- Judging a first page goes on where its commits land. -/
theorem judgeFirst_landed {pageFull : Bool} {first nowMicros : Int} :
    ∃ next, run.judgeFirst json account kind recorded firstPage pageFull first nowMicros .landed =
      .ok next := by
  unfold judgeFirst
  cases recorded with
  | none => exact ⟨_, rfl⟩
  | some newest =>
      simp only
      split
      · exact ⟨_, rfl⟩
      · exact ⟨_, rfl⟩

/-- With an ask for each event after its start and one more, whichever are refused, a walk whose
commits land comes to its end. -/
theorem walkPages_landed (serves : Serves venue history) {ask : Nat → Option (Int × Commits)}
    (lands : ∀ asked, ∀ answered ∈ ask asked, answered.2 = .landed) {fuel asked : Nat}
    (enough : laterThan history account.alias_ kind start < fuel) :
    ∃ next, run.walkPages venue json account kind channel recorded
      (answersFor venue history account.alias_ kind ask fuel asked start) firstPage start =
        .ok next := by
  induction fuel generalizing run asked firstPage start with
  | zero => exact absurd enough (Nat.not_lt_zero _)
  | succ fuel inductionHypothesis =>
      rw [answersFor]
      cases isAsk : ask asked with
      | none => exact ⟨run, rfl⟩
      | some answered =>
          obtain ⟨nowMicros, commits⟩ := answered
          obtain rfl : commits = .landed := lands asked _ isAsk
          obtain ⟨taken, isTaken⟩ : ∃ taken, run.recordPage account kind channel
              (history.write (history.page account.alias_ kind (venue.pageSize kind) start))
              nowMicros firstPage Commits.landed.page = .ok taken := ⟨_, rfl⟩
          simp only [walkPages, isTaken, bind, Except.bind, serves.span]
          cases isSpan : history.span
              (history.page account.alias_ kind (venue.pageSize kind) start) with
          | none => exact ⟨taken, rfl⟩
          | some span =>
              obtain ⟨first, last, rows⟩ := span
              obtain ⟨judged, isJudged⟩ := @judgeFirst_landed json taken account kind recorded
                firstPage (decide (venue.pageSize kind ≤ rows)) first nowMicros
              simp only [isJudged]
              split
              · exact ⟨_, rfl⟩
              · split
                · exact ⟨_, rfl⟩
                · rename_i full advanced
                  rw [decide_eq_false_iff_not, not_not] at full
                  rw [if_pos ⟨full, not_le.mp advanced⟩]
                  obtain ⟨_, item, isLast, rfl⟩ := EventHistory.span_eq_some isSpan
                  apply inductionHypothesis
                  have fewer := laterThan_lt
                    (EventHistory.mem_page (List.mem_of_getLast? isLast)) (not_le.mp advanced)
                  omega

/-- The answers given ask by ask are the venue's. -/
theorem follows_answersFor (serves : Serves venue history) {name : Account}
    (ask : Nat → Option (Int × Commits)) {fuel asked : Nat} :
    Follows venue history name kind (answersFor venue history name kind ask fuel asked start)
      start := by
  induction fuel generalizing asked start with
  | zero => trivial
  | succ fuel inductionHypothesis =>
      rw [answersFor]
      cases ask asked with
      | none => trivial
      | some answered =>
          refine ⟨rfl, ?_⟩
          intro first last rows isSpan full advanced
          rw [serves.span] at isSpan
          simp only [isSpan, if_pos (And.intro full advanced)]
          exact inductionHypothesis

/-- Judging a first page forgets nothing recorded, and knows no other event. -/
theorem frame_judgeFirst {base : List RecordEntry} (within : base ⊆ run.record) {pageFull : Bool}
    {first nowMicros : Int} {commits : Commits} :
    Leaves (fun next => base ⊆ next.record ∧ next.newest = run.newest)
      (fun left => base ⊆ left.record)
      (run.judgeFirst json account kind recorded firstPage pageFull first nowMicros commits) := by
  have more : ∀ {record : List RecordEntry} (entry : RecordEntry), base ⊆ record →
      base ⊆ record ++ [entry] :=
    fun _ held _ member => List.mem_append_left _ (held member)
  unfold judgeFirst
  cases recorded with
  | none => exact ⟨within, rfl⟩
  | some newest =>
      simp only
      split
      · apply @Leaves.bind _ _ _ (fun next => base ⊆ next.record ∧ next.newest = run.newest)
        · apply leaves_recordGapFor nowMicros commits.gap
          · intro payload _
            exact ⟨more _ within, rfl⟩
          · rintro record (rfl | ⟨payload, _, rfl⟩) left isLeft
            · rw [isLeft]
              exact within
            · rw [isLeft]
              exact more _ within
        · rintro next ⟨held, sameNewest⟩
          apply leaves_recordReach nowMicros commits.reach
          · intro payload _
            exact ⟨more _ held, sameNewest⟩
          · rintro record (rfl | ⟨payload, _, rfl⟩) left isLeft
            · rw [isLeft]
              exact held
            · rw [isLeft]
              exact more _ held
      · exact ⟨within, rfl⟩

/-- A walk forgets nothing recorded, and knows no other kind's events. -/
theorem frame_walkPages {base : List RecordEntry} (within : base ⊆ run.record)
    {answers : List Answer} :
    Leaves (fun next => base ⊆ next.record ∧ ∀ asked, asked ≠ kind →
        next.newest account.alias_ asked = run.newest account.alias_ asked)
      (fun left => base ⊆ left.record)
      (run.walkPages venue json account kind channel recorded answers firstPage start) := by
  have more : ∀ entry : RecordEntry, base ⊆ run.record ++ [entry] :=
    fun _ _ member => List.mem_append_left _ (within member)
  induction answers generalizing run firstPage start with
  | nil => exact within
  | cons answer answers inductionHypothesis =>
      cases answer with
      | refused => exact ⟨within, fun _ _ => rfl⟩
      | answered page nowMicros commits =>
          rw [walkPages]
          apply @Leaves.bind _ _ _ (fun next => base ⊆ next.record ∧ next.newest = run.newest)
          · apply leaves_append commits.page
            · exact ⟨more _, rfl⟩
            · exact within
            · exact more _
          · rintro next ⟨held, sameNewest⟩
            cases venue.pageSpan page with
            | none => exact ⟨held, fun asked _ => by rw [sameNewest]⟩
            | some span =>
                obtain ⟨first, last, rows⟩ := span
                apply Leaves.bind (frame_judgeFirst held)
                rintro judged ⟨isHeld, isSame⟩
                have others : ∀ asked, asked ≠ kind →
                    (judged.extend account kind first last).newest account.alias_ asked =
                      run.newest account.alias_ asked := by
                  intro asked other
                  simp only [extend, other, and_false, if_false, isSame, sameNewest]
                simp only
                split
                · exact ⟨isHeld, others⟩
                · split
                  · exact ⟨isHeld, others⟩
                  · refine (@inductionHypothesis (judged.extend account kind first last) _ _
                      isHeld fun _ _ member => List.mem_append_left _ (isHeld member)).imp ?_
                    rintro after ⟨afterHeld, afterOthers⟩
                    exact ⟨afterHeld, fun asked other =>
                      (afterOthers asked other).trans (others asked other)⟩

/-- What is archived stays archived. -/
theorem Archived.mono {more : List RecordEntry} {name : Account} {item : Item}
    (archived : Archived venue history record name kind item) (within : record ⊆ more) :
    Archived venue history more name kind item := by
  rcases archived with ⟨payload, firstPage, items, member, found⟩
  exact ⟨payload, firstPage, items, within member, found⟩

/-- A page's events are archived once it is recorded. -/
theorem archived_of_page (ours : account.venue = venue.venue) {items : List Item} {item : Item}
    {nowMicros : Int} {seq : UInt64}
    (recorded : .page (pagePayload account kind channel (history.write items) nowMicros seq)
      firstPage ∈ record) (member : item ∈ items) :
    Archived venue history record account.alias_ kind item :=
  ⟨_, firstPage, items, recorded, (inScopes_pagePayload ours).mpr ⟨rfl, rfl⟩, rfl, member⟩

/-- **A walk that reports neither a refusal nor a stall leaves nothing out.** -/
theorem walkPages_archives (serves : Serves venue history) (ours : account.venue = venue.venue)
    {answers : List Answer}
    (follows : Follows venue history account.alias_ kind answers start) :
    Leaves (fun next => (walkReport venue kind answers start).missed = 0 →
        (walkReport venue kind answers start).stalled = 0 →
        ∀ item ∈ history.items account.alias_ kind, start ≤ history.micros item →
          Archived venue history next.record account.alias_ kind item)
      (fun _ => True)
      (run.walkPages venue json account kind channel recorded answers firstPage start) := by
  induction answers generalizing run firstPage start with
  | nil => trivial
  | cons answer answers inductionHypothesis =>
      cases answer with
      | refused => exact fun noneMissed => by cases noneMissed
      | answered page nowMicros commits =>
          obtain ⟨rfl, continues⟩ := follows
          let items := history.page account.alias_ kind (venue.pageSize kind) start
          rw [walkPages]
          let entry := RecordEntry.page (pagePayload account kind channel (history.write items)
            nowMicros run.nextSeq) firstPage
          apply @Leaves.bind _ _ _ (fun next => [entry] ⊆ next.record)
          · apply leaves_append commits.page
            · exact List.subset_append_right _ _
            · trivial
            · trivial
          · intro next held
            have inPage : ∀ after : LedgerRun, [entry] ⊆ after.record → ∀ item ∈ items,
                Archived venue history after.record account.alias_ kind item :=
              fun after isHeld item member =>
                archived_of_page ours (isHeld (List.mem_singleton_self _)) member
            rw [walkReport, serves.span] at *
            cases isSpan : history.span items with
            | none =>
                intro _ _ item isItem later
                have empty := EventHistory.span_eq_none isSpan
                have member := EventHistory.mem_page_of_short isItem later (by
                  rw [show history.page account.alias_ kind (venue.pageSize kind) start = [] from
                    empty]
                  exact serves.full kind)
                exact inPage next held item member
            | some span =>
                obtain ⟨first, last, rows⟩ := span
                obtain ⟨isLength, lastItem, isLast, isMicros⟩ := EventHistory.span_eq_some isSpan
                have isLastItem := List.mem_of_getLast? isLast
                apply Leaves.bind (frame_judgeFirst held).whateverEnds
                rintro judged ⟨isHeld, _⟩
                simp only
                by_cases short : rows < venue.pageSize kind
                · rw [if_pos short, if_pos (decide_eq_false (not_le.mpr short))]
                  intro _ _ item isItem later
                  exact inPage judged isHeld item
                    (EventHistory.mem_page_of_short isItem later (isLength ▸ short))
                · have full := not_lt.mp short
                  rw [if_neg short, decide_eq_true full]
                  simp only [Bool.true_eq_false, if_false]
                  by_cases stuck : last ≤ start
                  · simp only [if_pos stuck]
                    intro _ noneStalled
                    cases noneStalled
                  · simp only [if_neg stuck]
                    have follows := continues first last rows isSpan full (not_le.mp stuck)
                    have extended : [entry] ⊆ (judged.extend account kind first last).record :=
                      isHeld
                    refine ((inductionHypothesis follows).and
                      (frame_walkPages extended).whateverEnds).imp ?_
                    rintro after ⟨archives, afterHeld, _⟩ noneMissed noneStalled item isItem later
                    rcases lt_or_ge (history.micros item) last with before | atLast
                    · rw [← isMicros] at before
                      exact inPage after afterHeld item
                        (EventHistory.mem_page_of_lt isItem later isLastItem before)
                    · exact archives noneMissed noneStalled item isItem atLast

/-! ## What lies before where a process resumes -/

variable (venue history) in
/-- Every event before a moment is archived. -/
def Reached (record : List RecordEntry) (name : Account) (kind : Kind) (moment : Int) : Prop :=
  ∀ item ∈ history.items name kind, history.micros item < moment →
    Archived venue history record name kind item

variable (venue history) in
/-- A record whose rows are of their payloads' kinds, with every event before any time it
holds. -/
structure GatheredRecord (record : List RecordEntry) : Prop where
  ofKind : ∀ entry ∈ record, ∀ row ∈ rowsOf venue.normalise entry.payload,
    row.kind.asStr = entry.payload.kind
  times : ∀ name, ∀ kind ∈ eventKinds, ∀ time ∈ timesOf venue record name kind,
    Reached venue history record name kind time

variable (venue history) in
/-- A process with every event before the newest it knows of any kind. -/
structure Gathered (run : LedgerRun) : Prop where
  record : GatheredRecord venue history run.record
  newest : ∀ name, ∀ kind ∈ eventKinds, ∀ time, run.newest name kind = some time →
    Reached venue history run.record name kind time

theorem Reached.mono {more : List RecordEntry} {name : Account} {moment : Int}
    (reached : Reached venue history record name kind moment) (within : record ⊆ more) :
    Reached venue history more name kind moment :=
  fun item isItem before => (reached item isItem before).mono within

/-- An entry whose rows are of its kind, with every event before each of their times, keeps a
record gathered. -/
theorem GatheredRecord.concat (gathered : GatheredRecord venue history record)
    {entry : RecordEntry}
    (ofKind : ∀ row ∈ rowsOf venue.normalise entry.payload, row.kind.asStr = entry.payload.kind)
    (times : ∀ name, ∀ kind ∈ eventKinds, inScopes venue.venue name [kind] entry.payload →
      ∀ time ∈ timesIn venue kind entry.payload,
        Reached venue history (record ++ [entry]) name kind time) :
    GatheredRecord venue history (record ++ [entry]) := by
  constructor
  · intro other member
    rcases List.mem_append.mp member with held | new
    · exact gathered.ofKind other held
    · rwa [List.mem_singleton.mp new]
  · intro name kind isEvent time member
    rw [timesOf_concat] at member
    rcases List.mem_append.mp member with held | new
    · exact (gathered.times name kind isEvent time held).mono (List.subset_append_left _ _)
    · split at new
      · rename_i inScope
        exact times name kind isEvent inScope time new
      · cases new

/-- A generated entry keeps a record gathered. -/
theorem GatheredRecord.generated (gathered : GatheredRecord venue history record)
    (serves : Serves venue history) {entry : RecordEntry}
    (isGenerated : entry.payload.origin = .generated) :
    GatheredRecord venue history (record ++ [entry]) := by
  have noRows := serves.generated entry.payload isGenerated
  apply gathered.concat
  · simp [noRows]
  · simp [timesIn, noRows]

/-- Every event before one of a page is archived once the page is, where every event before the
page's start was. -/
theorem reached_of_page (ours : account.venue = venue.venue) {nowMicros : Int} {seq : UInt64}
    (before : Reached venue history record account.alias_ kind start) {item : Item}
    (member : item ∈ history.page account.alias_ kind (venue.pageSize kind) start) :
    Reached venue history (record ++ [.page (pagePayload account kind channel
      (history.write (history.page account.alias_ kind (venue.pageSize kind) start)) nowMicros
      seq) firstPage]) account.alias_ kind (history.micros item) := by
  intro other isOther earlier
  rcases lt_or_ge (history.micros other) start with sooner | later
  · exact (before other isOther sooner).mono (List.subset_append_left _ _)
  · exact archived_of_page ours (List.mem_append_right _ (List.mem_singleton_self _))
      (EventHistory.mem_page_of_lt isOther later member earlier)

/-- A page keeps a record gathered, where every event before its start is archived. -/
theorem GatheredRecord.page (gathered : GatheredRecord venue history record)
    (serves : Serves venue history) (ours : account.venue = venue.venue) {nowMicros : Int}
    {seq : UInt64} (before : Reached venue history record account.alias_ kind start) :
    GatheredRecord venue history (record ++ [.page (pagePayload account kind channel
      (history.write (history.page account.alias_ kind (venue.pageSize kind) start)) nowMicros
      seq) firstPage]) := by
  have rows := serves.rows account kind channel
    (history.page account.alias_ kind (venue.pageSize kind) start) nowMicros seq
  apply gathered.concat
  · intro row isRow
    rw [(rows row isRow).1]
    rfl
  · intro name asked _ inScope time isTime
    obtain ⟨rfl, sameKind⟩ := (inScopes_pagePayload ours).mp inScope
    obtain rfl := Kind.asStr_injective sameKind
    simp only [timesIn, List.mem_filterMap, List.mem_filter] at isTime
    obtain ⟨row, ⟨isRow, _⟩, atTime⟩ := isTime
    obtain ⟨item, member, rfl⟩ := (rows row isRow).2 time atTime
    exact reached_of_page ours before member

/-- Judging a first page keeps what is gathered. -/
theorem gathered_judgeFirst (serves : Serves venue history)
    (gathered : GatheredRecord venue history run.record) {pageFull : Bool}
    {first nowMicros : Int} {commits : Commits} :
    Leaves (fun next => GatheredRecord venue history next.record)
      (fun left => GatheredRecord venue history left.record)
      (run.judgeFirst json account kind recorded firstPage pageFull first nowMicros commits) := by
  unfold judgeFirst
  cases recorded with
  | none => exact gathered
  | some newest =>
      simp only
      split
      · apply @Leaves.bind _ _ _ (fun next => GatheredRecord venue history next.record)
        · apply leaves_recordGapFor nowMicros commits.gap
          · intro payload isGenerated
            exact gathered.generated serves isGenerated.origin
          · rintro record (rfl | ⟨payload, isGenerated, rfl⟩) left isLeft
            · rw [isLeft]
              exact gathered
            · rw [isLeft]
              exact gathered.generated serves isGenerated.origin
        · intro next isNext
          apply leaves_recordReach nowMicros commits.reach
          · intro payload isGenerated
            exact isNext.generated serves isGenerated.origin
          · rintro record (rfl | ⟨payload, isGenerated, rfl⟩) left isLeft
            · rw [isLeft]
              exact isNext
            · rw [isLeft]
              exact isNext.generated serves isGenerated.origin
      · exact gathered

/-- A walk of the venue's pages keeps what is gathered, from wherever every event before its
start is archived. -/
theorem gathered_walkPages (serves : Serves venue history) (ours : account.venue = venue.venue)
    {answers : List Answer} (gathered : Gathered venue history run)
    (before : Reached venue history run.record account.alias_ kind start)
    (follows : Follows venue history account.alias_ kind answers start) :
    Leaves (Gathered venue history) (fun left => GatheredRecord venue history left.record)
      (run.walkPages venue json account kind channel recorded answers firstPage start) := by
  induction answers generalizing run firstPage start with
  | nil => exact gathered.record
  | cons answer answers inductionHypothesis =>
      cases answer with
      | refused => exact gathered
      | answered page nowMicros commits =>
          obtain ⟨rfl, continues⟩ := follows
          let items := history.page account.alias_ kind (venue.pageSize kind) start
          have paged : GatheredRecord venue history (run.record ++ [.page (pagePayload account
              kind channel (history.write items) nowMicros run.nextSeq) firstPage]) :=
            gathered.record.page serves ours before
          rw [walkPages]
          apply @Leaves.bind _ _ _ (fun next => next = { run with
            nextSeq := run.nextSeq + 1
            record := run.record ++ [.page (pagePayload account kind channel
              (history.write items) nowMicros run.nextSeq) firstPage] })
          · apply leaves_append commits.page
            · rfl
            · exact gathered.record
            · exact paged
          · rintro next rfl
            rw [serves.span] at *
            cases isSpan : history.span items with
            | none =>
                refine ⟨paged, ?_⟩
                intro name asked isAsked time isTime
                exact (gathered.newest name asked isAsked time isTime).mono
                  (List.subset_append_left _ _)
            | some span =>
                obtain ⟨first, last, rows⟩ := span
                obtain ⟨_, lastItem, isLast, rfl⟩ := EventHistory.span_eq_some isSpan
                refine Leaves.bind ((gathered_judgeFirst serves paged).and
                  (frame_judgeFirst (List.Subset.refl _)).whateverEnds) ?_
                rintro judged ⟨isGathered, isHeld, sameNewest⟩
                -- Every event before the page's last is archived with it.
                have reached : Reached venue history judged.record account.alias_ kind
                    (history.micros lastItem) :=
                  (reached_of_page ours before (List.mem_of_getLast? isLast)).mono isHeld
                have extended : Gathered venue history
                    (judged.extend account kind first (history.micros lastItem)) := by
                  refine ⟨isGathered, ?_⟩
                  intro name asked isAsked time isTime
                  have old : ∀ time, run.newest name asked = some time →
                      Reached venue history judged.record name asked time := by
                    intro time isOld
                    exact ((gathered.newest name asked isAsked time isOld).mono
                      (List.subset_append_left _ _)).mono isHeld
                  simp only [extend, sameNewest] at isTime
                  split at isTime
                  · rename_i same
                    obtain ⟨rfl, rfl⟩ := same
                    cases isOld : run.newest account.alias_ asked with
                    | none =>
                        simp only [isOld, Option.map_none, Option.getD_none,
                          Option.some.injEq] at isTime
                        rw [← isTime]
                        exact reached
                    | some newest =>
                        simp only [isOld, Option.map_some, Option.getD_some,
                          Option.some.injEq] at isTime
                        intro item isItem earlier
                        rw [← isTime, lt_max_iff] at earlier
                        rcases earlier with beforeOld | beforeLast
                        · exact old newest isOld item isItem beforeOld
                        · exact reached item isItem beforeLast
                  · exact old time isTime
                simp only
                split
                · exact extended
                · split
                  · exact extended
                  · rename_i full advanced
                    rw [decide_eq_false_iff_not, not_not] at full
                    exact inductionHypothesis extended reached
                      (continues first _ rows isSpan full (not_le.mp advanced))

/-- A process that loads an account knows no event later than one of the record. -/
theorem gathered_load (ours : account.venue = venue.venue)
    (gathered : Gathered venue history run) (reads : Bool) :
    Leaves (fun next => Gathered venue history next ∧ next.record = run.record)
      (fun left => GatheredRecord venue history left.record)
      (run.load venue json account reads) := by
  unfold load
  split
  · exact ⟨gathered, rfl⟩
  · cases reads with
    | false => exact gathered.record
    | true =>
        refine ⟨⟨gathered.record, ?_⟩, rfl⟩
        intro name kind isEvent time isTime
        simp only at isTime
        split at isTime
        · rename_i asked
          obtain ⟨rfl, _⟩ := asked
          rcases Option.or_eq_some_iff.mp isTime with isRead | ⟨_, isKnown⟩
          · have isTimeOf := mem_timesOf_of_read gathered.record.ofKind ours
              (List.max?_eq_some_iff.mp isRead).1
            exact gathered.record.times _ kind isEvent time isTimeOf
          · exact gathered.newest _ kind isEvent time isKnown
        · exact gathered.newest name kind isEvent time isTime

/-- Before what a process knows of a kind, and before the epoch where it knows nothing, every
event is archived. -/
theorem Gathered.reached_next (gathered : Gathered venue history run) {name : Account}
    (isEvent : kind ∈ eventKinds) :
    Reached venue history run.record name kind ((run.newest name kind).getD 0) := by
  cases isNewest : run.newest name kind with
  | none =>
      intro item isItem before
      have since := history.dated name kind item isItem
      have most : 0 ≤ i64Max := by decide
      rw [EventHistory.micros_of_mem isItem, Option.getD_none] at before
      omega
  | some newest => exact gathered.newest name kind isEvent newest isNewest

/-- A walk of one kind keeps what is gathered, and where the others are asked from. -/
theorem gathered_walk (serves : Serves venue history) (ours : account.venue = venue.venue)
    (isEvent : kind ∈ eventKinds) {answers : List Answer} (gathered : Gathered venue history run)
    (follows : Follows venue history account.alias_ kind answers
      ((run.newest account.alias_ kind).getD 0)) :
    Leaves (fun next => Gathered venue history next ∧ ∀ asked, asked ≠ kind →
        next.newest account.alias_ asked = run.newest account.alias_ asked)
      (fun left => GatheredRecord venue history left.record)
      (run.walk venue json account kind answers) := by
  unfold walk
  cases venue.eventsChannel kind with
  | none => exact ⟨gathered, fun _ _ => rfl⟩
  | some channel =>
      refine ((gathered_walkPages serves ours gathered (gathered.reached_next isEvent) follows).and
        (frame_walkPages (List.Subset.refl _)).whateverEnds).imp ?_
      rintro next ⟨isGathered, _, others⟩
      exact ⟨isGathered, others⟩

variable (venue json history) in
/-- A pass's asks are answered by the venue, each kind's from where its walk starts. -/
structure PassFollows (run : LedgerRun) (pass : AccountPass) : Prop where
  ours : pass.account.venue = venue.venue
  asks : ∀ loaded, run.load venue json pass.account pass.reads = .ok loaded →
    ∀ kind ∈ eventKinds, Follows venue history pass.account.alias_ kind (pass.asks kind)
      ((loaded.newest pass.account.alias_ kind).getD 0)

/-- A pass keeps what is gathered. -/
theorem gathered_events (serves : Serves venue history) {pass : AccountPass}
    (gathered : Gathered venue history run) (follows : PassFollows venue json history run pass) :
    Leaves (Gathered venue history) (fun left => GatheredRecord venue history left.record)
      (run.events venue json pass) := by
  unfold events
  have leaves := @gathered_load _ venue json history run pass.account follows.ours gathered
    pass.reads
  cases isLoad : run.load venue json pass.account pass.reads with
  | error left =>
      rw [isLoad] at leaves
      exact leaves
  | ok loaded =>
      rw [isLoad] at leaves
      change Leaves _ _ (eventKinds.foldlM (fun run kind => walk venue json pass.account kind
        (pass.asks kind) run) loaded >>= fun run =>
          eventKinds.foldlM (fun run kind => judge json pass kind run) run)
      refine Leaves.bind (@Leaves.foldlM_each _ _ _ (Gathered venue history) _ _ eventKinds
        (by decide) (fun kind run => run.newest pass.account.alias_ kind =
          loaded.newest pass.account.alias_ kind) ?_ loaded leaves.1 fun _ _ => rfl) ?_
      · intro kind isEvent next isNext sameNewest
        have fromHere := follows.asks loaded isLoad kind isEvent
        rw [← sameNewest] at fromHere
        refine (gathered_walk serves follows.ours isEvent isNext fromHere).imp ?_
        rintro after ⟨isAfter, others⟩
        exact ⟨isAfter, fun other different same => (others other different).trans same⟩
      · intro walked isWalked
        apply Leaves.foldlM _ isWalked
        intro kind _ next isNext
        unfold judge
        split
        · exact isNext
        · split
          · have kept : ∀ payload row, payload.origin = .generated →
                GatheredRecord venue history (next.record ++ [.reach payload row]) :=
              fun payload row isGenerated =>
                @GatheredRecord.generated _ _ _ _ isNext.record serves (.reach payload row)
                  isGenerated
            apply leaves_recordReach
            · intro payload isGenerated
              refine ⟨kept _ _ isGenerated.origin, ?_⟩
              intro name asked isAsked time isTime
              exact (isNext.newest name asked isAsked time isTime).mono
                (List.subset_append_left _ _)
            · rintro record (rfl | ⟨payload, isGenerated, rfl⟩) left isLeft
              · rw [isLeft]
                exact isNext.record
              · rw [isLeft]
                exact kept _ _ isGenerated.origin
          · exact isNext

variable (venue json history) in
/-- A step's asks are answered by the venue. -/
def StepFollows (run : LedgerRun) : Step → Prop
  | .events pass => PassFollows venue json history run pass
  | .restart _ => True

/-- Whatever passes and restarts there were, every event before one on record is archived, and
so is every event before what a running process knows. -/
theorem gathered_of_exec (serves : Serves venue history) {steps : List Step}
    {final : LedgerRun}
    (follows : Guarded (step venue json) (StepFollows venue json history) steps {})
    (ran : exec (step venue json) steps {} = some final) :
    GatheredRecord venue history final.record ∧
      (final.running = true → Gathered venue history final) := by
  have restarts : ∀ {record : List RecordEntry} (seq : UInt64),
      GatheredRecord venue history record →
        Gathered venue history { record := record, nextSeq := seq } :=
    fun _ gathered => ⟨gathered, fun _ _ _ _ isTime => by cases isTime⟩
  have start : GatheredRecord venue history [] := by
    refine ⟨by simp, ?_⟩
    intro name kind _ time member
    cases member
  have preserved : ∀ run action next,
      GatheredRecord venue history run.record ∧
        (run.running = true → Gathered venue history run) →
      StepFollows venue json history run action → step venue json run action = some next →
        GatheredRecord venue history next.record ∧
          (next.running = true → Gathered venue history next) := by
    intro run action next holds answered stepped
    refine keeps_step (fun _ gathered => gathered.record)
      (fun nowMicros gathered => restarts _ gathered) ?_ holds stepped
    rintro pass rfl gathered
    exact gathered_events serves gathered answered
  exact invariant_of_guarded preserved ⟨start, fun _ => restarts 0 start⟩ follows ran

end Walk

/-- **A ledger's walks skip nothing and end.**  A walk asks for no more than an ask for each
event and one more, whatever is refused, and with these comes to its end where its commits land.
One that reports neither a refusal nor a stall has
archived every event at or after its start.  After any passes and restarts, every event before
where a walk resumes is archived. -/
theorem walks_gather (serves : Serves venue history) :
    (∀ (run : LedgerRun) (account : ResolvedAccount) (kind : Kind)
        (ask : Nat → Option (Int × Commits)) (more : List Answer),
      let start := (run.newest account.alias_ kind).getD 0
      let answers := answersFor venue history account.alias_ kind ask
        ((history.items account.alias_ kind).length + 1) 0 start
      Follows venue history account.alias_ kind answers start ∧
        run.walk venue json account kind (answers ++ more) =
          run.walk venue json account kind answers ∧
        ((∀ asked, ∀ answered ∈ ask asked, answered.2 = .landed) →
          ∃ next, run.walk venue json account kind answers = .ok next)) ∧
    (∀ (run next : LedgerRun) (account : ResolvedAccount), account.venue = venue.venue →
      ∀ kind ∈ eventKinds, ∀ answers : List Answer,
      let start := (run.newest account.alias_ kind).getD 0
      Follows venue history account.alias_ kind answers start →
        run.walk venue json account kind answers = .ok next →
        (walkReport venue kind answers start).missed = 0 →
        (walkReport venue kind answers start).stalled = 0 →
        ∀ item ∈ history.items account.alias_ kind, start ≤ history.micros item →
          Archived venue history next.record account.alias_ kind item) ∧
    ∀ (steps : List Step) (final : LedgerRun),
      Guarded (step venue json) (StepFollows venue json history) steps {} →
      exec (step venue json) steps {} = some final → final.running = true →
      ∀ (account : ResolvedAccount), account.venue = venue.venue →
      ∀ (reads : Bool) (loaded : LedgerRun),
        final.load venue json account reads = .ok loaded →
        ∀ kind ∈ eventKinds, ∀ item ∈ history.items account.alias_ kind,
          history.micros item < (loaded.newest account.alias_ kind).getD 0 →
            Archived venue history loaded.record account.alias_ kind item := by
  refine ⟨?_, ?_, ?_⟩
  · intro run account kind ask more start answers
    have enough : laterThan history account.alias_ kind start <
        (history.items account.alias_ kind).length + 1 :=
      Nat.lt_succ_of_le (List.length_filter_le _ _)
    refine ⟨follows_answersFor serves ask, ?_, fun lands => ?_⟩
    · unfold walk
      cases venue.eventsChannel kind with
      | none => rfl
      | some channel => exact walkPages_answersFor serves ask enough more
    · unfold walk
      cases venue.eventsChannel kind with
      | none => exact ⟨run, rfl⟩
      | some channel => exact walkPages_landed serves lands enough
  · intro run next account ours kind isEvent answers start follows isNext noneMissed noneStalled
    obtain ⟨channel, isChannel⟩ := Option.isSome_iff_exists.mp (serves.channel kind isEvent)
    simp only [walk, isChannel] at isNext
    have archives := @walkPages_archives _ venue json history run account kind channel
      (run.newest account.alias_ kind) true start serves ours answers follows
    rw [isNext] at archives
    exact archives noneMissed noneStalled
  · intro steps final follows ran running account ours reads loaded isLoaded kind isEvent
    have leaves := @gathered_load _ venue json history final account ours
      ((gathered_of_exec serves follows ran).2 running) reads
    rw [isLoaded] at leaves
    exact leaves.1.reached_next isEvent

/-- A venue whose pages are the milliseconds of their rows, two to a full page. -/
def milliVenue : AccountVenue where
  venue := hyperliquid
  eventsChannel kind := some kind.asStr
  pageSize _ := 2
  pageSpan page := page.head?.bind fun first => page.getLast?.map fun last =>
    (millisToMicros first.toNat, millisToMicros last.toNat, page.length)
  normalise payload :=
    if payload.origin = .generated ∨ payload.kind ≠ Kind.fills.asStr then .error []
    else .ok (payload.payload.map fun moment =>
      { rowAt .fills moment with atMicros := some (millisToMicros moment.toNat) })

/-- Three fills of every account, a millisecond apart. -/
def threeFills : EventHistory UInt8 where
  items _ kind := if kind = .fills then [1, 2, 3] else []
  millis moment := moment.toNat
  write page := page
  sorted := by
    intro account kind
    split
    · decide
    · exact List.Pairwise.nil
  dated _ _ moment _ := Int.natCast_nonneg _

theorem serves_threeFills : Serves milliVenue threeFills where
  span _ := rfl
  rows := by
    intro account kind channel items nowMicros seq row isRow
    simp only [rowsOf, milliVenue, pagePayload, reduceCtorEq, false_or] at isRow
    by_cases isFills : kind = .fills
    · subst isFills
      simp only [ne_eq, not_true_eq_false, if_false, List.mem_map] at isRow
      obtain ⟨moment, member, rfl⟩ := isRow
      refine ⟨rfl, ?_⟩
      intro time isTime
      exact ⟨moment, member, (Option.some.inj isTime).symm⟩
    · rw [if_pos fun same => isFills (Kind.asStr_injective same)] at isRow
      cases isRow
  generated := by
    intro payload isGenerated
    simp [rowsOf, milliVenue, isGenerated]
  full _ := Nat.zero_lt_two
  channel _ _ := rfl

/-- A pass whose fills ask is answered with one full page and then refused. -/
def cutShortPass : AccountPass :=
  { fundedPass .refused with
    asks
      | .fills => [.answered [1, 2] 10 ⟨.committed, .committed, .committed⟩, .refused]
      | _ => [.refused] }

/-- The third fill is refused and the process starts again: it resumes from the second, and what
lies before it is archived. -/
theorem walks_gather_refused :
    ∃ final loaded, exec (step milliVenue noJson) [.events cutShortPass, .restart 20] {} =
        some final ∧
      final.load milliVenue noJson cutShortPass.account true = .ok loaded ∧
      loaded.newest mainAccount .fills = some 2000 ∧
      Archived milliVenue threeFills loaded.record mainAccount .fills 1 := by
  have follows : Guarded (step milliVenue noJson) (StepFollows milliVenue noJson threeFills)
      [.events cutShortPass, .restart 20] {} := by
    refine ⟨⟨rfl, ?_⟩, fun _ _ => ⟨trivial, fun _ _ => trivial⟩⟩
    intro loaded isLoaded kind isEvent
    obtain rfl := Except.ok.inj isLoaded
    simp only [eventKinds, List.mem_cons, List.not_mem_nil, or_false] at isEvent
    rcases isEvent with rfl | rfl | rfl
    · trivial
    · exact ⟨by decide +kernel, fun _ _ _ _ _ _ => trivial⟩
    · trivial
  have reached : ∃ final loaded, exec (step milliVenue noJson)
        [.events cutShortPass, .restart 20] {} = some final ∧ final.running = true ∧
      final.load milliVenue noJson cutShortPass.account true = .ok loaded ∧
      loaded.newest mainAccount .fills = some 2000 :=
    ⟨_, _, rfl, rfl, rfl, by decide +kernel⟩
  obtain ⟨final, loaded, ran, running, isLoaded, resumes⟩ := reached
  refine ⟨final, loaded, ran, isLoaded, resumes, ?_⟩
  apply (walks_gather milliVenue noJson threeFills serves_threeFills).2.2 _ final follows ran
    running cutShortPass.account rfl true loaded isLoaded .fills (by decide) 1 (by decide)
  rw [show loaded.newest cutShortPass.account.alias_ .fills = some 2000 from resumes]
  decide

end LedgerRun

end Ledger
end Datawatch
