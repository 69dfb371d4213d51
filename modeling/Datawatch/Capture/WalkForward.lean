import Datawatch.Capture.Walk

/-!
# What a forward walk covers

Each request starts one microsecond past the last row of the page before it, and is sent in
whole milliseconds.  A row the page had no room for is asked for again only where it shares that
last row's millisecond and lies at or after the epoch; and what stops an instrument's walk,
a refusal or bytes that are not a page, may stop it before that is done.
-/

namespace Datawatch
namespace Capture

open Library Segments Wire

variable {Row : Type} {time : Row → Int} {feed : Feed Row time} {pageRows cap : Nat}
  {toMicros : Int}

/-- Where the request after so many full pages begins, by the history alone: one microsecond past
the last row of the page before it. -/
def Feed.begins (feed : Feed Row time) (pageRows : Nat) (fromMicros : Int) : Nat → Option Int
  | 0 => some fromMicros
  | pages + 1 =>
      (feed.begins pageRows fromMicros pages).bind fun start =>
        if (feed.funding pageRows start).length < pageRows then none
        else (feed.funding pageRows start).getLast?.map fun last => time last * 1000 + 1

/-- Pages answer so many requests. -/
def Feed.Answers (feed : Feed Row time) (pages : Nat) : Prop :=
  ∀ index < pages, feed.replies index = .page

/-- A full page, after so many, ends in a row's millisecond and has no room for the row. -/
def Feed.Cuts (feed : Feed Row time) (pageRows : Nat) (fromMicros : Int) (pages : Nat)
    (row : Row) : Prop :=
  feed.begins pageRows fromMicros (pages + 1) = some (time row * 1000 + 1) ∧
    ∀ start ∈ feed.begins pageRows fromMicros pages, row ∉ feed.funding pageRows start

/-- Why no page holds a row: the answer that is not a page was to a request for it; a page cut it,
and no page answers the next request, or the row is before the epoch and is not asked for again; or
a page holds nothing. -/
inductive Feed.LeavesOut (feed : Feed Row time) (pageRows cap : Nat) (fromMicros : Int)
    (row : Row) : Prop
  | unreadable {pages : Nat} {start : Int} :
      pages < cap → feed.Answers pages → feed.begins pageRows fromMicros pages = some start →
      feed.replies pages = .unreadable → start ≤ time row * 1000 →
      feed.LeavesOut pageRows cap fromMicros row
  | unasked {pages : Nat} :
      pages + 1 < cap → feed.Answers (pages + 1) → feed.Cuts pageRows fromMicros pages row →
      feed.replies (pages + 1) ≠ .page → feed.LeavesOut pageRows cap fromMicros row
  | beforeEpoch {pages : Nat} :
      pages < cap → feed.Answers (pages + 1) → feed.Cuts pageRows fromMicros pages row →
      time row < 0 → feed.LeavesOut pageRows cap fromMicros row
  | noRows : pageRows = 0 → feed.LeavesOut pageRows cap fromMicros row

/-- An instrument's history and answers take its walk past a moment: a request that is refused
begins after it; the last row at the cap is after it; and where a page or what is not one ends the
walk, the range goes on after it. -/
structure Feed.GoesPast (feed : Feed Row time) (pageRows cap : Nat)
    (fromMicros toMicros moment : Int) : Prop where
  refused : ∀ pages < cap, feed.Answers pages → ∀ error, feed.replies pages = .failed error →
    ∀ start ∈ feed.begins pageRows fromMicros pages, moment < start
  capped : feed.Answers cap → ∀ start ∈ feed.begins pageRows fromMicros cap, moment + 1 < start
  unreadable : ∀ pages < cap, feed.Answers pages → feed.replies pages = .unreadable →
    (feed.begins pageRows fromMicros pages).isSome → moment < toMicros
  ended : ∀ pages < cap, feed.Answers (pages + 1) →
    (feed.begins pageRows fromMicros pages).isSome →
    feed.begins pageRows fromMicros (pages + 1) = none → moment < toMicros

/-- Some instrument's pages leave out a row of the range that every instrument's walk goes past. -/
def LosesRow (pageRows cap : Nat) (ask : Ask) (toMicros : Int)
    (feeds : List (Feed Row time)) : Prop :=
  ∃ feed ∈ feeds, ∃ row ∈ feed.history, ask.fromMicros ≤ time row * 1000 ∧
    feed.LeavesOut pageRows cap ask.fromMicros row ∧
    ∀ other ∈ feeds, other.GoesPast pageRows cap ask.fromMicros toMicros (time row * 1000)

/-- The venue answered a request with a full page whose last row is given. -/
structure FullPage (feed : Feed Row time) (pageRows pages : Nat) (fromMicros : Int)
    (last : Row) : Prop where
  replied : feed.replies pages = .page
  full : ¬ (feed.funding pageRows fromMicros).length < pageRows
  isLast : (feed.funding pageRows fromMicros).getLast? = some last

/-- The request of so many pages begins at a moment, when paging from a request and every page
since came full. -/
inductive Asked (feed : Feed Row time) (pageRows first : Nat) (start : Int) : Nat → Int → Prop
  | first : Asked feed pageRows first start first start
  | next {pages : Nat} {fromMicros : Int} {last : Row} :
      Asked feed pageRows first start pages fromMicros →
      FullPage feed pageRows pages fromMicros last →
      Asked feed pageRows first start (pages + 1) (millisToMicros (time last) + 1)

/-- A page sent in answer to one of so many requests holds a row. -/
def Sent (feed : Feed Row time) (pageRows first : Nat) (start : Int) (pages : Nat) (row : Row) :
    Prop :=
  ∃ index < pages, ∃ fromMicros, Asked feed pageRows first start index fromMicros ∧
    feed.replies index = .page ∧ row ∈ feed.funding pageRows fromMicros

/-- The walk of an instrument stops at or before a moment: at a refusal, at the cap or at the
end of the range. -/
inductive Stops (feed : Feed Row time) (pageRows first : Nat) (start : Int) (cap : Nat)
    (toMicros moment : Int) : Prop
  | refused {pages : Nat} {fromMicros : Int} {error : Text} :
      pages < cap → Asked feed pageRows first start pages fromMicros →
      feed.replies pages = .failed error → fromMicros ≤ moment →
      Stops feed pageRows first start cap toMicros moment
  | capped {fromMicros : Int} :
      Asked feed pageRows first start cap fromMicros → fromMicros ≤ moment + 1 →
      Stops feed pageRows first start cap toMicros moment
  | unreadable {pages : Nat} {fromMicros : Int} :
      pages < cap → Asked feed pageRows first start pages fromMicros →
      feed.replies pages = .unreadable → toMicros ≤ moment →
      Stops feed pageRows first start cap toMicros moment
  | ended {pages : Nat} {fromMicros : Int} :
      pages < cap → Asked feed pageRows first start pages fromMicros →
      feed.replies pages = .page →
      (∀ last, ¬ FullPage feed pageRows pages fromMicros last) → toMicros ≤ moment →
      Stops feed pageRows first start cap toMicros moment

section Requests

variable {first : Nat} {start : Int}

/-- Requests are counted from the first. -/
theorem Asked.le {pages : Nat} {fromMicros : Int}
    (asked : Asked feed pageRows first start pages fromMicros) : first ≤ pages := by
  induction asked with
  | first => exact le_rfl
  | next _ _ inductionHypothesis => omega

/-- Paging from a request is that request, and paging from the next where its page is full. -/
theorem asked_iff {pages : Nat} {fromMicros : Int} :
    Asked feed pageRows first start pages fromMicros ↔
      (pages = first ∧ fromMicros = start) ∨
        ∃ last, FullPage feed pageRows first start last ∧
          Asked feed pageRows (first + 1) (millisToMicros (time last) + 1) pages fromMicros := by
  constructor
  · intro asked
    induction asked with
    | first => exact .inl ⟨rfl, rfl⟩
    | next _ isFull inductionHypothesis =>
        rcases inductionHypothesis with ⟨rfl, rfl⟩ | ⟨last, isFirst, later⟩
        · exact .inr ⟨_, isFull, .first⟩
        · exact .inr ⟨last, isFirst, later.next isFull⟩
  · rintro (⟨rfl, rfl⟩ | ⟨last, isFirst, later⟩)
    · exact .first
    · induction later with
      | first => exact Asked.first.next isFirst
      | next _ isFull inductionHypothesis => exact inductionHypothesis.next isFull

/-- A request begins at one moment. -/
theorem Asked.unique {pages : Nat} {one other : Int}
    (asked : Asked feed pageRows first start pages one)
    (alsoAsked : Asked feed pageRows first start pages other) : one = other := by
  induction asked generalizing other with
  | first =>
      cases alsoAsked with
      | first => rfl
      | next earlier _ => exact absurd earlier.le (by omega)
  | next earlier isFull inductionHypothesis =>
      cases alsoAsked with
      | first => exact absurd earlier.le (by omega)
      | next alsoEarlier alsoFull =>
          have same := inductionHypothesis alsoEarlier
          subst same
          have := isFull.isLast.symm.trans alsoFull.isLast
          cases this
          rfl

/-- What a request can meet. -/
theorem reply_cases (feed : Feed Row time) (pageRows pages : Nat) (fromMicros : Int) :
    (∃ error, feed.replies pages = .failed error) ∨ feed.replies pages = .unreadable ∨
      (∃ last, FullPage feed pageRows pages fromMicros last) ∨
        feed.replies pages = .page ∧ ∀ last, ¬ FullPage feed pageRows pages fromMicros last := by
  cases replied : feed.replies pages with
  | failed error => exact .inl ⟨error, rfl⟩
  | unreadable => exact .inr (.inl rfl)
  | page =>
      refine .inr (.inr ?_)
      by_cases isFull : ∃ last, FullPage feed pageRows pages fromMicros last
      · exact .inl isFull
      · exact .inr ⟨rfl, not_exists.mp isFull⟩

/-- What is asked for next is asked for in whatever the first request met. -/
theorem sent_succ {left : Nat} {row : Row} :
    Sent feed pageRows first start (first + (left + 1)) row ↔
      feed.replies first = .page ∧ row ∈ feed.funding pageRows start ∨
        ∃ last, FullPage feed pageRows first start last ∧
          Sent feed pageRows (first + 1) (millisToMicros (time last) + 1)
            (first + 1 + left) row := by
  constructor
  · rintro ⟨index, within, fromMicros, asked, replied, member⟩
    rcases asked_iff.mp asked with ⟨rfl, rfl⟩ | ⟨last, isFull, later⟩
    · exact .inl ⟨replied, member⟩
    · exact .inr ⟨last, isFull, index, by omega, fromMicros, later, replied, member⟩
  · rintro (⟨replied, member⟩ | ⟨last, isFull, index, within, fromMicros, asked, found⟩)
    · exact ⟨first, by omega, start, .first, replied, member⟩
    · exact ⟨index, by omega, fromMicros, asked_iff.mpr (.inr ⟨last, isFull, asked⟩), found⟩

/-- A walk that goes past its first request stops where the rest of it does. -/
theorem stops_of_full {last : Row} (isFull : FullPage feed pageRows first start last)
    {moment : Int} :
    Stops feed pageRows first start cap toMicros moment ↔
      first = cap ∧ start ≤ moment + 1 ∨
      Stops feed pageRows (first + 1) (millisToMicros (time last) + 1) cap toMicros moment := by
  have later : ∀ {pages : Nat} {fromMicros : Int},
      Asked feed pageRows first start pages fromMicros →
        pages = first ∧ fromMicros = start ∨
          Asked feed pageRows (first + 1) (millisToMicros (time last) + 1) pages
            fromMicros := by
    intro pages fromMicros asked
    rcases asked_iff.mp asked with atFirst | ⟨other, alsoFull, found⟩
    · exact .inl atFirst
    · have same := alsoFull.isLast.symm.trans isFull.isLast
      cases same
      exact .inr found
  have earlier : ∀ {pages : Nat} {fromMicros : Int},
      Asked feed pageRows (first + 1) (millisToMicros (time last) + 1) pages fromMicros →
        Asked feed pageRows first start pages fromMicros :=
    fun found => asked_iff.mpr (.inr ⟨last, isFull, found⟩)
  constructor
  · intro stops
    cases stops with
    | refused within asked replied before =>
        rcases later asked with ⟨rfl, rfl⟩ | found
        · exact absurd (replied.symm.trans isFull.replied) (by simp)
        · exact .inr (.refused within found replied before)
    | capped asked before =>
        rcases later asked with ⟨rfl, rfl⟩ | found
        · exact .inl ⟨rfl, before⟩
        · exact .inr (.capped found before)
    | unreadable within asked replied before =>
        rcases later asked with ⟨rfl, rfl⟩ | found
        · exact absurd (replied.symm.trans isFull.replied) (by simp)
        · exact .inr (.unreadable within found replied before)
    | ended within asked replied short before =>
        rcases later asked with ⟨rfl, rfl⟩ | found
        · exact absurd isFull (short last)
        · exact .inr (.ended within found replied short before)
  · rintro (⟨rfl, before⟩ | stops)
    · exact .capped .first before
    · cases stops with
      | refused within asked replied before =>
          exact .refused within (earlier asked) replied before
      | capped asked before => exact .capped (earlier asked) before
      | unreadable within asked replied before =>
          exact .unreadable within (earlier asked) replied before
      | ended within asked replied short before =>
          exact .ended within (earlier asked) replied short before

/-- A walk whose first request does not come full asks for nothing more. -/
theorem asked_of_not_full (notFull : ∀ last, ¬ FullPage feed pageRows first start last)
    {pages : Nat} {fromMicros : Int}
    (asked : Asked feed pageRows first start pages fromMicros) :
    pages = first ∧ fromMicros = start := by
  rcases asked_iff.mp asked with atFirst | ⟨last, isFull, _⟩
  · exact atFirst
  · exact absurd isFull (notFull last)

end Requests

/-! ## One instrument's walk -/

section Page

variable {left pages : Nat} {fromMicros here : Int}

theorem pageForward_of_failed {error : Text} (replied : feed.replies pages = .failed error) :
    pageForward feed pageRows toMicros (left + 1) pages fromMicros here =
      { made := 1
        here := fromMicros
        failed := [⟨feed.ticker, fromMicros, toMicros, error⟩] } := by
  simp only [pageForward, Feed.fetch, replied]

theorem pageForward_of_unreadable (replied : feed.replies pages = .unreadable) :
    pageForward feed pageRows toMicros (left + 1) pages fromMicros here =
      { made := 1, taken := [.unreadable], here := toMicros } := by
  simp only [pageForward, Feed.fetch, replied, fundingPageEnd]

theorem pageForward_of_full {last : Row}
    (isFull : FullPage feed pageRows pages fromMicros last) :
    pageForward feed pageRows toMicros (left + 1) pages fromMicros here =
      (pageForward feed pageRows toMicros left (pages + 1) (millisToMicros (time last) + 1)
        (millisToMicros (time last))).after (.page (feed.funding pageRows fromMicros)) := by
  simp only [pageForward, Feed.fetch, isFull.replied, fundingPageEnd, isFull.isLast,
    Option.map_some, if_neg isFull.full]

theorem pageForward_of_short (replied : feed.replies pages = .page)
    (short : ∀ last, ¬ FullPage feed pageRows pages fromMicros last) :
    pageForward feed pageRows toMicros (left + 1) pages fromMicros here =
      { made := 1
        taken := [.page (feed.funding pageRows fromMicros)]
        here := toMicros } := by
  simp only [pageForward, Feed.fetch, replied, fundingPageEnd]
  cases isLast : (feed.funding pageRows fromMicros).getLast? with
  | none => rfl
  | some last =>
      simp only [Option.map_some]
      rw [if_pos]
      by_contra full
      exact short last ⟨replied, full, isLast⟩

end Page

/-- The rows in the pages taken are the rows sent. -/
theorem mem_taken_pageForward {left pages : Nat} {fromMicros here : Int} {row : Row} :
    (∃ rows, .page rows ∈ (pageForward feed pageRows toMicros left pages fromMicros here).taken ∧
        row ∈ rows) ↔
      Sent feed pageRows pages fromMicros (pages + left) row := by
  induction left generalizing pages fromMicros here with
  | zero =>
      simp only [pageForward, List.not_mem_nil, false_and, exists_false, false_iff]
      rintro ⟨index, within, _, asked, _⟩
      have := asked.le
      omega
  | succ left inductionHypothesis =>
      rw [sent_succ]
      rcases reply_cases feed pageRows pages fromMicros with
        ⟨error, replied⟩ | replied | ⟨last, isFull⟩ | ⟨replied, short⟩
      · have noFull : ∀ last, ¬ FullPage feed pageRows pages fromMicros last := by
          intro last isFull
          exact absurd (replied.symm.trans isFull.replied) (by simp)
        simp [pageForward_of_failed replied, replied, noFull]
      · have noFull : ∀ last, ¬ FullPage feed pageRows pages fromMicros last := by
          intro last isFull
          exact absurd (replied.symm.trans isFull.replied) (by simp)
        simp [pageForward_of_unreadable replied, replied, noFull]
      · rw [pageForward_of_full isFull]
        simp only [Paged.after, List.mem_cons, Answer.page.injEq, or_and_right, exists_or,
          exists_eq_left, inductionHypothesis, isFull.replied, true_and]
        apply or_congr_right
        constructor
        · exact fun sent => ⟨last, isFull, sent⟩
        · rintro ⟨other, alsoFull, sent⟩
          have same := alsoFull.isLast.symm.trans isFull.isLast
          cases same
          exact sent
      · simp [pageForward_of_short replied short, replied, short]

/-- A walk gets to no later than a moment exactly where it stops there. -/
theorem here_pageForward_le {left pages : Nat} {fromMicros here moment : Int}
    (begins : here ≤ moment ↔ fromMicros ≤ moment + 1) :
    (pageForward feed pageRows toMicros left pages fromMicros here).here ≤ moment ↔
      Stops feed pageRows pages fromMicros (pages + left) toMicros moment := by
  induction left generalizing pages fromMicros here with
  | zero =>
      rw [pageForward, begins]
      constructor
      · exact .capped .first
      · intro stops
        cases stops with
        | refused within asked =>
            have := asked.le
            omega
        | capped asked before => rwa [asked.unique .first] at before
        | unreadable within asked =>
            have := asked.le
            omega
        | ended within asked =>
            have := asked.le
            omega
  | succ left inductionHypothesis =>
      have within : pages < pages + (left + 1) := by omega
      rcases reply_cases feed pageRows pages fromMicros with
        ⟨error, replied⟩ | replied | ⟨last, isFull⟩ | ⟨replied, short⟩
      · rw [pageForward_of_failed replied]
        have noFull : ∀ last, ¬ FullPage feed pageRows pages fromMicros last := by
          intro last isFull
          exact absurd (replied.symm.trans isFull.replied) (by simp)
        constructor
        · exact .refused within .first replied
        · intro stops
          cases stops with
          | refused _ asked _ before => rwa [(asked_of_not_full noFull asked).2] at before
          | capped asked before =>
              have := (asked_of_not_full noFull asked).1
              omega
          | unreadable _ asked otherwise _ =>
              rw [(asked_of_not_full noFull asked).1, replied] at otherwise
              cases otherwise
          | ended _ asked otherwise _ _ =>
              rw [(asked_of_not_full noFull asked).1, replied] at otherwise
              cases otherwise
      · rw [pageForward_of_unreadable replied]
        have noFull : ∀ last, ¬ FullPage feed pageRows pages fromMicros last := by
          intro last isFull
          exact absurd (replied.symm.trans isFull.replied) (by simp)
        constructor
        · exact .unreadable within .first replied
        · intro stops
          cases stops with
          | refused _ asked otherwise _ =>
              rw [(asked_of_not_full noFull asked).1, replied] at otherwise
              cases otherwise
          | capped asked before =>
              have := (asked_of_not_full noFull asked).1
              omega
          | unreadable _ _ _ before => exact before
          | ended _ _ _ _ before => exact before
      · rw [pageForward_of_full isFull, stops_of_full isFull, Paged.after]
        rw [inductionHypothesis (by omega), show pages + 1 + left = pages + (left + 1) by omega]
        rw [or_iff_right]
        omega
      · rw [pageForward_of_short replied short]
        constructor
        · exact .ended within .first replied short
        · intro stops
          cases stops with
          | refused _ asked otherwise _ =>
              rw [(asked_of_not_full short asked).1, replied] at otherwise
              cases otherwise
          | capped asked before =>
              have := (asked_of_not_full short asked).1
              omega
          | unreadable _ _ _ before => exact before
          | ended _ _ _ _ before => exact before

/-- A refusal is where the walk got to. -/
theorem from_of_mem_failed {left pages : Nat} {fromMicros here : Int} {failure : FailedFetch}
    (member : failure ∈
      (pageForward feed pageRows toMicros left pages fromMicros here).failed) :
    failure.fromMicros =
      (pageForward feed pageRows toMicros left pages fromMicros here).here := by
  induction left generalizing pages fromMicros here with
  | zero => cases member
  | succ left inductionHypothesis =>
      rcases reply_cases feed pageRows pages fromMicros with
        ⟨error, replied⟩ | replied | ⟨last, isFull⟩ | ⟨replied, short⟩
      · rw [pageForward_of_failed replied] at member ⊢
        rw [List.mem_singleton.mp member]
      · rw [pageForward_of_unreadable replied] at member
        cases member
      · rw [pageForward_of_full isFull] at member ⊢
        exact inductionHypothesis member
      · rw [pageForward_of_short replied short] at member
        cases member

/-- A walk needs the cap only where every page under it came full. -/
theorem asked_of_capped {left pages : Nat} {fromMicros here : Int}
    (isCapped : (pageForward feed pageRows toMicros left pages fromMicros here).capped = true) :
    ∃ atCap, Asked feed pageRows pages fromMicros (pages + left) atCap := by
  induction left generalizing pages fromMicros here with
  | zero => exact ⟨fromMicros, .first⟩
  | succ left inductionHypothesis =>
      rcases reply_cases feed pageRows pages fromMicros with
        ⟨error, replied⟩ | replied | ⟨last, isFull⟩ | ⟨replied, short⟩
      · rw [pageForward_of_failed replied] at isCapped
        cases isCapped
      · rw [pageForward_of_unreadable replied] at isCapped
        cases isCapped
      · rw [pageForward_of_full isFull] at isCapped
        obtain ⟨atCap, asked⟩ := inductionHypothesis isCapped
        refine ⟨atCap, asked_iff.mpr (.inr ⟨last, isFull, ?_⟩)⟩
        rwa [show pages + 1 + left = pages + (left + 1) by omega] at asked
      · rw [pageForward_of_short replied short] at isCapped
        cases isCapped

section Funding

variable {fromMicros : Int} {row last : Row}

/-- Past a moment since the epoch is sent as its own millisecond. -/
theorem tdiv_next {millis : Int} (nonneg : 0 ≤ millis) :
    (millis * 1000 + 1).tdiv 1000 = millis := by
  rw [Int.tdiv_eq_ediv_of_nonneg (by omega)]
  omega

/-- A moment is skipped past only before the epoch. -/
theorem neg_of_tdiv_next {millis : Int} (skipped : millis < (millis * 1000 + 1).tdiv 1000) :
    millis < 0 := by
  by_contra nonneg
  rw [tdiv_next (not_lt.mp nonneg)] at skipped
  exact lt_irrefl _ skipped

/-- Past a moment before the epoch is sent as the next millisecond. -/
theorem lt_tdiv_next {millis : Int} (negative : millis < 0) :
    millis < (millis * 1000 + 1).tdiv 1000 := by
  rw [Int.tdiv_eq_ediv, show Int.sign 1000 = 1 from rfl]
  split
  all_goals omega

/-- Past a moment is sent as no earlier millisecond. -/
theorem le_tdiv_next (millis : Int) : millis ≤ (millis * 1000 + 1).tdiv 1000 := by
  rw [Int.tdiv_eq_ediv, show Int.sign 1000 = 1 from rfl]
  split
  all_goals omega

/-- A row's time in microseconds is exact. -/
theorem millisToMicros_of_mem (isRow : row ∈ feed.history) :
    millisToMicros (time row) = time row * 1000 := by
  have := feed.dated row isRow
  rw [millisToMicros]
  omega

end Funding

section Left

variable {pages : Nat} {start fromMicros : Int} {row : Row}

/-- A page is full, and its last row is in a millisecond, exactly where the history begins the next
request just after it. -/
theorem begins_succ_iff (begins : feed.begins pageRows start pages = some fromMicros)
    (replied : feed.replies pages = .page) {next : Int} :
    feed.begins pageRows start (pages + 1) = some next ↔
      ∃ last, FullPage feed pageRows pages fromMicros last ∧ next = time last * 1000 + 1 := by
  simp only [Feed.begins, begins, Option.bind_some]
  constructor
  · intro isNext
    obtain ⟨full, isNext⟩ := Option.ite_none_left_eq_some.mp isNext
    obtain ⟨last, isLast, rfl⟩ := Option.map_eq_some_iff.mp isNext
    exact ⟨last, ⟨replied, full, isLast⟩, rfl⟩
  · rintro ⟨last, isFull, rfl⟩
    rw [if_neg isFull.full, isFull.isLast]
    rfl

/-- The last row of a full page is in the history. -/
theorem FullPage.lastRow {last : Row} (isFull : FullPage feed pageRows pages fromMicros last) :
    last ∈ feed.history :=
  (Pages.mem_of_mem_oldest (List.mem_of_getLast? isFull.isLast)).1

/-- A request is made where the history begins it and pages answer those before it. -/
theorem asked_iff_begins :
    Asked feed pageRows 0 start pages fromMicros ↔
      feed.begins pageRows start pages = some fromMicros ∧ feed.Answers pages := by
  induction pages generalizing fromMicros with
  | zero =>
      constructor
      · intro asked
        cases asked
        exact ⟨rfl, fun index within => absurd within (Nat.not_lt_zero index)⟩
      · rintro ⟨begins, _⟩
        obtain rfl := Option.some.inj begins
        exact .first
  | succ pages inductionHypothesis =>
      constructor
      · intro asked
        cases asked with
        | next earlier isFull =>
            obtain ⟨begins, answers⟩ := inductionHypothesis.mp earlier
            rw [millisToMicros_of_mem isFull.lastRow]
            refine ⟨(begins_succ_iff begins isFull.replied).mpr ⟨_, isFull, rfl⟩, ?_⟩
            intro index within
            rcases Nat.lt_succ_iff_lt_or_eq.mp within with before | rfl
            · exact answers index before
            · exact isFull.replied
      · rintro ⟨isNext, answers⟩
        obtain ⟨before, begins, _⟩ := Option.bind_eq_some_iff.mp isNext
        have earlier := inductionHypothesis.mpr
          ⟨begins, fun index within => answers index (Nat.lt_succ_of_lt within)⟩
        obtain ⟨last, isFull, rfl⟩ :=
          (begins_succ_iff begins (answers pages (Nat.lt_succ_self pages))).mp isNext
        rw [← millisToMicros_of_mem isFull.lastRow]
        exact earlier.next isFull

/-- A walk goes past a moment exactly where it does not stop at or before it. -/
theorem goesPast_iff {moment : Int} :
    feed.GoesPast pageRows cap start toMicros moment ↔
      ¬ Stops feed pageRows 0 start cap toMicros moment := by
  constructor
  · intro goes stops
    cases stops with
    | refused within asked replied before =>
        obtain ⟨begins, answers⟩ := asked_iff_begins.mp asked
        exact absurd (goes.refused _ within answers _ replied _ begins) (not_lt.mpr before)
    | capped asked before =>
        obtain ⟨begins, answers⟩ := asked_iff_begins.mp asked
        exact absurd (goes.capped answers _ begins) (not_lt.mpr before)
    | unreadable within asked replied before =>
        obtain ⟨begins, answers⟩ := asked_iff_begins.mp asked
        have isSome := Option.isSome_iff_exists.mpr ⟨_, begins⟩
        exact absurd (goes.unreadable _ within answers replied isSome) (not_lt.mpr before)
    | @ended pages fromMicros within asked replied short before =>
        obtain ⟨begins, answers⟩ := asked_iff_begins.mp asked
        have isSome := Option.isSome_iff_exists.mpr ⟨_, begins⟩
        have answersNext : feed.Answers (pages + 1) := by
          intro index within
          rcases Nat.lt_succ_iff_lt_or_eq.mp within with before | rfl
          · exact answers index before
          · exact replied
        have noNext : feed.begins pageRows start (pages + 1) = none := by
          rw [Option.eq_none_iff_forall_ne_some]
          intro next isNext
          obtain ⟨last, isFull, _⟩ := (begins_succ_iff begins replied).mp isNext
          exact short last isFull
        exact absurd (goes.ended _ within answersNext isSome noNext) (not_lt.mpr before)
  · intro unstopped
    refine ⟨?_, ?_, ?_, ?_⟩
    · intro pages within answers error replied fromMicros begins
      by_contra before
      exact unstopped (.refused within (asked_iff_begins.mpr ⟨begins, answers⟩) replied
        (not_lt.mp before))
    · intro answers fromMicros begins
      by_contra before
      exact unstopped (.capped (asked_iff_begins.mpr ⟨begins, answers⟩) (not_lt.mp before))
    · intro pages within answers replied isSome
      obtain ⟨fromMicros, begins⟩ := Option.isSome_iff_exists.mp isSome
      by_contra before
      exact unstopped (.unreadable within (asked_iff_begins.mpr ⟨begins, answers⟩) replied
        (not_lt.mp before))
    · intro pages within answers isSome noNext
      obtain ⟨fromMicros, begins⟩ := Option.isSome_iff_exists.mp isSome
      have replied := answers pages (Nat.lt_succ_self pages)
      have asked : Asked feed pageRows 0 start pages fromMicros :=
        asked_iff_begins.mpr
          ⟨begins, fun index before => answers index (Nat.lt_succ_of_lt before)⟩
      by_contra before
      refine unstopped (.ended within asked replied ?_ (not_lt.mp before))
      intro last isFull
      rw [(begins_succ_iff begins replied).mpr ⟨last, isFull, rfl⟩] at noNext
      cases noNext

/-- A row sent so far is sent in what follows. -/
theorem Sent.mono {more : Nat} (sent : Sent feed pageRows 0 start pages row)
    (fewer : pages ≤ more) : Sent feed pageRows 0 start more row := by
  rcases sent with ⟨index, within, found⟩
  exact ⟨index, within.trans_le fewer, found⟩

/-- A row before a request's start that was not sent was cut, by the page before the request or
before the epoch. -/
theorem exists_cut_of_unsent (asked : Asked feed pageRows 0 start pages fromMicros)
    (isRow : row ∈ feed.history) (within : start ≤ time row * 1000)
    (before : time row * 1000 < fromMicros)
    (unsent : ¬ Sent feed pageRows 0 start pages row) :
    ∃ earlier < pages, feed.Cuts pageRows start earlier row ∧
      (earlier + 1 = pages ∨ time row < 0) := by
  induction asked with
  | first => omega
  | @next pages begun last asked isFull inductionHypothesis =>
      have isLast := List.mem_of_getLast? isFull.isLast
      rw [millisToMicros_of_mem isFull.lastRow] at before
      obtain ⟨begins, _⟩ := asked_iff_begins.mp asked
      have leftOut : row ∉ feed.funding pageRows begun := fun member =>
        unsent ⟨pages, by omega, begun, asked, isFull.replied, member⟩
      rcases le_or_gt (begun.tdiv 1000) (time row) with later | skipped
      -- Asked for, and not in the page: it is where the page ended.
      · have least := (Pages.full_of_not_mem_oldest feed.sorted isRow later leftOut).2 last isLast
        have sameMillis : time last = time row := by omega
        refine ⟨pages, Nat.lt_succ_self pages, ⟨?_, ?_⟩, .inl rfl⟩
        · rw [begins_succ_iff begins isFull.replied]
          exact ⟨last, isFull, by rw [sameMillis]⟩
        · intro other isOther
          rw [Option.mem_def, begins, Option.some.injEq] at isOther
          rwa [← isOther]
      -- Not asked for: it is before the start.
      · have passed : time row * 1000 < begun := by
          by_contra reached
          exact absurd (tdiv_le_of_le (not_lt.mp reached)) (not_le.mpr skipped)
        obtain ⟨earlier, fewer, cut, atEnd⟩ := inductionHypothesis passed fun sent =>
          unsent (sent.mono (Nat.le_succ _))
        refine ⟨earlier, Nat.lt_succ_of_lt fewer, cut, .inr ?_⟩
        rcases atEnd with rfl | negative
        · have same := begins.symm.trans cut.1
          rw [Option.some.injEq] at same
          rw [same] at skipped
          exact neg_of_tdiv_next skipped
        · exact negative

/-- Paging reaches the cap, or stops before it at a request that did not come full. -/
theorem exists_end (feed : Feed Row time) (pageRows first : Nat) (start : Int) (left : Nat) :
    (∃ fromMicros, Asked feed pageRows first start (first + left) fromMicros) ∨
      ∃ pages < first + left, ∃ fromMicros,
        Asked feed pageRows first start pages fromMicros ∧
          ∀ last, ¬ FullPage feed pageRows pages fromMicros last := by
  induction left with
  | zero => exact .inl ⟨start, .first⟩
  | succ left inductionHypothesis =>
      rcases inductionHypothesis with ⟨fromMicros, asked⟩ | ⟨pages, within, found⟩
      · by_cases isFull : ∃ last, FullPage feed pageRows (first + left) fromMicros last
        · rcases isFull with ⟨last, isFull⟩
          exact .inl ⟨_, asked.next isFull⟩
        · exact .inr ⟨first + left, by omega, fromMicros, asked, not_exists.mp isFull⟩
      · exact .inr ⟨pages, by omega, found⟩

/-- A row that was asked for, was never sent, and that its walk goes past, was left out. -/
theorem leavesOut_of_unsent (isRow : row ∈ feed.history) (within : start ≤ time row * 1000)
    (unsent : ¬ Sent feed pageRows 0 start cap row)
    (goes : feed.GoesPast pageRows cap start toMicros (time row * 1000)) :
    feed.LeavesOut pageRows cap start row := by
  have atEnd := exists_end feed pageRows 0 start cap
  rw [Nat.zero_add] at atEnd
  rcases atEnd with ⟨fromMicros, asked⟩ | ⟨pages, fewer, fromMicros, asked, notFull⟩
  · obtain ⟨begins, answers⟩ := asked_iff_begins.mp asked
    have before := goes.capped answers _ begins
    obtain ⟨earlier, less, cut, atEnd⟩ :=
      exists_cut_of_unsent asked isRow within (by omega) unsent
    have negative : time row < 0 := by
      refine atEnd.resolve_left ?_
      rintro rfl
      have same := begins.symm.trans cut.1
      rw [Option.some.injEq] at same
      omega
    exact .beforeEpoch less (fun index _ => answers index (by omega)) cut negative
  · obtain ⟨begins, answers⟩ := asked_iff_begins.mp asked
    -- What a page cut is not asked for where no page answers next, or before the epoch.
    have leftBefore (before : time row * 1000 < fromMicros)
        (ends : feed.replies pages ≠ .page ∨ fromMicros.tdiv 1000 > time row) :
        feed.LeavesOut pageRows cap start row := by
      obtain ⟨earlier, less, cut, atEnd⟩ :=
        exists_cut_of_unsent asked isRow within before fun sent => unsent (sent.mono fewer.le)
      have answersCut : feed.Answers (earlier + 1) := fun index _ => answers index (by omega)
      rcases atEnd with rfl | negative
      · rcases ends with notPage | skipped
        · exact .unasked fewer answersCut cut notPage
        · have same := begins.symm.trans cut.1
          rw [Option.some.injEq] at same
          rw [same] at skipped
          exact .beforeEpoch (by omega) answersCut cut (neg_of_tdiv_next skipped)
      · exact .beforeEpoch (by omega) answersCut cut negative
    rcases reply_cases feed pageRows pages fromMicros with
      ⟨error, replied⟩ | replied | ⟨last, isFull⟩ | ⟨replied, short⟩
    · exact leftBefore (goes.refused _ fewer answers _ replied _ begins)
        (.inl (by rw [replied]; simp))
    · rcases le_or_gt fromMicros (time row * 1000) with later | before
      · exact .unreadable fewer answers begins replied later
      · exact leftBefore before (.inl (by rw [replied]; simp))
    · exact absurd isFull (notFull last)
    · have leftOut : row ∉ feed.funding pageRows fromMicros := fun member =>
        unsent ⟨pages, fewer, fromMicros, asked, replied, member⟩
      rcases le_or_gt (fromMicros.tdiv 1000) (time row) with later | skipped
      -- A page that leaves out a row it was asked for is full, so it is not the last.
      · have isFull : (feed.funding pageRows fromMicros).length = pageRows :=
          (Pages.full_of_not_mem_oldest feed.sorted isRow later leftOut).1
        cases isLast : (feed.funding pageRows fromMicros).getLast? with
        | none =>
            rw [List.getLast?_eq_none_iff.mp isLast] at isFull
            exact .noRows isFull.symm
        | some last => exact absurd ⟨replied, by omega, isLast⟩ (short last)
      · have before : time row * 1000 < fromMicros := by
          by_contra reached
          exact absurd (tdiv_le_of_le (not_lt.mp reached)) (not_le.mpr skipped)
        exact leftBefore before (.inr skipped)

/-- A full page's rows are no later than its last. -/
theorem FullPage.le_last {last : Row} (isFull : FullPage feed pageRows pages fromMicros last)
    (member : row ∈ feed.funding pageRows fromMicros) : time row ≤ time last := by
  have sorted : (feed.funding pageRows fromMicros).Pairwise fun first second =>
      time first ≤ time second := Pages.pairwise_oldest feed.sorted
  obtain ⟨front, isPage⟩ := List.getLast?_eq_some_iff.mp isFull.isLast
  rw [isPage] at sorted member
  rcases List.mem_append.mp member with inFront | isLast
  · exact (List.pairwise_append.mp sorted).2.2 row inFront last (List.mem_singleton_self last)
  · rw [List.mem_singleton.mp isLast]

/-- A full page's request asks for no later than its last row, and the next for no earlier. -/
theorem FullPage.le_next {last : Row} (isFull : FullPage feed pageRows pages fromMicros last) :
    fromMicros.tdiv 1000 ≤ time last ∧
      time last ≤ (millisToMicros (time last) + 1).tdiv 1000 := by
  rw [millisToMicros_of_mem isFull.lastRow]
  exact ⟨(Pages.mem_of_mem_oldest (List.mem_of_getLast? isFull.isLast)).2, le_tdiv_next _⟩

/-- A later request asks for nothing earlier. -/
theorem Asked.tdiv_le {later : Nat} {laterMicros : Int}
    (asked : Asked feed pageRows 0 start pages fromMicros)
    (askedLater : Asked feed pageRows 0 start later laterMicros) (le : pages ≤ later) :
    fromMicros.tdiv 1000 ≤ laterMicros.tdiv 1000 := by
  induction askedLater with
  | first =>
      obtain rfl := Nat.le_zero.mp le
      rw [asked.unique .first]
  | @next before begun last earlier isFull inductionHypothesis =>
      rcases Nat.le_succ_iff.mp le with within | rfl
      · have next := isFull.le_next
        have := inductionHypothesis within
        omega
      · rw [asked.unique (earlier.next isFull)]

/-- A page's rows are before the request of a later page, and no later than what that asks for. -/
theorem Asked.after {later : Nat} {laterMicros : Int}
    (asked : Asked feed pageRows 0 start pages fromMicros)
    (askedLater : Asked feed pageRows 0 start later laterMicros) (less : pages < later)
    (member : row ∈ feed.funding pageRows fromMicros) :
    time row * 1000 < laterMicros ∧ time row ≤ laterMicros.tdiv 1000 := by
  induction askedLater with
  | first => exact absurd less (Nat.not_lt_zero pages)
  | @next before begun last earlier isFull inductionHypothesis =>
      have noLater : time row ≤ time last := by
        rcases Nat.lt_succ_iff_lt_or_eq.mp less with within | rfl
        · exact (inductionHypothesis within).2.trans isFull.le_next.1
        · rw [asked.unique earlier] at member
          exact isFull.le_last member
      refine ⟨?_, noLater.trans isFull.le_next.2⟩
      rw [millisToMicros_of_mem isFull.lastRow]
      omega

/-- A row cut is in no page up to the one that cut it, so in none where no later page holds it. -/
theorem unsent_of_cuts (cut : feed.Cuts pageRows start pages row)
    (answers : feed.Answers (pages + 1))
    (notLater : ∀ later laterMicros, pages < later →
      Asked feed pageRows 0 start later laterMicros → feed.replies later = .page →
        row ∉ feed.funding pageRows laterMicros) :
    ¬ Sent feed pageRows 0 start cap row := by
  rintro ⟨index, _, beginMicros, asked, replied, member⟩
  obtain ⟨fromMicros, begins, _⟩ := Option.bind_eq_some_iff.mp cut.1
  have leftOut := cut.2 _ begins
  have askedCut : Asked feed pageRows 0 start pages fromMicros :=
    asked_iff_begins.mpr ⟨begins, fun index within => answers index (Nat.lt_succ_of_lt within)⟩
  obtain ⟨last, isFull, isNext⟩ :=
    (begins_succ_iff begins (answers pages (Nat.lt_succ_self pages))).mp cut.1
  rcases lt_trichotomy index pages with before | rfl | after
  -- An earlier page that holds the row is from its millisecond, and so is the one that cut it.
  · have noLater := (asked.after askedCut before member).2
    have next := isFull.le_next.1
    have isAsked := (Pages.mem_of_mem_oldest member).2
    exact leftOut (Pages.mem_oldest_of_le member (by omega) (by omega))
  · rw [asked.unique askedCut] at member
    exact leftOut member
  · exact notLater index beginMicros after asked replied member

/-- A row left out is in no page sent. -/
theorem unsent_of_leavesOut (leavesOut : feed.LeavesOut pageRows cap start row) :
    ¬ Sent feed pageRows 0 start cap row := by
  cases leavesOut with
  | @unreadable pages fromMicros within answers begins unread later =>
      rintro ⟨index, _, beginMicros, asked, replied, member⟩
      rcases lt_trichotomy index pages with before | rfl | after
      · have := (asked.after (asked_iff_begins.mpr ⟨begins, answers⟩) before member).1
        omega
      · rw [unread] at replied
        cases replied
      · rw [(asked_iff_begins.mp asked).2 pages after] at unread
        cases unread
  | @unasked pages within answers cut notPage =>
      apply unsent_of_cuts cut answers
      intro later laterMicros after asked replied _
      rcases Nat.lt_or_eq_of_le (Nat.succ_le_of_lt after) with beyond | rfl
      · exact notPage ((asked_iff_begins.mp asked).2 _ beyond)
      · exact notPage replied
  | @beforeEpoch pages within answers cut negative =>
      apply unsent_of_cuts cut answers
      intro later laterMicros after asked _ member
      have skips := (asked_iff_begins.mpr ⟨cut.1, answers⟩).tdiv_le asked after
      have isAsked := (Pages.mem_of_mem_oldest member).2
      have skipped := lt_tdiv_next negative
      omega
  | noRows isZero =>
      rintro ⟨_, _, _, _, _, member⟩
      rw [Feed.funding, Pages.oldest, isZero, List.take_zero] at member
      cases member

end Left

/-- A full page of two or more rows, no two in one millisecond, leaves fewer to ask for. -/
theorem FullPage.remaining_lt (several : 2 ≤ pageRows)
    (apart : feed.history.Pairwise fun first second => time first ≠ time second) {pages : Nat}
    {fromMicros : Int} {last : Row} (isFull : FullPage feed pageRows pages fromMicros last) :
    (feed.history.filter fun row =>
        decide ((millisToMicros (time last) + 1).tdiv 1000 ≤ time row)).length <
      (feed.history.filter fun row => decide (fromMicros.tdiv 1000 ≤ time row)).length := by
  have isLast := List.mem_of_getLast? isFull.isLast
  have lastRow := Pages.mem_of_mem_oldest isLast
  rw [millisToMicros_of_mem lastRow.1]
  have next := le_tdiv_next (time last)
  have within : feed.history.filter (fun row =>
        decide ((time last * 1000 + 1).tdiv 1000 ≤ time row)) =
      (feed.history.filter fun row => decide (fromMicros.tdiv 1000 ≤ time row)).filter fun row =>
        decide ((time last * 1000 + 1).tdiv 1000 ≤ time row) := by
    rw [List.filter_filter]
    apply List.filter_congr
    intro row _
    rw [Bool.eq_iff_iff, Bool.and_eq_true, decide_eq_true_eq, decide_eq_true_eq]
    omega
  rw [within, List.length_filter_lt_length_iff_exists]
  -- The first row of the page is before its last.
  have strict : (feed.funding pageRows fromMicros).Pairwise fun first second =>
      time first < time second := by
    have both := (feed.sorted.and apart).imp fun both => lt_of_le_of_ne both.1 both.2
    exact Pages.pairwise_oldest both
  obtain ⟨front, isPage⟩ := List.getLast?_eq_some_iff.mp isFull.isLast
  cases front with
  | nil =>
      have full := isFull.full
      rw [isPage] at full
      simp only [List.nil_append, List.length_singleton, not_lt] at full
      omega
  | cons head rest =>
      have isHead : head ∈ feed.funding pageRows fromMicros := by
        rw [isPage]
        exact List.mem_cons_self
      rw [isPage, List.cons_append, List.pairwise_cons] at strict
      have before := strict.1 last (List.mem_append_right _ (List.mem_singleton_self last))
      refine ⟨head, List.mem_of_mem_take isHead, ?_⟩
      rw [decide_eq_true_eq]
      omega

/-- Full pages are no more than the rows of the history. -/
theorem Asked.le_length (several : 2 ≤ pageRows)
    (apart : feed.history.Pairwise fun first second => time first ≠ time second) {pages : Nat}
    {start fromMicros : Int} (asked : Asked feed pageRows 0 start pages fromMicros) :
    pages + (feed.history.filter fun row =>
      decide (fromMicros.tdiv 1000 ≤ time row)).length ≤ feed.history.length := by
  induction asked with
  | first =>
      rw [Nat.zero_add]
      exact List.length_filter_le _ _
  | next _ isFull inductionHypothesis =>
      have := isFull.remaining_lt several apart
      omega

/-! ## A walk of every instrument -/

/-- Failures that begin no earlier than what was reached leave it where it is. -/
theorem reached_withFailures {outcome : WalkOutcome} {failed : List FailedFetch}
    (later : ∀ failure ∈ failed, outcome.reachedMicros ≤ failure.fromMicros) :
    (outcome.withFailures failed).reachedMicros = outcome.reachedMicros := by
  rw [WalkOutcome.withFailures]
  cases isLeast : (failed.map FailedFetch.fromMicros).min? with
  | none => rfl
  | some earliest =>
      obtain ⟨failure, member, rfl⟩ :=
        List.mem_map.mp (List.min?_eq_some_iff.mp isLeast).1
      exact min_eq_left ((later failure member).trans (le_max_left _ _))

/-- Folding a minimum over what each instrument reached is their minimum. -/
theorem foldl_reached (walked : List (Paged Row)) :
    walked.foldl leastReached none = (walked.map Paged.here).min? := by
  have fromSome : ∀ (rest : List (Paged Row)) (least : Int),
      rest.foldl leastReached (some least) =
        some ((rest.map Paged.here).foldl min least) := by
    intro rest
    induction rest with
    | nil => exact fun _ => rfl
    | cons paged rest inductionHypothesis => exact fun least => inductionHypothesis _
  cases walked with
  | nil => rfl
  | cons paged rest => exact fromSome rest paged.here

section Walked

variable {series : Series} {ask : Ask} {feeds : List (Feed Row time)}

/-- What a walk reached is the least that any of its instruments did. -/
theorem reached_walkForward :
    (walkForward pageRows cap series ask toMicros feeds).2.reachedMicros =
      (((walkForward pageRows cap series ask toMicros feeds).1.map Paged.here).min?).getD
        ask.fromMicros := by
  rw [walkForward, foldl_reached]
  apply reached_withFailures
  intro failure member
  obtain ⟨paged, isPaged, inFailed⟩ := List.mem_flatMap.mp member
  obtain ⟨feed, _, rfl⟩ := List.mem_map.mp isPaged
  rw [from_of_mem_failed inFailed]
  have isHere := List.mem_map_of_mem (f := Paged.here) isPaged
  cases isLeast : ((feeds.map fun feed => feed.walked pageRows cap ask toMicros).map
      Paged.here).min? with
  | none =>
      rw [List.min?_eq_none_iff.mp isLeast] at isHere
      cases isHere
  | some least => exact (List.min?_eq_some_iff.mp isLeast).2 _ isHere

@[simp] theorem requestedFrom_walkForward :
    (walkForward pageRows cap series ask toMicros feeds).2.requestedFromMicros =
      ask.fromMicros := by
  rw [walkForward, WalkOutcome.withFailures]
  split <;> rfl

/-- A moment is before what a walk reached exactly where no instrument's walk stops at or before
it. -/
theorem lt_reached_walkForward {moment : Int} (within : ask.fromMicros ≤ moment)
    (some_ : feeds ≠ []) :
    moment < (walkForward pageRows cap series ask toMicros feeds).2.reachedMicros ↔
      ∀ feed ∈ feeds, ¬ Stops feed pageRows 0 ask.fromMicros cap toMicros moment := by
  have stopsAt : ∀ feed ∈ feeds,
      (¬ Stops feed pageRows 0 ask.fromMicros cap toMicros moment ↔
        moment < (feed.walked pageRows cap ask toMicros).here) := by
    intro feed _
    have atHere := @here_pageForward_le _ _ feed pageRows toMicros cap 0 ask.fromMicros
      ask.fromMicros moment (by omega)
    rw [Nat.zero_add] at atHere
    rw [← atHere, not_le]
    rfl
  rw [reached_walkForward]
  cases isLeast : ((walkForward pageRows cap series ask toMicros feeds).1.map
      Paged.here).min? with
  | none =>
      have empty := List.min?_eq_none_iff.mp isLeast
      simp only [walkForward, List.map_eq_nil_iff] at empty
      exact absurd empty some_
  | some least =>
      obtain ⟨attained, isLower⟩ := List.min?_eq_some_iff.mp isLeast
      simp only [walkForward, List.map_map, List.mem_map, Function.comp_apply] at attained isLower
      rw [Option.getD_some]
      constructor
      · intro before feed member
        exact (stopsAt feed member).mpr (before.trans_le (isLower _ ⟨feed, member, rfl⟩))
      · intro unstopped
        obtain ⟨feed, member, rfl⟩ := attained
        exact (stopsAt feed member).mp (unstopped feed member)

/-- Every row within what a forward walk reports reached is in a page taken for its
instrument. -/
def ForwardHonest (feeds : List (Feed Row time)) (walked : List (Paged Row) × WalkOutcome) :
    Prop :=
  ∀ pair ∈ feeds.zip walked.1, ∀ row ∈ pair.1.history,
    walked.2.requestedFromMicros ≤ millisToMicros (time row) →
    millisToMicros (time row) < walked.2.reachedMicros →
      ∃ rows, .page rows ∈ pair.2.taken ∧ row ∈ rows

/-- An instrument is walked with what its own pages came to. -/
theorem mem_zip_walkForward {pair : Feed Row time × Paged Row} :
    pair ∈ feeds.zip (walkForward pageRows cap series ask toMicros feeds).1 ↔
      pair.1 ∈ feeds ∧ pair.2 = pair.1.walked pageRows cap ask toMicros := by
  rw [walkForward, ← List.map_prod_left_eq_zip, List.mem_map]
  constructor
  · rintro ⟨feed, member, rfl⟩
    exact ⟨member, rfl⟩
  · rintro ⟨member, isWalked⟩
    exact ⟨pair.1, member, Prod.ext rfl isWalked.symm⟩

/-- A forward walk's coverage is honest exactly where it loses no row; what it reached is the
least any instrument did; and with two rows or more a page, no two in one millisecond, an
instrument's walk ends under any cap past its history. -/
theorem walkForward_honest_iff :
    let walked := walkForward pageRows cap series ask toMicros feeds
    (ForwardHonest feeds walked ↔ ¬ LosesRow pageRows cap ask toMicros feeds) ∧
      walked.2.reachedMicros = ((walked.1.map Paged.here).min?).getD ask.fromMicros ∧
      ∀ pair ∈ feeds.zip walked.1, 2 ≤ pageRows →
        (pair.1.history.Pairwise fun first second => time first ≠ time second) →
          pair.1.history.length < cap → pair.2.capped = false := by
  intro walked
  refine ⟨?_, reached_walkForward, ?_⟩
  · -- A row in question is one that no walk stops at or before.
    have inReach : ∀ feed ∈ feeds, ∀ row ∈ feed.history,
        (walked.2.requestedFromMicros ≤ millisToMicros (time row) ∧
            millisToMicros (time row) < walked.2.reachedMicros ↔
          ask.fromMicros ≤ time row * 1000 ∧ ∀ other ∈ feeds,
            other.GoesPast pageRows cap ask.fromMicros toMicros (time row * 1000)) := by
      intro feed isFeed row isRow
      rw [millisToMicros_of_mem isRow, requestedFrom_walkForward]
      apply and_congr_right
      intro within
      rw [lt_reached_walkForward within (List.ne_nil_of_mem isFeed)]
      simp only [goesPast_iff]
    have isTaken : ∀ feed : Feed Row time, ∀ row : Row,
        (∃ rows, .page rows ∈ (feed.walked pageRows cap ask toMicros).taken ∧ row ∈ rows) ↔
          Sent feed pageRows 0 ask.fromMicros cap row := by
      intro feed row
      have taken := @mem_taken_pageForward _ _ feed pageRows toMicros cap 0 ask.fromMicros
        ask.fromMicros row
      rwa [Nat.zero_add] at taken
    constructor
    · rintro honest ⟨feed, isFeed, row, isRow, within, leavesOut, goes⟩
      have reached := (inReach feed isFeed row isRow).mpr ⟨within, goes⟩
      have taken := honest (feed, feed.walked pageRows cap ask toMicros)
        (mem_zip_walkForward.mpr ⟨isFeed, rfl⟩) row isRow reached.1 reached.2
      exact unsent_of_leavesOut leavesOut ((isTaken feed row).mp taken)
    · intro sound pair isPair row isRow begins before
      obtain ⟨isFeed, isWalked⟩ := mem_zip_walkForward.mp isPair
      obtain ⟨within, goes⟩ := (inReach _ isFeed row isRow).mp ⟨begins, before⟩
      rw [isWalked, isTaken]
      by_contra unsent
      exact sound ⟨_, isFeed, row, isRow, within,
        leavesOut_of_unsent isRow within unsent (goes _ isFeed), goes⟩
  · intro pair isPair several apart short
    obtain ⟨isFeed, isWalked⟩ := mem_zip_walkForward.mp isPair
    rw [isWalked]
    by_contra isCapped
    rw [Bool.not_eq_false] at isCapped
    obtain ⟨atCap, asked⟩ := asked_of_capped isCapped
    rw [Nat.zero_add] at asked
    have := asked.le_length several apart
    omega

end Walked

/-- An instrument paged. -/
def avax : Ticker := ⟨"AVAX".toList, by decide⟩

/-- Three hourly rows, and how the venue meets each request for them. -/
def hourly (replies : Nat → Reply) : Feed (Int × Nat) Prod.fst :=
  ⟨avax, [(0, 0), (3600000, 1), (7200000, 2)], replies, by decide, by decide⟩

/-- Three hourly rows met with bytes that are not a page. -/
def unread : Feed (Int × Nat) Prod.fst := hourly fun _ => .unreadable

/-- Three rows of one millisecond, whose second page is refused. -/
def tied : Feed (Int × Nat) Prod.fst :=
  ⟨avax, [(1, 0), (1, 1), (1, 2)],
    fun pages => if pages = 0 then .page else .failed "429".toList, by decide, by decide⟩

/-- An ask of funding from the epoch. -/
def hourAsk : Ask := ⟨3600000000, 0, none, 0⟩

/-- Three hourly rows at two a page are two pages. -/
theorem walkForward_honest_iff_hourly :
    let feeds := [hourly fun _ => .page]
    let walked := walkForward 2 10 .funding hourAsk 7200000000 feeds
    (ForwardHonest feeds walked ↔ ¬ LosesRow 2 10 hourAsk 7200000000 feeds) ∧
      ∀ pair ∈ feeds.zip walked.1, pair.2.capped = false := by
  intro feeds walked
  have atHourly := @walkForward_honest_iff _ _ 2 10 7200000000 .funding hourAsk feeds
  refine ⟨atHourly.1, fun pair isPair => atHourly.2.2 pair isPair le_rfl ?_ ?_⟩
  all_goals
    have same := (mem_zip_walkForward.mp isPair).1
    rw [List.mem_singleton.mp same]
    decide

/-- An answer that is not a page is reported as two hours covered; and a refusal, as the rest of
a millisecond the page before it had no room for. -/
theorem rows_reported_covered :
    ¬ ForwardHonest [unread] (walkForward 2 10 .funding hourAsk 7200000000 [unread]) ∧
      ¬ ForwardHonest [tied] (walkForward 2 10 .funding hourAsk 7200000000 [tied]) := by
  constructor
  · intro honest
    obtain ⟨rows, isTaken, _⟩ := honest (unread, unread.walked 2 10 hourAsk 7200000000)
      (List.mem_singleton_self _) (0, 0) (by decide) (by decide) (by decide)
    cases List.mem_singleton.mp isTaken
  · intro honest
    obtain ⟨rows, isTaken, member⟩ := honest (tied, tied.walked 2 10 hourAsk 7200000000)
      (List.mem_singleton_self _) (1, 2) (by decide) (by decide) (by decide)
    cases List.mem_singleton.mp isTaken
    exact absurd member (by decide)

end Capture
end Datawatch
