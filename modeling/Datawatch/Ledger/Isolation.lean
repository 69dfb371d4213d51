import Datawatch.Library.StableSort
import Datawatch.Ledger.Accounting

/-!
# Books apart

A book is folded from its own rows alone, a fill counts once however often it is copied, and a
poisoned book takes no more fills.
-/

namespace Datawatch
namespace Ledger

open Library Wire

/-- The book a row is folded into. -/
def Envelope.book (row : Envelope) : Option Key :=
  match row.event with
  | .fill fill => some (fill.dex, fill.ticker)
  | .fundingPayment payment => some (payment.dex, payment.ticker)
  | .margin _ | .position _ | .ledgerUpdate _ | .eventsReach _ => none

/-- A row is folded into a book. -/
def concerns (key : Key) (row : Envelope) : Bool := decide (row.book = some key)

/-- What an account's fold says of one book: its report, its breaks and its skews. -/
structure BookAccount where
  report : Option BookReport
  breaks : List Break
  skews : List Skew
deriving DecidableEq

/-- What a fold says of one book. -/
def AccountFold.about (key : Key) (account : AccountFold) : BookAccount where
  report := account.books.find? fun report => (report.dex, report.ticker) = key
  breaks := account.breaks.filter fun found => (found.dex, found.ticker) = key
  skews := account.skews.filter fun found => (found.dex, found.ticker) = key

/-- A report without the count of fills after a poisoning. -/
def BookReport.exceptAfterPoison (report : BookReport) : BookReport :=
  { report with afterPoison := 0 }

/-- What a fold says of one book without the count of fills after a poisoning. -/
def BookAccount.exceptAfterPoison (account : BookAccount) : BookAccount :=
  { account with report := account.report.map BookReport.exceptAfterPoison }

/-- One book as it is folded, with what its checks found. -/
structure BookView where
  book : Option Book
  breaks : List Break
  skews : List Skew

namespace BookView

/-- Before any row. -/
def empty : BookView := ⟨none, [], []⟩

/-- The book, an empty one where there is none yet. -/
def current (view : BookView) : Book := view.book.getD {}

/-- Fold one row of a book. -/
def fold (tolerances : Tolerances) (key : Key) (view : BookView) (row : Envelope) : BookView :=
  match row.event with
  | .fill fill =>
      if (fill.dex, fill.ticker) = key then
        { book := some (apply tolerances row fill view.current).1
          breaks := view.breaks ++ (apply tolerances row fill view.current).2.breaks
          skews := view.skews ++ (apply tolerances row fill view.current).2.skews }
      else view
  | .fundingPayment payment =>
      if (payment.dex, payment.ticker) = key then
        { view with book := some { view.current with
            funding := view.current.funding + payment.usdc } }
      else view
  | .margin _ | .position _ | .ledgerUpdate _ | .eventsReach _ => view

/-- What is reported of a book. -/
def account (key : Key) (view : BookView) : BookAccount where
  report := view.book.map fun book => book.report key
  breaks := view.breaks
  skews := view.skews

end BookView

/-- A folding's view of one book. -/
def Folding.view (key : Key) (folding : Folding) : BookView where
  book := folding.books.lookup key
  breaks := folding.breaks.filter fun found => (found.dex, found.ticker) = key
  skews := folding.skews.filter fun found => (found.dex, found.ticker) = key

variable (tolerances : Tolerances) (key : Key)

/-- What a fill is checked to be is said of its own book. -/
theorem apply_checked_key (row : Envelope) (fill : Fill) (book : Book) :
    (∀ found ∈ (apply tolerances row fill book).2.breaks,
      (found.dex, found.ticker) = (fill.dex, fill.ticker)) ∧
      ∀ found ∈ (apply tolerances row fill book).2.skews,
        (found.dex, found.ticker) = (fill.dex, fill.ticker) := by
  have anchored (fresh : Bool) (book : Book) :
      ∀ found ∈ (anchor tolerances row fill fresh book).2,
        (found.dex, found.ticker) = (fill.dex, fill.ticker) := by
    intro found member
    unfold anchor at member
    split at member
    · cases member
    · split at member
      · cases member
      · split at member
        · rw [List.mem_singleton.mp member]
        · cases member
  have closed (book : Book) : ∀ found ∈ (close tolerances fill book).2.skews,
      (found.dex, found.ticker) = (fill.dex, fill.ticker) := by
    intro found member
    unfold close at member
    simp only at member
    split at member
    · generalize (if 0 ≤ book.position then (1 : ℚ) else -1) = direction at member
      simp only at member
      split at member
      · cases member
      · split at member
        · cases member
        · rw [List.mem_singleton.mp member]
    · cases member
    · cases member
  unfold apply
  simp only
  split
  · exact ⟨fun _ member => (List.not_mem_nil member).elim,
      fun _ member => (List.not_mem_nil member).elim⟩
  · split
    · exact ⟨fun _ member => (List.not_mem_nil member).elim,
        fun _ member => (List.not_mem_nil member).elim⟩
    · split
      · exact ⟨fun _ member => (List.not_mem_nil member).elim,
          fun _ member => (List.not_mem_nil member).elim⟩
      · split
        · exact ⟨anchored _ _, fun _ member => (List.not_mem_nil member).elim⟩
        · exact ⟨anchored _ _, closed _⟩

/-- Items of one key are all of a key's, or none. -/
theorem filter_of_key {Item : Type u} (keyOf : Item → Key) (key : Key) {items : List Item}
    {shared : Key} (all : ∀ item ∈ items, keyOf item = shared) :
    (items.filter fun item => keyOf item = key) = if shared = key then items else [] := by
  split
  · rename_i same
    exact List.filter_eq_self.mpr fun item member => by simp [all item member, same]
  · rename_i different
    exact List.filter_eq_nil_iff.mpr fun item member => by simp [all item member, different]

/-- Comparing with a snapshot leaves every book, break and skew. -/
theorem view_checkSnapshot (dex : Option Text) (atMicros : Int)
    (held : Directory Ticker (ℚ × Option ℚ)) (folding : Folding) :
    (checkSnapshot tolerances dex atMicros held folding).view key = folding.view key := by
  have one (folding : Folding) (ticker : Ticker) :
      (checkTicker tolerances dex atMicros held folding ticker).view key = folding.view key := by
    unfold checkTicker
    simp only
    split
    · rfl
    · split
      · split <;> rfl
      · rfl
  have all (tickers : List Ticker) (folding : Folding) :
      (tickers.foldl (checkTicker tolerances dex atMicros held) folding).view key =
        folding.view key := by
    induction tickers generalizing folding with
    | nil => rfl
    | cons ticker tickers inductionHypothesis => exact (inductionHypothesis _).trans (one _ _)
  exact all _ folding

/-- One row is folded into the view of its own book, and leaves the others. -/
theorem view_foldRow (folding : Folding) (row : Envelope) (rest : List Envelope) :
    (foldRow tolerances folding row rest).view key =
      (folding.view key).fold tolerances key row := by
  unfold foldRow BookView.fold
  cases row.event with
  | fill fill =>
      obtain ⟨breaks, skews⟩ := apply_checked_key tolerances row fill
        (folding.book (fill.dex, fill.ticker))
      have keptBreaks := filter_of_key (fun found : Break => (found.dex, found.ticker)) key breaks
      have keptSkews := filter_of_key (fun found : Skew => (found.dex, found.ticker)) key skews
      by_cases same : (fill.dex, fill.ticker) = key
      · subst same
        simp only [if_true, Folding.book] at keptBreaks keptSkews ⊢
        simp only [Folding.view, BookView.current, List.filter_append, AList.lookup_insert,
          keptBreaks, keptSkews]
      · simp only [same, if_false] at keptBreaks keptSkews ⊢
        simp only [Folding.view, List.filter_append, AList.lookup_insert_ne (Ne.symm same),
          keptBreaks, keptSkews, List.append_nil]
  | fundingPayment payment =>
      by_cases same : (payment.dex, payment.ticker) = key
      · subst same
        simp only [if_true, Folding.view, BookView.current, AList.lookup_insert, Folding.book]
      · simp only [same, if_false, Folding.view, AList.lookup_insert_ne (Ne.symm same)]
  | ledgerUpdate update =>
      cases isEffect : update.effect <;> simp only [isEffect] <;> rfl
  | margin margin => exact view_checkSnapshot tolerances key _ _ _ _
  | position position => rfl
  | eventsReach reach => rfl

/-- A book's view after rows is folded from the view before them. -/
theorem view_foldThrough (folding : Folding) (rows later : List Envelope) :
    (foldThrough tolerances folding rows later).view key =
      rows.foldl (BookView.fold tolerances key) (folding.view key) := by
  induction rows generalizing folding with
  | nil => rfl
  | cons row rows inductionHypothesis =>
      rw [foldThrough, inductionHypothesis, view_foldRow, List.foldl_cons]

/-- One book's view of rows, folded in their order. -/
def viewOf (rows : List Envelope) : BookView :=
  (ordered rows).foldl (BookView.fold tolerances key) .empty

/-- The reports hold each book once, under its key. -/
theorem find_report (books : Directory Key Book) (entries : List (Sigma fun _ : Key => Book))
    (perm : entries.Perm books.entries) :
    (entries.map fun entry => entry.2.report entry.1).find?
        (fun report => (report.dex, report.ticker) = key) =
      (books.lookup key).map fun book => book.report key := by
  rw [List.find?_map]
  cases isFound : entries.find? ((fun report : BookReport =>
      decide ((report.dex, report.ticker) = key)) ∘ fun entry => entry.2.report entry.1) with
  | none =>
      have absent : books.lookup key = none := by
        rw [AList.lookup_eq_none]
        intro member
        obtain ⟨book, isBook⟩ := Option.isSome_iff_exists.mp (AList.lookup_isSome.mpr member)
        have isEntry := perm.mem_iff.mpr ((Directory.mem_entries_iff_lookup).mpr isBook)
        have notFound := List.find?_eq_none.mp isFound _ isEntry
        simp [Book.report] at notFound
      rw [absent]
      rfl
  | some entry =>
      have isKey : entry.1 = key := by
        simpa [Book.report] using List.find?_some isFound
      have isEntry := perm.mem_iff.mp (List.mem_of_find?_eq_some isFound)
      obtain ⟨place, book⟩ := entry
      obtain rfl : place = key := isKey
      rw [(Directory.mem_entries_iff_lookup).mp isEntry]
      rfl

/-- **What a fold says of a book is what that book's own fold says.** -/
theorem about_fold (rows : List Envelope) :
    (fold rows tolerances).about key = (viewOf tolerances key rows).account key := by
  have view := view_foldThrough tolerances key {} (ordered rows) []
  have isView : (foldThrough tolerances {} (ordered rows) []).view key =
      viewOf tolerances key rows := view
  rw [← isView]
  simp only [fold, AccountFold.about, BookView.account, Folding.view]
  rw [find_report key _ _ (List.perm_insertionSort _ _)]

instance : Std.Total fun first second : Envelope => foldsBefore first second = true :=
  ⟨fun first second => by
    cases isFirst : isSnapshot first <;> cases isSecond : isSnapshot second <;>
      simp [foldsBefore, isFirst, isSecond] <;> omega⟩

instance : IsTrans Envelope fun first second => foldsBefore first second = true :=
  ⟨fun first second third firstBefore secondBefore => by
    cases isFirst : isSnapshot first <;> cases isSecond : isSnapshot second <;>
      cases isThird : isSnapshot third <;>
      simp [foldsBefore, isFirst, isSecond, isThird] at firstBefore secondBefore ⊢ <;> omega⟩

/-- A row of another book, or of none, leaves a view. -/
theorem fold_of_not_concerns {row : Envelope} (other : concerns key row = false)
    (view : BookView) : view.fold tolerances key row = view := by
  unfold concerns Envelope.book at other
  unfold BookView.fold
  cases isEvent : row.event with
  | fill fill =>
      simp only [isEvent, Option.some.injEq, decide_eq_false_iff_not] at other
      simp only
      rw [if_neg other]
  | fundingPayment payment =>
      simp only [isEvent, Option.some.injEq, decide_eq_false_iff_not] at other
      simp only
      rw [if_neg other]
  | ledgerUpdate | margin | position | eventsReach => rfl

/-- Only a book's own rows are folded into it. -/
theorem foldl_filter_concerns (rows : List Envelope) (view : BookView) :
    (rows.filter (concerns key)).foldl (BookView.fold tolerances key) view =
      rows.foldl (BookView.fold tolerances key) view := by
  induction rows generalizing view with
  | nil => rfl
  | cons row rows inductionHypothesis =>
      cases isOwn : concerns key row with
      | true => rw [List.filter_cons_of_pos isOwn, List.foldl_cons, List.foldl_cons,
          inductionHypothesis]
      | false => rw [List.filter_cons_of_neg (by simp [isOwn]), List.foldl_cons,
          fold_of_not_concerns tolerances key isOwn, inductionHypothesis]

/-- A book's rows are folded in an order of their own. -/
theorem filter_ordered {rows others : List Envelope} {selects : Envelope → Bool}
    (same : others.filter selects = rows.filter selects) :
    (ordered others).filter selects = (ordered rows).filter selects := by
  apply StableSort.eq_of_tied (fun first second => foldsBefore first second = true)
    ((List.pairwise_insertionSort _ _).filter _) ((List.pairwise_insertionSort _ _).filter _)
  intro item
  have ties (rows : List Envelope) :
      StableSort.tied (fun first second => foldsBefore first second = true) item
        ((ordered rows).filter selects) =
      StableSort.tied (fun first second => foldsBefore first second = true) item
        (rows.filter selects) := by
    have sorted := StableSort.tied_insertionSort
      (fun first second => foldsBefore first second = true) item rows
    simp only [StableSort.tied, ordered, List.filter_filter] at sorted ⊢
    rw [← List.filter_filter, List.filter_comm, sorted, List.filter_comm, List.filter_filter]
  exact (ties others).trans ((congrArg _ same).trans (ties rows).symm)

/-- **Books are apart.**  Rows that are alike for a book are folded alike into it. -/
theorem about_of_filter_eq {rows others : List Envelope}
    (same : others.filter (concerns key) = rows.filter (concerns key)) :
    (fold others tolerances).about key = (fold rows tolerances).about key := by
  rw [about_fold, about_fold, viewOf, viewOf, ← foldl_filter_concerns, filter_ordered same,
    foldl_filter_concerns]

/-! ## Copies -/

/-- A fill row that repeats another: the same book, trade and order. -/
def Copies (copy original : Envelope) : Prop :=
  ∃ fill other, copy.event = .fill fill ∧ original.event = .fill other ∧
    (fill.dex, fill.ticker) = (other.dex, other.ticker) ∧ fill.id = other.id

/-- Rows with further copies of fill rows at later places: behind the original in the list and not
before it in time, or after it in time. -/
inductive AddsCopies (rows : List Envelope) : List Envelope → Prop
  | none : AddsCopies rows rows
  | later {front back : List Envelope} {copy original : Envelope} :
      AddsCopies rows (front ++ back) → Copies copy original →
      original ∈ front ∧ foldsBefore original copy = true ∨
        original ∈ back ∧ ¬ foldsBefore copy original = true →
      AddsCopies rows (front ++ copy :: back)

/-- A book is poisoned, or has seen a fill. -/
def BookView.Knows (id : FillId) (view : BookView) : Prop :=
  view.current.poisonedBy.isSome ∨ id ∈ view.current.seen

theorem anchor_frame (row : Envelope) (fill : Fill) (fresh : Bool) (book : Book) :
    (anchor tolerances row fill fresh book).1.seen = book.seen ∧
      (anchor tolerances row fill fresh book).1.poisonedBy = book.poisonedBy := by
  unfold anchor
  split
  · exact ⟨rfl, rfl⟩
  · split
    · exact ⟨rfl, rfl⟩
    · split <;> exact ⟨rfl, rfl⟩

theorem close_frame (fill : Fill) (book : Book) :
    (close tolerances fill book).1.seen = book.seen ∧
      (close tolerances fill book).1.poisonedBy = book.poisonedBy := by
  unfold close
  cases book.basis <;> exact ⟨rfl, rfl⟩

/-- A fill applied to a book is seen by it, as every one before it, unless the book is poisoned. -/
theorem apply_knows (row : Envelope) (fill : Fill) (book : Book) :
    ((apply tolerances row fill book).1.poisonedBy.isSome ∨
      fill.id ∈ (apply tolerances row fill book).1.seen) ∧
      (book.poisonedBy.isSome → (apply tolerances row fill book).1.poisonedBy.isSome) ∧
      ∀ id ∈ book.seen, id ∈ (apply tolerances row fill book).1.seen := by
  unfold apply
  simp only
  split
  · rename_i poisoned
    exact ⟨.inl poisoned, fun _ => poisoned, fun _ member => member⟩
  · split
    · rename_i seen
      exact ⟨.inr seen, fun poisoned => poisoned, fun _ member => member⟩
    · split
      · exact ⟨.inl rfl, fun _ => rfl, fun _ member => List.mem_cons_of_mem _ member⟩
      · rename_i unpoisoned _ _
        have anchored := anchor_frame tolerances row fill (decide (book.seen = []))
          (({ book with seen := fill.id :: book.seen } : Book).charge fill.fee)
        rw [Book.charge_seen, Book.charge_poisonedBy] at anchored
        split
        · refine ⟨.inr ?_, fun poisoned => absurd poisoned unpoisoned, fun _ member => ?_⟩
          · rw [anchored.1]
            exact List.mem_cons_self
          · rw [anchored.1]
            exact List.mem_cons_of_mem _ member
        · have closed := close_frame tolerances fill (anchor tolerances row fill
            (decide (book.seen = []))
            (({ book with seen := fill.id :: book.seen } : Book).charge fill.fee)).1
          refine ⟨.inr ?_, fun poisoned => absurd poisoned unpoisoned, fun _ member => ?_⟩
          · rw [closed.1, anchored.1]
            exact List.mem_cons_self
          · rw [closed.1, anchored.1]
            exact List.mem_cons_of_mem _ member

/-- A row keeps a book poisoned, and keeps what it has seen. -/
theorem BookView.fold_frame (view : BookView) (row : Envelope) :
    (view.current.poisonedBy.isSome → (view.fold tolerances key row).current.poisonedBy.isSome) ∧
      ∀ id ∈ view.current.seen, id ∈ (view.fold tolerances key row).current.seen := by
  unfold BookView.fold
  cases row.event with
  | fill fill =>
      obtain ⟨_, poisoned, seen⟩ := apply_knows tolerances row fill view.current
      simp only
      split
      · exact ⟨poisoned, seen⟩
      · exact ⟨id, fun _ member => member⟩
  | fundingPayment payment =>
      simp only
      split
      · exact ⟨id, fun _ member => member⟩
      · exact ⟨id, fun _ member => member⟩
  | ledgerUpdate | margin | position | eventsReach => exact ⟨id, fun _ member => member⟩

theorem BookView.foldl_poisoned {view : BookView} (poisoned : view.current.poisonedBy.isSome)
    (rows : List Envelope) :
    (rows.foldl (BookView.fold tolerances key) view).current.poisonedBy.isSome := by
  induction rows generalizing view with
  | nil => exact poisoned
  | cons row rows inductionHypothesis =>
      exact inductionHypothesis ((view.fold_frame tolerances key row).1 poisoned)

theorem BookView.Knows.foldl {id : FillId} {view : BookView} (knows : view.Knows id)
    (rows : List Envelope) : (rows.foldl (BookView.fold tolerances key) view).Knows id := by
  induction rows generalizing view with
  | nil => exact knows
  | cons row rows inductionHypothesis =>
      obtain ⟨poisoned, seen⟩ := view.fold_frame tolerances key row
      exact inductionHypothesis (knows.imp poisoned (seen id))

/-- A book folded over one of its fills knows it. -/
theorem knows_of_mem {rows : List Envelope} {row : Envelope} (member : row ∈ rows) {fill : Fill}
    (isFill : row.event = .fill fill) (own : (fill.dex, fill.ticker) = key) (view : BookView) :
    (rows.foldl (BookView.fold tolerances key) view).Knows fill.id := by
  obtain ⟨front, back, rfl⟩ := List.append_of_mem member
  rw [List.foldl_append, List.foldl_cons]
  apply BookView.Knows.foldl
  obtain ⟨knows, _⟩ := apply_knows tolerances row fill
    (front.foldl (BookView.fold tolerances key) view).current
  unfold BookView.fold
  rw [isFill]
  simp only [own, if_true]
  exact knows

theorem apply_of_seen (row : Envelope) {fill : Fill} {book : Book}
    (unpoisoned : ¬ book.poisonedBy.isSome) (seen : fill.id ∈ book.seen) :
    apply tolerances row fill book = (book, {}) := by
  unfold apply
  simp only
  rw [if_neg unpoisoned, if_pos seen]

theorem apply_of_poisoned (row : Envelope) (fill : Fill) {book : Book}
    (poisoned : book.poisonedBy.isSome) :
    apply tolerances row fill book = ({ book with afterPoison := book.afterPoison + 1 }, {}) := by
  unfold apply
  simp only
  rw [if_pos poisoned]

/-- A fill an unpoisoned book has seen changes nothing of it. -/
theorem fold_of_seen {row : Envelope} {fill : Fill} (isFill : row.event = .fill fill)
    {view : BookView} (unpoisoned : ¬ view.current.poisonedBy.isSome)
    (seen : fill.id ∈ view.current.seen) : view.fold tolerances key row = view := by
  unfold BookView.fold
  rw [isFill]
  simp only
  split
  · obtain ⟨book, breaks, skews⟩ := view
    cases book with
    | none => cases seen
    | some book =>
        have unchanged : apply tolerances row fill book = (book, {}) :=
          apply_of_seen tolerances row unpoisoned seen
        simp only [BookView.current, Option.getD_some, unchanged, List.append_nil]
  · rfl

/-- **One more copy of a fill changes nothing of an unpoisoned book.** -/
theorem viewOf_copy {front back : List Envelope} {copy original : Envelope}
    (copies : Copies copy original)
    (later : original ∈ front ∧ foldsBefore original copy = true ∨
      original ∈ back ∧ ¬ foldsBefore copy original = true)
    (unpoisoned : ¬ (viewOf tolerances key (front ++ back)).current.poisonedBy.isSome) :
    viewOf tolerances key (front ++ copy :: back) = viewOf tolerances key (front ++ back) := by
  obtain ⟨fill, other, isFill, isOther, sameBook, sameId⟩ := copies
  obtain ⟨before, after, withCopy, without, behind, ahead⟩ :=
    StableSort.exists_insertionSort_append_cons
      (fun first second : Envelope => foldsBefore first second = true) front back copy
  have isBefore : original ∈ before :=
    later.elim (fun ⟨member, notAfter⟩ => behind original member notAfter)
      fun ⟨member, notBefore⟩ => ahead original member notBefore
  unfold viewOf ordered at unpoisoned ⊢
  rw [without, List.foldl_append] at unpoisoned
  rw [withCopy, without, List.foldl_append, List.foldl_append, List.foldl_cons]
  congr 1
  by_cases own : (fill.dex, fill.ticker) = key
  · have stillUnpoisoned : ¬ (before.foldl (BookView.fold tolerances key)
        .empty).current.poisonedBy.isSome :=
      fun poisoned => unpoisoned (BookView.foldl_poisoned tolerances key poisoned after)
    apply fold_of_seen tolerances key isFill stillUnpoisoned
    rw [sameId]
    exact (knows_of_mem tolerances key isBefore isOther (sameBook.symm.trans own)
      _).resolve_left stillUnpoisoned
  · apply fold_of_not_concerns
    simp [concerns, Envelope.book, isFill, own]

/-- No report of a book says that it is poisoned. -/
def BookAccount.Unpoisoned (account : BookAccount) : Prop :=
  ∀ report ∈ account.report, report.poisonedBy = none

/-- A report of a book says that it is poisoned. -/
def BookAccount.Poisoned (account : BookAccount) : Prop :=
  ∃ report ∈ account.report, report.poisonedBy ≠ none

theorem BookView.poisoned_account_iff {view : BookView} :
    (view.account key).Poisoned ↔ view.current.poisonedBy.isSome := by
  obtain ⟨book, breaks, skews⟩ := view
  cases book with
  | none => simp [BookAccount.Poisoned, account, current]
  | some book =>
      simp [BookAccount.Poisoned, account, current, Book.report, Option.isSome_iff_ne_none]

theorem BookAccount.unpoisoned_iff {account : BookAccount} :
    account.Unpoisoned ↔ ¬ account.Poisoned := by
  simp [Unpoisoned, Poisoned]

/-- **A fill counts once.**  Further copies of fill rows leave what is said of an unpoisoned
book. -/
theorem about_of_addsCopies {rows more : List Envelope} (adds : AddsCopies rows more)
    (unpoisoned : ((fold rows tolerances).about key).Unpoisoned) :
    (fold more tolerances).about key = (fold rows tolerances).about key := by
  induction adds with
  | none => rfl
  | later _ copies isLater inductionHypothesis =>
      rename_i front back copy original
      rw [← inductionHypothesis, about_fold, about_fold]
      have still := unpoisoned
      rw [← inductionHypothesis, about_fold, BookAccount.unpoisoned_iff,
        BookView.poisoned_account_iff] at still
      rw [viewOf_copy tolerances key copies isLater still]

/-- A row is funding of a book. -/
def pays (key : Key) (row : Envelope) : Bool :=
  match row.event with
  | .fundingPayment payment => decide ((payment.dex, payment.ticker) = key)
  | _ => false

/-- A view without the count of fills after a poisoning. -/
def BookView.exceptAfterPoison (view : BookView) : BookView :=
  { view with book := view.book.map fun book => { book with afterPoison := 0 } }

/-- A poisoned book's view, but for its count, follows its funding alone. -/
theorem fold_of_poisoned (row : Envelope) {view : BookView}
    (poisoned : view.current.poisonedBy.isSome) :
    (view.fold tolerances key row).exceptAfterPoison =
      if pays key row then view.exceptAfterPoison.fold tolerances key row
      else view.exceptAfterPoison := by
  obtain ⟨book, breaks, skews⟩ := view
  cases book with
  | none => cases poisoned
  | some book =>
      have applied (fill : Fill) := apply_of_poisoned tolerances row fill
        (show book.poisonedBy.isSome from poisoned)
      unfold BookView.fold pays
      cases row.event with
      | fill fill =>
          simp only [BookView.current, Option.getD_some, applied, List.append_nil]
          split <;> rfl
      | fundingPayment payment =>
          simp only [decide_eq_true_eq]
          split <;> rfl
      | ledgerUpdate | margin | position | eventsReach => rfl

theorem foldl_of_poisoned (rows : List Envelope) {view : BookView}
    (poisoned : view.current.poisonedBy.isSome) :
    (rows.foldl (BookView.fold tolerances key) view).exceptAfterPoison =
      (rows.filter (pays key)).foldl (BookView.fold tolerances key) view.exceptAfterPoison := by
  induction rows generalizing view with
  | nil => rfl
  | cons row rows inductionHypothesis =>
      have one := fold_of_poisoned tolerances key row poisoned
      rw [List.foldl_cons, inductionHypothesis ((view.fold_frame tolerances key row).1 poisoned),
        one]
      cases isFunding : pays key row with
      | true =>
          rw [List.filter_cons_of_pos isFunding, List.foldl_cons]
          rfl
      | false =>
          rw [List.filter_cons_of_neg (by simp [isFunding])]
          rfl

theorem BookView.account_exceptAfterPoison (view : BookView) :
    (view.account key).exceptAfterPoison = view.exceptAfterPoison.account key := by
  obtain ⟨book, breaks, skews⟩ := view
  cases book <;> rfl

/-- **A poisoned book takes no more fills.**  Where the rows folded first poison a book, the fills
among the rest change nothing said of it but its count of them. -/
theorem about_of_poisoned {rows others front rest other : List Envelope}
    (isRows : ordered rows = front ++ rest) (isOthers : ordered others = front ++ other)
    (poisoned : ((fold front tolerances).about key).Poisoned)
    (sameFunding : other.filter (pays key) = rest.filter (pays key)) :
    ((fold others tolerances).about key).exceptAfterPoison =
      ((fold rows tolerances).about key).exceptAfterPoison := by
  have sorted : (front ++ rest).Pairwise fun first second => foldsBefore first second = true := by
    rw [← isRows]
    exact List.pairwise_insertionSort _ _
  have isFront : ordered front = front :=
    (List.pairwise_append.mp sorted).1.insertionSort_eq
  rw [about_fold, BookView.poisoned_account_iff, viewOf, isFront] at poisoned
  rw [about_fold, about_fold, BookView.account_exceptAfterPoison,
    BookView.account_exceptAfterPoison, viewOf, viewOf, isRows, isOthers, List.foldl_append,
    List.foldl_append, foldl_of_poisoned tolerances key other poisoned,
    foldl_of_poisoned tolerances key rest poisoned, sameFunding]

/-- **Books are folded apart, and each fill once.**  What is said of a book is the same whatever
rows other books have, an unpoisoned book's whatever copies of fills are added later, and a
poisoned book's, but for its count of them, whatever fills it has later. -/
theorem books_isolated :
    (∀ rows others, others.filter (concerns key) = rows.filter (concerns key) →
      (fold others tolerances).about key = (fold rows tolerances).about key) ∧
      (∀ rows more, AddsCopies rows more → ((fold rows tolerances).about key).Unpoisoned →
        (fold more tolerances).about key = (fold rows tolerances).about key) ∧
      ∀ rows others front rest other, ordered rows = front ++ rest →
        ordered others = front ++ other → ((fold front tolerances).about key).Poisoned →
        other.filter (pays key) = rest.filter (pays key) →
        ((fold others tolerances).about key).exceptAfterPoison =
          ((fold rows tolerances).about key).exceptAfterPoison :=
  ⟨fun _ _ same => about_of_filter_eq tolerances key same,
    fun _ _ adds unpoisoned => about_of_addsCopies tolerances key adds unpoisoned,
    fun _ _ _ _ _ isRows isOthers poisoned sameFunding =>
      about_of_poisoned tolerances key isRows isOthers poisoned sameFunding⟩

/-- Funding of another dex's book of one instrument. -/
def otherFunding : Envelope :=
  ⟨hyperliquid, mainAccount, 9, some 2, 2, .fundingPayment ⟨some "xyz".toList, eth, 5, []⟩⟩

/-- A book beside another's funding, a fill received twice, and a fill after one without a size. -/
theorem books_isolated_flipped :
    (fold (otherFunding :: flipped) ⟨0, 0⟩).about (none, eth) =
        (fold flipped ⟨0, 0⟩).about (none, eth) ∧
      (fold (flipped ++ [fillAt 1 1 .bid 2 100 0]) ⟨0, 0⟩).about (none, eth) =
        (fold flipped ⟨0, 0⟩).about (none, eth) ∧
      ((fold [fillAt 1 1 .bid 0 100 0, fillAt 2 2 .bid 1 100 0] ⟨0, 0⟩).about
          (none, eth)).exceptAfterPoison =
        ((fold [fillAt 1 1 .bid 0 100 0] ⟨0, 0⟩).about (none, eth)).exceptAfterPoison := by
  obtain ⟨apart, once, poisoned⟩ := books_isolated ⟨0, 0⟩ (none, eth)
  refine ⟨apart _ _ rfl, once _ _ ?_ ?_, poisoned _ _ [fillAt 1 1 .bid 0 100 0] [] _ rfl rfl ?_ rfl⟩
  · apply @AddsCopies.later _ flipped [] _ (fillAt 1 1 .bid 2 100 0)
    · rw [List.append_nil]
      exact .none
    · exact ⟨_, _, rfl, rfl, rfl, rfl⟩
    · exact .inl ⟨by simp [flipped], by decide +kernel⟩
  · have isSound : ((fold flipped ⟨0, 0⟩).about (none, eth)).report.map
        BookReport.poisonedBy = some none := by
      decide +kernel
    obtain ⟨report, isReport, sound⟩ := Option.map_eq_some_iff.mp isSound
    intro other member
    obtain rfl := Option.some.inj (isReport.symm.trans member)
    exact sound
  · have isPoisoned : ((fold [fillAt 1 1 .bid 0 100 0] ⟨0, 0⟩).about (none, eth)).report.map
        BookReport.poisonedBy = some (some (1, 1)) := by
      decide +kernel
    obtain ⟨report, isReport, spoiled⟩ := Option.map_eq_some_iff.mp isPoisoned
    exact ⟨report, isReport, by rw [spoiled]; exact Option.some_ne_none _⟩

end Ledger
end Datawatch
