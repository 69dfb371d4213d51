import Datawatch.Ledger.Fold

/-!
# The accounting identity

A book that opens flat and is never re-anchored holds the sum of its signed sizes, and what it
realised less what its position cost is what its fills brought in.
-/

namespace Datawatch
namespace Ledger

open Library Wire

/-- The fills of one book among rows. -/
def fillsOf (key : Key) (rows : List Envelope) : List Fill :=
  rows.filterMap fun row =>
    match row.event with
    | .fill fill => if (fill.dex, fill.ticker) = key then some fill else none
    | _ => none

/-- The sum of signed sizes. -/
def netSize (fills : List Fill) : ℚ := (fills.map signed).sum

/-- The sum of signed sizes at their prices. -/
def spent (fills : List Fill) : ℚ := (fills.map fun fill => signed fill * fill.price).sum

/-- What a book's position cost at its basis. -/
def Book.cost (book : Book) : ℚ :=
  match book.basis with
  | .known basis => book.position * basis
  | .flat | .unknown => 0

/-- The accounting identity of a book and the fills behind it. -/
structure Balanced (fills : List Fill) (book : Book) : Prop where
  position : book.position = netSize fills
  accounted : book.realised - book.cost = -spent fills
  flat_iff : book.basis = .flat ↔ book.position = 0
  held : book.basis ≠ .unknown

/-- A fill that continues the ones before it: a new one, with a size and a price, whose stated
start agrees with them.  The first starts flat. -/
structure Follows (tolerances : Tolerances) (earlier : List Fill) (fill : Fill) : Prop where
  distinct : fill.id ∉ earlier.map Fill.id
  sized : fill.size ≠ 0
  priced : 0 < fill.price
  continuous : ∀ stated ∈ fill.startPosition,
    if earlier = [] then stated = 0 else |netSize earlier - stated| ≤ tolerances.position

instance (tolerances : Tolerances) (earlier : List Fill) (fill : Fill) :
    Decidable (Follows tolerances earlier fill) :=
  decidable_of_iff
    ((∀ other ∈ earlier, other.id ≠ fill.id) ∧ fill.size ≠ 0 ∧ 0 < fill.price ∧
      ∀ stated ∈ fill.startPosition,
        if earlier = [] then stated = 0 else |netSize earlier - stated| ≤ tolerances.position)
    ⟨fun ⟨distinct, sized, priced, continuous⟩ =>
        ⟨by simpa using distinct, sized, priced, continuous⟩,
      fun ⟨distinct, sized, priced, continuous⟩ =>
        ⟨by simpa using distinct, sized, priced, continuous⟩⟩

/-- Every fill continues the ones before it, some of them earlier still. -/
def Consistent (tolerances : Tolerances) : List Fill → List Fill → Prop
  | _, [] => True
  | earlier, fill :: later =>
      Follows tolerances earlier fill ∧ Consistent tolerances (earlier ++ [fill]) later

instance decidableConsistent (tolerances : Tolerances) :
    ∀ earlier fills, Decidable (Consistent tolerances earlier fills)
  | _, [] => isTrue trivial
  | earlier, fill :: later =>
      have := decidableConsistent tolerances (earlier ++ [fill]) later
      inferInstanceAs (Decidable (_ ∧ _))

theorem consistent_append {tolerances : Tolerances} {earlier first second : List Fill} :
    Consistent tolerances earlier (first ++ second) ↔
      Consistent tolerances earlier first ∧ Consistent tolerances (earlier ++ first) second := by
  induction first generalizing earlier with
  | nil => simp [Consistent]
  | cons fill first inductionHypothesis =>
      simp only [List.cons_append, Consistent, inductionHypothesis, and_assoc,
        List.append_assoc, List.nil_append]

/-- What a book of consistent fills keeps. -/
structure Holds (fills : List Fill) (book : Book) : Prop extends Balanced fills book where
  seen : ∀ id, id ∈ book.seen ↔ id ∈ fills.map Fill.id
  unpoisoned : book.poisonedBy = none

@[simp] theorem netSize_append (first second : List Fill) :
    netSize (first ++ second) = netSize first + netSize second := by
  simp [netSize]

@[simp] theorem spent_append (first second : List Fill) :
    spent (first ++ second) = spent first + spent second := by
  simp [spent]

@[simp] theorem netSize_singleton (fill : Fill) : netSize [fill] = signed fill := by
  simp [netSize]

@[simp] theorem spent_singleton (fill : Fill) : spent [fill] = signed fill * fill.price := by
  simp [spent]

theorem signed_ne_zero {fill : Fill} (sized : fill.size ≠ 0) : signed fill ≠ 0 := by
  unfold signed
  cases fill.side with
  | bid => exact sized
  | ask => exact neg_ne_zero.mpr sized

/-- Two quantities of one sign, the first of them not zero. -/
theorem abs_ratio_of_sameSide {position quantity : ℚ} (open_ : position ≠ 0)
    (nonzero : quantity ≠ 0) (same : sameSide position quantity = true) :
    (0 < position ∧ 0 < quantity) ∨ (position < 0 ∧ quantity < 0) := by
  simp only [sameSide, open_, decide_false, Bool.false_or, beq_iff_eq,
    decide_eq_decide] at same
  rcases lt_or_gt_of_ne open_ with short | long
  · refine .inr ⟨short, ?_⟩
    by_contra notShort
    exact absurd (same.mpr (not_lt.mp notShort)) (not_le.mpr short)
  · exact .inl ⟨long, lt_of_le_of_ne (same.mp long.le) nonzero.symm⟩

/-- What is held after adding to a position costs what the two parts cost. -/
theorem cost_add {position quantity basis price : ℚ} (open_ : position ≠ 0)
    (nonzero : quantity ≠ 0) (same : sameSide position quantity = true) :
    (position + quantity) *
        ((|position| * basis + |quantity| * price) / (|position| + |quantity|)) =
      position * basis + quantity * price := by
  rcases abs_ratio_of_sameSide open_ nonzero same with ⟨long, bought⟩ | ⟨short, sold⟩
  · rw [abs_of_pos long, abs_of_pos bought]
    field_simp
  · rw [abs_of_neg short, abs_of_neg sold]
    have total : 0 < -position + -quantity := by linarith
    field_simp
    ring

/-- A position added to is not flat. -/
theorem add_ne_zero_of_sameSide {position quantity : ℚ} (open_ : position ≠ 0)
    (nonzero : quantity ≠ 0) (same : sameSide position quantity = true) :
    position + quantity ≠ 0 := by
  rcases abs_ratio_of_sameSide open_ nonzero same with ⟨long, bought⟩ | ⟨short, sold⟩
  · exact (add_pos long bought).ne'
  · exact (add_neg short sold).ne

/-- Opening a position or adding to it keeps the identity. -/
theorem Balanced.add {fills : List Fill} {book : Book} (balanced : Balanced fills book)
    {fill : Fill} (sized : fill.size ≠ 0)
    (same : sameSide book.position (signed fill) = true) :
    Balanced (fills ++ [fill])
      { book with
        position := book.position + signed fill
        basis := book.basis.add book.position (signed fill) fill.price } := by
  have nonzero := signed_ne_zero sized
  have accounted := balanced.accounted
  cases isBasis : book.basis with
  | flat =>
      have flat : book.position = 0 := balanced.flat_iff.mp isBasis
      simp only [Book.cost, isBasis] at accounted
      refine ⟨?_, ?_, ?_, ?_⟩
      · simp [← balanced.position]
      · simp only [Book.cost, Basis.add, flat, spent_append, spent_singleton]
        linarith
      · simp [Basis.add, flat, nonzero]
      · simp [Basis.add]
  | known basis =>
      have open_ : book.position ≠ 0 := fun flat => by
        simp [balanced.flat_iff.mpr flat] at isBasis
      simp only [Book.cost, isBasis] at accounted
      refine ⟨?_, ?_, ?_, ?_⟩
      · simp [← balanced.position]
      · simp only [Book.cost, Basis.add, cost_add open_ nonzero same, spent_append,
          spent_singleton]
        linarith
      · simp [Basis.add, add_ne_zero_of_sameSide open_ nonzero same]
      · simp [Basis.add]
  | unknown => exact absurd isBasis balanced.held

/-- Quantities of opposite signs. -/
theorem opposite_of_not_sameSide {position quantity : ℚ}
    (opposite : sameSide position quantity = false) :
    (0 < position ∧ quantity < 0) ∨ (position < 0 ∧ 0 ≤ quantity) := by
  simp only [sameSide, Bool.or_eq_false_iff, decide_eq_false_iff_not, beq_eq_false_iff_ne,
    ne_eq, decide_eq_decide] at opposite
  obtain ⟨open_, different⟩ := opposite
  rcases lt_or_gt_of_ne open_ with short | long
  · refine .inr ⟨short, ?_⟩
    by_contra negative
    exact different ⟨fun atLeast => absurd short (not_lt.mpr atLeast),
      fun atLeast => absurd atLeast negative⟩
  · refine .inl ⟨long, ?_⟩
    by_contra atLeast
    exact different ⟨fun _ => not_lt.mp atLeast, fun _ => long.le⟩

/-- What a fill against a position closes, with the position's sign: the whole position where
the fill reaches flat or past it, and otherwise the fill itself. -/
theorem closing_mul_direction {position quantity : ℚ}
    (opposite : sameSide position quantity = false) :
    min |quantity| |position| * (if 0 ≤ position then 1 else -1) =
      if position + quantity = 0 ∨
          decide (0 ≤ position + quantity) ≠ decide (0 ≤ position) then position
      else -quantity := by
  rcases opposite_of_not_sameSide opposite with ⟨long, sold⟩ | ⟨short, bought⟩
  · rw [if_pos long.le, abs_of_neg sold, abs_of_pos long]
    split
    · rename_i closes
      have reached : position ≤ -quantity := by
        rcases closes with flat | flipped
        · linarith
        · simp only [ne_eq, decide_eq_decide, long.le, iff_true, not_le] at flipped
          linarith
      rw [min_eq_right reached, mul_one]
    · rename_i remains
      simp only [not_or, ne_eq, not_not, decide_eq_decide, long.le, iff_true] at remains
      rw [min_eq_left (by linarith [remains.2]), mul_one]
  · rw [if_neg (not_le.mpr short), abs_of_nonneg bought, abs_of_neg short]
    split
    · rename_i closes
      have reached : -position ≤ quantity := by
        rcases closes with flat | flipped
        · linarith
        · simp only [ne_eq, decide_eq_decide, not_le.mpr short, iff_false, not_not] at flipped
          linarith
      rw [min_eq_right reached]
      ring
    · rename_i remains
      simp only [not_or, ne_eq, not_not, decide_eq_decide, not_le.mpr short, iff_false,
        not_le] at remains
      rw [min_eq_left (by linarith [remains.2])]
      ring

/-- A fill against the position keeps the identity. -/
theorem Balanced.close {fills : List Fill} {book : Book} (balanced : Balanced fills book)
    (tolerances : Tolerances) {fill : Fill} (sized : fill.size ≠ 0)
    (opposite : sameSide book.position (signed fill) = false) :
    Balanced (fills ++ [fill]) (close tolerances fill book).1 := by
  have nonzero := signed_ne_zero sized
  have accounted := balanced.accounted
  have sides := opposite_of_not_sameSide opposite
  have open_ : book.position ≠ 0 := by
    rcases sides with ⟨long, _⟩ | ⟨short, _⟩
    · exact long.ne'
    · exact short.ne
  cases isBasis : book.basis with
  | flat => exact absurd (balanced.flat_iff.mp isBasis) open_
  | unknown => exact absurd isBasis balanced.held
  | known basis =>
      simp only [Book.cost, isBasis] at accounted
      refine ⟨?_, ?_, ?_, ?_⟩
      · simp [Ledger.close, isBasis, balanced.position]
      · -- The three ways a fill against a position ends: flat, flipped or reduced.
        simp only [Book.cost, Ledger.close, isBasis, spent_append, spent_singleton]
        rw [mul_right_comm, closing_mul_direction opposite]
        by_cases flat : book.position + signed fill = 0
        · simp only [flat, true_or, if_true]
          linear_combination accounted + fill.price * flat
        · by_cases flipped :
            decide (0 ≤ book.position + signed fill) ≠ decide (0 ≤ book.position)
          · simp only [flat, flipped, ne_eq, not_false_eq_true, or_true, if_true, if_false]
            linear_combination accounted
          · simp only [flat, flipped, or_self, if_false]
            linear_combination accounted
      · simp only [Ledger.close, isBasis]
        split
        · simp_all
        · split <;> simp_all
      · simp only [Ledger.close, isBasis]
        split
        · simp
        · split <;> simp

/-- The identity does not depend on what a book's other fields hold. -/
theorem Balanced.congr {fills : List Fill} {book other : Book} (balanced : Balanced fills book)
    (position : other.position = book.position) (basis : other.basis = book.basis)
    (realised : other.realised = book.realised) : Balanced fills other := by
  have cost : other.cost = book.cost := by simp only [Book.cost, basis, position]
  refine ⟨?_, ?_, ?_, ?_⟩
  · rw [position, balanced.position]
  · rw [realised, cost, balanced.accounted]
  · rw [basis, position, balanced.flat_iff]
  · rw [basis]
    exact balanced.held

/-- A fill that continues the ones before it neither anchors its book nor breaks it. -/
theorem anchor_of_follows {tolerances : Tolerances} {earlier : List Fill} {fill : Fill}
    (follows : Follows tolerances earlier fill) (row : Envelope) {fresh : Bool}
    (isFresh : fresh = true ↔ earlier = []) {book : Book} (balanced : Balanced earlier book) :
    anchor tolerances row fill fresh book = (book, []) := by
  unfold anchor
  split
  · rfl
  · rename_i stated isStated
    have continuous := follows.continuous stated isStated
    by_cases first : earlier = []
    · have flat : book.position = 0 := by rw [balanced.position, first]; rfl
      rw [if_pos first] at continuous
      rw [if_pos (isFresh.mpr first), continuous, ← flat, Basis.stated, if_pos flat,
        ← balanced.flat_iff.mpr flat]
    · rw [if_neg first, ← balanced.position] at continuous
      rw [if_neg fun isTrue => first (isFresh.mp isTrue), if_neg (not_lt.mpr continuous)]

@[simp] theorem seen_close (tolerances : Tolerances) (fill : Fill) (book : Book) :
    (close tolerances fill book).1.seen = book.seen := by
  unfold close
  cases book.basis <;> rfl

@[simp] theorem poisonedBy_close (tolerances : Tolerances) (fill : Fill) (book : Book) :
    (close tolerances fill book).1.poisonedBy = book.poisonedBy := by
  unfold close
  cases book.basis <;> rfl

/-- A fill that continues the ones before it is applied, keeps the identity and breaks
nothing. -/
theorem Holds.apply {tolerances : Tolerances} {earlier : List Fill} {book : Book}
    (holds : Holds earlier book) (row : Envelope) {fill : Fill}
    (follows : Follows tolerances earlier fill) :
    Holds (earlier ++ [fill]) (apply tolerances row fill book).1 ∧
      (apply tolerances row fill book).2.breaks = [] := by
  have isNew : fill.id ∉ book.seen := fun isSeen => follows.distinct ((holds.seen _).mp isSeen)
  have isFresh : decide (book.seen = []) = true ↔ earlier = [] := by
    rw [decide_eq_true_eq, List.eq_nil_iff_forall_not_mem, ← List.map_eq_nil_iff,
      List.eq_nil_iff_forall_not_mem]
    exact forall_congr' fun id => not_congr (holds.seen id)
  have sound : ¬ (fill.size = 0 ∨ fill.price ≤ 0) := by
    rw [not_or, not_le]
    exact ⟨follows.sized, follows.priced⟩
  have seenAfter : ∀ id, id ∈ fill.id :: book.seen ↔ id ∈ (earlier ++ [fill]).map Fill.id := by
    intro id
    rw [List.map_append, List.mem_append, ← holds.seen id, List.mem_cons, List.map_singleton,
      List.mem_singleton, or_comm]
  have balanced : Balanced earlier
      (Book.charge { book with seen := fill.id :: book.seen } fill.fee) :=
    holds.toBalanced.congr (by simp) (by simp) (by simp)
  have alive : ¬ book.poisonedBy.isSome = true := by simp [holds.unpoisoned]
  unfold Ledger.apply
  simp only
  rw [if_neg alive, if_neg isNew, if_neg sound, anchor_of_follows follows row isFresh balanced]
  simp only
  split
  · rename_i same
    refine ⟨⟨balanced.add follows.sized same, ?_, ?_⟩, rfl⟩
    · simpa using seenAfter
    · simpa using holds.unpoisoned
  · rename_i opposite
    refine ⟨⟨balanced.close tolerances follows.sized (Bool.eq_false_iff.mpr opposite), ?_, ?_⟩, rfl⟩
    · simpa using seenAfter
    · simpa using holds.unpoisoned

/-- An empty book holds no fill. -/
theorem holds_nil : Holds [] {} :=
  { position := rfl
    accounted := by simp [Book.cost, spent]
    flat_iff := by simp
    held := by simp
    seen := by simp
    unpoisoned := rfl }

/-- Funding is kept apart from what the identity is about. -/
theorem Holds.fund {fills : List Fill} {book : Book} (holds : Holds fills book) (usdc : ℚ) :
    Holds fills { book with funding := book.funding + usdc } :=
  ⟨holds.toBalanced.congr rfl rfl rfl, holds.seen, holds.unpoisoned⟩

theorem books_checkSnapshot (tolerances : Tolerances) (dex : Option Text) (atMicros : Int)
    (held : Directory Ticker (ℚ × Option ℚ)) (folding : Folding) :
    (checkSnapshot tolerances dex atMicros held folding).books = folding.books := by
  have one (folding : Folding) (ticker : Ticker) :
      (checkTicker tolerances dex atMicros held folding ticker).books = folding.books := by
    unfold checkTicker
    simp only
    split
    · rfl
    · split
      · split <;> rfl
      · rfl
  have all (tickers : List Ticker) (folding : Folding) :
      (tickers.foldl (checkTicker tolerances dex atMicros held) folding).books =
        folding.books := by
    induction tickers generalizing folding with
    | nil => rfl
    | cons ticker tickers inductionHypothesis =>
        rw [List.foldl_cons, inductionHypothesis, one]
  exact all _ folding

theorem fillsOf_append (key : Key) (first second : List Envelope) :
    fillsOf key (first ++ second) = fillsOf key first ++ fillsOf key second :=
  List.filterMap_append

/-- A row changes a book only by a fill of it, or by what funding moved. -/
theorem Holds.foldRow {tolerances : Tolerances} {key : Key} {earlier : List Fill}
    {folding : Folding} (holds : Holds earlier (folding.book key)) (row : Envelope)
    (rest : List Envelope)
    (consistent : Consistent tolerances earlier (fillsOf key [row])) :
    Holds (earlier ++ fillsOf key [row]) ((foldRow tolerances folding row rest).book key) := by
  unfold Ledger.foldRow
  cases isEvent : row.event with
  | fill fill =>
      simp only [Folding.book]
      by_cases same : (fill.dex, fill.ticker) = key
      · have isFill : fillsOf key [row] = [fill] := by simp [fillsOf, isEvent, same]
        rw [isFill] at consistent ⊢
        rw [same, AList.lookup_insert]
        exact (holds.apply row consistent.1).1
      · have noFill : fillsOf key [row] = [] := by simp [fillsOf, isEvent, same]
        rw [noFill, List.append_nil, AList.lookup_insert_ne fun isKey => same isKey.symm]
        exact holds
  | fundingPayment payment =>
      have noFill : fillsOf key [row] = [] := by simp [fillsOf, isEvent]
      simp only [Folding.book, noFill, List.append_nil]
      by_cases same : key = (payment.dex, payment.ticker)
      · rw [← same, AList.lookup_insert]
        exact holds.fund payment.usdc
      · rw [AList.lookup_insert_ne same]
        exact holds
  | ledgerUpdate update =>
      have noFill : fillsOf key [row] = [] := by simp [fillsOf, isEvent]
      simp only [noFill, List.append_nil]
      split <;> exact holds
  | margin margin =>
      have noFill : fillsOf key [row] = [] := by simp [fillsOf, isEvent]
      simp only [Folding.book, noFill, List.append_nil, books_checkSnapshot]
      exact holds
  | position | eventsReach =>
      have noFill : fillsOf key [row] = [] := by simp [fillsOf, isEvent]
      simp only [noFill, List.append_nil]
      exact holds

/-- Consistent fills keep their book as rows are folded. -/
theorem holds_foldThrough {tolerances : Tolerances} {key : Key} {earlier : List Fill}
    {folding : Folding} (holds : Holds earlier (folding.book key)) {rows later : List Envelope}
    (consistent : Consistent tolerances earlier (fillsOf key rows)) :
    Holds (earlier ++ fillsOf key rows)
      ((foldThrough tolerances folding rows later).book key) := by
  induction rows generalizing earlier folding with
  | nil => simpa [fillsOf, foldThrough] using holds
  | cons row rows inductionHypothesis =>
      have split : fillsOf key (row :: rows) = fillsOf key [row] ++ fillsOf key rows :=
        fillsOf_append key [row] rows
      rw [split] at consistent
      obtain ⟨here, rest⟩ := consistent_append.mp consistent
      rw [split, ← List.append_assoc]
      exact inductionHypothesis (holds.foldRow row (rows ++ later) here) rest

/-- **The accounting identity.**  While the fills of a book are consistent, after every row the
book's position is the sum of signed sizes, what it realised less what its position cost is
the negated sum of signed sizes at their prices, and it is flat exactly when its position is
zero. -/
theorem balanced_of_consistent (tolerances : Tolerances) (rows : List Envelope) (key : Key)
    (consistent : Consistent tolerances [] (fillsOf key (ordered rows)))
    (before after : List Envelope) (isFront : ordered rows = before ++ after) :
    Balanced (fillsOf key before) ((foldThrough tolerances {} before after).book key) := by
  rw [isFront, fillsOf_append] at consistent
  have front := (consistent_append.mp consistent).1
  exact (holds_foldThrough holds_nil front).toBalanced

def hyperliquid : Venue := ⟨"hyperliquid".toList, by decide⟩

def mainAccount : Account := ⟨"main".toList, by decide⟩

def eth : Ticker := ⟨"ETH".toList, by decide⟩

/-- A fill of one instrument at a moment, stating the position before it. -/
def fillAt (moment : Int) (id : UInt64) (side : Side) (size price start : ℚ) : Envelope :=
  ⟨hyperliquid, mainAccount, id, some moment, moment,
    .fill ⟨none, eth, side, price, size, some start, none, some 0, id, id⟩⟩

/-- Bought two, sold five, bought three: a flip and a close, read newest first. -/
def flipped : List Envelope :=
  [fillAt 3 3 .bid 3 90 (-3), fillAt 2 2 .ask 5 110 2, fillAt 1 1 .bid 2 100 0]

/-- The identity after the flip. -/
theorem balanced_of_consistent_flipped :
    Balanced (fillsOf (none, eth) ((ordered flipped).take 2))
      ((foldThrough ⟨0, 0⟩ {} ((ordered flipped).take 2) ((ordered flipped).drop 2)).book
        (none, eth)) :=
  balanced_of_consistent ⟨0, 0⟩ flipped _ (by decide +kernel) _ _
    (List.take_append_drop 2 _).symm

end Ledger
end Datawatch
