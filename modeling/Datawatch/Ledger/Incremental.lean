import Datawatch.Library.Transition
import Datawatch.Ledger.Accounting
import Datawatch.Ledger.History

/-!
# An extended history is a fresh read

However a record's growth is split into reads, a history extended by each holds the rows of one
fresh read of the whole, in the same order.
-/

namespace Datawatch
namespace Ledger

open Library Library.StableSort Library.Transition Segments Wire Record Replay

variable (toJson : Event → Text) (normalise : Payload → Except Text (List Envelope))
  (venue account : Text)

/-- Every payload of one account's kinds in a record. -/
def payloadsOf (archive : ArchiveTree) (kinds : List Kind) : List Payload :=
  payloadsHeld archive (some (scopesOf venue account kinds)) i64Min i64Max

/-- Received no earlier, and numbered later. -/
def Follows.payload (old new : Payload) : Prop :=
  old.recvMicros < new.recvMicros ∨ (old.recvMicros = new.recvMicros ∧ old.seq < new.seq)

/-- A record that gained payloads of the kinds, each received no earlier than all that were
there and numbered after them. -/
def Grows (kinds : List Kind) (earlier later : ArchiveTree) : Prop :=
  ∃ added, (payloadsOf venue account later kinds).Perm
      (payloadsOf venue account earlier kinds ++ added) ∧
    ∀ old ∈ payloadsOf venue account earlier kinds, ∀ new ∈ added, Follows.payload old new

/-- Every segment holds what its name says, and no two payloads share a receipt and a
sequence. -/
structure Recorded (archive : ArchiveTree) (kinds : List Kind) : Prop where
  placed : WellPlaced archive
  numbered : Numbered (payloadsOf venue account archive kinds)

/-- The payloads of a record's kinds, in the order a read takes them. -/
def sortedOf (archive : ArchiveTree) (kinds : List Kind) : List Payload :=
  sortedHeld archive (some (scopesOf venue account kinds)) i64Min i64Max

/-- What reading a whole record takes. -/
def wholeTaken (archive : ArchiveTree) (kinds : List Kind) (ours : Aliases) : Taking :=
  takeAll toJson normalise kinds ours [] {} (sortedOf venue account archive kinds)

section Grow

variable {venue account} {kinds : List Kind} {earlier later : ArchiveTree}

/-- A record that grew is read as it was, and then what it gained. -/
theorem sortedOf_of_grows (numbered : Numbered (payloadsOf venue account later kinds))
    (grows : Grows venue account kinds earlier later) :
    ∃ added, sortedOf venue account later kinds =
        sortedOf venue account earlier kinds ++ added ∧
      ∀ old ∈ sortedOf venue account earlier kinds, ∀ new ∈ added, Follows.payload old new := by
  obtain ⟨gained, perm, after⟩ := grows
  have earlierSorted := List.perm_insertionSort (fun first second => before first second = true)
    (payloadsOf venue account earlier kinds)
  have laterSorted := List.perm_insertionSort (fun first second => before first second = true)
    (payloadsOf venue account later kinds)
  have gainedSorted := List.perm_insertionSort (fun first second => before first second = true)
    gained
  have afterSorted : ∀ old ∈ sortedOf venue account earlier kinds,
      ∀ new ∈ gained.insertionSort fun first second => before first second = true,
        Follows.payload old new :=
    fun old isOld new isNew =>
      after old (earlierSorted.mem_iff.mp isOld) new (gainedSorted.mem_iff.mp isNew)
  refine ⟨_, ?_, afterSorted⟩
  apply eq_of_perm_of_pairwise
  · intro first isFirst second isSecond
    exact numbered first (laterSorted.mem_iff.mp isFirst) second (laterSorted.mem_iff.mp isSecond)
  · exact laterSorted.trans (perm.trans (earlierSorted.append gainedSorted).symm)
  · exact List.pairwise_insertionSort _ _
  · apply List.pairwise_append.mpr
    refine ⟨List.pairwise_insertionSort _ _, List.pairwise_insertionSort _ _, ?_⟩
    intro old isOld new isNew
    apply decide_eq_true
    rcases afterSorted old isOld new isNew with received | ⟨together, numberedLater⟩
    · exact .inl received
    · exact .inr ⟨together, UInt64.le_of_lt numberedLater⟩

end Grow

/-- A history that is what reading a record comes to. -/
structure Reads (archive : ArchiveTree) (history : History) : Prop where
  rows : history.rows =
    (wholeTaken toJson normalise venue account archive history.kinds history.ours).fresh.insertionSort
      fun first second => happensBefore first second = true
  seen : ∀ id, id ∈ history.seen ↔ id ∈
    (wholeTaken toJson normalise venue account archive history.kinds history.ours).freshIds
  through : history.throughMicros =
    (wholeTaken toJson normalise venue account archive history.kinds history.ours).through

/-- A history that has read nothing. -/
def History.Empty (history : History) : Prop :=
  history.rows = [] ∧ history.seen = [] ∧ history.throughMicros = none

instance : Std.Total fun first second : Envelope => happensBefore first second = true :=
  ⟨fun first second => by
    simp only [happensBefore, decide_eq_true_eq]
    omega⟩

instance : IsTrans Envelope fun first second => happensBefore first second = true :=
  ⟨fun first second third firstBefore secondBefore => by
    simp only [happensBefore, decide_eq_true_eq] at *
    omega⟩

section Extend

variable {toJson normalise venue account} {archive : ArchiveTree} {fails : Path → Bool}
  {kinds : List Kind} {ours : Aliases} {history : History}

@[simp] theorem History.reset_kinds : (history.reset kinds ours).kinds = kinds := by
  unfold History.reset
  split
  · rfl
  · rename_i same
    simp only [ne_eq, not_or, not_not] at same
    exact same.1

@[simp] theorem History.reset_ours : (history.reset kinds ours).ours = ours := by
  unfold History.reset
  split
  · rfl
  · rename_i same
    simp only [ne_eq, not_or, not_not] at same
    exact same.2

/-- A history asked the same is left as it is, and only then. -/
theorem History.reset_eq_iff :
    history.reset kinds ours = history ↔ history.kinds = kinds ∧ history.ours = ours := by
  constructor
  · intro unchanged
    constructor
    · rw [← unchanged, History.reset_kinds]
    · rw [← unchanged, History.reset_ours]
  · rintro ⟨sameKinds, sameOurs⟩
    simp [History.reset, sameKinds, sameOurs]

/-- A history asked something else starts from nothing. -/
theorem History.empty_reset (changed : ¬ (history.kinds = kinds ∧ history.ours = ours)) :
    (history.reset kinds ours).Empty := by
  unfold History.reset
  rw [if_pos (by tauto)]
  exact ⟨rfl, rfl, rfl⟩

/-- What an extension that read the record came to. -/
theorem extend_of_read
    (read : (streamRange archive fails (some (scopesOf venue account kinds))
      ((history.reset kinds ours).throughMicros.getD i64Min) i64Max).2 = none) :
    history.extend toJson normalise venue account archive fails kinds ours =
      let taken := takeAll toJson normalise kinds ours (history.reset kinds ours).seen
        { through := (history.reset kinds ours).throughMicros }
        (streamRange archive fails (some (scopesOf venue account kinds))
          ((history.reset kinds ours).throughMicros.getD i64Min) i64Max).1
      ({ history.reset kinds ours with
          seen := (history.reset kinds ours).seen ++ taken.freshIds
          throughMicros := taken.through
          rows :=
            if 0 < taken.fresh.length then
              ((history.reset kinds ours).rows ++ taken.fresh).insertionSort fun first second =>
                happensBefore first second = true
            else (history.reset kinds ours).rows },
        .ok taken.fresh.length) := by
  unfold History.extend
  simp only
  split
  · rename_i failed
    rw [failed] at read
    cases read
  · rename_i found
    rw [found]

/-- An extension fails exactly where its read does, and leaves what it was reset to. -/
theorem extend_of_failed
    (failed : (streamRange archive fails (some (scopesOf venue account kinds))
      ((history.reset kinds ours).throughMicros.getD i64Min) i64Max).2 ≠ none) :
    (history.extend toJson normalise venue account archive fails kinds ours).1 =
        history.reset kinds ours ∧
      ∀ added, (history.extend toJson normalise venue account archive fails kinds ours).2 ≠
        .ok added := by
  unfold History.extend
  simp only
  split
  · exact ⟨rfl, fun _ isOk => by cases isOk⟩
  · rename_i found
    rw [found] at failed
    exact absurd rfl failed

/-- An extension holds the kinds it was asked. -/
theorem History.extend_kinds :
    (history.extend toJson normalise venue account archive fails kinds ours).1.kinds = kinds := by
  unfold History.extend
  simp only
  split <;> exact History.reset_kinds

/-- An extension holds the aliases it was asked. -/
theorem History.extend_ours :
    (history.extend toJson normalise venue account archive fails kinds ours).1.ours = ours := by
  unfold History.extend
  simp only
  split <;> exact History.reset_ours

/-- How far a history was read is the receipt of a payload it read. -/
theorem exists_newest {earlier : ArchiveTree}
    (reads : Reads toJson normalise venue account earlier history) {through : Int}
    (isThrough : history.throughMicros = some through) :
    ∃ newest ∈ sortedOf venue account earlier history.kinds,
      newest.recvMicros = through ∧ i64Min ≤ through := by
  have reached : (wholeTaken toJson normalise venue account earlier history.kinds
      history.ours).through = some through := by rw [← reads.through, isThrough]
  obtain nothing | ⟨newest, isNewest, received⟩ := attained_takeAll reached
  · cases nothing
  · refine ⟨newest, isNewest, received, ?_⟩
    rw [← received]
    exact (recv_mem_of_mem_payloadsHeld ((List.mem_insertionSort _).mp isNewest)).1

/-- Reading again from the newest receipt meets payloads read before, and then what the record
gained. -/
theorem exists_boundary {earlier : ArchiveTree}
    (numbered : Numbered (payloadsOf venue account archive history.kinds))
    (grows : Grows venue account history.kinds earlier archive)
    (reads : Reads toJson normalise venue account earlier history) :
    ∃ boundary added,
      sortedHeld archive (some (scopesOf venue account history.kinds))
          (history.throughMicros.getD i64Min) i64Max = boundary ++ added ∧
        sortedOf venue account archive history.kinds =
          sortedOf venue account earlier history.kinds ++ added ∧
        boundary ⊆ sortedOf venue account earlier history.kinds := by
  obtain ⟨added, isLater, after⟩ := sortedOf_of_grows numbered grows
  cases isThrough : history.throughMicros with
  | none =>
      refine ⟨sortedOf venue account earlier history.kinds, added, ?_, isLater,
        List.Subset.refl _⟩
      rw [← isLater]
      rfl
  | some through =>
      obtain ⟨newest, isNewest, received, inRange⟩ := exists_newest reads isThrough
      have allAdded : (added.filter fun payload => decide (through ≤ payload.recvMicros)) =
          added := by
        apply List.filter_eq_self.mpr
        intro new isNew
        apply decide_eq_true
        rcases after newest isNewest new isNew with later | ⟨together, _⟩
        · omega
        · omega
      refine ⟨(sortedOf venue account earlier history.kinds).filter fun payload =>
        decide (through ≤ payload.recvMicros), added, ?_, isLater, List.filter_subset_self _⟩
      rw [Option.getD_some, sortedHeld_of_le inRange _ _ numbered]
      change (sortedOf venue account archive history.kinds).filter _ = _
      rw [isLater, List.filter_append, allAdded]

/-- What reading a record that grew comes to, from what reading it before came to. -/
theorem ahead_of_reads {earlier : ArchiveTree}
    (reads : Reads toJson normalise venue account earlier history) {boundary added : List Payload}
    (within : boundary ⊆ sortedOf venue account earlier history.kinds) :
    Ahead (wholeTaken toJson normalise venue account earlier history.kinds history.ours).fresh
      history.seen
      (takeAll toJson normalise history.kinds history.ours []
        (wholeTaken toJson normalise venue account earlier history.kinds history.ours) added)
      (takeAll toJson normalise history.kinds history.ours history.seen
        { through := history.throughMicros } (boundary ++ added)) := by
  have unmoved : takeAll toJson normalise history.kinds history.ours history.seen
      { through := history.throughMicros } boundary = { through := history.throughMicros } := by
    apply takeAll_of_held
    intro payload member
    have held := (@freshIds_takeAll toJson normalise history.kinds history.ours {}
      (sortedOf venue account earlier history.kinds)).2 payload (within member)
    have received := (@through_takeAll toJson normalise history.kinds history.ours [] {}
      (sortedOf venue account earlier history.kinds)).2 payload (within member)
    refine ⟨held.of_subset fun id isTaken => (reads.seen id).mpr isTaken, ?_⟩
    rwa [← wholeTaken, ← reads.through] at received
  rw [takeAll_append, unmoved]
  apply Ahead.takeAll
  exact ⟨reads.through.symm, by simp, by simpa using fun id => (reads.seen id).symm⟩

/-- A history that has read nothing is extended to what reading the whole record comes to. -/
theorem reads_of_empty
    (recorded : Recorded venue account archive kinds)
    (empty : (history.reset kinds ours).Empty)
    (read : (streamRange archive fails (some (scopesOf venue account kinds))
      ((history.reset kinds ours).throughMicros.getD i64Min) i64Max).2 = none) :
    Reads toJson normalise venue account archive
      (history.extend toJson normalise venue account archive fails kinds ours).1 := by
  obtain ⟨noRows, noneSeen, notRead⟩ := empty
  rw [extend_of_read read]
  simp only [notRead, Option.getD_none] at read ⊢
  rw [streamRange_eq_sortedHeld read recorded.placed recorded.numbered, noRows, noneSeen]
  refine ⟨?_, ?_, ?_⟩
  · simp only [List.nil_append, History.reset_kinds, History.reset_ours]
    rw [← sortedOf, ← wholeTaken]
    split
    · rfl
    · rename_i nothing
      rw [List.eq_nil_of_length_eq_zero (Nat.eq_zero_of_not_pos nothing)]
      rfl
  · intro id
    simp only [List.nil_append, History.reset_kinds, History.reset_ours]
    rfl
  · simp only [History.reset_kinds, History.reset_ours]
    rfl

/-- A history that is what reading a record came to is extended to what reading the record it
grew into comes to. -/
theorem reads_of_reads {earlier : ArchiveTree}
    (recorded : Recorded venue account archive history.kinds)
    (grows : Grows venue account history.kinds earlier archive)
    (reads : Reads toJson normalise venue account earlier history)
    (read : (streamRange archive fails (some (scopesOf venue account history.kinds))
      (history.throughMicros.getD i64Min) i64Max).2 = none) :
    Reads toJson normalise venue account archive
      (history.extend toJson normalise venue account archive fails history.kinds
        history.ours).1 := by
  have same : history.reset history.kinds history.ours = history :=
    History.reset_eq_iff.mpr ⟨rfl, rfl⟩
  obtain ⟨boundary, added, isRead, isLater, within⟩ :=
    exists_boundary recorded.numbered grows reads
  have inRange : i64Min ≤ history.throughMicros.getD i64Min := by
    cases isThrough : history.throughMicros with
    | none => exact le_rfl
    | some through =>
        obtain ⟨_, _, _, atLeast⟩ := exists_newest reads isThrough
        exact atLeast
  have numberedFrom : Numbered (payloadsHeld archive
      (some (scopesOf venue account history.kinds)) (history.throughMicros.getD i64Min)
        i64Max) := by
    intro first isFirst second isSecond
    rw [payloadsHeld_of_le inRange] at isFirst isSecond
    exact recorded.numbered first (List.mem_filter.mp isFirst).1 second
      (List.mem_filter.mp isSecond).1
  have ahead := @ahead_of_reads toJson normalise venue account history earlier reads boundary
    added within
  have whole : wholeTaken toJson normalise venue account archive history.kinds history.ours =
      takeAll toJson normalise history.kinds history.ours []
        (wholeTaken toJson normalise venue account earlier history.kinds history.ours) added := by
    rw [wholeTaken, isLater, takeAll_append]
    rfl
  rw [← whole] at ahead
  have extended := @extend_of_read toJson normalise venue account archive fails history.kinds
    history.ours history (by rwa [same])
  rw [same, streamRange_eq_sortedHeld read recorded.placed numberedFrom, isRead] at extended
  rw [extended]
  refine ⟨?_, ?_, ?_⟩
  · change (if _ then _ else _) = ((wholeTaken toJson normalise venue account archive
      history.kinds history.ours).fresh.insertionSort fun first second =>
        happensBefore first second = true)
    rw [ahead.fresh, reads.rows]
    split
    · exact insertionSort_append _ _ _
    · rename_i nothing
      rw [List.eq_nil_of_length_eq_zero (Nat.eq_zero_of_not_pos nothing), List.append_nil]
  · intro id
    simp only [List.mem_append]
    exact (ahead.ids id).symm
  · exact ahead.through.symm

end Extend

/-- One call: the record as it stands, the reads of it that fail, and what is asked. -/
structure Reading where
  archive : ArchiveTree
  fails : Path → Bool
  kinds : List Kind
  ours : Aliases

/-- A history between calls, with the record it last read. -/
structure Kept where
  history : History := {}
  read : Option ArchiveTree := none

/-- Whether a call asks the kinds and the aliases a history holds. -/
def AsksTheSame (kept : Kept) (reading : Reading) : Prop :=
  kept.history.kinds = reading.kinds ∧ kept.history.ours = reading.ours

instance (kept : Kept) (reading : Reading) : Decidable (AsksTheSame kept reading) := by
  unfold AsksTheSame
  infer_instance

/-- What a call's read of the record came to. -/
def readOf (kept : Kept) (reading : Reading) : List Payload × Option ReplayError :=
  streamRange reading.archive reading.fails (some (scopesOf venue account reading.kinds))
    (((kept.history.reset reading.kinds reading.ours).throughMicros).getD i64Min) i64Max

/-- The history after a call. -/
def extended (kept : Kept) (reading : Reading) : History × Except ReplayError Nat :=
  kept.history.extend toJson normalise venue account reading.archive reading.fails reading.kinds
    reading.ours

/-- One call. -/
def readStep (kept : Kept) (reading : Reading) : Option Kept :=
  some
    { history := (extended toJson normalise venue account kept reading).1
      read :=
        if (readOf venue account kept reading).2 = none then some reading.archive
        else if AsksTheSame kept reading then kept.read
        else none }

/-- A call meets a record that only grew since the last read of the same kinds. -/
def Grown (kept : Kept) (reading : Reading) : Prop :=
  Recorded venue account reading.archive reading.kinds ∧
    ∀ earlier ∈ kept.read, AsksTheSame kept reading →
      Grows venue account reading.kinds earlier reading.archive

/-- A call that read the record left the rows of any fresh read of it, and one that failed left
the history as it was. -/
def Incremental (kept : Kept) (reading : Reading) : Prop :=
  ((readOf venue account kept reading).2 = none →
    ∀ freshFails added,
      (History.extend toJson normalise venue account reading.archive freshFails reading.kinds
        reading.ours {}).2 = .ok added →
      (extended toJson normalise venue account kept reading).1.rows =
        (History.extend toJson normalise venue account reading.archive freshFails reading.kinds
          reading.ours {}).1.rows) ∧
    ((readOf venue account kept reading).2 ≠ none →
      (extended toJson normalise venue account kept reading).1 = kept.history)

/-- What a history between calls keeps: it has read nothing, or is what reading the record it
last read came to. -/
def KeptWell (kept : Kept) : Prop :=
  match kept.read with
  | none => kept.history.Empty
  | some earlier => Reads toJson normalise venue account earlier kept.history

section Runs

variable {toJson normalise venue account} {kept : Kept} {reading : Reading}

/-- A call that read a record that grew left what reading the whole of it comes to. -/
theorem reads_of_grown (well : KeptWell toJson normalise venue account kept)
    (grown : Grown venue account kept reading)
    (read : (readOf venue account kept reading).2 = none) :
    Reads toJson normalise venue account reading.archive
      (extended toJson normalise venue account kept reading).1 := by
  obtain ⟨recorded, grows⟩ := grown
  by_cases same : AsksTheSame kept reading
  · obtain ⟨sameKinds, sameOurs⟩ := same
    unfold KeptWell at well
    cases isRead : kept.read with
    | none =>
        rw [isRead] at well
        apply reads_of_empty recorded ?_ read
        rwa [History.reset_eq_iff.mpr ⟨sameKinds, sameOurs⟩]
    | some earlier =>
        rw [isRead] at well
        have grew := grows earlier isRead ⟨sameKinds, sameOurs⟩
        unfold readOf at read
        unfold extended
        rw [History.reset_eq_iff.mpr ⟨sameKinds, sameOurs⟩] at read
        rw [← sameKinds] at recorded grew read ⊢
        rw [← sameOurs]
        exact reads_of_reads recorded grew well read
  · exact reads_of_empty recorded (History.empty_reset same) read

/-- One call keeps what a history between calls keeps. -/
theorem keptWell_readStep (well : KeptWell toJson normalise venue account kept)
    (grown : Grown venue account kept reading) {next : Kept}
    (stepped : readStep toJson normalise venue account kept reading = some next) :
    KeptWell toJson normalise venue account next := by
  obtain rfl := Option.some.inj stepped
  by_cases read : (readOf venue account kept reading).2 = none
  · simp only [KeptWell, read, if_true]
    exact reads_of_grown well grown read
  · have left := (@extend_of_failed toJson normalise venue account _ _ _ _ _ read).1
    simp only [KeptWell, read, if_false, extended]
    rw [left]
    by_cases same : AsksTheSame kept reading
    · rw [if_pos same, History.reset_eq_iff.mpr same]
      exact well
    · rw [if_neg same]
      exact History.empty_reset same

/-- A call that read the record left the rows of any fresh read of it. -/
theorem rows_eq_of_grown (well : KeptWell toJson normalise venue account kept)
    (grown : Grown venue account kept reading)
    (read : (readOf venue account kept reading).2 = none) {freshFails : Path → Bool}
    {added : Nat}
    (isOk : (History.extend toJson normalise venue account reading.archive freshFails
      reading.kinds reading.ours {}).2 = .ok added) :
    (extended toJson normalise venue account kept reading).1.rows =
      (History.extend toJson normalise venue account reading.archive freshFails reading.kinds
        reading.ours {}).1.rows := by
  have emptied : (History.reset {} reading.kinds reading.ours).Empty := by
    unfold History.reset
    split <;> exact ⟨rfl, rfl, rfl⟩
  have freshRead : (streamRange reading.archive freshFails
      (some (scopesOf venue account reading.kinds))
      ((History.reset {} reading.kinds reading.ours).throughMicros.getD i64Min) i64Max).2 =
        none := by
    by_contra failed
    exact (@extend_of_failed toJson normalise venue account _ _ _ _ _ failed).2 added isOk
  have whole := (reads_of_grown well grown read).rows
  have fresh := (@reads_of_empty toJson normalise venue account _ _ _ _ _ grown.1 emptied
    freshRead).rows
  rw [whole, fresh]
  simp only [extended, History.extend_kinds, History.extend_ours]

/-- A call keeps the history on a failed read exactly where the history was asked the same. -/
theorem incremental_iff (well : KeptWell toJson normalise venue account kept)
    (grown : Grown venue account kept reading) :
    Incremental toJson normalise venue account kept reading ↔
      ((readOf venue account kept reading).2 ≠ none → AsksTheSame kept reading) := by
  constructor
  · intro incremental failed
    apply History.reset_eq_iff.mp
    rw [← (@extend_of_failed toJson normalise venue account _ _ _ _ _ failed).1]
    exact incremental.2 failed
  · intro asksTheSame
    refine ⟨?_, ?_⟩
    · intro read freshFails added isOk
      exact rows_eq_of_grown well grown read isOk
    · intro failed
      unfold extended
      rw [(@extend_of_failed toJson normalise venue account _ _ _ _ _ failed).1]
      exact History.reset_eq_iff.mpr (asksTheSame failed)

end Runs

/-- Where a call's read fails, it asked the kinds and the aliases the history holds. -/
def AsksWhereFailed (kept : Kept) (reading : Reading) : Prop :=
  (readOf venue account kept reading).2 ≠ none → AsksTheSame kept reading

/-- **An extended history is a fresh read.**  However a record's growth is split into calls,
each call that reads leaves the rows of one fresh read, and every call that fails leaves the
history as it was, exactly where no call that fails asks other kinds or other aliases. -/
theorem incremental_iff_asksWhereFailed (readings : List Reading)
    (grown : Guarded (readStep toJson normalise venue account) (Grown venue account) readings {}) :
    Guarded (readStep toJson normalise venue account)
        (Incremental toJson normalise venue account) readings {} ↔
      Guarded (readStep toJson normalise venue account) (AsksWhereFailed venue account)
        readings {} := by
  refine @guarded_iff_of_invariant _ _ _ _ _ _ (KeptWell toJson normalise venue account) ?_ ?_ _ _
    ?_ grown
  · intro kept reading next well grows stepped
    exact keptWell_readStep well grows stepped
  · intro kept reading well grows
    exact incremental_iff well grows
  · exact ⟨rfl, rfl, rfl⟩

/-- The one payload of an account's fills. -/
def fillsPage : Payload :=
  ⟨1, 1, .account ⟨hyperliquid.text, mainAccount.text, "fp".toList⟩, "userFills".toList,
    "fills".toList, none, .fetched, []⟩

/-- A record of one page of fills. -/
def onePage : ArchiveTree :=
  (∅ : ArchiveTree).insert ⟨fillsPage.partition, (Cursor.time 1 1 0 1).fileName⟩
    (payloadFile [fillsPage])

/-- Every page is one fill. -/
def oneFill (payload : Payload) : Except Text (List Envelope) :=
  .ok [fillAt payload.recvMicros payload.seq .bid 1 100 0]

/-- A read of the fills, and a failing read of the ledger updates with them. -/
def askedMore : List Reading :=
  [⟨onePage, fun _ => false, [.fills], []⟩,
    ⟨onePage, fun _ => true, [.fills, .ledgerUpdates], []⟩]

/-- A record that stays as it is grows by nothing. -/
theorem Grows.refl (kinds : List Kind) (archive : ArchiveTree) :
    Grows venue account kinds archive archive :=
  ⟨[], by simp, by simp⟩

theorem recorded_onePage (kinds : List Kind)
    (numbered : Numbered (payloadsOf hyperliquid.text mainAccount.text onePage kinds)) :
    Recorded hyperliquid.text mainAccount.text onePage kinds :=
  ⟨by decide +kernel, numbered⟩

/-- The record only grew. -/
theorem grown_askedMore :
    Guarded (readStep (fun _ => []) oneFill hyperliquid.text mainAccount.text)
      (Grown hyperliquid.text mainAccount.text) askedMore {} := by
  refine ⟨⟨recorded_onePage _ (by decide +kernel), ?_⟩, fun next stepped => ?_⟩
  · intro earlier isRead
    cases isRead
  · obtain rfl := Option.some.inj stepped
    refine ⟨⟨recorded_onePage _ (by decide +kernel), ?_⟩, fun _ _ => trivial⟩
    intro earlier _ same
    exact absurd same.1 (by decide +kernel)

/-- **A failed read empties the history.**  The call that asks more resets the history before
it reads, and its read fails. -/
theorem failed_read_empties_history :
    Guarded (readStep (fun _ => []) oneFill hyperliquid.text mainAccount.text)
        (Grown hyperliquid.text mainAccount.text) askedMore {} ∧
      ¬ Guarded (readStep (fun _ => []) oneFill hyperliquid.text mainAccount.text)
        (Incremental (fun _ => []) oneFill hyperliquid.text mainAccount.text) askedMore {} := by
  refine ⟨grown_askedMore, fun incremental => ?_⟩
  have unchanged := (incremental.2 _ rfl).1.2 (by decide +kernel)
  have sameKinds := congrArg History.kinds unchanged
  revert sameKinds
  decide +kernel

/-- A read of the fills, and the same again where the read fails. -/
def askedAgain : List Reading :=
  [⟨onePage, fun _ => false, [.fills], []⟩, ⟨onePage, fun _ => true, [.fills], []⟩]

/-- Asked the same, the failed call leaves the history as it was. -/
theorem incremental_iff_asksWhereFailed_askedAgain :
    Guarded (readStep (fun _ => []) oneFill hyperliquid.text mainAccount.text)
      (Incremental (fun _ => []) oneFill hyperliquid.text mainAccount.text) askedAgain {} := by
  apply (incremental_iff_asksWhereFailed (fun _ => []) oneFill hyperliquid.text mainAccount.text
    askedAgain ?_).mpr
  · refine ⟨fun failed => absurd (by decide +kernel) failed, fun next stepped => ?_⟩
    obtain rfl := Option.some.inj stepped
    exact ⟨fun _ => by decide +kernel, fun _ _ => trivial⟩
  · refine ⟨⟨recorded_onePage _ (by decide +kernel), ?_⟩, fun next stepped => ?_⟩
    · intro earlier isRead
      cases isRead
    · obtain rfl := Option.some.inj stepped
      refine ⟨⟨recorded_onePage _ (by decide +kernel), ?_⟩, fun _ _ => trivial⟩
      intro earlier isRead _
      obtain rfl : onePage = earlier := by
        have isPage : (some onePage : Option ArchiveTree) = some earlier := isRead
        exact Option.some.inj isPage
      exact Grows.refl _ _ _ _

end Ledger
end Datawatch
