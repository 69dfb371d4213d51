import Mathlib.Algebra.Order.BigOperators.Group.List
import Mathlib.Algebra.Order.Group.Nat
import Mathlib.Data.List.Infix
import Mathlib.Data.Char
import Mathlib.Data.List.Lex
import Datawatch.Library.Merge
import Datawatch.Record.Payload

/-!
# Reading the archive back out

Two prunings: a segment's name excludes it without being opened, and a row group's footer
excludes it within one that is.  What is left is merged into receipt order.
-/

namespace Datawatch
namespace Replay

open Library Library.Merge Segments Record Calendar

/-- Why a replay could not be read. -/
inductive ReplayError
  | segment (path : Path)
  /-- A segment is not the shape the archive writes. -/
  | shape (path : Path) (column : Text)
deriving DecidableEq

/-- The value of the first component under a key, as `kind=` or `date=`. -/
def valueUnder (key : Text) (parts : List Text) : Option Text :=
  parts.findSome? fun part => if key <+: part then some (part.drop key.length) else none

def kindOf (partition : Text) : Option Text := valueUnder "kind=".toList (components partition)

/-- Which column carries the address, read from the partition rather than guessed at. -/
def addressLevel (partition : Text) : Level :=
  if (components partition).any fun part => "market=".toList <+: part then .market else .venue

/-- The venue and the alias where a partition sits under an account. -/
def accountOf (partition : Text) : Option (Text × Text) :=
  let parts := components partition
  (parts.zip parts.tail).findSome? fun pair =>
    (valueUnder "venue=".toList [pair.1]).bind fun venue =>
      (valueUnder "account=".toList [pair.2]).map fun name => (venue, name)

/-- Whether a directory's own day can overlap the range: only a `date=` component answers. -/
def covers (fromMicros toMicros : Int) (directory : Text) : Bool :=
  match (valueUnder "date=".toList [directory]).bind midnightOf with
  | none => true
  | some midnight =>
      decide (midnight < toMicros ∧ fromMicros < min (midnight + microsPerDay) i64Max)

/-- A scope names a subtree at component boundaries. -/
def inScope (scopes : Option (List Text)) (partition : Text) : Bool :=
  match scopes with
  | none => true
  | some scopes => scopes.any fun scope => components scope ≠ [] ∧ Under scope partition

/-- Whether a partition is the sibling that names payloads rather than holding them. -/
def isFailures (partition : Text) : Bool :=
  (components partition).getLast? = some "failures".toList

/-- The partitions that could hold a receipt range, in the order of their paths. -/
def partitionsInRange (archive : ArchiveTree) (fromMicros toMicros : Int) : List Text :=
  let partitions := (archive.keys.filter fun path => (Cursor.parse path.name).isSome).map
    Path.partition
  (partitions.dedup.filter fun partition =>
    (components partition).all (covers fromMicros toMicros)).insertionSort fun first second =>
      components first ≤ components second

/-- The day of a partition, from its last `date=` component that names one. -/
def dayOf (partition : Text) : Option Int :=
  (components partition).reverse.findSome? fun part =>
    (valueUnder "date=".toList [part]).bind midnightOf

/-- The receipt days the archive holds in scope and in a range, oldest first. -/
def receiptDays (archive : ArchiveTree) (scopes : Option (List Text))
    (fromMicros toMicros : Int) : List Int :=
  (((partitionsInRange archive fromMicros toMicros).filter fun partition =>
    !isFailures partition && inScope scopes partition).filterMap dayOf).dedup.insertionSort
      fun first second => first ≤ second

/-- A segment listed for a replay and not yet opened. -/
structure Pending where
  first : Int
  path : Path
deriving DecidableEq

/-- A row of a segment as the payload it is, `none` where a column is missing. -/
def payloadOf (partition : Text) (address : Option PayloadAddress) : ArchiveRow → Option Payload
  | .payload seq recvMicros value channel symbol origin payload =>
      some
        { seq
          recvMicros
          address := address.getD
            (match addressLevel partition with
              | .market => .market value
              | .venue => .venue value)
          channel
          kind := (kindOf partition).getD channel
          symbol
          -- Anything but the two spellings below is treated as a venue's own bytes.
          origin :=
            if origin = "fetched".toList then .fetched
            else if origin = "generated".toList then .generated
            else .streamed
          payload }
  | .failure .. => none

/-- The address of an account's segment, with the fingerprint its footer carries. -/
def accountAddress (partition : Text) (file : ArchiveFile) : Option PayloadAddress :=
  (accountOf partition).map fun found =>
    .account ⟨found.1, found.2,
      ((file.labels.find? fun label => label.1 = accountFpLabel).map Prod.snd).getD []⟩

/-- The column a segment of another shape is missing first. -/
def missingColumn (level : Level) : ArchiveSchema → Option Text
  | .payload found =>
      if found = level then none
      else some (match level with | .venue => "venue".toList | .market => "market".toList)
  | .failure =>
      some (match level with | .venue => "symbol".toList | .market => "market".toList)

/-- Receipt order, then sequence. -/
def before (first second : Payload) : Bool :=
  decide (first.recvMicros < second.recvMicros ∨
    (first.recvMicros = second.recvMicros ∧ first.seq ≤ second.seq))

/-- The payloads of a file's rows in a range, in receipt order. -/
def payloadsIn (partition : Text) (fromMicros toMicros : Int) (file : ArchiveFile) :
    List Payload :=
  (((readRange (fun row => some row.recvMicros) fromMicros toMicros file.file).filter fun row =>
    fromMicros ≤ row.recvMicros ∧ row.recvMicros < toMicros).filterMap
      (payloadOf partition (accountAddress partition file))).insertionSort fun first second =>
        before first second = true

/-- Open one segment.  A read may fail, and a file of another shape is refused unless no row
group of it is read. -/
def openSegment (archive : ArchiveTree) (fails : Path → Bool) (fromMicros toMicros : Int)
    (segment : Pending) : Except ReplayError (List Payload) :=
  match archive.lookup segment.path with
  | none => .error (.segment segment.path)
  | some file =>
      if fails segment.path then .error (.segment segment.path)
      else if readRange (fun row => some row.recvMicros) fromMicros toMicros file.file = [] then
        .ok []
      else
        match missingColumn (addressLevel segment.path.partition) file.file.schema with
        | some column => .error (.shape segment.path column)
        | none => .ok (payloadsIn segment.path.partition fromMicros toMicros file)

/-- When a listed segment could first hold a row of the range, `none` where its name says it
holds none. -/
def firstIn (fromMicros toMicros : Int) : Cursor → Option Int
  | .time firstMicros lastMicros _ _ =>
      if lastMicros < fromMicros ∨ toMicros ≤ firstMicros then none else some firstMicros
  | .block .. | .seq .. => some i64Min

/-- The segments of a range, in the order they are opened.  Segments sharing a first receipt
are popped from the end, so they open in the reverse of their listing. -/
def pendingIn (archive : ArchiveTree) (scopes : Option (List Text))
    (fromMicros toMicros : Int) : List Pending :=
  let partitions := (partitionsInRange archive fromMicros toMicros).filter fun partition =>
    !isFailures partition && inScope scopes partition
  let listed := partitions.flatMap fun partition =>
    (listSegments (namesIn archive partition)).filterMap fun entry =>
      (firstIn fromMicros toMicros entry.1).map fun first =>
        (⟨first, ⟨partition, entry.2⟩⟩ : Pending)
  (listed.insertionSort fun first second => second.first ≤ first.first).reverse

/-- More than the rows a range can yield. -/
def rowBound (archive : ArchiveTree) (fromMicros toMicros : Int) (pending : List Pending) : Nat :=
  (pending.flatMap fun segment =>
    ((archive.lookup segment.path).map
      (payloadsIn segment.path.partition fromMicros toMicros)).getD []).length + 1

/-- The payloads of a half-open receipt range, one at a time, with the error that ended
them. -/
def streamRange (archive : ArchiveTree) (fails : Path → Bool) (scopes : Option (List Text))
    (fromMicros toMicros : Int) : List Payload × Option ReplayError :=
  let pending := pendingIn archive scopes fromMicros toMicros
  drain before (openSegment archive fails fromMicros toMicros)
    (fun least next => least.recvMicros < next.first)
    (rowBound archive fromMicros toMicros pending) pending []

/-- A path is read for a range: its partition is in scope and may hold the range's days, and
its name may hold its receipts. -/
def Selected (scopes : Option (List Text)) (fromMicros toMicros : Int) (path : Path) : Prop :=
  (components path.partition).all (covers fromMicros toMicros) = true ∧
    isFailures path.partition = false ∧ inScope scopes path.partition = true ∧
    ∃ cursor, Cursor.parse path.name = some cursor ∧
      (firstIn fromMicros toMicros cursor).isSome

theorem mem_partitionsInRange {archive : ArchiveTree} {fromMicros toMicros : Int}
    {partition : Text} :
    partition ∈ partitionsInRange archive fromMicros toMicros ↔
      (∃ path ∈ archive, path.partition = partition ∧ (Cursor.parse path.name).isSome) ∧
        (components partition).all (covers fromMicros toMicros) = true := by
  simp only [partitionsInRange, List.mem_insertionSort, List.mem_filter, List.mem_dedup,
    List.mem_map]
  constructor
  · rintro ⟨⟨path, ⟨member, parsed⟩, isPartition⟩, covered⟩
    exact ⟨⟨path, member, isPartition, parsed⟩, covered⟩
  · rintro ⟨⟨path, member, isPartition, parsed⟩, covered⟩
    exact ⟨⟨path, ⟨member, parsed⟩, isPartition⟩, covered⟩

/-- The segments opened for a range are the files selected for it. -/
theorem mem_pendingIn {archive : ArchiveTree} {scopes : Option (List Text)}
    {fromMicros toMicros : Int} {path : Path} :
    (∃ segment ∈ pendingIn archive scopes fromMicros toMicros, segment.path = path) ↔
      path ∈ archive ∧ Selected scopes fromMicros toMicros path := by
  simp only [pendingIn, List.mem_reverse, List.mem_insertionSort, List.mem_flatMap,
    List.mem_filter, List.mem_filterMap, Option.map_eq_some_iff, Bool.and_eq_true,
    Bool.not_eq_true', mem_partitionsInRange]
  constructor
  · rintro ⟨_, ⟨partition, ⟨⟨_, covered⟩, notFailures, inScopes⟩, entry, isEntry, first, inRange,
      rfl⟩, rfl⟩
    obtain ⟨isName, parsed⟩ := mem_listSegments.mp isEntry
    exact ⟨mem_namesIn.mp isName, covered, notFailures, inScopes, entry.1, parsed,
      by simp [inRange]⟩
  · rintro ⟨member, covered, notFailures, inScopes, cursor, parsed, inRange⟩
    obtain ⟨first, isFirst⟩ := Option.isSome_iff_exists.mp inRange
    refine ⟨⟨first, path⟩, ⟨path.partition, ⟨⟨⟨path, member, rfl, by simp [parsed]⟩, covered⟩,
      notFailures, inScopes⟩, (cursor, path.name), ?_, first, isFirst, rfl⟩, rfl⟩
    exact mem_listSegments.mpr ⟨mem_namesIn.mpr member, parsed⟩

/-- What opening a segment yields, where it opens. -/
theorem itemsOf_openSegment {archive : ArchiveTree} {fails : Path → Bool}
    {fromMicros toMicros : Int} {segment : Pending} {items : List Payload}
    (opened : openSegment archive fails fromMicros toMicros segment = .ok items) :
    ∃ file, archive.lookup segment.path = some file ∧
      items = payloadsIn segment.path.partition fromMicros toMicros file := by
  unfold openSegment at opened
  split at opened
  · cases opened
  · rename_i file found
    refine ⟨file, found, ?_⟩
    split at opened
    · cases opened
    · split at opened
      · rename_i nothing
        obtain rfl : [] = items := Except.ok.inj opened
        simp [payloadsIn, nothing]
      · split at opened
        · cases opened
        · exact (Except.ok.inj opened).symm

/-- A segment yields no more than its rows in the range. -/
theorem length_itemsOf_le (archive : ArchiveTree) (fails : Path → Bool)
    (fromMicros toMicros : Int) (segment : Pending) :
    (itemsOf (openSegment archive fails fromMicros toMicros) segment).length ≤
      (((archive.lookup segment.path).map
        (payloadsIn segment.path.partition fromMicros toMicros)).getD []).length := by
  unfold itemsOf
  cases opened : openSegment archive fails fromMicros toMicros segment with
  | error reason => simp [Except.toOption]
  | ok items =>
      obtain ⟨file, found, rfl⟩ := itemsOf_openSegment opened
      simp [Except.toOption, found]

/-- The row bound is enough for the whole merge. -/
theorem lt_rowBound (archive : ArchiveTree) (fails : Path → Bool) (fromMicros toMicros : Int)
    (pending : List Pending) :
    (([] : List (List Payload)).flatten).length +
        (pending.flatMap (itemsOf (openSegment archive fails fromMicros toMicros))).length <
      rowBound archive fromMicros toMicros pending := by
  have bounded : (pending.flatMap
        (itemsOf (openSegment archive fails fromMicros toMicros))).length ≤
      (pending.flatMap fun segment => ((archive.lookup segment.path).map
        (payloadsIn segment.path.partition fromMicros toMicros)).getD []).length := by
    simp only [List.length_flatMap]
    exact List.sum_le_sum fun segment _ =>
      length_itemsOf_le archive fails fromMicros toMicros segment
  simp only [List.flatten_nil, List.length_nil, rowBound]
  omega

/-- **A replay that met no error yields exactly the payloads of the files selected.** -/
theorem mem_streamRange {archive : ArchiveTree} {fails : Path → Bool}
    {scopes : Option (List Text)} {fromMicros toMicros : Int}
    (ended : (streamRange archive fails scopes fromMicros toMicros).2 = none)
    {payload : Payload} :
    payload ∈ (streamRange archive fails scopes fromMicros toMicros).1 ↔
      ∃ path file, archive.lookup path = some file ∧
        Selected scopes fromMicros toMicros path ∧
        payload ∈ payloadsIn path.partition fromMicros toMicros file := by
  have drained : streamRange archive fails scopes fromMicros toMicros =
      ((streamRange archive fails scopes fromMicros toMicros).1, none) := Prod.ext rfl ended
  have enough := lt_rowBound archive fails fromMicros toMicros
    (pendingIn archive scopes fromMicros toMicros)
  have opens := opens_of_drain enough drained
  rw [(perm_of_drain enough drained).mem_iff, List.flatten_nil, List.nil_append,
    List.mem_flatMap]
  constructor
  · rintro ⟨segment, isPending, member⟩
    obtain ⟨items, opened⟩ := opens segment isPending
    obtain ⟨file, found, rfl⟩ := itemsOf_openSegment opened
    obtain ⟨_, selected⟩ := mem_pendingIn.mp ⟨segment, isPending, rfl⟩
    exact ⟨segment.path, file, found, selected, by simpa [itemsOf, opened, Except.toOption] using member⟩
  · rintro ⟨path, file, found, selected, member⟩
    have inArchive : path ∈ archive := AList.lookup_isSome.mp (by simp [found])
    obtain ⟨segment, isPending, rfl⟩ := mem_pendingIn.mpr ⟨inArchive, selected⟩
    obtain ⟨items, opened⟩ := opens segment isPending
    obtain ⟨same, isFile, rfl⟩ := itemsOf_openSegment opened
    obtain rfl : file = same := Option.some.inj (found.symm.trans isFile)
    exact ⟨segment, isPending, by simpa [itemsOf, opened, Except.toOption] using member⟩

/-- The payloads read from a file for a range are its rows received in it. -/
theorem mem_payloadsIn {partition : Text} {fromMicros toMicros : Int} {file : ArchiveFile}
    {payload : Payload} :
    payload ∈ payloadsIn partition fromMicros toMicros file ↔
      ∃ row ∈ file.file.rows, (fromMicros ≤ row.recvMicros ∧ row.recvMicros < toMicros) ∧
        payloadOf partition (accountAddress partition file) row = some payload := by
  have isRead {row : ArchiveRow}
      (inRange : fromMicros ≤ row.recvMicros ∧ row.recvMicros < toMicros) :
      row ∈ readRange (fun row => some row.recvMicros) fromMicros toMicros file.file ↔
        row ∈ file.file.rows := by
    have counted : (readRange (fun row : ArchiveRow => some row.recvMicros) fromMicros toMicros
        file.file).count row = file.file.rows.count row := count_readRange
      (fun time isTime => by obtain rfl := Option.some.inj isTime; exact inRange) file.file
    rw [← List.count_pos_iff, counted, List.count_pos_iff]
  simp only [payloadsIn, List.mem_insertionSort, List.mem_filterMap, List.mem_filter,
    decide_eq_true_eq]
  constructor
  · rintro ⟨row, ⟨member, inRange⟩, isPayload⟩
    exact ⟨row, (isRead inRange).mp member, inRange, isPayload⟩
  · rintro ⟨row, member, inRange, isPayload⟩
    exact ⟨row, ⟨(isRead inRange).mpr member, inRange⟩, isPayload⟩

/-- A payload carries its row's receipt. -/
theorem recvMicros_of_payloadOf {partition : Text} {address : Option PayloadAddress}
    {row : ArchiveRow} {payload : Payload}
    (isPayload : payloadOf partition address row = some payload) :
    payload.recvMicros = row.recvMicros := by
  cases row with
  | payload seq recvMicros value channel symbol origin bytes =>
      simp only [payloadOf, Option.some.injEq] at isPayload
      rw [← isPayload]
      rfl
  | failure => simp [payloadOf] at isPayload

/-- A replay yields receipts of its range only. -/
theorem recv_mem_of_mem_payloadsIn {partition : Text} {fromMicros toMicros : Int}
    {file : ArchiveFile} {payload : Payload}
    (member : payload ∈ payloadsIn partition fromMicros toMicros file) :
    fromMicros ≤ payload.recvMicros ∧ payload.recvMicros < toMicros := by
  obtain ⟨row, _, inRange, isPayload⟩ := mem_payloadsIn.mp member
  rwa [recvMicros_of_payloadOf isPayload]

section Wider

variable {fromMicros toMicros earlier later : Int}

/-- A wider range reads what a narrower one does from a file. -/
theorem mem_payloadsIn_of_le (fromEarlier : earlier ≤ fromMicros) (toLater : toMicros ≤ later)
    {partition : Text} {file : ArchiveFile} {payload : Payload}
    (member : payload ∈ payloadsIn partition fromMicros toMicros file) :
    payload ∈ payloadsIn partition earlier later file := by
  obtain ⟨row, isRow, inRange, isPayload⟩ := mem_payloadsIn.mp member
  exact mem_payloadsIn.mpr ⟨row, isRow, by omega, isPayload⟩

theorem covers_of_le (fromEarlier : earlier ≤ fromMicros) (toLater : toMicros ≤ later)
    {directory : Text} (covered : covers fromMicros toMicros directory = true) :
    covers earlier later directory = true := by
  unfold covers at covered ⊢
  split
  · rfl
  · rename_i midnight read
    simp only [read, decide_eq_true_eq] at covered ⊢
    omega

/-- A wider range of more scopes selects what a narrower one of fewer does. -/
theorem Selected.of_le (fromEarlier : earlier ≤ fromMicros) (toLater : toMicros ≤ later)
    {scopes : Option (List Text)} {path : Path} (selected : Selected scopes fromMicros toMicros path) :
    Selected scopes earlier later path := by
  obtain ⟨covered, notFailures, inScopes, cursor, parsed, inRange⟩ := selected
  refine ⟨?_, notFailures, inScopes, cursor, parsed, ?_⟩
  · rw [List.all_eq_true] at covered ⊢
    exact fun part isPart => covers_of_le fromEarlier toLater (covered part isPart)
  · cases cursor with
    | time firstMicros lastMicros pid flush =>
        simp only [firstIn] at inRange ⊢
        split at inRange
        · simp at inRange
        · rw [if_neg (by omega)]
          rfl
    | block | seq => rfl

theorem Selected.of_scopes {scopes : Option (List Text)} {path : Path}
    (selected : Selected scopes fromMicros toMicros path) :
    Selected none fromMicros toMicros path :=
  ⟨selected.1, selected.2.1, rfl, selected.2.2.2⟩

end Wider

/-- The day of a partition is the reading of one of its components. -/
theorem exists_of_dayOf {partition : Text} {midnight : Int}
    (isDay : dayOf partition = some midnight) :
    ∃ part ∈ components partition,
      (valueUnder "date=".toList [part]).bind midnightOf = some midnight := by
  obtain ⟨part, member, read⟩ := List.exists_of_findSome?_eq_some isDay
  exact ⟨part, List.mem_reverse.mp member, read⟩

/-- A receipt day is the day of a partition that may hold the range. -/
theorem mem_receiptDays {archive : ArchiveTree} {scopes : Option (List Text)}
    {fromMicros toMicros midnight : Int} :
    midnight ∈ receiptDays archive scopes fromMicros toMicros ↔
      ∃ partition ∈ partitionsInRange archive fromMicros toMicros,
        isFailures partition = false ∧ inScope scopes partition = true ∧
          dayOf partition = some midnight := by
  simp only [receiptDays, List.mem_insertionSort, List.mem_dedup, List.mem_filterMap,
    List.mem_filter, Bool.and_eq_true, Bool.not_eq_true']
  constructor
  · rintro ⟨partition, ⟨inRange, notFailures, inScopes⟩, isDay⟩
    exact ⟨partition, inRange, notFailures, inScopes, isDay⟩
  · rintro ⟨partition, inRange, notFailures, inScopes, isDay⟩
    exact ⟨partition, ⟨inRange, notFailures, inScopes⟩, isDay⟩

/-- The whole range excludes no day. -/
theorem covers_whole (directory : Text) : covers i64Min i64Max directory = true := by
  unfold covers
  split
  · rfl
  · rename_i midnight read
    obtain ⟨date, _, isMidnight⟩ := Option.bind_eq_some_iff.mp read
    obtain ⟨_, lower, upper⟩ := bounds_of_midnightOf isMidnight
    refine decide_eq_true ?_
    simp only [i64Min, i64Max, microsPerDay] at *
    omega

/-- Every receipt day of a range and some scopes is one of the whole archive. -/
theorem mem_receiptDays_whole {archive : ArchiveTree} {scopes : Option (List Text)}
    {fromMicros toMicros midnight : Int}
    (member : midnight ∈ receiptDays archive scopes fromMicros toMicros) :
    midnight ∈ receiptDays archive none i64Min i64Max := by
  obtain ⟨partition, inRange, notFailures, _, isDay⟩ := mem_receiptDays.mp member
  refine mem_receiptDays.mpr ⟨partition, mem_partitionsInRange.mpr
    ⟨(mem_partitionsInRange.mp inRange).1, ?_⟩, notFailures, rfl, isDay⟩
  exact List.all_eq_true.mpr fun part _ => covers_whole part

/-- A receipt day reads back from a name, and may hold a moment of the range. -/
theorem of_mem_receiptDays {archive : ArchiveTree} {scopes : Option (List Text)}
    {fromMicros toMicros midnight : Int}
    (member : midnight ∈ receiptDays archive scopes fromMicros toMicros) :
    (∃ date, midnightOf date = some midnight) ∧ midnight < toMicros ∧
      fromMicros < min (midnight + microsPerDay) i64Max := by
  obtain ⟨partition, inRange, _, _, isDay⟩ := mem_receiptDays.mp member
  obtain ⟨part, isPart, read⟩ := exists_of_dayOf isDay
  have covered := List.all_eq_true.mp (mem_partitionsInRange.mp inRange).2 part isPart
  rw [covers, read] at covered
  obtain ⟨date, _, isMidnight⟩ := Option.bind_eq_some_iff.mp read
  exact ⟨⟨date, isMidnight⟩, by simpa using covered⟩

/-- Receipt days are listed once each, oldest first. -/
theorem pairwise_receiptDays (archive : ArchiveTree) (scopes : Option (List Text))
    (fromMicros toMicros : Int) :
    (receiptDays archive scopes fromMicros toMicros).Pairwise (· < ·) := by
  have ordered : (receiptDays archive scopes fromMicros toMicros).Pairwise (· ≤ ·) :=
    List.pairwise_insertionSort _ _
  have distinct : (receiptDays archive scopes fromMicros toMicros).Nodup :=
    (List.perm_insertionSort _ _).nodup_iff.mpr (List.nodup_dedup _)
  exact (ordered.and distinct).imp fun both => lt_of_le_of_ne both.1 both.2

end Replay
end Datawatch
