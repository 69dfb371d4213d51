import Datawatch.Replay

/-!
# A replay is the range read and sorted

Segments are opened by what their names promise and merged by the least row held.  Where every
name keeps its promise, that is the rows of the range in receipt order.
-/

namespace Datawatch
namespace Replay

open Library Library.Merge Segments Record Calendar

/-- A name says when a segment's rows were received, or only that they were. -/
def namedFor (recvMicros : Int) : Cursor → Prop
  | .time firstMicros lastMicros _ _ => firstMicros ≤ recvMicros ∧ recvMicros ≤ lastMicros
  | .block .. | .seq .. => i64Min ≤ recvMicros

instance (recvMicros : Int) : ∀ cursor, Decidable (namedFor recvMicros cursor)
  | .time .. => inferInstanceAs (Decidable (_ ∧ _))
  | .block .. | .seq .. => inferInstanceAs (Decidable (_ ≤ _))

/-- Every segment holds rows within its named receipt range, of the day its partition is
named for. -/
def WellPlaced (archive : ArchiveTree) : Prop :=
  ∀ entry ∈ archive.entries, ∀ cursor ∈ Cursor.parse entry.1.name,
    ∀ row ∈ entry.2.file.rows, namedFor row.recvMicros cursor ∧
      ∀ part ∈ components entry.1.partition,
        ∀ midnight ∈ (valueUnder "date=".toList [part]).bind midnightOf,
          midnight ≤ row.recvMicros ∧ row.recvMicros < midnight + microsPerDay

/-- Every segment selected for a range reads, and has the columns its partition's path says. -/
def Readable (archive : ArchiveTree) (fails : Path → Bool) (scopes : Option (List Text))
    (fromMicros toMicros : Int) : Prop :=
  ∀ entry ∈ archive.entries, Selected scopes fromMicros toMicros entry.1 →
    fails entry.1 = false ∧ entry.2.file.schema = .payload (addressLevel entry.1.partition)

instance {scopes : Option (List Text)} {fromMicros toMicros : Int} {path : Path} :
    Decidable (Selected scopes fromMicros toMicros path) :=
  decidable_of_iff
    ((components path.partition).all (covers fromMicros toMicros) = true ∧
      isFailures path.partition = false ∧ inScope scopes path.partition = true ∧
      ((Cursor.parse path.name).any fun cursor =>
        (firstIn fromMicros toMicros cursor).isSome) = true)
    (by simp [Selected, Option.any_eq_true])

instance (archive : ArchiveTree) : Decidable (WellPlaced archive) := by
  unfold WellPlaced
  infer_instance

instance (archive : ArchiveTree) (fails : Path → Bool) (scopes : Option (List Text))
    (fromMicros toMicros : Int) :
    Decidable (Readable archive fails scopes fromMicros toMicros) := by
  unfold Readable
  infer_instance

/-- Whether a file is a payload segment of the scopes. -/
def holdsPayloads (scopes : Option (List Text)) (path : Path) : Bool :=
  (Cursor.parse path.name).isSome && !isFailures path.partition && inScope scopes path.partition

/-- The payload rows of a file received in a range. -/
def rowsIn (fromMicros toMicros : Int) (path : Path) (file : ArchiveFile) : List Payload :=
  (file.file.rows.filter fun row =>
    fromMicros ≤ row.recvMicros ∧ row.recvMicros < toMicros).filterMap
      (payloadOf path.partition (accountAddress path.partition file))

/-- The payload rows of every segment of the scopes received in a range. -/
def payloadsHeld (archive : ArchiveTree) (scopes : Option (List Text))
    (fromMicros toMicros : Int) : List Payload :=
  archive.entries.flatMap fun entry =>
    if holdsPayloads scopes entry.1 then rowsIn fromMicros toMicros entry.1 entry.2 else []

theorem before_total (first second : Payload) :
    before first second = true ∨ before second first = true := by
  simp only [before, decide_eq_true_eq]
  rcases lt_trichotomy first.recvMicros second.recvMicros with earlier | same | later
  · exact .inl (.inl earlier)
  · rcases UInt64.le_total first.seq second.seq with firstLeast | secondLeast
    · exact .inl (.inr ⟨same, firstLeast⟩)
    · exact .inr (.inr ⟨same.symm, secondLeast⟩)
  · exact .inr (.inl later)

theorem before_trans {first second third : Payload}
    (firstBefore : before first second = true) (secondBefore : before second third = true) :
    before first third = true := by
  simp only [before, decide_eq_true_eq] at *
  rcases firstBefore with earlier | ⟨same, least⟩
  · rcases secondBefore with secondEarlier | ⟨secondSame, _⟩
    · exact .inl (earlier.trans secondEarlier)
    · exact .inl (secondSame ▸ earlier)
  · rcases secondBefore with secondEarlier | ⟨secondSame, secondLeast⟩
    · exact .inl (same ▸ secondEarlier)
    · exact .inr ⟨same.trans secondSame, UInt64.le_trans least secondLeast⟩

instance : Std.Total fun first second : Payload => before first second = true :=
  ⟨before_total⟩

instance : IsTrans Payload fun first second => before first second = true :=
  ⟨fun _ _ _ => before_trans⟩

/-- The row groups a range read leaves out hold no row of the range. -/
theorem filter_readRange (fromMicros toMicros : Int)
    (file : SegmentFile ArchiveRow ArchiveSchema) :
    ((readRange (fun row => some row.recvMicros) fromMicros toMicros file).filter fun row =>
        fromMicros ≤ row.recvMicros ∧ row.recvMicros < toMicros) =
      file.rows.filter fun row => fromMicros ≤ row.recvMicros ∧ row.recvMicros < toMicros := by
  unfold readRange SegmentFile.rows
  induction file.groups with
  | nil => rfl
  | cons group groups inductionHypothesis =>
      by_cases selected :
          intersects (fun row => some row.recvMicros) fromMicros toMicros group = true
      · rw [List.filter_cons_of_pos selected, List.flatten_cons, List.flatten_cons,
          List.filter_append, List.filter_append, inductionHypothesis]
      · have nothing : (group.filter fun row =>
            fromMicros ≤ row.recvMicros ∧ row.recvMicros < toMicros) = [] := by
          apply List.filter_eq_nil_iff.mpr
          intro row member inRange
          apply selected
          refine intersects_of_mem member fun time isTime => ?_
          obtain rfl := Option.some.inj isTime
          simpa using inRange
        rw [List.filter_cons_of_neg selected, List.flatten_cons, List.filter_append, nothing,
          inductionHypothesis, List.nil_append]

/-- What is read of a file for a range is its rows received in it. -/
theorem perm_payloadsIn (fromMicros toMicros : Int) (path : Path) (file : ArchiveFile) :
    (payloadsIn path.partition fromMicros toMicros file).Perm
      (rowsIn fromMicros toMicros path file) := by
  unfold payloadsIn rowsIn
  rw [filter_readRange]
  exact List.perm_insertionSort _ _

theorem pairwise_payloadsIn (partition : Text) (fromMicros toMicros : Int) (file : ArchiveFile) :
    (payloadsIn partition fromMicros toMicros file).Pairwise fun first second =>
      before first second = true :=
  List.pairwise_insertionSort _ _

/-- The segments of one partition, as they are listed for a range. -/
def pendingOf (archive : ArchiveTree) (fromMicros toMicros : Int) (partition : Text) :
    List Pending :=
  (listSegments (namesIn archive partition)).filterMap fun entry =>
    (firstIn fromMicros toMicros entry.1).map fun first => ⟨first, ⟨partition, entry.2⟩⟩

theorem partition_of_mem_pendingOf {archive : ArchiveTree} {fromMicros toMicros : Int}
    {partition : Text} {segment : Pending}
    (member : segment ∈ pendingOf archive fromMicros toMicros partition) :
    segment.path.partition = partition := by
  simp only [pendingOf, List.mem_filterMap, Option.map_eq_some_iff] at member
  obtain ⟨_, _, _, _, rfl⟩ := member
  rfl

/-- A partition's segments are listed once each. -/
theorem nodup_pendingOf (archive : ArchiveTree) (fromMicros toMicros : Int) (partition : Text) :
    ((pendingOf archive fromMicros toMicros partition).map Pending.path).Nodup := by
  have listed : ∀ listing : Listing,
      (((listing.filterMap fun entry => (firstIn fromMicros toMicros entry.1).map fun first =>
        (⟨first, ⟨partition, entry.2⟩⟩ : Pending)).map Pending.path)).Sublist
          (listing.map fun entry => (⟨partition, entry.2⟩ : Path)) := by
    intro listing
    induction listing with
    | nil => exact .slnil
    | cons entry listing inductionHypothesis =>
        cases first : firstIn fromMicros toMicros entry.1 with
        | none => simpa [first] using inductionHypothesis.cons _
        | some micros => simpa [first] using inductionHypothesis
  exact (listed _).nodup (nodup_paths_of_partition archive partition)

/-- Segments are listed once each. -/
theorem nodup_pendingIn (archive : ArchiveTree) (scopes : Option (List Text))
    (fromMicros toMicros : Int) :
    ((pendingIn archive scopes fromMicros toMicros).map Pending.path).Nodup := by
  have partitions : (partitionsInRange archive fromMicros toMicros).Nodup := by
    apply (List.perm_insertionSort _ _).nodup_iff.mpr
    exact (List.nodup_dedup _).filter _
  unfold pendingIn
  simp only
  rw [List.map_reverse, List.nodup_reverse, ((List.perm_insertionSort _ _).map _).nodup_iff,
    List.map_flatMap, List.nodup_flatMap]
  constructor
  · intro partition _
    exact nodup_pendingOf archive fromMicros toMicros partition
  · apply (partitions.filter _).imp
    intro first second distinct path inFirst inSecond
    obtain ⟨segment, isFirst, rfl⟩ := List.mem_map.mp inFirst
    obtain ⟨other, isSecond, same⟩ := List.mem_map.mp inSecond
    apply distinct
    rw [← partition_of_mem_pendingOf isFirst, ← same, partition_of_mem_pendingOf isSecond]

/-- The segments opened are the files selected, once each. -/
theorem perm_pendingIn (archive : ArchiveTree) (scopes : Option (List Text))
    (fromMicros toMicros : Int) :
    ((pendingIn archive scopes fromMicros toMicros).map Pending.path).Perm
      (archive.keys.filter fun path => Selected scopes fromMicros toMicros path) := by
  apply (List.perm_ext_iff_of_nodup (nodup_pendingIn _ _ _ _)
    (archive.nodupKeys.filter _)).mpr
  intro path
  rw [List.mem_map, mem_pendingIn, List.mem_filter, decide_eq_true_eq]
  rfl

/-- Segments are opened in the order of their first receipts. -/
theorem pairwise_pendingIn (archive : ArchiveTree) (scopes : Option (List Text))
    (fromMicros toMicros : Int) :
    (pendingIn archive scopes fromMicros toMicros).Pairwise fun first second =>
      first.first ≤ second.first := by
  have sorting : IsTrans Pending fun first second => second.first ≤ first.first :=
    ⟨fun _ _ _ firstLater secondLater => secondLater.trans firstLater⟩
  have total : Std.Total fun first second : Pending => second.first ≤ first.first :=
    ⟨fun first second => le_total second.first first.first⟩
  exact List.pairwise_reverse.mpr (List.pairwise_insertionSort _ _)

/-- A segment waits for the first receipt its name states. -/
theorem first_of_mem_pendingIn {archive : ArchiveTree} {scopes : Option (List Text)}
    {fromMicros toMicros : Int} {segment : Pending}
    (member : segment ∈ pendingIn archive scopes fromMicros toMicros) :
    ∃ cursor, Cursor.parse segment.path.name = some cursor ∧
      firstIn fromMicros toMicros cursor = some segment.first := by
  simp only [pendingIn, List.mem_reverse, List.mem_insertionSort, List.mem_flatMap,
    List.mem_filterMap, Option.map_eq_some_iff] at member
  obtain ⟨partition, _, entry, isEntry, first, isFirst, rfl⟩ := member
  exact ⟨entry.1, (mem_listSegments.mp isEntry).2, isFirst⟩

section Placed

variable {archive : ArchiveTree} (placed : WellPlaced archive)

include placed in
/-- No row is received before the first receipt its segment's name states. -/
theorem first_le_of_mem_rows {scopes : Option (List Text)} {fromMicros toMicros : Int}
    {segment : Pending} (isPending : segment ∈ pendingIn archive scopes fromMicros toMicros)
    {file : ArchiveFile} (found : archive.lookup segment.path = some file)
    {row : ArchiveRow} (isRow : row ∈ file.file.rows) : segment.first ≤ row.recvMicros := by
  obtain ⟨cursor, parsed, isFirst⟩ := first_of_mem_pendingIn isPending
  have named := (placed ⟨segment.path, file⟩ (Directory.mem_entries_iff_lookup.mpr found)
    cursor parsed row isRow).1
  cases cursor with
  | time firstMicros lastMicros pid flush =>
      simp only [firstIn] at isFirst
      split at isFirst
      · cases isFirst
      · obtain rfl := Option.some.inj isFirst
        exact named.1
  | block | seq =>
      rw [← Option.some.inj isFirst]
      exact named

include placed in
/-- A payload segment of the scopes that holds a row of the range is selected. -/
theorem selected_of_mem_rows {scopes : Option (List Text)} {fromMicros toMicros : Int}
    {path : Path} {file : ArchiveFile} (found : archive.lookup path = some file)
    (holds : holdsPayloads scopes path = true) {row : ArchiveRow}
    (isRow : row ∈ file.file.rows)
    (inRange : fromMicros ≤ row.recvMicros ∧ row.recvMicros < toMicros) :
    Selected scopes fromMicros toMicros path := by
  simp only [holdsPayloads, Bool.and_eq_true, Bool.not_eq_true'] at holds
  obtain ⟨⟨isSegment, notFailures⟩, inScopes⟩ := holds
  obtain ⟨cursor, parsed⟩ := Option.isSome_iff_exists.mp isSegment
  obtain ⟨named, dated⟩ :=
    placed ⟨path, file⟩ (Directory.mem_entries_iff_lookup.mpr found) cursor parsed row isRow
  refine ⟨?_, notFailures, inScopes, cursor, parsed, ?_⟩
  · apply List.all_eq_true.mpr
    intro part isPart
    unfold covers
    split
    · rfl
    · rename_i midnight read
      have ofDay := dated part isPart midnight read
      obtain ⟨date, _, isMidnight⟩ := Option.bind_eq_some_iff.mp read
      obtain ⟨_, _, upper⟩ := bounds_of_midnightOf isMidnight
      refine decide_eq_true ?_
      simp only [i64Max]
      omega
  · cases cursor with
    | time firstMicros lastMicros pid flush =>
        simp only [namedFor] at named
        rw [firstIn, if_neg (by omega)]
        rfl
    | block | seq => rfl

include placed in
/-- The payload rows of the range are those of the files selected for it. -/
theorem perm_payloadsHeld (scopes : Option (List Text)) (fromMicros toMicros : Int) :
    (payloadsHeld archive scopes fromMicros toMicros).Perm
      ((archive.keys.filter fun path => Selected scopes fromMicros toMicros path).flatMap
        fun path => ((archive.lookup path).map (rowsIn fromMicros toMicros path)).getD []) := by
  have perEntry : ∀ entry ∈ archive.entries,
      (if holdsPayloads scopes entry.1 then rowsIn fromMicros toMicros entry.1 entry.2 else []) =
        if Selected scopes fromMicros toMicros entry.1 then
          ((archive.lookup entry.1).map (rowsIn fromMicros toMicros entry.1)).getD [] else [] := by
    intro entry isEntry
    have found : archive.lookup entry.1 = some entry.2 :=
      Directory.mem_entries_iff_lookup.mp isEntry
    by_cases selected : Selected scopes fromMicros toMicros entry.1
    · have holds : holdsPayloads scopes entry.1 = true := by
        obtain ⟨_, notFailures, inScopes, cursor, parsed, _⟩ := selected
        simp [holdsPayloads, parsed, notFailures, inScopes]
      rw [if_pos holds, if_pos selected, found]
      rfl
    · rw [if_neg selected]
      split
      · rename_i holds
        rw [rowsIn, List.filterMap_eq_nil_iff]
        intro row member
        simp only [List.mem_filter, decide_eq_true_eq] at member
        exact absurd (selected_of_mem_rows placed found holds member.1 member.2) selected
      · rfl
  have whole : payloadsHeld archive scopes fromMicros toMicros =
      archive.keys.flatMap fun path => if Selected scopes fromMicros toMicros path then
        ((archive.lookup path).map (rowsIn fromMicros toMicros path)).getD [] else [] := by
    unfold payloadsHeld AList.keys List.keys
    rw [List.flatMap_map]
    exact List.flatMap_congr perEntry
  rw [whole]
  have filtered : ∀ paths : List Path,
      (paths.flatMap fun path => if Selected scopes fromMicros toMicros path then
        ((archive.lookup path).map (rowsIn fromMicros toMicros path)).getD [] else []) =
      (paths.filter fun path => Selected scopes fromMicros toMicros path).flatMap fun path =>
        ((archive.lookup path).map (rowsIn fromMicros toMicros path)).getD [] := by
    intro paths
    induction paths with
    | nil => rfl
    | cons path paths inductionHypothesis =>
        by_cases selected : Selected scopes fromMicros toMicros path
        · simp [selected, inductionHypothesis]
        · simp [selected, inductionHypothesis]
  rw [filtered]

end Placed

section Whole

variable {archive : ArchiveTree} {fails : Path → Bool} {scopes : Option (List Text)}
  {fromMicros toMicros : Int}

variable (ended : (streamRange archive fails scopes fromMicros toMicros).2 = none)

include ended in
theorem drained_of_ended :
    drain before (openSegment archive fails fromMicros toMicros)
        (fun least next => decide (least.recvMicros < next.first))
        (rowBound archive fromMicros toMicros (pendingIn archive scopes fromMicros toMicros))
        (pendingIn archive scopes fromMicros toMicros) [] =
      ((streamRange archive fails scopes fromMicros toMicros).1, none) :=
  Prod.ext rfl ended

include ended in
/-- A replay that met no error opened every segment of the range, for its rows of the range. -/
theorem itemsOf_of_mem_pendingIn {segment : Pending}
    (isPending : segment ∈ pendingIn archive scopes fromMicros toMicros) :
    ∃ file, archive.lookup segment.path = some file ∧
      itemsOf (openSegment archive fails fromMicros toMicros) segment =
        payloadsIn segment.path.partition fromMicros toMicros file := by
  obtain ⟨items, opened⟩ := opens_of_drain
    (lt_rowBound archive fails fromMicros toMicros (pendingIn archive scopes fromMicros toMicros))
    (drained_of_ended ended) segment isPending
  obtain ⟨file, found, isItems⟩ := itemsOf_openSegment opened
  refine ⟨file, found, ?_⟩
  rw [itemsOf, opened, ← isItems]
  rfl

variable (placed : WellPlaced archive)

include placed ended in
/-- A replay yields each payload row of the range once. -/
theorem perm_streamRange :
    (streamRange archive fails scopes fromMicros toMicros).1.Perm
      (payloadsHeld archive scopes fromMicros toMicros) := by
  have drained := perm_of_drain
    (lt_rowBound archive fails fromMicros toMicros (pendingIn archive scopes fromMicros toMicros))
    (drained_of_ended ended)
  have perSegment : ((pendingIn archive scopes fromMicros toMicros).flatMap
        (itemsOf (openSegment archive fails fromMicros toMicros))).Perm
      (((pendingIn archive scopes fromMicros toMicros).map Pending.path).flatMap fun path =>
        ((archive.lookup path).map (rowsIn fromMicros toMicros path)).getD []) := by
    rw [List.flatMap_map]
    apply List.Perm.flatMap_left
    intro segment isPending
    obtain ⟨file, found, isItems⟩ := itemsOf_of_mem_pendingIn ended isPending
    rw [isItems, found]
    exact perm_payloadsIn fromMicros toMicros segment.path file
  rw [List.flatten_nil, List.nil_append] at drained
  exact drained.trans (perSegment.trans
    (((perm_pendingIn archive scopes fromMicros toMicros).flatMap_right _).trans
      (perm_payloadsHeld placed scopes fromMicros toMicros).symm))

include placed ended in
/-- A replay yields payloads in receipt order. -/
theorem pairwise_streamRange :
    (streamRange archive fails scopes fromMicros toMicros).1.Pairwise fun first second =>
      before first second = true := by
  apply pairwise_of_drain before_total before_trans
    (lt_rowBound archive fails fromMicros toMicros (pendingIn archive scopes fromMicros toMicros))
    (drained_of_ended ended)
  · intro segment isPending
    obtain ⟨file, _, isItems⟩ := itemsOf_of_mem_pendingIn ended isPending
    rw [isItems]
    exact pairwise_payloadsIn segment.path.partition fromMicros toMicros file
  · intro queue member
    cases member
  · apply (pairwise_pendingIn archive scopes fromMicros toMicros).imp
    intro first second earlier item waiting
    simp only [decide_eq_true_eq] at waiting ⊢
    omega
  · intro segment isPending item waiting other member
    obtain ⟨file, found, isItems⟩ := itemsOf_of_mem_pendingIn ended isPending
    rw [isItems] at member
    obtain ⟨row, isRow, _, isPayload⟩ := mem_payloadsIn.mp member
    have received := first_le_of_mem_rows placed isPending found isRow
    rw [← recvMicros_of_payloadOf isPayload] at received
    simp only [decide_eq_true_eq] at waiting
    exact decide_eq_true (.inl (lt_of_lt_of_le waiting received))

/-- No two payloads share a receipt and a sequence. -/
def Numbered (payloads : List Payload) : Prop :=
  ∀ first ∈ payloads, ∀ second ∈ payloads, first.recvMicros = second.recvMicros →
    first.seq = second.seq → first = second

instance (payloads : List Payload) : Decidable (Numbered payloads) := by
  unfold Numbered
  infer_instance

/-- Numbered payloads in order are determined by which they are. -/
theorem eq_of_perm_of_pairwise {first second : List Payload} (numbered : Numbered first)
    (perm : first.Perm second)
    (firstSorted : first.Pairwise fun one other => before one other = true)
    (secondSorted : second.Pairwise fun one other => before one other = true) :
    first = second := by
  apply perm.eq_of_pairwise ?_ firstSorted secondSorted
  intro one other isFirst isSecond oneBefore otherBefore
  simp only [before, decide_eq_true_eq] at oneBefore otherBefore
  apply numbered one isFirst other (perm.mem_iff.mpr isSecond)
  · omega
  · apply UInt64.le_antisymm
    · rcases oneBefore with earlier | ⟨_, least⟩
      · omega
      · exact least
    · rcases otherBefore with earlier | ⟨_, least⟩
      · omega
      · exact least

/-- The payloads of a range and some scopes, in receipt order. -/
def sortedHeld (archive : ArchiveTree) (scopes : Option (List Text))
    (fromMicros toMicros : Int) : List Payload :=
  (payloadsHeld archive scopes fromMicros toMicros).insertionSort fun first second =>
    before first second = true

include placed ended in
/-- A replay of numbered payloads is their sort. -/
theorem streamRange_eq_sortedHeld
    (numbered : Numbered (payloadsHeld archive scopes fromMicros toMicros)) :
    (streamRange archive fails scopes fromMicros toMicros).1 =
      sortedHeld archive scopes fromMicros toMicros := by
  have perm := perm_streamRange ended placed
  have sorted := List.perm_insertionSort (fun first second => before first second = true)
    (payloadsHeld archive scopes fromMicros toMicros)
  apply eq_of_perm_of_pairwise ?_ (perm.trans sorted.symm) (pairwise_streamRange ended placed)
    (List.pairwise_insertionSort _ _)
  intro first isFirst second isSecond
  exact numbered first (perm.mem_iff.mp isFirst) second (perm.mem_iff.mp isSecond)

end Whole

/-- A payload held in a range was received in it. -/
theorem recv_mem_of_mem_payloadsHeld {archive : ArchiveTree} {scopes : Option (List Text)}
    {fromMicros toMicros : Int} {payload : Payload}
    (member : payload ∈ payloadsHeld archive scopes fromMicros toMicros) :
    fromMicros ≤ payload.recvMicros ∧ payload.recvMicros < toMicros := by
  obtain ⟨entry, _, isHeld⟩ := List.mem_flatMap.mp member
  split at isHeld
  · obtain ⟨row, isRow, isPayload⟩ := List.mem_filterMap.mp isHeld
    rw [recvMicros_of_payloadOf isPayload]
    simpa using (List.mem_filter.mp isRow).2
  · cases isHeld

section Later

variable {fromMicros later toMicros : Int} (isLater : fromMicros ≤ later)

include isLater in
/-- The payload rows of a later start are those received from then on. -/
theorem rowsIn_of_le (path : Path) (file : ArchiveFile) :
    rowsIn later toMicros path file =
      (rowsIn fromMicros toMicros path file).filter fun payload =>
        decide (later ≤ payload.recvMicros) := by
  unfold rowsIn
  induction file.file.rows with
  | nil => rfl
  | cons row rows inductionHypothesis =>
      by_cases inRange : later ≤ row.recvMicros ∧ row.recvMicros < toMicros
      · have inWider : fromMicros ≤ row.recvMicros ∧ row.recvMicros < toMicros := by omega
        rw [List.filter_cons_of_pos (by simpa using inRange),
          List.filter_cons_of_pos (by simpa using inWider), List.filterMap_cons,
          List.filterMap_cons, inductionHypothesis]
        cases isPayload : payloadOf path.partition (accountAddress path.partition file) row with
        | none => rfl
        | some payload =>
            rw [List.filter_cons_of_pos]
            rw [recvMicros_of_payloadOf isPayload]
            exact decide_eq_true inRange.1
      · rw [List.filter_cons_of_neg (by simpa using inRange), inductionHypothesis]
        by_cases inWider : fromMicros ≤ row.recvMicros ∧ row.recvMicros < toMicros
        · rw [List.filter_cons_of_pos (by simpa using inWider), List.filterMap_cons]
          cases isPayload : payloadOf path.partition (accountAddress path.partition file) row with
          | none => rfl
          | some payload =>
              rw [List.filter_cons_of_neg]
              rw [recvMicros_of_payloadOf isPayload, decide_eq_true_eq]
              omega
        · rw [List.filter_cons_of_neg (by simpa using inWider)]

include isLater in
theorem payloadsHeld_of_le (archive : ArchiveTree) (scopes : Option (List Text)) :
    payloadsHeld archive scopes later toMicros =
      (payloadsHeld archive scopes fromMicros toMicros).filter fun payload =>
        decide (later ≤ payload.recvMicros) := by
  unfold payloadsHeld
  rw [List.filter_flatMap]
  apply List.flatMap_congr
  intro entry _
  split
  · exact rowsIn_of_le isLater entry.1 entry.2
  · rfl

include isLater in
/-- A later start reads the rest of the sort. -/
theorem sortedHeld_of_le (archive : ArchiveTree) (scopes : Option (List Text))
    (numbered : Numbered (payloadsHeld archive scopes fromMicros toMicros)) :
    sortedHeld archive scopes later toMicros =
      (sortedHeld archive scopes fromMicros toMicros).filter fun payload =>
        decide (later ≤ payload.recvMicros) := by
  have sorted := List.perm_insertionSort (fun first second => before first second = true)
    (payloadsHeld archive scopes fromMicros toMicros)
  have sortedLater := List.perm_insertionSort (fun first second => before first second = true)
    (payloadsHeld archive scopes later toMicros)
  unfold sortedHeld
  apply eq_of_perm_of_pairwise ?_ (sortedLater.trans ?_) (List.pairwise_insertionSort _ _)
    ((List.pairwise_insertionSort _ _).filter _)
  · intro first isFirst second isSecond
    rw [List.mem_insertionSort, payloadsHeld_of_le isLater] at isFirst isSecond
    exact numbered first (List.mem_filter.mp isFirst).1 second (List.mem_filter.mp isSecond).1
  · rw [payloadsHeld_of_le isLater]
    exact (sorted.filter _).symm

end Later

/-- A venue's quote under a sequence and a receipt. -/
def quoteAt (seq : UInt64) (recvMicros : Int) : Payload :=
  ⟨seq, recvMicros, .venue "h".toList, "bbo".toList, "quotes".toList, none, .streamed, []⟩

/-- Two segments of one partition, the second nested in the first's receipt range. -/
def nested : ArchiveTree :=
  let partition := (quoteAt 1 10).partition
  ((∅ : ArchiveTree).insert ⟨partition, (Cursor.time 10 40 0 0).fileName⟩
    (payloadFile [quoteAt 1 10, quoteAt 4 40])).insert
      ⟨partition, (Cursor.time 20 30 0 1).fileName⟩ (payloadFile [quoteAt 2 20, quoteAt 3 30])

end Replay
end Datawatch
