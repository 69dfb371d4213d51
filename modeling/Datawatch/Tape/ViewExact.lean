import Datawatch.Library.Outcome
import Datawatch.Tape.Stages
import Datawatch.Tape.View

/-!
# The bounded reader is exact

What a tape's commits leave is shaped so that every test the reader makes before it decodes a row
only leaves out rows it would drop.
-/

namespace Datawatch
namespace Tape

open Library Library.Directory Wire Segments Calendar

/-- A tape row: a venue, a ticker, a venue time or none, a receipt and a sequence come first. -/
structure Shaped (row : List Cell) (venue : Text) (ticker : Cell) (atMicros : Option Int)
    (recvMicros : Int) (seq : Nat) : Prop where
  shape : ∃ rest, row = .text venue :: ticker ::
    (atMicros.map Cell.int).getD .null :: .int recvMicros :: .uint seq :: rest

section Row

variable {extra : List Field} {row : List Cell} {venue : Text} {ticker : Cell}
  {atMicros : Option Int} {recvMicros : Int} {seq : Nat}

theorem columnOf_atMicros :
    columnOf (commonFields ++ extra) "at_micros".toList .int64 = some 2 := rfl

theorem columnOf_streamSeq :
    columnOf (commonFields ++ extra) "stream_seq".toList .uint64 = some 4 := rfl

theorem columnOf_ticker :
    columnOf (commonFields ++ extra) "ticker".toList .utf8 = some 1 := rfl

/-- A row is in the window where it has no venue time, or one the window holds. -/
theorem inWindow_iff (shaped : Shaped row venue ticker atMicros recvMicros seq)
    (window : Window) :
    inWindow (commonFields ++ extra) window row = true ↔
      ∀ moment ∈ atMicros, window.fromMicros ≤ moment ∧ moment < window.toMicros := by
  obtain ⟨rest, rfl⟩ := shaped.shape
  unfold inWindow
  rw [columnOf_atMicros]
  cases atMicros with
  | none => simp
  | some moment => simp

theorem permitted_iff (shaped : Shaped row venue ticker atMicros recvMicros seq)
    (position : Int) :
    permitted (commonFields ++ extra) position row = true ↔ (seq : Int) ≤ position := by
  obtain ⟨rest, rfl⟩ := shaped.shape
  unfold permitted
  rw [columnOf_streamSeq]
  simp only [List.getD_cons_succ, List.getD_cons_zero, decide_eq_true_eq]
  omega

theorem isInstrument_iff (shaped : Shaped row venue ticker atMicros recvMicros seq)
    (window : Window) :
    isInstrument (commonFields ++ extra) window row = true ↔
      ∀ wanted ∈ window.ticker, ticker = .text wanted := by
  obtain ⟨rest, rfl⟩ := shaped.shape
  unfold isInstrument
  rw [columnOf_ticker]
  cases window.ticker with
  | none => simp
  | some wanted => simp

/-- The moment a shaped row is filed under. -/
theorem filedAt_of_shaped (shaped : Shaped row venue ticker atMicros recvMicros seq) :
    filedAt row = atMicros.getD recvMicros := by
  obtain ⟨rest, rfl⟩ := shaped.shape
  cases atMicros with
  | none => rfl
  | some moment => rfl

theorem shown_iff (shaped : Shaped row venue ticker atMicros recvMicros seq) (window : Window)
    (bound : Bound) :
    Shown window bound row ↔
      (dayStart (atMicros.getD recvMicros) < window.toMicros ∧
        window.fromMicros < dayStart (atMicros.getD recvMicros) + microsPerDay) ∧
      (∀ moment ∈ atMicros, window.fromMicros ≤ moment ∧ moment < window.toMicros) ∧
      (∀ wanted ∈ window.ticker, ticker = .text wanted) ∧
      ∃ position ∈ bound venue, (seq : Int) ≤ position := by
  have filed := filedAt_of_shaped shaped
  obtain ⟨rest, rfl⟩ := shaped.shape
  unfold Shown
  rw [filed]
  cases atMicros with
  | none => simp
  | some moment => simp

end Row

theorem mem_shownOf {window : Window} {bound : Bound} {rows : List (List Cell)}
    {row : List Cell} :
    row ∈ shownOf window bound rows ↔ row ∈ rows ∧ Shown window bound row := by
  simp [shownOf]

/-- A segment as a commit builds it: the five columns first, and every row of its venue, of its
partition's day, and at or after the first sequence of its name. -/
structure WellFormed (path : Segments.Path) (segment : TapeSegment) : Prop where
  fields : ∃ extra, segment.batch.fields = commonFields ++ extra
  labelled : ∃ venue, segment.label venueLabel = some venue ∧
    ∃ kind first last, path.name = (Cursor.seq first last).fileName ∧
      (Cursor.seq first last).InRange ∧
      (∃ moment, path.partition = partitionOf kind moment) ∧
      ∀ row ∈ segment.rows, ∃ ticker atMicros recvMicros seq,
        Shaped row venue ticker atMicros recvMicros seq ∧ first ≤ seq ∧
          path.partition = partitionOf kind (atMicros.getD recvMicros)

/-- A segment's row groups hold its rows. -/
theorem flatten_groups (segment : TapeSegment) : segment.groups.flatten = segment.rows :=
  Grouping.flatten_toChunks (by decide) _

/-- What a filter leaves out adds nothing where each item it leaves out adds nothing. -/
theorem flatMap_filter_of_nil {α β : Type} {items : List α} {selects : α → Bool}
    {yield : α → List β}
    (nothing : ∀ item ∈ items, selects item = false → yield item = []) :
    (items.filter selects).flatMap yield = items.flatMap yield := by
  induction items with
  | nil => rfl
  | cons item items inductionHypothesis =>
      have rest := inductionHypothesis fun other member =>
        nothing other (List.mem_cons_of_mem _ member)
      cases selected : selects item with
      | true => rw [List.filter_cons_of_pos selected, List.flatMap_cons, List.flatMap_cons, rest]
      | false =>
          rw [List.filter_cons_of_neg (by simp [selected]), rest, List.flatMap_cons,
            nothing item List.mem_cons_self selected, List.nil_append]

/-- A range test rules a row group out only on both of its bounds, and no nulls. -/
theorem bounds_of_range_pruned {statistics : Option Statistics} {column : Text}
    {fromMicros toMicros : Int}
    (pruned : mayHold statistics (.int64Range column fromMicros toMicros true) = false) :
    ∃ least greatest, statistics = some (.int64 (some least) (some greatest) (some 0)) ∧
      ¬ (fromMicros ≤ greatest ∧ least < toMicros) := by
  simp only [mayHold, Bool.true_and, bne_iff_ne] at pruned
  split at pruned
  · rename_i least greatest nullCount
    split at pruned
    · cases pruned
    · rename_i noNulls
      split at pruned
      · rename_i least greatest
        exact ⟨least, greatest, by rw [of_not_not noNulls], of_decide_eq_false pruned⟩
      · cases pruned
  · cases pruned

/-- An equality test rules a row group out only on both of its bounds. -/
theorem bounds_of_equals_pruned {statistics : Option Statistics} {column value : Text}
    (pruned : mayHold statistics (.equals column value) = false) :
    ∃ least greatest, statistics = some (.byteArray (some least) (some greatest)) ∧
      ¬ (bytesLe least (bytesOf value) ∧ bytesLe (bytesOf value) greatest) := by
  simp only [mayHold] at pruned
  split at pruned
  · rename_i least greatest
    exact ⟨least, greatest, rfl, by simpa using pruned⟩
  · cases pruned

section Segment

variable {footer : Footer} {segment : TapeSegment} (truth : TrueFooter footer segment)
  {extra : List Field} (fields : segment.batch.fields = commonFields ++ extra)

include truth fields

/-- A row group no test of the window can hold has no row the window keeps. -/
theorem keep_eq_nil_of_pruned {group : List (List Cell) × Nat}
    (isGroup : group ∈ segment.groups.zipIdx) {window : Window}
    (shaped : ∀ row ∈ group.1, ∃ venue ticker atMicros recvMicros seq,
      Shaped row venue ticker atMicros recvMicros seq)
    {prune : Prune} (isPrune : prune ∈ window.prunes)
    (pruned : mayHold (footer group.2 prune.column) prune = false) (position : Int) :
    keep segment.batch.fields window position group.1 = [] := by
  apply List.filter_eq_nil_iff.mpr
  intro row isRow
  obtain ⟨venue, ticker, atMicros, recvMicros, seq, isShaped⟩ := shaped row isRow
  simp only [Bool.and_eq_true, fields, not_and]
  rw [inWindow_iff isShaped, isInstrument_iff isShaped]
  simp only [Window.prunes, List.mem_cons, Option.mem_toList, Option.map_eq_some_iff] at isPrune
  rcases isPrune with rfl | ⟨wanted, isWanted, rfl⟩
  · rintro ⟨timed, _⟩
    obtain ⟨least, greatest, isFooter, outside⟩ := bounds_of_range_pruned pruned
    have isField : segment.batch.fields[2]? = some ⟨"at_micros".toList, .int64, true⟩ := by
      rw [fields]
      rfl
    have noNull := truth.nulls group isGroup 2 _ _ _ isField isFooter row isRow
    have bounded := truth.ints group isGroup 2 _ _ _ _ isField isFooter row isRow
    obtain ⟨rest, rfl⟩ := isShaped.shape
    cases atMicros with
    | none => exact absurd rfl noNull
    | some moment =>
        have inBounds := bounded moment rfl
        have inRange := timed moment rfl
        omega
  · rintro _ instrument
    obtain ⟨least, greatest, isFooter, outside⟩ := bounds_of_equals_pruned pruned
    have isField : segment.batch.fields[1]? = some ⟨"ticker".toList, .utf8, false⟩ := by
      rw [fields]
      rfl
    have bounded := truth.texts group isGroup 1 _ _ _ isField isFooter row isRow
    obtain rfl := instrument wanted isWanted
    obtain ⟨rest, rfl⟩ := isShaped.shape
    exact outside (bounded wanted rfl)

/-- What is decoded keeps every row of the segment the window keeps. -/
theorem keep_readWhere {window : Window}
    (shaped : ∀ row ∈ segment.rows, ∃ venue ticker atMicros recvMicros seq,
      Shaped row venue ticker atMicros recvMicros seq) (position : Int) :
    (readWhere footer segment window.prunes).flatMap
        (keep segment.batch.fields window position) =
      keep segment.batch.fields window position segment.rows := by
  have inRows : ∀ group ∈ segment.groups.zipIdx, ∀ row ∈ group.1, row ∈ segment.rows := by
    intro group isGroup row isRow
    rw [← flatten_groups]
    exact List.mem_flatten_of_mem (List.fst_mem_of_mem_zipIdx isGroup) isRow
  have pruned : ∀ group ∈ segment.groups.zipIdx,
      (window.prunes.all fun prune =>
        if segment.batch.fields.any fun field => field.name = prune.column then
          mayHold (footer group.2 prune.column) prune
        else true) = false →
      keep segment.batch.fields window position group.1 = [] := by
    intro group isGroup ruledOut
    obtain ⟨prune, isPrune, fails⟩ := List.all_eq_false.mp ruledOut
    split at fails
    · exact keep_eq_nil_of_pruned truth fields isGroup
        (fun row isRow => shaped row (inRows group isGroup row isRow)) isPrune
        (by simpa using fails) position
    · exact absurd rfl fails
  have whole : segment.groups.zipIdx.map Prod.fst = segment.groups := List.zipIdx_map_fst _ _
  unfold readWhere
  rw [List.flatMap_map, flatMap_filter_of_nil pruned, ← List.flatMap_map, whole]
  unfold keep
  rw [List.flatMap_def, ← List.filter_flatten, flatten_groups]

end Segment

theorem partitionOf_eq (kind : Kind) (moment : Int) :
    partitionOf kind moment = kindScope kind ++ "/date=".toList ++ dateOf moment := by
  rfl

theorem dateIn_partitionOf (kind : Kind) (moment : Int) :
    dateIn kind (partitionOf kind moment) = some (dateOf moment) := by
  unfold dateIn
  simp only
  rw [partitionOf_eq, if_pos (List.prefix_append _ _), List.drop_left]

/-- A dataset's partitions lie in its own directory alone. -/
theorem kind_eq_of_prefix {kind other : Kind} {moment : Int}
    (inside : kindScope kind ++ ['/'] <+: partitionOf other moment) : kind = other := by
  obtain ⟨rest, isRest⟩ := inside
  have absent : ∀ kind : Kind, '/' ∉ kindScope kind := by
    intro kind member
    rcases List.mem_append.mp member with inKey | inName
    · exact absurd inKey (by decide)
    · exact kind.slash_not_mem_asStr inName
  have here : Text.splitOnce '/' (kindScope kind ++ '/' :: rest) = some (kindScope kind, rest) :=
    Text.splitOnce_append_cons (absent kind) rest
  have there : Text.splitOnce '/'
      (kindScope other ++ '/' :: ("date=".toList ++ dateOf moment)) =
        some (kindScope other, "date=".toList ++ dateOf moment) :=
    Text.splitOnce_append_cons (absent other) _
  have same : kindScope kind ++ '/' :: rest =
      kindScope other ++ '/' :: ("date=".toList ++ dateOf moment) := by
    have slash : "/date=".toList = '/' :: "date=".toList := by decide
    rw [partitionOf_eq, List.append_assoc, List.append_assoc, slash] at isRest
    exact isRest
  rw [same, there] at here
  exact (Kind.asStr_injective
    (List.append_cancel_left (Prod.mk.inj (Option.some.inj here)).1)).symm

/-- A partition that has a date in a dataset's directory lies in it. -/
theorem prefix_of_dateIn {kind : Kind} {partition date : Text}
    (isDate : dateIn kind partition = some date) :
    kindScope kind ++ ['/'] <+: partition := by
  unfold dateIn at isDate
  simp only at isDate
  split at isDate
  · rename_i inside
    refine List.IsPrefix.trans ?_ inside
    have slash : "/date=".toList = ['/'] ++ "date=".toList := by decide
    rw [slash, ← List.append_assoc]
    exact List.prefix_append _ _
  · cases isDate

/-- A partition a window touches is dated by a day that overlaps it, which every row of the
partition is of. -/
theorem touches_iff {window : Window} {moment : Int} :
    window.touches (partitionOf window.kind moment) = true ↔
      (midnightOf (dateOf moment)).isSome ∧ dayStart moment < window.toMicros ∧
        window.fromMicros < dayStart moment + microsPerDay := by
  unfold Window.touches
  rw [dateIn_partitionOf, Option.bind_some]
  cases read : midnightOf (dateOf moment) with
  | none => simp
  | some midnight =>
      obtain rfl := eq_dayStart_of_midnightOf_dateOf read
      obtain ⟨_, _, below⟩ := bounds_of_midnightOf read
      have unsaturated : min (dayStart moment + microsPerDay) i64Max =
          dayStart moment + microsPerDay := by
        apply min_eq_left
        simp only [i64Max]
        omega
      simp only [Option.any_some, unsaturated, decide_eq_true_eq, Option.isSome_some, true_and]

section View

variable {footers : TapeSegment → Footer} {bound : Bound} {window : Window} {tape : TapeTree}

/-- A well-formed segment of a partition the window touches yields the rows the window shows. -/
theorem viewSegment_ok {path : Segments.Path} {segment : TapeSegment}
    (found : tape.lookup path = some segment) (formed : WellFormed path segment)
    (truth : TrueFooter (footers segment) segment) {cursor : Cursor}
    (parsed : Cursor.parse path.name = some cursor) (touched : window.touches path.partition) :
    viewSegment footers bound window tape (cursor, path) =
      .ok (shownOf window bound segment.rows) := by
  obtain ⟨extra, fields⟩ := formed.fields
  obtain ⟨venue, labelled, kind, first, last, isName, inRange, ⟨moment, ofKind⟩, rows⟩ :=
    formed.labelled
  have sameKind : window.kind = kind := by
    obtain ⟨_, isMidnight, _⟩ := Option.any_eq_true _ _ |>.mp touched
    obtain ⟨date, isDate, _⟩ := Option.bind_eq_some_iff.mp isMidnight
    have inside := prefix_of_dateIn isDate
    rw [ofKind] at inside
    exact kind_eq_of_prefix inside
  subst sameKind
  rw [isName, Cursor.parse_fileName inRange] at parsed
  obtain rfl := Option.some.inj parsed
  -- Every row of the partition is of the day the window touches.
  have shown : ∀ row ∈ segment.rows, ∃ ticker atMicros recvMicros seq,
      Shaped row venue ticker atMicros recvMicros seq ∧ first ≤ seq ∧
        (Shown window bound row ↔
          (∀ moment ∈ atMicros, window.fromMicros ≤ moment ∧ moment < window.toMicros) ∧
          (∀ wanted ∈ window.ticker, ticker = .text wanted) ∧
          ∃ position ∈ bound venue, (seq : Int) ≤ position) := by
    intro row isRow
    obtain ⟨ticker, atMicros, recvMicros, seq, shaped, atLeast, isPartition⟩ := rows row isRow
    refine ⟨ticker, atMicros, recvMicros, seq, shaped, atLeast, ?_⟩
    rw [isPartition] at touched
    rw [shown_iff shaped, and_iff_right (touches_iff.mp touched).2]
  have noneShown : (∀ row ∈ segment.rows, ¬ Shown window bound row) →
      shownOf window bound segment.rows = [] := by
    intro hidden
    apply List.filter_eq_nil_iff.mpr
    intro row isRow
    simpa using hidden row isRow
  unfold viewSegment
  simp only [found, labelled]
  cases isBound : bound venue with
  | none =>
      rw [noneShown]
      intro row isRow isShown
      obtain ⟨_, _, _, _, _, _, rule⟩ := shown row isRow
      obtain ⟨_, _, position, isPosition, _⟩ := rule.mp isShown
      rw [isBound] at isPosition
      cases isPosition
  | some position =>
      simp only
      split
      · rename_i isPast
        rw [noneShown]
        intro row isRow isShown
        obtain ⟨_, _, _, seq, _, atLeast, rule⟩ := shown row isRow
        obtain ⟨_, _, other, isPosition, within⟩ := rule.mp isShown
        rw [isBound] at isPosition
        obtain rfl := Option.some.inj isPosition
        simp only [past, decide_eq_true_eq] at isPast
        omega
      · have shaped : ∀ row ∈ segment.rows, ∃ venue ticker atMicros recvMicros seq,
            Shaped row venue ticker atMicros recvMicros seq := by
          intro row isRow
          obtain ⟨ticker, atMicros, recvMicros, seq, isShaped, _⟩ := rows row isRow
          exact ⟨venue, ticker, atMicros, recvMicros, seq, isShaped⟩
        rw [keep_readWhere truth fields shaped]
        congr 1
        apply List.filter_congr
        intro row isRow
        obtain ⟨ticker, atMicros, recvMicros, seq, isShaped, _, rule⟩ := shown row isRow
        apply Bool.eq_iff_iff.mpr
        simp only [decide_eq_true_eq, rule, isBound, fields, Bool.and_eq_true,
          inWindow_iff isShaped, permitted_iff isShaped, isInstrument_iff isShaped,
          Option.mem_def, Option.some.injEq, exists_eq_left', and_assoc]
        rw [and_comm (a := (seq : Int) ≤ position)]

end View

/-! ## What a commit leaves -/

/-- Every tape row of a row carries the row's own five columns. -/
theorem shaped_of_mem_cells {row : Row} {cells : List Cell} (member : cells ∈ row.cells) :
    ∃ ticker, Shaped cells (venueOf row.envelope) ticker row.envelope.atMicros
      row.envelope.recvMicros row.streamSeq.toNat := by
  have fronted : ∀ {cells rest : List Cell},
      cells = (common.map fun reader => reader.value row) ++ rest →
      ∃ ticker, Shaped cells (venueOf row.envelope) ticker row.envelope.atMicros
        row.envelope.recvMicros row.streamSeq.toNat := by
    rintro cells rest rfl
    exact ⟨_, ⟨rest, rfl⟩⟩
  unfold Row.cells at member
  split at member
  · obtain ⟨level, isLevel, rfl⟩ := List.mem_map.mp member
    have ofRow : level.row = row := by
      unfold levelsOf at isLevel
      split at isLevel
      · obtain ⟨_, _, rfl⟩ := List.mem_map.mp isLevel
        rfl
      · cases isLevel
    unfold Level.cells
    rw [ofRow]
    exact fronted rfl
  · split at member
    · cases member
    · rw [List.mem_singleton.mp member, List.map_append]
      exact fronted rfl

/-- A batch's columns are the five and those of its dataset. -/
theorem fields_of_batchFor {kind : Kind} {rows : List Row} {batch : RecordBatch}
    (made : batchFor kind rows = .ok batch) :
    ∃ extra, batch.fields = commonFields ++ extra := by
  have ofTryNew : ∀ {columns : List (List Cell)}, tryNew kind columns = .ok batch →
      ∃ extra, batch.fields = commonFields ++ extra := by
    intro columns accepted
    unfold tryNew at accepted
    split at accepted
    · cases accepted
    · rename_i fields isSchema
      split at accepted
      · cases accepted
      · obtain ⟨extra, _, rfl⟩ := Option.map_eq_some_iff.mp isSchema
        exact ⟨extra, by rw [← Except.ok.inj accepted]⟩
  unfold batchFor at made
  split at made
  · rename_i isBook
    subst isBook
    unfold bookBatch at made
    dsimp only at made
    obtain ⟨_, _, rest⟩ := Outcome.bind_eq_ok made
    obtain ⟨_, _, accepted⟩ := Outcome.bind_eq_ok rest
    exact ofTryNew accepted
  · split at made
    · cases made
    · obtain ⟨_, _, accepted⟩ := Outcome.bind_eq_ok made
      exact ofTryNew accepted

/-- Every segment built has a batch of its dataset's columns. -/
theorem fields_of_build {groups : List (GroupKey × List Row)}
    {built : List (Segments.Path × TapeSegment)} (made : build groups = .ok built) :
    ∀ entry ∈ built, ∃ extra, entry.2.batch.fields = commonFields ++ extra := by
  induction groups generalizing built with
  | nil =>
      obtain rfl : [] = built := Except.ok.inj made
      simp
  | cons group groups inductionHypothesis =>
      obtain ⟨key, rows⟩ := group
      simp only [build] at made
      obtain ⟨batch, isBatch, rest⟩ := Outcome.bind_eq_ok made
      cases isRest : build groups with
      | error reason => simp [isRest, Except.map] at rest
      | ok others =>
          simp only [isRest, Except.map, Except.ok.injEq] at rest
          have ofOthers := inductionHypothesis isRest
          split at rest
          · rwa [← rest]
          · rw [← rest]
            intro entry member
            rcases List.mem_cons.mp member with rfl | inOthers
            · exact fields_of_batchFor isBatch
            · exact ofOthers entry inOthers

/-- Every segment a commit builds is well formed. -/
theorem wellFormed_of_builtFor {rows : List Row} {entry : Segments.Path × TapeSegment}
    (member : entry ∈ builtFor rows) : WellFormed entry.1 entry.2 := by
  unfold builtFor at member
  cases made : build (group rows) with
  | error reason => simp [made, Except.toOption] at member
  | ok built =>
      simp only [made, Except.toOption, Option.getD_some] at member
      obtain ⟨group, isGroup, isPath, labels, perm⟩ :=
        (Grouping.exists_mem_of_forall₂ (builtFrom_of_group made)).1 entry member
      obtain ⟨members, row, isRow, _, isKey⟩ := exists_row_of_mem_group isGroup
      have ofKey : ∀ row ∈ group.2, row.key = group.1 := by
        intro row inGroup
        rw [members] at inGroup
        simpa using (List.mem_filter.mp inGroup).2
      have seqs : ∀ row ∈ group.2,
          (group.2.map fun row => row.streamSeq.toNat).min?.getD 0 ≤ row.streamSeq.toNat := by
        intro row inGroup
        have isSeq := List.mem_map_of_mem (f := fun row : Row => row.streamSeq.toNat) inGroup
        obtain ⟨least, isLeast⟩ := Option.ne_none_iff_exists'.mp
          (fun none => List.ne_nil_of_mem isSeq (List.min?_eq_none_iff.mp none))
        rw [isLeast]
        exact (List.min?_eq_some_iff.mp isLeast).2 _ isSeq
      refine ⟨fields_of_build made entry member, group.1.venue,
        (BuiltFrom.labels ⟨isPath, labels, perm⟩).1, group.1.kind, _, _, by rw [isPath]; rfl,
        rangeOf_inRange group.2, ?_, ?_⟩
      · refine ⟨row.envelope.atMicros.getD row.envelope.recvMicros, ?_⟩
        rw [isPath, ← isKey]
        rfl
      · intro cells isCells
        obtain ⟨from_, inGroup, ofRow⟩ := List.mem_flatMap.mp (perm.mem_iff.mp isCells)
        obtain ⟨ticker, shaped⟩ := shaped_of_mem_cells ofRow
        have venue : venueOf from_.envelope = group.1.venue :=
          congrArg GroupKey.venue (ofKey from_ inGroup)
        rw [venue] at shaped
        refine ⟨ticker, _, _, _, shaped, seqs from_ inGroup, ?_⟩
        rw [isPath]
        have partition := congrArg GroupKey.partition (ofKey from_ inGroup)
        have kind := congrArg GroupKey.kind (ofKey from_ inGroup)
        rw [pathOf, ← partition, ← kind]
        rfl

/-- Every segment of a tape commits leave is well formed. -/
theorem wellFormed_of_committed {commits : List ((Nat → WriteFate) × List Row)}
    {path : Segments.Path} {segment : TapeSegment}
    (found : (committed commits).lookup path = some segment) : WellFormed path segment := by
  induction commits using List.reverseRecOn with
  | nil => simp [committed] at found
  | append_singleton commits taken inductionHypothesis =>
      have last : committed (commits ++ [taken]) =
          applyAll (commit taken.1 taken.2).1 (committed commits) := by
        simp [committed]
      obtain ⟨front, isFront, effects⟩ := effects_commit taken.1 taken.2
      rw [last, effects] at found
      rcases lookup_applyAll_commits_cases front (committed commits) path with
        ⟨content, isEntry, isContent⟩ | ⟨_, untouched⟩
      · rw [isContent, Option.some.injEq] at found
        subst found
        exact wellFormed_of_builtFor (isFront.subset isEntry)
      · rw [untouched] at found
        exact inductionHypothesis found

section Whole

variable {tape : TapeTree} {window : Window}

/-- A file the window opens is one of the tape, of a partition it touches. -/
theorem mem_segmentsFor {listed : Cursor × Segments.Path}
    (member : listed ∈ segmentsFor tape window) :
    listed.2 ∈ tape ∧ window.touches listed.2.partition = true ∧
      Cursor.parse listed.2.name = some listed.1 := by
  obtain ⟨⟨partition, listing⟩, isListed, inListing⟩ := List.mem_flatMap.mp member
  obtain ⟨inTape, touched⟩ := List.mem_filter.mp isListed
  obtain ⟨⟨cursor, name⟩, isEntry, rfl⟩ := List.mem_map.mp inListing
  obtain ⟨_, isFile, parsed⟩ := mem_partitionsListed.mp ⟨listing, inTape, isEntry⟩
  exact ⟨isFile, touched, parsed⟩

/-- A partition the window touches is listed under its dataset's directory. -/
theorem under_of_touches {partition : Text} (touched : window.touches partition = true) :
    Under (kindScope window.kind) partition := by
  obtain ⟨_, isMidnight, _⟩ := Option.any_eq_true _ _ |>.mp touched
  obtain ⟨date, isDate, _⟩ := Option.bind_eq_some_iff.mp isMidnight
  obtain ⟨rest, isRest⟩ := prefix_of_dateIn isDate
  unfold Under
  rw [← isRest, List.append_assoc, List.singleton_append, components_append]
  exact List.prefix_append _ _

/-- The files a window opens are those of the partitions it touches, once each. -/
theorem perm_segmentsFor (parses : ∀ path ∈ tape, (Cursor.parse path.name).isSome) :
    ((segmentsFor tape window).map Prod.snd).Perm
      (tape.keys.filter fun path => window.touches path.partition) := by
  obtain ⟨partitions, listings⟩ := nodup_partitionsListed tape (kindScope window.kind)
  have distinct : ((segmentsFor tape window).map Prod.snd).Nodup := by
    unfold segmentsFor
    rw [List.map_flatMap, List.nodup_flatMap]
    constructor
    · intro listed isListed
      rw [listings listed (List.mem_filter.mp isListed).1, List.map_map]
      exact nodup_paths_of_partition tape listed.1
    · have apart := List.pairwise_map.mp partitions
      apply (apart.filter _).imp
      intro first second differ path inFirst inSecond
      simp only [List.mem_map] at inFirst inSecond
      obtain ⟨_, ⟨_, _, rfl⟩, isFirst⟩ := inFirst
      obtain ⟨_, ⟨_, _, rfl⟩, isSecond⟩ := inSecond
      apply differ
      rw [← isSecond] at isFirst
      exact congrArg Segments.Path.partition isFirst
  apply (List.perm_ext_iff_of_nodup distinct (tape.nodupKeys.filter _)).mpr
  intro path
  constructor
  · intro member
    obtain ⟨listed, isListed, rfl⟩ := List.mem_map.mp member
    obtain ⟨inTape, touched, _⟩ := mem_segmentsFor isListed
    exact List.mem_filter.mpr ⟨inTape, touched⟩
  · intro member
    obtain ⟨inTape, touched⟩ := List.mem_filter.mp member
    obtain ⟨cursor, parsed⟩ := Option.isSome_iff_exists.mp (parses path inTape)
    obtain ⟨listing, isListed, inListing⟩ :=
      mem_partitionsListed.mpr ⟨under_of_touches touched, inTape, parsed⟩
    refine List.mem_map.mpr
      ⟨(cursor, path), List.mem_flatMap.mpr ⟨(path.partition, listing), ?_, ?_⟩, rfl⟩
    · exact List.mem_filter.mpr ⟨isListed, touched⟩
    · exact List.mem_map.mpr ⟨_, inListing, rfl⟩

/-- Whether the date a row is filed under reads back. -/
def readsBack (row : List Cell) : Bool := (midnightOf (dateOf (filedAt row))).isSome

/-- Of one segment, the window opens exactly the rows it shows whose date reads back. -/
theorem shownOf_of_touches {path : Segments.Path} {segment : TapeSegment}
    (formed : WellFormed path segment) (bound : Bound) :
    (if window.touches path.partition then shownOf window bound segment.rows else []) =
      (if kindScope window.kind ++ ['/'] <+: path.partition then
        shownOf window bound segment.rows else []).filter readsBack := by
  obtain ⟨venue, _, kind, first, last, _, _, ⟨moment, ofKind⟩, rows⟩ := formed.labelled
  by_cases inside : kindScope window.kind ++ ['/'] <+: path.partition
  · rw [if_pos inside]
    obtain rfl : window.kind = kind := by
      rw [ofKind] at inside
      exact kind_eq_of_prefix inside
    have touched_iff : ∀ row ∈ segment.rows, window.touches path.partition = true ↔
        readsBack row = true ∧ dayStart (filedAt row) < window.toMicros ∧
          window.fromMicros < dayStart (filedAt row) + microsPerDay := by
      intro row isRow
      obtain ⟨ticker, atMicros, recvMicros, seq, shaped, _, isPartition⟩ := rows row isRow
      rw [isPartition, touches_iff, readsBack, filedAt_of_shaped shaped]
    split
    · rename_i touched
      symm
      apply List.filter_eq_self.mpr
      intro row isShown
      exact ((touched_iff row (mem_shownOf.mp isShown).1).mp touched).1
    · rename_i untouched
      symm
      apply List.filter_eq_nil_iff.mpr
      intro row isShown readable
      obtain ⟨isRow, shown⟩ := mem_shownOf.mp isShown
      exact untouched ((touched_iff row isRow).mpr ⟨readable, shown.1⟩)
  · have untouched : ¬ window.touches path.partition = true := by
      intro touched
      obtain ⟨_, isMidnight, _⟩ := Option.any_eq_true _ _ |>.mp touched
      obtain ⟨date, isDate, _⟩ := Option.bind_eq_some_iff.mp isMidnight
      exact inside (prefix_of_dateIn isDate)
    rw [if_neg inside, if_neg untouched, List.filter_nil]

/-- A loop that fails on no item yields what each item yields. -/
theorem mapM_eq_ok {Error α β : Type} {yield : α → Except Error β} {value : α → β}
    {items : List α} (each : ∀ item ∈ items, yield item = .ok (value item)) :
    items.mapM yield = .ok (items.map value) := by
  induction items with
  | nil => rfl
  | cons item items inductionHypothesis =>
      have rest := inductionHypothesis fun other member =>
        each other (List.mem_cons_of_mem _ member)
      rw [List.mapM_cons, each item List.mem_cons_self, rest]
      rfl

/-- What the window shows of the file at a path. -/
noncomputable def shownAt (tape : TapeTree) (bound : Bound) (window : Window)
    (path : Segments.Path) : List (List Cell) :=
  ((tape.lookup path).map fun segment => shownOf window bound segment.rows).getD []

/-- A window is every row it shows whose date reads back, in some order. -/
theorem view_perm {footers : TapeSegment → Footer} {bound : Bound}
    (formed : ∀ path segment, tape.lookup path = some segment → WellFormed path segment)
    (truth : ∀ path segment, tape.lookup path = some segment →
      TrueFooter (footers segment) segment)
    (forward : window.fromMicros < window.toMicros) :
    ∃ rows, view footers bound tape window = .ok rows ∧
      rows.Perm ((rowsShown tape bound window).filter readsBack) := by
  have parses : ∀ path ∈ tape, (Cursor.parse path.name).isSome := by
    intro path inTape
    obtain ⟨segment, found⟩ := Option.isSome_iff_exists.mp (AList.lookup_isSome.mpr inTape)
    obtain ⟨_, _, _, _, _, isName, inRange, _⟩ := (formed path segment found).labelled
    rw [isName, Cursor.parse_fileName inRange]
    rfl
  have yields : ∀ listed ∈ segmentsFor tape window,
      viewSegment footers bound window tape listed =
        .ok (shownAt tape bound window listed.2) := by
    intro listed isListed
    obtain ⟨inTape, touched, parsed⟩ := mem_segmentsFor isListed
    obtain ⟨segment, found⟩ := Option.isSome_iff_exists.mp (AList.lookup_isSome.mpr inTape)
    rw [shownAt, found]
    exact viewSegment_ok found (formed _ _ found) (truth _ _ found) parsed touched
  have perEntry : ∀ entry ∈ tape.entries,
      (if window.touches entry.1.partition then shownAt tape bound window entry.1 else []) =
        (if kindScope window.kind ++ ['/'] <+: entry.1.partition then
          shownOf window bound entry.2.rows else []).filter readsBack := by
    intro entry isEntry
    have found : tape.lookup entry.1 = some entry.2 := mem_entries_iff_lookup.mp isEntry
    rw [shownAt, found]
    exact shownOf_of_touches (formed _ _ found) bound
  have touchedOnly : (tape.keys.filter fun path => window.touches path.partition).flatMap
      (shownAt tape bound window) =
        tape.keys.flatMap fun path =>
          if window.touches path.partition then shownAt tape bound window path else [] := by
    rw [← @flatMap_filter_of_nil _ _ _ (fun path => window.touches path.partition) _
      (fun path _ untouched => if_neg (by simp [untouched]))]
    apply List.flatMap_congr
    intro path member
    rw [if_pos (List.mem_filter.mp member).2]
  have everyEntry : (tape.keys.flatMap fun path =>
      if window.touches path.partition then shownAt tape bound window path else []) =
        (rowsShown tape bound window).filter readsBack := by
    unfold rowsShown
    rw [List.filter_flatMap, AList.keys, List.keys, List.flatMap_map]
    exact List.flatMap_congr perEntry
  refine ⟨((segmentsFor tape window).map fun listed =>
    shownAt tape bound window listed.2).flatten, ?_, ?_⟩
  · unfold view
    rw [if_neg (by omega), mapM_eq_ok yields]
    rfl
  · rw [← List.flatMap_def, ← everyEntry, ← touchedOnly, ← List.flatMap_map Prod.snd]
    exact (perm_segmentsFor parses).flatMap_right _

/-- A filter that leaves a permutation of its list leaves every item. -/
theorem perm_filter_iff {α : Type} {items : List α} {selects : α → Bool} :
    (items.filter selects).Perm items ↔ ∀ item ∈ items, selects item := by
  rw [← List.length_filter_eq_length_iff]
  constructor
  · exact List.Perm.length_eq
  · intro sameLength
    rw [List.filter_sublist.eq_of_length sameLength]

end Whole

/-! ## The reader is exact -/

/-- **A window is refused where it runs backwards, and otherwise is exactly the rows it shows,
where each of them is filed under a day of a year of four characters.** -/
theorem view_exact_iff (commits : List ((Nat → WriteFate) × List Row))
    (footers : TapeSegment → Footer) (bound : Bound) (window : Window)
    (truth : ∀ path segment, (committed commits).lookup path = some segment →
      TrueFooter (footers segment) segment) :
    (window.toMicros ≤ window.fromMicros →
      view footers bound (committed commits) window =
        .error (.backwards window.fromMicros window.toMicros)) ∧
    (window.fromMicros < window.toMicros →
      ((∃ rows, view footers bound (committed commits) window = .ok rows ∧
          rows.Perm (rowsShown (committed commits) bound window)) ↔
        ∀ row ∈ rowsShown (committed commits) bound window,
          -1000 < (civilFromDays (filedAt row / microsPerDay)).1 ∧
            (civilFromDays (filedAt row / microsPerDay)).1 < 10000)) := by
  constructor
  · intro backwards
    unfold view
    rw [if_pos backwards]
  · intro forward
    obtain ⟨rows, isView, perm⟩ :=
      @view_perm _ _ _ bound (fun path segment found => wellFormed_of_committed found)
        truth forward
    have condition : (∀ row ∈ rowsShown (committed commits) bound window,
        -1000 < (civilFromDays (filedAt row / microsPerDay)).1 ∧
          (civilFromDays (filedAt row / microsPerDay)).1 < 10000) ↔
        ∀ row ∈ rowsShown (committed commits) bound window, readsBack row := by
      simp only [readsBack, isSome_midnightOf_dateOf]
    rw [condition, ← perm_filter_iff]
    constructor
    · rintro ⟨found, isFound, exact⟩
      rw [isView] at isFound
      obtain rfl := Except.ok.inj isFound
      exact perm.symm.trans exact
    · intro kept
      exact ⟨rows, isView, perm.trans kept⟩

/-- The whole numbers of a column. -/
def intsOf (column : List Cell) : List Int :=
  column.filterMap fun
    | .int value => some value
    | _ => none

/-- The texts of a column. -/
def textsOf (column : List Cell) : List Text :=
  column.filterMap fun
    | .text value => some value
    | _ => none

/-- The bounds and the nulls of a column of whole numbers, and the bounds of one text. -/
def statisticsOf (column : List Cell) : Statistics :=
  match textsOf column with
  | [] => .int64 (intsOf column).min? (intsOf column).max? (some (column.count .null))
  | text :: others =>
      if ∀ other ∈ others, other = text then
        .byteArray (some (bytesOf text)) (some (bytesOf text))
      else .byteArray none none

/-- The footer that states every column of every row group. -/
def statedFooter (segment : TapeSegment) : Footer := fun index name => do
  let group ← segment.groups[index]?
  let column ← segment.batch.fields.findIdx? fun field => field.name = name
  return statisticsOf (group.map fun row => row.getD column .null)

theorem bytesLe_refl (bytes : List UInt8) : bytesLe bytes bytes = true := by
  induction bytes with
  | nil => rfl
  | cons first rest inductionHypothesis => simp [bytesLe, inductionHypothesis]

/-- A column that is found by its name is stated as it is. -/
theorem statedFooter_eq {segment : TapeSegment}
    (named : (segment.batch.fields.map Field.name).Nodup) {group : List (List Cell) × Nat}
    (isGroup : group ∈ segment.groups.zipIdx) {index : Nat} {field : Field}
    (isField : segment.batch.fields[index]? = some field) :
    statedFooter segment group.2 field.name =
      some (statisticsOf (group.1.map fun row => row.getD index .null)) := by
  obtain ⟨within, rfl⟩ := List.getElem?_eq_some_iff.mp isField
  have isIndex : (segment.batch.fields.findIdx? fun other =>
      other.name = segment.batch.fields[index].name) = some index := by
    refine List.findIdx?_eq_some_iff_getElem.mpr ⟨within, decide_eq_true rfl, ?_⟩
    intro earlier before same
    have inNames : index < (segment.batch.fields.map Field.name).length := by
      rwa [List.length_map]
    have sameName : (segment.batch.fields.map Field.name)[earlier] =
        (segment.batch.fields.map Field.name)[index] := by
      simpa using same
    exact absurd ((named.getElem_inj_iff).mp sameName) (Nat.ne_of_lt before)
  rw [statedFooter, List.mem_zipIdx_iff_getElem?.mp isGroup]
  simp only [Option.bind_eq_bind, Option.bind_some, isIndex]
  rfl

/-- What a footer states is true where no two columns share a name. -/
theorem trueFooter_statedFooter {segment : TapeSegment}
    (named : (segment.batch.fields.map Field.name).Nodup) :
    TrueFooter (statedFooter segment) segment := by
  have inColumn {group : List (List Cell)} {row : List Cell} (isRow : row ∈ group) (index : Nat) :
      row.getD index .null ∈ group.map fun row => row.getD index .null :=
    List.mem_map_of_mem isRow
  constructor
  · intro group isGroup index field least greatest nullCount isField isFooter row isRow value
      isValue
    rw [statedFooter_eq named isGroup isField, Option.some_inj, statisticsOf] at isFooter
    have member : value ∈ intsOf (group.1.map fun row => row.getD index .null) :=
      List.mem_filterMap.mpr ⟨_, inColumn isRow index, by rw [isValue]⟩
    split at isFooter
    · obtain ⟨isLeast, isGreatest, _⟩ := Statistics.int64.inj isFooter
      exact ⟨(List.min?_eq_some_iff.mp isLeast).2 value member,
        (List.max?_eq_some_iff.mp isGreatest).2 value member⟩
    · split at isFooter <;> cases isFooter
  · intro group isGroup index field least greatest isField isFooter row isRow isNull
    rw [statedFooter_eq named isGroup isField, Option.some_inj, statisticsOf] at isFooter
    split at isFooter
    · obtain ⟨_, _, isCount⟩ := Statistics.int64.inj isFooter
      have none := List.count_eq_zero.mp (Option.some.inj isCount)
      have member := inColumn isRow index
      rw [isNull] at member
      exact none member
    · split at isFooter <;> cases isFooter
  · intro group isGroup index field least greatest isField isFooter row isRow value isValue
    rw [statedFooter_eq named isGroup isField, Option.some_inj, statisticsOf] at isFooter
    have member : value ∈ textsOf (group.1.map fun row => row.getD index .null) :=
      List.mem_filterMap.mpr ⟨_, inColumn isRow index, by rw [isValue]⟩
    split at isFooter
    · cases isFooter
    · rename_i text others isTexts
      split at isFooter
      · rename_i one
        cases isFooter
        rw [isTexts] at member
        obtain rfl : value = text := (List.mem_cons.mp member).elim id (one value)
        exact ⟨bytesLe_refl _, bytesLe_refl _⟩
      · cases isFooter

/-- A quote dated by its venue. -/
def quoteDated (ticker : Ticker) (streamSeq : UInt64) (atMicros : Int) : Row :=
  ⟨streamSeq, 0, .new firstVenue ticker (some atMicros) 0
    (.quote ⟨some ⟨8121, 1⟩, none, none, none, none, none⟩)⟩

/-- The hour after a moment, of one instrument or of every one. -/
def hourFrom (fromMicros : Int) (ticker : Option Text) : Window :=
  ⟨.quotes, fromMicros, fromMicros + 3600000000, ticker⟩

/-- The hour after the epoch, of one instrument. -/
def epochHour : Window := hourFrom 0 (some btc.text)

/-- One quote of the epoch's hour, and others beside it in its segment: of a later hour, of
another instrument, and past the bound.  Then a segment of each alone, and one of the next day. -/
def eightQuotes : List ((Nat → WriteFate) × List Row) :=
  [[quoteDated btc 1 0, quoteDated btc 2 7200000000, quoteDated hype 3 0, quoteDated btc 9 0],
    [quoteDated btc 2 7200000000], [quoteDated hype 3 0], [quoteDated btc 10 0],
    [quoteDated btc 3 microsPerDay]].map fun rows => (fun _ => .committed, rows)

/-- A tape whose segments' columns have names apart has footers that are true. -/
theorem trueFooter_of_lookup {path : Segments.Path} {segment : TapeSegment}
    {commits : List ((Nat → WriteFate) × List Row)}
    (named : ∀ entry ∈ (committed commits).entries, (entry.2.batch.fields.map Field.name).Nodup)
    (found : (committed commits).lookup path = some segment) :
    TrueFooter (statedFooter segment) segment :=
  trueFooter_statedFooter (named _ (mem_entries_iff_lookup.mpr found))

/-- The window after the epoch is exactly the quote that lies in it. -/
theorem view_exact_iff_epoch :
    (quoteDated btc 1 0).cells.Perm
      (rowsShown (committed eightQuotes) (fun _ => some 3) epochHour) := by
  have truth : ∀ path segment, (committed eightQuotes).lookup path = some segment →
      TrueFooter (statedFooter segment) segment :=
    fun _ _ found => trueFooter_of_lookup (by decide +kernel) found
  have dated : ∀ row ∈ rowsShown (committed eightQuotes) (fun _ => some 3) epochHour,
      -1000 < (civilFromDays (filedAt row / microsPerDay)).1 ∧
        (civilFromDays (filedAt row / microsPerDay)).1 < 10000 := by
    intro row isShown
    obtain ⟨entry, isEntry, isShown⟩ := List.mem_flatMap.mp isShown
    have ofFewDays : ∀ entry ∈ (committed eightQuotes).entries, ∀ row ∈ entry.2.rows,
        -1000 < (civilFromDays (filedAt row / microsPerDay)).1 ∧
          (civilFromDays (filedAt row / microsPerDay)).1 < 10000 := by
      decide +kernel
    split at isShown
    · exact ofFewDays entry isEntry row (mem_shownOf.mp isShown).1
    · cases isShown
  obtain ⟨rows, isView, perm⟩ :=
    ((view_exact_iff eightQuotes statedFooter (fun _ => some 3) epochHour truth).2
      (by decide)).mpr dated
  have isOne : view statedFooter (fun _ => some 3) (committed eightQuotes) epochHour =
      .ok (quoteDated btc 1 0).cells := by
    decide +kernel
  obtain rfl := Except.ok.inj (isOne.symm.trans isView)
  exact perm

/-- The first moment of the year 10000. -/
def yearTenThousand : Int := 253402300800000000

/-- The tape that holds one quote of the year 10000. -/
def oneLateQuote : List ((Nat → WriteFate) × List Row) :=
  [(fun _ => .committed, [quoteDated btc 1 yearTenThousand])]

/-- A quote of the year 10000 lies in a window that does not return it. -/
theorem year_ten_thousand_unseen :
    ¬ ∀ (commits : List ((Nat → WriteFate) × List Row)) (footers : TapeSegment → Footer)
      (bound : Bound) (window : Window),
      (∀ path segment, (committed commits).lookup path = some segment →
        TrueFooter (footers segment) segment) →
      window.fromMicros < window.toMicros →
        ∃ rows, view footers bound (committed commits) window = .ok rows ∧
          rows.Perm (rowsShown (committed commits) bound window) := by
  intro exact
  obtain ⟨rows, isView, perm⟩ := exact oneLateQuote statedFooter (fun _ => some 1)
    (hourFrom yearTenThousand none)
    (fun _ _ found => trueFooter_of_lookup (by decide +kernel) found) (by decide)
  have nothing : view statedFooter (fun _ => some 1) (committed oneLateQuote)
      (hourFrom yearTenThousand none) = .ok [] := by
    decide +kernel
  obtain rfl : [] = rows := Except.ok.inj (nothing.symm.trans isView)
  have inTape : ∃ entry ∈ (committed oneLateQuote).entries,
      kindScope (hourFrom yearTenThousand none).kind ++ ['/'] <+: entry.1.partition ∧
        entry.2.rows = (quoteDated btc 1 yearTenThousand).cells := by
    decide +kernel
  obtain ⟨entry, isEntry, inside, isRows⟩ := inTape
  obtain ⟨ticker, shaped⟩ := @shaped_of_mem_cells (quoteDated btc 1 yearTenThousand)
    ((quoteDated btc 1 yearTenThousand).cells.getD 0 []) (by decide +kernel)
  have isShown : (quoteDated btc 1 yearTenThousand).cells.getD 0 [] ∈
      rowsShown (committed oneLateQuote) (fun _ => some 1) (hourFrom yearTenThousand none) := by
    apply List.mem_flatMap.mpr
    refine ⟨entry, isEntry, ?_⟩
    rw [if_pos inside, mem_shownOf, isRows]
    refine ⟨by decide +kernel, (shown_iff shaped _ _).mpr ⟨by decide +kernel, ?_, ?_, ?_⟩⟩
    · intro moment isMoment
      obtain rfl : yearTenThousand = moment := Option.some.inj isMoment
      decide
    · intro wanted isWanted
      cases isWanted
    · exact ⟨1, rfl, by decide⟩
  exact List.not_mem_nil (perm.mem_iff.mpr isShown)

end Tape
end Datawatch
