import Mathlib.Algebra.Order.Group.Multiset
import Datawatch.Segments.Superseded

/-!
# What a merge writes

The replacement's name spans the names of its inputs, and its rows are theirs.
-/

namespace Datawatch
namespace Segments

open Library Library.Directory

/-- Folding `min` from a start reaches the start or a value, below them all. -/
theorem foldl_min_spec [LinearOrder Value] (values : List Value) (start : Value) :
    values.foldl min start ≤ start ∧ (∀ value ∈ values, values.foldl min start ≤ value) ∧
      (values.foldl min start = start ∨ values.foldl min start ∈ values) := by
  induction values generalizing start with
  | nil => simp
  | cons first rest inductionHypothesis =>
      obtain ⟨belowStart, belowRest, reached⟩ := inductionHypothesis (min start first)
      simp only [List.foldl_cons, List.mem_cons]
      refine ⟨belowStart.trans (min_le_left _ _), ?_, ?_⟩
      · rintro value (rfl | inRest)
        · exact belowStart.trans (min_le_right _ _)
        · exact belowRest value inRest
      · rcases reached with atStart | inRest
        · rw [atStart]
          rcases min_choice start first with left | right
          · exact .inl left
          · exact .inr (.inl right)
        · exact .inr (.inr inRest)

/-- The dual of `foldl_min_spec`. -/
theorem foldl_max_spec [LinearOrder Value] (values : List Value) (start : Value) :
    start ≤ values.foldl max start ∧ (∀ value ∈ values, value ≤ values.foldl max start) ∧
      (values.foldl max start = start ∨ values.foldl max start ∈ values) :=
  @foldl_min_spec Valueᵒᵈ _ values start

theorem mem_arrivals {existing : Listing} {range : Int × Int} :
    range ∈ arrivals existing ↔
      ∃ pid flush name, (Cursor.time range.1 range.2 pid flush, name) ∈ existing := by
  simp only [arrivals, List.mem_filterMap]
  constructor
  · rintro ⟨⟨cursor, name⟩, member, selected⟩
    cases cursor with
    | time firstMicros lastMicros pid flush =>
        obtain rfl := Option.some.inj selected
        exact ⟨pid, flush, name, member⟩
    | block | seq => cases selected
  · rintro ⟨pid, flush, name, member⟩
    exact ⟨_, member, rfl⟩

/-- The span of a listing, as the unsigned positions a name carries. -/
theorem positionSpan_spec {existing : Listing} {lo hi : Nat}
    (span : positionSpan existing = some (lo, hi)) :
    (∃ entry ∈ existing, entry.1.firstPosition.toNat = lo) ∧
      (∃ entry ∈ existing, entry.1.lastPosition.toNat = hi) ∧
      ∀ entry ∈ existing, lo ≤ entry.1.firstPosition.toNat ∧
        entry.1.lastPosition.toNat ≤ hi := by
  simp only [positionSpan, Option.bind_eq_some_iff, Option.map_eq_some_iff, Prod.mk.injEq]
    at span
  obtain ⟨least, isLeast, greatest, isGreatest, rfl, rfl⟩ := span
  obtain ⟨leastMember, leastBelow⟩ := List.min?_eq_some_iff.mp isLeast
  obtain ⟨greatestMember, greatestAbove⟩ := List.max?_eq_some_iff.mp isGreatest
  obtain ⟨firstEntry, firstMember, firstEqual⟩ := List.mem_map.mp leastMember
  obtain ⟨lastEntry, lastMember, lastEqual⟩ := List.mem_map.mp greatestMember
  refine ⟨⟨firstEntry, firstMember, by rw [firstEqual]⟩,
    ⟨lastEntry, lastMember, by rw [lastEqual]⟩, fun entry member => ?_⟩
  have below := leastBelow _ (List.mem_map_of_mem member)
  have above := greatestAbove _ (List.mem_map_of_mem member)
  omega

/-- The positions of a cursor in range fit its unsigned fields. -/
theorem Cursor.InRange.position_toNat_lt {cursor : Cursor} (inRange : cursor.InRange) :
    cursor.firstPosition.toNat < 2 ^ 64 ∧ cursor.lastPosition.toNat < 2 ^ 64 := by
  cases cursor with
  | time firstMicros lastMicros pid flush =>
      obtain ⟨firstBounds, lastBounds, _⟩ := inRange
      simp only [firstPosition, lastPosition, i64Max] at *
      omega
  | block first last | seq first last =>
      simpa [firstPosition, lastPosition, InRange] using inRange

/-- The merged name of segments that parsed can be parsed again. -/
theorem inRange_of_mergedCursor_eq_some {existing : Listing} {merged : Cursor}
    (inRange : ∀ entry ∈ existing, entry.1.InRange)
    (isMerged : mergedCursor existing = some merged) : merged.InRange := by
  have spanInRange {lo hi : Nat} (span : positionSpan existing = some (lo, hi)) :
      lo < 2 ^ 64 ∧ hi < 2 ^ 64 := by
    obtain ⟨⟨first, firstMember, rfl⟩, ⟨last, lastMember, rfl⟩, _⟩ := positionSpan_spec span
    exact ⟨(inRange first firstMember).position_toNat_lt.1,
      (inRange last lastMember).position_toNat_lt.2⟩
  have timeBounds (range : Int × Int) (member : range ∈ arrivals existing) :
      (i64Min ≤ range.1 ∧ range.1 ≤ i64Max) ∧ i64Min ≤ range.2 ∧ range.2 ≤ i64Max := by
    obtain ⟨pid, flush, name, inExisting⟩ := mem_arrivals.mp member
    exact ⟨(inRange _ inExisting).1, (inRange _ inExisting).2.1⟩
  cases existing with
  | nil => cases isMerged
  | cons entry rest =>
      obtain ⟨cursor, name⟩ := entry
      cases cursor with
      | time firstMicros lastMicros pid flush =>
          obtain rfl := Option.some.inj isMerged
          refine ⟨?_, ?_, (inRange _ List.mem_cons_self).2.2.1, by decide⟩
          · obtain ⟨_, _, reached⟩ := foldl_min_spec
              ((arrivals ((Cursor.time firstMicros lastMicros pid flush, name) :: rest)).map
                Prod.fst) i64Max
            rcases reached with equal | member
            · rw [equal]
              decide
            · obtain ⟨range, rangeMember, equal⟩ := List.mem_map.mp member
              rw [← equal]
              exact (timeBounds range rangeMember).1
          · obtain ⟨_, _, reached⟩ := foldl_max_spec
              ((arrivals ((Cursor.time firstMicros lastMicros pid flush, name) :: rest)).map
                Prod.snd) i64Min
            rcases reached with equal | member
            · rw [equal]
              decide
            · obtain ⟨range, rangeMember, equal⟩ := List.mem_map.mp member
              rw [← equal]
              exact (timeBounds range rangeMember).2
      | block first last | seq first last =>
          simp only [mergedCursor, Option.map_eq_some_iff] at isMerged
          obtain ⟨⟨lo, hi⟩, span, rfl⟩ := isMerged
          exact spanInRange span

/-- The merged cursor has the variant of the first input. -/
theorem variant_mergedCursor {entry : Cursor × Text} {rest : Listing} {merged : Cursor}
    (isMerged : mergedCursor (entry :: rest) = some merged) :
    merged.variant = entry.1.variant := by
  obtain ⟨cursor, name⟩ := entry
  cases cursor with
  | time => obtain rfl := Option.some.inj isMerged; rfl
  | block | seq =>
      simp only [mergedCursor, Option.map_eq_some_iff] at isMerged
      obtain ⟨span, _, rfl⟩ := isMerged
      rfl

/-- Over inputs of one variant the merged range spans every input's. -/
theorem mergedCursor_spans {existing : Listing} {merged : Cursor}
    (isMerged : mergedCursor existing = some merged) {entry : Cursor × Text}
    (member : entry ∈ existing) (sameVariant : entry.1.variant = merged.variant) :
    merged.firstPosition ≤ entry.1.firstPosition ∧
      entry.1.lastPosition ≤ merged.lastPosition := by
  cases existing with
  | nil => cases member
  | cons head rest =>
      obtain ⟨headCursor, headName⟩ := head
      obtain ⟨cursor, name⟩ := entry
      cases headCursor with
      | time headFirst headLast pid flush =>
          obtain rfl := Option.some.inj isMerged
          cases cursor with
          | time firstMicros lastMicros otherPid otherFlush =>
              have arrived : (firstMicros, lastMicros) ∈
                  arrivals ((.time headFirst headLast pid flush, headName) :: rest) :=
                mem_arrivals.mpr ⟨_, _, _, member⟩
              exact ⟨(foldl_min_spec _ _).2.1 _ (List.mem_map_of_mem arrived),
                (foldl_max_spec _ _).2.1 _ (List.mem_map_of_mem arrived)⟩
          | block | seq => cases sameVariant
      | block headFirst headLast | seq headFirst headLast =>
          simp only [mergedCursor, Option.map_eq_some_iff] at isMerged
          obtain ⟨⟨lo, hi⟩, span, rfl⟩ := isMerged
          have bounds := (positionSpan_spec span).2.2 _ member
          cases cursor <;> cases sameVariant
          simp only [Cursor.firstPosition, Cursor.lastPosition, Int.toNat_natCast] at *
          omega

variable {Row : Type u} {Schema : Type v}

/-- Row groups lose no row. -/
theorem flatten_chunks {size rounds : Nat} (positive : 0 < size) {rows : List Row}
    (enough : rows.length ≤ rounds) : (chunks size rounds rows).flatten = rows := by
  induction rounds generalizing rows with
  | zero => simpa [chunks] using (List.length_eq_zero_iff.mp (Nat.le_zero.mp enough)).symm
  | succ rounds inductionHypothesis =>
      unfold chunks
      split
      · rename_i empty
        simp [empty]
      · have fewer : (rows.drop size).length ≤ rounds := by
          rw [List.length_drop]
          omega
        rw [List.flatten_cons, inductionHypothesis fewer, List.take_append_drop]

@[simp] theorem rows_writtenFile (schema : Schema) (rows : List Row) :
    (writtenFile schema rows).rows = rows :=
  flatten_chunks (by decide) le_rfl

/-- The rows of a file, whatever its name. -/
def fileRows (_ : Text) (file : SegmentFile Row Schema) : Multiset Row := file.rows

variable [DecidableEq Schema]

/-- What a writer was streamed is what its inputs hold. -/
theorem streamRows_spec {faults : Faults} {files : Partition Row Schema} {schema : Schema}
    {existing : Listing} {rows : List Row}
    (streamed : streamRows faults files schema existing = .ok rows) :
    (rows : Multiset Row) = ((existing.map Prod.snd).map (held fileRows files)).sum ∧
      ∀ name ∈ existing.map Prod.snd,
        ∃ file, files.lookup name = some file ∧ SchemaAgrees schema file := by
  induction existing generalizing rows with
  | nil =>
      obtain rfl := Except.ok.inj streamed
      simp
  | cons entry rest inductionHypothesis =>
      obtain ⟨cursor, name⟩ := entry
      simp only [streamRows] at streamed
      split at streamed
      · cases streamed
      · rename_i file read
        have found := lookup_of_readSegment_eq_some read
        split at streamed
        · rename_i agrees
          cases others : streamRows faults files schema rest with
          | error error => simp [others, Except.map] at streamed
          | ok restRows =>
              simp only [others, Except.map, Except.ok.injEq] at streamed
              obtain ⟨sumRest, foundRest⟩ := inductionHypothesis others
              refine ⟨?_, ?_⟩
              · rw [List.map_cons, List.map_cons, List.sum_cons, ← sumRest, held, found, ← streamed,
                  ← Multiset.coe_add]
                rfl
              · simp only [List.map_cons, List.mem_cons]
                rintro other (rfl | inRest)
                · exact ⟨file, found, agrees⟩
                · exact foundRest other inRest
        · cases streamed

/-- A merge that writes something writes its inputs' rows under their merged name. -/
theorem merge_spec {faults : Faults} {files : Partition Row Schema} {existing : Listing}
    {newName : Text} {file : SegmentFile Row Schema} {written : Nat}
    (merged : merge faults files existing = .ok (some (newName, file, written))) :
    ∃ cursor, mergedCursor existing = some cursor ∧ newName = cursor.fileName ∧
      (file.rows : Multiset Row) =
        ((existing.map Prod.snd).map (held fileRows files)).sum ∧
      ∀ name ∈ existing.map Prod.snd,
        ∃ input, files.lookup name = some input ∧ SchemaAgrees file.schema input := by
  unfold merge at merged
  split at merged
  · cases merged
  · cases merged
  · rename_i cursor firstCursor firstName rest isMerged
    split at merged
    · cases merged
    · rename_i first read
      split at merged
      · cases merged
      · cases streamed : streamRows faults files first.schema ((firstCursor, firstName) :: rest) with
        | error error => simp [streamed, Except.map] at merged
        | ok rows =>
            simp only [streamed, Except.map, Except.ok.injEq, Option.some.injEq,
              Prod.mk.injEq] at merged
            obtain ⟨rfl, rfl, _⟩ := merged
            obtain ⟨sumRows, found⟩ := streamRows_spec streamed
            exact ⟨cursor, isMerged, rfl, by rw [rows_writtenFile, sumRows], found⟩

end Segments
end Datawatch
