import Mathlib.Data.List.Sort
import Datawatch.Library.Directory
import Datawatch.Segments.Cursor

/-!
# Segment files and partition listings

A partition is a directory of named files.  A listing answers from the names
alone; a read answers from a file's row groups.
-/

namespace Datawatch
namespace Segments

open Library

/-- What a committed file holds: one schema, and rows in row groups. -/
structure SegmentFile (Row : Type u) (Schema : Type v) where
  schema : Schema
  groups : List (List Row)
deriving DecidableEq

/-- Every row of a file, in order. -/
def SegmentFile.rows (file : SegmentFile Row Schema) : List Row := file.groups.flatten

/-- A partition's directory: names and the files under them. -/
abbrev Partition (Row : Type u) (Schema : Type v) := Directory Text (SegmentFile Row Schema)

/-- A listing: each committed segment's cursor with its name. -/
abbrev Listing := List (Cursor × Text)

/-- The key `list_segments` sorts by: the variant, then the cursor's sort key. -/
def listingKey (entry : Cursor × Text) : Nat ×ₗ Int ×ₗ Nat :=
  toLex (entry.1.variant.rank, toLex (entry.1.sortKey.1, entry.1.sortKey.2))

/-- Every committed segment among the names `readdir` returned, oldest first. -/
def listSegments (names : List Text) : Listing :=
  (names.filterMap fun name => (Cursor.parse name).map fun cursor => (cursor, name)).insertionSort
    fun first second => listingKey first ≤ listingKey second

/-- The first variant of a listing and the first that differs from it. -/
def mixedIn : Listing → Option (Variant × Variant)
  | [] => none
  | (cursor, _) :: rest =>
      (rest.find? fun entry => entry.1.variant ≠ cursor.variant).map fun entry =>
        (cursor.variant, entry.1.variant)

/-- A name is listed, under the cursor it parses to, exactly when it was read. -/
theorem mem_listSegments {names : List Text} {entry : Cursor × Text} :
    entry ∈ listSegments names ↔
      entry.2 ∈ names ∧ Cursor.parse entry.2 = some entry.1 := by
  obtain ⟨cursor, name⟩ := entry
  simp only [listSegments, List.mem_insertionSort, List.mem_filterMap, Option.map_eq_some_iff,
    Prod.mk.injEq]
  constructor
  · rintro ⟨other, member, parsed, isParsed, rfl, rfl⟩
    exact ⟨member, isParsed⟩
  · rintro ⟨member, isParsed⟩
    exact ⟨name, member, cursor, isParsed, rfl, rfl⟩

/-- Distinct names are listed once each. -/
theorem nodup_names_listSegments {names : List Text} (distinct : names.Nodup) :
    ((listSegments names).map Prod.snd).Nodup := by
  have unsorted : ((names.filterMap fun name =>
      (Cursor.parse name).map fun cursor => (cursor, name)).map Prod.snd).Nodup := by
    induction names with
    | nil => exact List.nodup_nil
    | cons name names inductionHypothesis =>
        obtain ⟨fresh, distinctRest⟩ := List.nodup_cons.mp distinct
        have rest := inductionHypothesis distinctRest
        cases parsed : Cursor.parse name with
        | none => simpa [parsed] using rest
        | some cursor =>
            simp only [List.filterMap_cons, parsed, Option.map_some, List.map_cons,
              List.nodup_cons]
            refine ⟨?_, rest⟩
            simp only [List.mem_map, List.mem_filterMap, Option.map_eq_some_iff]
            rintro ⟨entry, ⟨other, member, _, _, rfl⟩, rfl⟩
            exact fresh member
  exact ((List.perm_insertionSort _ _).map Prod.snd).nodup_iff.mpr unsorted

/-- A listing that is not mixed holds one variant. -/
theorem variant_eq_of_mixedIn_eq_none {listed : Listing} (notMixed : mixedIn listed = none)
    {first second : Cursor × Text} (firstMember : first ∈ listed)
    (secondMember : second ∈ listed) : first.1.variant = second.1.variant := by
  cases listed with
  | nil => cases firstMember
  | cons head rest =>
      have asHead (entry : Cursor × Text) (member : entry ∈ head :: rest) :
          entry.1.variant = head.1.variant := by
        rcases List.mem_cons.mp member with rfl | inRest
        · rfl
        · simp only [mixedIn, Option.map_eq_none_iff, List.find?_eq_none] at notMixed
          simpa using notMixed entry inRest
      rw [asHead first firstMember, asHead second secondMember]

variable {Row : Type u} {Schema : Type v}

/-- The bounds a row group's footer carries for the pruned column, where every
row has it. -/
def statistics (recvMicros : Row → Option Int) (group : List Row) : Option (Int × Int) :=
  (group.mapM recvMicros).bind fun times =>
    times.min?.bind fun lo => times.max?.map fun hi => (lo, hi)

/-- Whether a row group can hold a row in `[from, to)`: `true` whenever it cannot
be ruled out. -/
def intersects (recvMicros : Row → Option Int) (fromMicros toMicros : Int) (group : List Row) :
    Bool :=
  match statistics recvMicros group with
  | some (lo, hi) => decide (fromMicros ≤ hi ∧ lo < toMicros)
  | none => true

/-- The rows of the row groups a range read selects. -/
def readRange (recvMicros : Row → Option Int) (fromMicros toMicros : Int)
    (file : SegmentFile Row Schema) : List Row :=
  (file.groups.filter (intersects recvMicros fromMicros toMicros)).flatten

/-- Where every row has the column, each row's time is among the times. -/
theorem exists_time_of_mapM_eq_some {recvMicros : Row → Option Int} {group : List Row}
    {times : List Int} (mapped : group.mapM recvMicros = some times)
    {row : Row} (member : row ∈ group) :
    ∃ time ∈ times, recvMicros row = some time := by
  induction group generalizing times with
  | nil => cases member
  | cons first rest inductionHypothesis =>
      simp only [List.mapM_cons, Option.bind_eq_bind, Option.bind_eq_some_iff,
        Option.pure_def, Option.some.injEq] at mapped
      obtain ⟨time, isTime, others, restMapped, rfl⟩ := mapped
      rcases List.mem_cons.mp member with rfl | inRest
      · exact ⟨time, List.mem_cons_self, isTime⟩
      · obtain ⟨found, foundMember, isFound⟩ := inductionHypothesis restMapped inRest
        exact ⟨found, List.mem_cons_of_mem _ foundMember, isFound⟩

/-- A row group holding a row of the range is read. -/
theorem intersects_of_mem {recvMicros : Row → Option Int} {fromMicros toMicros : Int}
    {group : List Row} {row : Row} (member : row ∈ group)
    (inside : ∀ time ∈ recvMicros row, fromMicros ≤ time ∧ time < toMicros) :
    intersects recvMicros fromMicros toMicros group = true := by
  unfold intersects
  cases bounds : statistics recvMicros group with
  | none => rfl
  | some pair =>
      obtain ⟨lo, hi⟩ := pair
      simp only [statistics, Option.bind_eq_some_iff, Option.map_eq_some_iff,
        Prod.mk.injEq] at bounds
      obtain ⟨times, mapped, lo', isMin, hi', isMax, rfl, rfl⟩ := bounds
      obtain ⟨time, timeMember, isTime⟩ :
          ∃ time ∈ times, recvMicros row = some time :=
        exists_time_of_mapM_eq_some mapped member
      have bounds := inside time isTime
      have below := (List.min?_eq_some_iff.mp isMin).2 time timeMember
      have above := (List.max?_eq_some_iff.mp isMax).2 time timeMember
      simp only [decide_eq_true_eq]
      omega

/-- A range read drops no copy of a row in the range. -/
theorem count_readRange [DecidableEq Row] {recvMicros : Row → Option Int}
    {fromMicros toMicros : Int} {row : Row}
    (inside : ∀ time ∈ recvMicros row, fromMicros ≤ time ∧ time < toMicros)
    (file : SegmentFile Row Schema) :
    (readRange recvMicros fromMicros toMicros file).count row = file.rows.count row := by
  unfold readRange SegmentFile.rows
  induction file.groups with
  | nil => rfl
  | cons group groups inductionHypothesis =>
      by_cases member : row ∈ group
      · have selected := intersects_of_mem member inside
        simp [selected, inductionHypothesis]
      · have absent : group.count row = 0 := List.count_eq_zero.mpr member
        by_cases selected : intersects recvMicros fromMicros toMicros group
        · simp [selected, inductionHypothesis]
        · simp [selected, inductionHypothesis, absent]

end Segments
end Datawatch
