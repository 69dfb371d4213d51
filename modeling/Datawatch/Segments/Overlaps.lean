import Mathlib.Data.List.Chain
import Mathlib.Data.List.Pairwise
import Mathlib.Data.Set.Pairwise.List
import Datawatch.Segments.Tree

/-!
# Overlapping ranges

Segments whose position ranges overlap are how a redelivery shows up.  Only consecutive segments of
a listing are compared, within one partition and, where its segments carry a label, within one
value of it.
-/

namespace Datawatch
namespace Segments

open Library

/-- What a footer holds beside its schema: keys, each with a value or none.  A footer that will not
read holds nothing. -/
abbrev FooterMetadata := Option (List (Text × Option Text))

/-- The value a footer carries for a label, where it reads and carries one. -/
def labelIn (key : Text) (footer : FooterMetadata) : Option Text :=
  footer.bind fun pairs => (pairs.find? fun pair => pair.1 = key).bind Prod.snd

/-- Consecutive segments of one sorted listing whose ranges intersect. -/
def overlapsIn : Listing → List (Text × Text)
  | first :: second :: rest =>
      (if first.1.variant = second.1.variant ∧ second.1.firstPosition ≤ first.1.lastPosition then
        [(first.2, second.2)]
      else []) ++ overlapsIn (second :: rest)
  | _ => []

section Stores

variable {Content : Type u}

/-- Every partition of a subtree, one that holds segments, in path order. -/
def partitions (tree : Tree Content) (root : Text) : List Text :=
  let holding := (tree.keys.filter fun path =>
    Under root path.partition ∧ (Cursor.parse path.name).isSome).map Path.partition
  holding.dedup.insertionSort fun first second => components first ≤ components second

/-- Segments whose position ranges overlap. -/
def overlappingRanges (tree : Tree Content) (root : Text) : List (Path × Path) :=
  (partitions tree root).flatMap fun partition =>
    (overlapsIn (listSegments (namesIn tree partition))).map fun pair =>
      (⟨partition, pair.1⟩, ⟨partition, pair.2⟩)

variable (footerOf : Path → FooterMetadata) (key : Text)

/-- A partition's segments under each value of a label, in the values' order. -/
def streams (partition : Text) (listed : Listing) : List (Text × Listing) :=
  let values := listed.filterMap fun entry => labelIn key (footerOf ⟨partition, entry.2⟩)
  (values.dedup.insertionSort fun first second => first ≤ second).map fun value =>
    (value, listed.filter fun entry =>
      labelIn key (footerOf ⟨partition, entry.2⟩) = some value)

/-- Segments whose position ranges overlap within one value of a label, and those without the
label. -/
def overlappingRangesByLabel (tree : Tree Content) (root : Text) : List (Path × Path) × List Path :=
  let overlaps := (partitions tree root).flatMap fun partition =>
    (streams footerOf key partition (listSegments (namesIn tree partition))).flatMap fun stream =>
      (overlapsIn stream.2).map fun pair => (⟨partition, pair.1⟩, ⟨partition, pair.2⟩)
  let unlabelled := (partitions tree root).flatMap fun partition =>
    ((listSegments (namesIn tree partition)).filter fun entry =>
      labelIn key (footerOf ⟨partition, entry.2⟩) = none).map fun entry => ⟨partition, entry.2⟩
  (overlaps, unlabelled)

end Stores

/-- Whether two ranges of one variant share a position. -/
def Intersects (first second : Cursor) : Prop :=
  first.variant = second.variant ∧ first.firstPosition ≤ second.lastPosition ∧
    second.firstPosition ≤ first.lastPosition

theorem Intersects.symm {first second : Cursor} (intersects : Intersects first second) :
    Intersects second first :=
  ⟨intersects.1.symm, intersects.2.2, intersects.2.1⟩

/-- A range whose first position is at most its last. -/
def WellRanged (cursor : Cursor) : Prop := cursor.firstPosition ≤ cursor.lastPosition

/-- One segment's range ends before another's begins, where they are of one variant. -/
def Precedes (first second : Cursor × Text) : Prop :=
  WellRanged second.1 ∧ (first.1.variant.rank < second.1.variant.rank ∨
    first.1.variant = second.1.variant ∧ first.1.lastPosition < second.1.firstPosition)

theorem Precedes.trans {first second third : Cursor × Text} (before : Precedes first second)
    (after : Precedes second third) : Precedes first third := by
  obtain ⟨ranged, earlier⟩ := before
  obtain ⟨thirdRanged, later⟩ := after
  refine ⟨thirdRanged, ?_⟩
  unfold WellRanged at ranged
  rcases earlier with rankLess | ⟨variant, ends⟩
  · rcases later with rankLater | ⟨same, _⟩
    · exact .inl (rankLess.trans rankLater)
    · exact .inl (same ▸ rankLess)
  · rcases later with rankLater | ⟨same, ends'⟩
    · exact .inl (variant ▸ rankLater)
    · exact .inr ⟨variant.trans same, by omega⟩

instance : Trans Precedes Precedes Precedes := ⟨Precedes.trans⟩

/-- What ends before another does not intersect it. -/
theorem Precedes.not_intersects {first second : Cursor × Text}
    (before : Precedes first second) : ¬ Intersects first.1 second.1 := by
  rintro ⟨variant, _, stop⟩
  rcases before.2 with rankLess | ⟨_, ends⟩
  · rw [variant] at rankLess
    exact absurd rankLess (Nat.lt_irrefl _)
  · omega

/-- The order a listing stands in, by variant and then by where a range starts. -/
theorem le_of_listingKey_le {first second : Cursor × Text}
    (sorted : listingKey first ≤ listingKey second) :
    first.1.variant.rank < second.1.variant.rank ∨
      first.1.variant = second.1.variant ∧
        first.1.firstPosition ≤ second.1.firstPosition := by
  have startOf : ∀ cursor : Cursor, cursor.sortKey.1 = cursor.firstPosition := by
    intro cursor
    cases cursor <;> rfl
  rw [listingKey, listingKey, Prod.Lex.toLex_le_toLex, Prod.Lex.toLex_le_toLex,
    Variant.rank_injective.eq_iff, startOf, startOf] at sorted
  rcases sorted with rankLess | ⟨same, start | ⟨start, _⟩⟩
  · exact .inl rankLess
  · exact .inr ⟨same, start.le⟩
  · exact .inr ⟨same, start.le⟩

/-- Of two segments in order, the first ends before the second exactly where it is not reported to
overlap it. -/
theorem precedes_iff {first second : Cursor × Text}
    (sorted : listingKey first ≤ listingKey second) (ranged : WellRanged second.1) :
    Precedes first second ↔ ¬ (first.1.variant = second.1.variant ∧
      second.1.firstPosition ≤ first.1.lastPosition) := by
  constructor
  · rintro ⟨_, rankLess | ⟨_, ends⟩⟩ ⟨same, start⟩
    · rw [same] at rankLess
      exact absurd rankLess (Nat.lt_irrefl _)
    · omega
  · intro apart
    refine ⟨ranged, ?_⟩
    rcases le_of_listingKey_le sorted with rankLess | ⟨same, _⟩
    · exact .inl rankLess
    · exact .inr ⟨same, lt_of_not_ge fun start => apart ⟨same, start⟩⟩

/-- A listing in its order, of well-formed ranges. -/
structure Ordered (listed : Listing) : Prop where
  sorted : listed.Pairwise fun first second => listingKey first ≤ listingKey second
  ranged : ∀ entry ∈ listed, WellRanged entry.1

theorem Ordered.sublist {listed part : Listing} (ordered : Ordered listed)
    (within : part.Sublist listed) : Ordered part :=
  ⟨ordered.sorted.sublist within, fun entry member => ordered.ranged entry (within.subset member)⟩

/-- Consecutive segments are not reported exactly where each ends before the next. -/
theorem overlapsIn_eq_nil_iff {listed : Listing} (ordered : Ordered listed) :
    overlapsIn listed = [] ↔ listed.IsChain Precedes := by
  induction listed with
  | nil => simp [overlapsIn]
  | cons first rest inductionHypothesis =>
      cases rest with
      | nil => simp [overlapsIn]
      | cons second rest =>
          have tail := inductionHypothesis (ordered.sublist (List.sublist_cons_self _ _))
          have ends := @precedes_iff first second
            ((List.pairwise_cons.mp ordered.sorted).1 second List.mem_cons_self)
            (ordered.ranged second (List.mem_cons_of_mem _ List.mem_cons_self))
          rw [overlapsIn, List.append_eq_nil_iff, tail, List.isChain_cons_cons, ends]
          simp only [ite_eq_right_iff, List.cons_ne_nil, imp_false]

/-- **Nothing is reported exactly where no two segments of the listing intersect.**  A range that
spans several later ones overlaps the next of them. -/
theorem overlapsIn_eq_nil_iff_pairwise {listed : Listing} (ordered : Ordered listed) :
    overlapsIn listed = [] ↔
      listed.Pairwise fun first second => ¬ Intersects first.1 second.1 := by
  rw [overlapsIn_eq_nil_iff ordered, List.isChain_iff_pairwise]
  constructor
  · exact fun ends => ends.imp Precedes.not_intersects
  · intro apart
    refine (apart.and ordered.sorted).imp_of_mem ?_
    rintro first second isFirst isSecond ⟨notIntersects, sorted⟩
    rw [precedes_iff sorted (ordered.ranged second isSecond)]
    rintro ⟨same, start⟩
    apply notIntersects
    refine ⟨same, ?_, start⟩
    rcases le_of_listingKey_le sorted with rankLess | ⟨_, starts⟩
    · rw [same] at rankLess
      exact absurd rankLess (Nat.lt_irrefl _)
    · exact starts.trans (ordered.ranged second isSecond)

/-- What is reported is two segments of the listing, one before the other, that intersect. -/
theorem exists_of_mem_overlapsIn {listed : Listing} (ordered : Ordered listed)
    {pair : Text × Text} (member : pair ∈ overlapsIn listed) :
    ∃ first second : Cursor × Text, [first, second].Sublist listed ∧ pair = (first.2, second.2) ∧
      Intersects first.1 second.1 := by
  induction listed with
  | nil => simp [overlapsIn] at member
  | cons first rest inductionHypothesis =>
      cases rest with
      | nil => simp [overlapsIn] at member
      | cons second rest =>
          rw [overlapsIn] at member
          rcases List.mem_append.mp member with here | later
          · split at here
            · rename_i overlaps
              refine ⟨first, second, ((List.nil_sublist rest).cons_cons second).cons_cons first,
                List.mem_singleton.mp here, overlaps.1, ?_, overlaps.2⟩
              have ranged := ordered.ranged second (List.mem_cons_of_mem _ List.mem_cons_self)
              rcases le_of_listingKey_le ((List.pairwise_cons.mp ordered.sorted).1 second
                List.mem_cons_self) with rankLess | ⟨_, starts⟩
              · rw [overlaps.1] at rankLess
                exact absurd rankLess (Nat.lt_irrefl _)
              · exact starts.trans ranged
            · cases here
          · obtain ⟨one, other, within, isPair, intersects⟩ :=
              inductionHypothesis (ordered.sublist (List.sublist_cons_self _ _)) later
            exact ⟨one, other, within.cons first, isPair, intersects⟩

/-- Of a listing whose names are distinct, nothing is reported exactly where no two of its segments
intersect. -/
theorem overlapsIn_eq_nil_iff_forall {listed : Listing} (ordered : Ordered listed)
    (distinct : (listed.map Prod.snd).Nodup) :
    overlapsIn listed = [] ↔
      ∀ first ∈ listed, ∀ second ∈ listed, first ≠ second → ¬ Intersects first.1 second.1 := by
  have symmetric : Std.Symm fun first second : Cursor × Text => ¬ Intersects first.1 second.1 :=
    ⟨fun _ _ apart intersects => apart intersects.symm⟩
  rw [overlapsIn_eq_nil_iff_pairwise ordered, ← List.Nodup.pairwise_coe distinct.of_map]
  exact ⟨fun apart first isFirst second isSecond => apart isFirst isSecond,
    fun apart first isFirst second isSecond => apart first isFirst second isSecond⟩

section Stores

variable {Content : Type u} (tree : Tree Content) (root : Text)

/-- Whether a file of a subtree is a segment, under a cursor. -/
def SegmentAt (path : Path) (cursor : Cursor) : Prop :=
  path ∈ tree ∧ Under root path.partition ∧ Cursor.parse path.name = some cursor

/-- Whether two segments of one partition intersect. -/
def Overlap (pair : Path × Path) : Prop :=
  pair.1 ≠ pair.2 ∧ pair.1.partition = pair.2.partition ∧
    ∃ first second, SegmentAt tree root pair.1 first ∧ SegmentAt tree root pair.2 second ∧
      Intersects first second

/-- Whether two files carry one value of a label. -/
def SameLabel (footerOf : Path → FooterMetadata) (key : Text) (pair : Path × Path) : Prop :=
  ∃ value, labelIn key (footerOf pair.1) = some value ∧ labelIn key (footerOf pair.2) = some value

/-- Every segment of a subtree has a well-formed range. -/
def AllRanged : Prop := ∀ path cursor, SegmentAt tree root path cursor → WellRanged cursor

variable {tree root}

/-- A partition is listed exactly where a segment of the subtree lies in it. -/
theorem mem_partitions {partition : Text} :
    partition ∈ partitions tree root ↔
      ∃ path cursor, SegmentAt tree root path cursor ∧ path.partition = partition := by
  simp only [partitions, List.mem_insertionSort, List.mem_dedup, List.mem_map, List.mem_filter,
    decide_eq_true_eq, Option.isSome_iff_exists]
  constructor
  · rintro ⟨path, ⟨inTree, inScope, cursor, parsed⟩, same⟩
    exact ⟨path, cursor, ⟨inTree, inScope, parsed⟩, same⟩
  · rintro ⟨path, cursor, ⟨inTree, inScope, parsed⟩, same⟩
    exact ⟨path, ⟨inTree, inScope, cursor, parsed⟩, same⟩

/-- What a partition of the subtree lists are its segments. -/
theorem mem_listing_iff {partition name : Text} {cursor : Cursor}
    (inScope : Under root partition) :
    (cursor, name) ∈ listSegments (namesIn tree partition) ↔
      SegmentAt tree root ⟨partition, name⟩ cursor := by
  rw [mem_listSegments, mem_namesIn]
  exact ⟨fun listed => ⟨listed.1, inScope, listed.2⟩, fun segment => ⟨segment.1, segment.2.2⟩⟩

theorem under_of_mem_partitions {partition : Text} (member : partition ∈ partitions tree root) :
    Under root partition := by
  obtain ⟨path, cursor, segment, rfl⟩ := mem_partitions.mp member
  exact segment.2.1

/-- A partition's listing is in order. -/
theorem ordered_listing (ranged : AllRanged tree root) {partition : Text}
    (inScope : Under root partition) : Ordered (listSegments (namesIn tree partition)) := by
  constructor
  · exact List.pairwise_insertionSort _ _
  · rintro ⟨cursor, name⟩ member
    exact ranged _ cursor ((mem_listing_iff inScope).mp member)

/-- What some of a partition's segments report are segments of it that overlap. -/
theorem overlap_of_mem {partition : Text} {part : Listing} (ranged : AllRanged tree root)
    (inScope : Under root partition) (within : part.Sublist (listSegments (namesIn tree partition)))
    {pair : Text × Text} (member : pair ∈ overlapsIn part) :
    Overlap tree root (⟨partition, pair.1⟩, ⟨partition, pair.2⟩) ∧
      (∃ cursor, (cursor, pair.1) ∈ part) ∧ ∃ cursor, (cursor, pair.2) ∈ part := by
  obtain ⟨first, second, inPart, rfl, intersects⟩ :=
    exists_of_mem_overlapsIn ((ordered_listing ranged inScope).sublist within) member
  have isFirst : first ∈ part := inPart.subset List.mem_cons_self
  have isSecond : second ∈ part := inPart.subset (List.mem_cons_of_mem _ List.mem_cons_self)
  refine ⟨⟨?_, rfl, first.1, second.1, (mem_listing_iff inScope).mp (within.subset isFirst),
    (mem_listing_iff inScope).mp (within.subset isSecond), intersects⟩, ⟨first.1, isFirst⟩,
    second.1, isSecond⟩
  intro samePath
  have distinct := ((inPart.trans within).map Prod.snd).nodup
    (nodup_names_listSegments (nodup_namesIn tree partition))
  have sameName : first.2 = second.2 := (Path.mk.inj samePath).2
  simp [sameName] at distinct

/-- Some of a partition's segments report nothing exactly where none of them overlap. -/
theorem overlapsIn_part_eq_nil_iff {partition : Text} {part : Listing}
    (ranged : AllRanged tree root) (inScope : Under root partition)
    (within : part.Sublist (listSegments (namesIn tree partition))) :
    overlapsIn part = [] ↔
      ∀ first ∈ part, ∀ second ∈ part, first.2 ≠ second.2 → ¬ Intersects first.1 second.1 := by
  rw [overlapsIn_eq_nil_iff_forall ((ordered_listing ranged inScope).sublist within)
    ((within.map Prod.snd).nodup (nodup_names_listSegments (nodup_namesIn tree partition)))]
  constructor
  · intro apart first isFirst second isSecond different
    exact apart first isFirst second isSecond fun same => different (congrArg Prod.snd same)
  · intro apart first isFirst second isSecond different
    apply apart first isFirst second isSecond
    intro sameName
    apply different
    have firstParsed := (mem_listSegments.mp (within.subset isFirst)).2
    have secondParsed := (mem_listSegments.mp (within.subset isSecond)).2
    rw [sameName, secondParsed] at firstParsed
    exact Prod.ext (Option.some.inj firstParsed).symm sameName

/-- A segment of a partition under one value of a label is in that value's stream. -/
theorem mem_streams {footerOf : Path → FooterMetadata} {key partition value : Text}
    {listed part : Listing} :
    (value, part) ∈ streams footerOf key partition listed ↔
      (∃ entry ∈ listed, labelIn key (footerOf ⟨partition, entry.2⟩) = some value) ∧
        part = listed.filter fun entry =>
          labelIn key (footerOf ⟨partition, entry.2⟩) = some value := by
  simp only [streams, List.mem_map, List.mem_insertionSort, List.mem_dedup, List.mem_filterMap,
    Prod.mk.injEq]
  constructor
  · rintro ⟨_, isValue, rfl, rfl⟩
    exact ⟨isValue, rfl⟩
  · rintro ⟨isValue, rfl⟩
    exact ⟨value, isValue, rfl, rfl⟩

/-- **The overlap check reports exactly what overlaps, and by label what overlaps within one value
of the label; each segment is in its value's stream or without the label.** -/
theorem overlaps_exact (ranged : AllRanged tree root) (footerOf : Path → FooterMetadata)
    (key : Text) :
    (overlappingRanges tree root = [] ↔ ∀ pair, ¬ Overlap tree root pair) ∧
      (∀ pair ∈ overlappingRanges tree root, Overlap tree root pair) ∧
      ((overlappingRangesByLabel footerOf key tree root).1 = [] ↔
        ∀ pair, Overlap tree root pair → ¬ SameLabel footerOf key pair) ∧
      (∀ pair ∈ (overlappingRangesByLabel footerOf key tree root).1,
        Overlap tree root pair ∧ SameLabel footerOf key pair) ∧
      ∀ path cursor, SegmentAt tree root path cursor →
        (path ∈ (overlappingRangesByLabel footerOf key tree root).2 ↔
          labelIn key (footerOf path) = none) ∧
        ∀ value, labelIn key (footerOf path) = some value →
          ∃ listed, (value, listed) ∈ streams footerOf key path.partition
            (listSegments (namesIn tree path.partition)) ∧ (cursor, path.name) ∈ listed := by
  have reported : ∀ partition ∈ partitions tree root, ∀ stream ∈ streams footerOf key partition
      (listSegments (namesIn tree partition)), ∀ names ∈ overlapsIn stream.2,
        Overlap tree root (⟨partition, names.1⟩, ⟨partition, names.2⟩) ∧
          SameLabel footerOf key (⟨partition, names.1⟩, ⟨partition, names.2⟩) := by
    rintro partition isPartition ⟨value, part⟩ isStream names isReported
    obtain rfl := (mem_streams.mp isStream).2
    obtain ⟨overlap, ⟨_, inFirst⟩, _, inSecond⟩ := overlap_of_mem ranged
      (under_of_mem_partitions isPartition) List.filter_sublist isReported
    exact ⟨overlap, value, of_decide_eq_true (List.mem_filter.mp inFirst).2,
      of_decide_eq_true (List.mem_filter.mp inSecond).2⟩
  refine ⟨?_, ?_, ?_, ?_, ?_⟩
  · simp only [overlappingRanges, List.flatMap_eq_nil_iff, List.map_eq_nil_iff]
    constructor
    · rintro none ⟨⟨partition, firstName⟩, ⟨other, secondName⟩⟩
        ⟨different, samePartition, first, second, isFirst, isSecond, intersects⟩
      obtain rfl : partition = other := samePartition
      have inScope := isFirst.2.1
      have empty := none partition (mem_partitions.mpr ⟨_, first, isFirst, rfl⟩)
      rw [overlapsIn_part_eq_nil_iff ranged inScope (List.Sublist.refl _)] at empty
      refine empty (first, firstName) ((mem_listing_iff inScope).mpr isFirst) (second, secondName)
        ((mem_listing_iff inScope).mpr isSecond) ?_ intersects
      intro sameName
      exact different (congrArg (Path.mk partition) sameName)
    · intro apart partition isPartition
      have inScope := under_of_mem_partitions isPartition
      apply List.eq_nil_iff_forall_not_mem.mpr
      intro pair member
      exact apart _ (overlap_of_mem ranged inScope (List.Sublist.refl _) member).1
  · intro pair member
    simp only [overlappingRanges, List.mem_flatMap, List.mem_map] at member
    obtain ⟨partition, isPartition, names, isReported, rfl⟩ := member
    exact (overlap_of_mem ranged (under_of_mem_partitions isPartition) (List.Sublist.refl _)
      isReported).1
  · simp only [overlappingRangesByLabel, List.flatMap_eq_nil_iff, List.map_eq_nil_iff]
    constructor
    · rintro none ⟨⟨partition, firstName⟩, ⟨other, secondName⟩⟩
        ⟨different, samePartition, first, second, isFirst, isSecond, intersects⟩
        ⟨value, firstLabel, secondLabel⟩
      obtain rfl : partition = other := samePartition
      have inScope := isFirst.2.1
      have firstListed := (mem_listing_iff inScope).mpr isFirst
      have secondListed := (mem_listing_iff inScope).mpr isSecond
      have empty := none partition (mem_partitions.mpr ⟨_, first, isFirst, rfl⟩) (value, _)
        (mem_streams.mpr ⟨⟨_, firstListed, firstLabel⟩, rfl⟩)
      rw [overlapsIn_part_eq_nil_iff ranged inScope List.filter_sublist] at empty
      refine empty (first, firstName)
        (List.mem_filter.mpr ⟨firstListed, decide_eq_true firstLabel⟩) (second, secondName)
        (List.mem_filter.mpr ⟨secondListed, decide_eq_true secondLabel⟩) ?_ intersects
      intro sameName
      exact different (congrArg (Path.mk partition) sameName)
    · intro apart partition isPartition stream isStream
      apply List.eq_nil_iff_forall_not_mem.mpr
      intro pair member
      obtain ⟨overlap, sameLabel⟩ := reported partition isPartition stream isStream pair member
      exact apart _ overlap sameLabel
  · intro pair member
    simp only [overlappingRangesByLabel, List.mem_flatMap, List.mem_map] at member
    obtain ⟨partition, isPartition, stream, isStream, names, isReported, rfl⟩ := member
    exact reported partition isPartition stream isStream names isReported
  · intro path cursor segment
    have listed : (cursor, path.name) ∈ listSegments (namesIn tree path.partition) :=
      (mem_listing_iff segment.2.1).mpr segment
    refine ⟨?_, ?_⟩
    · simp only [overlappingRangesByLabel, List.mem_flatMap, List.mem_map, List.mem_filter,
        decide_eq_true_eq]
      constructor
      · rintro ⟨partition, _, entry, ⟨_, unlabelled⟩, rfl⟩
        exact unlabelled
      · intro unlabelled
        exact ⟨path.partition, mem_partitions.mpr ⟨path, cursor, segment, rfl⟩, (cursor, path.name),
          ⟨listed, unlabelled⟩, rfl⟩
    · intro value isLabel
      exact ⟨_, mem_streams.mpr ⟨⟨_, listed, isLabel⟩, rfl⟩,
        List.mem_filter.mpr ⟨listed, by simpa using isLabel⟩⟩

end Stores

/-- A day whose first segment spans two later ones that do not overlap each other. -/
def spanningDay : Tree Unit :=
  Directory.ofList ([Cursor.seq 0 90, .seq 10 20, .seq 30 95, .seq 200 210].map fun cursor =>
    (⟨"kind=quotes/date=2026-09-21".toList, cursor.fileName⟩, ()))

/-- One pair is reported of a range that spans several, and the segments are all unlabelled where
no footer reads. -/
theorem overlaps_exact_spanningDay :
    AllRanged spanningDay [] ∧ (overlappingRanges spanningDay []).length = 1 ∧
      (∃ pair, Overlap spanningDay [] pair) ∧
      ∀ pair, Overlap spanningDay [] pair → ¬ SameLabel (fun _ => none) "venue".toList pair := by
  have ranged : AllRanged spanningDay [] := by
    rintro path cursor ⟨inTree, _, parsed⟩
    have each : ∀ path ∈ spanningDay.keys, (Cursor.parse path.name).all (fun cursor =>
        decide (cursor.firstPosition ≤ cursor.lastPosition)) = true := by
      decide +kernel
    have here := each path inTree
    rw [parsed, Option.all_some, decide_eq_true_eq] at here
    exact here
  obtain ⟨wholly, _, byLabel, _⟩ := overlaps_exact ranged (fun _ => none) "venue".toList
  have one : (overlappingRanges spanningDay []).length = 1 := by decide +kernel
  refine ⟨ranged, one, ?_, byLabel.mp (by decide +kernel)⟩
  by_contra none
  rw [wholly.mpr (not_exists.mp none)] at one
  cases one

end Segments
end Datawatch
