import Datawatch.Segments.Compact

/-!
# What a superseded segment is

Every name the sweep and the proof select is held, row for row, by a listed
segment that is not itself selected.
-/

namespace Datawatch
namespace Segments

open Library Library.Directory

/-- Each pair of the sweep is a swept segment with a container that strictly
contains it. -/
theorem contains_of_mem_sweep {widest : Option (Cursor × Text)} {swept : Listing}
    {pair : Cursor × Text × Text} (member : pair ∈ sweep widest swept) :
    (pair.1, pair.2.1) ∈ swept ∧
      ∃ container ∈ widest.toList ++ swept,
        container.2 = pair.2.2 ∧ Contains container (pair.1, pair.2.1) := by
  induction swept generalizing widest with
  | nil => cases widest <;> cases member
  | cons entry rest inductionHypothesis =>
      cases widest with
      | none =>
          obtain ⟨inRest, container, containerMember, named, contains⟩ :=
            inductionHypothesis member
          exact ⟨List.mem_cons_of_mem _ inRest, container, containerMember, named, contains⟩
      | some widest =>
          by_cases wider : Contains widest entry
          · simp only [sweep, if_pos wider, List.mem_cons] at member
            rcases member with rfl | inRest
            · exact ⟨List.mem_cons_self, widest, List.mem_cons_self, rfl, wider⟩
            · obtain ⟨inSwept, container, containerMember, named, contains⟩ :=
                inductionHypothesis inRest
              refine ⟨List.mem_cons_of_mem _ inSwept, container, ?_, named, contains⟩
              simp only [Option.toList_some, List.singleton_append, List.mem_cons]
                at containerMember ⊢
              tauto
          · simp only [sweep, if_neg wider] at member
            obtain ⟨inSwept, container, containerMember, named, contains⟩ :=
              inductionHypothesis member
            exact ⟨List.mem_cons_of_mem _ inSwept, container,
              List.mem_cons_of_mem _ containerMember, named, contains⟩

/-- The names a sweep can take a container from. -/
theorem container_mem_of_mem_sweep {widest : Option (Cursor × Text)} {swept : Listing}
    {pair : Cursor × Text × Text} (member : pair ∈ sweep widest swept) :
    pair.2.2 ∈ (widest.toList ++ swept).map Prod.snd := by
  obtain ⟨_, container, containerMember, named, _⟩ := contains_of_mem_sweep member
  exact List.mem_map.mpr ⟨container, containerMember, named⟩

theorem contained_mem_of_mem_sweep {widest : Option (Cursor × Text)} {swept : Listing}
    {pair : Cursor × Text × Text} (member : pair ∈ sweep widest swept) :
    pair.2.1 ∈ swept.map Prod.snd :=
  List.mem_map.mpr ⟨_, (contains_of_mem_sweep member).1, rfl⟩

/-- A container is never itself found contained: what is contained does not
become the widest. -/
theorem container_ne_contained {widest : Option (Cursor × Text)} {swept : Listing}
    (distinct : ((widest.toList ++ swept).map Prod.snd).Nodup)
    {first second : Cursor × Text × Text}
    (firstMember : first ∈ sweep widest swept) (secondMember : second ∈ sweep widest swept) :
    first.2.2 ≠ second.2.1 := by
  induction swept generalizing widest with
  | nil => cases widest <;> cases firstMember
  | cons entry rest inductionHypothesis =>
      cases widest with
      | none => exact inductionHypothesis distinct firstMember secondMember
      | some widest =>
          simp only [Option.toList_some, List.singleton_append, List.map_cons,
            List.nodup_cons, List.mem_cons, not_or] at distinct
          obtain ⟨⟨apart, widestFresh⟩, entryFresh, restDistinct⟩ := distinct
          by_cases wider : Contains widest entry
          · have kept : ((Option.toList (some widest) ++ rest).map Prod.snd).Nodup :=
              List.nodup_cons.mpr ⟨widestFresh, restDistinct⟩
            simp only [sweep, if_pos wider, List.mem_cons] at firstMember secondMember
            rcases firstMember with rfl | firstInRest <;>
              rcases secondMember with rfl | secondInRest
            · exact apart
            · intro same
              exact widestFresh (same ▸ contained_mem_of_mem_sweep secondInRest)
            · intro same
              have among := container_mem_of_mem_sweep firstInRest
              rw [same] at among
              rcases List.mem_cons.mp among with isWidest | inRest
              · exact apart isWidest.symm
              · exact entryFresh inRest
            · exact inductionHypothesis kept firstInRest secondInRest
          · have moved : ((Option.toList (some entry) ++ rest).map Prod.snd).Nodup :=
              List.nodup_cons.mpr ⟨entryFresh, restDistinct⟩
            simp only [sweep, if_neg wider] at firstMember secondMember
            exact inductionHypothesis moved firstMember secondMember

variable {Row : Type u} {Schema : Type v} [DecidableEq Row] [DecidableEq Schema]

omit [DecidableEq Row] [DecidableEq Schema] in
/-- A read that succeeds found the file. -/
theorem lookup_of_readSegment_eq_some {fails : Text → Bool} {files : Partition Row Schema}
    {name : Text} {file : SegmentFile Row Schema}
    (read : readSegment fails files name = some file) : files.lookup name = some file := by
  unfold readSegment at read
  split at read
  · contradiction
  · exact read

/-- What is proven is a sublist of what was asked. -/
theorem spend_sublist (faults : Faults) (files : Partition Row Schema) (schema : Schema)
    (available : Multiset Row) (contained : Listing) :
    (spend faults files schema available contained).Sublist (contained.map Prod.snd) := by
  induction contained generalizing available with
  | nil => exact List.Sublist.slnil
  | cons entry rest inductionHypothesis =>
      simp only [spend, List.map_cons]
      split
      · exact (inductionHypothesis available).cons _
      · split
        · exact (inductionHypothesis _).cons_cons _
        · exact (inductionHypothesis available).cons _

/-- Every row of a proven segment is among the rows it was proven against. -/
theorem rows_le_of_mem_spend {faults : Faults} {files : Partition Row Schema} {schema : Schema}
    {available : Multiset Row} {contained : Listing} {name : Text}
    (member : name ∈ spend faults files schema available contained) :
    ∃ file, files.lookup name = some file ∧ (file.rows : Multiset Row) ≤ available := by
  induction contained generalizing available with
  | nil => cases member
  | cons entry rest inductionHypothesis =>
      simp only [spend] at member
      split at member
      · exact inductionHypothesis member
      · rename_i file read
        split at member
        · rename_i proven
          rcases List.mem_cons.mp member with rfl | inRest
          · exact ⟨file, lookup_of_readSegment_eq_some read, proven.2⟩
          · obtain ⟨other, found, below⟩ := inductionHypothesis inRest
            exact ⟨other, found, below.trans (Multiset.sub_le_self _ _)⟩
        · exact inductionHypothesis member

omit [DecidableEq Row] [DecidableEq Schema] in
/-- A range read returns some of the file's rows. -/
theorem readRange_sublist (recvMicros : Row → Option Int) (fromMicros toMicros : Int)
    (file : SegmentFile Row Schema) :
    (readRange recvMicros fromMicros toMicros file).Sublist file.rows := by
  unfold readRange SegmentFile.rows
  induction file.groups with
  | nil => exact List.Sublist.slnil
  | cons group groups inductionHypothesis =>
      rw [List.filter_cons]
      split
      · exact (List.Sublist.refl group).append inductionHypothesis
      · exact inductionHypothesis.trans (List.sublist_append_right _ _)

omit [DecidableEq Row] [DecidableEq Schema] in
theorem overlapRows_sublist (recvMicros : Row → Option Int) (contained : Listing)
    (file : SegmentFile Row Schema) :
    (overlapRows recvMicros contained file).Sublist file.rows := by
  unfold overlapRows
  split
  · exact readRange_sublist recvMicros _ _ file
  · exact List.Sublist.refl _

omit [DecidableEq Row] [DecidableEq Schema] in
/-- What a container holds for the contained segments is part of its rows. -/
theorem rows_le_of_heldFor_eq_some {recvMicros : Row → Option Int} {faults : Faults}
    {files : Partition Row Schema} {container : Text} {contained : Listing}
    {schema : Schema} {rows : List Row}
    (heldRows : heldFor recvMicros faults files container contained = some (schema, rows)) :
    ∃ file, files.lookup container = some file ∧
      file.schema = schema ∧ (rows : Multiset Row) ≤ (file.rows : Multiset Row) := by
  simp only [heldFor, Option.bind_eq_some_iff] at heldRows
  obtain ⟨file, read, selected⟩ := heldRows
  split at selected
  · contradiction
  · obtain ⟨rfl, rfl⟩ := Prod.mk.inj (Option.some.inj selected)
    exact ⟨file, lookup_of_readSegment_eq_some read, rfl,
      (overlapRows_sublist recvMicros contained file).subperm⟩

/-- The contained segments of a container are the sweep's pairs with it. -/
theorem mem_containedIn {pairs : List (Cursor × Text × Text)} {container : Text}
    {entry : Cursor × Text} :
    entry ∈ containedIn pairs container ↔ (entry.1, entry.2, container) ∈ pairs := by
  simp only [containedIn, List.mem_map, List.mem_filter, decide_eq_true_eq]
  constructor
  · rintro ⟨pair, ⟨member, rfl⟩, rfl⟩
    exact member
  · intro member
    exact ⟨_, ⟨member, rfl⟩, rfl⟩

theorem mem_pathSet {names : List Text} {name : Text} : name ∈ pathSet names ↔ name ∈ names := by
  simp [pathSet]

theorem nodup_pathSet (names : List Text) : (pathSet names).Nodup :=
  (List.perm_insertionSort _ _).nodup_iff.mpr (List.nodup_dedup names)

/-- A proven duplicate was proven by the container the sweep found for it. -/
theorem exists_container_of_mem_provenDuplicates {recvMicros : Row → Option Int}
    {faults : Faults} {files : Partition Row Schema} {pairs : List (Cursor × Text × Text)}
    {name : Text} (member : name ∈ provenDuplicates recvMicros faults files pairs) :
    ∃ pair ∈ pairs, pair.2.1 = name ∧
      ∃ containerFile file, files.lookup pair.2.2 = some containerFile ∧
        files.lookup name = some file ∧
        (file.rows : Multiset Row) ≤ (containerFile.rows : Multiset Row) := by
  simp only [provenDuplicates, List.mem_flatMap] at member
  obtain ⟨container, _, proven⟩ := member
  unfold provenBy at proven
  split at proven
  · cases proven
  · rename_i schema rows heldRows
    obtain ⟨containerFile, containerFound, _, rowsBelow⟩ := rows_le_of_heldFor_eq_some heldRows
    obtain ⟨file, found, fileBelow⟩ := rows_le_of_mem_spend proven
    have asked := (spend_sublist faults files schema _ _).subset proven
    obtain ⟨entry, entryMember, rfl⟩ := List.mem_map.mp asked
    exact ⟨_, mem_containedIn.mp entryMember, rfl, containerFile, file, containerFound, found,
      fileBelow.trans rowsBelow⟩

/-- The names of a sorted listing are those of the listing. -/
theorem names_insertionSort_perm (listed : Listing) :
    ((listed.insertionSort fun first second => sweepKey first ≤ sweepKey second).map
      Prod.snd).Perm (listed.map Prod.snd) :=
  (List.perm_insertionSort _ _).map Prod.snd

/-- **A superseded segment is held by another.**  Every row of a superseded
segment, as often as it holds it, is in a listed segment that is not superseded. -/
theorem exists_keeper_of_mem_superseded {recvMicros : Row → Option Int} {faults : Faults}
    {files : Partition Row Schema} {listed : Listing}
    (distinct : (listed.map Prod.snd).Nodup) {name : Text}
    (member : name ∈ superseded recvMicros faults files listed) :
    name ∈ listed.map Prod.snd ∧
      ∃ keeper ∈ listed.map Prod.snd, keeper ∉ superseded recvMicros faults files listed ∧
        ∃ keeperFile file, files.lookup keeper = some keeperFile ∧
          files.lookup name = some file ∧
          (file.rows : Multiset Row) ≤ (keeperFile.rows : Multiset Row) := by
  have sortedDistinct := (names_insertionSort_perm listed).nodup_iff.mpr distinct
  obtain ⟨pair, pairMember, rfl, keeperFile, file, keeperFound, found, below⟩ :=
    exists_container_of_mem_provenDuplicates member
  refine ⟨(names_insertionSort_perm listed).subset (contained_mem_of_mem_sweep pairMember),
    pair.2.2, (names_insertionSort_perm listed).subset (container_mem_of_mem_sweep pairMember),
    ?_, keeperFile, file, keeperFound, found, below⟩
  intro alsoSuperseded
  obtain ⟨other, otherMember, same, _⟩ :=
    exists_container_of_mem_provenDuplicates alsoSuperseded
  exact @container_ne_contained none _ sortedDistinct _ _ pairMember otherMember same.symm

end Segments
end Datawatch
