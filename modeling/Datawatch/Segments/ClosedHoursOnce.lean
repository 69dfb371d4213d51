import Datawatch.Segments.ClosedHours

/-!
# Closed hours are merged once

A walk over today's partitions is each partition's own run.  It touches closed segments alone,
keeps the rows, and leaves one segment of each hour, so that a second walk finds nothing to do.
-/

namespace Datawatch
namespace Segments

open Library Library.Directory

/-- Whether a segment's range ended before a cutoff. -/
def EndsBefore (cutoffMicros : Int) (cursor : Cursor) : Prop :=
  (closedHour cutoffMicros cursor).isSome

/-- Whether a segment is a receipt range that reaches into an hour. -/
def Touches (hour : Int) : Cursor → Prop
  | .time firstMicros lastMicros _ _ =>
      firstMicros / hourMicros ≤ hour ∧ hour ≤ lastMicros / hourMicros
  | .block .. | .seq .. => False

/-- Whether a segment's range begins in the hour it ends in. -/
def WithinHour (cursor : Cursor) : Prop :=
  cursor.firstPosition / hourMicros = cursor.lastPosition / hourMicros

/-- No closed segment of a partition straddles two hours. -/
def NoneStraddles {Content : Type u} (cutoffMicros : Int) (files : Directory Text Content) : Prop :=
  ∀ name ∈ files, ∀ cursor, Cursor.parse name = some cursor → EndsBefore cutoffMicros cursor →
    WithinHour cursor

theorem endsBefore_of_closedHour {cutoffMicros hour : Int} {cursor : Cursor}
    (isHour : closedHour cutoffMicros cursor = some hour) : EndsBefore cutoffMicros cursor :=
  Option.isSome_iff_exists.mpr ⟨hour, isHour⟩

/-- A closed segment within one hour is of the hour it touches. -/
theorem closedHour_of_touches {cutoffMicros hour : Int} {cursor : Cursor}
    (ends : EndsBefore cutoffMicros cursor) (inside : WithinHour cursor)
    (touches : Touches hour cursor) : closedHour cutoffMicros cursor = some hour := by
  cases cursor with
  | time firstMicros lastMicros pid flush =>
      simp only [EndsBefore, closedHour, Touches, WithinHour, Cursor.firstPosition,
        Cursor.lastPosition] at ends inside touches ⊢
      by_cases before : lastMicros < cutoffMicros
      · rw [if_pos before]
        congr 1
        omega
      · rw [if_neg before] at ends
        cases ends
  | block | seq => exact touches.elim

/-- A merged receipt range begins where one of its inputs does. -/
theorem exists_first_of_mergedCursor {existing : Listing} {merged : Cursor}
    (isTime : ∀ entry ∈ existing, entry.1.variant = .time ∧ entry.1.InRange)
    (isMerged : mergedCursor existing = some merged) :
    ∃ entry ∈ existing, entry.1.firstPosition = merged.firstPosition := by
  cases existing with
  | nil => cases isMerged
  | cons entry rest =>
      obtain ⟨headTime, headInRange⟩ := isTime entry List.mem_cons_self
      obtain ⟨cursor, name⟩ := entry
      cases cursor with
      | time firstMicros lastMicros pid flush =>
          obtain rfl := Option.some.inj isMerged
          obtain ⟨_, below, reached⟩ := foldl_min_spec
            ((arrivals ((Cursor.time firstMicros lastMicros pid flush, name) :: rest)).map
              Prod.fst) i64Max
          rcases reached with equal | member
          · refine ⟨_, List.mem_cons_self, ?_⟩
            have arrived : (firstMicros, lastMicros) ∈
                arrivals ((Cursor.time firstMicros lastMicros pid flush, name) :: rest) :=
              mem_arrivals.mpr ⟨pid, flush, name, List.mem_cons_self⟩
            have atHead := below _ (List.mem_map_of_mem arrived)
            rw [equal] at atHead
            have upper : firstMicros ≤ i64Max := headInRange.1.2
            exact (le_antisymm upper atHead).trans equal.symm
          · obtain ⟨range, isRange, equal⟩ := List.mem_map.mp member
            obtain ⟨otherPid, otherFlush, otherName, inExisting⟩ := mem_arrivals.mp isRange
            exact ⟨_, inExisting, equal⟩
      | block | seq => cases headTime

/-- A merge of one hour's segments that straddle none straddles none. -/
theorem mergeClosed_withinHour (cutoffMicros hour : Int) :
    MergeClosed fun cursor => closedHour cutoffMicros cursor = some hour ∧ WithinHour cursor := by
  intro existing merged inHour isMerged
  have isHour : closedHour cutoffMicros merged = some hour :=
    mergeClosed_closedHour cutoffMicros hour existing merged
      (fun entry isMember => ⟨(inHour entry isMember).1.1, (inHour entry isMember).2⟩) isMerged
  have ofHour {cursor : Cursor} (taken : closedHour cutoffMicros cursor = some hour) :
      cursor.variant = .time ∧ cursor.lastPosition / hourMicros = hour := by
    cases cursor with
    | time firstMicros lastMicros pid flush =>
        simp only [closedHour] at taken
        split at taken
        · exact ⟨rfl, Option.some.inj taken⟩
        · cases taken
    | block | seq => cases taken
  obtain ⟨entry, isMember, begins⟩ := exists_first_of_mergedCursor
    (fun entry isMember =>
      ⟨(ofHour (inHour entry isMember).1.1).1, (inHour entry isMember).2⟩) isMerged
  have inside := (inHour entry isMember).1
  refine ⟨isHour, ?_⟩
  rw [WithinHour, (ofHour isHour).2, ← begins, inside.2, (ofHour inside.1).2]

variable {Row : Type u} {Schema : Type v} [DecidableEq Row] [DecidableEq Schema]
  {recvMicros : Row → Option Int} {faults : Text → Faults} {cutoffMicros : Int}

/-- What one listed partition's run does. -/
abbrev partitionRun (recvMicros : Row → Option Int) (faults : Text → Faults) (cutoffMicros : Int)
    (listed : Text × Listing) (total : Compacted) (files : Partition Row Schema) :
    Trace Row Schema Compacted :=
  compactHours recvMicros (faults listed.1) cutoffMicros listed.2
    (closedHours cutoffMicros listed.2) total files

/-- A walk over listed partitions stops at the first, or goes on once it is made. -/
theorem compactListed_cons (recvMicros : Row → Option Int) (faults : Text → Faults)
    (cutoffMicros : Int) (listed : Text × Listing) (rest : List (Text × Listing))
    (total : Compacted) (tree : Tree (SegmentFile Row Schema)) :
    (∃ error, compactListed recvMicros faults cutoffMicros (listed :: rest) total tree =
      ⟨(partitionRun recvMicros faults cutoffMicros listed total
        (filesIn tree listed.1)).effects.map (within listed.1), .error error⟩) ∨
    ∃ later, (partitionRun recvMicros faults cutoffMicros listed total
        (filesIn tree listed.1)).result = .ok later ∧
      compactListed recvMicros faults cutoffMicros (listed :: rest) total tree =
        ⟨(partitionRun recvMicros faults cutoffMicros listed total
            (filesIn tree listed.1)).effects.map (within listed.1) ++
          (compactListed recvMicros faults cutoffMicros rest later
            (applyAll ((partitionRun recvMicros faults cutoffMicros listed total
              (filesIn tree listed.1)).effects.map (within listed.1)) tree)).effects,
        (compactListed recvMicros faults cutoffMicros rest later
          (applyAll ((partitionRun recvMicros faults cutoffMicros listed total
            (filesIn tree listed.1)).effects.map (within listed.1)) tree)).result⟩ := by
  obtain ⟨partition, listing⟩ := listed
  cases result : (partitionRun recvMicros faults cutoffMicros (partition, listing) total
      (filesIn tree partition)).result with
  | error error => exact .inl ⟨error, by simp only [compactListed, result]⟩
  | ok later => exact .inr ⟨later, rfl, by simp only [compactListed, result]⟩

/-- **A walk's effects are those of its partitions' own runs**, each from what its partition held. -/
theorem mem_effects_compactListed {entries : List (Text × Listing)}
    (distinct : (entries.map Prod.fst).Nodup) {total : Compacted}
    {tree : Tree (SegmentFile Row Schema)} {effect : Effect Path (SegmentFile Row Schema)}
    (isEffect : effect ∈ (compactListed recvMicros faults cutoffMicros entries total tree).effects) :
    ∃ listed ∈ entries, ∃ files counted,
      (∀ name, files.lookup name = tree.lookup ⟨listed.1, name⟩) ∧
      ∃ made ∈ (partitionRun recvMicros faults cutoffMicros listed counted files).effects,
        effect = within listed.1 made := by
  induction entries generalizing total tree with
  | nil => cases isEffect
  | cons first rest inductionHypothesis =>
      rw [List.map_cons, List.nodup_cons] at distinct
      have here (isHere : effect ∈ (partitionRun recvMicros faults cutoffMicros first total
          (filesIn tree first.1)).effects.map (within first.1)) :
          ∃ listed ∈ first :: rest, ∃ files counted,
            (∀ name, files.lookup name = tree.lookup ⟨listed.1, name⟩) ∧
            ∃ made ∈ (partitionRun recvMicros faults cutoffMicros listed counted files).effects,
              effect = within listed.1 made := by
        obtain ⟨made, isMade, same⟩ := List.mem_map.mp isHere
        exact ⟨first, List.mem_cons_self, _, total, lookup_filesIn tree first.1, made, isMade,
          same.symm⟩
      rcases compactListed_cons recvMicros faults cutoffMicros first rest total tree with
        ⟨error, stopped⟩ | ⟨later, _, made⟩
      · rw [stopped] at isEffect
        exact here isEffect
      · rw [made, List.mem_append] at isEffect
        rcases isEffect with isHere | isLater
        · exact here isHere
        · obtain ⟨listed, isListed, files, counted, agree, isMade⟩ :=
            inductionHypothesis distinct.2 isLater
          refine ⟨listed, List.mem_cons_of_mem _ isListed, files, counted, fun name => ?_, isMade⟩
          rw [agree name, lookup_applyAll_within_of_ne]
          intro same
          exact distinct.1 (same ▸ List.mem_map_of_mem isListed)

/-- **A walk that returns leaves each partition as its own run does**, and one that stops leaves it
so or as it was. -/
theorem lookup_compactListed (recvMicros : Row → Option Int) (faults : Text → Faults)
    (cutoffMicros : Int) {entries : List (Text × Listing)}
    (distinct : (entries.map Prod.fst).Nodup) {listed : Text × Listing}
    (isListed : listed ∈ entries) (total : Compacted) (tree : Tree (SegmentFile Row Schema)) :
    ((∃ error, (compactListed recvMicros faults cutoffMicros entries total tree).result =
        .error error) ∧
      ∀ name, ((compactListed recvMicros faults cutoffMicros entries total tree).after tree).lookup
        ⟨listed.1, name⟩ = tree.lookup ⟨listed.1, name⟩) ∨
    ∃ files counted, (∀ name, files.lookup name = tree.lookup ⟨listed.1, name⟩) ∧
      (∀ name, ((compactListed recvMicros faults cutoffMicros entries total tree).after tree).lookup
        ⟨listed.1, name⟩ = (applyAll (partitionRun recvMicros faults cutoffMicros listed counted
          files).effects files).lookup name) ∧
      ((∃ later, (partitionRun recvMicros faults cutoffMicros listed counted files).result =
        .ok later) ∨ ∃ error, (compactListed recvMicros faults cutoffMicros entries total
          tree).result = .error error) := by
  induction entries generalizing total tree with
  | nil => cases isListed
  | cons first rest inductionHypothesis =>
      rw [List.map_cons, List.nodup_cons] at distinct
      have apart (isRest : listed ∈ rest) : listed.1 ≠ first.1 := fun same =>
        distinct.1 (same ▸ List.mem_map_of_mem isRest)
      rcases compactListed_cons recvMicros faults cutoffMicros first rest total tree with
        ⟨error, stopped⟩ | ⟨later, returned, made⟩
      · rw [stopped]
        rcases List.mem_cons.mp isListed with rfl | isRest
        · exact .inr ⟨_, total, lookup_filesIn tree listed.1,
            lookup_applyAll_within _ (lookup_filesIn tree listed.1), .inr ⟨error, rfl⟩⟩
        · exact .inl ⟨⟨error, rfl⟩, fun name => lookup_applyAll_within_of_ne _ tree (apart isRest)⟩
      · rw [made]
        simp only [TreeTrace.after, applyAll_append]
        rcases List.mem_cons.mp isListed with rfl | isRest
        · refine .inr ⟨_, total, lookup_filesIn tree listed.1, fun name => ?_, .inl ⟨later, returned⟩⟩
          rw [lookup_applyAll_of_untouched]
          · exact lookup_applyAll_within _ (lookup_filesIn tree listed.1) name
          · rintro effect isEffect same
            obtain ⟨other, isOther, _, _, _, inner, _, rfl⟩ :=
              mem_effects_compactListed distinct.2 isEffect
            rw [target_within] at same
            exact distinct.1 ((Path.mk.inj same).1 ▸ List.mem_map_of_mem isOther)
        · have asBefore (name : Text) : (applyAll ((partitionRun recvMicros faults cutoffMicros
              first total (filesIn tree first.1)).effects.map (within first.1)) tree).lookup
                ⟨listed.1, name⟩ = tree.lookup ⟨listed.1, name⟩ :=
            lookup_applyAll_within_of_ne _ tree (apart isRest)
          rcases inductionHypothesis distinct.2 isRest later (applyAll
            ((partitionRun recvMicros faults cutoffMicros first total
              (filesIn tree first.1)).effects.map (within first.1)) tree) with
            ⟨failed, same⟩ | ⟨files, counted, agree, whole, ends⟩
          · exact .inl ⟨failed, fun name => (same name).trans (asBefore name)⟩
          · exact .inr ⟨files, counted, fun name => (agree name).trans (asBefore name), whole, ends⟩

section Dated

variable {tree : Tree (SegmentFile Row Schema)} {root day : Text} {listed : Text × Listing}

omit [DecidableEq Row] [DecidableEq Schema] in
theorem nodup_datedPartitions (tree : Tree (SegmentFile Row Schema)) (root day : Text) :
    ((datedPartitions tree root day).map Prod.fst).Nodup :=
  (List.filter_sublist.map Prod.fst).nodup (nodup_partitionsListed tree root).1

omit [DecidableEq Row] [DecidableEq Schema] in
/-- A dated partition is listed where it holds a segment. -/
theorem exists_datedPartition {partition name : Text} {cursor : Cursor}
    (isFile : (⟨partition, name⟩ : Path) ∈ tree) (parsed : Cursor.parse name = some cursor)
    (under : Under root partition) (dated : IsDated root day partition) :
    ∃ listed ∈ datedPartitions tree root day, listed.1 = partition := by
  obtain ⟨listing, isListed, _⟩ := mem_partitionsListed.mpr ⟨under, isFile, parsed⟩
  exact ⟨_, List.mem_filter.mpr ⟨isListed, decide_eq_true dated⟩, rfl⟩

omit [DecidableEq Row] [DecidableEq Schema] in
theorem under_of_mem_datedPartitions (isListed : listed ∈ datedPartitions tree root day) :
    Under root listed.1 ∧ IsDated root day listed.1 := by
  obtain ⟨inTree, dated⟩ := List.mem_filter.mp isListed
  refine ⟨?_, of_decide_eq_true dated⟩
  obtain ⟨partition, isPartition, rfl⟩ := List.mem_map.mp (List.mem_filter.mp inTree).1
  rw [List.mem_insertionSort] at isPartition
  exact of_decide_eq_true (List.mem_filter.mp isPartition).2

omit [DecidableEq Row] [DecidableEq Schema] in
/-- A dated partition's listing is of its files. -/
theorem lists_datedPartition (isListed : listed ∈ datedPartitions tree root day)
    {files : Partition Row Schema}
    (agree : ∀ name, files.lookup name = tree.lookup ⟨listed.1, name⟩) :
    Lists (fun _ => True) files listed.2 := by
  have mem (name : Text) : name ∈ files ↔ name ∈ namesIn tree listed.1 := by
    rw [mem_namesIn, ← AList.lookup_isSome, ← AList.lookup_isSome, agree]
  have isListing := (nodup_partitionsListed tree root).2 listed (List.mem_of_mem_filter isListed)
  rw [isListing]
  exact {
    distinct := nodup_names_listSegments (nodup_namesIn tree listed.1)
    parsed := fun entry isMember => (mem_listSegments.mp isMember).2
    taken := fun _ _ => trivial
    present := fun entry isMember => (mem _).mpr (mem_listSegments.mp isMember).1
    complete := fun cursor name isFile parsed _ =>
      mem_listSegments.mpr ⟨(mem name).mp isFile, parsed⟩ }

omit [DecidableEq Row] [DecidableEq Schema] in
theorem nodup_closedHours (cutoffMicros : Int) (listed : Listing) :
    (closedHours cutoffMicros listed).Nodup :=
  (List.perm_insertionSort _ _).nodup_iff.mpr (List.nodup_dedup _)

omit [DecidableEq Row] [DecidableEq Schema] in
/-- A listed closed segment's hour is one of the listing's. -/
theorem mem_closedHours {listed : Listing} {entry : Cursor × Text} (isMember : entry ∈ listed)
    {hour : Int} (isHour : closedHour cutoffMicros entry.1 = some hour) :
    hour ∈ closedHours cutoffMicros listed := by
  rw [closedHours, List.mem_insertionSort, List.mem_dedup]
  exact List.mem_filterMap.mpr ⟨entry, isMember, isHour⟩

omit [DecidableEq Row] [DecidableEq Schema] in
/-- Segments listed of a selection of one at most are one at most. -/
theorem length_le_one_of_atMostOne {takes : Cursor → Prop} {files : Partition Row Schema}
    {listed : Listing} (lists : Lists takes files listed) (one : AtMostOne takes files) :
    listed.length ≤ 1 := by
  match isListed : listed with
  | [] => exact Nat.zero_le 1
  | [entry] => exact le_rfl
  | first :: second :: rest =>
      have isFirst : first ∈ first :: second :: rest := List.mem_cons_self
      have isSecond : second ∈ first :: second :: rest :=
        List.mem_cons_of_mem _ List.mem_cons_self
      have same : first.2 = second.2 := one _ (lists.present _ isFirst) _ (lists.present _ isSecond)
        _ _ (lists.parsed _ isFirst) (lists.parsed _ isSecond) (lists.taken _ isFirst)
        (lists.taken _ isSecond)
      have apart := lists.distinct
      rw [List.map_cons, List.map_cons, List.nodup_cons, same] at apart
      exact absurd List.mem_cons_self apart.1

end Dated

section Left

omit [DecidableEq Row] [DecidableEq Schema] in
/-- A directory is its lookups, as far as one segment at most goes. -/
theorem AtMostOne.congr {takes : Cursor → Prop} {files later : Partition Row Schema}
    (same : ∀ name, later.lookup name = files.lookup name) (one : AtMostOne takes files) :
    AtMostOne takes later := by
  intro first isFirst second isSecond
  rw [← AList.lookup_isSome, same, AList.lookup_isSome] at isFirst isSecond
  exact one first isFirst second isSecond

variable {files : Partition Row Schema} {listed : Text × Listing} {total : Compacted}

/-- One partition's whole run leaves one segment of any closed hour at most, where it returns. -/
theorem atMostOne_partitionRun (lists : Lists (fun _ => True) files listed.2)
    (filled : Filled files) {counted : Compacted}
    (returned : (partitionRun recvMicros faults cutoffMicros listed total files).result =
      .ok counted) (hour : Int) :
    AtMostOne (fun cursor => closedHour cutoffMicros cursor = some hour)
      (applyAll (partitionRun recvMicros faults cutoffMicros listed total files).effects files) := by
  have hourly : ListsHours cutoffMicros listed.2 (closedHours cutoffMicros listed.2) files :=
    fun other _ => lists.inHour cutoffMicros other
  have distinct := nodup_closedHours cutoffMicros listed.2
  by_cases isHour : hour ∈ closedHours cutoffMicros listed.2
  · exact atMostOne_compactHours distinct hourly filled returned isHour
  · refine AtMostOne.compactHours isHour ?_ distinct hourly
    intro first isFirst _ _ firstCursor _ firstParsed _ firstTaken
    exact absurd (mem_closedHours (lists.complete _ _ isFirst firstParsed trivial) firstTaken) isHour

omit [DecidableEq Row] [DecidableEq Schema] in
/-- A directory is its lookups, as far as its contents go. -/
theorem contents_congr {files later : Partition Row Schema}
    (same : ∀ name, later.lookup name = files.lookup name) : contents later = contents files := by
  have distinct : (files.entries.map fun entry => (entry.1, entry.2)).Nodup := by
    refine files.nodupKeys.nodup.map fun first second equal => ?_
    obtain ⟨firstName, firstContent⟩ := first
    obtain ⟨secondName, secondContent⟩ := second
    simpa using equal
  have holds (name : Text) (file : SegmentFile Row Schema) :
      files.lookup name = some file ↔
        (name, file) ∈ files.entries.map fun entry => (entry.1, entry.2) := by
    rw [← mem_entries_iff_lookup, List.mem_map]
    constructor
    · exact fun isEntry => ⟨_, isEntry, rfl⟩
    · rintro ⟨entry, isEntry, equal⟩
      obtain ⟨rfl, rfl⟩ := Prod.mk.inj equal
      exact isEntry
  rw [contents, contents, weight_eq_sum_of_lookup_iff segmentRows distinct holds,
    weight_eq_sum_of_lookup_iff segmentRows distinct fun name file => by rw [same, holds]]

end Left

section Walk

variable {root day : Text} {tree : Tree (SegmentFile Row Schema)} {total : Compacted}

/-- **What a walk touches**: closed segments of the day's partitions, and of what a partition's
closed segments all are and a merge of them is, nothing else. -/
theorem taken_of_mem_dated (also : Text → Cursor → Prop)
    (closed : ∀ partition hour, MergeClosed fun cursor =>
      closedHour cutoffMicros cursor = some hour ∧ also partition cursor)
    (isAlso : ∀ partition name cursor, name ∈ filesIn tree partition →
      Cursor.parse name = some cursor → EndsBefore cutoffMicros cursor → also partition cursor)
    {effect : Effect Path (SegmentFile Row Schema)}
    (isEffect : effect ∈ (compactListed recvMicros faults cutoffMicros
      (datedPartitions tree root day) total tree).effects) :
    (Under root effect.target.partition ∧ IsDated root day effect.target.partition) ∧
      ∃ cursor, Cursor.parse effect.target.name = some cursor ∧
        EndsBefore cutoffMicros cursor ∧ also effect.target.partition cursor := by
  obtain ⟨listed, isListed, files, counted, agree, made, isMade, rfl⟩ :=
    mem_effects_compactListed (nodup_datedPartitions tree root day) isEffect
  have lists := lists_datedPartition isListed agree
  have hourly : ListsHours cutoffMicros listed.2 (closedHours cutoffMicros listed.2) files :=
    fun hour _ => lists.inHour cutoffMicros hour
  have ofListing (entry : Cursor × Text) (isMember : entry ∈ listed.2)
      (ends : (closedHour cutoffMicros entry.1).isSome) : also listed.1 entry.1 := by
    apply isAlso listed.1 entry.2 entry.1 _ (lists.parsed entry isMember) ends
    rw [← AList.lookup_isSome, lookup_filesIn, ← agree, AList.lookup_isSome]
    exact lists.present entry isMember
  obtain ⟨cursor, parsed, ⟨hour, _, isHour⟩, alsoHolds⟩ :=
    taken_of_mem_compactHours (closed listed.1) ofListing (nodup_closedHours _ _) hourly isMade
  rw [target_within]
  exact ⟨under_of_mem_datedPartitions isListed, cursor, parsed, endsBefore_of_closedHour isHour,
    alsoHolds⟩

/-- A partition that is not listed is left as it was. -/
theorem lookup_of_not_listed {partition : Text}
    (other : ∀ listed ∈ datedPartitions tree root day, listed.1 ≠ partition) (name : Text) :
    ((compactListed recvMicros faults cutoffMicros (datedPartitions tree root day) total
      tree).after tree).lookup ⟨partition, name⟩ = tree.lookup ⟨partition, name⟩ := by
  apply lookup_applyAll_of_untouched
  intro effect isEffect same
  obtain ⟨listed, isListed, _, _, _, made, _, rfl⟩ :=
    mem_effects_compactListed (nodup_datedPartitions tree root day) isEffect
  rw [target_within] at same
  exact other listed isListed (congrArg Path.partition same).symm

/-- **A walk keeps each partition's contents**, where it holds no row twice. -/
theorem contents_dated {partition : Text} (once : (contents (filesIn tree partition)).Nodup) :
    contents (filesIn ((compactListed recvMicros faults cutoffMicros
      (datedPartitions tree root day) total tree).after tree) partition) =
        contents (filesIn tree partition) := by
  by_cases isPartition : ∃ listed ∈ datedPartitions tree root day, listed.1 = partition
  · obtain ⟨listed, isListed, rfl⟩ := isPartition
    rcases lookup_compactListed recvMicros faults cutoffMicros
      (nodup_datedPartitions tree root day) isListed total tree with
      ⟨_, same⟩ | ⟨files, counted, agree, whole, _⟩
    · exact contents_congr fun name => by rw [lookup_filesIn, lookup_filesIn, same]
    · have lists := lists_datedPartition isListed agree
      have before : contents files = contents (filesIn tree listed.1) :=
        contents_congr fun name => by rw [lookup_filesIn, agree]
      rw [← before] at once ⊢
      rw [← contents_compactHours (nodup_closedHours cutoffMicros listed.2)
        (fun hour _ => lists.inHour cutoffMicros hour) once]
      exact contents_congr fun name => by rw [lookup_filesIn, whole]
  · have other : ∀ listed ∈ datedPartitions tree root day, listed.1 ≠ partition :=
      fun listed isListed same => isPartition ⟨listed, isListed, same⟩
    exact contents_congr fun name => by
      rw [lookup_filesIn, lookup_filesIn, lookup_of_not_listed other]

/-- **A walk that returns leaves one segment of any closed hour at most** in each of the day's
partitions. -/
theorem atMostOne_dated {partition : Text} (under : Under root partition)
    (dated : IsDated root day partition) (filled : Filled (filesIn tree partition))
    {counted : Compacted}
    (returned : (compactListed recvMicros faults cutoffMicros (datedPartitions tree root day) total
      tree).result = .ok counted) (hour : Int) :
    AtMostOne (fun cursor => closedHour cutoffMicros cursor = some hour)
      (filesIn ((compactListed recvMicros faults cutoffMicros
        (datedPartitions tree root day) total tree).after tree) partition) := by
  by_cases isPartition : ∃ listed ∈ datedPartitions tree root day, listed.1 = partition
  · obtain ⟨listed, isListed, rfl⟩ := isPartition
    rcases lookup_compactListed recvMicros faults cutoffMicros
      (nodup_datedPartitions tree root day) isListed total tree with
      ⟨⟨error, failed⟩, _⟩ | ⟨files, runs, agree, whole, ends⟩
    · rw [returned] at failed
      cases failed
    · have settled : ∃ later, (partitionRun recvMicros faults cutoffMicros listed runs
          files).result = .ok later := by
        rcases ends with settled | ⟨error, failed⟩
        · exact settled
        · rw [returned] at failed
          cases failed
      obtain ⟨later, settled⟩ := settled
      have isFilled : Filled files := by
        intro name file isSegment
        exact filled name file ⟨isSegment.1, by rw [lookup_filesIn, ← agree, isSegment.2]⟩
      have one := atMostOne_partitionRun (lists_datedPartition isListed agree) isFilled settled hour
      exact one.congr fun name => by rw [lookup_filesIn, whole]
  · have other : ∀ listed ∈ datedPartitions tree root day, listed.1 ≠ partition :=
      fun listed isListed same => isPartition ⟨listed, isListed, same⟩
    intro first isFirst second isSecond firstCursor secondCursor firstParsed
    rw [← AList.lookup_isSome, lookup_filesIn, lookup_of_not_listed other,
      AList.lookup_isSome] at isFirst
    exact absurd (exists_datedPartition isFirst firstParsed under dated) isPartition

/-- A walk over partitions of one segment an hour does nothing. -/
theorem compactListed_of_few {entries : List (Text × Listing)}
    (few : ∀ listed ∈ entries, ∀ hour, (inHour cutoffMicros hour listed.2).length ≤ 1) :
    compactListed recvMicros faults cutoffMicros entries total tree = ⟨[], .ok total⟩ := by
  induction entries with
  | nil => rfl
  | cons listed rest inductionHypothesis =>
      obtain ⟨fewHere, fewRest⟩ := List.forall_mem_cons.mp few
      obtain ⟨partition, listing⟩ := listed
      simp only [compactListed, compactHours_of_few fun hour _ => fewHere hour, List.map_nil,
        applyAll_nil, inductionHypothesis fewRest, List.append_nil]

end Walk

/-- A store's tree as its writers leave it: a writer of no rows commits nothing. -/
structure SegmentTree (Row : Type u) (Schema : Type v) where
  tree : Tree (SegmentFile Row Schema)
  filled : ∀ partition, Filled (filesIn tree partition)

/-- Whether a partition is one of a day's, under a root. -/
def OfDay (root day partition : Text) : Prop := Under root partition ∧ IsDated root day partition

/-- A run changes closed segments of today's partitions, and no other. -/
def ChangesOnlyClosed (root today : Text) (cutoffMicros : Int) (run : TreeTrace Row Schema) :
    Prop :=
  ∀ effect ∈ run.effects, OfDay root ("date=".toList ++ today) effect.target.partition ∧
    ∃ cursor, Cursor.parse effect.target.name = some cursor ∧ EndsBefore cutoffMicros cursor

/-- A run keeps the rows of each partition that holds none twice. -/
def KeepsRows (tree later : Tree (SegmentFile Row Schema)) : Prop :=
  ∀ partition, (contents (filesIn tree partition)).Nodup →
    contents (filesIn later partition) = contents (filesIn tree partition)

/-- One segment at most is left for each closed hour of a partition of today's, where no closed
segment straddled two. -/
def OnePerHour (root today : Text) (cutoffMicros : Int)
    (tree later : Tree (SegmentFile Row Schema)) : Prop :=
  ∀ partition, OfDay root ("date=".toList ++ today) partition →
    NoneStraddles cutoffMicros (filesIn tree partition) →
      ∀ hour, AtMostOne (fun cursor => EndsBefore cutoffMicros cursor ∧ Touches hour cursor)
        (filesIn later partition)

variable {root today : Text} {tree : Tree (SegmentFile Row Schema)}

/-- Where no closed segment straddles two hours, none does once a walk was made. -/
theorem noneStraddles_after {day partition : Text} {total : Compacted}
    (none : NoneStraddles cutoffMicros (filesIn tree partition)) :
    NoneStraddles cutoffMicros (filesIn ((compactListed recvMicros faults cutoffMicros
      (datedPartitions tree root day) total tree).after tree) partition) := by
  intro name isLeft cursor parsed ends
  rw [← AList.lookup_isSome, lookup_filesIn] at isLeft
  by_cases isTouched : ∃ effect ∈ (compactListed recvMicros faults cutoffMicros
      (datedPartitions tree root day) total tree).effects, effect.target = ⟨partition, name⟩
  · obtain ⟨effect, isEffect, isTarget⟩ := isTouched
    have touched := taken_of_mem_dated
      (fun other cursor => NoneStraddles cutoffMicros (filesIn tree other) → WithinHour cursor)
      (fun other hour => ?_) (fun other name cursor isFile parsed ends none =>
        none name isFile cursor parsed ends) isEffect
    · rw [isTarget] at touched
      obtain ⟨_, found, isFound, _, inside⟩ := touched
      obtain rfl := Option.some.inj (parsed.symm.trans isFound)
      exact inside none
    · by_cases others : NoneStraddles cutoffMicros (filesIn tree other)
      · simpa only [others, true_implies] using mergeClosed_withinHour cutoffMicros hour
      · simpa only [others, false_implies, and_true] using
          mergeClosed_closedHour cutoffMicros hour
  · rw [TreeTrace.after, lookup_applyAll_of_untouched] at isLeft
    · refine none name ?_ cursor parsed ends
      rw [← AList.lookup_isSome, lookup_filesIn]
      exact isLeft
    · exact fun effect isEffect same => isTouched ⟨effect, isEffect, same.symm⟩

/-- **Compacting today's closed hours.**  A run changes closed segments of today's partitions alone
and keeps the rows of each partition that holds none twice; and where it returns, one segment at
most is left for each closed hour that none straddled, and running it again on the same files
changes nothing. -/
theorem closed_hours_merged_once (recvMicros : Row → Option Int) (faults again : Text → Faults)
    (stored : SegmentTree Row Schema) (root today : Text) (cutoffMicros : Int) :
    let run := compactClosedHoursUnder recvMicros faults stored.tree root today cutoffMicros
    ChangesOnlyClosed root today cutoffMicros run ∧ KeepsRows stored.tree (run.after stored.tree) ∧
      ∀ counted, run.result = .ok counted →
        OnePerHour root today cutoffMicros stored.tree (run.after stored.tree) ∧
        ∀ reread, (∀ path, reread.lookup path = (run.after stored.tree).lookup path) →
          compactClosedHoursUnder recvMicros again reread root today cutoffMicros =
            ⟨[], .ok ⟨0, 0, 0⟩⟩ := by
  intro run
  refine ⟨?_, fun partition once => contents_dated once, fun counted returned => ⟨?_, ?_⟩⟩
  · intro effect isEffect
    obtain ⟨ofDay, cursor, parsed, ends, _⟩ := taken_of_mem_dated (fun _ _ => True)
      (fun _ hour => by simpa only [and_true] using mergeClosed_closedHour cutoffMicros hour)
      (fun _ _ _ _ _ _ => trivial) isEffect
    exact ⟨ofDay, cursor, parsed, ends⟩
  · intro partition ofDay none hour first isFirst second isSecond firstCursor secondCursor
      firstParsed secondParsed firstTaken secondTaken
    have inside : NoneStraddles cutoffMicros (filesIn (run.after stored.tree) partition) :=
      noneStraddles_after none
    have one := atMostOne_dated ofDay.1 ofDay.2 (stored.filled partition) returned hour
    exact one first isFirst second isSecond firstCursor secondCursor firstParsed secondParsed
      (closedHour_of_touches firstTaken.1
        (inside first isFirst firstCursor firstParsed firstTaken.1) firstTaken.2)
      (closedHour_of_touches secondTaken.1
        (inside second isSecond secondCursor secondParsed secondTaken.1) secondTaken.2)
  · intro reread same
    apply compactListed_of_few
    intro listed isListed hour
    obtain ⟨under, dated⟩ := under_of_mem_datedPartitions isListed
    have lists := lists_datedPartition isListed (lookup_filesIn reread listed.1)
    apply length_le_one_of_atMostOne (lists.inHour cutoffMicros hour)
    have one := atMostOne_dated under dated (stored.filled listed.1) returned hour
    exact one.congr fun name => by rw [lookup_filesIn, lookup_filesIn, same]; rfl

omit [DecidableEq Row] [DecidableEq Schema] in
/-- A tree whose every file holds a row is one its writers can leave. -/
theorem filled_of_entries (rows : ∀ entry ∈ tree.entries, entry.2.rows ≠ []) (partition : Text) :
    Filled (filesIn tree partition) := by
  intro name file isSegment
  have found := isSegment.2
  rw [lookup_filesIn, ← mem_entries_iff_lookup] at found
  exact rows _ found

/-- Two flushes of one hour of one day's quotes. -/
def quotesOfToday : Tree (SegmentFile (Int × Nat) Unit) :=
  ofList [(⟨"segments/kind=quotes/date=2026-09-27".toList, (Cursor.time 1 2 7 1).fileName⟩,
      ⟨(), [[(1, 10), (2, 20)]]⟩),
    (⟨"segments/kind=quotes/date=2026-09-27".toList, (Cursor.time 3 4 7 2).fileName⟩,
      ⟨(), [[(3, 30), (4, 40)]]⟩)]

/-- The quotes, as a writer leaves them. -/
def storedQuotes : SegmentTree (Int × Nat) Unit where
  tree := quotesOfToday
  filled := filled_of_entries (by decide +kernel)

/-- The run over the quotes once their hour is closed. -/
def quotesRun : TreeTrace (Int × Nat) Unit :=
  compactClosedHoursUnder receiptOf (fun _ => .none) storedQuotes.tree "segments".toList
    "2026-09-27".toList hourMicros

/-- Two flushes become one segment of four rows, and a second run finds nothing to do. -/
theorem closed_hours_merged_once_twoFlushes :
    quotesRun.result = .ok ⟨2, 1, 4⟩ ∧ quotesRun.effects.length = 3 ∧
      OnePerHour "segments".toList "2026-09-27".toList hourMicros quotesOfToday
        (quotesRun.after quotesOfToday) ∧
      compactClosedHoursUnder receiptOf (fun _ => .none) (quotesRun.after quotesOfToday)
        "segments".toList "2026-09-27".toList hourMicros = ⟨[], .ok ⟨0, 0, 0⟩⟩ := by
  have returned : quotesRun.result = .ok ⟨2, 1, 4⟩ := by decide +kernel
  have whole := (closed_hours_merged_once receiptOf (fun _ => .none) (fun _ => .none) storedQuotes
    "segments".toList "2026-09-27".toList hourMicros).2.2 _ returned
  exact ⟨returned, by decide +kernel, whole.1, whole.2 _ fun _ => rfl⟩

end Segments
end Datawatch
