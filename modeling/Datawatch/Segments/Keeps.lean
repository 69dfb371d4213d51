import Mathlib.Data.Multiset.OrderedMonoid
import Datawatch.Library.Transition
import Datawatch.Segments.Merge

/-!
# Compaction loses no row

One directory keeps another when every listed segment's rows are all in one listed
segment of the later directory.  Every prefix of a compaction's effects keeps, and
keeping composes over any number of runs.
-/

namespace Datawatch
namespace Segments

open Library Library.Directory

variable {Row : Type u} {Schema : Type v}

/-- A committed segment: a file under a name that parses. -/
def IsSegment (files : Partition Row Schema) (name : Text)
    (file : SegmentFile Row Schema) : Prop :=
  Cursor.parse name ≠ none ∧ files.lookup name = some file

/-- A row readable in some listed segment. -/
def Readable (files : Partition Row Schema) (row : Row) : Prop :=
  ∃ name file, IsSegment files name file ∧ row ∈ file.rows

/-- Every segment's rows, as often as it holds them, are in one later segment. -/
def Keeps (files later : Partition Row Schema) : Prop :=
  ∀ name file, IsSegment files name file →
    ∃ keeper kept, IsSegment later keeper kept ∧
      (file.rows : Multiset Row) ≤ (kept.rows : Multiset Row)

theorem Keeps.refl (files : Partition Row Schema) : Keeps files files :=
  fun name file isSegment => ⟨name, file, isSegment, le_rfl⟩

theorem Keeps.trans {first second third : Partition Row Schema}
    (earlier : Keeps first second) (later : Keeps second third) : Keeps first third := by
  intro name file isSegment
  obtain ⟨keeper, kept, keptSegment, below⟩ := earlier name file isSegment
  obtain ⟨last, lastFile, lastSegment, lastBelow⟩ := later keeper kept keptSegment
  exact ⟨last, lastFile, lastSegment, below.trans lastBelow⟩

/-- What is kept stays readable. -/
theorem Keeps.readable {files later : Partition Row Schema} (keeps : Keeps files later)
    {row : Row} (readable : Readable files row) : Readable later row := by
  obtain ⟨name, file, isSegment, member⟩ := readable
  obtain ⟨keeper, kept, keptSegment, below⟩ := keeps name file isSegment
  exact ⟨keeper, kept, keptSegment, Multiset.mem_coe.mp (Multiset.mem_of_le below
    (Multiset.mem_coe.mpr member))⟩

/-- A listing of exactly the committed segments whose cursors are selected. -/
structure Lists (takes : Cursor → Prop) (files : Partition Row Schema) (listed : Listing) :
    Prop where
  distinct : (listed.map Prod.snd).Nodup
  parsed : ∀ entry ∈ listed, Cursor.parse entry.2 = some entry.1
  taken : ∀ entry ∈ listed, takes entry.1
  present : ∀ entry ∈ listed, entry.2 ∈ files
  complete : ∀ cursor name, name ∈ files → Cursor.parse name = some cursor →
    takes cursor → (cursor, name) ∈ listed

/-- A selection that takes the merged cursor of what it takes. -/
def MergeClosed (takes : Cursor → Prop) : Prop :=
  ∀ existing merged, (∀ entry ∈ existing, takes entry.1 ∧ entry.1.InRange) →
    mergedCursor existing = some merged → takes merged

theorem mergeClosed_all : MergeClosed fun _ => True := fun _ _ _ _ => trivial

/-- A closed hour takes the merge of its segments: the replacement's range ends
where the latest of theirs does. -/
theorem mergeClosed_closedHour (cutoffMicros hour : Int) :
    MergeClosed fun cursor => closedHour cutoffMicros cursor = some hour := by
  intro existing merged inHour isMerged
  cases existing with
  | nil => cases isMerged
  | cons entry rest =>
      obtain ⟨headTaken, headInRange⟩ := inHour entry List.mem_cons_self
      obtain ⟨cursor, name⟩ := entry
      cases cursor with
      | time firstMicros lastMicros pid flush =>
          obtain rfl := Option.some.inj isMerged
          have arrived : (firstMicros, lastMicros) ∈
              arrivals ((Cursor.time firstMicros lastMicros pid flush, name) :: rest) :=
            mem_arrivals.mpr ⟨pid, flush, name, List.mem_cons_self⟩
          obtain ⟨_, above, reached⟩ := foldl_max_spec
            ((arrivals ((Cursor.time firstMicros lastMicros pid flush, name) :: rest)).map
              Prod.snd) i64Min
          have atHead := above _ (List.mem_map_of_mem arrived)
          rcases reached with equal | member
          · -- The fold stopped at its start, so the head's range ends there too.
            have atStart : lastMicros = i64Min := by
              have lower := headInRange.2.1.1
              rw [equal] at atHead
              exact le_antisymm atHead lower
            rw [← atStart] at equal ⊢
            simp only [closedHour] at headTaken ⊢
            rw [equal]
            exact headTaken
          · obtain ⟨range, rangeMember, equal⟩ := List.mem_map.mp member
            obtain ⟨otherPid, otherFlush, otherName, inExisting⟩ := mem_arrivals.mp rangeMember
            have taken := (inHour _ inExisting).1
            simp only [closedHour] at taken ⊢
            rw [← equal]
            exact taken
      | block | seq => cases headTaken

theorem lists_listSegments {files : Partition Row Schema} {names : List Text}
    (read : names.Perm files.keys) : Lists (fun _ => True) files (listSegments names) where
  distinct := nodup_names_listSegments (read.nodup_iff.mpr files.keys_nodup)
  parsed := fun _ member => (mem_listSegments.mp member).2
  taken := fun _ _ => trivial
  present := fun _ member => AList.mem_keys.mpr (read.subset (mem_listSegments.mp member).1)
  complete := fun _ _ inFiles isParsed _ =>
    mem_listSegments.mpr ⟨read.mem_iff.mpr (AList.mem_keys.mp inFiles), isParsed⟩

/-- One closed hour of a complete listing. -/
theorem Lists.inHour {files : Partition Row Schema} {listed : Listing}
    (lists : Lists (fun _ => True) files listed) (cutoffMicros hour : Int) :
    Lists (fun cursor => closedHour cutoffMicros cursor = some hour) files
      (inHour cutoffMicros hour listed) where
  distinct := (List.filter_sublist.map Prod.snd).nodup lists.distinct
  parsed := fun entry member => lists.parsed entry (List.mem_of_mem_filter member)
  taken := fun _ member => of_decide_eq_true (List.mem_filter.mp member).2
  present := fun entry member => lists.present entry (List.mem_of_mem_filter member)
  complete := fun cursor name inFiles isParsed taken =>
    List.mem_filter.mpr ⟨lists.complete cursor name inFiles isParsed trivial,
      decide_eq_true taken⟩

/-- A listing stays good while the names its selection takes come and go nowhere. -/
theorem Lists.of_mem_iff {takes : Cursor → Prop} {files later : Partition Row Schema}
    {listed : Listing} (lists : Lists takes files listed)
    (agree : ∀ name cursor, Cursor.parse name = some cursor → takes cursor →
      (name ∈ later ↔ name ∈ files)) : Lists takes later listed where
  distinct := lists.distinct
  parsed := lists.parsed
  taken := lists.taken
  present := fun entry member =>
    (agree entry.2 entry.1 (lists.parsed entry member) (lists.taken entry member)).mpr
      (lists.present entry member)
  complete := fun cursor name inLater isParsed taken =>
    lists.complete cursor name ((agree name cursor isParsed taken).mp inLater) isParsed taken

section Set

variable [DecidableEq Row] [DecidableEq Schema]

/-- The segments a set's compaction finds superseded, in path order. -/
def doomedOf (recvMicros : Row → Option Int) (faults : Faults) (files : Partition Row Schema)
    (listed : Listing) : List Text :=
  pathSet (superseded recvMicros faults files listed)

/-- The segments a set's compaction merges. -/
def existingOf (recvMicros : Row → Option Int) (faults : Faults) (files : Partition Row Schema)
    (listed : Listing) : Listing :=
  listed.filter fun entry => entry.2 ∉ doomedOf recvMicros faults files listed

/-- The merged segments a replacement of some name is to remove: all but one under that
name, which the commit has replaced. -/
def originalsOf (recvMicros : Row → Option Int) (faults : Faults) (files : Partition Row Schema)
    (listed : Listing) (newName : Text) : List Text :=
  ((existingOf recvMicros faults files listed).map Prod.snd).filter fun name => name ≠ newName

/-- What a set's compaction does: it removes the superseded segments, and then may
commit one replacement of the rest and remove those. -/
theorem compactSet_cases (recvMicros : Row → Option Int) (faults : Faults)
    (files : Partition Row Schema) (listed : Listing) :
    (compactSet recvMicros faults files listed).effects =
        removals (doomedOf recvMicros faults files listed) ∨
      ∃ newName file rows,
        merge faults files (existingOf recvMicros faults files listed) =
            .ok (some (newName, file, rows)) ∧
          (compactSet recvMicros faults files listed).effects =
            removals (doomedOf recvMicros faults files listed) ++ .commit newName file ::
              removals (originalsOf recvMicros faults files listed newName) := by
  unfold compactSet
  simp only []
  split
  · exact .inl rfl
  · split
    · exact .inl rfl
    · exact .inl rfl
    · rename_i newName file rows merged
      exact .inr ⟨newName, file, rows, merged, rfl⟩

variable {recvMicros : Row → Option Int} {faults : Faults} {files : Partition Row Schema}
  {listed : Listing} {takes : Cursor → Prop}

theorem mem_doomedOf {name : Text} :
    name ∈ doomedOf recvMicros faults files listed ↔
      name ∈ superseded recvMicros faults files listed :=
  mem_pathSet

theorem mem_existingOf {entry : Cursor × Text} :
    entry ∈ existingOf recvMicros faults files listed ↔
      entry ∈ listed ∧ entry.2 ∉ superseded recvMicros faults files listed := by
  simp [existingOf, mem_doomedOf]

/-- What the merge of a set commits: a name its selection takes, that names a listed
segment wherever it is present. -/
theorem merged_name_spec (lists : Lists takes files listed) (closed : MergeClosed takes)
    {newName : Text} {file : SegmentFile Row Schema} {rows : Nat}
    (merged : merge faults files (existingOf recvMicros faults files listed) =
      .ok (some (newName, file, rows))) :
    ∃ cursor, mergedCursor (existingOf recvMicros faults files listed) = some cursor ∧
      newName = cursor.fileName ∧ Cursor.parse newName = some cursor ∧ takes cursor := by
  obtain ⟨cursor, isMerged, rfl, _⟩ := merge_spec merged
  have inputs (entry : Cursor × Text)
      (member : entry ∈ existingOf recvMicros faults files listed) :
      takes entry.1 ∧ entry.1.InRange := by
    have inListed := (mem_existingOf.mp member).1
    exact ⟨lists.taken entry inListed,
      Cursor.inRange_of_parse_eq_some (lists.parsed entry inListed)⟩
  have inRange := inRange_of_mergedCursor_eq_some (fun entry member => (inputs entry member).2)
    isMerged
  exact ⟨cursor, isMerged, rfl, Cursor.parse_fileName inRange,
    closed _ cursor inputs isMerged⟩

/-- A compaction touches only names its selection takes. -/
theorem taken_of_mem_effects (lists : Lists takes files listed) (closed : MergeClosed takes)
    {effect : Effect Text (SegmentFile Row Schema)}
    (member : effect ∈ (compactSet recvMicros faults files listed).effects) :
    ∃ cursor, Cursor.parse effect.target = some cursor ∧ takes cursor := by
  have ofListed (name : Text) (inListed : name ∈ listed.map Prod.snd) :
      ∃ cursor, Cursor.parse name = some cursor ∧ takes cursor := by
    obtain ⟨entry, entryMember, rfl⟩ := List.mem_map.mp inListed
    exact ⟨entry.1, lists.parsed entry entryMember, lists.taken entry entryMember⟩
  have ofDoomed (name : Text) (doomed : name ∈ doomedOf recvMicros faults files listed) :
      ∃ cursor, Cursor.parse name = some cursor ∧ takes cursor :=
    ofListed name (exists_keeper_of_mem_superseded lists.distinct (mem_doomedOf.mp doomed)).1
  rcases compactSet_cases recvMicros faults files listed with
    equal | ⟨newName, file, rows, merged, equal⟩
  · rw [equal] at member
    obtain ⟨name, doomed, rfl⟩ := mem_removals.mp member
    exact ofDoomed name doomed
  · rw [equal, List.mem_append, List.mem_cons] at member
    rcases member with removed | rfl | removed
    · obtain ⟨name, doomed, rfl⟩ := mem_removals.mp removed
      exact ofDoomed name doomed
    · obtain ⟨cursor, _, _, parsed, taken⟩ := merged_name_spec lists closed merged
      exact ⟨cursor, parsed, taken⟩
    · obtain ⟨name, inExisting, rfl⟩ := mem_removals.mp removed
      obtain ⟨entry, entryMember, rfl⟩ := List.mem_map.mp (List.mem_of_mem_filter inExisting)
      exact ofListed _ (List.mem_map_of_mem (mem_existingOf.mp entryMember).1)

/-- Removing some of the superseded segments keeps every row. -/
theorem keeps_removals_doomed (lists : Lists takes files listed) (count : Nat) :
    Keeps files (applyAll
      (removals ((doomedOf recvMicros faults files listed).take count)) files) := by
  intro name file isSegment
  by_cases removed : name ∈ (doomedOf recvMicros faults files listed).take count
  · obtain ⟨_, keeper, keeperListed, notDoomed, keeperFile, found, keeperFound, nameFound,
      below⟩ := exists_keeper_of_mem_superseded lists.distinct
        (mem_doomedOf.mp (List.mem_of_mem_take removed))
    obtain rfl : found = file := Option.some.inj (nameFound.symm.trans isSegment.2)
    obtain ⟨entry, entryMember, rfl⟩ := List.mem_map.mp keeperListed
    refine ⟨entry.2, keeperFile, ⟨by simp [lists.parsed entry entryMember], ?_⟩, below⟩
    have stays : entry.2 ∉ (doomedOf recvMicros faults files listed).take count :=
      fun member => notDoomed (mem_doomedOf.mp (List.mem_of_mem_take member))
    rw [lookup_applyAll_removals, if_neg stays, keeperFound]
  · refine ⟨name, file, ⟨isSegment.1, ?_⟩, le_rfl⟩
    rw [lookup_applyAll_removals, if_neg removed, isSegment.2]

omit [DecidableEq Row] in
/-- Every input's rows are among the replacement's. -/
theorem rows_le_of_merge {newName : Text} {file : SegmentFile Row Schema} {rows : Nat}
    {existing : Listing} (merged : merge faults files existing = .ok (some (newName, file, rows)))
    {name : Text} (member : name ∈ existing.map Prod.snd) {input : SegmentFile Row Schema}
    (found : files.lookup name = some input) :
    (input.rows : Multiset Row) ≤ (file.rows : Multiset Row) := by
  obtain ⟨_, _, _, sumRows, _⟩ := merge_spec merged
  have share : held fileRows files name = (input.rows : Multiset Row) := by
    simp [held, found, fileRows]
  rw [sumRows, ← share]
  exact List.single_le_sum (fun _ _ => Multiset.zero_le _) _ (List.mem_map_of_mem member)

/-- The partition once the replacement is committed and some originals are removed. -/
def replaced (recvMicros : Row → Option Int) (faults : Faults) (files : Partition Row Schema)
    (listed : Listing) (newName : Text) (file : SegmentFile Row Schema) (removed : Nat) :
    Partition Row Schema :=
  applyAll (removals (doomedOf recvMicros faults files listed) ++ .commit newName file ::
    removals ((originalsOf recvMicros faults files listed newName).take removed)) files

section Replaced

variable {newName : Text} {file : SegmentFile Row Schema} {rows removed : Nat}

/-- The replacement is never among what its own run removes. -/
theorem lookup_replaced_new :
    (replaced recvMicros faults files listed newName file removed).lookup newName = some file := by
  have notRemoved :
      newName ∉ (originalsOf recvMicros faults files listed newName).take removed :=
    fun member => by simpa using (List.mem_filter.mp (List.mem_of_mem_take member)).2
  rw [replaced, applyAll_append, applyAll_cons, lookup_applyAll_removals, if_neg notRemoved]
  exact AList.lookup_insert _

theorem lookup_replaced_of_ne {name : Text} (different : name ≠ newName) :
    (replaced recvMicros faults files listed newName file removed).lookup name =
      if name ∈ (originalsOf recvMicros faults files listed newName).take removed ∨
          name ∈ doomedOf recvMicros faults files listed then none
      else files.lookup name := by
  rw [replaced, applyAll_append, applyAll_cons, lookup_applyAll_removals]
  simp only [Effect.apply, AList.lookup_insert_ne different, lookup_applyAll_removals]
  split_ifs with first second third <;> tauto

/-- Once the replacement is committed every row is in it or where it was, whichever
originals have been removed. -/
theorem keeps_replaced (lists : Lists takes files listed) (closed : MergeClosed takes)
    (merged : merge faults files (existingOf recvMicros faults files listed) =
      .ok (some (newName, file, rows))) :
    Keeps files (replaced recvMicros faults files listed newName file removed) := by
  obtain ⟨cursor, _, _, newParsed, newTaken⟩ := merged_name_spec lists closed merged
  have newSegment : IsSegment (replaced recvMicros faults files listed newName file removed)
      newName file := ⟨by simp [newParsed], lookup_replaced_new⟩
  have inExisting {name : Text} (inListed : name ∈ listed.map Prod.snd)
      (kept : name ∉ superseded recvMicros faults files listed) :
      name ∈ (existingOf recvMicros faults files listed).map Prod.snd := by
    obtain ⟨entry, entryMember, rfl⟩ := List.mem_map.mp inListed
    exact List.mem_map_of_mem (mem_existingOf.mpr ⟨entryMember, kept⟩)
  intro name input isSegment
  by_cases inListed : name ∈ listed.map Prod.snd
  · by_cases isDoomed : name ∈ superseded recvMicros faults files listed
    · obtain ⟨_, keeper, keeperListed, notDoomed, keeperFile, found, keeperFound, nameFound,
        below⟩ := exists_keeper_of_mem_superseded lists.distinct isDoomed
      obtain rfl : found = input := Option.some.inj (nameFound.symm.trans isSegment.2)
      exact ⟨newName, file, newSegment, below.trans
        (rows_le_of_merge merged (inExisting keeperListed notDoomed) keeperFound)⟩
    · exact ⟨newName, file, newSegment,
        rows_le_of_merge merged (inExisting inListed isDoomed) isSegment.2⟩
  · refine ⟨name, input, ⟨isSegment.1, ?_⟩, le_rfl⟩
    have notDoomed : name ∉ doomedOf recvMicros faults files listed := fun member =>
      inListed (exists_keeper_of_mem_superseded lists.distinct (mem_doomedOf.mp member)).1
    have notRemoved :
        name ∉ (originalsOf recvMicros faults files listed newName).take removed :=
      fun member => by
        obtain ⟨entry, entryMember, rfl⟩ :=
          List.mem_map.mp (List.mem_of_mem_filter (List.mem_of_mem_take member))
        exact inListed (List.mem_map_of_mem (mem_existingOf.mp entryMember).1)
    have notNew : name ≠ newName := by
      rintro rfl
      have present : name ∈ files := by
        rw [← AList.lookup_isSome, isSegment.2]
        rfl
      exact inListed (List.mem_map.mpr
        ⟨_, lists.complete cursor name present newParsed newTaken, rfl⟩)
    rw [lookup_replaced_of_ne notNew, if_neg (not_or.mpr ⟨notRemoved, notDoomed⟩), isSegment.2]

end Replaced

/-- Where a crash leaves a set: some of the superseded segments are gone, or all of
them, with the replacement committed and some originals gone too. -/
theorem take_effects_cases (recvMicros : Row → Option Int) (faults : Faults)
    (files : Partition Row Schema) (listed : Listing) (count : Nat) :
    (∃ removed, (compactSet recvMicros faults files listed).effects.take count =
        removals ((doomedOf recvMicros faults files listed).take removed)) ∨
      ∃ newName file rows removed,
        merge faults files (existingOf recvMicros faults files listed) =
            .ok (some (newName, file, rows)) ∧
          (compactSet recvMicros faults files listed).effects.take count =
            removals (doomedOf recvMicros faults files listed) ++ .commit newName file ::
              removals ((originalsOf recvMicros faults files listed newName).take removed) := by
  rcases compactSet_cases recvMicros faults files listed with
    equal | ⟨newName, file, rows, merged, equal⟩
  · exact .inl ⟨count, by rw [equal, take_removals]⟩
  · rw [equal, List.take_append, take_removals]
    rcases reached : count - (removals (doomedOf recvMicros faults files listed) :
        List (Effect Text (SegmentFile Row Schema))).length with _ | further
    · exact .inl ⟨count, by rw [List.take_zero, List.append_nil]⟩
    · have whole : (doomedOf recvMicros faults files listed).take count =
          doomedOf recvMicros faults files listed := by
        refine List.take_of_length_le ?_
        simp only [removals, List.length_map] at reached
        omega
      refine .inr ⟨newName, file, rows, further, merged, ?_⟩
      rw [List.take_succ_cons, take_removals, whole]

/-- **Every prefix of one set's effects keeps every row.** -/
theorem compactSet_keeps (lists : Lists takes files listed) (closed : MergeClosed takes)
    (count : Nat) :
    Keeps files
      (applyAll ((compactSet recvMicros faults files listed).effects.take count) files) := by
  rcases take_effects_cases recvMicros faults files listed count with
    ⟨removed, equal⟩ | ⟨newName, file, rows, removed, merged, equal⟩
  · rw [equal]
    exact keeps_removals_doomed lists removed
  · rw [equal]
    exact keeps_replaced lists closed merged

end Set

end Segments
end Datawatch
