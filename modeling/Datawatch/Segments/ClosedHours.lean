import Datawatch.Segments.Resume
import Datawatch.Segments.Tree

/-!
# Today's closed hours

One day's partitions under a root, each with its closed hours merged in turn.  What one
partition's hours come to is said first, and then what the walk over all of them does.
-/

namespace Datawatch
namespace Segments

open Library Library.Directory

/-- Whether a walk of one day's partitions descends into a directory: every other day's is pruned
by name. -/
def Descends (day level : Text) : Prop := ¬ "date=".toList <+: level ∨ level = day

instance (day level : Text) : Decidable (Descends day level) := by
  unfold Descends
  infer_instance

/-- Whether a partition is one a walk of a day's partitions comes to, and of that day. -/
def IsDated (root day partition : Text) : Prop :=
  (∀ level ∈ (components partition).drop (components root).length, Descends day level) ∧
    day ∈ components partition

instance (root day partition : Text) : Decidable (IsDated root day partition) := by
  unfold IsDated
  infer_instance

section Walk

variable {Content : Type u}

/-- The files of one partition of a tree. -/
def filesIn (tree : Tree Content) (partition : Text) : Directory Text Content :=
  ofList (tree.entries.filterMap fun entry =>
    if entry.1.partition = partition then some (entry.1.name, entry.2) else none)

/-- One partition's effect, as an effect on its tree. -/
def within (partition : Text) : Effect Text Content → Effect Path Content
  | .commit name content => .commit ⟨partition, name⟩ content
  | .remove name => .remove ⟨partition, name⟩

/-- A root's partitions of one day with their segments. -/
def datedPartitions (tree : Tree Content) (root day : Text) : List (Text × Listing) :=
  (partitionsListed tree root).filter fun listed => IsDated root day listed.1

end Walk

section Run

variable {Row : Type u} {Schema : Type v}

/-- A run over a tree: its effects in order, and what it returned once all were made. -/
structure TreeTrace (Row : Type u) (Schema : Type v) where
  effects : List (Effect Path (SegmentFile Row Schema))
  result : Except SegmentError Compacted

/-- A tree as a run leaves it. -/
def TreeTrace.after (run : TreeTrace Row Schema) (tree : Tree (SegmentFile Row Schema)) :
    Tree (SegmentFile Row Schema) := applyAll run.effects tree

variable [DecidableEq Row] [DecidableEq Schema] (recvMicros : Row → Option Int)
  (faults : Text → Faults)

/-- Compact the closed hours of listed partitions in turn. -/
def compactListed (cutoffMicros : Int) :
    List (Text × Listing) → Compacted → Tree (SegmentFile Row Schema) → TreeTrace Row Schema
  | [], total, _ => ⟨[], .ok total⟩
  | (partition, listed) :: rest, total, tree =>
      let run := compactHours recvMicros (faults partition) cutoffMicros listed
        (closedHours cutoffMicros listed) total (filesIn tree partition)
      let effects := run.effects.map (within partition)
      match run.result with
      | .error error => ⟨effects, .error error⟩
      | .ok total =>
          let later := compactListed cutoffMicros rest total (applyAll effects tree)
          ⟨effects ++ later.effects, later.result⟩

/-- Compact today's closed hours under a root: what one run of it does. -/
def compactClosedHoursUnder (tree : Tree (SegmentFile Row Schema)) (root today : Text)
    (cutoffMicros : Int) : TreeTrace Row Schema :=
  compactListed recvMicros faults cutoffMicros
    (datedPartitions tree root ("date=".toList ++ today)) ⟨0, 0, 0⟩ tree

end Run

section Walk

variable {Content : Type u}

theorem lookup_filesIn (tree : Tree Content) (partition name : Text) :
    (filesIn tree partition).lookup name = tree.lookup ⟨partition, name⟩ := by
  unfold filesIn AList.lookup
  induction tree.entries with
  | nil => rfl
  | cons entry entries inductionHypothesis =>
      obtain ⟨⟨other, found⟩, content⟩ := entry
      rw [List.filterMap_cons]
      by_cases here : other = partition
      · subst here
        rw [if_pos rfl]
        change (AList.insert found content (ofList _ : Directory Text Content)).lookup name = _
        by_cases same : name = found
        · subst same
          rw [AList.lookup_insert]
          exact (List.dlookup_cons_eq entries (⟨other, name⟩ : Path) content).symm
        · rw [AList.lookup_insert_ne same, List.dlookup_cons_ne]
          · exact inductionHypothesis
          · exact fun equal => same (Path.mk.inj equal).2
      · rw [if_neg here, List.dlookup_cons_ne]
        · exact inductionHypothesis
        · exact fun equal => here (Path.mk.inj equal).1.symm

theorem target_within (partition : Text) (effect : Effect Text Content) :
    (within partition effect).target = ⟨partition, effect.target⟩ := by
  cases effect <;> rfl

/-- Effects within one partition make of it what they make of its files. -/
theorem lookup_applyAll_within {partition : Text} (effects : List (Effect Text Content))
    {tree : Tree Content} {files : Directory Text Content}
    (agree : ∀ name, files.lookup name = tree.lookup ⟨partition, name⟩) (name : Text) :
    (applyAll (effects.map (within partition)) tree).lookup ⟨partition, name⟩ =
      (applyAll effects files).lookup name := by
  induction effects generalizing tree files with
  | nil => exact (agree name).symm
  | cons effect effects inductionHypothesis =>
      rw [List.map_cons, applyAll_cons, applyAll_cons]
      apply inductionHypothesis
      intro other
      by_cases same : other = effect.target
      · subst same
        cases effect with
        | commit target content =>
            simp only [Effect.apply, within, Effect.target, AList.lookup_insert]
        | remove target => simp only [Effect.apply, within, Effect.target, AList.lookup_erase]
      · rw [Effect.lookup_apply_of_ne same, Effect.lookup_apply_of_ne, agree other]
        rw [target_within]
        exact fun equal => same (Path.mk.inj equal).2

/-- Effects within one partition leave another as it was. -/
theorem lookup_applyAll_within_of_ne {partition : Text} (effects : List (Effect Text Content))
    (tree : Tree Content) {path : Path} (elsewhere : path.partition ≠ partition) :
    (applyAll (effects.map (within partition)) tree).lookup path = tree.lookup path := by
  apply lookup_applyAll_of_untouched
  intro effect isMember same
  obtain ⟨effect, _, rfl⟩ := List.mem_map.mp isMember
  rw [target_within] at same
  exact elsewhere (congrArg Path.partition same)

end Walk

/-- Of the segments a selection takes, a partition holds one at most. -/
def AtMostOne {Content : Type u} (takes : Cursor → Prop) (files : Directory Text Content) : Prop :=
  ∀ first ∈ files, ∀ second ∈ files, ∀ firstCursor secondCursor,
    Cursor.parse first = some firstCursor → Cursor.parse second = some secondCursor →
      takes firstCursor → takes secondCursor → first = second

variable {Row : Type u} {Schema : Type v}

/-- Every segment of a partition holds a row: a writer of no rows commits nothing. -/
def Filled (files : Partition Row Schema) : Prop :=
  ∀ name file, IsSegment files name file → file.rows ≠ []

/-- A list of one item at most has no two. -/
theorem eq_of_mem_of_few {items : List Item} (few : items.length ≤ 1) {first second : Item}
    (isFirst : first ∈ items) (isSecond : second ∈ items) : first = second := by
  cases items with
  | nil => cases isFirst
  | cons head rest =>
      have alone : rest = [] := List.length_eq_zero_iff.mp (Nat.le_zero.mp (Nat.le_of_succ_le_succ few))
      rw [alone, List.mem_singleton] at isFirst isSecond
      rw [isFirst, isSecond]

/-- What is listed has a merged name. -/
theorem isSome_mergedCursor {existing : Listing} (listed : existing ≠ []) :
    (mergedCursor existing).isSome := by
  cases existing with
  | nil => exact absurd rfl listed
  | cons entry rest =>
      obtain ⟨cursor, name⟩ := entry
      cases cursor with
      | time firstMicros lastMicros pid flush => rfl
      | block first last =>
          simp only [mergedCursor, positionSpan, List.map_cons, List.min?_cons, List.max?_cons,
            Option.bind_some, Option.map_some, Option.isSome_some]
      | seq first last =>
          simp only [mergedCursor, positionSpan, List.map_cons, List.min?_cons, List.max?_cons,
            Option.bind_some, Option.map_some, Option.isSome_some]

variable [DecidableEq Row] [DecidableEq Schema] {recvMicros : Row → Option Int}

section Set

variable {faults : Faults} {files : Partition Row Schema} {listed : Listing} {takes : Cursor → Prop}

omit [DecidableEq Row] in
/-- A merge of segments that hold rows writes something. -/
theorem merge_ne_none (filled : Filled files) {existing : Listing}
    (parsed : ∀ entry ∈ existing, Cursor.parse entry.2 = some entry.1) (some : existing ≠ []) :
    merge faults files existing ≠ .ok none := by
  intro merged
  obtain ⟨cursor, isMerged⟩ := Option.isSome_iff_exists.mp (isSome_mergedCursor some)
  cases existing with
  | nil => exact some rfl
  | cons entry rest =>
      obtain ⟨firstCursor, firstName⟩ := entry
      simp only [merge, isMerged] at merged
      cases read : readSegment faults.merge files firstName with
      | none =>
          rw [read] at merged
          cases merged
      | some first =>
          have isFirst : IsSegment files firstName first :=
            ⟨by simp [parsed _ List.mem_cons_self], lookup_of_readSegment_eq_some read⟩
          simp only [read, if_neg (filled _ _ isFirst)] at merged
          cases streamed : streamRows faults files first.schema ((firstCursor, firstName) :: rest) with
          | error error =>
              rw [streamed] at merged
              cases merged
          | ok rows =>
              rw [streamed] at merged
              cases merged

/-- A replacement holds a row where what it replaces does. -/
theorem rows_ne_nil_of_merge (lists : Lists takes files listed) (filled : Filled files)
    {newName : Text} {file : SegmentFile Row Schema} {rows : Nat}
    (merged : merge faults files (existingOf recvMicros faults files listed) =
      .ok (some (newName, file, rows))) : file.rows ≠ [] := by
  obtain ⟨cursor, isMerged, _, _, found⟩ := merge_spec merged
  cases isExisting : existingOf recvMicros faults files listed with
  | nil =>
      rw [isExisting] at isMerged
      cases isMerged
  | cons entry rest =>
      have isMember : entry ∈ existingOf recvMicros faults files listed := by
        rw [isExisting]
        exact List.mem_cons_self
      obtain ⟨input, isInput, _⟩ := found entry.2 (List.mem_map_of_mem isMember)
      have isSegment : IsSegment files entry.2 input :=
        ⟨by simp [lists.parsed entry (mem_existingOf.mp isMember).1], isInput⟩
      have below := rows_le_of_merge merged (List.mem_map_of_mem isMember) isInput
      intro empty
      rw [empty, Multiset.coe_nil, nonpos_iff_eq_zero, Multiset.coe_eq_zero] at below
      exact filled _ _ isSegment below

/-- A whole run over a set: its superseded segments are gone, and what is left may be replaced. -/
theorem compactSet_whole (recvMicros : Row → Option Int) (faults : Faults)
    (files : Partition Row Schema) (listed : Listing) :
    applyAll (compactSet recvMicros faults files listed).effects files =
        applyAll (removals (doomedOf recvMicros faults files listed)) files ∨
      ∃ newName file rows,
        merge faults files (existingOf recvMicros faults files listed) =
            .ok (some (newName, file, rows)) ∧
          applyAll (compactSet recvMicros faults files listed).effects files =
            replaced recvMicros faults files listed newName file
              (originalsOf recvMicros faults files listed newName).length := by
  rcases compactSet_cases recvMicros faults files listed with
    equal | ⟨newName, file, rows, merged, equal⟩
  · exact .inl (by rw [equal])
  · exact .inr ⟨newName, file, rows, merged, by rw [equal, replaced, List.take_length]⟩

/-- A run over a set leaves every segment a row. -/
theorem filled_compactSet (lists : Lists takes files listed) (filled : Filled files) :
    Filled (applyAll (compactSet recvMicros faults files listed).effects files) := by
  intro name file isSegment
  obtain ⟨parses, found⟩ := isSegment
  rcases compactSet_whole recvMicros faults files listed with
    whole | ⟨newName, replacement, rows, merged, whole⟩
  · rw [whole, lookup_applyAll_removals] at found
    split at found
    · cases found
    · exact filled _ _ ⟨parses, found⟩
  · rw [whole] at found
    by_cases isNew : name = newName
    · rw [isNew, lookup_replaced_new] at found
      obtain rfl := Option.some.inj found
      exact rows_ne_nil_of_merge lists filled merged
    · rw [lookup_replaced_of_ne isNew] at found
      split at found
      · cases found
      · exact filled _ _ ⟨parses, found⟩

/-- What is left of a set where nothing replaced it. -/
theorem mem_existingOf_of_removed (lists : Lists takes files listed) {name : Text} {cursor : Cursor}
    (isLeft : name ∈ applyAll (removals (doomedOf recvMicros faults files listed)) files)
    (parsed : Cursor.parse name = some cursor) (taken : takes cursor) :
    (cursor, name) ∈ existingOf recvMicros faults files listed := by
  rw [← AList.lookup_isSome, lookup_applyAll_removals] at isLeft
  split at isLeft
  · cases isLeft
  · rename_i notDoomed
    exact mem_existingOf.mpr ⟨lists.complete _ _ (AList.lookup_isSome.mp isLeft) parsed taken,
      fun superseded => notDoomed (mem_doomedOf.mpr superseded)⟩

/-- Where a set was replaced only the replacement is left of it. -/
theorem eq_of_mem_replaced (lists : Lists takes files listed) {newName name : Text}
    {file : SegmentFile Row Schema} {cursor : Cursor}
    (isLeft : name ∈ replaced recvMicros faults files listed newName file
      (originalsOf recvMicros faults files listed newName).length)
    (parsed : Cursor.parse name = some cursor) (taken : takes cursor) : name = newName := by
  by_contra different
  rw [← AList.lookup_isSome, lookup_replaced_of_ne different, List.take_length] at isLeft
  split at isLeft
  · cases isLeft
  · rename_i stays
    rw [not_or] at stays
    refine stays.1 (List.mem_filter.mpr ⟨?_, decide_eq_true different⟩)
    have inListed := lists.complete _ _ (AList.lookup_isSome.mp isLeft) parsed taken
    exact List.mem_map_of_mem (mem_existingOf.mpr
      ⟨inListed, fun superseded => stays.2 (mem_doomedOf.mpr superseded)⟩)

/-- A run that returns leaves one segment of a set, or none, or replaces them all. -/
theorem compactSet_returned (lists : Lists takes files listed) (filled : Filled files)
    {counts : Nat × Nat}
    (returned : (compactSet recvMicros faults files listed).result = .ok counts) :
    (existingOf recvMicros faults files listed).length ≤ 1 ∧
        applyAll (compactSet recvMicros faults files listed).effects files =
          applyAll (removals (doomedOf recvMicros faults files listed)) files ∨
      ∃ newName file, applyAll (compactSet recvMicros faults files listed).effects files =
        replaced recvMicros faults files listed newName file
          (originalsOf recvMicros faults files listed newName).length := by
  by_cases few : (existingOf recvMicros faults files listed).length ≤ 1
  · refine .inl ⟨few, ?_⟩
    unfold existingOf doomedOf at few
    simp only [compactSet, if_pos few, doomedOf]
  · cases merged : merge faults files (existingOf recvMicros faults files listed) with
    | error error =>
        unfold existingOf doomedOf at few merged
        simp only [compactSet, if_neg few, merged] at returned
        cases returned
    | ok made =>
        cases made with
        | none =>
            refine absurd merged (merge_ne_none filled (fun entry isMember => ?_) fun none => ?_)
            · exact lists.parsed entry (mem_existingOf.mp isMember).1
            · rw [none] at few
              exact few (Nat.zero_le 1)
        | some made =>
            refine .inr ⟨made.1, made.2.1, ?_⟩
            unfold existingOf doomedOf at few merged
            simp only [compactSet, if_neg few, merged, replaced, List.take_length, originalsOf,
              existingOf, doomedOf]
            rfl

/-- **A run over a set leaves one segment of it at most**, where it returns. -/
theorem atMostOne_compactSet (lists : Lists takes files listed) (filled : Filled files)
    {counts : Nat × Nat}
    (returned : (compactSet recvMicros faults files listed).result = .ok counts) :
    AtMostOne takes (applyAll (compactSet recvMicros faults files listed).effects files) := by
  intro first isFirst second isSecond firstCursor secondCursor firstParsed secondParsed firstTaken
    secondTaken
  rcases compactSet_returned lists filled returned with ⟨few, whole⟩ | ⟨newName, file, whole⟩
  · rw [whole] at isFirst isSecond
    have isOne := mem_existingOf_of_removed lists isFirst firstParsed firstTaken
    have isOther := mem_existingOf_of_removed lists isSecond secondParsed secondTaken
    exact congrArg Prod.snd (eq_of_mem_of_few few isOne isOther)
  · rw [whole] at isFirst isSecond
    exact (eq_of_mem_replaced lists isFirst firstParsed firstTaken).trans
      (eq_of_mem_replaced lists isSecond secondParsed secondTaken).symm

end Set

section Hours

variable {faults : Faults} {files : Partition Row Schema} {listed : Listing} {cutoffMicros : Int}
  {hour : Int} {hours : List Int} {total : Compacted}

/-- The closed hours of a listing are each listed. -/
abbrev ListsHours (cutoffMicros : Int) (listed : Listing) (hours : List Int)
    (files : Partition Row Schema) : Prop :=
  ∀ hour ∈ hours, Lists (fun cursor => closedHour cutoffMicros cursor = some hour) files
    (inHour cutoffMicros hour listed)

/-- What one hour's run does. -/
abbrev hourRun (recvMicros : Row → Option Int) (faults : Faults) (cutoffMicros : Int)
    (listed : Listing) (hour : Int) (files : Partition Row Schema) : Trace Row Schema (Nat × Nat) :=
  compactSet recvMicros faults files (inHour cutoffMicros hour listed)

/-- One hour's run leaves the other hours listed. -/
theorem listsHours_after (fresh : hour ∉ hours)
    (lists : ListsHours cutoffMicros listed (hour :: hours) files) :
    ListsHours cutoffMicros listed hours
      (applyAll (hourRun recvMicros faults cutoffMicros listed hour files).effects files) := by
  rw [ListsHours, List.forall_mem_cons] at lists
  intro other isOther
  have different : other ≠ hour := by
    rintro rfl
    exact fresh isOther
  refine lists_after_other_hour different (fun effect isEffect => ?_) (lists.2 other isOther)
  exact taken_of_mem_effects lists.1 (mergeClosed_closedHour cutoffMicros hour) isEffect

/-- A run over hours passes by the first, stops at it, or goes on once it is made. -/
theorem compactHours_cons (recvMicros : Row → Option Int) (faults : Faults) (cutoffMicros : Int)
    (listed : Listing) (hour : Int) (hours : List Int) (total : Compacted)
    (files : Partition Row Schema) :
    ((inHour cutoffMicros hour listed).length ≤ 1 ∧
      compactHours recvMicros faults cutoffMicros listed (hour :: hours) total files =
        compactHours recvMicros faults cutoffMicros listed hours total files) ∨
    (∃ error, compactHours recvMicros faults cutoffMicros listed (hour :: hours) total files =
      ⟨(hourRun recvMicros faults cutoffMicros listed hour files).effects, .error error⟩) ∨
    ∃ counts later,
      (hourRun recvMicros faults cutoffMicros listed hour files).result = .ok counts ∧
      compactHours recvMicros faults cutoffMicros listed (hour :: hours) total files =
        ⟨(hourRun recvMicros faults cutoffMicros listed hour files).effects ++
          (compactHours recvMicros faults cutoffMicros listed hours later
            (applyAll (hourRun recvMicros faults cutoffMicros listed hour files).effects
              files)).effects,
        (compactHours recvMicros faults cutoffMicros listed hours later
          (applyAll (hourRun recvMicros faults cutoffMicros listed hour files).effects
            files)).result⟩ := by
  by_cases few : (inHour cutoffMicros hour listed).length ≤ 1
  · exact .inl ⟨few, by rw [compactHours, if_pos few]⟩
  · right
    cases result : (hourRun recvMicros faults cutoffMicros listed hour files).result with
    | error error => exact .inl ⟨error, by simp only [compactHours, if_neg few, result]⟩
    | ok counts =>
        refine .inr ⟨counts, ⟨total.segmentsBefore + (inHour cutoffMicros hour listed).length,
          total.segmentsAfter + counts.1, total.rows + counts.2⟩, rfl, ?_⟩
        simp only [compactHours, if_neg few, result]

/-- **A run touches only segments of the hours it is about.**  What a selection says of every
segment of those hours, and of the merge of such segments, it says of every segment touched. -/
theorem taken_of_mem_compactHours {also : Cursor → Prop}
    (closed : ∀ hour, MergeClosed fun cursor =>
      closedHour cutoffMicros cursor = some hour ∧ also cursor)
    (isAlso : ∀ entry ∈ listed, (closedHour cutoffMicros entry.1).isSome → also entry.1)
    (distinct : hours.Nodup) (lists : ListsHours cutoffMicros listed hours files)
    {effect : Effect Text (SegmentFile Row Schema)}
    (isEffect : effect ∈
      (compactHours recvMicros faults cutoffMicros listed hours total files).effects) :
    ∃ cursor, Cursor.parse effect.target = some cursor ∧
      (∃ hour ∈ hours, closedHour cutoffMicros cursor = some hour) ∧ also cursor := by
  induction hours generalizing files total with
  | nil => cases isEffect
  | cons hour hours inductionHypothesis =>
      obtain ⟨fresh, distinctRest⟩ := List.nodup_cons.mp distinct
      have rest := (List.forall_mem_cons.mp lists).2
      have here (isHere : effect ∈
          (hourRun recvMicros faults cutoffMicros listed hour files).effects) :
          ∃ cursor, Cursor.parse effect.target = some cursor ∧
            (∃ other ∈ hour :: hours, closedHour cutoffMicros cursor = some other) ∧
            also cursor := by
        have ofHour := (List.forall_mem_cons.mp lists).1
        have both : Lists (fun cursor => closedHour cutoffMicros cursor = some hour ∧ also cursor)
            files (inHour cutoffMicros hour listed) :=
          { distinct := ofHour.distinct
            parsed := ofHour.parsed
            taken := fun entry isMember => ⟨ofHour.taken entry isMember,
              isAlso entry (List.mem_of_mem_filter isMember)
                (Option.isSome_iff_exists.mpr ⟨hour, ofHour.taken entry isMember⟩)⟩
            present := ofHour.present
            complete := fun cursor name inFiles isParsed taken =>
              ofHour.complete cursor name inFiles isParsed taken.1 }
        obtain ⟨cursor, parsed, isHour, alsoHolds⟩ :=
          taken_of_mem_effects both (closed hour) isHere
        exact ⟨cursor, parsed, ⟨hour, List.mem_cons_self, isHour⟩, alsoHolds⟩
      have later {counted : Compacted} {left : Partition Row Schema}
          (listsLeft : ListsHours cutoffMicros listed hours left)
          (isLater : effect ∈
            (compactHours recvMicros faults cutoffMicros listed hours counted left).effects) :
          ∃ cursor, Cursor.parse effect.target = some cursor ∧
            (∃ other ∈ hour :: hours, closedHour cutoffMicros cursor = some other) ∧
            also cursor := by
        obtain ⟨cursor, parsed, ⟨other, isOther, isHour⟩, alsoHolds⟩ :=
          inductionHypothesis distinctRest listsLeft isLater
        exact ⟨cursor, parsed, ⟨other, List.mem_cons_of_mem _ isOther, isHour⟩, alsoHolds⟩
      rcases compactHours_cons recvMicros faults cutoffMicros listed hour hours total files with
        ⟨_, passed⟩ | ⟨error, stopped⟩ | ⟨counts, counted, _, made⟩
      · rw [passed] at isEffect
        exact later rest isEffect
      · rw [stopped] at isEffect
        exact here isEffect
      · rw [made, List.mem_append] at isEffect
        exact isEffect.elim here (later (listsHours_after fresh lists))

/-- A run over hours touches segments of those hours. -/
theorem hour_of_mem_compactHours (distinct : hours.Nodup)
    (lists : ListsHours cutoffMicros listed hours files)
    {effect : Effect Text (SegmentFile Row Schema)}
    (isEffect : effect ∈
      (compactHours recvMicros faults cutoffMicros listed hours total files).effects) :
    ∃ cursor, Cursor.parse effect.target = some cursor ∧
      ∃ hour ∈ hours, closedHour cutoffMicros cursor = some hour := by
  have closed (hour : Int) :
      MergeClosed fun cursor => closedHour cutoffMicros cursor = some hour ∧ True := by
    simp only [and_true]
    exact mergeClosed_closedHour cutoffMicros hour
  obtain ⟨cursor, parsed, isHour, _⟩ :=
    taken_of_mem_compactHours closed (fun _ _ _ => trivial) distinct lists isEffect
  exact ⟨cursor, parsed, isHour⟩

omit [DecidableEq Row] [DecidableEq Schema] in
/-- Where no row is held twice, no two segments share one. -/
theorem disjoint_of_nodup (once : (contents files).Nodup) {first second : Cursor × Text}
    (isFirst : Cursor.parse first.2 = some first.1)
    (isSecond : Cursor.parse second.2 = some second.1) (apart : first.2 ≠ second.2) :
    ∀ row ∈ held fileRows files first.2, row ∉ held fileRows files second.2 := by
  intro row inFirst inSecond
  have firstHeld : row ∈ held segmentRows files first.2 := by
    rwa [held_segmentRows (by simp [isFirst])]
  have secondHeld : row ∈ held segmentRows (files.erase first.2) second.2 := by
    rw [held, AList.lookup_erase_ne apart.symm]
    rwa [← held_segmentRows (by simp [isSecond])] at inSecond
  rw [contents, weight_eq_held_add_erase segmentRows files first.2,
    weight_eq_held_add_erase segmentRows (files.erase first.2) second.2,
    Multiset.nodup_add] at once
  exact Multiset.disjoint_left.mp once.2.2 firstHeld (Multiset.mem_add.mpr (.inl secondHeld))

/-- **A run keeps the contents**, where no row is held twice. -/
theorem contents_compactHours (distinct : hours.Nodup)
    (lists : ListsHours cutoffMicros listed hours files) (once : (contents files).Nodup) :
    contents (applyAll
      (compactHours recvMicros faults cutoffMicros listed hours total files).effects files) =
        contents files := by
  induction hours generalizing files total with
  | nil => rfl
  | cons hour hours inductionHypothesis =>
      obtain ⟨fresh, distinctRest⟩ := List.nodup_cons.mp distinct
      have ofHour := (List.forall_mem_cons.mp lists).1
      have here : contents (applyAll
          (hourRun recvMicros faults cutoffMicros listed hour files).effects files) =
            contents files :=
        contents_compactSet_of_disjoint ofHour (mergeClosed_closedHour cutoffMicros hour)
          fun first isFirst second isSecond apart =>
            disjoint_of_nodup once (ofHour.parsed first isFirst) (ofHour.parsed second isSecond)
              apart
      rcases compactHours_cons recvMicros faults cutoffMicros listed hour hours total files with
        ⟨_, passed⟩ | ⟨error, stopped⟩ | ⟨counts, counted, _, made⟩
      · rw [passed]
        exact inductionHypothesis distinctRest (List.forall_mem_cons.mp lists).2 once
      · rw [stopped]
        exact here
      · rw [made, applyAll_append,
          inductionHypothesis distinctRest (listsHours_after fresh lists) (here ▸ once)]
        exact here

omit [DecidableEq Row] [DecidableEq Schema] in
/-- What is left of a selection alone is still one at most once others were touched. -/
theorem AtMostOne.after {takes : Cursor → Prop} (one : AtMostOne takes files)
    {effects : List (Effect Text (SegmentFile Row Schema))}
    (others : ∀ effect ∈ effects, ∀ cursor, Cursor.parse effect.target = some cursor →
      ¬ takes cursor) : AtMostOne takes (applyAll effects files) := by
  have stays {name : Text} {cursor : Cursor} (parsed : Cursor.parse name = some cursor)
      (taken : takes cursor) (isLeft : name ∈ applyAll effects files) : name ∈ files := by
    rw [← AList.lookup_isSome, lookup_applyAll_of_untouched] at isLeft
    · exact AList.lookup_isSome.mp isLeft
    · rintro effect isEffect rfl
      exact others effect isEffect cursor parsed taken
  intro first isFirst second isSecond firstCursor secondCursor firstParsed secondParsed firstTaken
    secondTaken
  exact one first (stays firstParsed firstTaken isFirst) second
    (stays secondParsed secondTaken isSecond) firstCursor secondCursor firstParsed secondParsed
    firstTaken secondTaken

/-- A run over other hours leaves one segment of an hour where there was one. -/
theorem AtMostOne.compactHours {hour : Int} (fresh : hour ∉ hours)
    (one : AtMostOne (fun cursor => closedHour cutoffMicros cursor = some hour) files)
    (distinct : hours.Nodup) (lists : ListsHours cutoffMicros listed hours files) :
    AtMostOne (fun cursor => closedHour cutoffMicros cursor = some hour) (applyAll
      (compactHours recvMicros faults cutoffMicros listed hours total files).effects files) := by
  apply one.after
  intro effect isEffect cursor parsed isHour
  obtain ⟨found, isFound, other, isOther, isTaken⟩ :=
    hour_of_mem_compactHours distinct lists isEffect
  obtain rfl := Option.some.inj (parsed.symm.trans isFound)
  obtain rfl := Option.some.inj (isHour.symm.trans isTaken)
  exact fresh isOther

/-- **A run leaves one segment of each hour at most**, where it returns. -/
theorem atMostOne_compactHours (distinct : hours.Nodup)
    (lists : ListsHours cutoffMicros listed hours files) (filled : Filled files)
    {counted : Compacted}
    (returned : (compactHours recvMicros faults cutoffMicros listed hours total files).result =
      .ok counted) {hour : Int} (isHour : hour ∈ hours) :
    AtMostOne (fun cursor => closedHour cutoffMicros cursor = some hour) (applyAll
      (compactHours recvMicros faults cutoffMicros listed hours total files).effects files) := by
  induction hours generalizing files total with
  | nil => cases isHour
  | cons first hours inductionHypothesis =>
      obtain ⟨fresh, distinctRest⟩ := List.nodup_cons.mp distinct
      obtain ⟨ofFirst, ofRest⟩ := List.forall_mem_cons.mp lists
      rcases compactHours_cons recvMicros faults cutoffMicros listed first hours total files with
        ⟨few, passed⟩ | ⟨error, stopped⟩ | ⟨counts, counted, settled, made⟩
      · rw [passed] at returned ⊢
        rcases List.mem_cons.mp isHour with rfl | isRest
        · refine AtMostOne.compactHours fresh ?_ distinctRest ofRest
          intro one isOne other isOther oneCursor otherCursor oneParsed otherParsed oneTaken
            otherTaken
          exact congrArg Prod.snd (eq_of_mem_of_few few
            (ofFirst.complete _ _ isOne oneParsed oneTaken)
            (ofFirst.complete _ _ isOther otherParsed otherTaken))
        · exact inductionHypothesis distinctRest ofRest filled returned isRest
      · rw [stopped] at returned
        cases returned
      · rw [made] at returned ⊢
        rw [applyAll_append]
        have ofLeft : ListsHours cutoffMicros listed hours (applyAll
            (hourRun recvMicros faults cutoffMicros listed first files).effects files) :=
          listsHours_after fresh lists
        rcases List.mem_cons.mp isHour with rfl | isRest
        · exact AtMostOne.compactHours fresh (atMostOne_compactSet ofFirst filled settled)
            distinctRest ofLeft
        · exact inductionHypothesis distinctRest ofLeft (filled_compactSet ofFirst filled) returned
            isRest

/-- A run over hours of one segment each does nothing. -/
theorem compactHours_of_few (few : ∀ hour ∈ hours, (inHour cutoffMicros hour listed).length ≤ 1) :
    compactHours recvMicros faults cutoffMicros listed hours total files = ⟨[], .ok total⟩ := by
  induction hours with
  | nil => rfl
  | cons hour hours inductionHypothesis =>
      obtain ⟨fewHere, fewRest⟩ := List.forall_mem_cons.mp few
      rw [compactHours, if_pos fewHere]
      exact inductionHypothesis fewRest

end Hours

end Segments
end Datawatch
