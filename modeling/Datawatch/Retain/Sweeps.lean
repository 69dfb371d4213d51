import Mathlib.Data.List.Flatten
import Datawatch.Retain

/-!
# What a sweep selects

A directory is a candidate exactly where it is the first dated one on its way below a family with
a horizon, and its day ended a horizon ago.
-/

namespace Datawatch
namespace Retain

open Library Segments Calendar Wire

section Days

variable {Content : Type u}

/-- The dated directories of a tree that lie in no other, with the date of each. -/
def days : FileTree Content → List (List EntryName × Text × FileTree Content)
  | .nil => []
  | .file _ _ rest => days rest
  | .directory name inside rest =>
      (match dateOfName name with
        | none => (days inside).map fun day => (name :: day.1, day.2)
        | some date => [([name], date, inside)]) ++ days rest

/-- A tree's dated directories are those that no dated directory leads to. -/
theorem mem_days {tree inside : FileTree Content} {path : List EntryName} {date : Text} :
    (path, date, inside) ∈ days tree ↔
      (path, inside) ∈ tree.directories ∧ ∃ between day, path = between ++ [day] ∧
        (∀ name ∈ between, dateOfName name = none) ∧ dateOfName day = some date := by
  induction tree generalizing path with
  | nil => simp [days, FileTree.directories]
  | file name content rest inductionHypothesis => exact inductionHypothesis
  | directory name below rest insideHypothesis restHypothesis =>
      rw [days, FileTree.directories, List.mem_append, restHypothesis, List.cons_append,
        List.mem_cons, List.mem_append, or_assoc.symm, or_and_right]
      apply or_congr_left
      cases isDate : dateOfName name with
      | some found =>
          simp only [List.mem_singleton]
          constructor
          · intro same
            obtain ⟨rfl, rfl, rfl⟩ := same
            exact ⟨.inl rfl, [], name, rfl, by simp, isDate⟩
          · rintro ⟨inTree, between, day, rfl, undated, dated⟩
            rcases inTree with same | inBelow
            · obtain ⟨isPath, rfl⟩ := Prod.mk.inj same
              have isBetween : between = [] := by
                cases between with
                | nil => rfl
                | cons first between => simp at isPath
              subst isBetween
              obtain rfl := List.singleton_inj.mp isPath
              rw [isDate] at dated
              rw [Option.some.inj dated]
              rfl
            · obtain ⟨⟨deeper, found⟩, isBelow, same⟩ := List.mem_map.mp inBelow
              obtain ⟨isPath, rfl⟩ := Prod.mk.inj same
              cases between with
              | nil =>
                  obtain ⟨_, rfl⟩ := List.cons_eq_cons.mp isPath
                  exact absurd rfl (FileTree.directory_ne_nil isBelow)
              | cons first between =>
                  obtain ⟨rfl, _⟩ := List.cons_eq_cons.mp isPath
                  have undatedName := undated name List.mem_cons_self
                  rw [isDate] at undatedName
                  cases undatedName
      | none =>
          simp only [List.mem_map, Prod.mk.injEq]
          constructor
          · rintro ⟨⟨deeper, found, other⟩, isDay, rfl, rfl, rfl⟩
            obtain ⟨inBelow, between, day, rfl, undated, dated⟩ := insideHypothesis.mp isDay
            refine ⟨.inr ⟨_, inBelow, rfl, rfl⟩, name :: between, day, rfl, ?_, dated⟩
            intro other isBetween
            rcases List.mem_cons.mp isBetween with rfl | later
            · exact isDate
            · exact undated other later
          · rintro ⟨inTree, between, day, isPath, undated, dated⟩
            rcases inTree with same | ⟨⟨deeper, found⟩, inBelow, same, rfl⟩
            · rw [same.1] at isPath
              cases between with
              | nil =>
                  obtain rfl := List.singleton_inj.mp isPath
                  rw [isDate] at dated
                  cases dated
              | cons first between => simp at isPath
            · cases between with
              | nil =>
                  rw [isPath] at same
                  obtain ⟨_, rfl⟩ := List.cons_eq_cons.mp same
                  exact absurd rfl (FileTree.directory_ne_nil inBelow)
              | cons first between =>
                  rw [isPath] at same
                  obtain ⟨isName, rfl⟩ := List.cons_eq_cons.mp same
                  subst isName
                  refine ⟨(between ++ [day], date, found), insideHypothesis.mpr
                    ⟨inBelow, between, day, rfl, ?_, dated⟩, isPath.symm, rfl⟩
                  exact fun other isBetween => undated other (List.mem_cons_of_mem _ isBetween)

/-- The dated directories of a tree are among its directories, in their order. -/
theorem sublist_days (tree : FileTree Content) :
    ((days tree).map Prod.fst).Sublist (tree.directories.map Prod.fst) := by
  induction tree with
  | nil => exact List.Sublist.refl _
  | file name content rest inductionHypothesis => exact inductionHypothesis
  | directory name inside rest insideHypothesis restHypothesis =>
      simp only [days, FileTree.directories, List.map_append, List.map_cons, List.map_map,
        List.cons_append]
      cases dateOfName name with
      | some date => exact (restHypothesis.trans (List.sublist_append_right _ _)).cons_cons _
      | none =>
          have below := insideHypothesis.map (List.cons name)
          simp only [List.map_map, Function.comp_def] at below ⊢
          exact (below.append restHypothesis).cons _

/-- The dated directories below the top of a tree are among its directories, in their order. -/
theorem sublist_daysBelow (tree : FileTree Content) :
    (tree.children.flatMap fun top => (days top.2).map fun day => top.1 :: day.1).Sublist
      (tree.directories.map Prod.fst) := by
  induction tree with
  | nil => exact List.Sublist.refl _
  | file name content rest inductionHypothesis => exact inductionHypothesis
  | directory name inside rest _ restHypothesis =>
      have below := (sublist_days inside).map (List.cons name)
      simp only [List.map_map, Function.comp_def] at below
      simp only [FileTree.children, FileTree.directories, List.flatMap_cons, List.map_append,
        List.map_cons, List.map_map, List.cons_append, Function.comp_def]
      exact (below.append restHypothesis).cons _

end Days

theorem concat_map_concat {Item : Type u} (pieces : Item → List Sweep) (items : List Item) :
    Sweep.concat (items.map fun item => .concat (pieces item)) =
      .concat (items.flatMap pieces) := by
  simp [Sweep.concat, List.flatMap_map, List.flatMap_assoc]

theorem concat_append (first second : List Sweep) :
    Sweep.concat (first ++ second) = .concat [.concat first, .concat second] := by
  simp [Sweep.concat]

theorem concat_singleton (only : Sweep) : Sweep.concat [only] = only := by
  simp [Sweep.concat]

section Verdicts

variable {Content : Type u} (bytes : Content → Nat) (policy : Policy) (nowMicros : Int)

/-- What a sweep makes of one dated directory. -/
def judge (family : Family) (horizon : Horizon) (path : List EntryName) (date : Text)
    (inside : FileTree Content) : Sweep :=
  match midnightOf date with
  | none => { unclassified := [path] }
  | some midnight =>
      if ended horizon nowMicros midnight then
        { candidates := [⟨path, family, date, inside.size bytes⟩] }
      else {}

/-- A family is swept one dated directory at a time. -/
theorem dated_eq (family : Family) (horizon : Horizon) (path : List EntryName)
    (tree : FileTree Content) :
    dated bytes nowMicros family horizon path tree =
      .concat ((days tree).map fun day =>
        judge bytes nowMicros family horizon (path ++ day.1) day.2.1 day.2.2) := by
  induction tree generalizing path with
  | nil => rfl
  | file name content rest inductionHypothesis => exact inductionHypothesis path
  | directory name inside rest insideHypothesis restHypothesis =>
      rw [dated, days, List.map_append, concat_append, restHypothesis]
      cases isDate : dateOfName name with
      | none =>
          simp only [insideHypothesis, List.map_map, Function.comp_def, List.append_assoc,
            List.singleton_append]
      | some date =>
          simp only [List.map_cons, List.map_nil, concat_singleton]
          rfl

/-- What a sweep makes of a root, one directory at a time. -/
def pieces (classify : Text → Option Family) (root : List EntryName)
    (files : FileTree Content) : List Sweep :=
  (files.descend root).children.flatMap fun top =>
    match classify top.1.text with
    | none => [{ unclassified := [root ++ [top.1]] }]
    | some family =>
        match policy.horizonFor family with
        | none => []
        | some horizon =>
            (days top.2).map fun day =>
              judge bytes nowMicros family horizon (root ++ [top.1] ++ day.1) day.2.1 day.2.2

theorem collect_eq (classify : Text → Option Family) (root : List EntryName)
    (files : FileTree Content) :
    collect bytes policy nowMicros classify root files =
      .concat (pieces bytes policy nowMicros classify root files) := by
  rw [collect, pieces, ← concat_map_concat]
  congr 2
  funext top
  unfold collectTop
  cases classify top.1.text with
  | none => exact (concat_singleton _).symm
  | some family =>
      cases isDeclared : policy.horizonFor family with
      | none =>
          simp only [isDeclared]
          rfl
      | some horizon =>
          simp only [isDeclared]
          exact dated_eq bytes nowMicros _ _ _ _

variable {bytes policy nowMicros} {files : FileTree Content}

/-- A dated directory of a root, the first on its way below a family with a horizon. -/
structure Swept (policy : Policy) (classify : Text → Option Family) (root : List EntryName)
    (files : FileTree Content) (path : List EntryName) (family : Family) (horizon : Horizon)
    (date : Text) (inside : FileTree Content) : Prop where
  declared : policy.horizonFor family = some horizon
  below : ∃ top between day, path = root ++ top :: (between ++ [day]) ∧
    classify top.text = some family ∧ (∀ name ∈ between, dateOfName name = none) ∧
      dateOfName day = some date ∧
        (top :: (between ++ [day]), inside) ∈ (files.descend root).directories

/-- A root's top level directory that names no family. -/
def Unknown (classify : Text → Option Family) (root : List EntryName) (files : FileTree Content)
    (path : List EntryName) : Prop :=
  ∃ top ∈ (files.descend root).children, path = root ++ [top.1] ∧ classify top.1.text = none

theorem mem_pieces {classify : Text → Option Family} {root : List EntryName} {piece : Sweep} :
    piece ∈ pieces bytes policy nowMicros classify root files ↔
      (∃ path, Unknown classify root files path ∧ piece = { unclassified := [path] }) ∨
        ∃ path family horizon date inside,
          Swept policy classify root files path family horizon date inside ∧
            piece = judge bytes nowMicros family horizon path date inside := by
  rw [pieces, List.mem_flatMap]
  constructor
  · rintro ⟨top, isChild, isPiece⟩
    split at isPiece
    case h_1 isUnknown =>
      exact .inl ⟨_, ⟨top, isChild, rfl, isUnknown⟩, List.mem_singleton.mp isPiece⟩
    case h_2 family isFamily =>
      split at isPiece
      case h_1 => cases isPiece
      case h_2 horizon isDeclared =>
        obtain ⟨⟨path, date, inside⟩, isDay, rfl⟩ := List.mem_map.mp isPiece
        obtain ⟨inTop, between, day, rfl, undated, isDated⟩ := mem_days.mp isDay
        refine .inr ⟨_, family, horizon, date, inside, ⟨isDeclared, top.1, between, day, ?_,
          isFamily, undated, isDated, ?_⟩, rfl⟩
        · rw [List.append_assoc, List.singleton_append]
        · exact (FileTree.mem_directories_cons (by simp)).mpr ⟨top.2, isChild, inTop⟩
  · rintro (⟨path, ⟨top, isChild, rfl, isUnknown⟩, rfl⟩ |
      ⟨path, family, horizon, date, inside, swept, rfl⟩)
    · refine ⟨top, isChild, ?_⟩
      rw [isUnknown]
      exact List.mem_singleton.mpr rfl
    · obtain ⟨isDeclared, top, between, day, rfl, isFamily, undated, isDated, inTree⟩ := swept
      obtain ⟨below, isChild, inBelow⟩ := (FileTree.mem_directories_cons (by simp)).mp inTree
      refine ⟨(top, below), isChild, ?_⟩
      rw [isFamily]
      simp only [isDeclared]
      refine List.mem_map.mpr ⟨(between ++ [day], date, inside),
        mem_days.mpr ⟨inBelow, between, day, rfl, undated, isDated⟩, ?_⟩
      rw [List.append_assoc, List.singleton_append]

theorem mem_candidates_judge {family : Family} {horizon : Horizon} {path : List EntryName}
    {date : Text} {inside : FileTree Content} {candidate : Candidate} :
    candidate ∈ (judge bytes nowMicros family horizon path date inside).candidates ↔
      ∃ midnight, midnightOf date = some midnight ∧ ended horizon nowMicros midnight = true ∧
        candidate = ⟨path, family, date, inside.size bytes⟩ := by
  unfold judge
  cases midnightOf date with
  | none => simp
  | some midnight =>
      simp only [Option.some.injEq, exists_eq_left']
      split
      case isTrue isEnded => simp [isEnded]
      case isFalse notEnded => simp [notEnded]

theorem mem_unclassified_judge {family : Family} {horizon : Horizon} {path : List EntryName}
    {date : Text} {inside : FileTree Content} {found : List EntryName} :
    found ∈ (judge bytes nowMicros family horizon path date inside).unclassified ↔
      midnightOf date = none ∧ found = path := by
  unfold judge
  cases midnightOf date with
  | none => simp
  | some midnight =>
      simp only [reduceCtorEq, false_and, iff_false]
      split
      · exact List.not_mem_nil
      · exact List.not_mem_nil

/-- The candidates of one root. -/
theorem mem_candidates_collect {classify : Text → Option Family} {root : List EntryName}
    {candidate : Candidate} :
    candidate ∈ (collect bytes policy nowMicros classify root files).candidates ↔
      ∃ horizon inside midnight, Swept policy classify root files candidate.path candidate.family
          horizon candidate.date inside ∧
        midnightOf candidate.date = some midnight ∧ ended horizon nowMicros midnight = true ∧
          candidate.bytes = inside.size bytes := by
  rw [collect_eq, Sweep.concat, List.mem_flatMap]
  constructor
  · rintro ⟨piece, isPiece, isCandidate⟩
    rcases mem_pieces.mp isPiece with
      ⟨path, _, rfl⟩ | ⟨path, family, horizon, date, inside, isSwept, rfl⟩
    · cases isCandidate
    · obtain ⟨midnight, isMidnight, isEnded, rfl⟩ := mem_candidates_judge.mp isCandidate
      exact ⟨horizon, inside, midnight, isSwept, isMidnight, isEnded, rfl⟩
  · rintro ⟨horizon, inside, midnight, isSwept, isMidnight, isEnded, isBytes⟩
    refine ⟨_, mem_pieces.mpr (.inr ⟨_, _, _, _, _, isSwept, rfl⟩),
      mem_candidates_judge.mpr ⟨midnight, isMidnight, isEnded, ?_⟩⟩
    rw [← isBytes]

/-- One dated directory is at most one candidate. -/
theorem sublist_judge (family : Family) (horizon : Horizon) (path : List EntryName) (date : Text)
    (inside : FileTree Content) :
    ((judge bytes nowMicros family horizon path date inside).candidates.map Candidate.path).Sublist
      [path] := by
  unfold judge
  split
  · exact List.nil_sublist _
  · split
    · exact List.Sublist.refl _
    · exact List.nil_sublist _

/-- The candidates of one root are among its directories, in their order. -/
theorem sublist_collect (classify : Text → Option Family) (root : List EntryName) :
    ((collect bytes policy nowMicros classify root files).candidates.map Candidate.path).Sublist
      (((files.descend root).directories.map Prod.fst).map (root ++ ·)) := by
  refine List.Sublist.trans ?_ ((sublist_daysBelow (files.descend root)).map (root ++ ·))
  rw [collect, Sweep.concat, List.flatMap_map, List.map_flatMap, List.map_flatMap]
  apply List.Sublist.flatMap_right
  intro top _
  rw [collectTop, List.map_map]
  split
  · exact List.nil_sublist _
  · split
    · exact List.nil_sublist _
    · rw [dated_eq, Sweep.concat, List.flatMap_map, List.map_flatMap,
        ← List.flatMap_pure_eq_map]
      apply List.Sublist.flatMap_right
      intro day _
      have isPath : root ++ [top.1] ++ day.1 = root ++ top.1 :: day.1 := List.append_assoc _ _ _
      rw [isPath]
      exact sublist_judge _ _ _ _ _

/-- What one root's sweep cannot place: a name of no family, or of no day. -/
def Unplaced (policy : Policy) (classify : Text → Option Family) (root : List EntryName)
    (files : FileTree Content) (path : List EntryName) : Prop :=
  Unknown classify root files path ∨ ∃ family horizon date inside,
    Swept policy classify root files path family horizon date inside ∧ midnightOf date = none

theorem mem_unclassified_collect {classify : Text → Option Family} {root path : List EntryName} :
    path ∈ (collect bytes policy nowMicros classify root files).unclassified ↔
      Unplaced policy classify root files path := by
  rw [collect_eq, Sweep.concat, List.mem_flatMap]
  constructor
  · rintro ⟨piece, isPiece, isUnclassified⟩
    rcases mem_pieces.mp isPiece with
      ⟨found, isUnknown, rfl⟩ | ⟨found, family, horizon, date, inside, isSwept, rfl⟩
    · rw [List.mem_singleton.mp isUnclassified]
      exact .inl isUnknown
    · obtain ⟨noMidnight, rfl⟩ := mem_unclassified_judge.mp isUnclassified
      exact .inr ⟨family, horizon, date, inside, isSwept, noMidnight⟩
  · rintro (isUnknown | ⟨family, horizon, date, inside, isSwept, noMidnight⟩)
    · exact ⟨_, mem_pieces.mpr (.inl ⟨path, isUnknown, rfl⟩), List.mem_singleton.mpr rfl⟩
    · exact ⟨_, mem_pieces.mpr (.inr ⟨_, _, _, _, _, isSwept, rfl⟩),
        mem_unclassified_judge.mpr ⟨noMidnight, rfl⟩⟩

end Verdicts

section Sweeps

variable {Content : Type u} {bytes : Content → Nat} {policy : Policy} {nowMicros : Int}
  {archiveRoot tapeRoot : List EntryName} {files : FileTree Content}

/-- Nothing is declared in an empty policy. -/
theorem isEmpty_of_declared {family : Family} {horizon : Horizon}
    (isDeclared : policy.horizonFor family = some horizon) : policy.isEmpty = false := by
  rw [← Bool.not_eq_true]
  intro isEmpty
  rw [Policy.isEmpty, Bool.and_eq_true, List.isEmpty_iff, Option.isNone_iff_eq_none] at isEmpty
  cases family with
  | venue name =>
      have found := Directory.mem_entries_iff_lookup.mpr isDeclared
      rw [isEmpty.1] at found
      cases found
  | tape =>
      rw [Policy.horizonFor, isEmpty.2] at isDeclared
      cases isDeclared
  | signals => cases isDeclared

/-- An expired day of one root. -/
def Expired (bytes : Content → Nat) (policy : Policy) (nowMicros : Int)
    (classify : Text → Option Family) (root : List EntryName) (files : FileTree Content)
    (candidate : Candidate) : Prop :=
  ∃ horizon inside midnight,
    Swept policy classify root files candidate.path candidate.family horizon candidate.date
        inside ∧
      midnightOf candidate.date = some midnight ∧ ended horizon nowMicros midnight = true ∧
        candidate.bytes = inside.size bytes

/-- The candidates of a sweep are the expired days of its roots. -/
theorem mem_candidates_sweep {candidate : Candidate} :
    candidate ∈ (sweep bytes policy nowMicros archiveRoot tapeRoot files).candidates ↔
      Expired bytes policy nowMicros archiveFamily archiveRoot files candidate ∨
        Expired bytes policy nowMicros tapeFamily tapeRoot files candidate := by
  rw [sweep]
  split
  case isTrue isEmpty =>
      simp only [List.not_mem_nil, false_iff, not_or]
      constructor
      · rintro ⟨_, _, _, isSwept, _⟩
        rw [isEmpty_of_declared isSwept.declared] at isEmpty
        cases isEmpty
      · rintro ⟨_, _, _, isSwept, _⟩
        rw [isEmpty_of_declared isSwept.declared] at isEmpty
        cases isEmpty
  case isFalse =>
      simp only [List.mem_insertionSort, Sweep.concat, List.flatMap_cons, List.flatMap_nil,
        List.append_nil, List.mem_append, mem_candidates_collect]
      rfl

/-- Where no directory is named twice and neither root holds the other, no candidate is listed
twice. -/
theorem nodup_sweep (distinct : (files.directories.map Prod.fst).Nodup)
    (archiveApart : ¬ archiveRoot <+: tapeRoot) (tapeApart : ¬ tapeRoot <+: archiveRoot) :
    ((sweep bytes policy nowMicros archiveRoot tapeRoot files).candidates.map
      Candidate.path).Nodup := by
  have ofRoot (root : List EntryName) :
      (((files.descend root).directories.map Prod.fst).map (root ++ ·)).Nodup :=
    (FileTree.nodup_directories_descend root distinct).map fun _ _ => List.append_cancel_left
  rw [sweep]
  split
  · exact List.nodup_nil
  · simp only [Sweep.concat, List.flatMap_cons, List.flatMap_nil, List.append_nil]
    rw [((List.perm_insertionSort _ _).map Candidate.path).nodup_iff, List.map_append,
      List.nodup_append]
    refine ⟨(sublist_collect _ _).nodup (ofRoot archiveRoot),
      (sublist_collect _ _).nodup (ofRoot tapeRoot), ?_⟩
    intro inArchive isArchive inTape isTape same
    subst same
    obtain ⟨_, _, isBelow⟩ := List.mem_map.mp ((sublist_collect _ _).subset isArchive)
    obtain ⟨_, _, alsoBelow⟩ := List.mem_map.mp ((sublist_collect _ _).subset isTape)
    rcases List.prefix_or_prefix_of_prefix ⟨_, isBelow⟩ ⟨_, alsoBelow⟩ with inside | inside
    · exact archiveApart inside
    · exact tapeApart inside

end Sweeps

/-- **A sweep selects exactly the days that ended a horizon ago**, each whole, and reports exactly
what it cannot place, both in the order of their paths; and it selects each once where no directory
is named twice and neither root holds the other. -/
theorem sweep_exact {Content : Type u} (bytes : Content → Nat) (policy : Policy) (nowMicros : Int)
    (archiveRoot tapeRoot : List EntryName) (files : FileTree Content) :
    let swept := sweep bytes policy nowMicros archiveRoot tapeRoot files
    (∀ candidate, candidate ∈ swept.candidates ↔
      Expired bytes policy nowMicros archiveFamily archiveRoot files candidate ∨
        Expired bytes policy nowMicros tapeFamily tapeRoot files candidate) ∧
      (∀ path, path ∈ swept.unclassified ↔
        policy.isEmpty = false ∧
          (Unplaced policy archiveFamily archiveRoot files path ∨
            Unplaced policy tapeFamily tapeRoot files path)) ∧
        swept.candidates.Pairwise (fun first second => pathLe first.path second.path) ∧
          swept.unclassified.Pairwise pathLe ∧
            ((files.directories.map Prod.fst).Nodup → ¬ archiveRoot <+: tapeRoot →
              ¬ tapeRoot <+: archiveRoot → (swept.candidates.map Candidate.path).Nodup) := by
  have total : Std.Total pathLe := ⟨fun first second => le_total _ _⟩
  have transitive : IsTrans (List EntryName) pathLe := ⟨fun _ _ _ => le_trans⟩
  have sorted : IsTrans Candidate fun first second => pathLe first.path second.path :=
    ⟨fun _ _ _ => le_trans⟩
  have sorts : Std.Total fun first second : Candidate => pathLe first.path second.path :=
    ⟨fun first second => le_total _ _⟩
  intro swept
  refine ⟨fun candidate => mem_candidates_sweep, ?_, ?_, ?_, nodup_sweep⟩
  · intro path
    cases isEmpty : policy.isEmpty with
    | true =>
        have isNothing : swept = {} := if_pos isEmpty
        simp [isNothing]
    | false =>
        have isSwept : swept = _ := if_neg (by simp [isEmpty])
        rw [isSwept]
        simp only [List.mem_insertionSort, Sweep.concat, List.flatMap_cons, List.flatMap_nil,
          List.append_nil, List.mem_append, mem_unclassified_collect, true_and]
  · unfold swept sweep
    split
    · exact List.Pairwise.nil
    · exact List.pairwise_insertionSort _ _
  · unfold swept sweep
    split
    · exact List.Pairwise.nil
    · exact List.pairwise_insertionSort _ _

end Retain
end Datawatch
