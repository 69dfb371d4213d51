import Datawatch.Replay.Trimmed
import Datawatch.Retain.Sweeps

/-!
# What retention leaves

Whatever becomes of its removals, a run of the tool removes nothing but what lies in a day that
ended a horizon ago, and a replay of what the horizons keep reads the same.
-/

namespace Datawatch
namespace Retain

open Library Segments Record Replay Calendar Wire

section Removals

variable {Content : Type u}

/-- A run of removals leads no removal into a path. -/
def Spares (candidates : List Candidate) (path : List EntryName) : Prop :=
  ∀ candidate ∈ candidates, FileTree.leadsInto candidate.path path = false

theorem leadsInto_append (root : List EntryName) {path below : List EntryName}
    (deeper : path ≠ []) :
    FileTree.leadsInto (root ++ path) (root ++ below) = FileTree.leadsInto path below := by
  simp [FileTree.leadsInto, List.prefix_append_right_inj, deeper]

/-- A removal keeps of the files below a root all that it does not lead into. -/
theorem exists_keep_apply (removal : Removal) {path root : List EntryName}
    (outside : ¬ path <+: root) (files : FileTree Content) :
    ∃ keep : List EntryName → Bool,
      ((removal.apply path files).descend root).files =
          (files.descend root).files.filter (fun entry => keep entry.1) ∧
        ∀ below, FileTree.leadsInto path (root ++ below) = false → keep below = true := by
  cases removal with
  | removed =>
      by_cases inRoot : root <+: path
      · obtain ⟨below, rfl⟩ := inRoot
        have deeper : below ≠ [] := by
          rintro rfl
          exact outside (by rw [List.append_nil])
        refine ⟨fun found => !FileTree.leadsInto below found, ?_, ?_⟩
        · rw [Removal.apply, FileTree.descend_removeAt_append root deeper,
            FileTree.files_removeAt]
        · intro found spared
          rw [leadsInto_append root deeper] at spared
          simp only [spared, Bool.not_false]
      · refine ⟨fun _ => true, ?_, fun _ _ => rfl⟩
        rw [Removal.apply, FileTree.descend_removeAt_apart outside inRoot, List.filter_true]
  | failed gone =>
      refine ⟨fun below => !(FileTree.leadsInto path (root ++ below) && gone (root ++ below)),
        ?_, ?_⟩
      · rw [Removal.apply, FileTree.descend_keepFiles, FileTree.files_keepFiles]
      · intro below spared
        simp only [spared, Bool.false_and, Bool.not_false]

/-- **Removals keep of the files below a root all that no candidate leads into.** -/
theorem exists_keep_removeAll (removals : List EntryName → Removal) {root : List EntryName}
    {candidates : List Candidate} (outside : ∀ candidate ∈ candidates, ¬ candidate.path <+: root)
    (files : FileTree Content) :
    ∃ keep : List EntryName → Bool,
      ((removeAll removals candidates files).descend root).files =
          (files.descend root).files.filter (fun entry => keep entry.1) ∧
        ∀ below, Spares candidates (root ++ below) → keep below = true := by
  induction candidates generalizing files with
  | nil =>
      refine ⟨fun _ => true, ?_, fun _ _ => rfl⟩
      rw [List.filter_true]
      rfl
  | cons candidate candidates inductionHypothesis =>
      obtain ⟨first, isFirst, sparesFirst⟩ := exists_keep_apply (removals candidate.path)
        (outside candidate List.mem_cons_self) files
      obtain ⟨later, isLater, sparesLater⟩ := inductionHypothesis
        (fun other member => outside other (List.mem_cons_of_mem _ member))
        ((removals candidate.path).apply candidate.path files)
      refine ⟨fun below => first below && later below, ?_, ?_⟩
      · have unfolded : removeAll removals (candidate :: candidates) files =
            removeAll removals candidates
              ((removals candidate.path).apply candidate.path files) := rfl
        rw [unfolded, isLater, isFirst, List.filter_filter]
        exact List.filter_congr fun _ _ => Bool.and_comm _ _
      · intro below spared
        simp only [sparesFirst below (spared candidate List.mem_cons_self),
          sparesLater below fun other member => spared other (List.mem_cons_of_mem _ member),
          Bool.and_self]

end Removals

/-- Where a file lies, as the archive's readers name it. -/
def pathOf (path : List EntryName) : Segments.Path where
  partition := ['/'].intercalate (path.dropLast.map EntryName.text)
  name := (path.getLast?.map EntryName.text).getD []

/-- A path of directories reads back as their names. -/
theorem components_intercalate (names : List EntryName) :
    components (['/'].intercalate (names.map EntryName.text)) = names.map EntryName.text := by
  by_cases none : names = []
  · subst none
    rfl
  · rw [components, List.splitOn_intercalate '/' _ (by simpa using none)]
    · apply List.filter_eq_self.mpr
      intro part isPart
      obtain ⟨name, _, rfl⟩ := List.mem_map.mp isPart
      simp [name.nonempty, name.notDot]
    · intro part isPart
      obtain ⟨name, _, rfl⟩ := List.mem_map.mp isPart
      exact name.noSlash

theorem text_injective : Function.Injective EntryName.text := by
  intro first second same
  cases first
  cases second
  simp_all

/-- Two files lie at one path only where their directories and names are the same. -/
theorem pathOf_injective {first second : List EntryName} (isFirst : first ≠ [])
    (isSecond : second ≠ []) (same : pathOf first = pathOf second) : first = second := by
  obtain ⟨partition, name⟩ := Segments.Path.mk.inj same
  have directories : first.dropLast = second.dropLast := by
    have parts := congrArg components partition
    rw [components_intercalate, components_intercalate] at parts
    exact List.map_injective_iff.mpr text_injective parts
  rw [List.getLast?_eq_some_getLast isFirst, List.getLast?_eq_some_getLast isSecond] at name
  rw [← List.dropLast_concat_getLast isFirst, ← List.dropLast_concat_getLast isSecond, directories,
    text_injective name]

section Archive

variable {Content : Type u}

/-- The archive in a directory, each file as its readers see it. -/
def archiveOf (read : Content → ArchiveFile) (files : FileTree Content) : ArchiveTree :=
  (files.files.map fun entry =>
    (⟨pathOf entry.1, read entry.2⟩ : Σ _ : Segments.Path, ArchiveFile)).toAList

section Entries

variable {Name : Type v} {File : Type w} [DecidableEq Name] {keep : Name → Bool}

theorem kerase_filter_of_kept {name : Name} (kept : keep name = true)
    (entries : List (Σ _ : Name, File)) :
    (entries.filter fun entry => keep entry.1).kerase name =
      (entries.kerase name).filter fun entry => keep entry.1 := by
  induction entries with
  | nil => rfl
  | cons entry entries inductionHypothesis =>
      by_cases here : name = entry.1
      · rw [List.filter_cons, if_pos (by rw [← here, kept]), List.kerase_cons_eq here,
          List.kerase_cons_eq here]
      · rw [List.kerase_cons_ne here, List.filter_cons, List.filter_cons]
        by_cases selected : keep entry.1 = true
        · rw [if_pos selected, if_pos selected, List.kerase_cons_ne here, inductionHypothesis]
        · rw [if_neg selected, if_neg selected, inductionHypothesis]

theorem kerase_filter_of_dropped {name : Name} (dropped : keep name = false)
    (entries : List (Σ _ : Name, File)) :
    (entries.kerase name).filter (fun entry => keep entry.1) =
      entries.filter fun entry => keep entry.1 := by
  induction entries with
  | nil => rfl
  | cons entry entries inductionHypothesis =>
      by_cases here : name = entry.1
      · rw [List.kerase_cons_eq here, List.filter_cons, if_neg (by simp [← here, dropped])]
      · rw [List.kerase_cons_ne here, List.filter_cons, List.filter_cons, inductionHypothesis]

/-- Keeping files by their names keeps the first of each name. -/
theorem dedupKeys_filter (keep : Name → Bool) (entries : List (Σ _ : Name, File)) :
    (entries.filter fun entry => keep entry.1).dedupKeys =
      entries.dedupKeys.filter fun entry => keep entry.1 := by
  induction entries with
  | nil => rfl
  | cons entry entries inductionHypothesis =>
      rw [List.dedupKeys_cons, List.kinsert_def, List.filter_cons, List.filter_cons]
      by_cases selected : keep entry.1 = true
      · rw [if_pos selected, if_pos selected, List.dedupKeys_cons, List.kinsert_def,
          inductionHypothesis, kerase_filter_of_kept selected]
      · rw [if_neg selected, if_neg selected, inductionHypothesis,
          kerase_filter_of_dropped (by simpa using selected)]

end Entries

/-- An archive whose directory kept some files is the archive of those files. -/
theorem entries_archiveOf {read : Content → ArchiveFile} {files after : FileTree Content}
    {keep : List EntryName → Bool} {keepPath : Segments.Path → Bool}
    (isKept : after.files = files.files.filter fun entry => keep entry.1)
    (same : ∀ entry ∈ files.files, keepPath (pathOf entry.1) = keep entry.1) :
    (archiveOf read after).entries =
      (archiveOf read files).entries.filter fun entry => keepPath entry.1 := by
  unfold archiveOf List.toAList
  simp only
  rw [isKept, ← dedupKeys_filter, List.filter_map]
  congr 2
  apply List.filter_congr
  intro entry isFile
  exact (same entry isFile).symm

end Archive

theorem text_of_dateOfName {name : EntryName} {date : Text} (isDate : dateOfName name = some date) :
    name.text = "date=".toList ++ date := by
  obtain ⟨front, isFront, same⟩ := List.dropPrefix?_eq_some_iff.mp isDate
  rw [isFront, eq_of_beq same]

/-- A day that has ended holds no moment from the cutoff on. -/
theorem covers_of_ended {horizon : Horizon} {nowMicros fromMicros toMicros midnight : Int}
    {name : EntryName} {date : Text} (isDate : dateOfName name = some date)
    (isMidnight : midnightOf date = some midnight) (isEnded : ended horizon nowMicros midnight)
    (later : cutoff horizon nowMicros ≤ fromMicros) :
    covers fromMicros toMicros name.text = false := by
  have value : valueUnder "date=".toList [name.text] = some date := by
    rw [text_of_dateOfName isDate, valueUnder, List.findSome?_cons,
      if_pos (List.prefix_append _ _), List.drop_left]
  unfold covers
  rw [value, Option.bind_some, isMidnight]
  simp only [decide_eq_false_iff_not, not_and, not_lt]
  intro _
  have least : min (midnight + microsPerDay) i64Max ≤ saturated (midnight + microsPerDay) :=
    le_max_right _ _
  exact least.trans ((of_decide_eq_true isEnded).trans later)

/-- A horizon keeps a range: it reaches no later than the range starts, or the range is of no
partition of its venue. -/
def Keeps (policy : Policy) (nowMicros : Int) (scopes : Option (List Text))
    (fromMicros : Int) : Prop :=
  ∀ venue horizon, policy.venues.lookup venue = some horizon →
    cutoff horizon nowMicros ≤ fromMicros ∨
      ∀ partition, Under ("venue=".toList ++ venue) partition → inScope scopes partition = false

theorem venue_of_archiveFamily {top venue : Text}
    (isFamily : archiveFamily top = some (.venue venue)) : top = "venue=".toList ++ venue := by
  obtain ⟨name, isName, same⟩ := Option.map_eq_some_iff.mp isFamily
  obtain ⟨front, isFront, equal⟩ := List.dropPrefix?_eq_some_iff.mp isName
  rw [isFront, eq_of_beq equal, Family.venue.inj same]

section Sparing

variable {Content : Type u} {policy : Policy} {nowMicros fromMicros toMicros : Int}
  {scopes : Option (List Text)}

/-- No expired day of the archive holds a file that a kept range is read from. -/
theorem not_reads_of_swept {root path found : List EntryName} {family : Family} {horizon : Horizon}
    {date : Text} {midnight : Int} {files inside : FileTree Content}
    (keeps : Keeps policy nowMicros scopes fromMicros)
    (swept : Swept policy archiveFamily root files path family horizon date inside)
    (isMidnight : midnightOf date = some midnight) (isEnded : ended horizon nowMicros midnight)
    (leads : FileTree.leadsInto path (root ++ found) = true) :
    reads scopes fromMicros toMicros (pathOf found).partition = false := by
  obtain ⟨isDeclared, top, between, day, rfl, isFamily, _, isDate, _⟩ := swept
  rw [leadsInto_append root (List.cons_ne_nil _ _)] at leads
  obtain ⟨_, ⟨below, isFound⟩, deeper⟩ := of_decide_eq_true leads
  have belowSome : below ≠ [] := by
    rintro rfl
    exact deeper (by rw [← isFound, List.append_nil])
  have isDirectories : found.dropLast = top :: (between ++ day :: below.dropLast) := by
    rw [← isFound, List.dropLast_append_of_ne_nil belowSome]
    simp
  have parts : components (pathOf found).partition =
      top.text :: (between ++ day :: below.dropLast).map EntryName.text := by
    rw [pathOf, components_intercalate, isDirectories, List.map_cons]
  cases family with
  | tape => cases (Option.map_eq_some_iff.mp isFamily).choose_spec.2
  | signals => cases (Option.map_eq_some_iff.mp isFamily).choose_spec.2
  | venue name =>
      rcases keeps name horizon isDeclared with later | apart
      · have gone : covers fromMicros toMicros day.text = false :=
          covers_of_ended isDate isMidnight isEnded later
        have uncovered :
            ¬ (components (pathOf found).partition).all (covers fromMicros toMicros) = true := by
          intro covered
          have here := List.all_eq_true.mp covered day.text (by rw [parts]; simp)
          rw [gone] at here
          cases here
        rw [reads, Bool.eq_false_iff.mpr uncovered, Bool.false_and]
      · have isUnder : Under ("venue=".toList ++ name) (pathOf found).partition := by
          have alone : components top.text = [top.text] := by
            have single := components_intercalate [top]
            rwa [List.map_singleton, List.intercalate_singleton] at single
          rw [Under, ← venue_of_archiveFamily isFamily, alone, parts]
          exact List.cons_prefix_cons.mpr ⟨rfl, List.nil_prefix⟩
        rw [reads, apart _ isUnder, Bool.and_false]

/-- No candidate of a sweep holds a file that a kept range of the archive is read from. -/
theorem spares_of_reads {bytes : Content → Nat} {archiveRoot tapeRoot found : List EntryName}
    {files : FileTree Content} (keeps : Keeps policy nowMicros scopes fromMicros)
    (outside : ¬ archiveRoot <+: tapeRoot) (apart : ¬ tapeRoot <+: archiveRoot)
    (isRead : reads scopes fromMicros toMicros (pathOf found).partition = true) :
    Spares (sweep bytes policy nowMicros archiveRoot tapeRoot files).candidates
      (archiveRoot ++ found) := by
  intro candidate isCandidate
  rw [Bool.eq_false_iff]
  intro leads
  rcases mem_candidates_sweep.mp isCandidate with inArchive | inTape
  · obtain ⟨horizon, inside, midnight, isSwept, isMidnight, isEnded, _⟩ := inArchive
    have notRead : reads scopes fromMicros toMicros (pathOf found).partition = false :=
      not_reads_of_swept keeps isSwept isMidnight isEnded leads
    rw [isRead] at notRead
    cases notRead
  · obtain ⟨horizon, inside, midnight, isSwept, _⟩ := inTape
    obtain ⟨_, top, between, day, isPath, _⟩ := isSwept
    obtain ⟨_, within, _⟩ := of_decide_eq_true leads
    rw [isPath] at within
    have tapeWithin := (List.prefix_append tapeRoot _).trans within
    rcases List.prefix_or_prefix_of_prefix tapeWithin (List.prefix_append archiveRoot found) with
      tapeFirst | archiveFirst
    · exact apart tapeFirst
    · exact outside archiveFirst

/-- No candidate of a sweep holds the archive's root. -/
theorem outside_of_candidate {bytes : Content → Nat} {archiveRoot tapeRoot : List EntryName}
    {files : FileTree Content} {candidate : Candidate} (apart : ¬ tapeRoot <+: archiveRoot)
    (isCandidate :
      candidate ∈ (sweep bytes policy nowMicros archiveRoot tapeRoot files).candidates) :
    ¬ candidate.path <+: archiveRoot := by
  intro within
  rcases mem_candidates_sweep.mp isCandidate with ⟨_, _, _, isSwept, _⟩ | ⟨_, _, _, isSwept, _⟩
  · obtain ⟨_, top, between, day, isPath, _⟩ := isSwept
    have longer := within.length_le
    rw [isPath, List.length_append, List.length_cons] at longer
    omega
  · obtain ⟨_, top, between, day, isPath, _⟩ := isSwept
    rw [isPath] at within
    exact apart ((List.prefix_append tapeRoot _).trans within)

end Sparing

section Runs

variable {Content : Type u} (bytes : Content → Nat) (setting : Setting) (args : List Text)
  (files : FileTree Content)

/-- A run that is told to remove, of a policy that declares something, and holds both stores. -/
structure Removes (policy : Policy) : Prop where
  config : setting.config = some policy
  asked : deleteFlag ∈ args
  known : ∀ arg ∈ args, arg = deleteFlag
  scans : setting.archiveScans = true ∧ setting.tapeScans = true
  holds : setting.archiveHeld = true ∧ setting.tapeHeld = true

/-- Every other run leaves the tree as it was. -/
theorem run_of_not_removes (idle : ∀ policy, ¬ Removes setting args policy) :
    (run bytes setting args files).2 = files := by
  unfold run
  split
  case isTrue => rfl
  case isFalse known =>
      simp only
      cases isConfig : setting.config with
      | none => rfl
      | some policy =>
          simp only
          by_cases isEmpty : policy.isEmpty = true
          · rw [if_pos isEmpty]
          · rw [if_neg isEmpty]
            by_cases scans : setting.archiveScans = true ∧ setting.tapeScans = true
            · rw [if_neg (by simp [scans])]
              by_cases asked : args = []
              · rw [if_neg (by simp [asked])]
                split
                · rfl
                · rw [if_pos (by simp [asked])]
              · rw [if_pos]
                rw [Bool.and_eq_true, ← Bool.not_and]
                refine ⟨by simpa using asked, ?_⟩
                rw [Bool.not_eq_true', ← Bool.not_eq_true, Bool.and_eq_true]
                intro holds
                have all : ∀ arg ∈ args, arg = deleteFlag := by
                  simpa using known
                obtain ⟨arg, isArg⟩ := List.exists_mem_of_ne_nil args asked
                exact idle policy ⟨isConfig, all arg isArg ▸ isArg, all, scans, holds⟩
            · rw [if_pos]
              rw [← Bool.not_and, Bool.not_eq_true', ← Bool.not_eq_true, Bool.and_eq_true]
              exact scans

variable {setting args} {policy : Policy}

/-- A run that removes takes each expired day in turn, and breaks where one would not go. -/
theorem run_of_removes (removes : Removes setting args policy) :
    let candidates := (sweep bytes policy setting.nowMicros setting.archiveRoot setting.tapeRoot
      files).candidates
    (run bytes setting args files).2 = removeAll setting.removals candidates files ∧
      ((run bytes setting args files).1 ≠ .broken ↔
        ∀ candidate ∈ candidates, (setting.removals candidate.path).succeeds = true) := by
  obtain ⟨isConfig, asked, known, scans, holds⟩ := removes
  have some : args ≠ [] := List.ne_nil_of_mem asked
  intro candidates
  unfold run
  rw [if_neg (by simpa using known)]
  simp only [isConfig]
  by_cases isEmpty : policy.isEmpty = true
  · have none : candidates = [] := by
      unfold candidates sweep
      rw [if_pos isEmpty]
    rw [if_pos isEmpty, none]
    simp [removeAll]
  · rw [if_neg isEmpty, if_neg (by simp [scans]), if_neg (by simp [holds])]
    by_cases none : candidates = []
    · rw [if_pos (by rw [Sweep.isEmpty, List.isEmpty_iff]; exact none), none]
      simp [removeAll]
    · rw [if_neg (by rw [Sweep.isEmpty, List.isEmpty_iff]; exact none),
        if_neg (by simpa using some)]
      refine ⟨rfl, ?_⟩
      simp only [← List.all_eq_true]
      cases candidates.all fun candidate => (setting.removals candidate.path).succeeds with
      | true => simp
      | false => simp

end Runs

section Exact

variable {Content : Type u}

end Exact

/-- **A replay of what the horizons keep reads the same after any run of the tool**, whatever
becomes of its removals. -/
theorem run_keeps_reads {Content : Type u} (bytes : Content → Nat) (setting : Setting)
    (args : List Text) (files : FileTree Content) (read : Content → ArchiveFile)
    (fails : Segments.Path → Bool) {scopes : Option (List Text)} {fromMicros toMicros : Int}
    (outside : ¬ setting.archiveRoot <+: setting.tapeRoot)
    (apart : ¬ setting.tapeRoot <+: setting.archiveRoot)
    (keeps : ∀ policy, setting.config = some policy →
      Keeps policy setting.nowMicros scopes fromMicros) :
    streamRange (archiveOf read ((run bytes setting args files).2.descend setting.archiveRoot))
        fails scopes fromMicros toMicros =
      streamRange (archiveOf read (files.descend setting.archiveRoot)) fails scopes fromMicros
        toMicros := by
  by_cases idle : ∀ policy, ¬ Removes setting args policy
  · rw [run_of_not_removes bytes setting args files idle]
  · simp only [not_forall, not_not] at idle
    obtain ⟨policy, removes⟩ := idle
    rw [(run_of_removes bytes files removes).1]
    obtain ⟨keep, isKept, spared⟩ := exists_keep_removeAll setting.removals
      (fun candidate (isCandidate : candidate ∈ (sweep bytes policy setting.nowMicros
        setting.archiveRoot setting.tapeRoot files).candidates) =>
        outside_of_candidate apart isCandidate) files
    let keepPath (path : Segments.Path) : Bool :=
      decide (∀ entry ∈ (files.descend setting.archiveRoot).files,
        pathOf entry.1 = path → keep entry.1 = true)
    have same : ∀ entry ∈ (files.descend setting.archiveRoot).files,
        keepPath (pathOf entry.1) = keep entry.1 := by
      intro entry isFile
      rw [Bool.eq_iff_iff, decide_eq_true_iff]
      constructor
      · exact fun all => all entry isFile rfl
      · intro kept other isOther samePath
        rwa [pathOf_injective (FileTree.path_ne_nil isOther) (FileTree.path_ne_nil isFile) samePath]
    apply streamRange_trimmed (entries_archiveOf isKept same)
    intro path inArchive isRead
    apply decide_eq_true
    rintro entry isFile rfl
    exact spared entry.1 (spares_of_reads (keeps policy removes.config) outside apart isRead)

/-- One venue's files of two days. -/
def filesOfTwoDays {Content : Type u} (first second : Content) : FileTree Content :=
  let segment (content : Content) : FileTree Content :=
    .file ⟨"s.parquet".toList, by decide, by decide, by decide⟩ content .nil
  .directory ⟨['a'], by decide, by decide, by decide⟩
    (.directory ⟨"venue=h".toList, by decide, by decide, by decide⟩
      (.directory ⟨"date=1970-01-01".toList, by decide, by decide, by decide⟩ (segment first)
        (.directory ⟨"date=1970-01-02".toList, by decide, by decide, by decide⟩
          (segment second) .nil)) .nil) .nil

/-- One venue's quotes of two days. -/
def twoDays : FileTree ArchiveFile :=
  filesOfTwoDays (payloadFile [quoteAt 1 10]) (payloadFile [quoteAt 2 (microsPerDay + 10)])

/-- A venue kept for one day, at the end of its second. -/
def keptADay : Setting where
  config := some { venues := (∅ : Directory Text Horizon).insert ['h'] ⟨1⟩ }
  archiveRoot := [⟨['a'], by decide, by decide, by decide⟩]
  tapeRoot := [⟨['t'], by decide, by decide, by decide⟩]
  archiveScans := true
  tapeScans := true
  archiveHeld := true
  tapeHeld := true
  nowMicros := 2 * microsPerDay
  removals := fun _ => .removed

/-- The first day goes, and the second reads the same. -/
theorem run_keeps_reads_twoDays :
    (run (fun _ => 1) keptADay [deleteFlag] twoDays).1 = .done ∧
      (run (fun _ => 1) keptADay [deleteFlag] twoDays).2.files.length = 1 ∧
      streamRange (archiveOf id
          ((run (fun _ => 1) keptADay [deleteFlag] twoDays).2.descend keptADay.archiveRoot))
          (fun _ => false) none microsPerDay (2 * microsPerDay) =
        streamRange (archiveOf id (twoDays.descend keptADay.archiveRoot)) (fun _ => false) none
          microsPerDay (2 * microsPerDay) := by
  refine ⟨by decide +kernel, by decide +kernel, run_keeps_reads (fun _ => 1) keptADay _ _ id _
    (by decide) (by decide) ?_⟩
  rintro policy isPolicy venue horizon isDeclared
  obtain rfl := Option.some.inj isPolicy
  have entry : (⟨venue, horizon⟩ : Σ _ : Text, Horizon) ∈ [⟨['h'], ⟨1⟩⟩] :=
    Directory.mem_entries_iff_lookup.mpr isDeclared
  left
  simp only [List.mem_singleton, Sigma.mk.injEq, heq_eq_eq] at entry
  rw [entry.2]
  decide

end Retain
end Datawatch
