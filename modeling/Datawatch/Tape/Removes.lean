import Datawatch.Tape.Stages

/-!
# What a rebuild removes

A run collects the venues it derived and removes their planned segments within a range of
source days.  The set of venues belongs to the whole run, so a venue derived on one day may
lose its segment of another, which the run read nothing for.  A commit renames over whatever
is at its path, and a name states no venue and no day.
-/

namespace Datawatch
namespace Tape

open Library Library.Directory Library.Grouping Wire Segments Calendar Record Ingest Replay

/-- The archive holds a payload received on a day, in a partition in scope. -/
def ReceivedOn (archive : ArchiveTree) (scopes : Option (List Text)) (day : Int)
    (payload : Payload) : Prop :=
  ∃ path file, archive.lookup path = some file ∧
    Selected scopes day (day + microsPerDay) path ∧
    payload ∈ payloadsIn path.partition day (day + microsPerDay) file

variable (ingest : Payload → Ingested)

/-- A payload is a venue's: it is addressed by the venue or derives a row of it. -/
def ForVenue (venue : Text) (payload : Payload) : Prop :=
  payload.address.value = venue ∨ ∃ row ∈ rowsFrom ingest payload, venueOf row.envelope = venue

/-- The archive holds payloads of a venue on a day, every one of them in scope. -/
def ReadWhole (archive : ArchiveTree) (scopes : Option (List Text)) (venue : Text)
    (day : Int) : Prop :=
  (∃ payload, ReceivedOn archive scopes day payload ∧ ForVenue ingest venue payload) ∧
    ∀ payload, ReceivedOn archive none day payload → ForVenue ingest venue payload →
      ReceivedOn archive scopes day payload

/-- A receipt day lies whole in the range of a request. -/
def LiesWhole (request : Request) (day : Int) : Prop :=
  request.fromMicros ≤ day ∧ dayEnd day ≤ request.toMicros

/-- A segment is of a venue and of one of some receipt days, which lies whole in the range, and
every payload the archive holds of the venue on it is in scope. -/
def ReDerived (archive : ArchiveTree) (request : Request) (days : List Int)
    (segment : TapeSegment) : Prop :=
  ∃ venue source, segment.label venueLabel = some venue ∧
    (segment.label sourceDayLabel).bind midnightOf = some source ∧
    LiesWhole request source ∧ source ∈ days ∧
    ReadWhole ingest archive request.scopes venue source

/-- Effects take a segment off its path: they remove it, or commit another one there. -/
def Takes (effects : List (Effect Path TapeSegment)) (path : Path) (segment : TapeSegment) :
    Prop :=
  .remove path ∈ effects ∨ ∃ other, other ≠ segment ∧ .commit path other ∈ effects

/-- **Whatever fails, every segment taken off the tape is of a venue and a receipt day that the
run read payloads for, covered whole, and committed.** -/
def RemovesOnlyReDerived (archive : ArchiveTree) (tape : TapeTree) (request : Request) : Prop :=
  ∀ faults path segment, tape.lookup path = some segment →
    Takes (rebuildWith ingest archive tape request faults).effects path segment →
      ReDerived ingest archive request (rebuildWith ingest archive tape request faults).committed
        segment

/-- The receipt days of a request, oldest first. -/
def daysOf (archive : ArchiveTree) (request : Request) : List Int :=
  receiptDays archive request.scopes request.fromMicros request.toMicros

/-- The paths some receipt days of a request are built at. -/
def pathsOn (archive : ArchiveTree) (request : Request) (days : List Int) : List Path :=
  (days.flatMap (builtOn ingest archive request)).map Prod.fst

/-- A planned segment is of a venue derived within the request, of a source day in its
range, and at a path that is not built again. -/
inductive Outdated (archive : ArchiveTree) (request : Request) (entry : Labelled) : Prop
  /-- Every day builds, and some day derives the venue. -/
  | byAll (builds : ∀ midnight ∈ daysOf archive request, Builds ingest archive request midnight)
      (derived : entry.venue ∈ (daysOf archive request).flatMap (venuesOn ingest archive request))
      (atLeast : request.fromMicros ≤ entry.source) (before : entry.source < request.toMicros)
      (elsewhere : entry.path ∉ pathsOn ingest archive request (daysOf archive request))
  /-- A day's commit may fail after the days before it, and one of these derives the venue. -/
  | byFront (front after : List Int) (midnight : Int)
      (split : daysOf archive request = front ++ midnight :: after)
      (builds : ∀ midnight ∈ front, Builds ingest archive request midnight)
      (refusable : Refusable ingest archive request midnight)
      (derived : entry.venue ∈ (front ++ [midnight]).flatMap (venuesOn ingest archive request))
      (atLeast : request.fromMicros ≤ entry.source) (before : entry.source < midnight)
      (elsewhere : entry.path ∉ pathsOn ingest archive request front)

/-- The archive holds what every outdated segment of the plan was derived from: receipts of
its venue on its source day, all of them in scope. -/
def ArchiveHoldsOutdated (archive : ArchiveTree) (tape : TapeTree) (request : Request) : Prop :=
  request.replace = .sourceDays → WholeDays request.fromMicros request.toMicros →
    ∀ labelled, plan tape (fun _ => false) = .ok labelled →
      ∀ entry ∈ labelled, Outdated ingest archive request entry →
        entry.source ∈ daysOf archive request ∧
          ReadWhole ingest archive request.scopes entry.venue entry.source

/-- A run comes to write: no range is split and no label is missing where it replaces. -/
def ComesToWrite (tape : TapeTree) (request : Request) : Prop :=
  request.replace = .sourceDays →
    WholeDays request.fromMicros request.toMicros ∧
      ∃ labelled, plan tape (fun _ => false) = .ok labelled

/-- What a day builds, wherever a run comes to it, goes to paths where the tape holds nothing,
the same segment, or one that the days before it re-derive. -/
def OverwritesReDerived (archive : ArchiveTree) (tape : TapeTree) (request : Request) : Prop :=
  ComesToWrite tape request →
    ∀ front midnight after, daysOf archive request = front ++ midnight :: after →
      (∀ day ∈ front, Builds ingest archive request day) →
      (streamOn archive request midnight).2 = none →
        ∀ built ∈ builtOn ingest archive request midnight, ∀ segment,
          tape.lookup built.1 = some segment → built.2 ≠ segment →
            ReDerived ingest archive request front segment

/-- A footer that opened says what it says where none fails. -/
theorem labelsOf_of_ok {tape : TapeTree} {fails : Path → Bool} {path : Path}
    {entry : Labelled} (read : labelsOf tape fails path = .ok entry) :
    labelsOf tape (fun _ => false) path = .ok entry := by
  unfold labelsOf at read ⊢
  split at read
  · cases read
  · simpa using read

/-- A plan holds an entry for each path, in order. -/
theorem plan_eq_ok_iff {tape : TapeTree} {fails : Path → Bool} {labelled : List Labelled} :
    plan tape fails = .ok labelled ↔
      List.Forall₂ (fun path entry => labelsOf tape fails path = .ok entry)
        (projectedPaths tape) labelled := by
  unfold plan
  generalize projectedPaths tape = paths
  induction paths generalizing labelled with
  | nil =>
      rw [List.forall₂_nil_left_iff]
      exact ⟨fun planned => (Except.ok.inj planned).symm, fun isNil => by rw [isNil]; rfl⟩
  | cons path paths inductionHypothesis =>
      simp only [List.mapM_cons, bind, Except.bind, pure, Except.pure, List.forall₂_cons_left_iff]
      cases read : labelsOf tape fails path with
      | error reason => simp
      | ok entry =>
          cases rest : paths.mapM (labelsOf tape fails) with
          | error reason =>
              simp only [reduceCtorEq, false_iff, not_exists, not_and]
              intro _ entries _ matched
              simp [inductionHypothesis.mpr matched] at rest
          | ok entries =>
              simp only [Except.ok.injEq, exists_and_left, exists_eq_left']
              constructor
              · rintro rfl
                exact ⟨entries, inductionHypothesis.mp rest, rfl⟩
              · rintro ⟨others, matched, rfl⟩
                rw [inductionHypothesis.mpr matched, Except.ok.injEq] at rest
                rw [rest]

/-- A plan that was made is the plan that is made where no footer fails. -/
theorem plan_of_ok {tape : TapeTree} {fails : Path → Bool} {labelled : List Labelled}
    (planned : plan tape fails = .ok labelled) :
    plan tape (fun _ => false) = .ok labelled :=
  plan_eq_ok_iff.mpr ((plan_eq_ok_iff.mp planned).imp fun _ _ read => labelsOf_of_ok read)

/-- A footer that opened says what its segment's labels say. -/
theorem labels_of_labelsOf {tape : TapeTree} {fails : Path → Bool} {path : Path}
    {entry : Labelled} (read : labelsOf tape fails path = .ok entry) :
    entry.path = path ∧ ∃ segment, tape.lookup path = some segment ∧
      segment.label venueLabel = some entry.venue ∧
      (segment.label sourceDayLabel).bind midnightOf = some entry.source := by
  unfold labelsOf at read
  split at read
  · cases read
  · split at read
    · cases read
    · rename_i segment found
      split at read
      · cases read
      · rename_i venue isVenue
        split at read
        · cases read
        · rename_i source isSource
          cases read
          exact ⟨rfl, segment, found, isVenue, isSource⟩

/-- What a planned entry says is what its segment's labels say. -/
theorem labels_of_mem_plan {tape : TapeTree} {fails : Path → Bool} {labelled : List Labelled}
    (planned : plan tape fails = .ok labelled) {entry : Labelled} (member : entry ∈ labelled) :
    ∃ segment, tape.lookup entry.path = some segment ∧
      segment.label venueLabel = some entry.venue ∧
      (segment.label sourceDayLabel).bind midnightOf = some entry.source := by
  obtain ⟨path, _, read⟩ := (exists_mem_of_forall₂ (plan_eq_ok_iff.mp planned)).2 entry member
  obtain ⟨rfl, labels⟩ := labels_of_labelsOf read
  exact labels

/-- Every planned path has its entry. -/
theorem exists_entry_of_mem_projectedPaths {tape : TapeTree} {fails : Path → Bool}
    {labelled : List Labelled} (planned : plan tape fails = .ok labelled) {path : Path}
    (member : path ∈ projectedPaths tape) : ∃ entry ∈ labelled, entry.path = path := by
  obtain ⟨entry, isEntry, read⟩ := (exists_mem_of_forall₂ (plan_eq_ok_iff.mp planned)).1 path member
  exact ⟨entry, isEntry, (labels_of_labelsOf read).1⟩

theorem mem_doomedPaths {labelled : List Labelled} {venues : List Text}
    {fromMicros toMicros : Int} {written : List Path} {path : Path} :
    path ∈ doomedPaths labelled venues fromMicros toMicros written ↔
      ∃ entry ∈ labelled, entry.path = path ∧ entry.venue ∈ venues ∧
        fromMicros ≤ entry.source ∧ entry.source < toMicros ∧ path ∉ written := by
  simp only [doomedPaths, doomed, List.mem_map, List.mem_filter, Bool.and_eq_true,
    decide_eq_true_eq]
  constructor
  · rintro ⟨entry, ⟨member, ⟨isVenue, atLeast, before⟩, elsewhere⟩, rfl⟩
    exact ⟨entry, member, rfl, isVenue, atLeast, before, elsewhere⟩
  · rintro ⟨entry, member, rfl, isVenue, atLeast, before, elsewhere⟩
    exact ⟨entry, ⟨member, ⟨isVenue, atLeast, before⟩, elsewhere⟩, rfl⟩

section Doomed

variable {fails : Path → Bool} {venues : List Text} {fromMicros toMicros : Int}
  {written : List Path} {labelled : List Labelled}

/-- Only what is doomed is removed. -/
theorem doomed_of_removed {path : Path}
    (removed : .remove path ∈
      (removeDoomed fails venues fromMicros toMicros written labelled).1) :
    ∃ entry ∈ labelled, entry.path = path ∧ entry.venue ∈ venues ∧
      fromMicros ≤ entry.source ∧ entry.source < toMicros ∧ entry.path ∉ written := by
  obtain ⟨names, isFront, made, _⟩ :=
    removeDoomed_spec fails venues fromMicros toMicros written labelled
  rw [made] at removed
  obtain ⟨name, member, same⟩ := mem_removals.mp removed
  obtain rfl : path = name := by simpa using same
  obtain ⟨entry, isPlanned, isPath, isVenue, atLeast, before, elsewhere⟩ :=
    mem_doomedPaths.mp (isFront.subset member)
  exact ⟨entry, isPlanned, isPath, isVenue, atLeast, before, isPath ▸ elsewhere⟩

/-- Where no removal fails, all that is doomed is removed. -/
theorem removed_of_doomed {entry : Labelled} (isPlanned : entry ∈ labelled)
    (isVenue : entry.venue ∈ venues) (atLeast : fromMicros ≤ entry.source)
    (before : entry.source < toMicros) (elsewhere : entry.path ∉ written) :
    .remove entry.path ∈
      (removeDoomed (fun _ => false) venues fromMicros toMicros written labelled).1 := by
  obtain ⟨names, _, made, all⟩ :=
    removeDoomed_spec (fun _ => false) venues fromMicros toMicros written labelled
  rw [made, all (.inl fun _ => rfl)]
  exact mem_removals.mpr ⟨entry.path,
    mem_doomedPaths.mpr ⟨entry, isPlanned, rfl, isVenue, atLeast, before, elsewhere⟩, rfl⟩

/-- A removal commits nothing. -/
theorem not_mem_removeDoomed {path : Path} {segment : TapeSegment} :
    .commit path segment ∉
      (removeDoomed fails venues fromMicros toMicros written labelled).1 := by
  obtain ⟨removed, _, made, _⟩ :=
    removeDoomed_spec fails venues fromMicros toMicros written labelled
  simp [made, removals]

end Doomed

variable (archive : ArchiveTree) (request : Request)

/-- Where days are read whole, a receipt day lies in the range. -/
theorem bounds_of_wholeDays (whole : WholeDays request.fromMicros request.toMicros)
    {midnight : Int} (member : midnight ∈ daysOf archive request) :
    request.fromMicros ≤ midnight ∧ midnight + microsPerDay ≤ request.toMicros ∧
      midnight + microsPerDay < i64Max := by
  obtain ⟨⟨date, read⟩, before, after⟩ := of_mem_receiptDays member
  obtain ⟨atMidnight, lower, upper⟩ := bounds_of_midnightOf read
  obtain ⟨fromWhole, toWhole⟩ := whole
  simp only [i64Min, i64Max, microsPerDay] at *
  omega

theorem liesWhole_of_wholeDays (whole : WholeDays request.fromMicros request.toMicros)
    {midnight : Int} (member : midnight ∈ daysOf archive request) : LiesWhole request midnight := by
  obtain ⟨atLeast, before, _⟩ := bounds_of_wholeDays archive request whole member
  exact ⟨atLeast, (min_le_left _ _).trans before⟩

/-- A receipt day that lies whole in the range is replayed from its midnight to its end. -/
theorem streamOn_of_liesWhole {midnight : Int} (lies : LiesWhole request midnight)
    (member : midnight ∈ daysOf archive request) :
    streamOn archive request midnight =
      streamRange archive (fun _ => false) request.scopes midnight (midnight + microsPerDay) := by
  obtain ⟨⟨date, read⟩, _, _⟩ := of_mem_receiptDays member
  have below : midnight + microsPerDay ≤ i64Max := by
    have bounds := bounds_of_midnightOf read
    simp only [i64Max] at *
    omega
  have isEnd : dayEnd midnight = midnight + microsPerDay := min_eq_left below
  rw [streamOn, max_eq_left lies.1, min_eq_left lies.2, isEnd]

theorem streamOn_of_wholeDays (whole : WholeDays request.fromMicros request.toMicros)
    {midnight : Int} (member : midnight ∈ daysOf archive request) :
    streamOn archive request midnight =
      streamRange archive (fun _ => false) request.scopes midnight (midnight + microsPerDay) :=
  streamOn_of_liesWhole archive request (liesWhole_of_wholeDays archive request whole member) member

/-- A receipt day that reads, and lies whole in the range, yields its receipts in scope. -/
theorem mem_streamOn {midnight : Int} (lies : LiesWhole request midnight)
    (member : midnight ∈ daysOf archive request)
    (read : (streamOn archive request midnight).2 = none) {payload : Payload} :
    payload ∈ (streamOn archive request midnight).1 ↔
      ReceivedOn archive request.scopes midnight payload := by
  rw [streamOn_of_liesWhole archive request lies member] at read ⊢
  exact mem_streamRange read

/-- A receipt day with a payload in scope is one that receives. -/
theorem receives_of_readWhole {midnight : Int} (lies : LiesWhole request midnight)
    (member : midnight ∈ daysOf archive request)
    (read : (streamOn archive request midnight).2 = none) {venue : Text}
    (readWhole : ReadWhole ingest archive request.scopes venue midnight) :
    receives archive request midnight = true := by
  obtain ⟨⟨payload, received, _⟩, _⟩ := readWhole
  exact decide_eq_true
    (List.ne_nil_of_mem ((mem_streamOn archive request lies member read).mpr received))

/-- A day that derives a venue holds a payload. -/
theorem stream_ne_nil_of_mem_venuesOn {venue : Text} {midnight : Int}
    (derived : venue ∈ venuesOn ingest archive request midnight) :
    (streamOn archive request midnight).1 ≠ [] := by
  intro nothing
  simp [venuesOn, rowsOn_eq_nil ingest archive request nothing, pendingVenues] at derived

/-- A run that derives a venue has read a payload. -/
theorem payloads_ne_zero_of_mem_venuesOn {venue : Text} {days : List Int}
    (derived : venue ∈ days.flatMap (venuesOn ingest archive request)) :
    (days.map fun midnight => (streamOn archive request midnight).1.length).sum ≠ 0 := by
  obtain ⟨midnight, member, onDay⟩ := List.mem_flatMap.mp derived
  have positive : 0 < (streamOn archive request midnight).1.length :=
    List.length_pos_of_ne_nil (stream_ne_nil_of_mem_venuesOn ingest archive request onDay)
  have atMost := List.single_le_sum (l := days.map fun midnight =>
    (streamOn archive request midnight).1.length) (fun _ _ => Nat.zero_le _) _
    (List.mem_map_of_mem member)
  omega

/-- Before a day of a list in increasing order there are only earlier days of it. -/
theorem mem_front_of_lt {front after : List Int} {midnight source : Int}
    (ordered : (front ++ midnight :: after).Pairwise (· < ·))
    (member : source ∈ front ++ midnight :: after) (earlier : source < midnight) :
    source ∈ front := by
  obtain ⟨_, restOrdered, _⟩ := List.pairwise_append.mp ordered
  rcases List.mem_append.mp member with inFront | inRest
  · exact inFront
  · rcases List.mem_cons.mp inRest with rfl | inAfter
    · omega
    · have later := List.rel_of_pairwise_cons restOrdered inAfter
      omega

theorem pairwise_daysOf : (daysOf archive request).Pairwise (· < ·) :=
  pairwise_receiptDays archive request.scopes request.fromMicros request.toMicros

/-! ## The two directions -/

variable (tape : TapeTree)

theorem not_mem_commits {Name Content : Type} {name : Name} {entries : List (Name × Content)} :
    (.remove name : Effect Name Content) ∉ commits entries := by
  simp [commits]

/-- A run that replaces, and whose plan was made. -/
theorem rebuildWith_of_planned (replaces : request.replace = .sourceDays)
    (whole : WholeDays request.fromMicros request.toMicros) {faults : Faults}
    {labelled : List Labelled} (planned : plan tape faults.footer = .ok labelled) :
    rebuildWith ingest archive tape request faults =
      conclude request faults labelled
        (rebuildDays ingest archive request faults labelled (daysOf archive request)
          Progress.start) := by
  rw [rebuildWith, if_neg fun splits => splits.2 whole, if_pos replaces, planned]
  rfl

/-- A run that does not replace removes nothing. -/
theorem not_mem_effects_of_never {faults : Faults} (keeps : request.replace ≠ .sourceDays)
    (path : Path) :
    .remove path ∉ (rebuildWith ingest archive tape request faults).effects := by
  intro removed
  rw [rebuildWith, if_neg fun splits => keeps splits.1, if_neg keeps] at removed
  have ended := ended_rebuildDays ingest archive request faults []
    (receiptDays archive request.scopes request.fromMicros request.toMicros) Progress.start
  cases ended with
  | finished final result builds effects committed ours written payloads =>
      simp only [conclude, result, removeDoomed, List.append_nil, effects] at removed
      split at removed <;> exact absurd removed not_mem_commits
  | unread before after reason result split builds effects committed =>
      simp only [conclude, result, effects] at removed
      exact absurd removed not_mem_commits
  | refused before after midnight reason front result split builds refusable isFront effects
      committed =>
      simp only [conclude, result, effects, removeDoomed, List.append_nil] at removed
      exact absurd removed not_mem_commits

/-- A replacement that removed anything read its days whole, by a plan. -/
theorem planned_of_remove {faults : Faults} {path : Path}
    (removed : .remove path ∈ (rebuildWith ingest archive tape request faults).effects) :
    request.replace = .sourceDays ∧ WholeDays request.fromMicros request.toMicros ∧
      ∃ labelled, plan tape faults.footer = .ok labelled := by
  have replaces : request.replace = .sourceDays := by
    by_contra keeps
    exact not_mem_effects_of_never ingest archive request tape keeps path removed
  unfold rebuildWith at removed
  split at removed
  · simp at removed
  · rename_i noSplit
    refine ⟨replaces, ?_, ?_⟩
    · by_contra splits
      exact noSplit ⟨replaces, splits⟩
    · cases planned : plan tape faults.footer with
      | error reason => simp [planned] at removed
      | ok labelled => exact ⟨labelled, rfl⟩

/-- A run removes only outdated segments of its plan, and has committed the days it read
whole before them. -/
theorem outdated_of_remove {faults : Faults} {labelled : List Labelled} {path : Path}
    (replaces : request.replace = .sourceDays)
    (whole : WholeDays request.fromMicros request.toMicros)
    (planned : plan tape faults.footer = .ok labelled)
    (removed : .remove path ∈ (rebuildWith ingest archive tape request faults).effects) :
    ∃ entry ∈ labelled, entry.path = path ∧ Outdated ingest archive request entry ∧
      (entry.source ∈ daysOf archive request →
        ReadWhole ingest archive request.scopes entry.venue entry.source →
          entry.source ∈ (rebuildWith ingest archive tape request faults).committed) := by
  rw [rebuildWith_of_planned ingest archive request tape replaces whole planned] at removed ⊢
  have ended := ended_rebuildDays ingest archive request faults labelled
    (daysOf archive request) Progress.start
  cases ended with
  | finished final result builds effects committed ours written payloads =>
      simp only [conclude, result] at removed ⊢
      split at removed
      · rw [effects] at removed
        exact absurd removed not_mem_commits
      · rename_i somePayload
        rw [if_neg somePayload]
        rcases List.mem_append.mp removed with inCommits | inRemovals
        · rw [effects] at inCommits
          exact absurd inCommits not_mem_commits
        · obtain ⟨entry, isPlanned, isPath, isVenue, atLeast, before, elsewhere⟩ :=
            doomed_of_removed inRemovals
          rw [ours, Progress.start_ours, List.nil_append] at isVenue
          rw [written, Progress.start_written, List.nil_append] at elsewhere
          refine ⟨entry, isPlanned, isPath,
            .byAll builds isVenue atLeast before elsewhere, fun isDay readWhole => ?_⟩
          rw [committed]
          exact List.mem_filter.mpr ⟨isDay, receives_of_readWhole ingest archive request
            (liesWhole_of_wholeDays archive request whole isDay) isDay
            (builds entry.source isDay).1 readWhole⟩
  | unread before after reason result split builds effects committed =>
      simp only [conclude, result, effects] at removed
      exact absurd removed not_mem_commits
  | refused before after midnight reason front result split builds refusable isFront effects
      committed =>
      simp only [conclude, result] at removed ⊢
      rw [effects] at removed
      rcases List.mem_append.mp removed with inCommits | inRemovals
      · exact absurd inCommits not_mem_commits
      · obtain ⟨entry, isPlanned, isPath, isVenue, atLeast, earlier, elsewhere⟩ :=
          doomed_of_removed inRemovals
        have isMidnight : midnight ∈ daysOf archive request := by simp [split]
        have bounded := bounds_of_wholeDays archive request whole isMidnight
        rw [max_eq_left bounded.1] at earlier
        rw [Progress.start_ours, List.nil_append] at isVenue
        rw [Progress.start_written, List.nil_append] at elsewhere
        refine ⟨entry, isPlanned, isPath, .byFront before after midnight split builds refusable
          isVenue atLeast earlier elsewhere, fun isDay readWhole => ?_⟩
        have ordered := pairwise_daysOf archive request
        rw [split] at ordered
        have inFront : entry.source ∈ before := mem_front_of_lt ordered (split ▸ isDay) earlier
        rw [committed]
        exact List.mem_filter.mpr ⟨inFront, receives_of_readWhole ingest archive request
          (liesWhole_of_wholeDays archive request whole isDay) isDay
          (builds entry.source inFront).1 readWhole⟩

/-- The faults of a run whose one day is refused. -/
def Faults.refusing (midnight : Int) (fates : Nat → WriteFate) : Faults :=
  { Faults.none with write := fun day => if day = midnight then fates else fun _ => .committed }

/-- A run whose one day is refused has committed the days before it. -/
theorem rebuildDays_refusing (labelled : List Labelled) {front after : List Int} {midnight : Int}
    (split : daysOf archive request = front ++ midnight :: after)
    (builds : ∀ day ∈ front, Builds ingest archive request day)
    (readable : (streamOn archive request midnight).2 = none)
    (somePayload : (streamOn archive request midnight).1 ≠ []) {fates : Nat → WriteFate}
    {effects : List (Effect Path TapeSegment)} {reason : TapeError}
    (refused : commit fates (rowsOn ingest archive request midnight) = (effects, .error reason)) :
    rebuildDays ingest archive request (Faults.refusing midnight fates) labelled
        (daysOf archive request) Progress.start =
      ⟨commits (front.flatMap (builtOn ingest archive request)) ++ (effects ++
          (removeDoomed (fun _ => false)
            (front.flatMap (venuesOn ingest archive request) ++
              venuesOn ingest archive request midnight)
            request.fromMicros (max midnight request.fromMicros)
            ((front.flatMap (builtOn ingest archive request)).map Prod.fst) labelled).1),
        front.filter (receives archive request), .error (.tape reason)⟩ := by
  have ordered := pairwise_daysOf archive request
  rw [split] at ordered
  have passes : ∀ day ∈ front, (Faults.refusing midnight fates).replay day = none ∧
      ∀ count, (Faults.refusing midnight fates).write day count = .committed := by
    intro day inFront
    have earlier : day < midnight :=
      (List.pairwise_append.mp ordered).2.2 day inFront midnight List.mem_cons_self
    simp [Faults.refusing, Faults.none, ne_of_lt earlier]
  obtain ⟨later, ours, written, _, effectsAll, committed, result⟩ :=
    rebuildDays_append ingest archive request labelled builds passes
      (midnight :: after) Progress.start
  have wrote : commit ((Faults.refusing midnight fates).write midnight)
      (rowsOn ingest archive request midnight) = (effects, .error reason) := by
    simpa [Faults.refusing] using refused
  have last := @rebuildDays_refused ingest archive request _ labelled after midnight later
    (by rw [readable]; rfl) somePayload _ _ wrote
  rw [last] at effectsAll committed result
  rw [Progress.start_ours, List.nil_append] at ours
  rw [Progress.start_written, List.nil_append] at written
  rw [split]
  generalize rebuildDays ingest archive request (Faults.refusing midnight fates) labelled
    (front ++ midnight :: after) Progress.start = outcome at effectsAll committed result ⊢
  obtain ⟨_, _, _⟩ := outcome
  simp only [List.append_nil] at effectsAll committed result
  rw [effectsAll, committed, result, ours, written]
  rfl

/-- Every outdated segment of the plan is removed by some run, which committed its source
day only where that is a receipt day. -/
theorem exists_remove_of_outdated (replaces : request.replace = .sourceDays)
    (whole : WholeDays request.fromMicros request.toMicros) {labelled : List Labelled}
    (planned : plan tape (fun _ => false) = .ok labelled) {entry : Labelled}
    (member : entry ∈ labelled) (outdated : Outdated ingest archive request entry) :
    ∃ faults, .remove entry.path ∈ (rebuildWith ingest archive tape request faults).effects ∧
      ∀ source ∈ (rebuildWith ingest archive tape request faults).committed,
        source ∈ daysOf archive request := by
  cases outdated with
  | byAll builds derived atLeast before elsewhere =>
      obtain ⟨later, ours, written, payloads, effects, committed, result⟩ :=
        rebuildDays_append ingest archive request labelled builds
          (Faults.none_passes (daysOf archive request)) [] Progress.start
      simp only [List.append_nil, rebuildDays] at effects
      simp only [List.append_nil, rebuildDays] at committed result
      have somePayload : later.report.payloads ≠ 0 := by
        rw [payloads, Progress.start_payloads, Nat.zero_add]
        exact payloads_ne_zero_of_mem_venuesOn ingest archive request derived
      refine ⟨Faults.none, ?_, ?_⟩
      · rw [rebuildWith_of_planned ingest archive request tape replaces whole planned, conclude,
          result]
        simp only [somePayload, if_false]
        exact List.mem_append_right _
          (removed_of_doomed member (ours ▸ derived) atLeast before (written ▸ elsewhere))
      · rw [rebuildWith_of_planned ingest archive request tape replaces whole planned, conclude,
          result]
        simp only [somePayload, if_false, committed]
        exact fun source isCommitted => List.mem_of_mem_filter isCommitted
  | byFront front after midnight split builds refusable derived atLeast before elsewhere =>
      obtain ⟨readable, somePayload, fates, effects, reason, refused⟩ := refusable
      have isMidnight : midnight ∈ daysOf archive request := by simp [split]
      have bounded := bounds_of_wholeDays archive request whole isMidnight
      have ran := rebuildDays_refusing ingest archive request labelled split builds readable
        (by simpa [receives] using somePayload) refused
      refine ⟨Faults.refusing midnight fates, ?_, ?_⟩
      · rw [rebuildWith_of_planned ingest archive request tape replaces whole planned, ran]
        exact List.mem_append_right _ (List.mem_append_right _
          (removed_of_doomed member (by simpa using derived) atLeast (by omega) elsewhere))
      · rw [rebuildWith_of_planned ingest archive request tape replaces whole planned, ran, split]
        exact fun source isCommitted => List.mem_append_left _ (List.mem_of_mem_filter isCommitted)

theorem mem_commits {Name Content : Type} {name : Name} {content : Content}
    {entries : List (Name × Content)} :
    (.commit name content : Effect Name Content) ∈ commits entries ↔
      (name, content) ∈ entries := by
  simp [commits]

/-- A run that concludes has committed the days it derived. -/
theorem committed_conclude {faults : Faults} {labelled : List Labelled}
    {derived : Outcome Progress} :
    (conclude request faults labelled derived).committed = derived.committed := by
  unfold conclude
  split
  · rfl
  · split <;> rfl

/-- A run that concludes commits only what its days did. -/
theorem mem_effects_conclude {faults : Faults} {labelled : List Labelled}
    {derived : Outcome Progress} {path : Path} {segment : TapeSegment} :
    .commit path segment ∈ (conclude request faults labelled derived).effects ↔
      .commit path segment ∈ derived.effects := by
  unfold conclude
  split
  · rfl
  · split
    · rfl
    · simp only [List.mem_append, not_mem_removeDoomed, or_false]

/-- What some days that build are committed as, one of them builds. -/
theorem split_of_built {before : List Int}
    (builds : ∀ day ∈ before, Builds ingest archive request day) {built : Path × TapeSegment}
    (member : built ∈ before.flatMap (builtOn ingest archive request)) :
    ∃ front midnight after, before = front ++ midnight :: after ∧
      (∀ day ∈ front, Builds ingest archive request day) ∧
      (streamOn archive request midnight).2 = none ∧
      built ∈ builtOn ingest archive request midnight := by
  obtain ⟨midnight, inBefore, isBuilt⟩ := List.mem_flatMap.mp member
  obtain ⟨front, after, rfl⟩ := List.append_of_mem inBefore
  exact ⟨front, midnight, after, rfl,
    fun day inFront => builds day (List.mem_append_left _ inFront), (builds midnight inBefore).1,
    isBuilt⟩

/-- A commit is of what a day builds, by a run that committed the days before it. -/
theorem built_of_ended {faults : Faults} {labelled : List Labelled} {days : List Int}
    {progress : Progress} {outcome : Outcome Progress}
    (ended : Ended ingest archive request faults labelled days progress outcome) {path : Path}
    {segment : TapeSegment} (wrote : .commit path segment ∈ outcome.effects) :
    ∃ front midnight after, days = front ++ midnight :: after ∧
      (∀ day ∈ front, Builds ingest archive request day) ∧
      (streamOn archive request midnight).2 = none ∧
      (path, segment) ∈ builtOn ingest archive request midnight ∧
      ∀ day ∈ front, receives archive request day = true → day ∈ outcome.committed := by
  cases ended with
  | finished final result builds effects committed ours written payloads =>
      rw [effects, mem_commits] at wrote
      obtain ⟨front, midnight, after, rfl, buildsFront, readable, isBuilt⟩ :=
        split_of_built ingest archive request builds wrote
      refine ⟨front, midnight, after, rfl, buildsFront, readable, isBuilt, fun day inFront => ?_⟩
      rw [committed]
      exact fun received => List.mem_filter.mpr ⟨List.mem_append_left _ inFront, received⟩
  | unread before rest reason result split builds effects committed =>
      rw [effects, mem_commits] at wrote
      obtain ⟨front, midnight, after, rfl, buildsFront, readable, isBuilt⟩ :=
        split_of_built ingest archive request builds wrote
      refine ⟨front, midnight, after ++ rest, by simp [split], buildsFront, readable, isBuilt,
        fun day inFront => ?_⟩
      rw [committed]
      exact fun received => List.mem_filter.mpr ⟨List.mem_append_left _ inFront, received⟩
  | refused before rest last reason front result split builds refusable isFront effects
      committed =>
      rw [effects, List.mem_append, or_iff_left not_mem_removeDoomed, mem_commits,
        List.mem_append] at wrote
      rw [committed]
      rcases wrote with inBefore | inFront
      · obtain ⟨front, midnight, after, rfl, buildsFront, readable, isBuilt⟩ :=
          split_of_built ingest archive request builds inBefore
        exact ⟨front, midnight, after ++ last :: rest, by simp [split], buildsFront, readable,
          isBuilt, fun day inFront received =>
            List.mem_filter.mpr ⟨List.mem_append_left _ inFront, received⟩⟩
      · exact ⟨before, last, rest, split, builds, refusable.1, isFront.subset inFront,
          fun day inBefore received => List.mem_filter.mpr ⟨inBefore, received⟩⟩

/-- What a run commits, a day builds, in a run that committed the days before it. -/
theorem built_of_commit {faults : Faults} {path : Path} {segment : TapeSegment}
    (wrote : .commit path segment ∈ (rebuildWith ingest archive tape request faults).effects) :
    ComesToWrite tape request ∧
      ∃ front midnight after, daysOf archive request = front ++ midnight :: after ∧
        (∀ day ∈ front, Builds ingest archive request day) ∧
        (streamOn archive request midnight).2 = none ∧
        (path, segment) ∈ builtOn ingest archive request midnight ∧
        ∀ day ∈ front, receives archive request day = true →
          day ∈ (rebuildWith ingest archive tape request faults).committed := by
  rw [rebuildWith] at wrote ⊢
  split at wrote
  · cases wrote
  rename_i noSplit
  rw [if_neg noSplit]
  cases planned : (if request.replace = .sourceDays then plan tape faults.footer else .ok []) with
  | error reason =>
      rw [planned] at wrote
      cases wrote
  | ok labelled =>
      rw [planned] at wrote
      simp only [committed_conclude]
      refine ⟨fun replaces => ?_, ?_⟩
      · rw [if_pos replaces] at planned
        exact ⟨by_contra fun splits => noSplit ⟨replaces, splits⟩, labelled, plan_of_ok planned⟩
      · exact built_of_ended ingest archive request
          (ended_rebuildDays ingest archive request faults labelled _ Progress.start)
          ((mem_effects_conclude request).mp wrote)

/-- Writes of which one is reported as an error once it is in place. -/
def unsyncedAt (count : Nat) : Nat → WriteFate := fun other =>
  if other = count then .unsynced else .committed

/-- Writes up to one that is in place and reported as an error. -/
theorem writeAll_unsyncedAt {built : List (Path × TapeSegment)} {count : Nat}
    (within : count < built.length) :
    writeAll (unsyncedAt count) built = (commits (built.take (count + 1)), .error .segment) := by
  induction built generalizing count with
  | nil => cases within
  | cons entry built inductionHypothesis =>
      obtain ⟨path, segment⟩ := entry
      cases count with
      | zero => rfl
      | succ count =>
          have shifted : (fun other => unsyncedAt (count + 1) (other + 1)) = unsyncedAt count := by
            funext other
            simp [unsyncedAt]
          have first : unsyncedAt (count + 1) 0 = .committed := by simp [unsyncedAt]
          have rest := inductionHypothesis (Nat.lt_of_succ_lt_succ within)
          simp only [writeAll, first, WriteFate.succeeds, decide_true, if_true, shifted, rest,
            Except.map]
          rfl

/-- A run that comes to write, and whose footers open, derives its days and concludes. -/
theorem rebuildWith_of_comes (comes : ComesToWrite tape request) {faults : Faults}
    (opens : faults.footer = fun _ => false) :
    ∃ labelled, rebuildWith ingest archive tape request faults =
      conclude request faults labelled
        (rebuildDays ingest archive request faults labelled (daysOf archive request)
          Progress.start) := by
  by_cases replaces : request.replace = .sourceDays
  · obtain ⟨whole, labelled, planned⟩ := comes replaces
    rw [← opens] at planned
    exact ⟨labelled,
      rebuildWith_of_planned ingest archive request tape replaces whole planned⟩
  · refine ⟨[], ?_⟩
    rw [rebuildWith, if_neg fun splits => replaces splits.1, if_neg replaces]
    rfl

/-- Whatever a day builds is committed by some run, which committed only days before it. -/
theorem exists_commit_of_built (comes : ComesToWrite tape request) {front after : List Int}
    {midnight : Int} (split : daysOf archive request = front ++ midnight :: after)
    (builds : ∀ day ∈ front, Builds ingest archive request day)
    (readable : (streamOn archive request midnight).2 = none) {built : Path × TapeSegment}
    (member : built ∈ builtOn ingest archive request midnight) :
    ∃ faults, .commit built.1 built.2 ∈ (rebuildWith ingest archive tape request faults).effects ∧
      ∀ day ∈ (rebuildWith ingest archive tape request faults).committed, day ∈ front := by
  have somePayload : (streamOn archive request midnight).1 ≠ [] := by
    intro nothing
    rw [builtOn_eq_nil ingest archive request nothing] at member
    cases member
  obtain ⟨count, within, isBuilt⟩ := List.mem_iff_getElem.mp member
  have refused : commit (unsyncedAt count) (rowsOn ingest archive request midnight) =
      (commits ((builtOn ingest archive request midnight).take (count + 1)),
        .error .segment) := by
    rw [builtOn, builtFor] at within ⊢
    rw [commit]
    cases made : build (group (rowsOn ingest archive request midnight)) with
    | error reason =>
        rw [made] at within
        cases within
    | ok all =>
        rw [made] at within
        exact writeAll_unsyncedAt within
  obtain ⟨labelled, ran⟩ := @rebuildWith_of_comes ingest archive request tape comes
    (Faults.refusing midnight (unsyncedAt count)) rfl
  have derived := rebuildDays_refusing ingest archive request labelled split builds readable
    somePayload refused
  refine ⟨Faults.refusing midnight (unsyncedAt count), ?_, ?_⟩
  · rw [ran, mem_effects_conclude, derived]
    refine List.mem_append_right _ (List.mem_append_left _ (mem_commits.mpr ?_))
    have inTake : built ∈ (builtOn ingest archive request midnight).take (count + 1) := by
      rw [List.mem_take_iff_getElem]
      exact ⟨count, lt_min (Nat.lt_succ_self count) within, isBuilt⟩
    exact inTake
  · rw [ran, committed_conclude, derived]
    exact fun day isCommitted => List.mem_of_mem_filter isCommitted

/-- **A rebuild takes off the tape only what it re-derives exactly when the archive holds what
every outdated segment was derived from, and no day is built over another segment that the days
before it do not re-derive.** -/
theorem removesOnlyReDerived_iff (generatedEnvelope : List UInt8 → Except Text Envelope)
    (normaliser : Normaliser) :
    RemovesOnlyReDerived (ingestReplayed generatedEnvelope normaliser) archive tape request ↔
      ArchiveHoldsOutdated (ingestReplayed generatedEnvelope normaliser) archive tape request ∧
        OverwritesReDerived (ingestReplayed generatedEnvelope normaliser) archive tape
          request := by
  constructor
  · intro onlyReDerived
    constructor
    · intro replaces whole labelled planned entry member outdated
      obtain ⟨faults, removed, committedDays⟩ := exists_remove_of_outdated _ archive request tape
        replaces whole planned member outdated
      obtain ⟨segment, found, planVenue, planSource⟩ := labels_of_mem_plan planned member
      obtain ⟨venue, source, isVenue, isSource, _, committed, readWhole⟩ :=
        onlyReDerived faults entry.path segment found (.inl removed)
      obtain rfl : venue = entry.venue := Option.some.inj (isVenue.symm.trans planVenue)
      obtain rfl : source = entry.source := Option.some.inj (isSource.symm.trans planSource)
      exact ⟨committedDays _ committed, readWhole⟩
    · intro writes front midnight after split builds readable built member segment found differs
      obtain ⟨faults, committed, inFront⟩ :=
        exists_commit_of_built _ archive request tape writes split builds readable member
      obtain ⟨venue, source, isVenue, isSource, lies, isCommitted, readWhole⟩ :=
        onlyReDerived faults built.1 segment found (.inr ⟨built.2, differs, committed⟩)
      exact ⟨venue, source, isVenue, isSource, lies, inFront source isCommitted, readWhole⟩
  · rintro ⟨holds, overwrites⟩ faults path segment found (removed | ⟨other, differs, committed⟩)
    · obtain ⟨replaces, whole, labelled, planned⟩ :=
        planned_of_remove _ archive request tape removed
      obtain ⟨entry, member, rfl, outdated, committed⟩ :=
        outdated_of_remove _ archive request tape replaces whole planned removed
      obtain ⟨isDay, readWhole⟩ :=
        holds replaces whole labelled (plan_of_ok planned) entry member outdated
      obtain ⟨planSegment, planFound, isVenue, isSource⟩ := labels_of_mem_plan planned member
      obtain rfl : planSegment = segment := Option.some.inj (planFound.symm.trans found)
      exact ⟨entry.venue, entry.source, isVenue, isSource,
        liesWhole_of_wholeDays archive request whole isDay, committed isDay readWhole, readWhole⟩
    · obtain ⟨writes, front, midnight, after, split, builds, readable, isBuilt, isCommitted⟩ :=
        built_of_commit _ archive request tape committed
      obtain ⟨venue, source, isVenue, isSource, lies, inFront, readWhole⟩ :=
        overwrites writes front midnight after split builds readable (path, other) isBuilt segment
          found differs
      have isDay : source ∈ daysOf archive request := by
        rw [split]
        exact List.mem_append_left _ inFront
      have received := receives_of_readWhole _ archive request lies isDay
        (builds source inFront).1 readWhole
      exact ⟨venue, source, isVenue, isSource, lies, isCommitted source inFront received,
        readWhole⟩

/-- An adapter that makes one quote of a payload. -/
def quoting (venue : Venue) : Normaliser :=
  ⟨venue, fun payload =>
    .ok [.new venue btc none payload.recvMicros
      (.quote ⟨some ⟨8121, 1⟩, none, none, none, none, none⟩)]⟩

/-- A venue's payload, received at a moment under a sequence. -/
def receipt (venue : Venue) (seq : UInt64) (recvMicros : Int) : Payload :=
  ⟨seq, recvMicros, .venue venue.text, "l2Book".toList, "quotes".toList, none, .streamed, []⟩

/-- An archive with one more file, of some payloads of one partition and receipt. -/
def withFile (archive : ArchiveTree) (payloads : List Payload) : ArchiveTree :=
  match payloads with
  | [] => archive
  | first :: _ =>
      archive.insert
        ⟨first.partition, (Cursor.time first.recvMicros first.recvMicros 0 0).fileName⟩
        (payloadFile payloads)

/-- A full rebuild. -/
def everything : Request := ⟨none, i64Min, i64Max, .sourceDays⟩

/-- The tape a full rebuild of an archive into an empty tape leaves. -/
def firstTape (ingest : Payload → Ingested) (archive : ArchiveTree) : TapeTree :=
  applyAll (rebuildWith ingest archive ∅ everything Faults.none).effects ∅

/-- The one path with a quoting adapter, and no generated payloads. -/
def ingestQuotes : Payload → Ingested := ingestReplayed (fun _ => .error []) (quoting firstVenue)

/-- **A venue's segment of a day the archive holds nothing for is removed**, because another
day of the range derived the venue. -/
theorem rebuild_removes_unread_day :
    ¬ RemovesOnlyReDerived ingestQuotes (withFile ∅ [receipt firstVenue 1 0])
      (firstTape ingestQuotes (withFile ∅ [receipt firstVenue 2 microsPerDay]))
      ⟨none, 0, 2 * microsPerDay, .sourceDays⟩ := by
  intro onlyReDerived
  obtain ⟨path, isPath⟩ : ∃ path : Path, path =
      ⟨"kind=quotes/date=1970-01-02".toList, (Cursor.seq 2 2).fileName⟩ := ⟨_, rfl⟩
  have labelled : ((firstTape ingestQuotes (withFile ∅ [receipt firstVenue 2
      microsPerDay])).lookup path).bind (fun segment =>
        (segment.label sourceDayLabel).bind midnightOf) = some microsPerDay := by
    rw [isPath]
    decide +kernel
  obtain ⟨segment, found, isLabelled⟩ := Option.bind_eq_some_iff.mp labelled
  obtain ⟨venue, source, _, isSource, _, committed, _⟩ :=
    onlyReDerived Faults.none path segment found (.inl (by rw [isPath]; decide +kernel))
  have onlyFirst : (rebuildWith ingestQuotes (withFile ∅ [receipt firstVenue 1 0])
      (firstTape ingestQuotes (withFile ∅ [receipt firstVenue 2 microsPerDay]))
      ⟨none, 0, 2 * microsPerDay, .sourceDays⟩ Faults.none).committed = [0] := by
    decide +kernel
  rw [isSource, Option.some.injEq] at isLabelled
  rw [onlyFirst, isLabelled] at committed
  exact absurd committed (by decide)

end Tape
end Datawatch
