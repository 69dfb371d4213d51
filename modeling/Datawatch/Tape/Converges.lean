import Datawatch.Tape.Holes

/-!
# Rebuilds converge

Once a day has been rebuilt by a run that returned, the tape's segments of that day are
exactly those the day builds, and every later run, whatever cuts it short, leaves them so.
-/

namespace Datawatch
namespace Tape

open Library Library.Directory Wire Segments Calendar Record Ingest Replay

/-- A row with tape rows is of a projected dataset. -/
theorem projected_of_cells_ne_nil {row : Row} (someCells : row.cells ≠ []) :
    projected row.envelope.kind := by
  unfold Row.cells at someCells
  split at someCells
  · rename_i isBook
    rw [isBook]
    rfl
  · cases kind : row.envelope.kind <;> first | rfl | simp [kind, extra] at someCells

theorem under_partitionOf (kind : Kind) (atMicros : Int) :
    Under ("kind=".toList ++ kind.asStr) (partitionOf kind atMicros) := by
  rw [Under, partitionOf_levels, components_append]
  exact List.prefix_append _ _

variable {ingest : Payload → Ingested}

/-- A derived segment is planned. -/
theorem mem_projectedPaths_of_derived {archive : ArchiveTree} {tape : TapeTree} {path : Path}
    {segment : TapeSegment} {venue : Text} {source : Int}
    (found : tape.lookup path = some segment)
    (derived : DerivedSegment ingest archive path segment venue source) :
    path ∈ projectedPaths tape := by
  obtain ⟨cells, inSegment⟩ := List.exists_mem_of_ne_nil _ derived.nonempty
  obtain ⟨_, _, row, _, partition, _, inCells⟩ := derived.rows cells inSegment
  have isProjected := projected_of_cells_ne_nil (List.ne_nil_of_mem inCells)
  have isUnder : Under ("kind=".toList ++ row.envelope.kind.asStr) path.partition := by
    rw [← partition]
    exact under_partitionOf _ _
  obtain ⟨cursor, parsed⟩ := Option.isSome_iff_exists.mp derived.listed
  have inTape : (⟨path.partition, path.name⟩ : Path) ∈ tape :=
    AList.lookup_isSome.mp (by simp [found])
  obtain ⟨listing, isListed, member⟩ := mem_partitionsListed.mpr ⟨isUnder, inTape, parsed⟩
  refine List.mem_flatMap.mpr ⟨row.envelope.kind, mem_projectedKinds.mpr isProjected, ?_⟩
  exact List.mem_flatMap.mpr ⟨_, isListed, List.mem_map.mpr ⟨_, member, rfl⟩⟩

section Completed

variable (ingest) (archive : ArchiveTree) (tape : TapeTree) (request : Request)

/-- A run that returned wrote everything its days build, and removed every planned segment of
a venue it derived and a source day in its range but those it wrote over. -/
theorem effects_of_ok {faults : Faults} {report : Rebuilt}
    (returned : (rebuildWith ingest archive tape request faults).result = .ok report)
    (replaces : request.replace = .sourceDays) :
    WholeDays request.fromMicros request.toMicros ∧
      (∀ midnight ∈ daysOf archive request, Builds ingest archive request midnight) ∧
      ∃ labelled, plan tape (fun _ => false) = .ok labelled ∧
        (rebuildWith ingest archive tape request faults).effects =
          commits ((daysOf archive request).flatMap (builtOn ingest archive request)) ++
            removals (doomedPaths labelled
              ((daysOf archive request).flatMap (venuesOn ingest archive request))
              request.fromMicros request.toMicros
              (pathsOn ingest archive request (daysOf archive request))) := by
  have whole : WholeDays request.fromMicros request.toMicros := by
    by_contra splits
    rw [rebuildWith, if_pos ⟨replaces, splits⟩] at returned
    cases returned
  cases planned : plan tape faults.footer with
  | error reason =>
      rw [rebuildWith, if_neg fun splits => splits.2 whole, if_pos replaces, planned] at returned
      cases returned
  | ok labelled =>
      rw [rebuildWith_of_planned ingest archive request tape replaces whole planned]
        at returned ⊢
      have ended := ended_rebuildDays ingest archive request faults labelled
        (daysOf archive request) Progress.start
      cases ended with
      | finished final result builds effects committed ours written payloads =>
          refine ⟨whole, builds, labelled, plan_of_ok planned, ?_⟩
          rw [Progress.start_ours, List.nil_append] at ours
          rw [Progress.start_written, List.nil_append] at written
          simp only [conclude, result] at returned ⊢
          by_cases nothing : final.report.payloads = 0
          · rw [if_pos nothing, effects]
            have noVenue : ∀ path, path ∉ doomedPaths labelled
                ((daysOf archive request).flatMap (venuesOn ingest archive request))
                request.fromMicros request.toMicros
                (pathsOn ingest archive request (daysOf archive request)) := by
              intro path member
              obtain ⟨_, _, _, derived, _⟩ := mem_doomedPaths.mp member
              rw [payloads, Progress.start_payloads, Nat.zero_add] at nothing
              exact payloads_ne_zero_of_mem_venuesOn ingest archive request derived nothing
            rw [List.eq_nil_iff_forall_not_mem.mpr noVenue]
            exact (List.append_nil _).symm
          · rw [if_neg nothing] at returned ⊢
            obtain ⟨names, _, made, all⟩ := removeDoomed_spec faults.removal final.ours
              request.fromMicros request.toMicros final.written labelled
            have succeeded : (removeDoomed faults.removal final.ours request.fromMicros
                request.toMicros final.written labelled).2.toOption.isSome := by
              cases result : (removeDoomed faults.removal final.ours request.fromMicros
                request.toMicros final.written labelled).2 with
              | error reason => simp [result, Except.map] at returned
              | ok count => rfl
            rw [effects, made, all (.inr succeeded), ours, written]
            rfl
      | unread before after reason result split builds effects committed =>
          simp [conclude, result] at returned
      | refused before after midnight reason front result split builds refusable isFront effects
          committed =>
          simp [conclude, result] at returned

/-- A run in which nothing fails and every day builds returns. -/
theorem exists_ok_of_builds (replaces : request.replace = .sourceDays)
    (whole : WholeDays request.fromMicros request.toMicros)
    (builds : ∀ midnight ∈ daysOf archive request, Builds ingest archive request midnight)
    {labelled : List Labelled} (planned : plan tape (fun _ => false) = .ok labelled) :
    ∃ report, (rebuildWith ingest archive tape request Faults.none).result = .ok report := by
  obtain ⟨later, _, _, _, _, _, result⟩ :=
    rebuildDays_append ingest archive request labelled builds
      (Faults.none_passes (daysOf archive request)) [] Progress.start
  simp only [List.append_nil, rebuildDays] at result
  rw [rebuildWith_of_planned ingest archive request tape replaces whole planned, conclude, result]
  have removes (labelled : List Labelled) (venues : List Text) (written : List Path) :
      ∃ count, (removeDoomed (fun _ => false) venues request.fromMicros request.toMicros written
        labelled).2 = .ok count := by
    induction labelled with
    | nil => exact ⟨0, rfl⟩
    | cons entry labelled inductionHypothesis =>
        obtain ⟨count, counted⟩ := inductionHypothesis
        unfold removeDoomed
        simp only [Bool.false_eq_true, if_false, counted, Except.map]
        split
        · split <;> exact ⟨_, rfl⟩
        · exact ⟨count, counted⟩
  obtain ⟨count, counted⟩ := removes labelled later.ours later.written
  dsimp only
  split
  · exact ⟨_, rfl⟩
  · simp only [Faults.none, counted, Except.map]
    exact ⟨_, rfl⟩

end Completed

/-! ## A sequence of runs -/

/-- One whole-day rebuild of a sequence: its range, what fails in it, and the effect after
which it dies, if it gets so far. -/
structure Rerun where
  fromMicros : Int
  toMicros : Int
  faults : Faults
  count : Nat

namespace Rerun

def request (rerun : Rerun) : Request := ⟨none, rerun.fromMicros, rerun.toMicros, .sourceDays⟩

variable (ingest) (archive : ArchiveTree)

/-- What a run returns, where it does not die. -/
def outcome (rerun : Rerun) (tape : TapeTree) : Outcome Rebuilt :=
  rebuildWith ingest archive tape rerun.request rerun.faults

/-- The tape a run leaves. -/
def tape (rerun : Rerun) (tape : TapeTree) : TapeTree :=
  applyAll ((rerun.outcome ingest archive tape).effects.take rerun.count) tape

/-- A run did not die, and returned. -/
def Returns (rerun : Rerun) (tape : TapeTree) : Prop :=
  (rerun.outcome ingest archive tape).effects.length ≤ rerun.count ∧
    (rerun.outcome ingest archive tape).result.toOption.isSome

end Rerun

/-- Every partition of an archive names one day, as the record writes them. -/
def DatesAgree (archive : ArchiveTree) : Prop :=
  ∀ path ∈ archive, ∀ part ∈ components path.partition, ∀ midnight,
    (valueUnder "date=".toList [part]).bind midnightOf = some midnight →
      dayOf path.partition = some midnight

variable (ingest) (archive : ArchiveTree)

/-- The tape a sequence of runs leaves. -/
def tapeAfter : List Rerun → TapeTree → TapeTree
  | [], tape => tape
  | rerun :: reruns, tape => tapeAfter reruns (rerun.tape ingest archive tape)

/-- At each run, no segment it may write has the path of one of another venue or source
day. -/
def StayApart : List Rerun → TapeTree → Prop
  | [], _ => True
  | rerun :: reruns, tape =>
      PathsApart ingest archive tape rerun.request ∧
        StayApart reruns (rerun.tape ingest archive tape)

/-- Some run of a sequence returns, and has a day among its receipt days. -/
def Covered (day : Int) : List Rerun → TapeTree → Prop
  | [], _ => False
  | rerun :: reruns, tape =>
      (rerun.Returns ingest archive tape ∧ day ∈ daysOf archive rerun.request) ∨
        Covered day reruns (rerun.tape ingest archive tape)

instance (rerun : Rerun) (tape : TapeTree) : Decidable (rerun.Returns ingest archive tape) := by
  unfold Rerun.Returns
  infer_instance

instance decidableCovered (day : Int) :
    (reruns : List Rerun) → (tape : TapeTree) → Decidable (Covered ingest archive day reruns tape)
  | [], _ => inferInstanceAs (Decidable False)
  | rerun :: reruns, tape =>
      have := decidableCovered day reruns (rerun.tape ingest archive tape)
      inferInstanceAs (Decidable ((rerun.Returns ingest archive tape ∧
        day ∈ daysOf archive rerun.request) ∨
          Covered ingest archive day reruns (rerun.tape ingest archive tape)))

/-- A tape's segments of a day are exactly those the day builds. -/
def Settled (day : Int) (tape : TapeTree) : Prop :=
  Builds ingest archive everything day ∧
    ∀ path segment,
      (tape.lookup path = some segment ∧
        (segment.label sourceDayLabel).bind midnightOf = some day) ↔
          (path, segment) ∈ builtOn ingest archive everything day

variable {ingest archive}

theorem wholeDays_everything : WholeDays everything.fromMicros everything.toMicros :=
  ⟨.inl rfl, .inl rfl⟩

/-- A whole day is replayed alike whichever range it is part of. -/
theorem streamOn_eq_everything {rerun : Rerun}
    (whole : WholeDays rerun.fromMicros rerun.toMicros) {day : Int}
    (isDay : day ∈ daysOf archive rerun.request) :
    streamOn archive rerun.request day = streamOn archive everything day := by
  rw [streamOn_of_wholeDays archive rerun.request whole isDay,
    streamOn_of_wholeDays archive everything wholeDays_everything (mem_receiptDays_whole isDay)]
  rfl

theorem builtOn_eq_everything {rerun : Rerun}
    (whole : WholeDays rerun.fromMicros rerun.toMicros) {day : Int}
    (isDay : day ∈ daysOf archive rerun.request) :
    builtOn ingest archive rerun.request day = builtOn ingest archive everything day := by
  simp only [builtOn, rowsOn, streamOn_eq_everything whole isDay]

theorem builds_iff_everything {rerun : Rerun}
    (whole : WholeDays rerun.fromMicros rerun.toMicros) {day : Int}
    (isDay : day ∈ daysOf archive rerun.request) :
    Builds ingest archive rerun.request day ↔ Builds ingest archive everything day := by
  simp only [Builds, rowsOn, streamOn_eq_everything whole isDay]

/-- Every receipt day in a run's range is one it reads. -/
theorem mem_daysOf_of_bounds (agree : DatesAgree archive) {rerun : Rerun} {day : Int}
    (isDay : day ∈ allDays archive) (atLeast : rerun.fromMicros ≤ day)
    (before : day < rerun.toMicros) : day ∈ daysOf archive rerun.request := by
  obtain ⟨partition, inRange, notFailures, inScopes, isDayOf⟩ := mem_receiptDays.mp isDay
  obtain ⟨⟨path, isThere, rfl, parsed⟩, _⟩ := mem_partitionsInRange.mp inRange
  refine mem_receiptDays.mpr ⟨path.partition, mem_partitionsInRange.mpr
    ⟨⟨path, isThere, rfl, parsed⟩, ?_⟩, notFailures, rfl, isDayOf⟩
  refine List.all_eq_true.mpr fun part isPart => ?_
  unfold covers
  split
  · rfl
  · rename_i midnight read
    have same := agree path isThere part isPart midnight read
    rw [isDayOf, Option.some.injEq] at same
    obtain ⟨_, _, below⟩ := of_mem_receiptDays isDay
    obtain ⟨⟨date, isDate⟩, _⟩ := of_mem_receiptDays isDay
    obtain ⟨_, _, upper⟩ := bounds_of_midnightOf isDate
    refine decide_eq_true ?_
    simp only [Rerun.request, i64Max, microsPerDay] at *
    omega

/-- A run that does not read its days whole is refused, and does nothing. -/
theorem tape_of_splits {rerun : Rerun} {tape : TapeTree}
    (splits : ¬ WholeDays rerun.fromMicros rerun.toMicros) :
    rerun.tape ingest archive tape = tape := by
  simp only [Rerun.tape, Rerun.outcome, rebuildWith]
  rw [if_pos ⟨rfl, splits⟩]
  simp

/-- A segment a run may write, of a settled day, is one the day builds. -/
theorem mem_builtOn_of_writes {rerun : Rerun}
    (whole : WholeDays rerun.fromMicros rerun.toMicros) {path : Path} {segment : TapeSegment}
    (written : (path, segment) ∈ writes ingest archive rerun.request) {day : Int}
    (isSource : (segment.label sourceDayLabel).bind midnightOf = some day) :
    day ∈ daysOf archive rerun.request ∧
      (path, segment) ∈ builtOn ingest archive everything day := by
  obtain ⟨midnight, isDay, read, isBuilt⟩ := mem_writes.mp written
  obtain ⟨_, _, derived⟩ := derivedSegment_of_mem_builtOn isDay read isBuilt
  have same : midnight = day := Option.some.inj (derived.isSource.symm.trans isSource)
  subst same
  exact ⟨isDay, builtOn_eq_everything whole isDay ▸ isBuilt⟩

/-- **Step: a run, however it ends, leaves a settled day settled.** -/
theorem Settled.step (agree : DatesAgree archive) {day : Int} (isDay : day ∈ allDays archive)
    {rerun : Rerun} {tape : TapeTree} (apart : PathsApart ingest archive tape rerun.request)
    (settled : Settled ingest archive day tape) :
    Settled ingest archive day (rerun.tape ingest archive tape) := by
  by_cases whole : WholeDays rerun.fromMicros rerun.toMicros
  · obtain ⟨builds, exact_⟩ := settled
    refine ⟨builds, fun path segment => ?_⟩
    obtain ⟨front, names, effects, written, replaced⟩ :=
      exists_effects_take ingest archive rerun.request tape rerun.faults rerun.count
    rw [Rerun.tape, Rerun.outcome, effects, lookup_applyAll_commits_append_removals]
    constructor
    · rintro ⟨found, isSource⟩
      split at found
      · cases found
      · rcases lookup_applyAll_commits_cases front tape path with
          ⟨content, member, isContent⟩ | ⟨_, same⟩
        · obtain rfl : content = segment := Option.some.inj (isContent.symm.trans found)
          exact (mem_builtOn_of_writes whole (written _ member) isSource).2
        · exact (exact_ path segment).mp ⟨same.symm.trans found, isSource⟩
    · intro isBuilt
      obtain ⟨found, isSource⟩ := (exact_ path segment).mpr isBuilt
      refine ⟨?_, isSource⟩
      have kept : path ∉ names := by
        intro removed
        obtain ⟨_, labelled, planned, entry, isPlanned, rfl, isReplaced⟩ := replaced path removed
        obtain ⟨planSegment, planFound, _, planSource⟩ := labels_of_mem_plan planned isPlanned
        obtain rfl : segment = planSegment := Option.some.inj (found.symm.trans planFound)
        have same : entry.source = day := Option.some.inj (planSource.symm.trans isSource)
        have inDays : entry.source ∈ daysOf archive rerun.request :=
          mem_daysOf_of_bounds agree (same ▸ isDay) isReplaced.atLeast isReplaced.before
        obtain ⟨_, _, elsewhere⟩ := isReplaced.rewritten inDays
        refine elsewhere (entry.path, segment) ?_ rfl
        rw [builtOn_eq_everything whole inDays, same]
        exact isBuilt
      rw [if_neg kept]
      rcases lookup_applyAll_commits_cases front tape path with
        ⟨content, member, isContent⟩ | ⟨_, same⟩
      · obtain ⟨sameVenue, sameSource⟩ := (apart _ (written _ member)).1 segment found
        have contentSource : (content.label sourceDayLabel).bind midnightOf = some day := by
          rw [← sameSource]
          exact isSource
        obtain ⟨_, contentBuilt⟩ := mem_builtOn_of_writes whole (written _ member) contentSource
        rw [isContent]
        exact congrArg (fun entry => some entry.2)
          (eq_of_mem_builtOn isDay builds.1 contentBuilt isBuilt rfl sameVenue.symm)
      · exact same.trans found
  · rw [tape_of_splits whole]
    exact settled

/-- A row the archive derives on a day is derived by every run that reads the day whole. -/
theorem mem_venuesOn_of_reDerives {rerun : Rerun}
    (whole : WholeDays rerun.fromMicros rerun.toMicros) {day : Int}
    (isDay : day ∈ daysOf archive rerun.request)
    (read : (streamOn archive rerun.request day).2 = none) {partition venue : Text}
    {cells : List Cell} (derives : ReDerives ingest archive partition venue day cells) :
    venue ∈ venuesOn ingest archive rerun.request day := by
  obtain ⟨payload, received, row, isRow, _, rfl, _⟩ := derives
  have lies := liesWhole_of_wholeDays archive rerun.request whole isDay
  have inStream := (mem_streamOn archive rerun.request lies isDay read).mpr received
  exact List.mem_map.mpr ⟨row, List.mem_flatMap.mpr ⟨payload, inStream, isRow⟩, rfl⟩

/-- **A run that returns settles every receipt day it read.** -/
theorem settled_of_returns {day : Int} {rerun : Rerun} {tape : TapeTree}
    (derived : Derived ingest archive tape)
    (apart : PathsApart ingest archive tape rerun.request)
    (returns : rerun.Returns ingest archive tape)
    (isDay : day ∈ daysOf archive rerun.request) :
    Settled ingest archive day (rerun.tape ingest archive tape) := by
  obtain ⟨ended, succeeded⟩ := returns
  obtain ⟨report, isReport⟩ : ∃ report, (rerun.outcome ingest archive tape).result = .ok report := by
    cases result : (rerun.outcome ingest archive tape).result with
    | error reason => simp [result, Except.toOption] at succeeded
    | ok report => exact ⟨report, rfl⟩
  obtain ⟨whole, builds, labelled, planned, effects⟩ :=
    effects_of_ok ingest archive tape rerun.request isReport rfl
  have inWrites {entry : Path × TapeSegment}
      (member : entry ∈ (daysOf archive rerun.request).flatMap
        (builtOn ingest archive rerun.request)) : entry ∈ writes ingest archive rerun.request :=
    mem_writes_of_mem_front ingest (List.append_nil _).symm builds member
  have inRange := bounds_of_wholeDays archive rerun.request whole isDay
  refine ⟨(builds_iff_everything whole isDay).mp (builds day isDay), fun path segment => ?_⟩
  rw [Rerun.tape, List.take_of_length_le ended, Rerun.outcome, effects,
    lookup_applyAll_commits_append_removals]
  constructor
  · rintro ⟨found, isSource⟩
    split at found
    · cases found
    · rename_i kept
      rcases lookup_applyAll_commits_cases _ tape path with
        ⟨content, member, isContent⟩ | ⟨elsewhere, same⟩
      · obtain rfl : content = segment := Option.some.inj (isContent.symm.trans found)
        exact (mem_builtOn_of_writes whole (inWrites member) isSource).2
      · -- A segment of the day that was there before is planned, and is removed.
        rw [same] at found
        obtain ⟨venue, source, isDerived⟩ := derived path segment found
        have sameDay : source = day := Option.some.inj (isDerived.isSource.symm.trans isSource)
        subst sameDay
        obtain ⟨entry, isPlanned, rfl⟩ := exists_entry_of_mem_projectedPaths planned
          (mem_projectedPaths_of_derived found isDerived)
        obtain ⟨planSegment, planFound, planVenue, planSource⟩ :=
          labels_of_mem_plan planned isPlanned
        obtain rfl : segment = planSegment := Option.some.inj (found.symm.trans planFound)
        have sameSource : entry.source = source :=
          Option.some.inj (planSource.symm.trans isSource)
        have sameVenue : entry.venue = venue :=
          Option.some.inj (planVenue.symm.trans isDerived.isVenue)
        obtain ⟨cells, inSegment⟩ := List.exists_mem_of_ne_nil _ isDerived.nonempty
        have onDay := mem_venuesOn_of_reDerives whole isDay (builds source isDay).1
          (isDerived.rows cells inSegment)
        refine absurd (mem_doomedPaths.mpr ⟨entry, isPlanned, rfl, ?_, ?_, ?_, elsewhere⟩) kept
        · rw [sameVenue]
          exact List.mem_flatMap.mpr ⟨source, isDay, onDay⟩
        · rw [sameSource]
          exact inRange.1
        · rw [sameSource]
          simp only [microsPerDay] at inRange
          omega
  · intro isBuilt
    rw [← builtOn_eq_everything whole isDay] at isBuilt
    have member : (path, segment) ∈ (daysOf archive rerun.request).flatMap
        (builtOn ingest archive rerun.request) := List.mem_flatMap.mpr ⟨day, isDay, isBuilt⟩
    have kept : path ∉ doomedPaths labelled
        ((daysOf archive rerun.request).flatMap (venuesOn ingest archive rerun.request))
        rerun.request.fromMicros rerun.request.toMicros
        (pathsOn ingest archive rerun.request (daysOf archive rerun.request)) := by
      intro isDoomed
      obtain ⟨_, _, _, _, _, _, elsewhere⟩ := mem_doomedPaths.mp isDoomed
      exact elsewhere (List.mem_map_of_mem member)
    obtain ⟨_, _, isDerived⟩ := derivedSegment_of_mem_builtOn isDay (builds day isDay).1 isBuilt
    refine ⟨?_, isDerived.isSource⟩
    rw [if_neg kept]
    rcases lookup_applyAll_commits_cases _ tape path with
      ⟨content, isCommitted, isContent⟩ | ⟨absent, _⟩
    · rw [isContent, eq_of_written apart (inWrites member) (inWrites isCommitted)]
    · exact absurd (List.mem_map_of_mem member) absent

theorem BuiltTape.rerun {rerun : Rerun} {tape : TapeTree}
    (built : BuiltTape ingest archive tape) :
    BuiltTape ingest archive (rerun.tape ingest archive tape) :=
  .rebuilt archive (IsPrefix.refl archive) rerun.request rerun.faults rerun.count built

theorem BuiltTape.tapeAfter {reruns : List Rerun} {tape : TapeTree}
    (built : BuiltTape ingest archive tape) :
    BuiltTape ingest archive (tapeAfter ingest archive reruns tape) := by
  induction reruns generalizing tape with
  | nil => exact built
  | cons rerun reruns inductionHypothesis => exact inductionHypothesis built.rerun

/-- **Run: a day some run covers is settled at the end.** -/
theorem settled_tapeAfter (agree : DatesAgree archive) {day : Int}
    (isDay : day ∈ allDays archive) {reruns : List Rerun} {tape : TapeTree}
    (built : BuiltTape ingest archive tape)
    (apart : StayApart ingest archive reruns tape)
    (covered : Settled ingest archive day tape ∨ Covered ingest archive day reruns tape) :
    Settled ingest archive day (tapeAfter ingest archive reruns tape) := by
  induction reruns generalizing tape with
  | nil => exact covered.resolve_right id
  | cons rerun reruns inductionHypothesis =>
      obtain ⟨apartNow, apartLater⟩ := apart
      refine inductionHypothesis built.rerun apartLater ?_
      rcases covered with settled | ⟨returns, inDays⟩ | later
      · exact .inl (settled.step agree isDay apartNow)
      · exact .inl (settled_of_returns built.derived apartNow returns inDays)
      · exact .inr later

/-- Where every day is settled, a tape holds exactly what the days build. -/
theorem lookup_eq_some_iff_of_settled {tape : TapeTree} (derived : Derived ingest archive tape)
    (settled : ∀ day ∈ allDays archive, Settled ingest archive day tape) {path : Path}
    {segment : TapeSegment} :
    tape.lookup path = some segment ↔
      (path, segment) ∈ (allDays archive).flatMap (builtOn ingest archive everything) := by
  rw [List.mem_flatMap]
  constructor
  · intro found
    obtain ⟨_, source, isDerived⟩ := derived path segment found
    exact ⟨source, isDerived.isDay,
      ((settled source isDerived.isDay).2 path segment).mp ⟨found, isDerived.isSource⟩⟩
  · rintro ⟨day, isDay, isBuilt⟩
    exact (((settled day isDay).2 path segment).mpr isBuilt).1

/-! ## What a tape holds -/

/-- What a tape segment holds of one venue and source day, each row with its partition. -/
def share (venue sourceDay : Text) (path : Path) (segment : TapeSegment) :
    Multiset (Text × List Cell) :=
  if segment.label venueLabel = some venue ∧ segment.label sourceDayLabel = some sourceDay then
    (segment.rows.map fun cells => (path.partition, cells) : List (Text × List Cell))
  else 0

/-- What a tape holds of one venue and source day. -/
def contents (tape : TapeTree) (venue sourceDay : Text) : Multiset (Text × List Cell) :=
  weight (share venue sourceDay) tape

/-- The tape rows of a row, where it is of one venue and source day. -/
def Row.share (venue sourceDay : Text) (row : Row) : Multiset (Text × List Cell) :=
  if venueOf row.envelope = venue ∧ row.sourceDay = sourceDay then
    (row.cells.map fun cells => (row.partition, cells) : List (Text × List Cell))
  else 0

variable (ingest archive) in
/-- The tape rows the archive derives of one venue and source day, each once. -/
def derivedRows (venue sourceDay : Text) : Multiset (Text × List Cell) :=
  (((allDays archive).flatMap (rowsOn ingest archive everything)).map
    (Row.share venue sourceDay)).sum

/-- Amounts listed by item add up item by item. -/
theorem sum_flatMap {α Amount : Type} [AddCommMonoid Amount] (amounts : α → List Amount)
    (items : List α) :
    (items.flatMap amounts).sum = (items.map fun item => (amounts item).sum).sum := by
  rw [List.flatMap_def, List.sum_flatten, List.map_map]
  rfl

/-- A built segment's share is that of the rows of its group. -/
theorem share_of_builtFrom {venue sourceDay : Text} {entry : Path × TapeSegment}
    {group : GroupKey × List Row} (from_ : BuiltFrom entry group)
    (ofKey : ∀ row ∈ group.2, row.key = group.1) :
    share venue sourceDay entry.1 entry.2 = (group.2.map (Row.share venue sourceDay)).sum := by
  have partition : entry.1.partition = group.1.partition := by rw [from_.1, pathOf]
  simp only [share, from_.labels.1, from_.labels.2, Option.some.injEq, partition]
  by_cases isGroup : group.1.venue = venue ∧ group.1.sourceDay = sourceDay
  · have shares : group.2.map (Row.share venue sourceDay) = group.2.map fun row =>
        (row.cells.map fun cells => (group.1.partition, cells) :
          Multiset (Text × List Cell)) := by
      refine List.map_congr_left fun row member => ?_
      have isKey := ofKey row member
      rw [← isKey] at isGroup ⊢
      exact if_pos isGroup
    rw [if_pos isGroup, shares,
      sum_map_coe (fun row : Row => row.cells.map fun cells => (group.1.partition, cells)),
      ← List.map_flatMap]
    exact Multiset.coe_eq_coe.mpr (from_.2.2.map _)
  · rw [if_neg isGroup]
    refine (List.sum_eq_zero fun amount isAmount => ?_).symm
    obtain ⟨row, member, rfl⟩ := List.mem_map.mp isAmount
    rw [← ofKey row member] at isGroup
    exact if_neg isGroup

/-- What is built for some rows holds the tape rows of each, once. -/
theorem sum_share_builtFor {rows : List Row} {built : List (Path × TapeSegment)}
    (made : build (group rows) = .ok built) (venue sourceDay : Text) :
    ((builtFor rows).map fun entry => share venue sourceDay entry.1 entry.2).sum =
      (rows.map (Row.share venue sourceDay)).sum := by
  have ofKey {entry : GroupKey × List Row} (isGroup : entry ∈ group rows) :
      ∀ row ∈ entry.2, row.key = entry.1 := by
    intro row member
    rw [(mem_group.mp isGroup).1] at member
    simpa using (List.mem_filter.mp member).2
  have matched : (builtFor rows).map (fun entry => share venue sourceDay entry.1 entry.2) =
      (filled (group rows)).map fun entry => (entry.2.map (Row.share venue sourceDay)).sum := by
    rw [builtFor, made]
    rw [← List.forall₂_eq_eq_eq, List.forall₂_map_left_iff, List.forall₂_map_right_iff]
    refine List.forall₂_iff_zip.mpr ⟨(builtFrom_of_group made).length_eq, fun inZip => ?_⟩
    have from_ := (List.forall₂_iff_zip.mp (builtFrom_of_group made)).2 inZip
    exact share_of_builtFrom from_ (ofKey (List.mem_filter.mp (List.of_mem_zip inZip).2).1)
  have empty {entry : GroupKey × List Row} (noCells : entry.2.flatMap Row.cells = []) :
      (entry.2.map (Row.share venue sourceDay)).sum = 0 := by
    refine List.sum_eq_zero fun amount isAmount => ?_
    obtain ⟨row, member, rfl⟩ := List.mem_map.mp isAmount
    simp [Row.share, List.flatMap_eq_nil_iff.mp noCells row member]
  have dropped (groups : List (GroupKey × List Row)) :
      ((filled groups).map fun entry => (entry.2.map (Row.share venue sourceDay)).sum).sum =
        (groups.map fun entry => (entry.2.map (Row.share venue sourceDay)).sum).sum := by
    induction groups with
    | nil => rfl
    | cons entry groups inductionHypothesis =>
        by_cases noCells : entry.2.flatMap Row.cells = []
        · rw [filled, List.filter_cons_of_neg (by simpa using noCells), ← filled,
            inductionHypothesis, List.map_cons, List.sum_cons, empty noCells, zero_add]
        · rw [filled, List.filter_cons_of_pos (by simpa using noCells), ← filled, List.map_cons,
            List.sum_cons, inductionHypothesis, List.map_cons, List.sum_cons]
  calc _ = ((group rows).map fun entry => (entry.2.map (Row.share venue sourceDay)).sum).sum := by
        rw [matched, dropped]
    _ = (((group rows).flatMap Prod.snd).map (Row.share venue sourceDay)).sum := by
        rw [List.map_flatMap, sum_flatMap]
    _ = _ := ((perm_flatMap_group rows).map _).sum_eq

/-- Where every day is settled, a tape holds what the archive derives, each row once. -/
theorem contents_eq_derivedRows {tape : TapeTree} (derived : Derived ingest archive tape)
    (settled : ∀ day ∈ allDays archive, Settled ingest archive day tape)
    (venue sourceDay : Text) :
    contents tape venue sourceDay = derivedRows ingest archive venue sourceDay := by
  have distinct : ((allDays archive).flatMap (builtOn ingest archive everything)).Nodup := by
    refine List.nodup_flatMap.mpr ⟨fun day _ => List.Nodup.of_map _ (nodup_labels_builtFor _), ?_⟩
    refine (pairwise_daysOf archive everything).imp_of_mem fun isDay isOther earlier entry
      isBuilt otherBuilt => ?_
    have source := (((settled _ isDay).2 entry.1 entry.2).mpr isBuilt).2
    rw [(((settled _ isOther).2 entry.1 entry.2).mpr otherBuilt).2, Option.some.injEq] at source
    omega
  have holds : ∀ path segment, tape.lookup path = some segment ↔
      (path, segment) ∈ (allDays archive).flatMap (builtOn ingest archive everything) :=
    fun _ _ => lookup_eq_some_iff_of_settled derived settled
  rw [contents, weight_eq_sum_of_lookup_iff _ distinct holds, List.map_flatMap, sum_flatMap,
    derivedRows, List.map_flatMap, sum_flatMap]
  refine congrArg List.sum (List.map_congr_left fun day isDay => ?_)
  obtain ⟨built, made⟩ := (settled day isDay).1.2
  exact sum_share_builtFor made venue sourceDay

variable (ingest archive) in
/-- **A tape holds, of each venue and source day, exactly the rows one full rebuild into an
empty tape leaves, and each of them once.** -/
def Converged (tape : TapeTree) : Prop :=
  (rebuildWith ingest archive ∅ everything Faults.none).result.toOption.isSome ∧
    ∀ venue sourceDay,
      contents tape venue sourceDay = contents (firstTape ingest archive) venue sourceDay ∧
        contents tape venue sourceDay = derivedRows ingest archive venue sourceDay

/-- A full rebuild as the one run of a sequence. -/
def fullRun (ingest : Payload → Ingested) (archive : ArchiveTree) : Rerun :=
  ⟨i64Min, i64Max, Faults.none,
    (rebuildWith ingest archive ∅ everything Faults.none).effects.length⟩

theorem tape_fullRun : (fullRun ingest archive).tape ingest archive ∅ = firstTape ingest archive :=
  congrArg (fun effects => applyAll effects ∅) List.take_length

/-- A tape whose every day is settled shows that a full rebuild into an empty tape returns,
and settles every day. -/
theorem settled_firstTape {tape : TapeTree}
    (settled : ∀ day ∈ allDays archive, Settled ingest archive day tape) :
    (rebuildWith ingest archive ∅ everything Faults.none).result.toOption.isSome ∧
      ∀ day ∈ allDays archive, Settled ingest archive day (firstTape ingest archive) := by
  have apart : PathsApart ingest archive ∅ (fullRun ingest archive).request := by
    intro entry isEntry
    refine ⟨fun segment found => by simp at found, fun other isOther samePath => ?_⟩
    obtain ⟨day, isDay, _, isBuilt⟩ := mem_writes.mp isEntry
    obtain ⟨otherDay, isOtherDay, _, otherBuilt⟩ := mem_writes.mp isOther
    have found := (((settled day isDay).2 entry.1 entry.2).mpr isBuilt).1
    have otherFound := (((settled otherDay isOtherDay).2 other.1 other.2).mpr otherBuilt).1
    rw [samePath, found, Option.some.injEq] at otherFound
    rw [otherFound]
    exact ⟨rfl, rfl⟩
  obtain ⟨report, returned⟩ := exists_ok_of_builds ingest archive ∅ everything rfl
    wholeDays_everything (fun day isDay => (settled day isDay).1)
    (show plan ∅ (fun _ => false) = .ok [] from rfl)
  have isSome : (rebuildWith ingest archive ∅ everything Faults.none).result.toOption.isSome := by
    rw [returned]
    rfl
  refine ⟨isSome, fun day isDay => ?_⟩
  rw [← tape_fullRun]
  exact settled_of_returns (BuiltTape.empty : BuiltTape ingest archive ∅).derived apart
    ⟨le_refl _, isSome⟩ isDay

/-- **Rebuilds converge where no run writes at a path of another venue or source day.** -/
theorem converged_of_stayApart (generatedEnvelope : List UInt8 → Except Text Envelope)
    (normaliser : Normaliser) {archive : ArchiveTree} (agree : DatesAgree archive)
    {tape : TapeTree} (built : BuiltTape (ingestReplayed generatedEnvelope normaliser) archive tape)
    {reruns : List Rerun}
    (apart : StayApart (ingestReplayed generatedEnvelope normaliser) archive reruns tape)
    (covered : ∀ day ∈ allDays archive,
      Covered (ingestReplayed generatedEnvelope normaliser) archive day reruns tape) :
    Converged (ingestReplayed generatedEnvelope normaliser) archive
      (tapeAfter (ingestReplayed generatedEnvelope normaliser) archive reruns tape) := by
  have builtAfter : BuiltTape _ archive (tapeAfter _ archive reruns tape) := built.tapeAfter
  have derived := builtAfter.derived
  have settled := fun day isDay =>
    settled_tapeAfter agree isDay built apart (.inr (covered day isDay))
  obtain ⟨returned, fullSettled⟩ := settled_firstTape settled
  have builtFull : BuiltTape (ingestReplayed generatedEnvelope normaliser) archive
      (firstTape (ingestReplayed generatedEnvelope normaliser) archive) :=
    builtTape_firstTape (IsPrefix.refl archive)
  have fullDerived := builtFull.derived
  refine ⟨returned, fun venue sourceDay => ?_⟩
  have whole := contents_eq_derivedRows derived settled venue sourceDay
  exact ⟨whole.trans (contents_eq_derivedRows fullDerived fullSettled venue sourceDay).symm, whole⟩

/-- A run over one receipt day in which nothing fails. -/
def dayRun (midnight : Int) : Rerun := ⟨midnight, midnight + microsPerDay, Faults.none, 10⟩

/-- Two days of one venue's quotes. -/
def twoQuotes : ArchiveTree :=
  withFile (withFile ∅ [receipt firstVenue 1 0]) [receipt firstVenue 2 microsPerDay]

theorem datesAgree_of_keys {archive : ArchiveTree}
    (agree : ∀ path ∈ archive.keys, ∀ part ∈ components path.partition,
      ∀ midnight ∈ (valueUnder "date=".toList [part]).bind midnightOf,
        dayOf path.partition = some midnight) : DatesAgree archive :=
  fun path isThere part isPart midnight read => agree path isThere part isPart midnight read

/-- The later day first, and the earlier twice. -/
theorem converged_of_stayApart_twoQuotes :
    Converged ingestQuotes twoQuotes
      (tapeAfter ingestQuotes twoQuotes [dayRun microsPerDay, dayRun 0, dayRun 0] ∅) := by
  refine converged_of_stayApart _ _ (datesAgree_of_keys ?_) .empty ⟨?_, ?_, ?_, trivial⟩ ?_
  · decide +kernel
  · decide +kernel
  · decide +kernel
  · decide +kernel
  · decide +kernel

/-- **Which venue's segment is left depends on the order of the runs**: the later day first
leaves the first venue's gap, where a full rebuild leaves the second's. -/
theorem rebuilds_diverge :
    ∃ archive tape reruns, DatesAgree archive ∧ BuiltTape ingestGaps archive tape ∧
      (∀ day ∈ allDays archive, Covered ingestGaps archive day reruns tape) ∧
      ¬ Converged ingestGaps archive (tapeAfter ingestGaps archive reruns tape) := by
  refine ⟨twoGaps, ∅, [dayRun microsPerDay, dayRun 0], datesAgree_of_keys ?_, .empty, ?_,
    fun converged => ?_⟩
  · decide +kernel
  · decide +kernel
  · have left : Multiset.card (contents (tapeAfter ingestGaps twoGaps
        [dayRun microsPerDay, dayRun 0] ∅) secondVenue.text (dateOf microsPerDay)) = 0 := by
      decide +kernel
    have whole : Multiset.card (contents (firstTape ingestGaps twoGaps) secondVenue.text
        (dateOf microsPerDay)) = 1 := by
      decide +kernel
    rw [(converged.2 _ _).1, whole] at left
    cases left

end Tape
end Datawatch
