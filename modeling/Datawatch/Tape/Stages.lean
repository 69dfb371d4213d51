import Datawatch.Tape.Rebuild

/-!
# How far a rebuild comes

Whatever fails, a run has committed a front part of its days, perhaps the first segments of
the next, and then removed some of what it replaced.
-/

namespace Datawatch
namespace Tape

open Library Library.Directory Wire Segments Calendar Record Ingest Replay

/-- What is built for some rows, nothing where a row is refused. -/
def builtFor (rows : List Row) : List (Path × TapeSegment) :=
  (build (group rows)).toOption.getD []

/-- A run of writes makes a front part of the commits it was given. -/
theorem effects_writeAll (fates : Nat → WriteFate) (built : List (Path × TapeSegment)) :
    ∃ front, front <+: built ∧ (writeAll fates built).1 = commits front := by
  induction built generalizing fates with
  | nil => exact ⟨[], List.prefix_rfl, rfl⟩
  | cons entry built inductionHypothesis =>
      obtain ⟨path, segment⟩ := entry
      obtain ⟨front, isFront, effects⟩ := inductionHypothesis fun count => fates (count + 1)
      cases fate : fates 0 with
      | committed =>
          refine ⟨(path, segment) :: front, List.cons_prefix_cons.mpr ⟨rfl, isFront⟩, ?_⟩
          simp only [writeAll, fate, WriteFate.succeeds, decide_true, if_true, effects]
          rfl
      | refused =>
          refine ⟨[], List.nil_prefix, ?_⟩
          simp [writeAll, fate, WriteFate.succeeds, WriteFate.effects, commits]
      | unsynced =>
          refine ⟨[(path, segment)], ⟨built, rfl⟩, ?_⟩
          simp [writeAll, fate, WriteFate.succeeds, WriteFate.effects, commits]

/-- A commit makes a front part of the commits of what it builds. -/
theorem effects_commit (fates : Nat → WriteFate) (rows : List Row) :
    ∃ front, front <+: builtFor rows ∧ (commit fates rows).1 = commits front := by
  unfold commit builtFor
  cases made : build (group rows) with
  | error reason => exact ⟨[], List.nil_prefix, rfl⟩
  | ok built => simpa [made, Except.toOption] using effects_writeAll fates built

/-- A commit that returned its paths made them all. -/
theorem commit_eq_of_ok {fates : Nat → WriteFate} {rows : List Row}
    {effects : List (Effect Path TapeSegment)} {paths : List Path}
    (wrote : commit fates rows = (effects, .ok paths)) :
    (∃ built, build (group rows) = .ok built) ∧ effects = commits (builtFor rows) ∧
      paths = (builtFor rows).map Prod.fst := by
  unfold commit at wrote
  cases made : build (group rows) with
  | error reason => simp [made] at wrote
  | ok built =>
      rw [made] at wrote
      obtain ⟨rfl, rfl⟩ := eq_commits_of_writeAll_ok wrote
      simp [builtFor, made, Except.toOption]

/-- The planned paths a removal is about. -/
def doomedPaths (labelled : List Labelled) (venues : List Text) (fromMicros toMicros : Int)
    (written : List Path) : List Path :=
  (labelled.filter fun entry =>
    doomed venues fromMicros toMicros entry && decide (entry.path ∉ written)).map Labelled.path

/-- A removal removes a front part of the doomed paths, and all of them where it succeeds. -/
theorem removeDoomed_spec (fails : Path → Bool) (venues : List Text) (fromMicros toMicros : Int)
    (written : List Path) (labelled : List Labelled) :
    ∃ removed, removed <+: doomedPaths labelled venues fromMicros toMicros written ∧
      (removeDoomed fails venues fromMicros toMicros written labelled).1 = removals removed ∧
      ((∀ path, fails path = false) ∨
        (removeDoomed fails venues fromMicros toMicros written labelled).2.toOption.isSome →
          removed = doomedPaths labelled venues fromMicros toMicros written) := by
  induction labelled with
  | nil => exact ⟨[], List.prefix_rfl, rfl, fun _ => rfl⟩
  | cons entry labelled inductionHypothesis =>
      obtain ⟨removed, isFront, effects, whole⟩ := inductionHypothesis
      unfold removeDoomed
      by_cases isDoomed : doomed venues fromMicros toMicros entry
      · by_cases isWritten : entry.path ∈ written
        · have same : doomedPaths (entry :: labelled) venues fromMicros toMicros written =
              doomedPaths labelled venues fromMicros toMicros written := by
            simp [doomedPaths, isDoomed, isWritten]
          rw [same]
          refine ⟨removed, isFront, by simp [isDoomed, isWritten, effects], fun ended => whole ?_⟩
          refine ended.imp_right fun succeeded => ?_
          cases result : (removeDoomed fails venues fromMicros toMicros written labelled).2 with
          | error reason => simp [isDoomed, isWritten, result, Except.map, Except.toOption] at succeeded
          | ok count => simp [Except.toOption]
        · have same : doomedPaths (entry :: labelled) venues fromMicros toMicros written =
              entry.path :: doomedPaths labelled venues fromMicros toMicros written := by
            simp [doomedPaths, isDoomed, isWritten]
          rw [same]
          by_cases isFailing : fails entry.path
          · refine ⟨[], List.nil_prefix, by simp [isDoomed, isWritten, isFailing, removals], ?_⟩
            rintro (noneFails | succeeded)
            · simp [noneFails] at isFailing
            · simp [isDoomed, isWritten, isFailing, Except.toOption] at succeeded
          · refine ⟨entry.path :: removed, List.cons_prefix_cons.mpr ⟨rfl, isFront⟩,
              by simp [isDoomed, isWritten, isFailing, effects, removals], fun ended => ?_⟩
            refine congrArg (List.cons entry.path) (whole (ended.imp_right fun succeeded => ?_))
            cases result : (removeDoomed fails venues fromMicros toMicros written labelled).2 with
            | error reason =>
                simp [isDoomed, isWritten, isFailing, result, Except.map,
                  Except.toOption] at succeeded
            | ok count => simp [Except.toOption]
      · have same : doomedPaths (entry :: labelled) venues fromMicros toMicros written =
            doomedPaths labelled venues fromMicros toMicros written := by
          simp [doomedPaths, isDoomed]
        rw [same]
        exact ⟨removed, isFront, by simp [isDoomed, effects],
          fun ended => whole (by simpa [isDoomed] using ended)⟩

variable (ingest : Payload → Ingested) (archive : ArchiveTree) (request : Request)

/-- What is built on one receipt day of a request. -/
def builtOn (midnight : Int) : List (Path × TapeSegment) :=
  builtFor (rowsOn ingest archive request midnight)

/-- The venues derived on one receipt day of a request. -/
def venuesOn (midnight : Int) : List Text :=
  pendingVenues (rowsOn ingest archive request midnight)

/-- Whether a receipt day of a request holds a payload. -/
def receives (midnight : Int) : Bool := decide ((streamOn archive request midnight).1 ≠ [])

/-- A receipt day that reads and builds. -/
def Builds (midnight : Int) : Prop :=
  (streamOn archive request midnight).2 = none ∧
    ∃ built, build (group (rowsOn ingest archive request midnight)) = .ok built

/-- A receipt day that reads, holds a payload, and whose commit may fail. -/
def Refusable (midnight : Int) : Prop :=
  (streamOn archive request midnight).2 = none ∧ receives archive request midnight = true ∧
    ∃ fates effects reason,
      commit fates (rowsOn ingest archive request midnight) = (effects, .error reason)

/-- How a run over some days ended, and what it did by then. -/
inductive Ended (faults : Faults) (labelled : List Labelled) (days : List Int)
    (progress : Progress) (outcome : Outcome Progress) : Prop
  /-- Every day is committed. -/
  | finished (final : Progress)
      (result : outcome.result = .ok final)
      (builds : ∀ midnight ∈ days, Builds ingest archive request midnight)
      (effects : outcome.effects = commits (days.flatMap (builtOn ingest archive request)))
      (committed : outcome.committed = days.filter (receives archive request))
      (ours : final.ours = progress.ours ++ days.flatMap (venuesOn ingest archive request))
      (written : final.written =
        progress.written ++ (days.flatMap (builtOn ingest archive request)).map Prod.fst)
      (payloads : final.report.payloads = progress.report.payloads +
        (days.map fun midnight => (streamOn archive request midnight).1.length).sum)
  /-- A day would not read. -/
  | unread (before after : List Int) (reason : RebuildError)
      (result : outcome.result = .error reason)
      (split : days = before ++ after)
      (builds : ∀ midnight ∈ before, Builds ingest archive request midnight)
      (effects : outcome.effects = commits (before.flatMap (builtOn ingest archive request)))
      (committed : outcome.committed = before.filter (receives archive request))
  /-- A day's commit failed. -/
  | refused (before after : List Int) (midnight : Int) (reason : RebuildError)
      (front : List (Path × TapeSegment))
      (result : outcome.result = .error reason)
      (split : days = before ++ midnight :: after)
      (builds : ∀ midnight ∈ before, Builds ingest archive request midnight)
      (refusable : Refusable ingest archive request midnight)
      (isFront : front <+: builtOn ingest archive request midnight)
      (effects : outcome.effects =
        commits (before.flatMap (builtOn ingest archive request) ++ front) ++
          (removeDoomed faults.removal
            (progress.ours ++ (before ++ [midnight]).flatMap (venuesOn ingest archive request))
            request.fromMicros (max midnight request.fromMicros)
            (progress.written ++ (before.flatMap (builtOn ingest archive request)).map Prod.fst)
            labelled).1)
      (committed : outcome.committed = before.filter (receives archive request))

/-- Nothing is derived on a day without payloads. -/
theorem rowsOn_eq_nil {midnight : Int} (nothing : (streamOn archive request midnight).1 = []) :
    rowsOn ingest archive request midnight = [] := by
  simp [rowsOn, nothing]

theorem builtOn_eq_nil {midnight : Int} (nothing : (streamOn archive request midnight).1 = []) :
    builtOn ingest archive request midnight = [] := by
  rw [builtOn, rowsOn_eq_nil ingest archive request nothing]
  rfl

/-- A day that builds goes before a run of the days after it. -/
theorem Ended.cons {faults : Faults} {labelled : List Labelled} {days : List Int} {midnight : Int}
    (progress : Progress) {later : Progress} {outcome : Outcome Progress}
    (rest : Ended ingest archive request faults labelled days later outcome)
    (buildsDay : Builds ingest archive request midnight)
    (ours : later.ours = progress.ours ++ venuesOn ingest archive request midnight)
    (written : later.written =
      progress.written ++ (builtOn ingest archive request midnight).map Prod.fst)
    (payloads : later.report.payloads =
      progress.report.payloads + (streamOn archive request midnight).1.length) :
    Ended ingest archive request faults labelled (midnight :: days) progress
      ⟨commits (builtOn ingest archive request midnight) ++ outcome.effects,
        [midnight].filter (receives archive request) ++ outcome.committed, outcome.result⟩ := by
  have buildsCons {before : List Int}
      (builds : ∀ midnight ∈ before, Builds ingest archive request midnight) :
      ∀ day ∈ midnight :: before, Builds ingest archive request day := by
    intro day member
    rcases List.mem_cons.mp member with rfl | inRest
    · exact buildsDay
    · exact builds day inRest
  cases rest with
  | finished final result builds effects committed restOurs restWritten restPayloads =>
      refine .finished final result (buildsCons builds) ?_ ?_ ?_ ?_ ?_
      · rw [effects, List.flatMap_cons, commits_append]
      · rw [committed, ← List.filter_append, List.singleton_append]
      · rw [restOurs, ours, List.flatMap_cons, List.append_assoc]
      · rw [restWritten, written, List.flatMap_cons, List.map_append, List.append_assoc]
      · rw [restPayloads, payloads, List.map_cons, List.sum_cons, Nat.add_assoc]
  | unread before after reason result split builds effects committed =>
      refine .unread (midnight :: before) after reason result (by rw [split]; rfl)
        (buildsCons builds) ?_ ?_
      · rw [effects, List.flatMap_cons, commits_append]
      · rw [committed, ← List.filter_append, List.singleton_append]
  | refused before after last reason front result split builds refusable isFront effects
      committed =>
      refine .refused (midnight :: before) after last reason front result (by rw [split]; rfl)
        (buildsCons builds) refusable isFront ?_ ?_
      · rw [effects, ours, written]
        simp only [List.cons_append, List.flatMap_cons, commits_append, List.map_append,
          List.append_assoc]
      · rw [committed, ← List.filter_append, List.singleton_append]

/-- The progress after one day. -/
def Progress.after (progress : Progress) (midnight : Int) : Progress :=
  ⟨{ progress.report with
      payloads := progress.report.payloads + (streamOn archive request midnight).1.length
      rows := progress.report.rows + (rowsOn ingest archive request midnight).length
      unparsed := progress.report.unparsed +
        unparsedIn ingest (streamOn archive request midnight).1 },
    progress.ours ++ venuesOn ingest archive request midnight,
    progress.written ++ (builtOn ingest archive request midnight).map Prod.fst⟩

section Step

variable {faults : Faults} {labelled : List Labelled} {days : List Int} {midnight : Int}
  {progress : Progress}

theorem rebuildDays_unread {reason : ReplayError}
    (unread : (faults.replay midnight).or (streamOn archive request midnight).2 = some reason) :
    rebuildDays ingest archive request faults labelled (midnight :: days) progress =
      ⟨[], [], .error (.replay reason)⟩ := by
  simp only [rebuildDays, unread]

theorem rebuildDays_skip
    (read : (faults.replay midnight).or (streamOn archive request midnight).2 = none)
    (nothing : (streamOn archive request midnight).1 = []) :
    rebuildDays ingest archive request faults labelled (midnight :: days) progress =
      rebuildDays ingest archive request faults labelled days progress := by
  simp only [rebuildDays, read, nothing, if_true]

theorem rebuildDays_committed
    (read : (faults.replay midnight).or (streamOn archive request midnight).2 = none)
    (something : (streamOn archive request midnight).1 ≠ [])
    {effects : List (Effect Path TapeSegment)}
    (wrote : commit (faults.write midnight) (rowsOn ingest archive request midnight) =
      (effects, .ok ((builtOn ingest archive request midnight).map Prod.fst))) :
    rebuildDays ingest archive request faults labelled (midnight :: days) progress =
      ⟨effects ++ (rebuildDays ingest archive request faults labelled days
          (progress.after ingest archive request midnight)).effects,
        midnight :: (rebuildDays ingest archive request faults labelled days
          (progress.after ingest archive request midnight)).committed,
        (rebuildDays ingest archive request faults labelled days
          (progress.after ingest archive request midnight)).result⟩ := by
  simp only [rebuildDays, read, something, if_false, wrote]
  rfl

theorem rebuildDays_refused
    (read : (faults.replay midnight).or (streamOn archive request midnight).2 = none)
    (something : (streamOn archive request midnight).1 ≠ [])
    {effects : List (Effect Path TapeSegment)} {reason : TapeError}
    (wrote : commit (faults.write midnight) (rowsOn ingest archive request midnight) =
      (effects, .error reason)) :
    rebuildDays ingest archive request faults labelled (midnight :: days) progress =
      ⟨effects ++ (removeDoomed faults.removal
          (progress.ours ++ venuesOn ingest archive request midnight) request.fromMicros
          (max midnight request.fromMicros) progress.written labelled).1,
        [], .error (.tape reason)⟩ := by
  simp only [rebuildDays, read, something, if_false, wrote]
  rfl

end Step

/-- **Every run of days ends in one of three ways.** -/
theorem ended_rebuildDays (faults : Faults) (labelled : List Labelled) (days : List Int)
    (progress : Progress) :
    Ended ingest archive request faults labelled days progress
      (rebuildDays ingest archive request faults labelled days progress) := by
  induction days generalizing progress with
  | nil =>
      exact .finished progress rfl (by simp) rfl rfl (by simp) (by simp) (by simp)
  | cons midnight days inductionHypothesis =>
      cases read : (faults.replay midnight).or (streamOn archive request midnight).2 with
      | some reason =>
          rw [rebuildDays_unread ingest archive request read]
          exact .unread [] (midnight :: days) (.replay reason) rfl rfl (by simp) rfl rfl
      | none =>
          have readable := (Option.or_eq_none_iff.mp read).2
          by_cases nothing : (streamOn archive request midnight).1 = []
          · have noRows := rowsOn_eq_nil ingest archive request nothing
            have buildsDay : Builds ingest archive request midnight :=
              ⟨readable, [], by simp [noRows, group, Grouping.groupBy, build]⟩
            have whole := (inductionHypothesis progress).cons ingest archive request
              progress buildsDay (by simp [venuesOn, noRows, pendingVenues])
              (by simp [builtOn_eq_nil ingest archive request nothing]) (by simp [nothing])
            rw [rebuildDays_skip ingest archive request read nothing]
            simpa [builtOn_eq_nil ingest archive request nothing, receives, nothing, commits]
              using whole
          · rcases wrote : commit (faults.write midnight) (rowsOn ingest archive request midnight)
              with ⟨effects, reason | paths⟩
            · obtain ⟨front, isFront, made⟩ := effects_commit (faults.write midnight)
                (rowsOn ingest archive request midnight)
              rw [wrote] at made
              rw [rebuildDays_refused ingest archive request read nothing wrote]
              refine .refused [] days midnight (.tape reason) front rfl rfl (by simp)
                ⟨readable, by simp [receives, nothing], _, _, _, wrote⟩ isFront ?_ rfl
              simp [show effects = commits front from made]
            · obtain ⟨built, isEffects, isPaths⟩ := commit_eq_of_ok wrote
              rw [isPaths] at wrote
              rw [rebuildDays_committed ingest archive request read nothing wrote]
              have whole := (inductionHypothesis
                (progress.after ingest archive request midnight)).cons ingest archive request
                progress ⟨readable, built⟩ rfl rfl rfl
              simpa [receives, nothing, builtOn, isEffects] using whole

/-- Writes that all succeed make every commit. -/
theorem commit_of_build {fates : Nat → WriteFate} (committed : ∀ count, fates count = .committed)
    {rows : List Row} {built : List (Path × TapeSegment)} (made : build (group rows) = .ok built) :
    commit fates rows = (commits (builtFor rows), .ok ((builtFor rows).map Prod.fst)) := by
  have wrote : ∀ (built : List (Path × TapeSegment)) (fates : Nat → WriteFate),
      (∀ count, fates count = .committed) →
        writeAll fates built = (commits built, .ok (built.map Prod.fst)) := by
    intro built
    induction built with
    | nil => exact fun _ _ => rfl
    | cons entry built inductionHypothesis =>
        intro fates committed
        simp only [writeAll, committed 0, WriteFate.succeeds, decide_true, if_true,
          inductionHypothesis _ fun count => committed (count + 1), Except.map]
        rfl
  simp [commit, builtFor, made, wrote built fates committed, Except.toOption]

/-- Days that build, and on which nothing fails, are committed in turn. -/
theorem rebuildDays_append {faults : Faults} (labelled : List Labelled) {before : List Int}
    (builds : ∀ midnight ∈ before, Builds ingest archive request midnight)
    (passes : ∀ midnight ∈ before, faults.replay midnight = none ∧
      ∀ count, faults.write midnight count = .committed)
    (rest : List Int) (progress : Progress) :
    ∃ later : Progress,
      later.ours = progress.ours ++ before.flatMap (venuesOn ingest archive request) ∧
      later.written = progress.written ++
        (before.flatMap (builtOn ingest archive request)).map Prod.fst ∧
      later.report.payloads = progress.report.payloads +
        (before.map fun midnight => (streamOn archive request midnight).1.length).sum ∧
      (rebuildDays ingest archive request faults labelled (before ++ rest) progress).effects =
        commits (before.flatMap (builtOn ingest archive request)) ++
          (rebuildDays ingest archive request faults labelled rest later).effects ∧
      (rebuildDays ingest archive request faults labelled (before ++ rest) progress).committed =
        before.filter (receives archive request) ++
          (rebuildDays ingest archive request faults labelled rest later).committed ∧
      (rebuildDays ingest archive request faults labelled (before ++ rest) progress).result =
        (rebuildDays ingest archive request faults labelled rest later).result := by
  induction before generalizing progress with
  | nil => exact ⟨progress, by simp, by simp, by simp, rfl, rfl, rfl⟩
  | cons midnight before inductionHypothesis =>
      obtain ⟨readable, built, made⟩ := builds midnight List.mem_cons_self
      obtain ⟨noReplayFault, wrote⟩ := passes midnight List.mem_cons_self
      have read : (faults.replay midnight).or (streamOn archive request midnight).2 = none := by
        rw [noReplayFault, readable]
        rfl
      have buildsRest := fun day member => builds day (List.mem_cons_of_mem midnight member)
      have passesRest := fun day member => passes day (List.mem_cons_of_mem midnight member)
      by_cases nothing : (streamOn archive request midnight).1 = []
      · obtain ⟨later, ours, written, payloads, effects, committed, result⟩ :=
          inductionHypothesis buildsRest passesRest progress
        refine ⟨later, ?_, ?_, ?_, ?_, ?_, ?_⟩
        · simp [ours, venuesOn, rowsOn_eq_nil ingest archive request nothing, pendingVenues]
        · simp [written, builtOn_eq_nil ingest archive request nothing]
        · simp [payloads, nothing]
        · rw [List.cons_append, rebuildDays_skip ingest archive request read nothing, effects,
            List.flatMap_cons, builtOn_eq_nil ingest archive request nothing, List.nil_append]
        · rw [List.cons_append, rebuildDays_skip ingest archive request read nothing, committed,
            List.filter_cons_of_neg (by simp [receives, nothing])]
        · rw [List.cons_append, rebuildDays_skip ingest archive request read nothing, result]
      · obtain ⟨later, ours, written, payloads, effects, committed, result⟩ :=
          inductionHypothesis buildsRest passesRest (progress.after ingest archive request midnight)
        have step : rebuildDays ingest archive request faults labelled
            (midnight :: (before ++ rest)) progress = _ :=
          rebuildDays_committed ingest archive request read nothing (commit_of_build wrote made)
        refine ⟨later, ?_, ?_, ?_, ?_, ?_, ?_⟩
        · rw [ours, List.flatMap_cons, ← List.append_assoc]
          rfl
        · rw [written, List.flatMap_cons, List.map_append, ← List.append_assoc]
          rfl
        · rw [payloads, List.map_cons, List.sum_cons, ← Nat.add_assoc]
          rfl
        · rw [List.cons_append, step, effects, List.flatMap_cons, commits_append,
            List.append_assoc]
          rfl
        · rw [List.cons_append, step, committed,
            List.filter_cons_of_pos (by simp [receives, nothing]), List.cons_append]
        · rw [List.cons_append, step, result]

end Tape
end Datawatch
