import Mathlib.Data.List.Basic
import Datawatch.Segments.ListingCache

/-!
# A cached walk is an uncached one

A listing is trusted once a walk has seen the clock pass its directory's mtime, so no later
change leaves that mtime.  A walk that reuses it returns what reading would, where no change left
the mtime between the read and the settling.
-/

namespace Datawatch
namespace Segments

open Library Library.Stamped Library.Transition

/-- No directory a walk is about to trust has been changed, since the listing cached of it was
read, in the tick of its mtime. -/
def TrustsUnchanged (world : World) (walk : Walk) : Prop :=
  ∀ pair ∈ walk.seen, ∀ cached ∈ world.cache pair.1, cached.listed.modified = pair.2 →
    trusts walk.seen pair.2 = true →
      ∀ change ∈ world.history.drop cached.readAt, change.key = pair.1 → change.stamp ≠ pair.2

/-- A walk settles only where nothing it is about to trust has been changed. -/
def SettlesUnchanged (world : World) : CacheEvent → Prop
  | .advance index => ∀ walk ∈ world.walks[index]?, walk.phase = .arriving →
      walk.visited.stack = [] → TrustsUnchanged world walk
  | _ => True

instance (world : World) (walk : Walk) : Decidable (TrustsUnchanged world walk) := by
  unfold TrustsUnchanged
  infer_instance

instance (world : World) : ∀ event, Decidable (SettlesUnchanged world event)
  | .advance index => inferInstanceAs (Decidable (∀ walk ∈ world.walks[index]?,
      walk.phase = .arriving → walk.visited.stack = [] → TrustsUnchanged world walk))
  | .elapse _ => isTrue trivial
  | .change _ _ => isTrue trivial
  | .call _ => isTrue trivial
  | .prune _ => isTrue trivial

/-- A listing holds what another does, whatever their mtimes. -/
def Listed.SameContent (first second : Listed) : Prop :=
  first.subdirs = second.subdirs ∧ first.segments = second.segments

theorem Visited.take_congr {first second : Listed} (same : first.SameContent second)
    (dir : DirPath) (visited : Visited) : visited.take dir first = visited.take dir second := by
  rw [Visited.take, Visited.take, same.1, same.2]

/-- A cached listing is what its directory held when it was read, after its mtime was set. -/
structure WellRead (history : DirHistory) (dir : DirPath) (cached : Cached) : Prop where
  within : cached.readAt ≤ history.length
  content : cached.listed.SameContent (listedAt history dir cached.readAt)
  stamped : ∃ change ∈ history.take cached.readAt, change.stamp = cached.listed.modified

/-- A listing that may be reused: the clock has passed its mtime, and no change since it was read
has left it. -/
structure Settled (history : DirHistory) (stamp : Nat) (dir : DirPath) (cached : Cached) :
    Prop where
  passed : cached.listed.modified < stamp
  unchanged : ∀ change ∈ history.drop cached.readAt, change.key = dir →
    change.stamp ≠ cached.listed.modified

variable {history : DirHistory} {dir root : DirPath} {cached : Cached}
  {began bound moment stamp : Nat} {visited : Visited} {clock : FilesystemClock} {world : World} {walk : Walk}

theorem listedAt_append (within : moment ≤ history.length) (more : DirHistory) :
    listedAt (history ++ more) dir moment = listedAt history dir moment := by
  rw [listedAt, listedAt, heldAt_append within]

theorem WellRead.append (wellRead : WellRead history dir cached) (more : DirHistory) :
    WellRead (history ++ more) dir cached := by
  refine ⟨wellRead.within.trans (by simp), ?_, ?_⟩
  · rw [listedAt_append wellRead.within]
    exact wellRead.content
  · rw [List.take_append_of_le_length wellRead.within]
    exact wellRead.stamped

/-- A reusable listing is what the directory held at some moment from its stat on. -/
theorem exists_moment_of_settled (wellRead : WellRead history dir cached)
    (settled : Settled history stamp dir cached) {statAt : Nat}
    (isStat : statAt ≤ history.length) {entries : List Entry}
    (held : heldAt history statAt dir = some (cached.listed.modified, entries)) :
    ∃ moment, statAt ≤ moment ∧ moment ≤ history.length ∧
      cached.listed.SameContent (listedAt history dir moment) := by
  rcases le_total statAt cached.readAt with before | after
  · exact ⟨cached.readAt, before, wellRead.within, wellRead.content⟩
  · refine ⟨statAt, le_rfl, isStat, ?_⟩
    have same := heldAt_eq_of_unchanged after held settled.unchanged
    have content := wellRead.content
    rw [listedAt, same] at content
    rw [listedAt, held]
    exact content

/-- A walk has visited what a walk without a cache does, its reads in order and up to a
moment. -/
def Traced (history : DirHistory) (root : DirPath) (began : Nat) (visited : Visited)
    (bound : Nat) : Prop :=
  ∃ moments : List Nat, moments.Pairwise (fun first second => first ≤ second) ∧
    (∀ moment ∈ moments, began ≤ moment ∧ moment ≤ bound) ∧
      moments.foldlM (readNext history) ⟨[], [root]⟩ = some visited

theorem traced_nil : Traced history root began ⟨[], [root]⟩ bound :=
  ⟨[], List.Pairwise.nil, fun _ member => (List.not_mem_nil member).elim, rfl⟩

theorem Traced.mono (traced : Traced history root began visited bound) {later : Nat}
    (ordered : bound ≤ later) : Traced history root began visited later := by
  obtain ⟨moments, sorted, within, visits⟩ := traced
  exact ⟨moments, sorted, fun moment member =>
    ⟨(within moment member).1, (within moment member).2.trans ordered⟩, visits⟩

/-- Later changes leave what a walk has read as it was. -/
theorem Traced.append (traced : Traced history root began visited bound)
    (isBound : bound ≤ history.length) (more : DirHistory) :
    Traced (history ++ more) root began visited bound := by
  obtain ⟨moments, sorted, within, visits⟩ := traced
  refine ⟨moments, sorted, within, ?_⟩
  have same : ∀ moments : List Nat, (∀ moment ∈ moments, moment ≤ history.length) →
      ∀ start, moments.foldlM (readNext (history ++ more)) start =
        moments.foldlM (readNext history) start := by
    intro moments
    induction moments with
    | nil => exact fun _ _ => rfl
    | cons moment moments inductionHypothesis =>
        intro isWithin start
        have next : readNext (history ++ more) start moment = readNext history start moment := by
          unfold readNext
          split
          · rfl
          · rw [listedAt_append (isWithin moment List.mem_cons_self)]
        rw [List.foldlM_cons, List.foldlM_cons, next]
        congr 1
        funext visited
        exact inductionHypothesis (fun other member =>
          isWithin other (List.mem_cons_of_mem _ member)) visited
  rw [same moments fun moment member => (within moment member).2.trans isBound]
  exact visits

/-- One more directory is read. -/
theorem Traced.take {out : List (DirPath × Listing)} {stack : List DirPath}
    (traced : Traced history root began ⟨out, dir :: stack⟩ bound) (afterBound : bound ≤ moment)
    (afterBegan : began ≤ moment) {listed : Listed}
    (same : listed.SameContent (listedAt history dir moment)) :
    Traced history root began (Visited.take dir listed ⟨out, stack⟩) moment := by
  obtain ⟨moments, sorted, within, visits⟩ := traced
  refine ⟨moments ++ [moment], ?_, ?_, ?_⟩
  · rw [List.pairwise_append]
    refine ⟨sorted, List.pairwise_singleton _ _, ?_⟩
    intro earlier member other isLast
    rw [List.mem_singleton.mp isLast]
    exact (within earlier member).2.trans afterBound
  · intro other member
    rcases List.mem_append.mp member with held | isLast
    · exact ⟨(within other held).1, (within other held).2.trans afterBound⟩
    · rw [List.mem_singleton.mp isLast]
      exact ⟨afterBegan, le_rfl⟩
  · rw [List.foldlM_append, visits, Visited.take_congr same]
    rfl

/-- Where a walk is, what it has read so far and what it knows of the directory it visits. -/
def PhaseHolds (history : DirHistory) (walk : Walk) : Prop :=
  match walk.phase with
  | .arriving => Traced history walk.root walk.began walk.visited history.length
  | .statted dir modified => ∃ statAt ≤ history.length, walk.began ≤ statAt ∧
      (∃ entries, heldAt history statAt dir = some (modified, entries)) ∧
        Traced history walk.root walk.began
          { walk.visited with stack := dir :: walk.visited.stack } statAt
  | .missed dir modified => (∃ change ∈ history, change.stamp = modified) ∧
      Traced history walk.root walk.began
        { walk.visited with stack := dir :: walk.visited.stack } history.length
  | .loaded dir listed readAt => walk.began ≤ readAt ∧ listed.trusted = false ∧
      WellRead history dir ⟨listed, readAt⟩ ∧
        Traced history walk.root walk.began
          { walk.visited with stack := dir :: walk.visited.stack } readAt
  | .returned _ => AsUncached history walk

/-- A walk that has read what one without a cache does, and saw mtimes that changes set. -/
structure WalkHolds (history : DirHistory) (walk : Walk) : Prop where
  began : walk.began ≤ history.length
  seen : ∀ pair ∈ walk.seen, ∃ change ∈ history, change.stamp = pair.2
  phase : PhaseHolds history walk

theorem AsUncached.append (asUncached : AsUncached history walk) (more : DirHistory) :
    AsUncached (history ++ more) walk := by
  intro partitions isReturned
  obtain ⟨moments, sorted, within, returns⟩ := asUncached partitions isReturned
  obtain ⟨visited, visits, isDone⟩ := Option.bind_eq_some_iff.mp returns
  have traced : Traced history walk.root walk.began visited history.length :=
    ⟨moments, sorted, within, visits⟩
  obtain ⟨moments, sorted, within, visits⟩ :=
    (traced.append le_rfl more).mono (Nat.le_add_right _ more.length)
  rw [← List.length_append] at within
  exact ⟨moments, sorted, within, Option.bind_eq_some_iff.mpr ⟨visited, visits, isDone⟩⟩

/-- Later changes leave what holds of a walk. -/
theorem WalkHolds.append (holds : WalkHolds history walk) (more : DirHistory) :
    WalkHolds (history ++ more) walk := by
  have longer : history.length ≤ (history ++ more).length := by simp
  refine ⟨holds.began.trans longer, ?_, ?_⟩
  · intro pair member
    obtain ⟨change, isChange, isStamp⟩ := holds.seen pair member
    exact ⟨change, List.mem_append_left _ isChange, isStamp⟩
  · have phase := holds.phase
    unfold PhaseHolds at phase ⊢
    cases isPhase : walk.phase with
    | arriving =>
        rw [isPhase] at phase
        exact (phase.append le_rfl more).mono longer
    | statted dir modified =>
        rw [isPhase] at phase
        obtain ⟨statAt, within, afterBegan, ⟨entries, held⟩, traced⟩ := phase
        refine ⟨statAt, within.trans longer, afterBegan, ⟨entries, ?_⟩,
          traced.append within more⟩
        rw [heldAt_append within]
        exact held
    | missed dir modified =>
        rw [isPhase] at phase
        obtain ⟨⟨change, isChange, isStamp⟩, traced⟩ := phase
        exact ⟨⟨change, List.mem_append_left _ isChange, isStamp⟩,
          (traced.append le_rfl more).mono longer⟩
    | loaded dir listed readAt =>
        rw [isPhase] at phase
        obtain ⟨afterBegan, untrusted, wellRead, traced⟩ := phase
        exact ⟨afterBegan, untrusted, wellRead.append more, traced.append wellRead.within more⟩
    | returned partitions =>
        rw [isPhase] at phase
        exact AsUncached.append phase more

/-- What is cached is what was read, and what is trusted may be reused. -/
structure CacheHolds (history : DirHistory) (stamp : Nat) (dir : DirPath) (cached : Cached) :
    Prop where
  wellRead : WellRead history dir cached
  settled : cached.listed.trusted = true → Settled history stamp dir cached

/-- Stamps never go back, the cache may be reused where it is trusted, and every walk has read
what one without a cache does. -/
structure WorldHolds (clock : FilesystemClock) (world : World) : Prop where
  sorted : world.history.Pairwise fun first second => first.stamp ≤ second.stamp
  stamped : ∀ change ∈ world.history, change.stamp ≤ clock.stamp world.now
  cached : ∀ dir cached, world.cache dir = some cached →
    CacheHolds world.history (clock.stamp world.now) dir cached
  walks : ∀ walk ∈ world.walks, WalkHolds world.history walk

/-- Time that passes leaves everything as it was. -/
theorem WorldHolds.elapse (holds : WorldHolds clock world) (nanos : Nat) :
    WorldHolds clock { world with now := world.now + nanos } := by
  have later : clock.stamp world.now ≤ clock.stamp (world.now + nanos) :=
    clock.monotone (Nat.le_add_right _ _)
  refine ⟨holds.sorted, fun change member => (holds.stamped change member).trans later, ?_,
    holds.walks⟩
  intro dir cached isCached
  obtain ⟨wellRead, settled⟩ := holds.cached dir cached isCached
  refine ⟨wellRead, fun trusted => ?_⟩
  exact ⟨(settled trusted).passed.trans_le later, (settled trusted).unchanged⟩

/-- A change leaves no trusted mtime where it was. -/
theorem WorldHolds.change (holds : WorldHolds clock world) (dir : DirPath)
    (entries : Option (List Entry)) :
    WorldHolds clock { world with
      history := world.history ++ [⟨dir, clock.stamp world.now, entries⟩] } := by
  refine ⟨?_, ?_, ?_, fun walk member => (holds.walks walk member).append _⟩
  · rw [List.pairwise_append]
    refine ⟨holds.sorted, List.pairwise_singleton _ _, ?_⟩
    intro change member other isLast
    rw [List.mem_singleton.mp isLast]
    exact holds.stamped change member
  · intro change member
    rcases List.mem_append.mp member with held | isLast
    · exact holds.stamped change held
    · rw [List.mem_singleton.mp isLast]
  · intro other cached isCached
    obtain ⟨wellRead, settled⟩ := holds.cached other cached isCached
    refine ⟨wellRead.append _, fun trusted => ⟨(settled trusted).passed, ?_⟩⟩
    intro change member
    rw [List.drop_append_of_le_length wellRead.within, List.mem_append] at member
    rcases member with held | isLast
    · exact (settled trusted).unchanged change held
    · rw [List.mem_singleton.mp isLast]
      exact fun _ => (settled trusted).passed.ne'

/-- What a walk trusts, the clock has passed. -/
theorem passed_of_trusts (holds : WorldHolds clock world) (isWalk : WalkHolds world.history walk)
    {modified : Nat} (isTrusted : trusts walk.seen modified = true) :
    modified < clock.stamp world.now := by
  unfold trusts at isTrusted
  cases isNewest : (walk.seen.map Prod.snd).max? with
  | none =>
      rw [isNewest] at isTrusted
      cases isTrusted
  | some newest =>
      rw [isNewest, Option.any_some, decide_eq_true_eq] at isTrusted
      obtain ⟨pair, member, rfl⟩ := List.mem_map.mp (List.max?_mem isNewest)
      obtain ⟨change, isChange, isStamp⟩ := isWalk.seen pair member
      have := holds.stamped change isChange
      omega

/-- Settling trusts only what may be reused. -/
theorem WorldHolds.settle (holds : WorldHolds clock world)
    (isWalk : WalkHolds world.history walk)
    (unchanged : TrustsUnchanged world walk) {dir : DirPath} {cached : Cached}
    (isCached : Segments.settle walk.seen world.cache dir = some cached) :
    CacheHolds world.history (clock.stamp world.now) dir cached := by
  rw [Segments.settle, Option.map_eq_some_iff] at isCached
  obtain ⟨before, isBefore, rfl⟩ := isCached
  have held := holds.cached dir before isBefore
  by_cases isSeen : (dir, before.listed.modified) ∈ walk.seen
  · rw [if_pos isSeen]
    refine ⟨⟨held.wellRead.within, held.wellRead.content, held.wellRead.stamped⟩, ?_⟩
    intro isTrusted
    exact ⟨passed_of_trusts holds isWalk isTrusted,
      unchanged _ isSeen before isBefore rfl isTrusted⟩
  · rw [if_neg isSeen]
    exact held

/-- A walk's next step keeps what is cached. -/
theorem WorldHolds.advance_cache (holds : WorldHolds clock world)
    (isWalk : WalkHolds world.history walk)
    (unchanged : walk.phase = .arriving → walk.visited.stack = [] → TrustsUnchanged world walk)
    {dir : DirPath} {cached : Cached} (isCached : (world.advance walk).1 dir = some cached) :
    CacheHolds world.history (clock.stamp world.now) dir cached := by
  have phase := isWalk.phase
  unfold World.advance at isCached
  unfold PhaseHolds at phase
  cases isPhase : walk.phase with
  | arriving =>
      simp only [isPhase] at isCached
      cases isStack : walk.visited.stack with
      | nil =>
          simp only [isStack] at isCached
          exact holds.settle isWalk (unchanged isPhase isStack) isCached
      | cons first stack =>
          simp only [isStack] at isCached
          cases isHeld : world.dirNow first with
          | none =>
              simp only [isHeld] at isCached
              exact holds.cached dir cached isCached
          | some held =>
              simp only [isHeld] at isCached
              exact holds.cached dir cached isCached
  | statted first modified =>
      simp only [isPhase] at isCached
      cases isReusable : reusable world.cache first modified with
      | none =>
          simp only [isReusable] at isCached
          exact holds.cached dir cached isCached
      | some listed =>
          simp only [isReusable] at isCached
          exact holds.cached dir cached isCached
  | missed first modified =>
      simp only [isPhase] at isCached
      exact holds.cached dir cached isCached
  | loaded first listed readAt =>
      rw [isPhase] at phase
      obtain ⟨_, untrusted, wellRead, _⟩ := phase
      simp only [isPhase] at isCached
      split at isCached
      · rename_i same
        obtain rfl := Option.some.inj isCached
        rw [same]
        exact ⟨wellRead, fun trusted => by rw [untrusted] at trusted; cases trusted⟩
      · exact holds.cached dir cached isCached
  | returned partitions =>
      simp only [isPhase] at isCached
      exact holds.cached dir cached isCached

/-- A walk's next step keeps what holds of it. -/
theorem WorldHolds.advance_walk (holds : WorldHolds clock world)
    (isWalk : WalkHolds world.history walk) :
    WalkHolds world.history (world.advance walk).2 := by
  have phase := isWalk.phase
  unfold PhaseHolds at phase
  unfold World.advance
  cases isPhase : walk.phase with
  | arriving =>
      rw [isPhase] at phase
      cases isStack : walk.visited.stack with
      | nil =>
          refine ⟨isWalk.began, isWalk.seen, ?_⟩
          rintro partitions isReturned
          obtain rfl := Phase.returned.inj isReturned
          obtain ⟨moments, sorted, within, visits⟩ := phase
          refine ⟨moments, sorted, within, ?_⟩
          rw [uncached, visits, Option.bind_some, if_pos isStack]
      | cons first stack =>
          have pending : walk.visited = ⟨walk.visited.out, first :: stack⟩ := by
            rw [← isStack]
          rw [pending] at phase
          simp only
          cases isHeld : world.dirNow first with
          | none =>
              refine ⟨isWalk.began, isWalk.seen, ?_⟩
              have empty : (read first 0 none).SameContent
                  (listedAt world.history first world.history.length) := by
                rw [listedAt, show heldAt world.history world.history.length first = none
                  from isHeld]
                exact ⟨rfl, rfl⟩
              exact phase.take le_rfl isWalk.began empty
          | some held =>
              obtain ⟨modified, entries⟩ := held
              refine ⟨isWalk.began, ?_, world.history.length, le_rfl, isWalk.began,
                ⟨entries, isHeld⟩, phase⟩
              intro pair member
              rcases List.mem_append.mp member with isSeen | isLast
              · exact isWalk.seen pair isSeen
              · obtain ⟨change, isChange, _, isStamp⟩ := exists_change_of_heldAt isHeld
                rw [List.mem_singleton.mp isLast]
                exact ⟨change, List.mem_of_mem_take isChange, isStamp⟩
  | statted first modified =>
      rw [isPhase] at phase
      obtain ⟨statAt, within, afterBegan, ⟨entries, held⟩, traced⟩ := phase
      simp only
      cases isReusable : reusable world.cache first modified with
      | none =>
          obtain ⟨change, isChange, _, isStamp⟩ := exists_change_of_heldAt held
          exact ⟨isWalk.began, isWalk.seen,
            ⟨change, List.mem_of_mem_take isChange, isStamp⟩, traced.mono within⟩
      | some listed =>
          simp only [reusable, Option.map_eq_some_iff, Option.filter_eq_some_iff,
            Bool.and_eq_true, decide_eq_true_eq] at isReusable
          obtain ⟨cached, ⟨isCached, trusted, rfl⟩, rfl⟩ := isReusable
          obtain ⟨wellRead, settled⟩ := holds.cached first cached isCached
          obtain ⟨moment, afterStat, isMoment, same⟩ :=
            exists_moment_of_settled wellRead (settled trusted) within held
          exact ⟨isWalk.began, isWalk.seen,
            (traced.take afterStat (afterBegan.trans afterStat) same).mono isMoment⟩
  | missed first modified =>
      rw [isPhase] at phase
      obtain ⟨⟨change, isChange, isStamp⟩, traced⟩ := phase
      refine ⟨isWalk.began, isWalk.seen, isWalk.began, rfl, ⟨le_rfl, ⟨rfl, rfl⟩, change, ?_,
        isStamp⟩, traced⟩
      rw [List.take_length]
      exact isChange
  | loaded first listed readAt =>
      rw [isPhase] at phase
      obtain ⟨afterBegan, _, wellRead, traced⟩ := phase
      exact ⟨isWalk.began, isWalk.seen,
        (traced.take le_rfl afterBegan wellRead.content).mono wellRead.within⟩
  | returned partitions =>
      refine ⟨isWalk.began, isWalk.seen, ?_⟩
      exact isWalk.phase

/-- Every event keeps what holds of a run. -/
theorem worldHolds_step {event : CacheEvent} {next : World} (holds : WorldHolds clock world)
    (unchanged : SettlesUnchanged world event)
    (stepped : cacheStep clock world event = some next) : WorldHolds clock next := by
  cases event with
  | elapse nanos =>
      obtain rfl := Option.some.inj stepped
      exact holds.elapse nanos
  | change dir entries =>
      obtain rfl := Option.some.inj stepped
      exact holds.change dir entries
  | call root =>
      obtain rfl := Option.some.inj stepped
      refine ⟨holds.sorted, holds.stamped, holds.cached, ?_⟩
      intro walk member
      rcases List.mem_append.mp member with called | new
      · exact holds.walks walk called
      · rw [List.mem_singleton.mp new]
        exact ⟨le_rfl, fun _ isSeen => (List.not_mem_nil isSeen).elim, traced_nil⟩
  | advance index =>
      obtain ⟨walk, isIndex, rfl⟩ := Option.map_eq_some_iff.mp stepped
      have isWalk := holds.walks walk (List.mem_of_getElem? isIndex)
      refine ⟨holds.sorted, holds.stamped, ?_, ?_⟩
      · intro dir cached isCached
        exact holds.advance_cache isWalk (unchanged walk isIndex) isCached
      · intro other member
        rcases List.mem_or_eq_of_mem_set member with called | rfl
        · exact holds.walks other called
        · exact holds.advance_walk isWalk
  | prune dir =>
      obtain rfl := Option.some.inj stepped
      refine ⟨holds.sorted, holds.stamped, ?_, holds.walks⟩
      intro other cached isCached
      simp only at isCached
      split at isCached
      · cases isCached
      · exact holds.cached other cached isCached

/-- **A cached listing is a fresh one.**  Whatever changes fall between any steps of any number of
walks, every call returns what a walk without a cache returns at reads made while it ran, where no
walk settles on a directory changed in the tick of its mtime since its listing was read. -/
theorem asUncached_of_settlesUnchanged (clock : FilesystemClock) (events : List CacheEvent)
    (final : World)
    (unchanged : Guarded (cacheStep clock) SettlesUnchanged events {})
    (run : exec (cacheStep clock) events {} = some final) :
    ∀ walk ∈ final.walks, AsUncached final.history walk := by
  have start : WorldHolds clock {} :=
    ⟨List.Pairwise.nil, fun _ member => (List.not_mem_nil member).elim,
      fun _ _ isCached => (Option.some_ne_none _ isCached.symm).elim,
      fun _ member => (List.not_mem_nil member).elim⟩
  have holds : WorldHolds clock final :=
    invariant_of_guarded (fun _ _ _ holds unchanged stepped =>
      worldHolds_step holds unchanged stepped) start unchanged run
  intro walk member partitions isReturned
  have phase := (holds.walks walk member).phase
  unfold PhaseHolds at phase
  rw [isReturned] at phase
  exact phase partitions isReturned

/-- A filesystem whose mtimes are whole seconds. -/
def wholeSeconds : FilesystemClock where
  stamp now := now / 1_000_000_000 * 1_000_000_000
  monotone _ _ ordered := Nat.mul_le_mul_right _ (Nat.div_le_div_right ordered)
  granular now := by omega

/-- The entries of a directory of committed segments. -/
def segmentEntries (cursors : List Cursor) : List Entry :=
  cursors.map fun cursor => ⟨cursor.fileName, .file⟩

/-- A first and a second day, each as it is listed. -/
def firstDay : DirPath := ["date=1".toList]

def secondDay : DirPath := ["date=2".toList]

/-- A walk of both days has read the first, and half a second later a second segment arrives
there. -/
def firstDayRead : List CacheEvent :=
  [.elapse 10_000_000_000,
    .change [] (some [⟨"date=1".toList, .directory⟩, ⟨"date=2".toList, .directory⟩]),
    .change firstDay (some (segmentEntries [.seq 1 2])),
    .change secondDay (some []), .call []] ++ List.replicate 8 (.advance 0) ++
      [.elapse 500_000_000, .change firstDay (some (segmentEntries [.seq 1 2, .seq 3 4]))]

/-- The walk comes to the second day some time later, where a segment has just arrived, and
another walk follows it. -/
def secondDayRead (nanos : Nat) : List CacheEvent :=
  [.elapse nanos, .change secondDay (some (segmentEntries [.seq 5 6]))] ++
    List.replicate 5 (.advance 0) ++ .call [] :: List.replicate 13 (.advance 1)

/-- A listing of committed segments. -/
def segmentsListed (cursors : List Cursor) : Listing :=
  cursors.map fun cursor => (cursor, cursor.fileName)

/-- Within the margin the later walk reads the first day again. -/
theorem asUncached_of_settlesUnchanged_soon :
    ∃ final, exec (cacheStep wholeSeconds) (firstDayRead ++ secondDayRead 1_000_000_000) {} =
        some final ∧ ∀ walk ∈ final.walks, AsUncached final.history walk := by
  have runs : (exec (cacheStep wholeSeconds) (firstDayRead ++ secondDayRead 1_000_000_000)
      {}).isSome := by
    decide +kernel
  obtain ⟨final, ran⟩ := Option.isSome_iff_exists.mp runs
  exact ⟨final, ran, asUncached_of_settlesUnchanged wholeSeconds _ final (by decide +kernel) ran⟩

/-- Every change made to the two days. -/
def twoDays : DirHistory :=
  [⟨[], 10_000_000_000,
      some [⟨"date=1".toList, .directory⟩, ⟨"date=2".toList, .directory⟩]⟩,
    ⟨firstDay, 10_000_000_000, some (segmentEntries [.seq 1 2])⟩,
    ⟨secondDay, 10_000_000_000, some []⟩,
    ⟨firstDay, 10_000_000_000, some (segmentEntries [.seq 1 2, .seq 3 4])⟩,
    ⟨secondDay, 13_000_000_000, some (segmentEntries [.seq 5 6])⟩]

/-- No walk that reads after the changes misses the second segment. -/
theorem uncached_twoDays (count : Nat) :
    uncached twoDays [] (List.replicate count 5) ≠
      some [(firstDay, segmentsListed [.seq 1 2]), (secondDay, segmentsListed [.seq 5 6])] := by
  match count with
  | 0 | 1 | 2 | 3 => decide +kernel
  | count + 4 =>
      have ends : (List.replicate 4 5).foldlM (readNext twoDays) ⟨[], [[]]⟩ = none := by
        decide +kernel
      rw [Nat.add_comm, List.replicate_add, uncached, List.foldlM_append, ends]
      exact (Option.some_ne_none _).symm

/-- **A segment hidden by a slow walk.**  The second day is three seconds newer than the first when
the walk comes to it, so the walk trusts the listing it read of the first before a segment arrived
in the same second.  The later walk reuses it and misses the segment. -/
theorem segment_hidden :
    ∃ final, exec (cacheStep wholeSeconds) (firstDayRead ++ secondDayRead 3_000_000_000) {} =
        some final ∧ ¬ ∀ walk ∈ final.walks, AsUncached final.history walk := by
  have changed : (exec (cacheStep wholeSeconds) (firstDayRead ++ secondDayRead 3_000_000_000)
      {}).map World.history = some twoDays := by
    decide +kernel
  have walked : (exec (cacheStep wholeSeconds) (firstDayRead ++ secondDayRead 3_000_000_000)
      {}).map (fun final => (final.walks[1]?).map fun walk =>
        (walk.root, walk.began, walk.phase)) =
      some (some ([], 5, .returned
        [(firstDay, segmentsListed [.seq 1 2]), (secondDay, segmentsListed [.seq 5 6])])) := by
    decide +kernel
  obtain ⟨final, ran, isHistory⟩ := Option.map_eq_some_iff.mp changed
  rw [ran, Option.map_some, Option.some.injEq] at walked
  obtain ⟨walk, isSecond, isReturned⟩ := Option.map_eq_some_iff.mp walked
  simp only [Prod.mk.injEq] at isReturned
  refine ⟨final, ran, ?_⟩
  intro asUncached
  obtain ⟨moments, _, within, returns⟩ :=
    asUncached walk (List.mem_of_getElem? isSecond) _ isReturned.2.2
  have isLast : moments = List.replicate moments.length 5 := by
    apply List.eq_replicate_iff.mpr
    refine ⟨rfl, fun moment member => ?_⟩
    have bounds := within moment member
    rw [isReturned.2.1, isHistory] at bounds
    exact le_antisymm bounds.2 bounds.1
  rw [isHistory, isReturned.1, isLast] at returns
  exact uncached_twoDays _ returns

end Segments
end Datawatch
