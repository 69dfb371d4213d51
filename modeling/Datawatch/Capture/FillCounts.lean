import Datawatch.Capture.Fills
import Datawatch.Capture.RestartGap

/-!
# A chain's count is its pages

A history chain's fills carry the number of its pages: those taken, and the one in flight.  A
failed request takes its page back from the fill it was for, and not from the next step queued
behind it.
-/

namespace Datawatch
namespace Capture

open Library Wire

/-- The filler of a run, and what was reported so far, the newest first. -/
structure FillRun where
  filler : Filler
  reports : List Report
deriving DecidableEq

/-- One thing that happens to the fills. -/
inductive FillOp
  /-- A gap or a settle is queued. -/
  | queue (pair : FillKey) (fromMicros dueMicros : Int)
  | returned (result : FetchResult) (nowMicros : Int)
  | start (nowMicros : Int)

namespace FillRun

/-- A filler's turn, its reports kept. -/
def turn (run : FillRun) (step : Filler → Filler × List Report) : FillRun :=
  ⟨(step run.filler).1, (step run.filler).2 ++ run.reports⟩

variable (terms : FillTerms)

/-- What one thing that happens does. -/
def apply (run : FillRun) : FillOp → FillRun
  | .queue pair fromMicros dueMicros =>
      { run with
        filler := run.filler.enqueue
          { ticker := pair.1
            series := pair.2.1
            intervalMicros := pair.2.2
            fromMicros := fromMicros
            dueMicros := dueMicros
            attempts := 0
            history := none } }
  | .returned result nowMicros => run.turn (Filler.fillReturned terms nowMicros result)
  | .start nowMicros => run.turn (Filler.startDueFill terms nowMicros)

/-- The loop's own turn is an answer taken, where there is one, and a start. -/
theorem turn_fillStep (run : FillRun) (nowMicros : Int) (answer : Option FetchResult) :
    run.turn (Filler.fillStep terms nowMicros answer) =
      ((answer.map fun result => FillOp.returned result nowMicros).toList ++
        [FillOp.start nowMicros]).foldl (apply terms) run := by
  cases answer with
  | none =>
      simp only [turn, Filler.fillStep, Option.map_none, Option.toList_none, List.nil_append,
        List.foldl_cons, List.foldl_nil, apply, List.append_nil]
  | some result =>
      simp only [turn, Filler.fillStep, Option.map_some, Option.toList_some, List.singleton_append,
        List.foldl_cons, List.foldl_nil, apply, List.append_assoc]

end FillRun

/-- Whether a report is of a page of a pair's history. -/
def Report.isPage (pair : FillKey) : Report → Bool
  | .took other history _ => history && decide (other = pair)
  | .reachedCap .. | .dropped _ | .unnamed _ => false

/-- The pages of a pair's history taken so far. -/
def pagesTaken (pair : FillKey) (reports : List Report) : Nat := reports.countP (Report.isPage pair)

/-- One, where a page of a pair's history is in flight. -/
def pagesInFlight (pair : FillKey) (inFlight : Option Fill) : Nat :=
  (inFlight.filter fun fill => fill.history.isSome && decide (fill.pair = pair)).toList.length

/-- The pages of a pair's history taken so far, and the one in flight. -/
def FillRun.pages (run : FillRun) (pair : FillKey) : Nat :=
  pagesTaken pair run.reports + pagesInFlight pair run.filler.inFlight

/-- Where a fill is of a chain, something holds of its pair and the count it carries. -/
def Fill.Carries (holds : FillKey → Nat → Prop) (fill : Fill) : Prop :=
  ∀ history, fill.history = some history → holds fill.pair history.pages

/-- **Every chain's fill carries the number of its pages taken and in flight.** -/
structure FillRun.Counted (run : FillRun) : Prop where
  queued : ∀ fill ∈ run.filler.queue, fill.Carries fun pair pages => pages = run.pages pair
  flying : ∀ fill, run.filler.inFlight = some fill →
    fill.Carries fun pair pages => pages = run.pages pair

/-- A chain is stopped at the cap after exactly as many pages. -/
def StopsAtCap (cap : Nat) (reports : List Report) : Prop :=
  ∀ newer pair pages older, reports = newer ++ .reachedCap pair pages :: older →
    pagesTaken pair older = cap

/-- A chain's request fails only where no next step of it is queued, and one that has a next step
starts only where its ticker has a symbol. -/
def FillRun.Keeps (terms : FillTerms) (run : FillRun) : FillOp → Prop
  | .queue .. | .returned (.ok _) _ => True
  | .returned (.error _) _ => ∀ fill, run.filler.inFlight = some fill → fill.history.isSome →
      ∀ queued ∈ run.filler.queue, queued.pair = fill.pair → queued.history = none
  | .start nowMicros => ∀ fill history, run.filler.inFlight = none →
      (∀ next, run.filler.nextStartMicros = some next → next ≤ nowMicros) →
      Filler.due nowMicros run.filler.queue = some fill → fill.history = some history →
      history.pages < terms.cap.toNat →
      2 ≤ (Filler.steps terms nowMicros (Filler.reached terms nowMicros fill)).length →
      (terms.venueSymbol fill.ticker).isSome

/-- The states of the runs whose steps all meet the condition, from the histories a boot queues. -/
inductive Reaches (terms : FillTerms) : FillRun → Prop
  | boot (nowMicros : Int) (asks : List (FillKey × Ask)) :
      Reaches terms ⟨Filler.fillHistory nowMicros asks, []⟩
  | step {run : FillRun} (reaches : Reaches terms run) (op : FillOp) (keeps : run.Keeps terms op) :
      Reaches terms (run.apply terms op)

theorem Fill.pair_widen (queued fill : Fill) : (queued.widen fill).pair = queued.pair := rfl

theorem Fill.history_widen (queued fill : Fill) :
    (queued.widen fill).history = queued.history.or fill.history := rfl

/-- A widened fill carries what either of the two carried. -/
theorem Fill.Carries.widen {holds : FillKey → Nat → Prop} {queued fill : Fill}
    (isQueued : queued.Carries holds) (isFill : fill.Carries holds)
    (same : queued.pair = fill.pair) : (queued.widen fill).Carries holds := by
  intro history isHistory
  rw [Fill.history_widen] at isHistory
  rw [Fill.pair_widen]
  cases own : queued.history with
  | some kept =>
      rw [own, Option.some_or] at isHistory
      obtain rfl := Option.some.inj isHistory
      exact isQueued _ own
  | none =>
      rw [own, Option.none_or] at isHistory
      rw [same]
      exact isFill _ isHistory

/-- Queueing a fill keeps what every fill carries. -/
theorem carries_mergeInto {holds : FillKey → Nat → Prop} {queue : List Fill} {fill : Fill}
    (isQueue : ∀ queued ∈ queue, queued.Carries holds) (isFill : fill.Carries holds) :
    ∀ queued ∈ mergeInto queue fill, queued.Carries holds := by
  induction queue with
  | nil =>
      intro queued isMember
      rw [mergeInto, List.mem_singleton] at isMember
      rwa [isMember]
  | cons head queue inductionHypothesis =>
      rw [List.forall_mem_cons] at isQueue
      rw [mergeInto]
      by_cases same : head.pair = fill.pair
      · rw [if_pos same, List.forall_mem_cons]
        exact ⟨isQueue.1.widen isFill same, isQueue.2⟩
      · rw [if_neg same, List.forall_mem_cons]
        exact ⟨isQueue.1, inductionHypothesis isQueue.2⟩

/-- A fill of a new pair is queued last. -/
theorem mergeInto_of_not_mem {queue : List Fill} {fill : Fill}
    (other : fill.pair ∉ queue.map Fill.pair) : mergeInto queue fill = queue ++ [fill] := by
  induction queue with
  | nil => rfl
  | cons head queue inductionHypothesis =>
      rw [List.map_cons, List.mem_cons, not_or] at other
      rw [mergeInto, if_neg (Ne.symm other.1), inductionHypothesis other.2, List.cons_append]

/-- A fill of a queued pair changes no pair. -/
theorem pairs_mergeInto_of_mem {queue : List Fill} {fill : Fill}
    (isPair : fill.pair ∈ queue.map Fill.pair) :
    (mergeInto queue fill).map Fill.pair = queue.map Fill.pair := by
  induction queue with
  | nil => cases isPair
  | cons head queue inductionHypothesis =>
      rw [mergeInto]
      by_cases same : head.pair = fill.pair
      · rw [if_pos same, List.map_cons, List.map_cons, Fill.pair_widen]
      · rw [if_neg same, List.map_cons, List.map_cons, inductionHypothesis]
        exact (List.mem_cons.mp isPair).resolve_left (Ne.symm same)

/-- There stays one fill for each pair. -/
theorem nodup_mergeInto {queue : List Fill} (nodup : (queue.map Fill.pair).Nodup) (fill : Fill) :
    ((mergeInto queue fill).map Fill.pair).Nodup := by
  by_cases isPair : fill.pair ∈ queue.map Fill.pair
  · rwa [pairs_mergeInto_of_mem isPair]
  · rw [mergeInto_of_not_mem isPair, List.map_append, List.map_singleton]
    exact List.nodup_append.mpr ⟨nodup, List.nodup_singleton _, by
      intro pair isOld other isNew same
      rw [List.mem_singleton.mp isNew] at same
      exact isPair (same ▸ isOld)⟩

/-- A queued chain stays queued with its history. -/
theorem exists_mem_mergeInto {queue : List Fill} {queued : Fill} (isQueued : queued ∈ queue)
    (fill : Fill) (isChain : queued.history.isSome) :
    ∃ kept ∈ mergeInto queue fill, kept.pair = queued.pair ∧ kept.history = queued.history := by
  induction queue with
  | nil => cases isQueued
  | cons head queue inductionHypothesis =>
      rw [mergeInto]
      by_cases same : head.pair = fill.pair
      · rw [if_pos same]
        rcases List.mem_cons.mp isQueued with rfl | isRest
        · obtain ⟨history, isHistory⟩ := Option.isSome_iff_exists.mp isChain
          refine ⟨_, List.mem_cons_self, rfl, ?_⟩
          rw [Fill.history_widen, isHistory, Option.some_or]
        · exact ⟨queued, List.mem_cons_of_mem _ isRest, rfl, rfl⟩
      · rw [if_neg same]
        rcases List.mem_cons.mp isQueued with rfl | isRest
        · exact ⟨_, List.mem_cons_self, rfl, rfl⟩
        · obtain ⟨kept, isKept, isPair, isHistory⟩ := inductionHypothesis isRest
          exact ⟨kept, List.mem_cons_of_mem _ isKept, isPair, isHistory⟩

/-! ## The invariant -/

/-- One fill for each pair, every chain's count its pages and within the cap, and every stop at the
cap. -/
structure FillRun.Sound (cap : Nat) (run : FillRun) : Prop where
  onePerPair : (run.filler.queue.map Fill.pair).Nodup
  queued : ∀ fill ∈ run.filler.queue,
    fill.Carries fun pair pages => pages = run.pages pair ∧ pages ≤ cap
  flying : ∀ fill, run.filler.inFlight = some fill →
    fill.Carries fun pair pages => pages = run.pages pair ∧ pages ≤ cap
  stops : StopsAtCap cap run.reports

theorem FillRun.Sound.counted {cap : Nat} {run : FillRun} (sound : run.Sound cap) : run.Counted where
  queued fill isQueued history isHistory := (sound.queued fill isQueued history isHistory).1
  flying fill isFlying history isHistory := (sound.flying fill isFlying history isHistory).1

/-- A fill of no chain carries no count. -/
theorem carries_of_none {holds : FillKey → Nat → Prop} {fill : Fill} (none : fill.history = none) :
    fill.Carries holds := by
  intro history isHistory
  rw [none] at isHistory
  cases isHistory

theorem stopsAtCap_nil (cap : Nat) : StopsAtCap cap [] := by
  intro newer pair pages older isReports
  cases newer with
  | nil => cases isReports
  | cons report newer => cases isReports

/-- A report that is no stop stops nothing. -/
theorem StopsAtCap.cons {cap : Nat} {reports : List Report} (stops : StopsAtCap cap reports)
    {report : Report}
    (isStop : ∀ pair pages, report = .reachedCap pair pages → pagesTaken pair reports = cap) :
    StopsAtCap cap (report :: reports) := by
  intro newer pair pages older isReports
  cases newer with
  | nil =>
      obtain ⟨isReport, rfl⟩ := List.cons.inj isReports
      exact isStop pair pages isReport
  | cons newest newer =>
      obtain ⟨_, isRest⟩ := List.cons.inj isReports
      exact stops newer pair pages older isRest

theorem pagesInFlight_none (pair : FillKey) : pagesInFlight pair none = 0 := rfl

/-- A chain's fill in flight is a page of its own pair. -/
theorem pagesInFlight_some (pair : FillKey) (fill : Fill) : pagesInFlight pair (some fill) =
    if fill.history.isSome ∧ fill.pair = pair then 1 else 0 := by
  rw [pagesInFlight]
  by_cases isPage : fill.history.isSome ∧ fill.pair = pair
  · rw [if_pos isPage, Option.filter_some, if_pos (by simpa using isPage)]
    rfl
  · rw [if_neg isPage, Option.filter_some, if_neg (by simpa using isPage)]
    rfl

/-- The histories a boot queues have no pages yet. -/
theorem sound_fillHistory (cap : Nat) (nowMicros : Int) (asks : List (FillKey × Ask)) :
    FillRun.Sound cap ⟨Filler.fillHistory nowMicros asks, []⟩ := by
  have queued (filler : Filler) (nothing : filler.inFlight = none)
      (onePerPair : (filler.queue.map Fill.pair).Nodup)
      (zero : ∀ fill ∈ filler.queue, fill.Carries fun _ pages => pages = 0) :
      ∀ after, after = asks.foldl (fun filler ask => filler.enqueue
        { ticker := ask.1.1
          series := ask.1.2.1
          intervalMicros := ask.1.2.2
          fromMicros := ask.2.fromMicros
          dueMicros := nowMicros
          attempts := 0
          history := some ⟨ask.2.askedFromMicros, 0, false⟩ }) filler →
        after.inFlight = none ∧ (after.queue.map Fill.pair).Nodup ∧
          ∀ fill ∈ after.queue, fill.Carries fun _ pages => pages = 0 := by
    induction asks generalizing filler with
    | nil =>
        rintro _ rfl
        exact ⟨nothing, onePerPair, zero⟩
    | cons ask asks inductionHypothesis =>
        refine inductionHypothesis _ nothing (nodup_mergeInto onePerPair _)
          (carries_mergeInto zero ?_)
        intro history isHistory
        obtain rfl := Option.some.inj isHistory
        rfl
  obtain ⟨nothing, onePerPair, zero⟩ := queued {} rfl List.nodup_nil (by simp) _ rfl
  refine
    { onePerPair := onePerPair
      queued := ?_
      flying := ?_
      stops := stopsAtCap_nil cap }
  · intro fill isQueued history isHistory
    have none : pagesInFlight fill.pair (Filler.fillHistory nowMicros asks).inFlight = 0 := by
      rw [show (Filler.fillHistory nowMicros asks).inFlight = Option.none from nothing,
        pagesInFlight_none]
    have count := zero fill isQueued history isHistory
    rw [count]
    refine ⟨?_, Nat.zero_le cap⟩
    simp only [FillRun.pages, none]
    rfl
  · intro fill isFlying
    rw [show (Filler.fillHistory nowMicros asks).inFlight = Option.none from nothing] at isFlying
    cases isFlying

variable {terms : FillTerms} {cap : Nat} {run : FillRun} {nowMicros : Int}

/-- A fill that carries its pair's pages is queued soundly. -/
theorem sound_enqueue (sound : run.Sound cap) {fill : Fill}
    (isFill : fill.Carries fun pair pages => pages = run.pages pair ∧ pages ≤ cap) :
    FillRun.Sound cap ⟨run.filler.enqueue fill, run.reports⟩ where
  onePerPair := nodup_mergeInto sound.onePerPair fill
  queued := carries_mergeInto sound.queued isFill
  flying := sound.flying
  stops := sound.stops

/-- What is in flight, once its answer is here. -/
def FillRun.landed (run : FillRun) : FillRun :=
  { run with filler := { run.filler with inFlight := none } }

/-- A run is sound as its pages are counted, not as they are split. -/
theorem FillRun.Sound.of_pages {other : FillRun} (sound : run.Sound cap)
    (queue : other.filler.queue = run.filler.queue) (none : other.filler.inFlight = none)
    (pages : other.pages = run.pages) (stops : StopsAtCap cap other.reports) :
    other.Sound cap where
  onePerPair := by
    rw [queue]
    exact sound.onePerPair
  queued := by
    rw [queue, pages]
    exact sound.queued
  flying := by
    intro fill isFlying
    rw [none] at isFlying
    cases isFlying
  stops := stops

/-- A page taken is one in flight no more. -/
theorem pages_taken {fill : Fill} (isFlying : run.filler.inFlight = some fill) (fromMicros : Int) :
    FillRun.pages ⟨{ run.filler with inFlight := none },
      .took fill.pair fill.history.isSome fromMicros :: run.reports⟩ = run.pages := by
  funext pair
  simp only [FillRun.pages, pagesTaken, List.countP_cons, Report.isPage, isFlying,
    pagesInFlight_none, pagesInFlight_some, Bool.and_eq_true, decide_eq_true_eq, Nat.add_zero]

/-- **A page that came back is counted.** -/
theorem sound_pageReturned (sound : run.Sound terms.cap.toNat) {fill : Fill}
    (isFlying : run.filler.inFlight = some fill) (pageEnd : Option PageEnd) :
    FillRun.Sound terms.cap.toNat
      (run.landed.turn (Filler.pageReturned terms nowMicros fill pageEnd)) := by
  have taken : FillRun.Sound terms.cap.toNat ⟨{ run.filler with inFlight := none },
      .took fill.pair fill.history.isSome fill.fromMicros :: run.reports⟩ :=
    sound.of_pages rfl rfl (pages_taken isFlying fill.fromMicros)
      (sound.stops.cons (by intro _ _ isStop; cases isStop))
  have own := sound.flying fill isFlying
  unfold FillRun.turn Filler.pageReturned
  simp only [FillRun.landed]
  split
  · exact taken
  · rename_i fromMicros isNext
    split
    · rename_i atCap
      cases isHistory : fill.history with
      | none =>
          rw [isHistory] at atCap
          cases atCap
      | some history =>
          rw [isHistory, Option.any_some, decide_eq_true_eq] at atCap
          obtain ⟨isCount, within⟩ := own history isHistory
          refine taken.of_pages rfl rfl ?_ ?_
          · funext pair
            simp only [FillRun.pages, pagesTaken, List.cons_append, List.nil_append,
              List.countP_cons, Report.isPage, Bool.false_eq_true, if_false, Nat.add_zero,
              isHistory]
          · rw [← isHistory]
            refine taken.stops.cons ?_
            intro pair pages isStop
            obtain ⟨rfl, _⟩ := Report.reachedCap.inj isStop
            have count : pagesTaken fill.pair
                (.took fill.pair fill.history.isSome fill.fromMicros :: run.reports) =
                  run.pages fill.pair :=
              congrFun (pages_taken isFlying fill.fromMicros) fill.pair
            change pagesTaken fill.pair
              (.took fill.pair fill.history.isSome fill.fromMicros :: run.reports) = _
            omega
    · refine sound_enqueue taken ?_
      intro history isHistory
      rw [pages_taken isFlying]
      exact own history isHistory

/-- A request that failed takes its page off the count, where no next step of it is queued. -/
theorem sound_requestFailed (sound : run.Sound terms.cap.toNat) {fill : Fill}
    (isFlying : run.filler.inFlight = some fill) (failure : FetchFailure)
    (alone : fill.history.isSome → ∀ queued ∈ run.filler.queue, queued.pair = fill.pair →
      queued.history = none) :
    FillRun.Sound terms.cap.toNat
      (run.landed.turn (Filler.requestFailed terms nowMicros fill failure)) := by
  have own := sound.flying fill isFlying
  -- The chain's page is in flight no more, and every other pair's are as they were.
  have pages (pair : FillKey) : run.pages pair = run.landed.pages pair +
      if fill.history.isSome ∧ fill.pair = pair then 1 else 0 := by
    simp only [FillRun.pages, FillRun.landed, isFlying, pagesInFlight_none, pagesInFlight_some,
      Nat.add_zero]
  have landed : run.landed.Sound terms.cap.toNat := by
    refine
      { onePerPair := sound.onePerPair
        queued := ?_
        flying := ?_
        stops := sound.stops }
    · intro queued isQueued history isHistory
      have count : history.pages = run.pages queued.pair ∧ history.pages ≤ terms.cap.toNat :=
        sound.queued queued isQueued history isHistory
      rw [pages, if_neg] at count
      · exact count
      · rintro ⟨isChain, same⟩
        rw [alone isChain queued isQueued same.symm] at isHistory
        cases isHistory
    · intro other isOther
      cases isOther
  have waiting (next : Option Int) : FillRun.Sound terms.cap.toNat
      ⟨{ run.landed.filler with nextStartMicros := next }, run.reports⟩ :=
    landed.of_pages rfl rfl rfl sound.stops
  have nothing : (Filler.holdOff nowMicros failure run.landed.filler).inFlight = none := by
    unfold Filler.holdOff
    split
    · rfl
    · rfl
  have held : FillRun.Sound terms.cap.toNat
      ⟨Filler.holdOff nowMicros failure run.landed.filler, run.reports⟩ := by
    unfold Filler.holdOff
    split
    · exact waiting _
    · exact landed
  have pagesHeld : FillRun.pages
      ⟨Filler.holdOff nowMicros failure run.landed.filler, run.reports⟩ = run.landed.pages := by
    funext pair
    unfold Filler.holdOff
    split
    · rfl
    · rfl
  unfold FillRun.turn Filler.requestFailed
  simp only
  split
  · exact held.of_pages rfl nothing rfl (held.stops.cons (by intro _ _ isStop; cases isStop))
  · refine sound_enqueue held ?_
    intro history isHistory
    obtain ⟨before, isBefore, rfl⟩ := Option.map_eq_some_iff.mp isHistory
    have count : before.pages = run.pages fill.pair ∧ before.pages ≤ terms.cap.toNat :=
      own before isBefore
    rw [pages, if_pos ⟨by rw [isBefore]; rfl, rfl⟩] at count
    rw [pagesHeld]
    change before.pages - 1 = run.landed.pages fill.pair ∧ before.pages - 1 ≤ terms.cap.toNat
    omega

/-- The fill that is started is of no pair still queued. -/
theorem pair_not_mem_erase {queue : List Fill} (onePerPair : (queue.map Fill.pair).Nodup)
    {fill : Fill} (isQueued : fill ∈ queue) : fill.pair ∉ (queue.erase fill).map Fill.pair := by
  have perm := (List.perm_cons_erase isQueued).map Fill.pair
  rw [List.map_cons] at perm
  exact (List.nodup_cons.mp (perm.nodup_iff.mp onePerPair)).1

/-- A fill taken out of the queue leaves it sound. -/
theorem sound_erase (sound : run.Sound cap) (fill : Fill) :
    FillRun.Sound cap ⟨{ run.filler with queue := run.filler.queue.erase fill }, run.reports⟩ where
  onePerPair := sound.onePerPair.sublist (List.erase_sublist.map Fill.pair)
  queued other isQueued := sound.queued other (List.mem_of_mem_erase isQueued)
  flying := sound.flying
  stops := sound.stops

/-- The queue behind a fill that starts: its next step is queued, where it has one. -/
theorem queue_launch (first : Step) (later : List Step) {fill : Fill} (filler : Filler)
    (apart : fill.pair ∉ filler.queue.map Fill.pair) :
    (Filler.launch terms nowMicros fill first later filler).1.queue =
      filler.queue ++ (later.head?.map (Filler.successor nowMicros fill)).toList := by
  cases later with
  | nil =>
      unfold Filler.launch
      simp only
      split
      · exact (List.append_nil _).symm
      · exact (List.append_nil _).symm
  | cons next later =>
      have queued := @mergeInto_of_not_mem _ (Filler.successor nowMicros fill next) apart
      unfold Filler.launch
      simp only
      split
      · exact queued
      · exact queued

/-- **A fill that starts is counted**, where it is asked or has no next step of a chain. -/
theorem sound_launch (sound : run.Sound terms.cap.toNat) (nothing : run.filler.inFlight = none)
    (first : Step) (later : List Step) {fill : Fill}
    (apart : fill.pair ∉ run.filler.queue.map Fill.pair)
    (isFill : fill.Carries fun pair pages => pages = run.pages pair + 1 ∧ pages ≤ terms.cap.toNat)
    (named : fill.history.isSome → later ≠ [] → (terms.venueSymbol fill.ticker).isSome) :
    FillRun.Sound terms.cap.toNat
      (run.turn (Filler.launch terms nowMicros fill first later)) := by
  have queue := @queue_launch terms nowMicros first later fill run.filler apart
  have behind : ∀ queued ∈ (later.head?.map (Filler.successor nowMicros fill)).toList,
      queued.pair = fill.pair ∧ queued.history = fill.history := by
    intro queued isQueued
    obtain ⟨next, _, rfl⟩ := Option.map_eq_some_iff.mp (Option.mem_toList.mp isQueued)
    exact ⟨rfl, rfl⟩
  have onePerPair : ((Filler.launch terms nowMicros fill first later run.filler).1.queue.map
      Fill.pair).Nodup := by
    rw [queue]
    cases later with
    | nil =>
        rw [List.head?_nil, Option.map_none, Option.toList_none, List.append_nil]
        exact sound.onePerPair
    | cons next later =>
        have merged := nodup_mergeInto sound.onePerPair (Filler.successor nowMicros fill next)
        have apart' : (Filler.successor nowMicros fill next).pair ∉
            run.filler.queue.map Fill.pair := apart
        rw [mergeInto_of_not_mem apart'] at merged
        exact merged
  by_cases isNamed : (terms.venueSymbol fill.ticker).isSome
  · have flying : (Filler.launch terms nowMicros fill first later run.filler).1.inFlight =
        some fill := by
      unfold Filler.launch
      rw [if_pos isNamed]
    have quiet : (Filler.launch terms nowMicros fill first later run.filler).2 = [] := by
      unfold Filler.launch
      rw [if_pos isNamed]
    have pages (pair : FillKey) :
        (run.turn (Filler.launch terms nowMicros fill first later)).pages pair =
          run.pages pair + if fill.history.isSome ∧ fill.pair = pair then 1 else 0 := by
      simp only [FillRun.pages, FillRun.turn, flying, quiet, nothing, List.nil_append,
        pagesInFlight_none, pagesInFlight_some, Nat.add_zero]
    have isChain : fill.Carries fun pair pages =>
        pages = (run.turn (Filler.launch terms nowMicros fill first later)).pages pair ∧
          pages ≤ terms.cap.toNat := by
      intro history isHistory
      rw [pages, if_pos ⟨by rw [isHistory]; rfl, rfl⟩]
      exact isFill history isHistory
    refine
      { onePerPair := onePerPair
        queued := ?_
        flying := ?_
        stops := ?_ }
    · intro queued isQueued history isHistory
      have isMember : queued ∈ (Filler.launch terms nowMicros fill first later run.filler).1.queue :=
        isQueued
      rw [queue, List.mem_append] at isMember
      rcases isMember with isOld | isNew
      · have other : ¬ (fill.history.isSome ∧ fill.pair = queued.pair) := by
          rintro ⟨_, same⟩
          exact apart (same ▸ List.mem_map_of_mem isOld)
        rw [pages, if_neg other]
        exact sound.queued queued isOld history isHistory
      · obtain ⟨samePair, sameHistory⟩ := behind queued isNew
        rw [samePair]
        exact isChain history (sameHistory ▸ isHistory)
    · intro other isFlying
      obtain rfl : fill = other := Option.some.inj (flying.symm.trans isFlying)
      exact isChain
    · simp only [FillRun.turn, quiet, List.nil_append]
      exact sound.stops
  · have landed : (Filler.launch terms nowMicros fill first later run.filler).1.inFlight = none := by
      unfold Filler.launch
      rw [if_neg isNamed]
      cases later with
      | nil => exact nothing
      | cons next later => exact nothing
    have said : (Filler.launch terms nowMicros fill first later run.filler).2 =
        [.unnamed fill.pair] := by
      unfold Filler.launch
      rw [if_neg isNamed]
    have pages : (run.turn (Filler.launch terms nowMicros fill first later)).pages = run.pages := by
      funext pair
      simp only [FillRun.pages, FillRun.turn, landed, said, nothing, pagesTaken,
        List.singleton_append, List.countP_cons, Report.isPage, Bool.false_eq_true, if_false,
        Nat.add_zero]
    refine
      { onePerPair := onePerPair
        queued := ?_
        flying := ?_
        stops := ?_ }
    · intro queued isQueued history isHistory
      have isMember : queued ∈ (Filler.launch terms nowMicros fill first later run.filler).1.queue :=
        isQueued
      rw [queue, List.mem_append] at isMember
      rw [pages]
      rcases isMember with isOld | isNew
      · exact sound.queued queued isOld history isHistory
      · rw [(behind queued isNew).2] at isHistory
        refine absurd (named (by rw [isHistory]; rfl) ?_) isNamed
        rintro rfl
        cases isNew
    · intro other isFlying
      cases landed.symm.trans isFlying
    · simp only [FillRun.turn, said]
      exact sound.stops.cons (by intro _ _ isStop; cases isStop)

/-- A fill that is started is still of its pair and chain. -/
theorem reached_pair (fill : Fill) : (Filler.reached terms nowMicros fill).pair = fill.pair ∧
    (Filler.reached terms nowMicros fill).history = fill.history ∧
    (Filler.reached terms nowMicros fill).ticker = fill.ticker := by
  unfold Filler.reached
  split
  · split
    · exact ⟨rfl, rfl, rfl⟩
    · exact ⟨rfl, rfl, rfl⟩
  · exact ⟨rfl, rfl, rfl⟩

theorem mem_of_earliest {queue : List Fill} {fill : Fill}
    (isEarliest : Filler.earliest queue = some fill) : fill ∈ queue := by
  induction queue generalizing fill with
  | nil => cases isEarliest
  | cons head rest inductionHypothesis =>
      rw [Filler.earliest] at isEarliest
      cases found : Filler.earliest rest with
      | none =>
          rw [found] at isEarliest
          exact List.mem_cons.mpr (.inl (Option.some.inj isEarliest).symm)
      | some other =>
          simp only [found] at isEarliest
          split at isEarliest
          · exact List.mem_cons_of_mem _ (Option.some.inj isEarliest ▸ inductionHypothesis found)
          · exact List.mem_cons.mpr (.inl (Option.some.inj isEarliest).symm)

theorem mem_of_due {queue : List Fill} {fill : Fill} (isDue : Filler.due nowMicros queue = some fill) :
    fill ∈ queue :=
  List.mem_of_mem_filter (mem_of_earliest isDue)

/-- What a start does: nothing, or a fill is taken out of the queue and begun. -/
theorem startDueFill_cases (filler : Filler) :
    Filler.startDueFill terms nowMicros filler = (filler, []) ∨
      ∃ fill, filler.inFlight = none ∧
        (∀ next, filler.nextStartMicros = some next → next ≤ nowMicros) ∧
        Filler.due nowMicros filler.queue = some fill ∧
        Filler.startDueFill terms nowMicros filler =
          Filler.begin terms nowMicros (Filler.reached terms nowMicros fill)
            { filler with queue := filler.queue.erase fill } := by
  unfold Filler.startDueFill
  by_cases flying : filler.inFlight.isSome
  · rw [if_pos flying]
    exact .inl rfl
  · rw [if_neg flying]
    by_cases paced : filler.nextStartMicros.any fun next => decide (nowMicros < next)
    · rw [if_pos paced]
      exact .inl rfl
    · rw [if_neg paced]
      cases isDue : Filler.due nowMicros filler.queue with
      | none => exact .inl rfl
      | some fill =>
          refine .inr ⟨fill, Option.not_isSome_iff_eq_none.mp flying, ?_, rfl, rfl⟩
          intro next isNext
          rw [isNext, Option.any_some, decide_eq_true_eq] at paced
          exact not_lt.mp paced

/-- **A start keeps the count**, where the condition holds of it. -/
theorem sound_startDueFill (sound : run.Sound terms.cap.toNat)
    (keeps : run.Keeps terms (.start nowMicros)) :
    FillRun.Sound terms.cap.toNat (run.turn (Filler.startDueFill terms nowMicros)) := by
  rcases startDueFill_cases run.filler with idle | ⟨fill, nothing, paced, isDue, started⟩
  · rw [FillRun.turn, idle]
    exact sound
  · obtain ⟨samePair, sameHistory, sameTicker⟩ := @reached_pair terms nowMicros fill
    have isQueued := mem_of_due isDue
    have own := sound.queued fill isQueued
    have erased := sound_erase sound fill
    have apart := pair_not_mem_erase sound.onePerPair isQueued
    rw [FillRun.turn, started]
    unfold Filler.begin
    split
    · exact erased
    · rename_i first later isSteps
      split
      · rename_i isGap
        refine sound_launch erased nothing first later (by rwa [samePair])
          (carries_of_none isGap) ?_
        intro isChain
        rw [isGap] at isChain
        cases isChain
      · rename_i history isHistory
        rw [sameHistory] at isHistory
        obtain ⟨isCount, within⟩ : history.pages = run.pages fill.pair ∧ _ := own history isHistory
        split
        · rename_i atCap
          refine
            { onePerPair := erased.onePerPair
              queued := erased.queued
              flying := erased.flying
              stops := erased.stops.cons ?_ }
          intro pair pages isStop
          obtain ⟨rfl, _⟩ := Report.reachedCap.inj isStop
          rw [samePair]
          rw [FillRun.pages, nothing, pagesInFlight_none, Nat.add_zero] at isCount
          change pagesTaken fill.pair run.reports = terms.cap.toNat
          omega
        · rename_i below
          refine sound_launch erased nothing first later (by rwa [← samePair] at apart) ?_ ?_
          · intro other isOther
            obtain rfl := Option.some.inj isOther
            change history.pages + 1 = run.pages (Filler.reached terms nowMicros fill).pair + 1 ∧
              history.pages + 1 ≤ terms.cap.toNat
            rw [samePair]
            omega
          · intro _ isLater
            change (terms.venueSymbol (Filler.reached terms nowMicros fill).ticker).isSome
            rw [sameTicker]
            refine keeps fill history nothing paced isDue isHistory (by omega) ?_
            rw [isSteps, List.length_cons]
            have positive := List.length_pos_iff.mpr isLater
            omega

/-! ## Runs keep the count -/

/-- Each thing that happens keeps the invariant, where the condition holds of it. -/
theorem sound_apply (sound : run.Sound terms.cap.toNat) {op : FillOp}
    (keeps : run.Keeps terms op) : (run.apply terms op).Sound terms.cap.toNat := by
  cases op with
  | queue pair fromMicros dueMicros => exact sound_enqueue sound (carries_of_none rfl)
  | start nowMicros => exact sound_startDueFill sound keeps
  | returned result nowMicros =>
      rw [FillRun.apply, FillRun.turn, Filler.fillReturned]
      cases isFlying : run.filler.inFlight with
      | none => exact sound
      | some fill =>
          cases result with
          | ok pageEnd => exact sound_pageReturned sound isFlying pageEnd
          | error failure =>
              exact sound_requestFailed sound isFlying failure (keeps fill isFlying)

theorem Reaches.sound (reaches : Reaches terms run) : run.Sound terms.cap.toNat := by
  induction reaches with
  | boot nowMicros asks => exact sound_fillHistory _ nowMicros asks
  | step reaches op keeps inductionHypothesis => exact sound_apply inductionHypothesis keeps

/-- A chain's next step, queued when its request fails, still carries the failed page. -/
theorem keeps_of_counted_failed (sound : run.Sound terms.cap.toNat) {failure : FetchFailure}
    (counted : (run.apply terms (.returned (.error failure) nowMicros)).Counted) :
    run.Keeps terms (.returned (.error failure) nowMicros) := by
  intro fill isFlying isChain queued isQueued samePair
  by_contra isSuccessor
  obtain ⟨history, isHistory⟩ := Option.ne_none_iff_exists'.mp isSuccessor
  have count : history.pages = run.pages queued.pair ∧ history.pages ≤ terms.cap.toNat :=
    sound.queued queued isQueued history isHistory
  rw [FillRun.pages, isFlying, pagesInFlight_some, if_pos ⟨isChain, samePair.symm⟩] at count
  rw [FillRun.apply, FillRun.turn, Filler.fillReturned] at counted
  simp only [isFlying] at counted
  unfold Filler.requestFailed at counted
  simp only at counted
  have sameQueue : (Filler.holdOff nowMicros failure { run.filler with inFlight := none }).queue =
      run.filler.queue := by
    unfold Filler.holdOff
    split
    · rfl
    · rfl
  have nothing : (Filler.holdOff nowMicros failure { run.filler with inFlight := none }).inFlight =
      none := by
    unfold Filler.holdOff
    split
    · rfl
    · rfl
  split at counted
  · have still : history.pages = FillRun.pages _ queued.pair :=
      counted.queued queued (by simpa only [sameQueue] using isQueued) history isHistory
    simp only [FillRun.pages, nothing, pagesInFlight_none, pagesTaken, List.singleton_append,
      List.countP_cons, Report.isPage, Bool.false_eq_true, if_false] at still
    rw [pagesTaken] at count
    omega
  · obtain ⟨kept, isKept, keptPair, keptHistory⟩ :=
      exists_mem_mergeInto (sameQueue.symm ▸ isQueued) _ (by rw [isHistory]; rfl)
    have still : history.pages = FillRun.pages _ kept.pair :=
      counted.queued kept isKept history (keptHistory.trans isHistory)
    simp only [FillRun.pages, Filler.enqueue, nothing, pagesInFlight_none, List.nil_append,
      keptPair] at still
    omega

/-- A fill that is due starts, where none is out and the pace allows. -/
theorem startDueFill_of_due {filler : Filler} {fill : Fill} (nothing : filler.inFlight = none)
    (paced : ∀ next, filler.nextStartMicros = some next → next ≤ nowMicros)
    (isDue : Filler.due nowMicros filler.queue = some fill) :
    Filler.startDueFill terms nowMicros filler =
      Filler.begin terms nowMicros (Filler.reached terms nowMicros fill)
        { filler with queue := filler.queue.erase fill } := by
  unfold Filler.startDueFill
  rw [if_neg (by rw [nothing]; decide), if_neg, isDue]
  cases isNext : filler.nextStartMicros with
  | none => exact Bool.false_ne_true
  | some next =>
      rw [Option.any_some, decide_eq_true_eq]
      exact not_lt.mpr (paced next isNext)

/-- A chain's next step, queued before a start that asks nothing, carries a page nobody asked. -/
theorem keeps_of_counted_start (sound : run.Sound terms.cap.toNat)
    (counted : (run.apply terms (.start nowMicros)).Counted) :
    run.Keeps terms (.start nowMicros) := by
  intro fill history nothing paced isDue isHistory below twoSteps
  by_contra unnamed
  obtain ⟨samePair, sameHistory, sameTicker⟩ := @reached_pair terms nowMicros fill
  have isQueued := mem_of_due isDue
  have apart := pair_not_mem_erase sound.onePerPair isQueued
  have count : history.pages = run.pages fill.pair ∧ history.pages ≤ terms.cap.toNat :=
    sound.queued fill isQueued history isHistory
  rw [FillRun.pages, nothing, pagesInFlight_none, Nat.add_zero] at count
  rw [FillRun.apply, FillRun.turn, startDueFill_of_due nothing paced isDue] at counted
  match isSteps : Filler.steps terms nowMicros (Filler.reached terms nowMicros fill),
    twoSteps with
  | first :: next :: later, _ =>
      have isUnnamed : ¬ (terms.venueSymbol (Filler.reached terms nowMicros fill).ticker).isSome := by
        rwa [sameTicker]
      have begun : Filler.begin terms nowMicros (Filler.reached terms nowMicros fill)
          { run.filler with queue := run.filler.queue.erase fill } =
            Filler.launch terms nowMicros
              { Filler.reached terms nowMicros fill with
                history := some { history with pages := history.pages + 1, lastStep := false } }
              first (next :: later) { run.filler with queue := run.filler.queue.erase fill } := by
        unfold Filler.begin
        rw [isSteps]
        simp only [sameHistory, isHistory]
        rw [if_neg (by omega)]
        rfl
      rw [begun] at counted
      generalize isStarted : ({ Filler.reached terms nowMicros fill with
        history := some { history with pages := history.pages + 1, lastStep := false } } : Fill) =
          started at counted
      have startedPair : started.pair = fill.pair := by
        rw [← isStarted]
        exact samePair
      have queue := @queue_launch terms nowMicros first (next :: later) started
        { run.filler with queue := run.filler.queue.erase fill } (by rwa [startedPair])
      have still : history.pages + 1 = FillRun.pages _ (Filler.successor nowMicros started next).pair :=
        counted.queued (Filler.successor nowMicros started next)
          (by
            simp only [queue]
            exact List.mem_append_right _ List.mem_cons_self)
          { history with pages := history.pages + 1, lastStep := false }
          (by rw [← isStarted]; rfl)
      have landed : (Filler.launch terms nowMicros started first (next :: later)
          { run.filler with queue := run.filler.queue.erase fill }).1.inFlight = none := by
        unfold Filler.launch
        rw [if_neg (by rw [← isStarted]; exact isUnnamed)]
        exact nothing
      have said : (Filler.launch terms nowMicros started first (next :: later)
          { run.filler with queue := run.filler.queue.erase fill }).2 = [.unnamed started.pair] := by
        unfold Filler.launch
        rw [if_neg (by rw [← isStarted]; exact isUnnamed)]
      have succPair : (Filler.successor nowMicros started next).pair = fill.pair := startedPair
      simp only [FillRun.pages, landed, said, pagesInFlight_none, pagesTaken, succPair,
        List.singleton_append, List.countP_cons, Report.isPage, Bool.false_eq_true, if_false]
        at still
      rw [pagesTaken] at count
      omega

/-- **A history fill's count is its pages.**  In every run whose steps all meet the condition, each
chain's fill carries the number of its pages taken and in flight, and a chain is stopped at the
cap after exactly as many; and what happens next keeps the count just where it meets the condition
too. -/
theorem fill_count_is_pages (reaches : Reaches terms run) :
    run.Counted ∧ StopsAtCap terms.cap.toNat run.reports ∧
      ∀ op, (run.apply terms op).Counted ↔ run.Keeps terms op := by
  have sound := reaches.sound
  refine ⟨sound.counted, sound.stops, ?_⟩
  intro op
  constructor
  · intro counted
    cases op with
    | queue pair fromMicros dueMicros => exact trivial
    | start nowMicros => exact keeps_of_counted_start sound counted
    | returned result nowMicros =>
        cases result with
        | ok pageEnd => exact trivial
        | error failure => exact keeps_of_counted_failed sound counted
  · intro keeps
    exact (sound_apply sound keeps).counted

/-- Terms under which a page is five hundred bars. -/
def exampleTerms : FillTerms where
  paging _ := some ⟨500, .mostRecent⟩
  reachMicros _ _ := none
  venueSymbol _ := some []
  pauseMicros _ _ _ _ := 0
  cap := 10

/-- Six hundred minutes of one ticker's bars, asked for and started. -/
def startedRun : FillRun :=
  FillRun.apply exampleTerms
    ⟨Filler.fillHistory 36000000000 [((tesla, .candles, 60000000), ⟨60000000, 0, none, 0⟩)], []⟩
    (.start 36000000000)

/-- A chain of two steps carries one page while its first is in flight, and when it was taken. -/
theorem fill_count_is_pages_twoSteps :
    ((startedRun.apply exampleTerms (.returned (.ok none) 36000000001)).Counted ∧
      StopsAtCap 10 (startedRun.apply exampleTerms (.returned (.ok none) 36000000001)).reports) ∧
      (startedRun.apply exampleTerms (.returned (.ok none) 36000000001)).pages
        (tesla, .candles, 60000000) = 1 := by
  have reaches : Reaches exampleTerms
      (startedRun.apply exampleTerms (.returned (.ok none) 36000000001)) :=
    .step (.step (.boot _ _) (.start 36000000000) (fun _ _ _ _ _ _ _ _ => rfl)) _ trivial
  exact ⟨⟨(fill_count_is_pages reaches).1, (fill_count_is_pages reaches).2.1⟩, by decide +kernel⟩

/-- **A failed first step is still counted.**  The next step queued behind it carries the page that
never came. -/
theorem failed_page_counted :
    (startedRun.apply exampleTerms
        (.returned (.error ⟨false, none⟩) 36000000001)).filler.queue.map
          (fun fill => fill.history.map HistoryFill.pages) = [some 1] ∧
      (startedRun.apply exampleTerms (.returned (.error ⟨false, none⟩) 36000000001)).pages
        (tesla, .candles, 60000000) = 0 ∧
      ¬ (startedRun.apply exampleTerms (.returned (.error ⟨false, none⟩) 36000000001)).Counted := by
  have queue : (startedRun.apply exampleTerms
      (.returned (.error ⟨false, none⟩) 36000000001)).filler.queue =
        [⟨tesla, .candles, 60000000, 0, 36000000001, 1, some ⟨0, 1, false⟩⟩] := by
    decide +kernel
  have pages : (startedRun.apply exampleTerms
      (.returned (.error ⟨false, none⟩) 36000000001)).pages (tesla, .candles, 60000000) = 0 := by
    decide +kernel
  refine ⟨by rw [queue]; rfl, pages, ?_⟩
  intro counted
  have count := counted.queued ⟨tesla, .candles, 60000000, 0, 36000000001, 1, some ⟨0, 1, false⟩⟩
    (by rw [queue]; exact List.mem_cons_self) _ rfl
  cases count.trans pages

end Capture
end Datawatch
