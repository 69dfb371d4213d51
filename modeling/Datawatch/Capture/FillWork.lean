import Datawatch.Library.Transition
import Datawatch.Capture.FillCounts
import Datawatch.Capture.WalkBackward

/-!
# Fill work

What becomes of everything the fills were queued for: it was in a page taken, is in the request that
is out, is at or after the start of its pair's queued fill, or was let go by a step that names the
pair in an error.
-/

namespace Datawatch
namespace Capture

open Library Library.Transition Wire

/-- What a fill was queued for: everything of its pair from a moment to when it was queued. -/
structure Need where
  pair : FillKey
  fromMicros : Int
  queuedMicros : Int
deriving DecidableEq

/-- A range of a pair that a request is for, or a page taken was of. -/
structure FillRange where
  pair : FillKey
  fromMicros : Int
  toMicros : Int
deriving DecidableEq

/-- What a step let go while it named the pair in an error: a request's range, or everything from a
queued fill's start, of what the fills were queued for until then. -/
structure LetGo where
  pair : FillKey
  fromMicros : Int
  toMicros : Option Int
  needs : List Need
deriving DecidableEq

/-- The pair a report names in an error. -/
def Report.named : Report → Option FillKey
  | .reachedCap pair _ | .dropped pair => some pair
  | .took .. | .unnamed _ => none

namespace Filler

variable (terms : FillTerms) (nowMicros : Int)

/-- The fill a start takes out of the queue, where none is out and the pace allows. -/
def next (filler : Filler) : Option Fill :=
  if filler.inFlight.isSome ∨
      (filler.nextStartMicros.any fun startMicros => decide (nowMicros < startMicros)) then
    none
  else due nowMicros filler.queue

/-- The request a start sends: the first step of the fill it puts in flight. -/
def sends (before after : Filler) : Option FillRange :=
  match before.inFlight, after.inFlight with
  | none, some fill =>
      (steps terms nowMicros fill).head?.map fun first =>
        ⟨fill.pair, first.fromMicros, first.toMicros⟩
  | _, _ => none

end Filler

/-- The fills, the requests whose answers have not come back, and what became of the work so far. -/
structure FillWork where
  filler : Filler := {}
  out : List FillRange := []
  needs : List Need := []
  taken : List FillRange := []
  letGo : List LetGo := []
  /-- The latest reading of the clock. -/
  clockMicros : Int

/-- One thing that happens to the fills. -/
inductive FillMove
  /-- A gap's fill, a settle or a history fill is queued. -/
  | queued (fill : Fill) (nowMicros : Int)
  /-- The answer to the request that is out: a page, or a failure, which may be a throttle. -/
  | answered (result : FetchResult) (nowMicros : Int)
  | started (nowMicros : Int)

namespace FillWork

variable (terms : FillTerms)

/-- What a page holds of the range it was asked for: all of it, or up to where it is continued
from. -/
def pageOf (asked : FillRange) (pageEnd : Option PageEnd) : FillRange :=
  { asked with
    toMicros :=
      ((Filler.nextFrom terms asked.pair.2.1 pageEnd).map (min asked.toMicros)).getD
        asked.toMicros }

/-- The page an answer is, of the range that was asked for. -/
def pageTaken (asked : FillRange) : FetchResult → Option FillRange
  | .ok pageEnd => some (pageOf terms asked pageEnd)
  | .error _ => none

/-- What one thing that happens makes of the work.  There is no answer to no request. -/
def step (work : FillWork) : FillMove → Option FillWork
  | .queued fill nowMicros =>
      some { work with
        filler := work.filler.enqueue fill
        needs := ⟨fill.pair, fill.fromMicros, nowMicros⟩ :: work.needs
        clockMicros := max work.clockMicros nowMicros }
  | .answered result nowMicros =>
      match work.out with
      | [] => none
      | asked :: out =>
          let returned := Filler.fillReturned terms nowMicros result work.filler
          some { work with
            filler := returned.1
            out := out
            taken := (pageTaken terms asked result).toList ++ work.taken
            letGo :=
              if asked.pair ∈ returned.2.filterMap Report.named then
                ⟨asked.pair, asked.fromMicros, some asked.toMicros, work.needs⟩ :: work.letGo
              else work.letGo
            clockMicros := max work.clockMicros nowMicros }
  | .started nowMicros =>
      let begun := Filler.startDueFill terms nowMicros work.filler
      some { work with
        filler := begun.1
        out := work.out ++ (Filler.sends terms nowMicros work.filler begun.1).toList
        letGo :=
          ((work.filler.next nowMicros).filter fun fill =>
            fill.pair ∈ begun.2.filterMap Report.named).toList.map
              (fun fill => ⟨fill.pair, fill.fromMicros, none, work.needs⟩) ++ work.letGo
        clockMicros := max work.clockMicros nowMicros }

/-- Nothing was queued yet. -/
def start (nowMicros : Int) : FillWork := { clockMicros := nowMicros }

/-- A moment of what a fill was queued for is accounted for. -/
def Accounts (work : FillWork) (need : Need) (moment : Int) : Prop :=
  (∃ page ∈ work.taken, page.pair = need.pair ∧ page.fromMicros ≤ moment ∧
      moment < page.toMicros) ∨
    (∃ asked ∈ work.out, asked.pair = need.pair ∧ asked.fromMicros ≤ moment ∧
        moment < asked.toMicros) ∨
      (∃ fill ∈ work.filler.queue, fill.pair = need.pair ∧ fill.fromMicros ≤ moment) ∨
        ∃ letGo ∈ work.letGo, letGo.pair = need.pair ∧ need ∈ letGo.needs ∧
          letGo.fromMicros ≤ moment ∧ ∀ toMicros ∈ letGo.toMicros, moment < toMicros

/-- Whether the venue still holds a moment of a pair. -/
def StillHeld (work : FillWork) (pair : FillKey) (moment : Int) : Prop :=
  ∀ reach ∈ terms.reachMicros pair.2.1 pair.2.2, work.clockMicros - reach ≤ moment

/-- **Fill work is conserved**: what was queued for and the venue still holds is accounted for, one
fill is queued for each pair and one request out, and queueing neither raises a queued start nor
lowers its attempts. -/
structure Conserves (work : FillWork) : Prop where
  accounts : ∀ need ∈ work.needs, ∀ moment, need.fromMicros ≤ moment →
    moment < need.queuedMicros → work.StillHeld terms need.pair moment →
      work.Accounts need moment
  onePerPair : (work.filler.queue.map Fill.pair).Nodup
  oneOut : work.out.length ≤ 1
  merges : ∀ fill, ∀ queued ∈ work.filler.queue, ∃ kept ∈ (work.filler.enqueue fill).queue,
    kept.pair = queued.pair ∧ kept.fromMicros ≤ queued.fromMicros ∧
      queued.attempts ≤ kept.attempts

/-- Whether a fill that starts forgets nothing its pair was queued for.  A chain at the cap is named
in an error; a plan of no step, or of one that no next step follows, reaches when the pair's fills
were queued; and a fill that asks something has a symbol to ask for. -/
def KeepsStart (work : FillWork) (begun : Fill) : List Step → Prop
  | [] => ∀ need ∈ work.needs, need.pair = begun.pair → need.queuedMicros ≤ begun.fromMicros
  | first :: later =>
      (∃ history ∈ begun.history, terms.cap.toNat ≤ history.pages) ∨
        (terms.venueSymbol begun.ticker).isSome ∧
          (later = [] → ∀ need ∈ work.needs, need.pair = begun.pair →
            need.queuedMicros ≤ first.toMicros)

instance (work : FillWork) (begun : Fill) (steps : List Step) :
    Decidable (work.KeepsStart terms begun steps) :=
  match steps with
  | [] => inferInstanceAs (Decidable (∀ need ∈ work.needs, _))
  | _ :: _ => inferInstanceAs (Decidable (_ ∨ _))

/-- What conserves fill work, at one thing that happens. -/
def Keeps (work : FillWork) : FillMove → Prop
  | .queued .. | .answered .. => True
  | .started nowMicros => ∀ fill ∈ work.filler.next nowMicros,
      work.KeepsStart terms (Filler.reached terms nowMicros fill)
        (Filler.steps terms nowMicros (Filler.reached terms nowMicros fill))

instance (work : FillWork) (move : FillMove) : Decidable (work.Keeps terms move) :=
  match move with
  | .queued .. | .answered .. => isTrue trivial
  | .started _ => inferInstanceAs (Decidable (∀ fill ∈ _, _))

instance (work : FillWork) (need : Need) (moment : Int) :
    Decidable (work.Accounts need moment) :=
  inferInstanceAs (Decidable (_ ∨ _ ∨ _ ∨ _))

end FillWork

/-- A queued fill stays queued for its pair, from no later and with no fewer attempts. -/
theorem exists_kept_of_mem {queue : List Fill} (fill : Fill) {queued : Fill}
    (isQueued : queued ∈ queue) :
    ∃ kept ∈ mergeInto queue fill, kept.pair = queued.pair ∧
      kept.fromMicros ≤ queued.fromMicros ∧ queued.attempts ≤ kept.attempts := by
  induction queue with
  | nil => cases isQueued
  | cons head queue inductionHypothesis =>
      rw [mergeInto]
      by_cases same : head.pair = fill.pair
      · rw [if_pos same]
        rcases List.mem_cons.mp isQueued with rfl | isRest
        · exact ⟨_, List.mem_cons_self, rfl, min_le_left _ _, le_max_left _ _⟩
        · exact ⟨queued, List.mem_cons_of_mem _ isRest, rfl, le_rfl, le_rfl⟩
      · rw [if_neg same]
        rcases List.mem_cons.mp isQueued with rfl | isRest
        · exact ⟨_, List.mem_cons_self, rfl, le_rfl, le_rfl⟩
        · obtain ⟨kept, isKept, keeps⟩ := inductionHypothesis isRest
          exact ⟨kept, List.mem_cons_of_mem _ isKept, keeps⟩

/-- A fill is queued for its pair, from no later than it asks. -/
theorem exists_kept (queue : List Fill) (fill : Fill) :
    ∃ kept ∈ mergeInto queue fill, kept.pair = fill.pair ∧ kept.fromMicros ≤ fill.fromMicros := by
  induction queue with
  | nil => exact ⟨fill, List.mem_singleton.mpr rfl, rfl, le_rfl⟩
  | cons head queue inductionHypothesis =>
      rw [mergeInto]
      by_cases same : head.pair = fill.pair
      · rw [if_pos same]
        exact ⟨_, List.mem_cons_self, same, min_le_right _ _⟩
      · rw [if_neg same]
        obtain ⟨kept, isKept, keeps⟩ := inductionHypothesis
        exact ⟨kept, List.mem_cons_of_mem _ isKept, keeps⟩

/-- A plan begins where it is asked to, and its second step no later than its first one ends. -/
theorem plan_begins {walk : Walk} {series : Series} {fromMicros toMicros barMicros : Int}
    {first : Step} {later : List Step}
    (isPlan : walk.plan series fromMicros toMicros barMicros = first :: later) :
    first.fromMicros = fromMicros ∧ ∀ next ∈ later.head?, next.fromMicros ≤ first.toMicros := by
  simp only [Walk.plan] at isPlan
  split at isPlan
  · cases isPlan
  · split at isPlan
    · obtain ⟨rfl, rfl⟩ := List.cons.inj isPlan
      exact ⟨rfl, fun next isNext => by cases isNext⟩
    · split at isPlan
      · cases isPlan
      · rename_i ordered _ _
        cases isCap : walk.cap.toNat with
        | zero =>
            rw [isCap] at isPlan
            cases isPlan
        | succ left =>
            rw [isCap, stepsFrom_succ (not_le.mp ordered)] at isPlan
            obtain ⟨rfl, rfl⟩ := List.cons.inj isPlan
            refine ⟨rfl, ?_⟩
            intro next isNext
            have overlaps : (0 : Int) < overlapMicros := by decide
            split at isNext
            · cases isNext
            · cases left with
              | zero => cases isNext
              | succ left =>
                  rw [Walk.stepsFrom] at isNext
                  split at isNext
                  · obtain rfl := Option.some.inj isNext
                    simp only
                    omega
                  · cases isNext

/-! ## One step of the filler -/

namespace Filler

variable {terms : FillTerms} {nowMicros : Int} {filler : Filler}

/-- Where a fill has to go on from, after an answer to its request: past the last row of a full
page, or from where it was asked. -/
def resumes (terms : FillTerms) (fill : Fill) : FetchResult → Option Int
  | .ok pageEnd => nextFrom terms fill.series pageEnd
  | .error _ => some fill.fromMicros

/-- **An answer lands its fill**: what is queued stays so, and the fill goes on from where it has
to, or its pair is named. -/
theorem fillReturned_spec {fill : Fill} (isFlying : filler.inFlight = some fill)
    (onePerPair : (filler.queue.map Fill.pair).Nodup) (result : FetchResult) :
    let returned := fillReturned terms nowMicros result filler
    returned.1.inFlight = none ∧ (returned.1.queue.map Fill.pair).Nodup ∧
      (∀ queued ∈ filler.queue, ∃ kept ∈ returned.1.queue, kept.pair = queued.pair ∧
        kept.fromMicros ≤ queued.fromMicros) ∧
      ∀ fromMicros ∈ resumes terms fill result,
        fill.pair ∈ returned.2.filterMap Report.named ∨
          ∃ kept ∈ returned.1.queue, kept.pair = fill.pair ∧ kept.fromMicros ≤ fromMicros := by
  have same : ∀ queued ∈ filler.queue, ∃ kept ∈ filler.queue, kept.pair = queued.pair ∧
      kept.fromMicros ≤ queued.fromMicros := fun queued isQueued => ⟨queued, isQueued, rfl, le_rfl⟩
  have merged (other : Fill) : ∀ queued ∈ filler.queue, ∃ kept ∈ mergeInto filler.queue other,
      kept.pair = queued.pair ∧ kept.fromMicros ≤ queued.fromMicros := by
    intro queued isQueued
    obtain ⟨kept, isKept, isPair, starts, _⟩ := exists_kept_of_mem other isQueued
    exact ⟨kept, isKept, isPair, starts⟩
  simp only [fillReturned, isFlying]
  cases result with
  | ok pageEnd =>
      simp only [pageReturned, resumes]
      cases isNext : nextFrom terms fill.series pageEnd with
      | none => exact ⟨rfl, onePerPair, same, fun fromMicros isFrom => by cases isFrom⟩
      | some fromMicros =>
          simp only
          split
          · refine ⟨rfl, onePerPair, same, ?_⟩
            exact fun _ _ => .inl (by simp [Report.named])
          · refine ⟨rfl, nodup_mergeInto onePerPair _, merged _, ?_⟩
            intro other isOther
            obtain rfl := Option.some.inj isOther
            exact .inr (exists_kept filler.queue
              { fill with fromMicros := fromMicros, dueMicros := nowMicros, attempts := 0 })
  | error failure =>
      have held : (holdOff nowMicros failure { filler with inFlight := none }).queue =
          filler.queue ∧ (holdOff nowMicros failure { filler with inFlight := none }).inFlight =
            none := by
        unfold holdOff
        split
        · exact ⟨rfl, rfl⟩
        · exact ⟨rfl, rfl⟩
      simp only [requestFailed, resumes]
      split
      · rw [held.1, held.2]
        refine ⟨rfl, onePerPair, same, ?_⟩
        exact fun _ _ => .inl (by simp [Report.named])
      · simp only [enqueue, held.1, held.2]
        refine ⟨trivial, nodup_mergeInto onePerPair _, merged _, ?_⟩
        intro other isOther
        obtain rfl := Option.some.inj isOther
        obtain ⟨kept, isKept, isPair, starts⟩ := exists_kept filler.queue
          { fill with
            attempts := fill.attempts + 1
            dueMicros :=
              if failure.throttled then nowMicros + failure.waitSecs * 1000000 else nowMicros
            history := fill.history.map fun history => { history with pages := history.pages - 1 } }
        exact .inr ⟨kept, isKept, isPair, starts⟩

/-- A start takes the next fill out of the queue and begins it, or does nothing. -/
theorem startDueFill_eq (filler : Filler) :
    startDueFill terms nowMicros filler =
      match filler.next nowMicros with
      | none => (filler, [])
      | some fill =>
          begin terms nowMicros (reached terms nowMicros fill)
            { filler with queue := filler.queue.erase fill } := by
  unfold startDueFill
  by_cases flying : filler.inFlight.isSome
  · have isNext : filler.next nowMicros = none := if_pos (.inl flying)
    rw [if_pos flying, isNext]
  · rw [if_neg flying]
    by_cases paced : filler.nextStartMicros.any fun next => decide (nowMicros < next)
    · have isNext : filler.next nowMicros = none := if_pos (.inr paced)
      rw [if_pos paced, isNext]
    · have isNext : filler.next nowMicros = due nowMicros filler.queue :=
        if_neg (not_or.mpr ⟨flying, paced⟩)
      rw [isNext]
      exact if_neg paced

/-- The fill a start takes is queued, with none out. -/
theorem of_next {fill : Fill} (isNext : filler.next nowMicros = some fill) :
    fill ∈ filler.queue ∧ filler.inFlight = none := by
  unfold next at isNext
  split at isNext
  · cases isNext
  · rename_i free
    exact ⟨mem_of_due isNext, Option.not_isSome_iff_eq_none.mp (not_or.mp free).1⟩

/-- A chain at the cap is named, and asks nothing. -/
theorem begin_of_atCap {fill : Fill} {first : Step} {later : List Step} {history : HistoryFill}
    (isSteps : steps terms nowMicros fill = first :: later)
    (isHistory : fill.history = some history) (atCap : terms.cap.toNat ≤ history.pages) :
    begin terms nowMicros fill filler = (filler, [.reachedCap fill.pair history.pages]) := by
  unfold begin
  rw [isSteps]
  simp only [isHistory]
  rw [if_pos atCap]

/-- **A fill that begins asks its first step**, its next one queued behind it. -/
theorem begin_spec {fill : Fill} {first : Step} {later : List Step}
    (isSteps : steps terms nowMicros fill = first :: later)
    (below : ∀ history ∈ fill.history, history.pages < terms.cap.toNat)
    (symbol : (terms.venueSymbol fill.ticker).isSome)
    (apart : fill.pair ∉ filler.queue.map Fill.pair) :
    ∃ flying, flying.pair = fill.pair ∧ flying.fromMicros = fill.fromMicros ∧
      steps terms nowMicros flying = first :: later ∧
      (begin terms nowMicros fill filler).1.inFlight = some flying ∧
      (begin terms nowMicros fill filler).1.queue =
        filler.queue ++ (later.head?.map (successor nowMicros flying)).toList := by
  have launches (flying : Fill) (samePair : flying.pair = fill.pair)
      (named : (terms.venueSymbol flying.ticker).isSome) :
      (launch terms nowMicros flying first later filler).1.inFlight = some flying ∧
        (launch terms nowMicros flying first later filler).1.queue =
          filler.queue ++ (later.head?.map (successor nowMicros flying)).toList := by
    refine ⟨?_, queue_launch first later filler (samePair ▸ apart)⟩
    unfold launch
    rw [if_pos named]
  unfold begin
  rw [isSteps]
  cases isHistory : fill.history with
  | none =>
      obtain ⟨flies, queues⟩ := launches fill rfl symbol
      exact ⟨fill, rfl, rfl, isSteps, flies, queues⟩
  | some history =>
      simp only [if_neg (not_le.mpr (below history isHistory))]
      let counted : Fill :=
        { fill with
          history := some
            { history with pages := history.pages + 1, lastStep := decide (later = []) } }
      obtain ⟨flies, queues⟩ := launches counted rfl symbol
      exact ⟨counted, rfl, rfl, isSteps, flies, queues⟩

/-- What is left out where a fill starts later than it was queued from, the venue holds no more. -/
theorem le_of_reached {fill : Fill} {moment clockMicros : Int} (isLater : nowMicros ≤ clockMicros)
    (queuedFrom : fill.fromMicros ≤ moment)
    (held : ∀ reach ∈ terms.reachMicros fill.series fill.intervalMicros,
      clockMicros - reach ≤ moment) :
    (reached terms nowMicros fill).fromMicros ≤ moment := by
  unfold reached
  split
  · split
    · rename_i reach isReach
      have holds := held reach isReach
      simp only [max_le_iff]
      omega
    · exact queuedFrom
  · exact queuedFrom

end Filler

namespace FillWork

variable {terms : FillTerms} {work next : FillWork}

/-- The one request out is the flying fill's, from where the fill starts, and what the fills were
queued for is accounted for. -/
structure Sound (terms : FillTerms) (work : FillWork) : Prop where
  onePerPair : (work.filler.queue.map Fill.pair).Nodup
  idle : work.filler.inFlight = none → work.out = []
  flying : ∀ fill, work.filler.inFlight = some fill → ∃ asked, work.out = [asked] ∧
    asked.pair = fill.pair ∧ asked.fromMicros = fill.fromMicros
  accounts : ∀ need ∈ work.needs, ∀ moment, need.fromMicros ≤ moment →
    moment < need.queuedMicros → work.StillHeld terms need.pair moment →
      work.Accounts need moment

theorem sound_start (nowMicros : Int) : Sound terms (start nowMicros) where
  onePerPair := List.nodup_nil
  idle _ := rfl
  flying := by
    intro fill isFlying
    cases isFlying
  accounts := by
    intro need isNeed
    cases isNeed

/-- What the invariant makes of fill work. -/
theorem Sound.conserves (sound : Sound terms work) : work.Conserves terms where
  accounts := sound.accounts
  onePerPair := sound.onePerPair
  oneOut := by
    cases isFlying : work.filler.inFlight with
    | none =>
        rw [sound.idle isFlying]
        exact Nat.zero_le 1
    | some fill =>
        obtain ⟨asked, isOut, _⟩ := sound.flying fill isFlying
        rw [isOut]
        exact le_rfl
  merges fill queued isQueued := exists_kept_of_mem fill isQueued

/-- What is accounted for stays so, where what was out and what was queued is accounted for. -/
theorem Accounts.onward {need : Need} {moment : Int} (accounts : work.Accounts need moment)
    (taken : ∀ page ∈ work.taken, page ∈ next.taken)
    (letGo : ∀ range ∈ work.letGo, range ∈ next.letGo)
    (out : ∀ asked ∈ work.out, asked.pair = need.pair → asked.fromMicros ≤ moment →
      moment < asked.toMicros → next.Accounts need moment)
    (queued : ∀ fill ∈ work.filler.queue, fill.pair = need.pair → fill.fromMicros ≤ moment →
      next.Accounts need moment) : next.Accounts need moment := by
  rcases accounts with ⟨page, isPage, within⟩ | ⟨asked, isOut, isPair, starts, ends⟩ |
    ⟨fill, isQueued, isPair, starts⟩ | ⟨range, isRange, within⟩
  · exact .inl ⟨page, taken page isPage, within⟩
  · exact out asked isOut isPair starts ends
  · exact queued fill isQueued isPair starts
  · exact .inr (.inr (.inr ⟨range, letGo range isRange, within⟩))

/-- The venue holds no more as the clock goes on. -/
theorem StillHeld.of_later {pair : FillKey} {moment : Int} (held : next.StillHeld terms pair moment)
    (later : work.clockMicros ≤ next.clockMicros) : work.StillHeld terms pair moment := by
  intro reach isReach
  have holds := held reach isReach
  omega

/-- What is queued is accounted for by the fill it is merged into. -/
theorem sound_queued (sound : Sound terms work) (fill : Fill) (nowMicros : Int)
    (isStep : work.step terms (.queued fill nowMicros) = some next) : Sound terms next := by
  obtain rfl := Option.some.inj isStep
  refine
    { onePerPair := nodup_mergeInto sound.onePerPair fill
      idle := sound.idle
      flying := sound.flying
      accounts := ?_ }
  intro need isNeed moment starts ends held
  rcases List.mem_cons.mp isNeed with rfl | isOld
  · obtain ⟨kept, isKept, isPair, before⟩ := exists_kept work.filler.queue fill
    exact .inr (.inr (.inl ⟨kept, isKept, isPair, before.trans starts⟩))
  · have accounts := sound.accounts need isOld moment starts ends (held.of_later (le_max_left _ _))
    refine accounts.onward (fun _ isPage => isPage) (fun _ isRange => isRange) ?_ ?_
    · intro asked isOut isPair asksFrom asksTo
      exact .inr (.inl ⟨asked, isOut, isPair, asksFrom, asksTo⟩)
    · intro queued isQueued isPair before
      obtain ⟨kept, isKept, samePair, noLater, _⟩ := exists_kept_of_mem fill isQueued
      exact .inr (.inr (.inl ⟨kept, isKept, samePair.trans isPair, noLater.trans before⟩))

/-- What was asked is in the page taken, or goes on from where the fill has to. -/
theorem taken_or_resumes {asked : FillRange} {fill : Fill} (isPair : asked.pair = fill.pair)
    (isFrom : asked.fromMicros = fill.fromMicros) (result : FetchResult) {moment : Int}
    (starts : asked.fromMicros ≤ moment) (ends : moment < asked.toMicros) :
    (∃ page, pageTaken terms asked result = some page ∧ page.pair = asked.pair ∧
        page.fromMicros ≤ moment ∧ moment < page.toMicros) ∨
      ∃ fromMicros, Filler.resumes terms fill result = some fromMicros ∧ fromMicros ≤ moment := by
  cases result with
  | error failure => exact .inr ⟨fill.fromMicros, rfl, isFrom ▸ starts⟩
  | ok pageEnd =>
      have sameSeries : asked.pair.2.1 = fill.series := by rw [isPair, Fill.pair]
      simp only [Filler.resumes]
      cases isNext : Filler.nextFrom terms fill.series pageEnd with
      | none =>
          refine .inl ⟨_, rfl, rfl, starts, ?_⟩
          simp only [pageOf, sameSeries, isNext, Option.map_none, Option.getD_none]
          exact ends
      | some fromMicros =>
          by_cases isTaken : moment < fromMicros
          · refine .inl ⟨_, rfl, rfl, starts, ?_⟩
            simp only [pageOf, sameSeries, isNext, Option.map_some, Option.getD_some]
            exact lt_min ends isTaken
          · exact .inr ⟨fromMicros, rfl, not_lt.mp isTaken⟩

/-- **An answer keeps the account**: what was asked is taken, is asked again, or is let go by
name. -/
theorem sound_answered (sound : Sound terms work) (result : FetchResult) (nowMicros : Int)
    (isStep : work.step terms (.answered result nowMicros) = some next) : Sound terms next := by
  cases isFlying : work.filler.inFlight with
  | none =>
      simp only [step, sound.idle isFlying] at isStep
      cases isStep
  | some fill =>
      obtain ⟨asked, isOut, isPair, isFrom⟩ := sound.flying fill isFlying
      obtain ⟨lands, onePerPair, keeps, goesOn⟩ :=
        @Filler.fillReturned_spec terms nowMicros _ _ isFlying sound.onePerPair result
      simp only [step, isOut] at isStep
      obtain rfl := Option.some.inj isStep
      refine
        { onePerPair := onePerPair
          idle := fun _ => rfl
          flying := ?_
          accounts := ?_ }
      · intro other isOther
        rw [lands] at isOther
        cases isOther
      · intro need isNeed moment starts ends held
        have accounts :=
          sound.accounts need isNeed moment starts ends (held.of_later (le_max_left _ _))
        refine accounts.onward (fun _ isPage => List.mem_append_right _ isPage) ?_ ?_ ?_
        · intro range isRange
          simp only
          split
          · exact List.mem_cons_of_mem _ isRange
          · exact isRange
        · intro other isOther samePair asksFrom asksTo
          rw [isOut, List.mem_singleton] at isOther
          subst isOther
          rcases @taken_or_resumes terms _ _ isPair isFrom result _ asksFrom asksTo with
            ⟨page, isPage, pagePair, within⟩ | ⟨fromMicros, resumes, before⟩
          · refine .inl ⟨page, List.mem_append_left _ ?_, pagePair.trans samePair, within⟩
            exact Option.mem_toList.mpr isPage
          · rcases goesOn fromMicros resumes with named | ⟨kept, isKept, keptPair, noLater⟩
            · refine .inr (.inr (.inr
                ⟨⟨other.pair, other.fromMicros, some other.toMicros, work.needs⟩, ?_, samePair,
                  isNeed, asksFrom, ?_⟩))
              · simp only [if_pos (isPair ▸ named)]
                exact List.mem_cons_self
              · intro toMicros isTo
                obtain rfl := Option.some.inj isTo
                exact asksTo
            · refine .inr (.inr (.inl ⟨kept, isKept, ?_, noLater.trans before⟩))
              rw [keptPair, ← isPair, samePair]
        · intro queued isQueued samePair before
          obtain ⟨kept, isKept, keptPair, noLater⟩ := keeps queued isQueued
          exact .inr (.inr (.inl ⟨kept, isKept, keptPair.trans samePair, noLater.trans before⟩))

/-- What is accounted for stays so where one fill is taken out of the queue and what its pair was
queued for is accounted for. -/
theorem Sound.accounts_of_taken (sound : Sound terms work) (fill : Fill)
    (nothingOut : work.out = []) (needs : next.needs = work.needs) (taken : next.taken = work.taken)
    (letGo : ∀ range ∈ work.letGo, range ∈ next.letGo)
    (later : work.clockMicros ≤ next.clockMicros)
    (kept : ∀ queued ∈ work.filler.queue.erase fill, queued ∈ next.filler.queue)
    (own : ∀ need ∈ work.needs, need.pair = fill.pair → ∀ moment, fill.fromMicros ≤ moment →
      moment < need.queuedMicros → next.StillHeld terms fill.pair moment →
        next.Accounts need moment) :
    ∀ need ∈ next.needs, ∀ moment, need.fromMicros ≤ moment → moment < need.queuedMicros →
      next.StillHeld terms need.pair moment → next.Accounts need moment := by
  intro need isNeed moment starts ends held
  rw [needs] at isNeed
  have accounts := sound.accounts need isNeed moment starts ends (held.of_later later)
  refine accounts.onward (fun _ isPage => taken ▸ isPage) letGo ?_ ?_
  · intro asked isOut
    rw [nothingOut] at isOut
    cases isOut
  · intro queued isQueued isPair before
    by_cases same : queued = fill
    · rw [same] at isPair before
      rw [← isPair] at held
      exact own need isNeed isPair.symm moment before ends held
    · have stays := kept queued ((List.mem_erase_of_ne same).mpr isQueued)
      exact .inr (.inr (.inl ⟨queued, stays, isPair, before⟩))

/-- The work after a start took a fill out of the queue. -/
def afterStart (terms : FillTerms) (work : FillWork) (nowMicros : Int) (fill : Fill)
    (begun : Filler × List Report) : FillWork :=
  { work with
    filler := begun.1
    out := work.out ++ (Filler.sends terms nowMicros work.filler begun.1).toList
    letGo :=
      if fill.pair ∈ begun.2.filterMap Report.named then
        ⟨fill.pair, fill.fromMicros, none, work.needs⟩ :: work.letGo
      else work.letGo
    clockMicros := max work.clockMicros nowMicros }

/-- A start takes the next fill, and begins it as far as the venue reaches. -/
theorem step_started_of_next {nowMicros : Int} {fill : Fill}
    (isNext : work.filler.next nowMicros = some fill) :
    work.step terms (.started nowMicros) =
      some (work.afterStart terms nowMicros fill
        (Filler.begin terms nowMicros (Filler.reached terms nowMicros fill)
          { work.filler with queue := work.filler.queue.erase fill })) := by
  simp only [step, Filler.startDueFill_eq, isNext, afterStart, Option.filter_some]
  split
  · rename_i isNamed
    rw [if_pos (decide_eq_true_eq.mp isNamed)]
    rfl
  · rename_i isNamed
    rw [if_neg (fun named => isNamed (decide_eq_true_eq.mpr named))]
    rfl

/-- A start that begins nothing loses nothing where its fill was let go by name, or reaches when its
pair's fills were queued. -/
theorem sound_afterStart_unbegun (sound : Sound terms work) {nowMicros : Int} {fill : Fill}
    (free : work.filler.inFlight = none) (reports : List Report)
    (letGo : fill.pair ∈ reports.filterMap Report.named ∨
      ∀ need ∈ work.needs, need.pair = fill.pair →
        need.queuedMicros ≤ (Filler.reached terms nowMicros fill).fromMicros) :
    Sound terms (work.afterStart terms nowMicros fill
      ({ work.filler with queue := work.filler.queue.erase fill }, reports)) := by
  have nothingOut := sound.idle free
  have sendsNone : Filler.sends terms nowMicros work.filler
      { work.filler with queue := work.filler.queue.erase fill } = none := by
    simp only [Filler.sends, free]
  have isOut : (work.afterStart terms nowMicros fill
      ({ work.filler with queue := work.filler.queue.erase fill }, reports)).out = [] := by
    simp only [afterStart, sendsNone, nothingOut, Option.toList_none, List.append_nil]
  refine
    { onePerPair := sound.onePerPair.sublist (List.erase_sublist.map Fill.pair)
      idle := fun _ => isOut
      flying := ?_
      accounts := sound.accounts_of_taken fill nothingOut rfl rfl ?_ (le_max_left _ _)
        (fun _ isQueued => isQueued) ?_ }
  · intro other isFlying
    cases free.symm.trans isFlying
  · intro range isRange
    simp only [afterStart]
    split
    · exact List.mem_cons_of_mem _ isRange
    · exact isRange
  · intro need isNeed isPair moment starts ends held
    rcases letGo with isNamed | reaches
    · refine .inr (.inr (.inr
        ⟨⟨fill.pair, fill.fromMicros, none, work.needs⟩, ?_, isPair.symm, isNeed, starts, ?_⟩))
      · simp only [afterStart, if_pos isNamed]
        exact List.mem_cons_self
      · intro toMicros isTo
        cases isTo
    · have after := Filler.le_of_reached (le_max_right work.clockMicros nowMicros) starts held
      have before := reaches need isNeed isPair
      omega

/-- A start that begins its fill accounts for it by what it asks and what it queues behind. -/
theorem sound_afterStart_begun (sound : Sound terms work) {nowMicros : Int} {fill flying : Fill}
    {first : Step} {later : List Step} {begun : Filler × List Report}
    (free : work.filler.inFlight = none) (isQueued : fill ∈ work.filler.queue)
    (isSteps : Filler.steps terms nowMicros flying = first :: later)
    (samePair : flying.pair = fill.pair)
    (sameFrom : flying.fromMicros = (Filler.reached terms nowMicros fill).fromMicros)
    (flies : begun.1.inFlight = some flying)
    (queues : begun.1.queue = work.filler.queue.erase fill ++
      (later.head?.map (Filler.successor nowMicros flying)).toList)
    (reaches : later = [] → ∀ need ∈ work.needs, need.pair = fill.pair →
      need.queuedMicros ≤ first.toMicros) :
    Sound terms (work.afterStart terms nowMicros fill begun) := by
  have nothingOut := sound.idle free
  have begins : first.fromMicros = flying.fromMicros ∧
      ∀ next ∈ later.head?, next.fromMicros ≤ first.toMicros := plan_begins isSteps
  have isOut : (work.afterStart terms nowMicros fill begun).out =
      [⟨flying.pair, first.fromMicros, first.toMicros⟩] := by
    simp only [afterStart, Filler.sends, free, flies, isSteps, nothingOut, List.head?_cons,
      Option.map_some, Option.toList_some, List.nil_append]
  have apart := pair_not_mem_erase sound.onePerPair isQueued
  have rest : ((work.filler.queue.erase fill).map Fill.pair).Nodup :=
    sound.onePerPair.sublist (List.erase_sublist.map Fill.pair)
  refine
    { onePerPair := ?_
      idle := ?_
      flying := ?_
      accounts := sound.accounts_of_taken fill nothingOut rfl rfl ?_ (le_max_left _ _) ?_ ?_ }
  · show (begun.1.queue.map Fill.pair).Nodup
    rw [queues]
    cases later with
    | nil => simpa using rest
    | cons next later =>
        rw [List.head?_cons, Option.map_some, Option.toList_some, List.map_append,
          List.map_singleton]
        refine List.nodup_append.mpr ⟨rest, List.nodup_singleton _, ?_⟩
        intro pair isOld other isNew same
        rw [List.mem_singleton.mp isNew] at same
        exact apart (samePair ▸ same ▸ isOld)
  · intro idle
    cases flies.symm.trans idle
  · intro other isFlying
    obtain rfl : flying = other := Option.some.inj (flies.symm.trans isFlying)
    exact ⟨_, isOut, rfl, begins.1⟩
  · intro range isRange
    simp only [afterStart]
    split
    · exact List.mem_cons_of_mem _ isRange
    · exact isRange
  · intro queued isRest
    show queued ∈ begun.1.queue
    rw [queues]
    exact List.mem_append_left _ isRest
  · intro need isNeed isPair moment starts ends held
    have after : flying.fromMicros ≤ moment := by
      rw [sameFrom]
      exact Filler.le_of_reached (le_max_right work.clockMicros nowMicros) starts held
    by_cases isAsked : moment < first.toMicros
    · refine .inr (.inl
        ⟨⟨flying.pair, first.fromMicros, first.toMicros⟩, ?_, samePair.trans isPair.symm, ?_,
          isAsked⟩)
      · rw [isOut]
        exact List.mem_singleton.mpr rfl
      · rw [begins.1]
        exact after
    · cases later with
      | nil =>
          have before := reaches rfl need isNeed isPair
          omega
      | cons next later =>
          refine .inr (.inr (.inl ⟨Filler.successor nowMicros flying next, ?_,
            samePair.trans isPair.symm, ?_⟩))
          · show _ ∈ begun.1.queue
            rw [queues]
            exact List.mem_append_right _ (List.mem_singleton.mpr rfl)
          · have overlaps := begins.2 next rfl
            simp only [Filler.successor]
            omega

/-- **A start keeps the account**, where it forgets nothing. -/
theorem sound_started (sound : Sound terms work) (nowMicros : Int)
    (keeps : work.Keeps terms (.started nowMicros))
    (isStep : work.step terms (.started nowMicros) = some next) : Sound terms next := by
  cases isNext : work.filler.next nowMicros with
  | none =>
      have sendsNone : Filler.sends terms nowMicros work.filler work.filler = none := by
        unfold Filler.sends
        cases work.filler.inFlight with
        | none => rfl
        | some fill => rfl
      simp only [step, Filler.startDueFill_eq, isNext, sendsNone, Option.toList_none,
        List.append_nil, Option.filter_none, List.map_nil, List.nil_append] at isStep
      obtain rfl := Option.some.inj isStep
      exact
        { onePerPair := sound.onePerPair
          idle := sound.idle
          flying := sound.flying
          accounts := fun need isNeed moment starts ends held =>
            sound.accounts need isNeed moment starts ends (held.of_later (le_max_left _ _)) }
  | some fill =>
      rw [step_started_of_next isNext] at isStep
      obtain rfl := Option.some.inj isStep
      obtain ⟨isQueued, free⟩ := Filler.of_next isNext
      obtain ⟨samePair, _, sameTicker⟩ := @reached_pair terms nowMicros fill
      have keepsStart := keeps fill isNext
      cases isSteps : Filler.steps terms nowMicros (Filler.reached terms nowMicros fill) with
      | nil =>
          rw [isSteps] at keepsStart
          have unbegun : Filler.begin terms nowMicros (Filler.reached terms nowMicros fill)
              { work.filler with queue := work.filler.queue.erase fill } =
                ({ work.filler with queue := work.filler.queue.erase fill }, []) := by
            unfold Filler.begin
            rw [isSteps]
          rw [unbegun]
          refine sound_afterStart_unbegun sound free [] (.inr ?_)
          rw [← samePair]
          exact keepsStart
      | cons first later =>
          rw [isSteps] at keepsStart
          by_cases capped : ∃ history ∈ (Filler.reached terms nowMicros fill).history,
              terms.cap.toNat ≤ history.pages
          · obtain ⟨history, isHistory, atCap⟩ := capped
            rw [Filler.begin_of_atCap isSteps isHistory atCap]
            refine sound_afterStart_unbegun sound free _ (.inl ?_)
            rw [← samePair]
            exact List.mem_singleton.mpr rfl
          · obtain ⟨symbol, reaches⟩ := keepsStart.resolve_left capped
            have apart := pair_not_mem_erase sound.onePerPair isQueued
            rw [← samePair] at apart
            obtain ⟨flying, flyingPair, sameFrom, flyingSteps, flies, queues⟩ :=
              @Filler.begin_spec terms nowMicros
                { work.filler with queue := work.filler.queue.erase fill } _ _ _ isSteps
                (fun history isHistory => not_le.mp fun atCap => capped ⟨history, isHistory, atCap⟩)
                symbol apart
            refine sound_afterStart_begun sound free isQueued flyingSteps
              (flyingPair.trans samePair) sameFrom flies queues ?_
            rw [← samePair]
            exact reaches

theorem sound_step (work : FillWork) (move : FillMove) (next : FillWork) (sound : Sound terms work)
    (keeps : work.Keeps terms move) (isStep : work.step terms move = some next) :
    Sound terms next := by
  cases move with
  | queued fill nowMicros => exact sound_queued sound fill nowMicros isStep
  | answered result nowMicros => exact sound_answered sound result nowMicros isStep
  | started nowMicros => exact sound_started sound nowMicros keeps isStep

/-- **Fill work is conserved** in every run whose starts forget nothing. -/
theorem fill_work_conserved (terms : FillTerms) (nowMicros : Int) (moves : List FillMove)
    (reached : FillWork) (keeps : Guarded (step terms) (Keeps terms) moves (start nowMicros))
    (run : exec (step terms) moves (start nowMicros) = some reached) : reached.Conserves terms :=
  (invariant_of_guarded sound_step (sound_start nowMicros) keeps run).conserves

/-- Ten hours of one ticker's bars. -/
def tenHours : Fill := ⟨tesla, .candles, 60000000, 0, 36000000000, 0, none⟩

/-- Ten hours are asked for in two steps, and the first one's request fails once. -/
def refusedOnce : List FillMove :=
  [.queued tenHours 36000000000, .started 36000000000,
    .answered (.error ⟨true, some 5⟩) 36000000001, .started 36005000001,
    .answered (.ok (some ⟨500, 29940000000⟩)) 36005000002]

/-- The first page is taken, and the rest of the ten hours is queued. -/
theorem fill_work_conserved_refused :
    ((exec (step exampleTerms) refusedOnce (start 36000000000)).getD (start 0)).Conserves
      exampleTerms := by
  apply fill_work_conserved exampleTerms 36000000000 refusedOnce
  · decide +kernel
  · rfl

/-- **A cap of one forgets what one page does not hold**, and no error says so. -/
theorem capped_plan_forgets :
    ¬ ∀ (terms : FillTerms) (nowMicros : Int) (moves : List FillMove) (reached : FillWork),
      exec (step terms) moves (start nowMicros) = some reached → reached.Conserves terms := by
  intro conserved
  have conserves := conserved { exampleTerms with cap := 1 } 36000000000
    [.queued tenHours 36000000000, .started 36000000000, .answered (.ok none) 36000000001] _ rfl
  have accounts := conserves.accounts ⟨tenHours.pair, 0, 36000000000⟩ List.mem_cons_self
    33000000000 (by decide) (by decide) (by intro reach isReach; cases isReach)
  revert accounts
  decide +kernel

end FillWork

end Capture
end Datawatch
