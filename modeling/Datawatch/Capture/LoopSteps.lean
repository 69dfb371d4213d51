import Datawatch.Capture.Loop
import Datawatch.Capture.UnreachingPages

/-!
# Steps of the live loop

What one thing that happens to the loop does to one pair: its ledger, the gaps handed to the record,
and whether the session's loop is left or the pair asked for.
-/

namespace Datawatch
namespace Capture

open Library Wire Record Ingest

namespace Coverage

/-- Pairs established at a moment are covered to it. -/
theorem entry_establish (coverage : Coverage) (declared : List Pair) (atMicros : Int)
    (pair : Pair) :
    (coverage.establish declared atMicros).entry pair =
      if pair ∈ declared then (Touch.covered atMicros).apply (coverage.entry pair)
      else coverage.entry pair :=
  entry_foldl_received declared atMicros coverage pair

/-- A loss changes a pair's ledger once, however often it names the pair. -/
theorem entry_gapsFor (coverage : Coverage) (pairs : List Pair) (toMicros : Int) (cause : GapCause)
    (pair : Pair) :
    (coverage.gapsFor pairs toMicros cause).1.entry pair =
      if pair ∈ pairs then (Touch.lost toMicros cause).apply (coverage.entry pair)
      else coverage.entry pair := by
  have noted := lookup_noteGapped_filterMap (@pairOf_of_gapOf coverage toMicros cause) coverage
    pairs true pair
  change ((coverage.noteGapped (pairs.filterMap _) true).pairs.lookup pair).getD {} = _
  rw [noted, gapOf_eq]
  unfold entry
  by_cases named : pair ∈ pairs
  · rw [if_pos named, if_pos named]
    cases coverage.pairs.lookup pair with
    | none => rfl
    | some ledger =>
        simp only [Option.map_some, Option.getD_some, Touch.apply]
        cases (Touch.lost toMicros cause).gap ledger with
        | none => rfl
        | some interval => rfl
  · rw [if_neg named, if_neg named]
    cases coverage.pairs.lookup pair with
    | none => rfl
    | some ledger => rfl

/-- A loss hands over the gap it dates of a pair it names. -/
theorem mem_gapsFor (coverage : Coverage) {pairs : List Pair} {toMicros : Int} {cause : GapCause}
    {pair : Pair} (named : pair ∈ pairs) :
    ∀ gap ∈ (Touch.lost toMicros cause).gap (coverage.entry pair),
      gap ∈ gapsOf pair (coverage.gapsFor pairs toMicros cause).2 := by
  intro gap isGap
  rw [mem_gapsOf]
  refine ⟨(pair.1, ⟨pair.2, gap.1, toMicros, cause, coverage.clipped, none⟩), ?_, ⟨rfl, rfl⟩, ?_⟩
  · refine List.mem_filterMap.mpr ⟨pair, named, ?_⟩
    rw [gapOf_eq, Option.mem_def.mp isGap]
    rfl
  · rw [← Touch.gap_lost_snd isGap]

/-- Asking again hands over the tail it dates of a pair it names. -/
theorem mem_askedAgain (coverage : Coverage) {pairs : List Pair} {atMicros : Int} {pair : Pair}
    (named : pair ∈ pairs) :
    ∀ gap ∈ (Touch.asked atMicros).gap (coverage.entry pair),
      gap ∈ gapsOf pair (coverage.askedAgain pairs atMicros).2 := by
  intro gap isGap
  obtain ⟨gapped, isGapped⟩ := Touch.exists_gapped_of_asked isGap
  rw [mem_gapsOf]
  refine ⟨(pair.1, ⟨pair.2, gap.1, atMicros, gapped.cause, coverage.clipped, none⟩), ?_,
    ⟨rfl, rfl⟩, ?_⟩
  · refine List.mem_filterMap.mpr ⟨pair, named, ?_⟩
    rw [tailOf_eq, Option.mem_def.mp isGap, isGapped]
    rfl
  · rw [← Touch.gap_asked_snd isGap]

end Coverage

namespace Loop

/-- When the session's loop is left otherwise than by being cancelled. -/
def leavesAt (loop : Loop) : Happening → Option Int
  | .turned nowMicros succeeds _ =>
      if loop.due nowMicros = .keepalive ∧ succeeds = false then some nowMicros else none
  | .archiveFailed nowMicros | .lost nowMicros => some nowMicros
  | _ => none

/-- When a pair's subscription is really sent. -/
def asksAt (seam : Seam) (loop : Loop) (pair : Pair) : Happening → Option Int
  | .connected _ sent askedMicros =>
      if pair ∈ loop.held.declared ∧ pair ∈ sent then some askedMicros else none
  | .turned nowMicros succeeds askedMicros =>
      if loop.due nowMicros = .openReplacement ∧ succeeds = true ∧ pair ∈ seam.declared then
        some askedMicros
      else none
  | _ => none

/-- When a pair is received: in a page or a frame that covers it, or where the restart's report
establishes what is declared. -/
def receivedAt (seam : Seam) (pair : Pair) : Happening → Option Int
  | .reported window nowMicros =>
      if pair ∈ seam.declared then some ((window.map (·.1)).getD nowMicros) else none
  | .page payload => if pair ∈ seam.covers payload then some payload.recvMicros else none
  | .frame bytes nowMicros =>
      if pair ∈ seam.covers (seam.classify bytes nowMicros) then
        some (seam.classify bytes nowMicros).recvMicros
      else none
  | _ => none

variable {seam : Seam} {policy : ConnectionPolicy}

/-- What a thing that happens to the loop does to a pair, after the restart is reported. -/
def touch (seam : Seam) (loop : Loop) (pair : Pair) : Happening → Touch
  | .page payload => if pair ∈ seam.covers payload then .covered payload.recvMicros else .none
  | .frame bytes nowMicros =>
      if pair ∈ seam.covers (seam.classify bytes nowMicros) then
        .covered (seam.classify bytes nowMicros).recvMicros
      else .none
  | .connected _ _ askedMicros =>
      if pair ∈ loop.held.declared then .asked askedMicros else .none
  | .turned nowMicros _ _ =>
      if loop.due nowMicros = .closeReplaced ∧ loop.replacement = true then .handedOver nowMicros
      else .none
  | .lost nowMicros => .lost nowMicros .sessionLost
  | .reported .. | .connectFailed | .archiveFailed _ | .idle | .cancelled => .none

theorem entry_take (coverage : Coverage) (payload : Payload) (pair : Pair) :
    (seam.take payload coverage).entry pair =
      (if pair ∈ seam.covers payload then Touch.covered payload.recvMicros else .none).apply
        (coverage.entry pair) := by
  rw [Seam.take, entry_foldl_received]
  split <;> rfl

/-- **One step changes a pair's ledger as what it does to the pair says, and hands the record the
gap that dates.** -/
theorem step_touch {loop next : Loop} {rows : List (Ticker × Gap)} {happening : Happening}
    (begun : loop.phase ≠ .starting)
    (stepped : loop.step seam policy happening = some (next, rows)) (pair : Pair) :
    next.coverage.entry pair = (loop.touch seam pair happening).apply (loop.coverage.entry pair) ∧
      ∀ gap ∈ (loop.touch seam pair happening).gap (loop.coverage.entry pair),
        gap ∈ gapsOf pair rows := by
  cases happening with
  | reported window nowMicros =>
      rw [step, if_neg begun] at stepped
      cases stepped
  | page payload =>
      simp only [step, Option.ite_none_right_eq_some, Option.some.injEq, Prod.mk.injEq] at stepped
      obtain ⟨_, rfl, _⟩ := stepped
      refine ⟨entry_take _ _ _, ?_⟩
      intro gap isGap
      rw [touch] at isGap
      split at isGap <;> cases isGap
  | frame bytes nowMicros =>
      simp only [step, Option.ite_none_right_eq_some, Option.some.injEq, Prod.mk.injEq] at stepped
      obtain ⟨_, rfl, _⟩ := stepped
      refine ⟨entry_take _ _ _, ?_⟩
      intro gap isGap
      rw [touch] at isGap
      split at isGap <;> cases isGap
  | connected openedMicros sent askedMicros =>
      simp only [step, Option.ite_none_right_eq_some, Option.some.injEq] at stepped
      obtain ⟨_, connects⟩ := stepped
      obtain ⟨rfl, rfl⟩ := Prod.mk.inj connects
      have asks : (loop.openSession policy openedMicros).held.converge = loop.held.declared :=
        Held.converge_connectionLost loop.held
      rw [asks, touch]
      refine ⟨(entry_askedAgain loop.coverage _ askedMicros pair).trans ?_, ?_⟩
      · split <;> rfl
      · split
        · rename_i named
          exact Coverage.mem_askedAgain loop.coverage named
        · intro gap isGap
          cases isGap
  | turned nowMicros succeeds askedMicros =>
      simp only [step, Option.ite_none_right_eq_some, Option.some.injEq, Prod.mk.injEq] at stepped
      obtain ⟨_, rfl, _⟩ := stepped
      refine ⟨?_, ?_⟩
      · unfold turn touch
        cases isDue : loop.due nowMicros with
        | wait =>
            simp only [isDue, reduceCtorEq, false_and, if_false]
            rfl
        | keepalive | openReplacement =>
            simp only [isDue, reduceCtorEq, false_and, if_false]
            cases succeeds with
            | true => rfl
            | false => rfl
        | closeReplaced =>
            simp only [isDue, true_and]
            split
            · rename_i opened
              exact (@Coverage.touch_spec (.handoverCompleted nowMicros) List.nodup_nil
                loop.coverage pair).1
            · rfl
      · intro gap isGap
        rw [touch] at isGap
        split at isGap <;> cases isGap
  | lost nowMicros =>
      simp only [step, Option.ite_none_right_eq_some, Option.some.injEq] at stepped
      obtain ⟨_, loses⟩ := stepped
      obtain ⟨rfl, rfl⟩ := Prod.mk.inj loses
      by_cases isKnown : pair ∈ loop.coverage.pairs.keys
      · refine ⟨(Coverage.entry_gapsFor _ _ _ _ _).trans (if_pos isKnown), ?_⟩
        exact Coverage.mem_gapsFor loop.coverage isKnown
      · have empty : loop.coverage.entry pair = {} := by
          rw [Coverage.entry, AList.lookup_eq_none.mpr isKnown]
          rfl
        refine ⟨(Coverage.entry_gapsFor _ _ _ _ _).trans ?_, ?_⟩
        · rw [if_neg isKnown, empty]
          rfl
        · intro gap isGap
          rw [empty] at isGap
          cases isGap
  | connectFailed | idle | archiveFailed =>
      simp only [step, Option.ite_none_right_eq_some, Option.some.injEq, Prod.mk.injEq] at stepped
      obtain ⟨_, rfl, _⟩ := stepped
      exact ⟨rfl, fun gap isGap => by cases isGap⟩
  | cancelled =>
      simp only [step, Option.ite_none_left_eq_some, Option.some.injEq, Prod.mk.injEq] at stepped
      obtain ⟨_, rfl, _⟩ := stepped
      exact ⟨rfl, fun gap isGap => by cases isGap⟩

/-- The restart's report is what a run begins with. -/
theorem reported_of_starting {loop : Loop} {happening : Happening}
    {after : Loop × List (Ticker × Gap)} (begins : loop.phase = .starting)
    (stepped : loop.step seam policy happening = some after) :
    ∃ window nowMicros, happening = .reported window nowMicros ∧
      after = loop.reportRestartGap seam nowMicros window := by
  cases happening with
  | reported window nowMicros =>
      rw [step, if_pos begins, Option.some.injEq] at stepped
      exact ⟨window, nowMicros, rfl, stepped.symm⟩
  | page | connectFailed | connected | turned | archiveFailed | frame | idle | lost | cancelled =>
      simp [step, begins] at stepped

theorem begun_of_step {loop : Loop} {happening : Happening} {after : Loop × List (Ticker × Gap)}
    (stepped : loop.step seam policy happening = some after)
    (notReported : ∀ window nowMicros, happening ≠ .reported window nowMicros) :
    loop.phase ≠ .starting := by
  intro begins
  obtain ⟨window, nowMicros, isReported, _⟩ := reported_of_starting begins stepped
  exact notReported window nowMicros isReported

/-- A session whose loop has no handover due has no replacement subscribed. -/
theorem replacement_ne_of_due {loop : Loop} {nowMicros : Int}
    (notDue : loop.due nowMicros ≠ .closeReplaced) :
    ∀ session ∈ loop.session, session.replacement ≠ .subscribed := by
  intro session isSession subscribed
  apply notDue
  rw [due, Option.mem_def.mp isSession, Option.map_some, Option.getD_some,
    Session.act_eq_closeReplaced_iff]
  exact subscribed

/-- What is declared stays so, and a loop that something happened to has begun. -/
theorem step_frame {loop next : Loop} {happening : Happening} {rows : List (Ticker × Gap)}
    (stepped : loop.step seam policy happening = some (next, rows)) :
    next.held.declared = loop.held.declared ∧ next.phase ≠ .starting := by
  have sent := @Held.declared_foldl Held.markSent fun _ _ => rfl
  have held := @Held.declared_foldl Held.markHeld fun _ _ => rfl
  cases happening with
  | reported window nowMicros =>
      obtain ⟨_, isReported⟩ := Option.ite_none_right_eq_some.mp stepped
      cases window with
      | none | some =>
          obtain ⟨rfl, _⟩ := Prod.mk.inj (Option.some.inj isReported)
          exact ⟨rfl, by simp⟩
  | page payload =>
      obtain ⟨inWalk, isTaken⟩ := Option.ite_none_right_eq_some.mp stepped
      obtain ⟨rfl, _⟩ := Prod.mk.inj (Option.some.inj isTaken)
      refine ⟨held _ _, ?_⟩
      intro starting
      simp only [take] at starting
      rw [starting] at inWalk
      simp at inWalk
  | frame bytes nowMicros =>
      obtain ⟨_, isTaken⟩ := Option.ite_none_right_eq_some.mp stepped
      obtain ⟨rfl, _⟩ := Prod.mk.inj (Option.some.inj isTaken)
      exact ⟨held _ _, by simp⟩
  | connected openedMicros sentPairs askedMicros =>
      obtain ⟨_, connects⟩ := Option.ite_none_right_eq_some.mp stepped
      obtain ⟨rfl, _⟩ := Prod.mk.inj (Option.some.inj connects)
      exact ⟨sent _ _, by simp⟩
  | turned nowMicros succeeds askedMicros =>
      obtain ⟨_, turns⟩ := Option.ite_none_right_eq_some.mp stepped
      obtain ⟨rfl, _⟩ := Prod.mk.inj (Option.some.inj turns)
      unfold turn
      cases loop.due nowMicros with
      | wait => exact ⟨rfl, by simp⟩
      | keepalive | openReplacement =>
          cases succeeds with
          | true => exact ⟨rfl, by simp⟩
          | false => exact ⟨rfl, by simp⟩
      | closeReplaced =>
          simp only
          split
          · exact ⟨sent _ _, by simp⟩
          · exact ⟨rfl, by simp⟩
  | connectFailed | archiveFailed | idle | lost =>
      obtain ⟨_, isNext⟩ := Option.ite_none_right_eq_some.mp stepped
      obtain ⟨rfl, _⟩ := Prod.mk.inj (Option.some.inj isNext)
      exact ⟨rfl, by simp⟩
  | cancelled =>
      obtain ⟨_, isNext⟩ := Option.ite_none_left_eq_some.mp stepped
      obtain ⟨rfl, _⟩ := Prod.mk.inj (Option.some.inj isNext)
      exact ⟨rfl, by simp⟩

/-- Once the restart is reported, a pair is covered where it is received and nowhere else. -/
theorem touch_eq_covered_iff {loop : Loop} {pair : Pair} {happening : Happening}
    (begun : ∀ window nowMicros, happening ≠ .reported window nowMicros) (atMicros : Int) :
    loop.touch seam pair happening = .covered atMicros ↔
      receivedAt seam pair happening = some atMicros := by
  cases happening with
  | reported window nowMicros => exact absurd rfl (begun window nowMicros)
  | page payload | frame bytes nowMicros =>
      simp only [touch, receivedAt]
      split <;> simp
  | connected openedMicros sent askedMicros =>
      simp only [touch, receivedAt]
      split <;> simp
  | turned nowMicros succeeds askedMicros =>
      simp only [touch, receivedAt]
      split <;> simp
  | connectFailed | archiveFailed | idle | lost | cancelled => simp [touch, receivedAt]

/-- Only a session lost loses a pair. -/
theorem happening_of_lost {loop : Loop} {pair : Pair} {happening : Happening} {toMicros : Int}
    {cause : GapCause} (isLost : loop.touch seam pair happening = .lost toMicros cause) :
    happening = .lost toMicros := by
  cases happening with
  | page | frame | connected | turned =>
      simp only [touch] at isLost
      split at isLost <;> cases isLost
  | lost nowMicros =>
      simp only [touch, Touch.lost.injEq] at isLost
      rw [isLost.1]
  | reported | connectFailed | archiveFailed | idle | cancelled => cases isLost

/-- Leaving the session's loop receives no pair. -/
theorem receivedAt_of_leaves {loop : Loop} {pair : Pair} {happening : Happening}
    (leaves : (loop.leavesAt happening).isSome) : receivedAt seam pair happening = none := by
  cases happening with
  | turned | archiveFailed | lost => rfl
  | reported | page | connectFailed | connected | frame | idle | cancelled => cases leaves

end Loop

end Capture
end Datawatch
