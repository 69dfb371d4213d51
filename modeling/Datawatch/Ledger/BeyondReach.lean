import Datawatch.Ledger.Evidence

/-!
# What a venue no longer holds stays on record

A full first page that starts after every event recorded is the venue no longer holding what lay
between.  The page is recorded first and the gap after it, and where a walk resumes is read from
the page, so the gap is on record wherever its commit lands with the page's own.
-/

namespace Datawatch
namespace Ledger

open Library Library.Outcome Library.Transition Segments Wire Record Replay

/-- Some times have one extreme. -/
theorem Greatest.unique {one other : Option Int} {times : List Int}
    (isOne : Greatest one times) (isOther : Greatest other times) : one = other := by
  cases one with
  | none =>
      cases other with
      | none => rfl
      | some time =>
          rw [Extreme.eq_nil isOne] at isOther
          exact absurd isOther.1 List.not_mem_nil
  | some time =>
      cases other with
      | none =>
          rw [Extreme.eq_nil isOther] at isOne
          exact absurd isOne.1 List.not_mem_nil
      | some later => exact congrArg some (le_antisymm (isOther.2 _ isOne.1) (isOne.2 _ isOther.1))

namespace LedgerRun

variable (venue : AccountVenue) (json : Json) (about : Text → Kind × Option Int)

/-- A page of an account's kind that is full and starts after the newest event recorded before
it. -/
structure Hole (front : List RecordEntry) (payload : Payload) (account : Account) (kind : Kind)
    (newest first : Int) : Prop where
  inScope : inScopes venue.venue account [kind] payload
  isNewest : Greatest (some newest) (timesOf venue front account kind)
  full : ∃ last rows, venue.pageSpan payload.payload = some (first, last, rows) ∧
    venue.pageSize kind ≤ rows
  beyond : newest < first

/-- A gap of an account says its venue no longer holds a kind's events between two moments. -/
def Covered (entries : List RecordEntry) (account : Account) (kind : Kind) (newest first : Int) :
    Prop :=
  ∃ payload gap, .gap payload gap ∈ entries ∧ inScopes venue.venue account [.gaps] payload ∧
    gap.series = kindSeries kind ∧ gap.cause = .beyondReach ∧ gap.fromMicros ≤ newest ∧
      first ≤ gap.toMicros

/-- Every first page that left a hole is followed by a gap that covers it. -/
def HolesKept (record : List RecordEntry) : Prop :=
  ∀ front payload back account kind newest first, record = front ++ .page payload true :: back →
    kind ∈ eventKinds → Hole venue front payload account kind newest first →
      Covered venue back account kind newest first

/-- Where a process would next ask from: the newest event it knows once it has read the
account's history. -/
def resumePoint (run : LedgerRun) (account : ResolvedAccount) (kind : Kind) : Option Int :=
  match run.load venue json account true with
  | .ok loaded => loaded.newest account.alias_ kind
  | .error _ => none

/-- Wherever a process would resume past the first event of a page that left a hole, a gap
covers it. -/
def HolesVisible (run : LedgerRun) : Prop :=
  ∀ front payload back, run.record = front ++ .page payload true :: back →
    ∀ account kind newest first, kind ∈ eventKinds →
      Hole venue front payload account.alias_ kind newest first →
        ∀ resume, resumePoint venue json run account kind = some resume → first < resume →
          Covered venue run.record account.alias_ kind newest first

section Record

variable {venue json about} {record : List RecordEntry} {run : LedgerRun}

theorem HolesKept.visible (kept : HolesKept venue run.record) : HolesVisible venue json run := by
  intro front payload back isRecord account kind newest first isEvent hole _ _ _
  obtain ⟨gapPayload, gap, member, covers⟩ :=
    kept front payload back account.alias_ kind newest first isRecord isEvent hole
  refine ⟨gapPayload, gap, ?_, covers⟩
  rw [isRecord]
  exact List.mem_append_right _ (List.mem_cons_of_mem _ member)

theorem Covered.mono {entries more : List RecordEntry} {account : Account} {kind : Kind}
    {newest first : Int} (covered : Covered venue entries account kind newest first)
    (within : entries ⊆ more) : Covered venue more account kind newest first := by
  rcases covered with ⟨payload, gap, member, covers⟩
  exact ⟨payload, gap, within member, covers⟩

/-- An entry that is no first page, or leaves no hole, keeps what is kept. -/
theorem HolesKept.concat (kept : HolesKept venue record) {entry : RecordEntry}
    (noHole : ∀ payload account kind newest first, entry = .page payload true →
      kind ∈ eventKinds → ¬ Hole venue record payload account kind newest first) :
    HolesKept venue (record ++ [entry]) := by
  intro front payload back account kind newest first isRecord isEvent hole
  rcases List.eq_nil_or_concat back with rfl | ⟨earlier, last, rfl⟩
  · obtain ⟨rfl, isEntry⟩ := List.append_inj' isRecord rfl
    exact absurd hole (noHole payload account kind newest first (List.singleton_inj.mp isEntry)
      isEvent)
  · rw [List.concat_eq_append, ← List.cons_append, ← List.append_assoc] at isRecord
    obtain ⟨isFront, _⟩ := List.append_inj' isRecord rfl
    rw [List.concat_eq_append]
    exact (kept front payload earlier account kind newest first isFront isEvent hole).mono
      (List.subset_append_left _ _)

/-- A first page and then a gap that covers whatever hole it left keep what is kept. -/
theorem HolesKept.concat_gap (kept : HolesKept venue record) {page gapPayload : Payload}
    {gap : Gap} (covers : ∀ account kind newest first, kind ∈ eventKinds →
      Hole venue record page account kind newest first →
        Covered venue [.gap gapPayload gap] account kind newest first) :
    HolesKept venue (record ++ [.page page true] ++ [.gap gapPayload gap]) := by
  intro front payload back account kind newest first isRecord isEvent hole
  rcases List.eq_nil_or_concat back with rfl | ⟨earlier, last, rfl⟩
  · obtain ⟨_, isEntry⟩ := List.append_inj' isRecord rfl
    cases List.singleton_inj.mp isEntry
  · rw [List.concat_eq_append, ← List.cons_append, ← List.append_assoc] at isRecord
    obtain ⟨isFront, isLast⟩ := List.append_inj' isRecord rfl
    rw [List.concat_eq_append]
    rcases List.eq_nil_or_concat earlier with rfl | ⟨before, other, rfl⟩
    · obtain ⟨rfl, isPage⟩ := List.append_inj' isFront rfl
      cases List.singleton_inj.mp isPage
      rw [← isLast]
      exact covers account kind newest first isEvent hole
    · rw [List.concat_eq_append, ← List.cons_append, ← List.append_assoc] at isFront
      obtain ⟨isRest, _⟩ := List.append_inj' isFront rfl
      rw [List.concat_eq_append]
      apply (kept front payload before account kind newest first isRest isEvent hole).mono
      rw [List.append_assoc]
      exact List.subset_append_left _ _

/-! ## What a pass keeps -/

variable (venue json about) in
/-- A record of honest payloads whose holes are kept. -/
structure HonestKept (record : List RecordEntry) : Prop where
  honest : ∀ entry ∈ record, Honest venue json about entry.payload
  holes : HolesKept venue record

variable (venue json about) in
/-- A process that knows what it recorded, all of whose holes are kept. -/
structure Watched (account : Account) (run : LedgerRun) : Prop where
  knows : Knows venue json about run
  holes : HolesKept venue run.record
  isLoaded : account ∈ run.loaded

theorem Watched.kept {account : Account} (watched : Watched venue json about account run) :
    HonestKept venue json about run.record :=
  ⟨watched.knows.honest, watched.holes⟩

/-- A generated entry keeps what a process watches. -/
theorem Watched.generated {account : Account} (watched : Watched venue json about account run)
    {entry : RecordEntry} (honest : Honest venue json about entry.payload)
    (noEvent : ∀ kind ∈ eventKinds, entry.payload.kind ≠ kind.asStr)
    (noPage : ∀ payload, entry ≠ .page payload true) (seq : UInt64)
    (reached : List (Account × Kind)) :
    Watched venue json about account
      { run with nextSeq := seq, record := run.record ++ [entry], reached := reached } :=
  ⟨watched.knows.concat honest noEvent seq reached,
    watched.holes.concat fun payload _ _ _ _ isPage => absurd isPage (noPage payload),
    watched.isLoaded⟩

/-- Recording a reach keeps what a process watches. -/
theorem watched_recordReach {account : ResolvedAccount}
    (watched : Watched venue json about account.alias_ run)
    (generated : ∀ payload, payload.origin = .generated → Honest venue json about payload)
    {kind : Kind} {reach : Reach} (nowMicros : Int) (commit : Commit) :
    Leaves (fun next => Watched venue json about account.alias_ next ∧ next.newest = run.newest)
      (fun left => HonestKept venue json about left.record)
      (run.recordReach json account kind reach nowMicros commit) := by
  have next : ∀ payload row seq reached, Generated account .accounts payload →
      Watched venue json about account.alias_
        { run with
          nextSeq := seq, record := run.record ++ [.reach payload row], reached := reached } := by
    intro payload row seq reached isGenerated
    apply @Watched.generated _ _ _ _ _ watched (.reach payload row)
      (generated payload isGenerated.origin) (isGenerated.noEvent (.inl rfl))
    intro _ isPage
    cases isPage
  apply leaves_recordReach nowMicros commit
  · intro payload isGenerated
    exact ⟨next payload _ _ _ isGenerated, rfl⟩
  · rintro record (rfl | ⟨payload, isGenerated, rfl⟩) left isLeft
    · rw [isLeft]
      exact watched.kept
    · rw [isLeft]
      exact (next payload _ 0 [] isGenerated).kept

/-- A gap of an account covers what it says. -/
theorem covered_gap {account : ResolvedAccount} (ours : account.venue = venue.venue)
    {payload : Payload} (isGenerated : Generated account .gaps payload) (kind : Kind)
    (newest first : Int) :
    Covered venue [.gap payload
      ⟨kindSeries kind, newest, first, .beyondReach, .continuous, none⟩] account.alias_ kind
      newest first := by
  refine ⟨payload, _, List.mem_singleton_self _, ?_, rfl, rfl, le_rfl, le_rfl⟩
  rw [inScopes_iff]
  refine ⟨_, isGenerated.address, ?_, rfl, ?_⟩
  · rw [← ours]
    rfl
  · rw [isGenerated.kind]
    exact List.mem_singleton_self _

/-- A hole a page left is its walk's: of its account and kind, and after what its process
knew. -/
theorem hole_pagePayload (knows : Knows venue json about run) {account : ResolvedAccount}
    (ours : account.venue = venue.venue) (isLoaded : account.alias_ ∈ run.loaded) {kind : Kind}
    {channel : Text} {page : List UInt8} {nowMicros : Int} {seq : UInt64} {name : Account}
    {asked : Kind} {newest first : Int} (isEvent : asked ∈ eventKinds)
    (hole : Hole venue run.record (pagePayload account kind channel page nowMicros seq) name asked
      newest first) :
    name = account.alias_ ∧ asked = kind ∧ run.newest account.alias_ kind = some newest := by
  obtain ⟨isName, sameKind⟩ := (inScopes_pagePayload ours).mp hole.inScope
  obtain rfl := Kind.asStr_injective sameKind
  refine ⟨isName, rfl, ?_⟩
  have known := (knows.loaded account.alias_ isLoaded asked isEvent).2
  have isNewest := hole.isNewest
  rw [isName] at isNewest
  exact Greatest.unique known isNewest

variable (venue) in
/-- Where the first answer of an ask is a full page beyond what is known of a kind, it is not
recorded, or its gap is with it. -/
def GapLands (newest : Option Int) (kind : Kind) (answers : List Answer) : Prop :=
  ∀ page nowMicros commits rest, answers = .answered page nowMicros commits :: rest →
    ∀ first last rows held, venue.pageSpan page = some (first, last, rows) →
      venue.pageSize kind ≤ rows → newest = some held → held < first →
        commits.page = .refused ∨ commits.page = .committed ∧ commits.gap ≠ .refused

/-- How judging a first page comes out, once the page is recorded. -/
theorem watched_judgeFirst (knows : Knows venue json about run)
    (holes : HolesKept venue run.record)
    (generated : ∀ payload, payload.origin = .generated → Honest venue json about payload)
    {account : ResolvedAccount} (ours : account.venue = venue.venue)
    (isLoaded : account.alias_ ∈ run.loaded) {kind : Kind} (isEvent : kind ∈ eventKinds)
    {channel : Text} {page : List UInt8} {nowMicros : Int} {seq : UInt64}
    (well : WellPage venue json about kind
      (pagePayload account kind channel page nowMicros seq)) {first last : Int} {rows : Nat}
    (isSpan : venue.pageSpan page = some (first, last, rows)) {recorded : Option Int}
    {firstPage : Bool} (opening : firstPage = true → recorded = run.newest account.alias_ kind)
    {commits : Commits} (lands : firstPage = true → ∀ held, venue.pageSize kind ≤ rows →
      recorded = some held → held < first → commits.gap ≠ .refused) :
    Leaves (fun next => Watched venue json about account.alias_
          (next.extend account kind first last) ∧ next.newest = run.newest)
      (fun left => HonestKept venue json about left.record)
      (judgeFirst json account kind recorded firstPage (decide (venue.pageSize kind ≤ rows)) first
        nowMicros commits
        { run with
          nextSeq := run.nextSeq + 1
          record := run.record ++
            [.page (pagePayload account kind channel page nowMicros seq) firstPage] }) := by
  have taken := (knows.page ours isLoaded isEvent well firstPage).2 first last rows isSpan
  -- Where the page is not judged, it left no hole.
  have unjudged : ¬ (∃ held, recorded = some held ∧ firstPage = true ∧
      beyondReach held first (decide (venue.pageSize kind ≤ rows)) = true) →
      HolesKept venue (run.record ++
        [.page (pagePayload account kind channel page nowMicros seq) firstPage]) := by
    intro notBeyond
    apply holes.concat
    intro payload name asked newest start isPage isAsked hole
    obtain ⟨rfl, rfl⟩ := RecordEntry.page.inj isPage
    obtain ⟨_, rfl, isNewest⟩ := hole_pagePayload knows ours isLoaded isAsked hole
    obtain ⟨end_, count, isStart, full⟩ := hole.full
    have same := isSpan.symm.trans isStart
    rw [Option.some.injEq, Prod.mk.injEq, Prod.mk.injEq] at same
    obtain ⟨rfl, rfl, rfl⟩ := same
    refine notBeyond ⟨newest, (opening rfl).trans isNewest, rfl, ?_⟩
    simp only [beyondReach, full, decide_true, Bool.true_and, decide_eq_true_eq]
    exact hole.beyond
  unfold judgeFirst
  cases isRecorded : recorded with
  | none =>
      refine ⟨⟨taken, unjudged ?_, isLoaded⟩, rfl⟩
      rintro ⟨held, isHeld, _⟩
      rw [isRecorded] at isHeld
      cases isHeld
  | some held =>
      simp only
      split
      · rename_i isBeyond
        obtain ⟨rfl, isBeyond⟩ := isBeyond
        simp only [beyondReach, Bool.and_eq_true, decide_eq_true_eq] at isBeyond
        have landed := lands rfl held isBeyond.1 isRecorded isBeyond.2
        have covers : ∀ payload, Generated account .gaps payload →
            HolesKept venue (run.record ++
              [.page (pagePayload account kind channel page nowMicros seq) true] ++
              [.gap payload
                ⟨kindSeries kind, held, first, .beyondReach, .continuous, none⟩]) := by
          intro payload isGenerated
          apply holes.concat_gap
          intro name asked newest start isAsked hole
          obtain ⟨rfl, rfl, isNewest⟩ := hole_pagePayload knows ours isLoaded isAsked hole
          rw [← opening rfl, isRecorded] at isNewest
          obtain rfl := Option.some.inj isNewest
          obtain ⟨end_, count, isStart, _⟩ := hole.full
          have same := isSpan.symm.trans isStart
          rw [Option.some.injEq, Prod.mk.injEq] at same
          rw [← same.1]
          exact covered_gap ours isGenerated asked held first
        have gapKnown : ∀ payload, Generated account .gaps payload → ∀ next reached,
            Watched venue json about account.alias_
              { run.extend account kind first last with
                nextSeq := next
                record := run.record ++
                  [.page (pagePayload account kind channel page nowMicros seq) true] ++
                  [.gap payload
                    ⟨kindSeries kind, held, first, .beyondReach, .continuous, none⟩]
                reached := reached } := by
          intro payload isGenerated next reached
          refine ⟨?_, covers payload isGenerated, isLoaded⟩
          exact @Knows.concat _ _ _ _ taken (.gap payload _)
            (generated payload isGenerated.origin) (isGenerated.noEvent (.inr rfl)) next reached
        refine @Leaves.bind _ _ _ (fun next => Watched venue json about account.alias_
          (next.extend account kind first last) ∧ next.newest = run.newest) _ _ _ _ ?_ ?_
        · cases isLanded : commits.gap with
          | refused => exact absurd isLanded landed
          | committed => exact ⟨gapKnown _ ⟨rfl, rfl, rfl⟩ _ _, rfl⟩
          | unsynced => exact (gapKnown _ ⟨rfl, rfl, rfl⟩ 0 []).kept
        · rintro next ⟨watched, sameNewest⟩
          have reach : ∀ payload row, Generated account .accounts payload → ∀ seq reached,
              Watched venue json about account.alias_
                { next.extend account kind first last with
                  nextSeq := seq
                  record := next.record ++ [.reach payload row]
                  reached := reached } := by
            intro payload row isGenerated seq reached
            apply @Watched.generated _ _ _ _ _ watched (.reach payload row)
              (generated payload isGenerated.origin) (isGenerated.noEvent (.inl rfl))
            intro _ isPage
            cases isPage
          apply leaves_recordReach nowMicros commits.reach
          · intro payload isGenerated
            exact ⟨reach payload _ isGenerated _ _, sameNewest⟩
          · rintro record (rfl | ⟨payload, isGenerated, rfl⟩) left isLeft
            · rw [isLeft]
              exact watched.kept
            · rw [isLeft]
              exact (reach payload _ isGenerated 0 []).kept
      · rename_i notBeyond
        refine ⟨⟨taken, unjudged ?_, isLoaded⟩, rfl⟩
        rintro ⟨other, isOther, isFirst, isBeyond⟩
        rw [isRecorded] at isOther
        obtain rfl := Option.some.inj isOther
        exact notBeyond ⟨isFirst, isBeyond⟩

/-- A page recorded in a walk, where it left no hole, keeps what is kept. -/
theorem honestKept_page (watched : HonestKept venue json about run.record) {payload : Payload}
    (honest : Honest venue json about payload) {firstPage : Bool}
    (noHole : firstPage = true → ∀ account kind newest first, kind ∈ eventKinds →
      ¬ Hole venue run.record payload account kind newest first) :
    HonestKept venue json about (run.record ++ [.page payload firstPage]) := by
  constructor
  · intro entry member
    rcases List.mem_append.mp member with held | new
    · exact watched.honest entry held
    · rw [List.mem_singleton.mp new]
      exact honest
  · apply watched.holes.concat
    intro other account kind newest first isPage
    obtain ⟨rfl, isFirst⟩ := RecordEntry.page.inj isPage
    exact noHole isFirst account kind newest first

/-- A walk keeps what is watched where a hole's gap lands, and knows no other kind's events. -/
theorem watched_walkPages {account : ResolvedAccount}
    (watched : Watched venue json about account.alias_ run)
    (generated : ∀ payload, payload.origin = .generated → Honest venue json about payload)
    (ours : account.venue = venue.venue) {kind : Kind} (isEvent : kind ∈ eventKinds)
    {channel : Text} {answers : List Answer}
    (well : ∀ page nowMicros commits, .answered page nowMicros commits ∈ answers → ∀ seq,
      WellPage venue json about kind (pagePayload account kind channel page nowMicros seq))
    {recorded : Option Int} {firstPage : Bool}
    (opening : firstPage = true → recorded = run.newest account.alias_ kind)
    (lands : firstPage = true → GapLands venue recorded kind answers) (start : Int) :
    Leaves (fun next => Watched venue json about account.alias_ next ∧
        ∀ asked, asked ≠ kind →
          next.newest account.alias_ asked = run.newest account.alias_ asked)
      (fun left => HonestKept venue json about left.record)
      (run.walkPages venue json account kind channel recorded answers firstPage start) := by
  induction answers generalizing run firstPage start with
  | nil => exact watched.kept
  | cons answer answers inductionHypothesis =>
      cases answer with
      | refused => exact ⟨watched, fun _ _ => rfl⟩
      | answered page nowMicros commits =>
          have wellPage := well page nowMicros commits List.mem_cons_self run.nextSeq
          have taken := watched.knows.page ours watched.isLoaded isEvent wellPage firstPage
          -- A hole the page would leave is one whose gap lands.
          have holeLands : firstPage = true → ∀ name asked newest first, asked ∈ eventKinds →
              Hole venue run.record
                (pagePayload account kind channel page nowMicros run.nextSeq) name asked newest
                first →
              commits.page = .refused ∨ commits.page = .committed ∧ commits.gap ≠ .refused := by
            intro isFirst name asked newest first isAsked hole
            obtain ⟨_, rfl, isNewest⟩ :=
              hole_pagePayload watched.knows ours watched.isLoaded isAsked hole
            obtain ⟨last, rows, isSpan, full⟩ := hole.full
            exact lands isFirst page nowMicros commits answers rfl first last rows newest isSpan
              full ((opening isFirst).trans isNewest) hole.beyond
          rw [walkPages]
          cases isLanded : commits.page with
          | refused =>
              simp only [recordPage, append]
              exact watched.kept
          | unsynced =>
              simp only [recordPage, append]
              apply honestKept_page watched.kept wellPage.honest
              intro isFirst name asked newest first isAsked hole
              rcases holeLands isFirst name asked newest first isAsked hole with same | ⟨same, _⟩
              all_goals
                rw [isLanded] at same
                cases same
          | committed =>
              simp only [recordPage, append]
              rw [ok_bind]
              cases isSpan : venue.pageSpan page with
              | none =>
                  refine ⟨⟨taken.1 isSpan, ?_, watched.isLoaded⟩, fun _ _ => rfl⟩
                  apply (honestKept_page watched.kept wellPage.honest _).holes
                  intro _ name asked newest first _ hole
                  obtain ⟨last, rows, isStart, _⟩ := hole.full
                  exact absurd (isSpan.symm.trans isStart) (by simp)
              | some span =>
                  obtain ⟨first, last, rows⟩ := span
                  refine Leaves.bind (watched_judgeFirst watched.knows watched.holes generated ours
                    watched.isLoaded isEvent wellPage isSpan opening ?_) ?_
                  · intro isFirst held full isRecorded beyond
                    rcases lands isFirst page nowMicros commits answers rfl first last rows held
                      isSpan full isRecorded beyond with same | ⟨_, landed⟩
                    · rw [isLanded] at same
                      cases same
                    · exact landed
                  · rintro judged ⟨isWatched, sameNewest⟩
                    have others : ∀ asked, asked ≠ kind →
                        (judged.extend account kind first last).newest account.alias_ asked =
                          run.newest account.alias_ asked := by
                      intro asked other
                      simp only [extend, other, and_false, if_false, sameNewest]
                    split
                    · exact ⟨isWatched, others⟩
                    · split
                      · exact ⟨isWatched, others⟩
                      · refine (inductionHypothesis isWatched ?_ (by simp) (by simp) last).imp ?_
                        · intro other moment made member
                          exact well other moment made (List.mem_cons_of_mem _ member)
                        · rintro next ⟨nextWatched, nextOthers⟩
                          exact ⟨nextWatched, fun asked other =>
                            (nextOthers asked other).trans (others asked other)⟩

/-- A walk of one kind keeps what is watched where a hole's gap lands. -/
theorem watched_walk {pass : AccountPass}
    (watched : Watched venue json about pass.account.alias_ run)
    (generated : ∀ payload, payload.origin = .generated → Honest venue json about payload)
    (well : WellAnswered venue json about pass) {kind : Kind} (isEvent : kind ∈ eventKinds)
    (lands : GapLands venue (run.newest pass.account.alias_ kind) kind (pass.asks kind)) :
    Leaves (fun next => Watched venue json about pass.account.alias_ next ∧
        ∀ asked, asked ≠ kind →
          next.newest pass.account.alias_ asked = run.newest pass.account.alias_ asked)
      (fun left => HonestKept venue json about left.record)
      (run.walk venue json pass.account kind (pass.asks kind)) := by
  unfold walk
  cases served : venue.eventsChannel kind with
  | none => exact ⟨watched, fun _ _ => rfl⟩
  | some channel =>
      exact watched_walkPages watched generated well.ours isEvent
        (well.pages kind isEvent channel served) (fun _ => rfl) (fun _ => lands) _

variable (venue) in
/-- Where a full first page of a pass is beyond what is recorded, its gap lands with it. -/
def PassGapLands (run : LedgerRun) (pass : AccountPass) : Prop :=
  ∀ kind ∈ eventKinds, ∀ newest,
    Greatest newest (timesOf venue run.record pass.account.alias_ kind) →
      GapLands venue newest kind (pass.asks kind)

/-- The walks of a pass keep what is watched. -/
theorem watched_walks {pass : AccountPass}
    (watched : Watched venue json about pass.account.alias_ run)
    (generated : ∀ payload, payload.origin = .generated → Honest venue json about payload)
    (well : WellAnswered venue json about pass) (lands : PassGapLands venue run pass) :
    Leaves (Watched venue json about pass.account.alias_)
      (fun left => HonestKept venue json about left.record)
      (eventKinds.foldlM (fun run kind => walk venue json pass.account kind (pass.asks kind) run)
        run) := by
  have landsAt : ∀ kind ∈ eventKinds,
      GapLands venue (run.newest pass.account.alias_ kind) kind (pass.asks kind) := by
    intro kind isEvent
    exact lands kind isEvent _ (watched.knows.loaded _ watched.isLoaded kind isEvent).2
  simp only [eventKinds, List.foldlM_cons, List.foldlM_nil]
  refine Leaves.bind (watched_walk watched generated well (by decide)
    (landsAt .fundingPayments (by decide))) ?_
  rintro funded ⟨fundedWatched, fundedOthers⟩
  have filledLands := landsAt .fills (by decide)
  rw [← fundedOthers .fills (by decide)] at filledLands
  refine Leaves.bind (watched_walk fundedWatched generated well (by decide) filledLands) ?_
  rintro filled ⟨filledWatched, filledOthers⟩
  have updatedLands := landsAt .ledgerUpdates (by decide)
  rw [← fundedOthers .ledgerUpdates (by decide), ← filledOthers .ledgerUpdates (by decide)]
    at updatedLands
  refine Leaves.bind (watched_walk filledWatched generated well (by decide) updatedLands) ?_
  rintro updated ⟨updatedWatched, _⟩
  exact updatedWatched

/-- A pass keeps every hole's gap where each lands with its page. -/
theorem watched_events {pass : AccountPass} (knows : Knows venue json about run)
    (holes : HolesKept venue run.record)
    (generated : ∀ payload, payload.origin = .generated → Honest venue json about payload)
    (well : WellAnswered venue json about pass) (lands : PassGapLands venue run pass) :
    Leaves (fun next => Knows venue json about next ∧ HolesKept venue next.record)
      (fun left => HonestKept venue json about left.record)
      (run.events venue json pass) := by
  unfold events
  have leaves := knows.load well.ours pass.reads
  cases isLoad : run.load venue json pass.account pass.reads with
  | error left =>
      rw [isLoad, leaves_error] at leaves
      change HonestKept venue json about left.record
      rw [leaves]
      exact ⟨knows.honest, holes⟩
  | ok loaded =>
      rw [isLoad] at leaves
      obtain ⟨isKnown, isLoaded, sameRecord⟩ := leaves
      change Leaves _ _ (eventKinds.foldlM (fun run kind => walk venue json pass.account kind
        (pass.asks kind) run) loaded >>= fun run =>
          eventKinds.foldlM (fun run kind => judge json pass kind run) run)
      have watched : Watched venue json about pass.account.alias_ loaded :=
        ⟨isKnown, by rw [sameRecord]; exact holes, isLoaded⟩
      refine Leaves.bind (watched_walks watched generated well ?_) ?_
      · unfold PassGapLands
        rw [sameRecord]
        exact lands
      · intro walked isWalked
        refine (@Leaves.foldlM _ _ _ (Watched venue json about pass.account.alias_) _ _ _ ?_ _
          isWalked).imp fun next watched => ⟨watched.knows, watched.holes⟩
        intro kind _ next isWatched
        unfold judge
        split
        · exact isWatched
        · split
          · exact (watched_recordReach isWatched generated pass.nowMicros
              (pass.judged kind)).imp fun _ both => both.1
          · exact isWatched

end Record

/-- In a step's pass a hole's gap lands with the page that left it. -/
def StepGapLands (run : LedgerRun) : Step → Prop
  | .events pass => PassGapLands venue run pass
  | .restart _ => True

/-- **A hole beyond a venue's reach is never forgotten.**  Across every run of passes and
restarts, wherever a process would resume past the first event of a full first page that started
after the newest event recorded before it, a gap covers what lay between, where no process ends
after such a page is recorded and before its gap is. -/
theorem holesVisible_of_gapLands
    (generated : ∀ payload, payload.origin = .generated → Honest venue json about payload)
    (steps : List Step) (final : LedgerRun)
    (answered : Guarded (step venue json) (StepAnswered venue json about) steps {})
    (lands : Guarded (step venue json) (StepGapLands venue) steps {})
    (run : exec (step venue json) steps {} = some final) :
    HolesVisible venue json final := by
  have preserved : ∀ run action next,
      HonestKept venue json about run.record ∧
        (run.running = true → Knows venue json about run ∧ HolesKept venue run.record) →
      StepAnswered venue json about run action ∧ StepGapLands venue run action →
      step venue json run action = some next →
        HonestKept venue json about next.record ∧
          (next.running = true → Knows venue json about next ∧ HolesKept venue next.record) := by
    intro run action next holds guards stepped
    refine @keeps_step venue json run
      (fun run => Knows venue json about run ∧ HolesKept venue run.record)
      (HonestKept venue json about) (fun _ both => ⟨both.1.honest, both.2⟩) ?_ action ?_ holds
      next stepped
    · intro nowMicros kept
      exact ⟨knows_of_nothing_loaded kept.honest _, kept.holes⟩
    · rintro pass rfl ⟨knows, holes⟩
      exact watched_events knows holes generated guards.1 guards.2
  have noHoles : HolesKept venue [] := by
    intro front payload back account kind newest first isRecord
    simp at isRecord
  have start : HonestKept venue json about [] := ⟨by simp, noHoles⟩
  exact (invariant_of_guarded preserved
    ⟨start, fun _ => ⟨knows_of_nothing_loaded (by simp) 0, noHoles⟩⟩
    (answered.and lands) run).1.holes.visible

/-- A venue whose pages are full with one row. -/
def oneRowVenue : AccountVenue := { momentVenue with pageSize := fun _ => 1 }

/-- A pass whose fills ask is answered with one fill and then refused. -/
def fillPass (moment : UInt8) (gap : Commit) : AccountPass :=
  { fundedPass .refused with
    asks
      | .fills => [.answered [moment] 10 ⟨.committed, gap, .committed⟩, .refused]
      | _ => [.refused] }

/-- One event of each of two moments. -/
def aboutFills (id : Text) : Kind × Option Int :=
  if id = identity (fun _ => []) (rowAt .fills 5) then (.fills, some 5) else (.fills, some 6)

theorem answered_fillPass {moment : UInt8} (isMoment : moment = 5 ∨ moment = 6) :
    WellAnswered oneRowVenue noJson aboutFills (fillPass moment .committed) := by
  refine ⟨rfl, ?_⟩
  intro kind isEvent channel _ page nowMicros commits asked seq
  simp only [eventKinds, List.mem_cons, List.not_mem_nil, or_false] at isEvent
  rcases isEvent with rfl | rfl | rfl
  · cases List.mem_singleton.mp asked
  · rcases List.mem_cons.mp asked with isFirst | isSecond
    · obtain ⟨rfl, _⟩ := Answer.answered.inj isFirst
      rcases isMoment with rfl | rfl
      · exact @wellPage_moment _ _ _ 5 _ rfl rfl rfl rfl (by decide +kernel)
      · exact @wellPage_moment _ _ _ 6 _ rfl rfl rfl rfl (by decide +kernel)
    · cases List.mem_singleton.mp isSecond
  · cases List.mem_singleton.mp asked

/-- A second walk's first page leaves a hole, and its gap lands. -/
theorem holesVisible_of_gapLands_landed :
    ∃ final, exec (step oneRowVenue noJson)
        [.events (fillPass 5 .committed), .events (fillPass 6 .committed)] {} = some final ∧
      HolesVisible oneRowVenue noJson final := by
  have lands : ∀ (moment : UInt8) (run : LedgerRun),
      PassGapLands oneRowVenue run (fillPass moment .committed) := by
    intro moment run kind isEvent newest _ page nowMicros commits rest asked first last rows held
      _ _ _ _
    simp only [eventKinds, List.mem_cons, List.not_mem_nil, or_false] at isEvent
    rcases isEvent with rfl | rfl | rfl
    · cases asked
    · obtain ⟨_, _, rfl⟩ := Answer.answered.inj (List.cons.inj asked).1
      exact .inr ⟨rfl, by decide⟩
    · cases asked
  refine ⟨_, rfl, holesVisible_of_gapLands oneRowVenue noJson aboutFills ?_
    [.events (fillPass 5 .committed), .events (fillPass 6 .committed)] _ ?_ ?_ rfl⟩
  · intro payload isGenerated row member
    simp [rowsOf, oneRowVenue, momentVenue, isGenerated] at member
  · exact ⟨answered_fillPass (.inl rfl),
      fun _ _ => ⟨answered_fillPass (.inr rfl), fun _ _ => trivial⟩⟩
  · exact ⟨lands 5 _, fun next _ => ⟨lands 6 next, fun _ _ => trivial⟩⟩

/-- A page of one fill as it is recorded. -/
def fillEntry (moment : UInt8) (seq : UInt64) : RecordEntry :=
  .page (pagePayload (fundedPass .refused).account .fills Kind.fills.asStr [moment] 10 seq) true

/-- A generated entry's payload. -/
def generatedPayload (kind : Kind) (nowMicros : Int) (seq : UInt64) : Payload :=
  ⟨seq, nowMicros, .account (fundedPass .refused).account.recordAddress, kind.asStr, kind.asStr,
    none, .generated, []⟩

/-- **A crash between a page and its gap.**  The second walk's first page leaves a hole and is
recorded, and its gap is not.  The process starts again, resumes past the page, and no gap ever
covers the hole. -/
theorem hole_forgotten :
    ∃ final, exec (step oneRowVenue noJson)
        [.events (fillPass 5 .committed), .events (fillPass 6 .refused), .restart 20,
          .events (fillPass 7 .committed)] {} = some final ∧
      ¬ HolesVisible oneRowVenue noJson final := by
  have crashed : ∃ final, exec (step oneRowVenue noJson)
      [.events (fillPass 5 .committed), .events (fillPass 6 .refused), .restart 20,
        .events (fillPass 7 .committed)] {} = some final ∧
      final.record =
        [fillEntry 5 0, .reach (generatedPayload .accounts 11 1) ⟨.fills, .consistent⟩] ++
          fillEntry 6 2 ::
            [fillEntry 7 20,
              .gap (generatedPayload .gaps 10 21)
                ⟨.fills, 6, 7, .beyondReach, .continuous, none⟩,
              .reach (generatedPayload .accounts 10 22) ⟨.fills, .lost⟩] ∧
      resumePoint oneRowVenue noJson final (fundedPass .refused).account .fills = some 7 :=
    ⟨_, rfl, rfl, rfl⟩
  obtain ⟨final, ran, isRecord, resumes⟩ := crashed
  refine ⟨final, ran, ?_⟩
  intro visible
  have hole : Hole oneRowVenue
      [fillEntry 5 0, .reach (generatedPayload .accounts 11 1) ⟨.fills, .consistent⟩]
      (pagePayload (fundedPass .refused).account .fills Kind.fills.asStr [6] 10 2) mainAccount
      .fills 5 6 := by
    refine ⟨by decide +kernel, ?_, ⟨6, 1, rfl, le_rfl⟩, by decide⟩
    have times : timesOf oneRowVenue
        [fillEntry 5 0, .reach (generatedPayload .accounts 11 1)
          ⟨.fills, .consistent⟩] mainAccount .fills = [5] := by
      decide +kernel
    rw [times]
    exact ⟨List.mem_singleton_self _, by simp⟩
  obtain ⟨payload, gap, member, _, _, _, fromNewest, _⟩ := visible _ _ _ isRecord
    (fundedPass .refused).account .fills 5 6 (by decide) hole 7 resumes (by decide)
  rw [isRecord] at member
  simp [fillEntry] at member
  rw [member.2] at fromNewest
  exact absurd fromNewest (by decide)

end LedgerRun

end Ledger
end Datawatch
