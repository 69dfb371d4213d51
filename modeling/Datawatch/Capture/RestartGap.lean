import Datawatch.Library.Intervals
import Datawatch.Library.Transition
import Datawatch.Capture.Coverage
import Datawatch.Ingest.Live
import Datawatch.Record.Durable

/-!
# The gap a restart reports

A start reports the window no process was capturing, one row for each declared pair, each
committed at once in the scope whose last durable receipt dates the next window.
-/

namespace Datawatch
namespace Capture

open Library Library.Transition Segments Wire Record Ingest

/-- What a capture process is wired to: its venue, and what it declares. -/
structure Wiring where
  venue : Venue
  declared : List Pair
  clipped : Clipped
  counted : declared.length < 2 ^ 64

/-- One start of the process: its moment, its numbering, what becomes of each row it writes, and
whether each marker is removed at its end.  It dies where the fates end. -/
structure Boot where
  nowMicros : Int
  inRange : i64Min ≤ nowMicros ∧ nowMicros ≤ i64Max
  pid : Fin (2 ^ 32)
  nextSeq : Nat
  fates : List WriteFate
  removesShutdown : Bool
  removesUnflushed : Bool

/-- The record, and the gap rows committed to it, in their order. -/
structure Restarts where
  archive : Archive
  recorded : List (Ticker × Gap) := []

variable (render : Envelope → List UInt8) (wiring : Wiring)

/-- Record a gap.  A gap that could not be recorded is only logged. -/
def emitGap (ticker : Ticker) (gap : Gap) (fate : WriteFate) (archive : Archive) : Archive :=
  (recordGeneratedAt render (.venue wiring.venue.text)
    (.new wiring.venue ticker (some gap.fromMicros) gap.toMicros (.gap gap)) fate archive).1

/-- Record gaps one by one, and whether the process is still there after the last. -/
def emitGaps : List (Ticker × Gap) → List WriteFate → Restarts → Restarts × Bool
  | [], _, record => (record, true)
  | _ :: _, [], record => (record, false)
  | (ticker, gap) :: gaps, fate :: fates, record =>
      emitGaps gaps fates
        { archive := emitGap render wiring ticker gap fate record.archive
          recorded := record.recorded ++ if fate = .refused then [] else [(ticker, gap)] }

/-- Clear the markers, as far as they can be removed. -/
def Boot.clear (boot : Boot) (archive : Archive) : Archive :=
  { archive with
    unflushed := if boot.removesUnflushed then none else archive.unflushed
    cleanShutdown := if boot.removesShutdown then none else archive.cleanShutdown }

/-- Clearing both markers is what a process that lives does where nothing keeps it from it. -/
theorem Boot.clear_eq {boot : Boot} (unflushed : boot.removesUnflushed)
    (shutdown : boot.removesShutdown) (archive : Archive) :
    boot.clear archive = archive.clearCleanShutdown := by
  simp only [Boot.clear, unflushed, shutdown, if_true, Archive.clearCleanShutdown]

/-- The gaps a start has to report. -/
def restartGaps (archive : Archive) (nowMicros : Int) : List (Ticker × Gap) :=
  match archive.restartWindow nowMicros with
  | none => []
  | some (fromMicros, toMicros, cause) =>
      ((({ clipped := wiring.clipped } : Coverage).establish wiring.declared fromMicros).gapsFor
        wiring.declared toMicros cause).2

/-- Report the window no process was capturing, then clear the markers. -/
def reportRestartGap (record : Restarts) (boot : Boot) : Restarts :=
  let opened := { record with archive := record.archive.reopened boot.pid boot.nextSeq }
  let emitted := emitGaps render wiring (restartGaps wiring opened.archive boot.nowMicros)
    boot.fates opened
  if emitted.2 then { emitted.1 with archive := boot.clear emitted.1.archive } else emitted.1

/-- The intervals recorded as gaps of one pair. -/
def gapsOf (pair : Pair) (recorded : List (Ticker × Gap)) : List (Int × Int) :=
  (recorded.filter fun row => row.1 = pair.1 ∧ row.2.series = pair.2).map fun row =>
    (row.2.fromMicros, row.2.toMicros)

/-- Where a window would start now: the last durable receipt, or an earlier one a flush left
undurable. -/
def windowStart (archive : Archive) : Option Int :=
  archive.lastDurable.map fun durable => (archive.unflushed.map (min durable)).getD durable

/-- A start that writes every row it has to write. -/
def Boot.Completes (boot : Boot) : Prop :=
  wiring.declared.length ≤ boot.fates.length ∧ ∀ fate ∈ boot.fates, fate = .committed

/-- A window starts no later than where every declared pair's rows reach, from the last durable
receipt before the first start. -/
def StartsReached (durable stop : Int) (record : Restarts) (_ : Boot) : Prop :=
  ∀ pair ∈ wiring.declared, ∀ start, windowStart record.archive = some start →
    min start stop ≤ Intervals.reached durable (gapsOf pair record.recorded)

/-- A window opens exactly where it starts before now. -/
theorem restartGaps_eq (archive : Archive) (nowMicros : Int) {start : Int}
    (isStart : windowStart archive = some start) :
    restartGaps wiring archive nowMicros =
      if start < nowMicros then
        wiring.declared.map fun pair => (pair.1, ⟨pair.2, start, nowMicros,
          if archive.cleanShutdown.isSome then .downtime else .crashUnflushed,
          wiring.clipped, none⟩)
      else [] := by
  obtain ⟨durable, isDurable, isMin⟩ := Option.map_eq_some_iff.mp isStart
  unfold restartGaps Archive.restartWindow
  rw [isDurable, Option.bind_some]
  simp only [isMin]
  by_cases opens : start < nowMicros
  · rw [if_neg (not_le_of_gt opens), if_pos opens]
    exact Coverage.gapsFor_establish wiring.clipped wiring.declared opens _
  · rw [if_pos (le_of_not_gt opens), if_neg opens]

/-- A record whose scope is its venue's, named by receipt, and durable to something. -/
structure Dated (archive : Archive) (durable : Int) : Prop where
  scope : archive.scope = some ("venue=".toList ++ wiring.venue.text)
  named : ReceiptNamed archive.tree ("venue=".toList ++ wiring.venue.text)
  isDurable : archive.lastDurable = some durable

/-- Where a window would start of a dated record. -/
def startOf (archive : Archive) (durable : Int) : Int :=
  (archive.unflushed.map (min durable)).getD durable

theorem Dated.windowStart {wiring : Wiring} {archive : Archive} {durable : Int}
    (dated : Dated wiring archive durable) :
    windowStart archive = some (startOf archive durable) := by
  rw [Capture.windowStart, dated.isDurable]
  rfl

/-- The payload a gap is stored as. -/
def gapPayload (ticker : Ticker) (gap : Gap) (archive : Archive) : Payload :=
  generatedPayload render (.venue wiring.venue.text)
    ((Envelope.new wiring.venue ticker (some gap.fromMicros) gap.toMicros (.gap gap)).stamped
      (.ofNat archive.nextSeq))

/-- A gap is one write, named by its end. -/
theorem emitGap_eq (ticker : Ticker) (gap : Gap) (fate : WriteFate) (archive : Archive) :
    emitGap render wiring ticker gap fate archive =
      { archive with nextSeq := archive.nextSeq + 1 }.write
        (gapPayload render wiring ticker gap archive).partition [gap.toMicros]
        (payloadFile [gapPayload render wiring ticker gap archive]) fate := by
  unfold emitGap recordGeneratedAt
  simp only [apply_ite Prod.fst, ite_self]
  rfl

section Emit

variable {render wiring}

/-- What one row leaves: a dated record, durable up to the row's end where the row landed. -/
theorem Dated.emitGap {archive : Archive} {durable : Int} (dated : Dated wiring archive durable)
    {gap : Gap} (inRange : i64Min ≤ gap.toMicros ∧ gap.toMicros ≤ i64Max)
    (pid : archive.pid < 2 ^ 32) (fits : archive.flushSeq + 1 < 2 ^ 64) (ticker : Ticker)
    (fate : WriteFate) :
    Dated wiring (emitGap render wiring ticker gap fate archive)
      (if fate = .refused then durable else max durable gap.toMicros) := by
  rw [emitGap_eq]
  have within : ∀ time ∈ [gap.toMicros], i64Min ≤ time ∧ time ≤ i64Max := by
    simpa using inRange
  refine ⟨dated.scope, ReceiptNamed.write (by simp) within pid fits dated.named, ?_⟩
  have isDurable := dated.isDurable
  unfold Archive.lastDurable at isDurable ⊢
  rw [dated.scope, Option.getD_some] at isDurable
  change Option.map Prod.snd (Segments.lastDurable _ (archive.scope.getD [])) = _
  rw [dated.scope, Option.getD_some]
  by_cases refused : fate = .refused
  · rw [if_pos refused, refused]
    exact isDurable
  · rw [if_neg refused]
    exact lastDurable_write (by simp) within pid fits dated.named refused
      (under_display (gapPayload render wiring ticker gap archive)) (by simp) isDurable

/-- What a start's rows leave: a dated record no less durable, and rows of what it had to
report. -/
structure Emitted (wiring : Wiring) (gaps : List (Ticker × Gap)) (before : Restarts)
    (durable : Int) (after : Restarts) : Prop where
  dated : ∃ later, durable ≤ later ∧ Dated wiring after.archive later
  unflushed : after.archive.unflushed = before.archive.unflushed
  rows : ∃ rows, after.recorded = before.recorded ++ rows ∧ rows ⊆ gaps

theorem emitGaps_spec {gaps : List (Ticker × Gap)}
    (inRange : ∀ row ∈ gaps, i64Min ≤ row.2.toMicros ∧ row.2.toMicros ≤ i64Max)
    {record : Restarts} {durable : Int} (dated : Dated wiring record.archive durable)
    (pid : record.archive.pid < 2 ^ 32) (fits : record.archive.flushSeq + gaps.length < 2 ^ 64)
    (fates : List WriteFate) :
    Emitted wiring gaps record durable (emitGaps render wiring gaps fates record).1 := by
  induction gaps generalizing fates record durable with
  | nil => exact ⟨⟨durable, le_rfl, dated⟩, rfl, [], by simp [emitGaps], by simp⟩
  | cons row gaps inductionHypothesis =>
      cases fates with
      | nil => exact ⟨⟨durable, le_rfl, dated⟩, rfl, [], by simp [emitGaps], by simp⟩
      | cons fate fates =>
          rw [List.length_cons] at fits
          have one := @Dated.emitGap render wiring _ _ dated _ (inRange row List.mem_cons_self)
            pid (by omega) row.1 fate
          have flushSeq : (emitGap render wiring row.1 row.2 fate record.archive).flushSeq =
              record.archive.flushSeq + 1 := by
            rw [emitGap_eq]
            rfl
          have samePid : (emitGap render wiring row.1 row.2 fate record.archive).pid =
              record.archive.pid := by
            rw [emitGap_eq]
            rfl
          have sameMarker : (emitGap render wiring row.1 row.2 fate record.archive).unflushed =
              record.archive.unflushed := by
            rw [emitGap_eq]
            rfl
          obtain ⟨⟨later, isLater, laterDated⟩, unflushed, rows, isRows, among⟩ :=
            @inductionHypothesis
              (fun other member => inRange other (List.mem_cons_of_mem _ member))
              ⟨emitGap render wiring row.1 row.2 fate record.archive,
                record.recorded ++ if fate = .refused then [] else [row]⟩ _ one
              (by rw [samePid]; exact pid) (by rw [flushSeq]; omega) fates
          refine ⟨⟨later, le_trans ?_ isLater, laterDated⟩, unflushed.trans sameMarker,
            (if fate = .refused then [] else [row]) ++ rows, ?_, ?_⟩
          · split
            · exact le_rfl
            · exact le_max_left _ _
          · rw [← List.append_assoc]
            exact isRows
          · apply List.append_subset.mpr
            refine ⟨?_, fun other member => List.mem_cons_of_mem _ (among member)⟩
            split
            · exact List.nil_subset _
            · exact by simp

/-- Rows that are all written are all recorded, and the process is still there. -/
theorem emitGaps_completes {gaps : List (Ticker × Gap)} {fates : List WriteFate}
    (enough : gaps.length ≤ fates.length) (committed : ∀ fate ∈ fates, fate = .committed)
    (record : Restarts) :
    (emitGaps render wiring gaps fates record).1.recorded = record.recorded ++ gaps := by
  induction gaps generalizing fates record with
  | nil => simp [emitGaps]
  | cons row gaps inductionHypothesis =>
      cases fates with
      | nil => simp at enough
      | cons fate fates =>
          have isCommitted := committed fate List.mem_cons_self
          have rest := inductionHypothesis (Nat.le_of_succ_le_succ enough)
            (fun other member => committed other (List.mem_cons_of_mem _ member))
            ⟨emitGap render wiring row.1 row.2 fate record.archive,
              record.recorded ++ if fate = .refused then [] else [row]⟩
          rw [emitGaps, rest, isCommitted]
          simp

end Emit

section Run

variable {render wiring}

/-- One start adds rows of its own window, which the next window does not start before. -/
structure Reported (wiring : Wiring) (before : Restarts) (durable start : Int)
    (after : Restarts) : Prop where
  dated : ∃ later, Dated wiring after.archive later ∧ start ≤ startOf after.archive later
  rows : ∃ rows, after.recorded = before.recorded ++ rows ∧
    ∀ row ∈ rows, row.2.fromMicros = start

theorem reportRestartGap_spec {record : Restarts} {durable : Int}
    (dated : Dated wiring record.archive durable) (boot : Boot) :
    Reported wiring record durable (startOf record.archive durable)
      (reportRestartGap render wiring record boot) := by
  have opened : Dated wiring (record.archive.reopened boot.pid boot.nextSeq) durable :=
    ⟨dated.scope, dated.named, dated.isDurable⟩
  have gaps := restartGaps_eq wiring (record.archive.reopened boot.pid boot.nextSeq)
    boot.nowMicros opened.windowStart
  have ofWindow : ∀ row ∈ restartGaps wiring (record.archive.reopened boot.pid boot.nextSeq)
      boot.nowMicros, row.2.fromMicros = startOf record.archive durable ∧
        row.2.toMicros = boot.nowMicros := by
    intro row member
    rw [gaps] at member
    split at member
    · obtain ⟨pair, _, rfl⟩ := List.mem_map.mp member
      exact ⟨rfl, rfl⟩
    · cases member
  have few : (restartGaps wiring (record.archive.reopened boot.pid boot.nextSeq)
      boot.nowMicros).length < 2 ^ 64 := by
    rw [gaps]
    split
    · rw [List.length_map]
      exact wiring.counted
    · simp
  obtain ⟨⟨later, isLater, laterDated⟩, unflushed, rows, isRows, among⟩ :=
    @emitGaps_spec render wiring _
      (fun row member => by rw [(ofWindow row member).2]; exact boot.inRange)
      { record with archive := record.archive.reopened boot.pid boot.nextSeq } durable opened
      boot.pid.isLt (by simpa [Archive.reopened] using few) boot.fates
  have starts : ∀ cleared : Option Int, cleared = none ∨ cleared = record.archive.unflushed →
      startOf record.archive durable ≤ (cleared.map (min later)).getD later := by
    rintro cleared (rfl | rfl)
    · refine le_trans ?_ isLater
      unfold startOf
      cases record.archive.unflushed with
      | none => exact le_rfl
      | some micros => exact min_le_left _ _
    · unfold startOf
      cases record.archive.unflushed with
      | none => exact isLater
      | some micros => exact min_le_min_right _ isLater
  unfold reportRestartGap
  simp only
  split
  · refine ⟨⟨later, ⟨laterDated.scope, laterDated.named, laterDated.isDurable⟩, ?_⟩, rows, isRows,
      fun row member => (ofWindow row (among member)).1⟩
    apply starts
    simp only [Boot.clear, unflushed]
    split
    · exact .inl rfl
    · exact .inr rfl
  · refine ⟨⟨later, laterDated, ?_⟩, rows, isRows,
      fun row member => (ofWindow row (among member)).1⟩
    exact starts _ (.inr unflushed)

/-- A start that writes every row records its whole window for every declared pair. -/
theorem recorded_of_completes {record : Restarts} {durable : Int}
    (dated : Dated wiring record.archive durable) {boot : Boot}
    (completes : boot.Completes wiring) :
    (reportRestartGap render wiring record boot).recorded = record.recorded ++
      restartGaps wiring (record.archive.reopened boot.pid boot.nextSeq) boot.nowMicros := by
  have opened : Dated wiring (record.archive.reopened boot.pid boot.nextSeq) durable :=
    ⟨dated.scope, dated.named, dated.isDurable⟩
  have enough : (restartGaps wiring (record.archive.reopened boot.pid boot.nextSeq)
      boot.nowMicros).length ≤ boot.fates.length := by
    rw [restartGaps_eq wiring _ boot.nowMicros opened.windowStart]
    split
    · rw [List.length_map]
      exact completes.1
    · exact Nat.zero_le _
  have recorded := @emitGaps_completes render wiring _ _ enough completes.2
    { record with archive := record.archive.reopened boot.pid boot.nextSeq }
  unfold reportRestartGap
  simp only
  split
  · exact recorded
  · exact recorded

/-- The gaps of one pair, of rows appended. -/
theorem gapsOf_append (pair : Pair) (first second : List (Ticker × Gap)) :
    gapsOf pair (first ++ second) = gapsOf pair first ++ gapsOf pair second := by
  rw [gapsOf, List.filter_append, List.map_append]
  rfl

theorem mem_gapsOf {pair : Pair} {recorded : List (Ticker × Gap)} {interval : Int × Int} :
    interval ∈ gapsOf pair recorded ↔ ∃ row ∈ recorded, (row.1 = pair.1 ∧ row.2.series = pair.2) ∧
      (row.2.fromMicros, row.2.toMicros) = interval := by
  simp only [gapsOf, List.mem_map, List.mem_filter, decide_eq_true_eq, and_assoc]

/-- Every row a run of starts adds is of a window no earlier than the one it opened on. -/
theorem rows_of_exec {boots : List Boot} {record final : Restarts} {durable : Int}
    (dated : Dated wiring record.archive durable)
    (run : exec (fun record boot => some (reportRestartGap render wiring record boot)) boots
      record = some final) :
    ∃ rows, final.recorded = record.recorded ++ rows ∧
      ∀ row ∈ rows, startOf record.archive durable ≤ row.2.fromMicros := by
  induction boots generalizing record durable with
  | nil =>
      obtain rfl := Option.some.inj run
      exact ⟨[], by simp, by simp⟩
  | cons boot boots inductionHypothesis =>
      obtain ⟨next, isNext, rest⟩ := exec_cons_eq_some_iff.mp run
      obtain rfl := Option.some.inj isNext
      obtain ⟨⟨later, laterDated, isLater⟩, rows, isRows, starts⟩ :=
        @reportRestartGap_spec render wiring record durable dated boot
      obtain ⟨others, isOthers, othersLater⟩ := inductionHypothesis laterDated rest
      refine ⟨rows ++ others, ?_, ?_⟩
      · rw [isOthers, isRows, List.append_assoc]
      · intro row member
        rcases List.mem_append.mp member with inRows | inOthers
        · exact (starts row inRows).symm.le
        · exact isLater.trans (othersLater row inOthers)

theorem startsReached_iff {record : Restarts} {lastDurable durable stop : Int}
    (dated : Dated wiring record.archive lastDurable) (boot : Boot) :
    StartsReached wiring durable stop record boot ↔
      ∀ pair ∈ wiring.declared, min (startOf record.archive lastDurable) stop ≤
        Intervals.reached durable (gapsOf pair record.recorded) := by
  unfold StartsReached
  rw [dated.windowStart]
  simp only [Option.some.injEq, forall_eq']

/-- Rows of one window, and of later ones, cover what is left exactly where the window starts
where the pair's rows already reach and the later ones cover the rest. -/
theorem covers_window_iff {recorded own others : List (Ticker × Gap)} {start durable stop : Int}
    (together : ∀ row ∈ own, row.2.fromMicros = start)
    (later : ∀ row ∈ others, start ≤ row.2.fromMicros) (pair : Pair) :
    Intervals.Covers (gapsOf pair (own ++ others))
        (Intervals.reached durable (gapsOf pair recorded)) stop ↔
      min start stop ≤ Intervals.reached durable (gapsOf pair recorded) ∧
        Intervals.Covers (gapsOf pair others)
          (Intervals.reached durable (gapsOf pair (recorded ++ own))) stop := by
  rw [gapsOf_append, gapsOf_append, Intervals.reached_append]
  apply Intervals.covers_append_iff
  · intro interval member
    obtain ⟨row, isRow, _, rfl⟩ := mem_gapsOf.mp member
    exact together row isRow
  · intro interval member
    obtain ⟨row, isRow, _, rfl⟩ := mem_gapsOf.mp member
    exact later row isRow

/-- The start that writes every row reaches its own moment, or had nothing left to report. -/
theorem covers_last_iff {record : Restarts} {lastDurable durable : Int}
    (dated : Dated wiring record.archive lastDurable) {last : Boot}
    (completes : last.Completes wiring) {rows : List (Ticker × Gap)}
    (isRows : (reportRestartGap render wiring record last).recorded = record.recorded ++ rows)
    {pair : Pair} (declared : pair ∈ wiring.declared) :
    Intervals.Covers (gapsOf pair rows)
        (Intervals.reached durable (gapsOf pair record.recorded)) last.nowMicros ↔
      min (startOf record.archive lastDurable) last.nowMicros ≤
        Intervals.reached durable (gapsOf pair record.recorded) := by
  have isWindow : rows = restartGaps wiring
      (record.archive.reopened last.pid last.nextSeq) last.nowMicros := by
    rw [recorded_of_completes dated completes] at isRows
    exact (List.append_cancel_left isRows).symm
  have opened : Dated wiring (record.archive.reopened last.pid last.nextSeq) lastDurable :=
    ⟨dated.scope, dated.named, dated.isDurable⟩
  rw [restartGaps_eq wiring _ last.nowMicros opened.windowStart] at isWindow
  change rows = if startOf record.archive lastDurable < last.nowMicros then _ else _ at isWindow
  by_cases opens : startOf record.archive lastDurable < last.nowMicros
  · rw [if_pos opens] at isWindow
    have together : ∀ row ∈ rows, row.2.fromMicros = startOf record.archive lastDurable := by
      intro row member
      rw [isWindow] at member
      obtain ⟨_, _, rfl⟩ := List.mem_map.mp member
      rfl
    have split := @covers_window_iff record.recorded rows [] _ durable last.nowMicros together
      (by simp) pair
    rw [List.append_nil] at split
    rw [split]
    apply and_iff_left_of_imp
    intro _
    apply Intervals.covers_nil.mpr
    have held : ((startOf record.archive lastDurable, last.nowMicros) : Int × Int) ∈
        gapsOf pair (record.recorded ++ rows) := by
      have member : (pair.1, _) ∈ rows := isWindow ▸ List.mem_map_of_mem declared
      exact mem_gapsOf.mpr ⟨_, List.mem_append_right _ member, ⟨rfl, rfl⟩, rfl⟩
    exact Intervals.le_reached_of_mem held
  · rw [if_neg opens] at isWindow
    rw [isWindow, min_eq_right (le_of_not_gt opens)]
    exact Intervals.covers_nil

/-- The rows a run adds cover what its earlier rows leave exactly where each start's window
starts where every declared pair's rows already reach. -/
theorem covers_iff_of_exec {boots : List Boot} {last : Boot} (completes : last.Completes wiring)
    {durable lastDurable : Int} {record final : Restarts}
    (dated : Dated wiring record.archive lastDurable)
    (run : exec (fun record boot => some (reportRestartGap render wiring record boot))
      (boots ++ [last]) record = some final)
    {rows : List (Ticker × Gap)} (isRows : final.recorded = record.recorded ++ rows) :
    (∀ pair ∈ wiring.declared, Intervals.Covers (gapsOf pair rows)
      (Intervals.reached durable (gapsOf pair record.recorded)) last.nowMicros) ↔
      Guarded (fun record boot => some (reportRestartGap render wiring record boot))
        (StartsReached wiring durable last.nowMicros) (boots ++ [last]) record := by
  induction boots generalizing record rows lastDurable with
  | nil =>
      obtain rfl := Option.some.inj run
      change _ ↔ StartsReached wiring durable last.nowMicros record last ∧ ∀ _, _ → True
      rw [startsReached_iff dated, and_iff_left (fun _ _ => trivial)]
      apply forall₂_congr
      intro pair declared
      exact covers_last_iff dated completes isRows declared
  | cons boot boots inductionHypothesis =>
      obtain ⟨next, isNext, rest⟩ := exec_cons_eq_some_iff.mp run
      obtain rfl := Option.some.inj isNext
      obtain ⟨⟨later, laterDated, isLater⟩, own, isOwn, together⟩ :=
        @reportRestartGap_spec render wiring record lastDurable dated boot
      obtain ⟨others, isOthers, othersLater⟩ := rows_of_exec laterDated rest
      have isAll : rows = own ++ others := by
        rw [isOwn, List.append_assoc, isRows] at isOthers
        exact List.append_cancel_left isOthers
      have restCovers := inductionHypothesis laterDated rest isOthers
      rw [isOwn] at restCovers
      change _ ↔ StartsReached wiring durable last.nowMicros record boot ∧ _
      rw [startsReached_iff dated, isAll]
      simp only [covers_window_iff together
        (fun row member => isLater.trans (othersLater row member)), forall₂_and]
      apply and_congr_right
      intro _
      rw [restCovers]
      constructor
      · intro guarded other isOther
        obtain rfl := Option.some.inj isOther
        exact guarded
      · intro guarded
        exact guarded _ rfl

end Run

/-- **Restart-gap reporting across starts that die or lose a row.**  After a start that writes
every row, the rows recorded since the first cover every declared pair from the last durable
receipt before it to the last start's own moment, exactly where no start's window began past
where some declared pair's rows reached. -/
theorem restartGaps_cover_iff (record : Restarts) (durable : Int)
    (dated : Dated wiring record.archive durable) (unrecorded : record.recorded = [])
    (boots : List Boot) (last : Boot) (completes : last.Completes wiring) (final : Restarts)
    (run : exec (fun record boot => some (reportRestartGap render wiring record boot))
      (boots ++ [last]) record = some final) :
    (∀ pair ∈ wiring.declared,
      Intervals.Covers (gapsOf pair final.recorded) durable last.nowMicros) ↔
      Guarded (fun record boot => some (reportRestartGap render wiring record boot))
        (StartsReached wiring durable last.nowMicros) (boots ++ [last]) record := by
  have covers := @covers_iff_of_exec render wiring boots last completes durable durable record
    final dated run final.recorded (by rw [unrecorded, List.nil_append])
  rw [unrecorded] at covers
  exact covers

def robinhood : Venue := ⟨"robinhood".toList, by decide⟩

def tesla : Ticker := ⟨"TSLA".toList, by decide⟩

def nvidia : Ticker := ⟨"NVDA".toList, by decide⟩

/-- A venue with two declared pairs. -/
def twoStocks : Wiring where
  venue := robinhood
  declared := [(tesla, .trades), (nvidia, .trades)]
  clipped := .continuous
  counted := by decide

/-- A quote received at a moment. -/
def stockQuote (recvMicros : Int) : Payload :=
  ⟨0, recvMicros, .venue robinhood.text, "quotes".toList, "quotes".toList, none, .streamed, []⟩

/-- A record durable to one quote. -/
def quotedTo (recvMicros : Int) : Restarts where
  archive :=
    { tree := (∅ : ArchiveTree).insert
        ⟨(stockQuote recvMicros).partition, (Cursor.time recvMicros recvMicros 1 1).fileName⟩
        (payloadFile [stockQuote recvMicros])
      scope := some ("venue=".toList ++ robinhood.text) }

/-- A start that goes through its rows with these fates. -/
def startAt (nowMicros : Int) (inRange : i64Min ≤ nowMicros ∧ nowMicros ≤ i64Max)
    (fates : List WriteFate) : Boot where
  nowMicros := nowMicros
  inRange := inRange
  pid := 2
  nextSeq := 1
  fates := fates
  removesShutdown := true
  removesUnflushed := true

/-- A start that dies with as many rows written, and one that writes both of its own. -/
def twoStarts (rows : Nat) : Restarts :=
  [startAt 20 (by decide) (List.replicate rows .committed),
    startAt 30 (by decide) [.committed, .committed]].foldl
      (reportRestartGap (fun _ => []) twoStocks) (quotedTo 10)

theorem dated_quotedTo : Dated twoStocks (quotedTo 10).archive 10 := by
  refine ⟨rfl, ?_, by decide +kernel⟩
  intro path inTree _ cursor parsed
  simp only [quotedTo, AList.mem_insert, AList.notMem_empty, or_false] at inTree
  rw [inTree, Cursor.parse_fileName (by decide)] at parsed
  obtain rfl := Option.some.inj parsed
  rfl

/-- A start that dies before its first row leaves its window to the next. -/
theorem restartGaps_cover_of_none_written :
    twoStocks.declared.Forall fun pair =>
      Intervals.Covers (gapsOf pair (twoStarts 0).recorded) 10 30 := by
  rw [List.forall_iff_forall_mem]
  apply (restartGaps_cover_iff (fun _ => []) twoStocks (quotedTo 10) 10 dated_quotedTo rfl
    [startAt 20 (by decide) []] (startAt 30 (by decide) [.committed, .committed])
    ⟨by decide, by decide⟩ (twoStarts 0) rfl).mpr
  have reached : ∀ record boot, windowStart record.archive = some 10 →
      StartsReached twoStocks 10 30 record boot := by
    intro record boot isStart pair _ start isOther
    rw [isStart] at isOther
    obtain rfl := Option.some.inj isOther
    exact (min_le_left _ _).trans (Intervals.le_reached _ _)
  refine ⟨reached _ _ (by decide +kernel), ?_⟩
  intro next isNext
  obtain rfl := Option.some.inj isNext
  exact ⟨reached _ _ (by decide +kernel), fun _ _ => trivial⟩

/-- **A start that dies between two rows loses the other pair's window.**  Its first row is
durable to its own moment, and the next start dates every pair from there. -/
theorem half_reported_window_lost :
    ∃ pair ∈ twoStocks.declared,
      ¬ Intervals.Covers (gapsOf pair (twoStarts 1).recorded) 10 30 := by
  refine ⟨(nvidia, .trades), by simp [twoStocks], ?_⟩
  intro covers
  obtain ⟨interval, member, before, _⟩ := covers 10 (by decide) (by decide)
  have rows : gapsOf (nvidia, .trades) (twoStarts 1).recorded = [(20, 30)] := by decide +kernel
  rw [rows, List.mem_singleton] at member
  rw [member] at before
  exact absurd before (by decide)

end Capture
end Datawatch
