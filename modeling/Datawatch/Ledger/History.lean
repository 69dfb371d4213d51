import Datawatch.Library.StableSort
import Datawatch.Replay.Order
import Datawatch.Ledger.Event

/-!
# An account's history, kept between reads

One row for each event, however often its bytes were archived, and extended rather than read
again: each read starts at the newest receipt of the last.
-/

namespace Datawatch
namespace Ledger

open Library Library.StableSort Segments Wire Record Replay

variable (toJson : Event → Text) (normalise : Payload → Except Text (List Envelope))
  (venue account : Text)

/-- A row's identity: equal for two receipts of one event, and only for those. -/
def identity (envelope : Envelope) : Text :=
  match envelope.event with
  | .fill fill =>
      "fill:".toList ++ Text.renderNat fill.tradeId.toNat ++ ':' ::
        Text.renderNat fill.orderId.toNat
  | event =>
      envelope.kind.asStr ++ ':' :: Text.renderInt (envelope.atMicros.getD 0) ++ ':' ::
        toJson event

/-- An account's history: its rows, what they identify, and how far the record was read, for
the kinds and the aliases of our own accounts it was read with. -/
structure History where
  rows : List Envelope := []
  seen : List Text := []
  throughMicros : Option Int := none
  kinds : List Kind := []
  ours : List (Text × Account) := []

/-- The aliases of our own accounts, by the fingerprint of their address. -/
abbrev Aliases := List (Text × Account)

/-- A counterparty that is one of ours, named by alias. -/
def aliased (ours : Aliases) (row : Envelope) : Envelope :=
  match row.event with
  | .ledgerUpdate update =>
      match update.counterparty with
      | some (.fingerprint fingerprint) =>
          match ours.lookup fingerprint with
          | some name =>
              { row with
                event := .ledgerUpdate { update with counterparty := some (.account name) } }
          | none => row
      | some (.account _) | none => row
  | _ => row

/-- What a read has taken so far. -/
structure Taking where
  through : Option Int := none
  fresh : List Envelope := []
  freshIds : List Text := []

/-- Take one row, where it is of a wanted kind and not one already held. -/
def takeRow (kinds : List Kind) (ours : Aliases) (seen : List Text) (taking : Taking)
    (row : Envelope) : Taking :=
  if row.kind ∉ kinds then taking
  else if identity toJson row ∈ seen ∨ identity toJson row ∈ taking.freshIds then taking
  else
    { taking with
      fresh := taking.fresh ++ [aliased ours row]
      freshIds := identity toJson row :: taking.freshIds }

/-- The newest receipt read, a payload's among them. -/
def Taking.receive (taking : Taking) (payload : Payload) : Taking :=
  { taking with
    through := some ((taking.through.map (max · payload.recvMicros)).getD payload.recvMicros) }

/-- Take one payload's rows.  One that will not normalise contributes none. -/
def takePayload (kinds : List Kind) (ours : Aliases) (seen : List Text) (taking : Taking)
    (payload : Payload) : Taking :=
  if payload.kind ∉ kinds.map Kind.asStr then taking.receive payload
  else
    match normalise payload with
    | .error _ => taking.receive payload
    | .ok rows => rows.foldl (takeRow toJson kinds ours seen) (taking.receive payload)

/-- Take every payload's rows. -/
def takeAll (kinds : List Kind) (ours : Aliases) (seen : List Text) (taking : Taking)
    (payloads : List Payload) : Taking :=
  payloads.foldl (takePayload toJson normalise kinds ours seen) taking

/-- One scope for each kind, so a partition of a kind not asked for is never opened. -/
def scopesOf (kinds : List Kind) : List Text :=
  kinds.map fun kind =>
    "venue=".toList ++ venue ++ "/account=".toList ++ account ++ "/kind=".toList ++ kind.asStr

/-- Venue time, then receipt: the order the events happened in. -/
def happensBefore (first second : Envelope) : Bool :=
  decide (first.moment < second.moment ∨
    (first.moment = second.moment ∧ first.recvMicros ≤ second.recvMicros))

/-- The history a read starts from: nothing where the kinds or the aliases have changed. -/
def History.reset (history : History) (kinds : List Kind) (ours : Aliases) : History :=
  if history.kinds ≠ kinds ∨ history.ours ≠ ours then { kinds, ours } else history

/-- Read what the record gained since the last call, and merge it in. -/
def History.extend (archive : ArchiveTree) (fails : Path → Bool) (kinds : List Kind)
    (ours : Aliases) (history : History) : History × Except ReplayError Nat :=
  let history := history.reset kinds ours
  match streamRange archive fails (some (scopesOf venue account kinds))
      (history.throughMicros.getD i64Min) i64Max with
  | (_, some error) => (history, .error error)
  | (payloads, none) =>
      let taken := takeAll toJson normalise kinds ours history.seen
        { through := history.throughMicros } payloads
      ({ history with
          seen := history.seen ++ taken.freshIds
          throughMicros := taken.through
          rows :=
            if 0 < taken.fresh.length then
              (history.rows ++ taken.fresh).insertionSort fun first second =>
                happensBefore first second = true
            else history.rows },
        .ok taken.fresh.length)

section Take

variable {toJson normalise} {kinds : List Kind} {ours : Aliases}

/-- A taking that has held what another found held. -/
structure Ahead (front : List Envelope) (seen : List Text) (whole part : Taking) : Prop where
  through : whole.through = part.through
  fresh : whole.fresh = front ++ part.fresh
  ids : ∀ id, id ∈ whole.freshIds ↔ id ∈ seen ∨ id ∈ part.freshIds

theorem Ahead.takeRow {front : List Envelope} {seen : List Text} {whole part : Taking}
    (ahead : Ahead front seen whole part) (row : Envelope) :
    Ahead front seen (takeRow toJson kinds ours [] whole row)
      (takeRow toJson kinds ours seen part row) := by
  have sameTest : (identity toJson row ∈ [] ∨ identity toJson row ∈ whole.freshIds) ↔
      (identity toJson row ∈ seen ∨ identity toJson row ∈ part.freshIds) := by
    rw [ahead.ids]
    simp
  unfold Ledger.takeRow
  by_cases wanted : row.kind ∉ kinds
  · rw [if_pos wanted, if_pos wanted]
    exact ahead
  · rw [if_neg wanted, if_neg wanted]
    by_cases held : identity toJson row ∈ seen ∨ identity toJson row ∈ part.freshIds
    · rw [if_pos (sameTest.mpr held), if_pos held]
      exact ahead
    · rw [if_neg fun isHeld => held (sameTest.mp isHeld), if_neg held]
      refine ⟨ahead.through, ?_, ?_⟩
      · rw [ahead.fresh, List.append_assoc]
      · intro id
        simp only [List.mem_cons, ahead.ids]
        tauto

theorem Ahead.takeRows {front : List Envelope} {seen : List Text} {whole part : Taking}
    (ahead : Ahead front seen whole part) (rows : List Envelope) :
    Ahead front seen (rows.foldl (Ledger.takeRow toJson kinds ours []) whole)
      (rows.foldl (Ledger.takeRow toJson kinds ours seen) part) := by
  induction rows generalizing whole part with
  | nil => exact ahead
  | cons row rows inductionHypothesis => exact inductionHypothesis (ahead.takeRow row)

theorem Ahead.takePayload {front : List Envelope} {seen : List Text} {whole part : Taking}
    (ahead : Ahead front seen whole part) (payload : Payload) :
    Ahead front seen (takePayload toJson normalise kinds ours [] whole payload)
      (takePayload toJson normalise kinds ours seen part payload) := by
  have received : Ahead front seen (whole.receive payload) (part.receive payload) :=
    ⟨by simp only [Taking.receive, ahead.through], ahead.fresh, ahead.ids⟩
  unfold Ledger.takePayload
  split
  · exact received
  · cases normalise payload with
    | error reason => exact received
    | ok rows => exact received.takeRows rows

/-- **Taking with what is already held known apart adds the rows a whole read would.** -/
theorem Ahead.takeAll {front : List Envelope} {seen : List Text} {whole part : Taking}
    (ahead : Ahead front seen whole part) (payloads : List Payload) :
    Ahead front seen (takeAll toJson normalise kinds ours [] whole payloads)
      (takeAll toJson normalise kinds ours seen part payloads) := by
  induction payloads generalizing whole part with
  | nil => exact ahead
  | cons payload payloads inductionHypothesis =>
      exact inductionHypothesis (ahead.takePayload payload)

theorem takeAll_append (seen : List Text) (taking : Taking) (first second : List Payload) :
    takeAll toJson normalise kinds ours seen taking (first ++ second) =
      takeAll toJson normalise kinds ours seen
        (takeAll toJson normalise kinds ours seen taking first) second :=
  List.foldl_append

/-- Every row of a payload that a read would take is held. -/
def Held (normalise : Payload → Except Text (List Envelope)) (kinds : List Kind)
    (toJson : Event → Text) (seen : List Text) (payload : Payload) : Prop :=
  payload.kind ∈ kinds.map Kind.asStr → ∀ rows, normalise payload = .ok rows →
    ∀ row ∈ rows, row.kind ∈ kinds → identity toJson row ∈ seen

theorem takeRows_of_held {seen : List Text} {rows : List Envelope}
    (held : ∀ row ∈ rows, row.kind ∈ kinds → identity toJson row ∈ seen) (taking : Taking) :
    rows.foldl (takeRow toJson kinds ours seen) taking = taking := by
  induction rows with
  | nil => rfl
  | cons row rows inductionHypothesis =>
      have unchanged : takeRow toJson kinds ours seen taking row = taking := by
        unfold takeRow
        split
        · rfl
        · rename_i wanted
          rw [if_pos (.inl (held row List.mem_cons_self (not_not.mp wanted)))]
      rw [List.foldl_cons, unchanged]
      exact inductionHypothesis fun row member => held row (List.mem_cons_of_mem _ member)

/-- A payload taken before, and received no later than what was, adds nothing. -/
theorem takePayload_of_held {seen : List Text} {payload : Payload}
    (held : Held normalise kinds toJson seen payload) {taking : Taking} {through : Int}
    (isThrough : taking.through = some through) (received : payload.recvMicros ≤ through) :
    takePayload toJson normalise kinds ours seen taking payload = taking := by
  have unmoved : taking.receive payload = taking := by
    cases taking with
    | mk found fresh freshIds =>
        obtain rfl : found = some through := isThrough
        simp [Taking.receive, max_eq_left received]
  unfold takePayload
  rw [unmoved]
  split
  · rfl
  · rename_i wanted
    cases normalised : normalise payload with
    | error reason => rfl
    | ok rows => exact takeRows_of_held (held (not_not.mp wanted) rows normalised) taking

theorem takeAll_of_held {seen : List Text} {payloads : List Payload} {taking : Taking}
    (held : ∀ payload ∈ payloads, Held normalise kinds toJson seen payload ∧
      ∃ through, taking.through = some through ∧ payload.recvMicros ≤ through) :
    takeAll toJson normalise kinds ours seen taking payloads = taking := by
  induction payloads with
  | nil => rfl
  | cons payload payloads inductionHypothesis =>
      obtain ⟨isHeld, through, isThrough, received⟩ := held payload List.mem_cons_self
      rw [takeAll, List.foldl_cons, takePayload_of_held isHeld isThrough received]
      exact inductionHypothesis fun payload member => held payload (List.mem_cons_of_mem _ member)

theorem freshIds_takeRow_subset (taking : Taking) (row : Envelope) :
    taking.freshIds ⊆ (takeRow toJson kinds ours [] taking row).freshIds := by
  unfold takeRow
  split
  · exact fun _ member => member
  · split
    · exact fun _ member => member
    · exact List.subset_cons_self _ _

theorem mem_freshIds_takeRow {taking : Taking} {row : Envelope} (wanted : row.kind ∈ kinds) :
    identity toJson row ∈ (takeRow toJson kinds ours [] taking row).freshIds := by
  unfold takeRow
  rw [if_neg (not_not.mpr wanted)]
  split
  · rename_i held
    simpa using held
  · exact List.mem_cons_self

theorem freshIds_takeRows {taking : Taking} {rows : List Envelope} :
    taking.freshIds ⊆ (rows.foldl (takeRow toJson kinds ours []) taking).freshIds ∧
      ∀ row ∈ rows, row.kind ∈ kinds →
        identity toJson row ∈ (rows.foldl (takeRow toJson kinds ours []) taking).freshIds := by
  induction rows generalizing taking with
  | nil => exact ⟨fun _ member => member, fun _ member => by cases member⟩
  | cons row rows inductionHypothesis =>
      obtain ⟨grows, takes⟩ :=
        @inductionHypothesis (takeRow toJson kinds ours [] taking row)
      refine ⟨fun id member => grows (freshIds_takeRow_subset taking row member), ?_⟩
      intro other member wanted
      rcases List.mem_cons.mp member with rfl | inRows
      · exact grows (mem_freshIds_takeRow wanted)
      · exact takes other inRows wanted

/-- What one payload leaves held: what was, and every row of it that was wanted. -/
theorem freshIds_takePayload (taking : Taking) (payload : Payload) :
    taking.freshIds ⊆ (takePayload toJson normalise kinds ours [] taking payload).freshIds ∧
      Held normalise kinds toJson
        (takePayload toJson normalise kinds ours [] taking payload).freshIds payload := by
  unfold takePayload
  split
  · rename_i unwanted
    exact ⟨fun _ member => member, fun wanted => absurd wanted unwanted⟩
  · cases normalised : normalise payload with
    | error reason =>
        refine ⟨fun _ member => member, ?_⟩
        intro _ rows isOk
        rw [normalised] at isOk
        cases isOk
    | ok rows =>
        have taken := @freshIds_takeRows toJson kinds ours (taking.receive payload) rows
        refine ⟨taken.1, ?_⟩
        intro _ others isOk
        obtain rfl : rows = others := Except.ok.inj (normalised.symm.trans isOk)
        exact taken.2

theorem Held.of_subset {seen later : List Text} {payload : Payload}
    (held : Held normalise kinds toJson seen payload) (within : seen ⊆ later) :
    Held normalise kinds toJson later payload :=
  fun wanted rows normalised row member isKind =>
    within (held wanted rows normalised row member isKind)

/-- What a whole read leaves held. -/
theorem freshIds_takeAll (taking : Taking) (payloads : List Payload) :
    taking.freshIds ⊆ (takeAll toJson normalise kinds ours [] taking payloads).freshIds ∧
      ∀ payload ∈ payloads, Held normalise kinds toJson
        (takeAll toJson normalise kinds ours [] taking payloads).freshIds payload := by
  induction payloads generalizing taking with
  | nil => exact ⟨List.Subset.refl _, by simp⟩
  | cons payload payloads inductionHypothesis =>
      obtain ⟨grows, held⟩ :=
        inductionHypothesis (takePayload toJson normalise kinds ours [] taking payload)
      obtain ⟨keeps, takes⟩ :=
        @freshIds_takePayload toJson normalise kinds ours taking payload
      refine ⟨fun id member => grows (keeps member), ?_⟩
      intro other member
      rcases List.mem_cons.mp member with rfl | inPayloads
      · exact takes.of_subset grows
      · exact held other inPayloads

theorem through_takeRows (seen : List Text) (taking : Taking) (rows : List Envelope) :
    (rows.foldl (takeRow toJson kinds ours seen) taking).through = taking.through := by
  induction rows generalizing taking with
  | nil => rfl
  | cons row rows inductionHypothesis =>
      rw [List.foldl_cons, inductionHypothesis]
      unfold takeRow
      split
      · rfl
      · split <;> rfl

theorem through_takePayload (seen : List Text) (taking : Taking) (payload : Payload) :
    (takePayload toJson normalise kinds ours seen taking payload).through =
      (taking.receive payload).through := by
  unfold takePayload
  split
  · rfl
  · cases normalise payload with
    | error reason => rfl
    | ok rows => exact through_takeRows seen _ rows

/-- How far a read reached: no earlier than it had, nor than any payload it read. -/
theorem through_takeAll (seen : List Text) (taking : Taking) (payloads : List Payload) :
    (∀ through, taking.through = some through → ∃ later,
        (takeAll toJson normalise kinds ours seen taking payloads).through = some later ∧
          through ≤ later) ∧
      ∀ payload ∈ payloads, ∃ later,
        (takeAll toJson normalise kinds ours seen taking payloads).through = some later ∧
          payload.recvMicros ≤ later := by
  induction payloads generalizing taking with
  | nil => exact ⟨fun through isThrough => ⟨through, isThrough, le_rfl⟩, by simp⟩
  | cons payload payloads inductionHypothesis =>
      obtain ⟨reads, received⟩ :=
        inductionHypothesis (takePayload toJson normalise kinds ours seen taking payload)
      have reached :=
        @through_takePayload toJson normalise kinds ours seen taking payload
      obtain ⟨later, isLater, atLeast⟩ := reads _ reached
      constructor
      · intro through isThrough
        refine ⟨later, isLater, ?_⟩
        simp only [isThrough, Option.map_some, Option.getD_some] at atLeast
        exact (le_max_left _ _).trans atLeast
      · intro other member
        rcases List.mem_cons.mp member with rfl | inPayloads
        · refine ⟨later, isLater, ?_⟩
          cases found : taking.through with
          | none => simpa [found] using atLeast
          | some through =>
              simp only [found, Option.map_some, Option.getD_some] at atLeast
              exact (le_max_right _ _).trans atLeast
        · exact received other inPayloads

/-- How far a read reached is where it was, or a payload's receipt. -/
theorem attained_takeAll {seen : List Text} {taking : Taking} {payloads : List Payload}
    {through : Int}
    (isThrough : (takeAll toJson normalise kinds ours seen taking payloads).through =
      some through) :
    taking.through = some through ∨ ∃ payload ∈ payloads, payload.recvMicros = through := by
  induction payloads generalizing taking with
  | nil => exact .inl isThrough
  | cons payload payloads inductionHypothesis =>
      rcases inductionHypothesis isThrough with reached | ⟨other, member, isOther⟩
      · rw [through_takePayload] at reached
        have isMax := Option.some.inj reached
        cases found : taking.through with
        | none =>
            simp only [found, Option.map_none, Option.getD_none] at isMax
            exact .inr ⟨payload, List.mem_cons_self, isMax⟩
        | some earlier =>
            simp only [found, Option.map_some, Option.getD_some] at isMax
            rcases le_total earlier payload.recvMicros with later | notLater
            · rw [max_eq_right later] at isMax
              exact .inr ⟨payload, List.mem_cons_self, isMax⟩
            · rw [max_eq_left notLater] at isMax
              exact .inl (by rw [isMax])
      · exact .inr ⟨other, List.mem_cons_of_mem _ member, isOther⟩

end Take

end Ledger
end Datawatch
