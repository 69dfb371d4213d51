import Datawatch.Library.Grouping
import Datawatch.Replay.Order

/-!
# A partition's path says what its payloads are

The path of a payload's partition is read back into its address, its kind and its day, so a row
read from where it was committed is the payload it was.
-/

namespace Datawatch
namespace Replay

open Library Segments Record Calendar Wire

/-- A text is one component of a path. -/
def Plain (text : Text) : Prop := '/' ∉ text

instance (text : Text) : Decidable (Plain text) := by
  unfold Plain
  infer_instance

/-- An address whose names are components of a path. -/
def PlainAddress : PayloadAddress → Prop
  | .venue name | .market name => Plain name
  | .account inner => Plain inner.venue ∧ Plain inner.account

instance (address : PayloadAddress) : Decidable (PlainAddress address) := by
  unfold PlainAddress
  split <;> infer_instance

/-- The levels of an address. -/
def levels : PayloadAddress → List Text
  | .venue name => ["venue=".toList ++ name]
  | .market name => ["market=".toList ++ name]
  | .account inner => ["venue=".toList ++ inner.venue, "account=".toList ++ inner.account]

theorem plain_append {first second : Text} (isFirst : Plain first) (isSecond : Plain second) :
    Plain (first ++ second) := by
  intro member
  rcases List.mem_append.mp member with inFirst | inSecond
  · exact isFirst inFirst
  · exact isSecond inSecond

/-- A key and a name are one component. -/
theorem components_level (key : Text) {name : Text} (plainName : Plain name)
    (plainKey : Plain key) (long : 1 < key.length) : components (key ++ name) = [key ++ name] := by
  have longer : 1 < (key ++ name).length := by
    rw [List.length_append]
    omega
  have plain := plain_append plainKey plainName
  generalize key ++ name = level at longer plain ⊢
  have apart : level ≠ [] ∧ level ≠ ['.'] := by
    constructor
    · rintro rfl
      simp at longer
    · rintro rfl
      simp at longer
  have whole : level.splitOn '/' = [level] := by
    have joined := @List.splitOn_intercalate Char [level] _ _ '/'
      (fun part member => by
        rw [List.mem_singleton.mp member]
        exact plain) (by simp)
    simpa using joined
  rw [components, whole, List.filter_cons_of_pos (by simpa using apart), List.filter_nil]

/-- The venue and the alias an address is an account's under. -/
def accountIn : PayloadAddress → Option (Text × Text)
  | .account inner => some (inner.venue, inner.account)
  | .venue _ | .market _ => none

theorem components_display {address : PayloadAddress} (plain : PlainAddress address) :
    components address.display = levels address := by
  cases address with
  | venue name =>
      have plainName : Plain name := plain
      exact components_level "venue=".toList plainName (by decide) (by decide)
  | market name =>
      have plainName : Plain name := plain
      exact components_level "market=".toList plainName (by decide) (by decide)
  | account inner =>
      obtain ⟨plainVenue, plainAccount⟩ := plain
      have split : (PayloadAddress.account inner).display =
          ("venue=".toList ++ inner.venue) ++ '/' :: ("account=".toList ++ inner.account) := by
        have slash : "/account=".toList = '/' :: "account=".toList := by decide
        change "venue=".toList ++ inner.venue ++ "/account=".toList ++ inner.account = _
        rw [slash, List.append_assoc]
        rfl
      have isVenue := components_level "venue=".toList plainVenue (by decide) (by decide)
      have isAccount := components_level "account=".toList plainAccount (by decide) (by decide)
      rw [split, components_append, isVenue, isAccount]
      rfl

/-- A partition's path is its address, its kind and its day. -/
theorem components_partitionOf {address : PayloadAddress} (plainAddress : PlainAddress address)
    {kind : Text} (plainKind : Plain kind) (recvMicros : Int) :
    components (partitionOf address kind recvMicros) =
      levels address ++ ["kind=".toList ++ kind, "date=".toList ++ dateOf recvMicros] := by
  have split : partitionOf address kind recvMicros = address.display ++
      '/' :: (("kind=".toList ++ kind) ++ '/' :: ("date=".toList ++ dateOf recvMicros)) := by
    simp [partitionOf]
  have isKind := components_level "kind=".toList plainKind (by decide) (by decide)
  have isDate := components_level "date=".toList (slash_not_mem_dateOf recvMicros) (by decide)
    (by decide)
  rw [split, components_append, components_append, components_display plainAddress, isKind,
    isDate]
  rfl

/-- A level is read under its own key. -/
theorem valueUnder_level (key name : Text) (rest : List Text) :
    valueUnder key ((key ++ name) :: rest) = some name := by
  rw [valueUnder, List.findSome?_cons, if_pos (List.prefix_append key name), List.drop_left]

/-- A key that starts otherwise is no prefix of a level. -/
theorem not_prefix_level (key other name : Text) (isKey : key ≠ [])
    (isOther : other ≠ []) (apart : key.head? ≠ other.head?) : ¬ key <+: other ++ name := by
  cases key with
  | nil => exact absurd rfl isKey
  | cons first key =>
      cases other with
      | nil => exact absurd rfl isOther
      | cons second other =>
          intro isPrefix
          rw [List.cons_append, List.cons_prefix_cons] at isPrefix
          exact apart (congrArg some isPrefix.1)

/-- A level is skipped under a key that starts otherwise. -/
theorem valueUnder_other {key other : Text} (name : Text) (rest : List Text)
    (isKey : key ≠ []) (isOther : other ≠ []) (apart : key.head? ≠ other.head?) :
    valueUnder key ((other ++ name) :: rest) = valueUnder key rest := by
  rw [valueUnder, List.findSome?_cons, if_neg (not_prefix_level key other name isKey isOther apart)]
  rfl

section Levels

variable {address : PayloadAddress} (plainAddress : PlainAddress address) {kind : Text}
  (plainKind : Plain kind) (recvMicros : Int)

include plainAddress plainKind

theorem kindOf_partitionOf : kindOf (partitionOf address kind recvMicros) = some kind := by
  rw [kindOf, components_partitionOf plainAddress plainKind]
  cases address with
  | venue name =>
      exact (valueUnder_other name _ (by decide) (by decide) (by decide)).trans
        (valueUnder_level _ _ _)
  | market name =>
      exact (valueUnder_other name _ (by decide) (by decide) (by decide)).trans
        (valueUnder_level _ _ _)
  | account inner =>
      exact ((valueUnder_other inner.venue _ (by decide) (by decide) (by decide)).trans
        (valueUnder_other inner.account _ (by decide) (by decide) (by decide))).trans
          (valueUnder_level _ _ _)

theorem addressLevel_partitionOf :
    addressLevel (partitionOf address kind recvMicros) = address.key := by
  have isKind := not_prefix_level "market=".toList "kind=".toList kind (by decide) (by decide)
    (by decide)
  have isDate := not_prefix_level "market=".toList "date=".toList (dateOf recvMicros) (by decide)
    (by decide) (by decide)
  unfold addressLevel
  rw [components_partitionOf plainAddress plainKind]
  cases address with
  | venue name =>
      have isVenue := not_prefix_level "market=".toList "venue=".toList name (by decide)
        (by decide) (by decide)
      apply if_neg
      simp only [levels, List.cons_append, List.nil_append, List.any_cons, List.any_nil,
        Bool.or_false, Bool.or_eq_true, decide_eq_true_eq, not_or]
      exact ⟨isVenue, isKind, isDate⟩
  | market name =>
      apply if_pos
      simp only [levels, List.cons_append, List.nil_append, List.any_cons, Bool.or_eq_true,
        decide_eq_true_eq]
      exact .inl (List.prefix_append _ _)
  | account inner =>
      have isVenue := not_prefix_level "market=".toList "venue=".toList inner.venue (by decide)
        (by decide) (by decide)
      have isAccount := not_prefix_level "market=".toList "account=".toList inner.account (by decide)
        (by decide) (by decide)
      apply if_neg
      simp only [levels, List.cons_append, List.nil_append, List.any_cons, List.any_nil,
        Bool.or_false, Bool.or_eq_true, decide_eq_true_eq, not_or]
      exact ⟨isVenue, isAccount, isKind, isDate⟩

theorem accountOf_partitionOf :
    accountOf (partitionOf address kind recvMicros) = accountIn address := by
  have noAccount : valueUnder "account=".toList ["kind=".toList ++ kind] = none :=
    valueUnder_other kind [] (by decide) (by decide) (by decide)
  have noVenue : valueUnder "venue=".toList ["kind=".toList ++ kind] = none :=
    valueUnder_other kind [] (by decide) (by decide) (by decide)
  unfold accountOf
  rw [components_partitionOf plainAddress plainKind]
  cases address with
  | venue name =>
      have isVenue := valueUnder_level "venue=".toList name []
      simp only [levels, List.cons_append, List.nil_append, List.tail_cons, List.zip_cons_cons,
        List.zip_nil_right, List.findSome?_cons, List.findSome?_nil, isVenue, noVenue, noAccount,
        Option.bind_some, Option.map_none, Option.bind_none, accountIn]
  | market name =>
      have notVenue : valueUnder "venue=".toList ["market=".toList ++ name] = none :=
        valueUnder_other name [] (by decide) (by decide) (by decide)
      simp only [levels, List.cons_append, List.nil_append, List.tail_cons, List.zip_cons_cons,
        List.zip_nil_right, List.findSome?_cons, List.findSome?_nil, notVenue, noVenue,
        Option.bind_none, accountIn]
  | account inner =>
      have isVenue := valueUnder_level "venue=".toList inner.venue []
      have isAccount := valueUnder_level "account=".toList inner.account []
      simp only [levels, List.cons_append, List.nil_append, List.tail_cons, List.zip_cons_cons,
        List.findSome?_cons, isVenue, isAccount, Option.bind_some, Option.map_some, accountIn]

theorem isFailures_partitionOf : isFailures (partitionOf address kind recvMicros) = false := by
  have isLast : (components (partitionOf address kind recvMicros)).getLast? =
      some ("date=".toList ++ dateOf recvMicros) := by
    rw [components_partitionOf plainAddress plainKind, List.getLast?_append]
    rfl
  unfold isFailures
  rw [isLast]
  apply decide_eq_false
  intro same
  have notDate := not_prefix_level "failures".toList "date=".toList (dateOf recvMicros)
    (by decide) (by decide) (by decide)
  exact notDate (Option.some.inj same ▸ List.prefix_refl _)

/-- A component of a partition that names a day names its own. -/
theorem day_partitionOf {part : Text}
    (member : part ∈ components (partitionOf address kind recvMicros)) {midnight : Int}
    (isDay : (valueUnder "date=".toList [part]).bind midnightOf = some midnight) :
    midnight = dayStart recvMicros := by
  rw [components_partitionOf plainAddress plainKind] at member
  have noDay : ∀ other name : Text, other ≠ [] → "date=".toList.head? ≠ other.head? →
      part ≠ other ++ name := by
    rintro other name isOther apart rfl
    rw [valueUnder_other name [] (by decide) isOther apart] at isDay
    cases isDay
  have isDate : part = "date=".toList ++ dateOf recvMicros := by
    rcases List.mem_append.mp member with inAddress | inRest
    · cases address with
      | venue name =>
          exact absurd (List.mem_singleton.mp inAddress) (noDay _ _ (by decide) (by decide))
      | market name =>
          exact absurd (List.mem_singleton.mp inAddress) (noDay _ _ (by decide) (by decide))
      | account inner =>
          rcases List.mem_cons.mp inAddress with isVenue | inAccount
          · exact absurd isVenue (noDay _ _ (by decide) (by decide))
          · exact absurd (List.mem_singleton.mp inAccount) (noDay _ _ (by decide) (by decide))
    · rcases List.mem_cons.mp inRest with isKind | inDate
      · exact absurd isKind (noDay _ _ (by decide) (by decide))
      · exact List.mem_singleton.mp inDate
  rw [isDate, valueUnder_level] at isDay
  exact eq_dayStart_of_midnightOf_dateOf isDay

end Levels

/-- A payload whose partition's path has one component for each level. -/
structure PlainPayload (payload : Payload) : Prop where
  address : PlainAddress payload.address
  kind : Plain payload.kind

instance (payload : Payload) : Decidable (PlainPayload payload) :=
  decidable_of_iff (PlainAddress payload.address ∧ Plain payload.kind)
    ⟨fun plain => ⟨plain.1, plain.2⟩, fun plain => ⟨plain.address, plain.kind⟩⟩

/-- A row read from its payload's partition, under its payload's labels, is that payload. -/
theorem payloadOf_row {payload : Payload} (plain : PlainPayload payload) {file : ArchiveFile}
    (labels : file.labels = payload.address.labels) :
    payloadOf payload.partition (accountAddress payload.partition file) payload.row =
      some payload := by
  have isKind := kindOf_partitionOf plain.address plain.kind payload.recvMicros
  have isLevel := addressLevel_partitionOf plain.address plain.kind payload.recvMicros
  have isAccount := accountOf_partitionOf plain.address plain.kind payload.recvMicros
  have isOrigin : (if payload.origin.asStr = "fetched".toList then Origin.fetched
      else if payload.origin.asStr = "generated".toList then Origin.generated
      else Origin.streamed) = payload.origin := by
    cases payload.origin <;> decide
  rw [← Payload.partition] at isKind
  unfold Payload.row
  simp only [payloadOf, isOrigin, isKind, Option.getD_some, Option.some.injEq]
  unfold accountAddress Payload.partition
  rw [isAccount, isLevel, labels]
  obtain ⟨seq, recvMicros, address, channel, kind, symbol, origin, payload⟩ := payload
  cases address <;> rfl

/-- Payloads of one partition, and of one address. -/
structure OnePlace (partition : Text) (group : List Payload) : Prop where
  partition : ∀ payload ∈ group, payload.partition = partition
  plain : ∀ payload ∈ group, PlainPayload payload
  labels : ∀ first ∈ group, ∀ second ∈ group, first.address.labels = second.address.labels
  nonempty : group ≠ []

/-- Row groups hold their rows. -/
theorem flatten_rowGroups (rows : List ArchiveRow) : (rowGroups rows).flatten = rows :=
  Grouping.flatten_toChunks (by decide) rows

theorem rows_payloadFile (group : List Payload) :
    (payloadFile group).file.rows = group.map Payload.row :=
  flatten_rowGroups _

theorem rows_failureFile (group : List Failure) :
    (failureFile group).file.rows = group.map Failure.row :=
  flatten_rowGroups _

section Group

variable {partition : Text} {group : List Payload} (place : OnePlace partition group)

include place

theorem labels_payloadFile {payload : Payload} (member : payload ∈ group) :
    (payloadFile group).labels = payload.address.labels := by
  cases group with
  | nil => cases member
  | cons first rest => exact place.labels first List.mem_cons_self payload member

/-- A partition's file is written for that partition's level. -/
theorem schema_payloadFile :
    (payloadFile group).file.schema = .payload (addressLevel partition) := by
  cases group with
  | nil => exact absurd rfl place.nonempty
  | cons first rest =>
      have plain := place.plain first List.mem_cons_self
      rw [← place.partition first List.mem_cons_self, Payload.partition,
        addressLevel_partitionOf plain.address plain.kind]
      rfl

/-- Every row of a partition's file is the payload it was. -/
theorem rowsIn_payloadFile {fromMicros toMicros : Int}
    (inRange : ∀ payload ∈ group, fromMicros ≤ payload.recvMicros ∧
      payload.recvMicros < toMicros) (name : Text) :
    rowsIn fromMicros toMicros ⟨partition, name⟩ (payloadFile group) = group := by
  have allIn : (group.map Payload.row).filter (fun row =>
      decide (fromMicros ≤ row.recvMicros ∧ row.recvMicros < toMicros)) =
        group.map Payload.row := by
    apply List.filter_eq_self.mpr
    intro row member
    obtain ⟨payload, isPayload, rfl⟩ := List.mem_map.mp member
    exact decide_eq_true (inRange payload isPayload)
  unfold rowsIn
  rw [rows_payloadFile, allIn, List.filterMap_map]
  apply (List.filterMap_congr ?_).trans List.filterMap_some
  intro payload member
  change payloadOf partition (accountAddress partition _) payload.row = some payload
  rw [← place.partition payload member]
  exact payloadOf_row (place.plain payload member) (labels_payloadFile place member)

end Group

/-- The failures beside a partition hold no payloads. -/
theorem isFailures_append (partition : Text) :
    isFailures (partition ++ "/failures".toList) = true := by
  have split : partition ++ "/failures".toList = partition ++ '/' :: "failures".toList := rfl
  unfold isFailures
  rw [split, components_append]
  have isLast : components "failures".toList = ["failures".toList] := by decide
  rw [isLast, List.getLast?_append]
  rfl

end Replay
end Datawatch
