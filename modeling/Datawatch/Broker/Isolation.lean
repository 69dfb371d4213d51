import Datawatch.Broker.Grants

/-!
# Isolated identities

What the generated fragment lets each identity publish and receive, and when no two identities
share a password.
-/

namespace Datawatch
namespace Broker

open Library Library.Subjects Library.Text Wire

/-- Two characters that differ at most in case, or both a dash or an underscore. -/
def AlikeChar (first second : Char) : Prop :=
  first.toUpper = second.toUpper ∨ first ∈ ['-', '_'] ∧ second ∈ ['-', '_']

/-- Two names that differ at most in case, and in dashes against underscores. -/
def SpelledAlike (first second : Text) : Prop := List.Forall₂ AlikeChar first second

/-- A password's variable tells apart exactly the characters that are not alike. -/
theorem folded_eq_folded_iff {first second : Char} :
    folded first = folded second ↔ AlikeChar first second := by
  have underscore {char : Char} : '_' = char.toUpper ↔ char = '_' :=
    eq_comm.trans (toUpper_eq_iff_of_not_isAlpha rfl)
  have dash {char : Char} : '-' = char.toUpper ↔ char = '-' :=
    eq_comm.trans (toUpper_eq_iff_of_not_isAlpha rfl)
  unfold folded AlikeChar
  by_cases isFirst : first = '-'
  · by_cases isSecond : second = '-'
    · simp [isFirst, isSecond]
    · simp [isFirst, isSecond, dash, underscore]
  · by_cases isSecond : second = '-'
    · rw [eq_comm, @eq_comm _ first.toUpper]
      simp [isFirst, isSecond, dash, underscore]
    · simp only [if_neg isFirst, if_neg isSecond]
      simp only [List.mem_cons, isFirst, isSecond, false_or, List.not_mem_nil, or_false]
      constructor
      · exact .inl
      · rintro (same | ⟨rfl, rfl⟩)
        · exact same
        · rfl

/-- Two names fold to one text exactly where they are spelled alike. -/
theorem map_folded_eq_iff {first second : Text} :
    first.map folded = second.map folded ↔ SpelledAlike first second := by
  rw [← List.forall₂_eq_eq_eq, List.forall₂_map_left_iff, List.forall₂_map_right_iff]
  simp only [folded_eq_folded_iff]
  rfl

/-- The identity of a venue's capture process. -/
def captureIdentity (venue : Venue) : Text := (captureGrant venue.text).identity

theorem captureIdentity_eq (venue : Venue) :
    captureIdentity venue = "datawatch-".toList ++ venue.text := rfl

/-- What no token may hold is in none. -/
theorem not_mem_token {char : Char} (refused : permitted char = false) (token : Token) :
    char ∉ token.text := by
  intro member
  have allowed := List.all_eq_true.mp token.legal.2.2 char member
  rw [refused] at allowed
  cases allowed

/-- A token is a level that stands for itself only. -/
theorem literal_token (token : Token) : Literal token.text := by
  constructor
  · intro same
    exact @not_mem_token '>' rfl token (same ▸ List.mem_singleton.mpr rfl)
  · intro same
    exact @not_mem_token '*' rfl token (same ▸ List.mem_singleton.mpr rfl)

theorem dot_not_mem_asStr (kind : Kind) : '.' ∉ kind.asStr := by
  cases kind <;> dsimp only [Kind.asStr] <;> rw [String.toList_ofList] <;> decide

theorem levels_market (venue : Venue) (ticker : Ticker) (kind : Kind) :
    levels (Subject.market venue ticker kind).text =
      ["markets".toList, venue.text, ticker.text, kind.asStr] := by
  have dotted : (Subject.market venue ticker kind).text =
      "markets".toList ++ '.' :: (venue.text ++ '.' :: (ticker.text ++ '.' :: kind.asStr)) := by
    simp [Subject.market_text]
  rw [dotted, levels_append (by decide), levels_append (not_mem_token rfl venue),
    levels_append (not_mem_token rfl ticker), levels_of_single (dot_not_mem_asStr kind)]

theorem levels_status (venue : Venue) :
    levels (Subject.status venue).text = ["status".toList, venue.text] := by
  have dotted : (Subject.status venue).text = "status".toList ++ '.' :: venue.text := by
    simp [Subject.status_text]
  rw [dotted, levels_append (by decide), levels_of_single (not_mem_token rfl venue)]

theorem levels_marketsOf (venue : Venue) :
    levels ("markets.".toList ++ venue.text ++ ".>".toList) =
      ["markets".toList, venue.text, ">".toList] := by
  have dotted : "markets.".toList ++ venue.text ++ ".>".toList =
      "markets".toList ++ '.' :: (venue.text ++ '.' :: ">".toList) := by
    simp
  rw [dotted, levels_append (by decide), levels_append (not_mem_token rfl venue),
    levels_of_single (by decide)]

theorem literal_markets : Literal "markets".toList := by
  constructor
  · decide
  · decide

theorem literal_status : Literal "status".toList := by
  constructor
  · decide
  · decide

/-- A capture identity publishes the markets of its own venue only. -/
theorem captureGrant_permits_market (owner venue : Venue) (ticker : Ticker) (kind : Kind) :
    (permission (captureGrant owner.text).publish).permits
      (Subject.market venue ticker kind).text = true ↔ owner = venue := by
  have own : accepts ("markets.".toList ++ owner.text ++ ".>".toList)
      (Subject.market venue ticker kind).text = decide (owner.text = venue.text) := by
    rw [accepts, levels_marketsOf, levels_market, matchLevels_literal literal_markets,
      matchLevels_literal (literal_token owner), matchLevels_rest]
    simp
  have other : accepts ("status.".toList ++ owner.text)
      (Subject.market venue ticker kind).text = false := by
    have isStatus := levels_status owner
    rw [Subject.status_text] at isStatus
    rw [accepts, isStatus, levels_market, matchLevels_literal literal_status]
    rfl
  have listed : (captureGrant owner.text).publish ≠ [] := List.cons_ne_nil _ _
  rw [permission, if_neg listed, Permission.permits_of_allow listed, captureGrant_publish,
    List.any_cons, List.any_cons, own, other]
  simp only [List.any_nil, Bool.or_false, decide_eq_true_eq]
  exact ⟨Token.eq_of_text, congrArg Token.text⟩

/-- A capture identity publishes the status of its own venue only. -/
theorem captureGrant_permits_status (owner venue : Venue) :
    (permission (captureGrant owner.text).publish).permits (Subject.status venue).text = true ↔
      owner = venue := by
  have markets : accepts ("markets.".toList ++ owner.text ++ ".>".toList)
      (Subject.status venue).text = false := by
    rw [accepts, levels_marketsOf, levels_status, matchLevels_literal literal_markets]
    rfl
  have own : accepts ("status.".toList ++ owner.text) (Subject.status venue).text =
      decide (owner.text = venue.text) := by
    have isStatus := levels_status owner
    rw [Subject.status_text] at isStatus
    rw [accepts, isStatus, levels_status, matchLevels_literal literal_status,
      matchLevels_literal (literal_token owner), matchLevels_nil]
    simp
  have listed : (captureGrant owner.text).publish ≠ [] := List.cons_ne_nil _ _
  rw [permission, if_neg listed, Permission.permits_of_allow listed, captureGrant_publish,
    List.any_cons, List.any_cons, own, markets]
  simp only [List.any_nil, Bool.or_false, Bool.false_or, decide_eq_true_eq]
  exact ⟨Token.eq_of_text, congrArg Token.text⟩

/-- A capture identity publishes what its own venue's envelopes are addressed to, and no
other's. -/
theorem captureGrant_permits {owner venue : Venue} {envelope : Envelope} {subject : Subject}
    (ofVenue : envelope.venue = some venue)
    (addressed : Subject.of envelope = some subject ∨ subject = Subject.status venue) :
    (permission (captureGrant owner.text).publish).permits subject.text = true ↔
      owner = venue := by
  cases addressed with
  | inl isOf =>
      obtain ⟨named, isNamed, tickered⟩ := Option.bind_eq_some_iff.mp isOf
      obtain ⟨ticker, _, same⟩ := Option.bind_eq_some_iff.mp tickered
      rw [ofVenue] at isNamed
      cases isNamed
      cases same
      exact captureGrant_permits_market owner venue ticker envelope.kind
  | inr isStatus =>
      rw [isStatus]
      exact captureGrant_permits_status owner venue

theorem captureIdentity_inj {first second : Venue} :
    captureIdentity first = captureIdentity second ↔ first = second := by
  constructor
  · intro same
    exact Token.eq_of_text (List.append_cancel_left same)
  · exact congrArg captureIdentity

theorem captureIdentity_ne_reader (venue : Venue) :
    captureIdentity venue ≠ readerGrant.identity := by
  intro same
  have first := congrArg List.head? same
  rw [captureIdentity_eq] at first
  cases first

/-- Every grant of the table is a venue's, or the reader's. -/
theorem mem_table_iff {venues : List Venue} {grant : Grant} :
    grant ∈ table (venues.map Token.text) ↔
      (∃ venue ∈ venues, grant = captureGrant venue.text) ∨ grant = readerGrant := by
  simp [table, eq_comm]

/-- The grants of tokens are written without breaks and quotes. -/
theorem plain_of_mem_table {venues : List Venue} {grant : Grant}
    (member : grant ∈ table (venues.map Token.text)) : grant.Plain := by
  cases Iff.mp mem_table_iff member with
  | inl isCapture =>
      obtain ⟨venue, _, rfl⟩ := isCapture
      have lineBreak : '\n' ∉ venue.text := not_mem_token rfl venue
      have mark : '"' ∉ venue.text := not_mem_token rfl venue
      constructor
      · simp [captureGrant_identity, lineBreak]
      · simp [captureGrant_publish, captureGrant_subscribe, lineBreak]
      · simp [captureGrant_publish, captureGrant_subscribe, mark]
  | inr isReader =>
      rw [isReader]
      constructor
      · decide
      · decide
      · decide

/-- The users of the fragment for venues. -/
def usersOf (venues : List Venue) : List User := (table (venues.map Token.text)).map served

theorem readConfig_table (venues : List Venue) :
    readConfig (toNatsConfig (table (venues.map Token.text))) = some (usersOf venues) :=
  readConfig_toNatsConfig fun _ => plain_of_mem_table

/-- Every user is a venue's, or the reader. -/
theorem mem_usersOf_iff {venues : List Venue} {user : User} :
    user ∈ usersOf venues ↔
      (∃ venue ∈ venues, user = served (captureGrant venue.text)) ∨ user = served readerGrant := by
  rw [usersOf, List.mem_map]
  constructor
  · intro isServed
    obtain ⟨grant, member, same⟩ := isServed
    cases Iff.mp mem_table_iff member with
    | inl isCapture =>
        obtain ⟨venue, isVenue, isGrant⟩ := isCapture
        exact .inl ⟨venue, isVenue, by rw [← same, isGrant]⟩
    | inr isReader => exact .inr (by rw [← same, isReader])
  · intro isUser
    cases isUser with
    | inl isCapture =>
        obtain ⟨venue, isVenue, same⟩ := isCapture
        exact ⟨_, mem_table_iff.mpr (.inl ⟨venue, isVenue, rfl⟩), same.symm⟩
    | inr isReader => exact ⟨_, mem_table_iff.mpr (.inr rfl), isReader.symm⟩

theorem identities_usersOf (venues : List Venue) :
    (usersOf venues).map User.identity = venues.map captureIdentity ++ [readerGrant.identity] := by
  simp [usersOf, table, served, captureIdentity]

/-- The user of a capture identity. -/
theorem eq_served_of_captureIdentity {venues : List Venue} {venue : Venue} {user : User}
    (member : user ∈ usersOf venues) (isCapture : user.identity = captureIdentity venue) :
    user = served (captureGrant venue.text) := by
  cases Iff.mp mem_usersOf_iff member with
  | inl isOwner =>
      obtain ⟨owner, _, same⟩ := isOwner
      rw [same] at isCapture ⊢
      rw [captureIdentity_inj.mp isCapture]
  | inr isReader =>
      rw [isReader] at isCapture
      exact absurd isCapture.symm (captureIdentity_ne_reader venue)

/-- The user of the reader's identity. -/
theorem eq_served_of_reader {venues : List Venue} {user : User} (member : user ∈ usersOf venues)
    (isReader : user.identity = readerGrant.identity) : user = served readerGrant := by
  cases Iff.mp mem_usersOf_iff member with
  | inl isOwner =>
      obtain ⟨owner, _, same⟩ := isOwner
      rw [same] at isReader
      exact absurd isReader (captureIdentity_ne_reader owner)
  | inr isServed => exact isServed

/-- Only a venue's own user publishes what its envelopes are addressed to. -/
theorem publishes_usersOf {venues : List Venue} {venue : Venue} {envelope : Envelope}
    {subject : Subject} (ofVenue : envelope.venue = some venue)
    (addressed : Subject.of envelope = some subject ∨ subject = Subject.status venue)
    {user : User} (member : user ∈ usersOf venues) :
    user.publish.permits subject.text = true ↔ user.identity = captureIdentity venue := by
  cases Iff.mp mem_usersOf_iff member with
  | inl isOwner =>
      obtain ⟨owner, _, same⟩ := isOwner
      rw [same]
      exact (captureGrant_permits ofVenue addressed).trans captureIdentity_inj.symm
  | inr isReader =>
      have refused : (served readerGrant).publish.permits subject.text = false :=
        Permission.not_permits_of_deny_rest (List.mem_singleton.mpr rfl) _
      rw [isReader, refused]
      exact ⟨fun impossible => absurd impossible (by simp),
        fun isCapture => absurd isCapture.symm (captureIdentity_ne_reader venue)⟩

/-- The reader receives every status. -/
theorem reader_receives_status (venue : Venue) :
    (served readerGrant).subscribe.Receives (Subject.status venue).text := by
  have pattern : levels "status.>".toList = ["status".toList, ">".toList] := by
    repeat rw [String.toList_ofList]
    rfl
  refine ⟨"status.>".toList, by decide +kernel, ?_⟩
  rw [accepts, pattern, levels_status, matchLevels_literal literal_status, matchLevels_rest]
  rfl

/-- The reader receives no subject of the markets. -/
theorem reader_not_receives_market {subject : Text}
    (ofMarkets : (levels subject).head? = some "markets".toList) :
    ¬ (served readerGrant).subscribe.Receives subject := by
  intro receives
  have rooted : ∀ pattern ∈ ["status.>".toList],
      (levels pattern).head? = some "status".toList := by
    repeat rw [String.toList_ofList]
    decide
  have ofStatus := Permission.head?_of_receives literal_status (List.cons_ne_nil _ _) rooted
    receives
  rw [ofMarkets] at ofStatus
  exact absurd ofStatus (by decide)

/-- The variable of a capture identity ends in its venue's name, folded. -/
theorem passwordVar_captureIdentity (venue : Venue) :
    passwordVar (captureIdentity venue) =
      passwordVar "datawatch-".toList ++ venue.text.map folded := by
  rw [passwordVar_eq, passwordVar_eq, captureIdentity_eq, List.map_append, List.append_assoc]

/-- Two capture identities have one variable exactly where their venues are spelled alike. -/
theorem passwordVar_captureIdentity_eq_iff {first second : Venue} :
    passwordVar (captureIdentity first) = passwordVar (captureIdentity second) ↔
      SpelledAlike first.text second.text := by
  simp only [passwordVar_captureIdentity, List.append_cancel_left_eq, map_folded_eq_iff]

theorem passwordVar_captureIdentity_ne_reader (venue : Venue) :
    passwordVar (captureIdentity venue) ≠ passwordVar readerGrant.identity := by
  intro same
  have folds : (captureIdentity venue).map folded = readerGrant.identity.map folded :=
    List.append_cancel_left same
  have first := congrArg List.head? folds
  rw [captureIdentity_eq, List.map_append] at first
  cases first

/-- What keeps the users of a fragment apart. -/
structure Isolates (venues : List Venue) (users : List User) : Prop where
  /-- The users are the capture identities of the venues and the reader, each once. -/
  identities : (users.map User.identity).Nodup ∧ ∀ identity,
    identity ∈ users.map User.identity ↔
      identity ∈ venues.map captureIdentity ∨ identity = readerGrant.identity
  /-- Only a venue's capture identity publishes what its envelopes are addressed to. -/
  publishes : ∀ venue ∈ venues, ∀ (envelope : Envelope) (subject : Subject),
    envelope.venue = some venue →
      Subject.of envelope = some subject ∨ subject = Subject.status venue →
        ∀ user ∈ users, user.publish.permits subject.text = true ↔
          user.identity = captureIdentity venue
  /-- The reader may receive every status subject. -/
  readsStatus : ∀ user ∈ users, user.identity = readerGrant.identity →
    ∀ venue, user.subscribe.Receives (Subject.status venue).text
  /-- The reader may receive no subject of the markets. -/
  readsNoMarket : ∀ user ∈ users, user.identity = readerGrant.identity →
    ∀ subject, (levels subject).head? = some "markets".toList →
      ¬ user.subscribe.Receives subject
  /-- A capture identity may subscribe to nothing. -/
  captureReadsNothing : ∀ user ∈ users, ∀ venue ∈ venues, user.identity = captureIdentity venue →
    ∀ subscription, user.subscribe.permits subscription = false
  /-- Distinct identities have their passwords in distinct variables. -/
  passwords : ∀ first ∈ users, ∀ second ∈ users, first.identity ≠ second.identity →
    first.passwordVar ≠ second.passwordVar

/-- The generated fragment for venues keeps the identities it names apart. -/
def Isolated (venues : List Venue) : Prop :=
  ∃ users, readConfig (toNatsConfig (table (venues.map Token.text))) = some users ∧
    Isolates venues users

/-- The fragment for distinct venues keeps the identities it names apart exactly where no two of
them are spelled alike. -/
theorem isolated_iff {venues : List Venue} (distinct : venues.Nodup) :
    Isolated venues ↔ ∀ first ∈ venues, ∀ second ∈ venues, first ≠ second →
      ¬ SpelledAlike first.text second.text := by
  rw [Isolated, readConfig_table]
  constructor
  · intro isolated first isFirst second isSecond different alike
    obtain ⟨users, isUsers, isolates⟩ := isolated
    cases isUsers
    refine isolates.passwords _ (mem_usersOf_iff.mpr (.inl ⟨first, isFirst, rfl⟩)) _
      (mem_usersOf_iff.mpr (.inl ⟨second, isSecond, rfl⟩)) ?_
      (passwordVar_captureIdentity_eq_iff.mpr alike)
    exact fun same => different (captureIdentity_inj.mp same)
  · intro apart
    refine ⟨_, rfl, ?_⟩
    constructor
    · rw [identities_usersOf]
      constructor
      · rw [List.nodup_append]
        refine ⟨distinct.map fun _ _ => captureIdentity_inj.mp, List.nodup_singleton _, ?_⟩
        intro identity isCapture reader isReader
        obtain ⟨venue, _, same⟩ := List.mem_map.mp isCapture
        rw [← same, List.mem_singleton.mp isReader]
        exact captureIdentity_ne_reader venue
      · intro identity
        rw [List.mem_append, List.mem_singleton]
    · intro venue _ envelope subject ofVenue addressed user member
      exact publishes_usersOf ofVenue addressed member
    · intro user member isReader venue
      rw [eq_served_of_reader member isReader]
      exact reader_receives_status venue
    · intro user member isReader subject ofMarkets
      rw [eq_served_of_reader member isReader]
      exact reader_not_receives_market ofMarkets
    · intro user member venue _ isCapture subscription
      rw [eq_served_of_captureIdentity member isCapture]
      exact Permission.not_permits_of_deny_rest (List.mem_singleton.mpr rfl) _
    · intro first isFirst second isSecond different
      cases Iff.mp mem_usersOf_iff isFirst with
      | inl firstOwner =>
          obtain ⟨firstVenue, inFirst, firstSame⟩ := firstOwner
          cases Iff.mp mem_usersOf_iff isSecond with
          | inl secondOwner =>
              obtain ⟨secondVenue, inSecond, secondSame⟩ := secondOwner
              rw [firstSame, secondSame] at different ⊢
              intro shared
              refine apart firstVenue inFirst secondVenue inSecond ?_
                (passwordVar_captureIdentity_eq_iff.mp shared)
              exact fun same => different (congrArg captureIdentity same)
          | inr secondReader =>
              rw [firstSame, secondReader]
              exact passwordVar_captureIdentity_ne_reader firstVenue
      | inr firstReader =>
          cases Iff.mp mem_usersOf_iff isSecond with
          | inl secondOwner =>
              obtain ⟨secondVenue, _, secondSame⟩ := secondOwner
              rw [firstReader, secondSame]
              exact (passwordVar_captureIdentity_ne_reader secondVenue).symm
          | inr secondReader =>
              rw [firstReader, secondReader] at different
              exact absurd rfl different

/-- The venues the fragment is shipped for. -/
def shipped : List Venue := ["hyperliquid".toList, "rh-chain".toList].filterMap Token.new

/-- The shipped venues are spelled apart, so their identities are kept apart. -/
theorem isolated_iff_shipped : Isolated shipped := by
  have distinct : shipped.Nodup := by decide +kernel
  refine (isolated_iff distinct).mpr ?_
  intro first isFirst second isSecond different alike
  have folds := map_folded_eq_iff.mpr alike
  have apart : ∀ first ∈ shipped, ∀ second ∈ shipped,
      first.text.map folded = second.text.map folded → first = second := by
    decide +kernel
  exact different (apart first isFirst second isSecond folds)

/-- Two venues whose names differ in a dash against an underscore. -/
def dashed : List Venue := ["rh-chain".toList, "rh_chain".toList].filterMap Token.new

/-- Distinct names, and one variable for the passwords of both. -/
theorem shared_password : dashed.Nodup ∧ ¬ Isolated dashed := by
  refine ⟨by decide +kernel, ?_⟩
  intro isolated
  obtain ⟨users, isUsers, isolates⟩ := isolated
  rw [readConfig_table] at isUsers
  cases isUsers
  have shared : ∃ first ∈ usersOf dashed, ∃ second ∈ usersOf dashed,
      first.identity ≠ second.identity ∧ first.passwordVar = second.passwordVar := by
    decide +kernel
  obtain ⟨first, isFirst, second, isSecond, different, same⟩ := shared
  exact isolates.passwords first isFirst second isSecond different same

end Broker
end Datawatch
