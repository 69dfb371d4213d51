import Datawatch.Library.Lines
import Datawatch.Library.Subjects
import Datawatch.Wire.Event

/-!
# Subjects and grants

How an event is addressed on the bus, who may publish and subscribe to what, and the fragment
the server is configured with.
-/

namespace Datawatch
namespace Broker

open Library Library.Subjects Library.Text Wire

/-- A subject a message is published on. -/
structure Subject where
  text : Text
deriving DecidableEq

/-- One instrument's one dataset: `markets.<venue>.<ticker>.<kind>`. -/
def Subject.market (venue : Venue) (ticker : Ticker) (kind : Kind) : Subject :=
  ⟨"markets.".toList ++ venue.text ++ '.' :: ticker.text ++ '.' :: kind.asStr⟩

/-- What one capture process says about itself: `status.<venue>`. -/
def Subject.status (venue : Venue) : Subject := ⟨"status.".toList ++ venue.text⟩

theorem Subject.market_text (venue : Venue) (ticker : Ticker) (kind : Kind) :
    (Subject.market venue ticker kind).text =
      "markets.".toList ++ venue.text ++ '.' :: ticker.text ++ '.' :: kind.asStr := rfl

theorem Subject.status_text (venue : Venue) :
    (Subject.status venue).text = "status.".toList ++ venue.text := rfl

/-- The subject an envelope belongs on, where it names an instrument. -/
def Subject.of (envelope : Envelope) : Option Subject := do
  return Subject.market (← envelope.venue) (← envelope.ticker) envelope.kind

/-- One identity's authority. -/
structure Grant where
  identity : Text
  publish : List Text
  subscribe : List Text
deriving DecidableEq

/-- A capture process publishes its own venue and its own status, and subscribes to nothing. -/
def captureGrant (venue : Text) : Grant where
  identity := "datawatch-".toList ++ venue
  publish := ["markets.".toList ++ venue ++ ".>".toList, "status.".toList ++ venue]
  subscribe := []

theorem captureGrant_identity (venue : Text) :
    (captureGrant venue).identity = "datawatch-".toList ++ venue := rfl

theorem captureGrant_publish (venue : Text) :
    (captureGrant venue).publish =
      ["markets.".toList ++ venue ++ ".>".toList, "status.".toList ++ venue] := rfl

theorem captureGrant_subscribe (venue : Text) : (captureGrant venue).subscribe = [] := rfl

/-- A reader subscribes to status and publishes nothing. -/
def readerGrant : Grant where
  identity := "reader".toList
  publish := []
  subscribe := ["status.>".toList]

/-- The table for a set of capturing venues. -/
def table (venues : List Text) : List Grant := venues.map captureGrant ++ [readerGrant]

/-- A character of an identity, which is ASCII, as its password's variable holds it. -/
def folded (char : Char) : Char := (if char = '-' then '_' else char).toUpper

/-- The environment variable holding one identity's password. -/
def passwordVar (identity : Text) : Text :=
  "GALATA_BROKER_PASSWORD_".toList ++ identity.map folded

theorem passwordVar_eq (identity : Text) :
    passwordVar identity = "GALATA_BROKER_PASSWORD_".toList ++ identity.map folded := rfl

/-- One permission rule.  Nothing is a denial of everything, never an empty allowance. -/
def rule (subjects : List Text) : Text :=
  if subjects = [] then '{' :: " deny: [\">\"] ".toList ++ ['}']
  else '{' :: " allow: [".toList ++ quoted subjects ++ ("] ".toList ++ ['}'])

/-- The lines before the users. -/
def preamble : List Text := [
  "# Generated. Do not edit.".toList,
  "#".toList,
  "# Each identity may publish exactly the subjects it owns and subscribe to".toList,
  "# exactly the ones it consumes. Both are enumerated: subscribe is not `>`,".toList,
  "# because \"this component reads only market data\" is a subscribe".toList,
  "# restriction and nothing else.".toList,
  "#".toList,
  "# Passwords are environment references. This file holds no secret.".toList,
  "#".toList,
  "# There is no no_auth_user and no anonymous default: a table that only".toList,
  "# grants leaves the nameless client its unlimited authority.".toList,
  "authorization ".toList ++ ['{'],
  "  users: [".toList]

/-- The lines of one user. -/
def userLines (grant : Grant) : List Text := [
  "    ".toList ++ ['{'],
  "      user: ".toList ++ grant.identity,
  "      password: $".toList ++ passwordVar grant.identity,
  "      permissions: ".toList ++ ['{'],
  "        publish: ".toList ++ rule grant.publish,
  "        subscribe: ".toList ++ rule grant.subscribe,
  "      ".toList ++ ['}'],
  "    ".toList ++ ['}', ',']]

/-- The lines after the users. -/
def closing : List Text := ["  ]".toList, ['}']]

/-- The `authorization` block. -/
def toNatsConfig (grants : List Grant) : Text :=
  (preamble ++ grants.flatMap userLines ++ closing).flatMap line

/-- A user as the fragment names it. -/
structure User where
  identity : Text
  passwordVar : Text
  publish : Permission
  subscribe : Permission
deriving DecidableEq

/-- What follows a key. -/
def after (key line : Text) : Option Text := line.dropPrefix? key

/-- A rule read back: the patterns it allows, or those it denies. -/
def readRule (text : Text) : Option Permission :=
  match after ('{' :: " allow: [".toList) text with
  | some body => some ⟨unquoted body, []⟩
  | none => (after ('{' :: " deny: [".toList) text).map fun body => ⟨[], unquoted body⟩

/-- The lines of one user read back. -/
def readUser (user password publish subscribe : Text) : Option User := do
  return {
    identity := ← after "user: ".toList user
    passwordVar := ← after "password: $".toList password
    publish := ← (after "publish: ".toList publish).bind readRule
    subscribe := ← (after "subscribe: ".toList subscribe).bind readRule }

/-- The users' lines read back, up to those that close the list. -/
def readUsers : List Text → Option (List User)
  | opening :: user :: password :: permissions :: publish :: subscribe :: closed :: last :: rest =>
      if [opening, permissions, closed, last] =
          [['{'], "permissions: ".toList ++ ['{'], ['}'], ['}', ',']] then do
        return (← readUser user password publish subscribe) :: (← readUsers rest)
      else none
  | lines => if lines = ["]".toList, ['}']] then some [] else none

/-- The lines that are no comment and not empty, without the blanks before them. -/
def directives (config : Text) : List Text :=
  ((lines config).map trimStart).filter fun text => text ≠ [] ∧ text.head? ≠ some '#'

/-- The users of a fragment. -/
def readConfig (config : Text) : Option (List User) :=
  match directives config with
  | authorization :: users :: rest =>
      if [authorization, users] = ["authorization ".toList ++ ['{'], "users: [".toList] then
        readUsers rest
      else none
  | _ => none

/-- What a list of granted patterns permits: nothing where there is none. -/
def permission (subjects : List Text) : Permission :=
  if subjects = [] then ⟨[], [">".toList]⟩ else ⟨subjects, []⟩

/-- The user of a grant. -/
def served (grant : Grant) : User where
  identity := grant.identity
  passwordVar := passwordVar grant.identity
  publish := permission grant.publish
  subscribe := permission grant.subscribe

/-- No name or pattern of a grant breaks its line, and no pattern its quotes. -/
structure Grant.Plain (grant : Grant) : Prop where
  identity : '\n' ∉ grant.identity
  lines : ∀ subject ∈ grant.publish ++ grant.subscribe, '\n' ∉ subject
  quotes : ∀ subject ∈ grant.publish ++ grant.subscribe, '"' ∉ subject

theorem after_append (key rest : Text) : after key (key ++ rest) = some rest :=
  List.dropPrefix?_eq_some_iff.mpr ⟨key, rfl, beq_self_eq_true key⟩

/-- A rule reads back as what it grants. -/
theorem readRule_rule {subjects : List Text} (plain : ∀ subject ∈ subjects, '"' ∉ subject) :
    readRule (rule subjects) = some (permission subjects) := by
  unfold rule permission
  split
  next none => decide +kernel
  next some =>
    rw [readRule, List.append_assoc, after_append]
    simp only
    rw [unquoted_quoted_append plain (by decide)]

/-- The lines of a user without the blanks before them. -/
def userDirectives (grant : Grant) : List Text := [
  ['{'],
  "user: ".toList ++ grant.identity,
  "password: $".toList ++ passwordVar grant.identity,
  "permissions: ".toList ++ ['{'],
  "publish: ".toList ++ rule grant.publish,
  "subscribe: ".toList ++ rule grant.subscribe,
  ['}'],
  ['}', ',']]

theorem trim_userLines (grant : Grant) :
    ((userLines grant).map trimStart).filter
        (fun text => decide (text ≠ [] ∧ text.head? ≠ some '#')) = userDirectives grant := by
  rfl

theorem readUsers_directives {grants : List Grant} (plain : ∀ grant ∈ grants, grant.Plain) :
    readUsers (grants.flatMap userDirectives ++ ["]".toList, ['}']]) =
      some (grants.map served) := by
  induction grants with
  | nil => rfl
  | cons grant grants inductionHypothesis =>
      have rest := inductionHypothesis fun other member =>
        plain other (List.mem_cons_of_mem _ member)
      have isPlain := plain grant List.mem_cons_self
      have publish := readRule_rule fun subject member =>
        isPlain.quotes subject (List.mem_append_left _ member)
      have subscribe := readRule_rule fun subject member =>
        isPlain.quotes subject (List.mem_append_right _ member)
      rw [List.flatMap_cons, List.append_assoc, userDirectives]
      simp only [List.cons_append, List.nil_append]
      rw [readUsers, if_pos rfl, rest, readUser]
      simp only [after_append, Option.bind_some, publish, subscribe]
      rfl

/-- What is no letter is the upper case of itself only. -/
theorem toUpper_eq_iff_of_not_isAlpha {char other : Char} (notAlpha : other.isAlpha = false) :
    char.toUpper = other ↔ char = other := by
  delta Char.isAlpha Char.isUpper Char.isLower at notAlpha
  simp only [Bool.or_eq_false_iff, Bool.and_eq_false_iff, decide_eq_false_iff_not, ge_iff_le,
    UInt32.le_iff_toNat_le] at notAlpha
  have codes : 'A'.val.toNat = 65 ∧ 'Z'.val.toNat = 90 ∧ 'a'.val.toNat = 97 ∧
      'z'.val.toNat = 122 ∧ ('A'.val - 'a'.val).toNat = 4294967264 := by
    decide
  unfold Char.toUpper
  split
  next lower =>
    rw [UInt32.le_iff_toNat_le, UInt32.le_iff_toNat_le] at lower
    constructor
    · intro same
      -- The upper case of a letter is a letter.
      have moved := UInt32.toNat_add char.val ('A'.val - 'a'.val)
      rw [← same] at notAlpha
      simp only at notAlpha
      omega
    · intro same
      rw [← same] at notAlpha
      omega
  next notLower => exact Iff.rfl

/-- No folded character breaks a line that the character does not. -/
theorem folded_ne_newline {char : Char} (other : char ≠ '\n') : folded char ≠ '\n' := by
  unfold folded
  split
  · decide
  · exact fun same => other ((toUpper_eq_iff_of_not_isAlpha rfl).mp same)

theorem newline_not_mem_rule {subjects : List Text}
    (single : ∀ subject ∈ subjects, '\n' ∉ subject) : '\n' ∉ rule subjects := by
  have quotedSingle : '\n' ∉ quoted subjects := not_mem_quoted (by decide) single
  unfold rule
  split
  · decide
  · simp only [List.mem_append, not_or]
    exact ⟨⟨by decide, quotedSingle⟩, by decide⟩

/-- No line of a user holds a break. -/
theorem newline_not_mem_userLines {grant : Grant} (plain : grant.Plain) :
    ∀ text ∈ userLines grant, '\n' ∉ text := by
  have publish := newline_not_mem_rule fun subject member =>
    plain.lines subject (List.mem_append_left _ member)
  have subscribe := newline_not_mem_rule fun subject member =>
    plain.lines subject (List.mem_append_right _ member)
  have password : '\n' ∉ grant.identity.map folded := by
    intro member
    obtain ⟨char, isChar, same⟩ := List.mem_map.mp member
    exact folded_ne_newline (fun isBreak => plain.identity (isBreak ▸ isChar)) same
  intro text member
  simp only [userLines, List.mem_cons, List.not_mem_nil, or_false] at member
  rcases member with rfl | rfl | rfl | rfl | rfl | rfl | rfl | rfl
  · decide
  · exact List.not_mem_append (by decide) plain.identity
  · exact List.not_mem_append (by decide) (List.not_mem_append (by decide) password)
  · decide
  · exact List.not_mem_append (by decide) publish
  · exact List.not_mem_append (by decide) subscribe
  · decide
  · decide

theorem newline_not_mem_preamble : ∀ text ∈ preamble, '\n' ∉ text := by
  unfold preamble
  repeat rw [String.toList_ofList]
  decide

/-- The lines before the users hold two directives, the rest are comments. -/
theorem directives_preamble :
    (preamble.map trimStart).filter
        (fun text => decide (text ≠ [] ∧ text.head? ≠ some '#')) =
      ["authorization ".toList ++ ['{'], "users: [".toList] := by
  unfold preamble
  -- As lists of characters the lines need not be decoded.
  repeat rw [String.toList_ofList]
  rfl

/-- The fragment of plain grants reads back as their users, in their order. -/
theorem readConfig_toNatsConfig {grants : List Grant} (plain : ∀ grant ∈ grants, grant.Plain) :
    readConfig (toNatsConfig grants) = some (grants.map served) := by
  have single : ∀ text ∈ preamble ++ grants.flatMap userLines ++ closing, '\n' ∉ text := by
    intro text member
    simp only [List.mem_append, List.mem_flatMap] at member
    rcases member with (isPreamble | ⟨grant, isGrant, isLine⟩) | isClosing
    · exact newline_not_mem_preamble text isPreamble
    · exact newline_not_mem_userLines (plain grant isGrant) text isLine
    · have none : ∀ text ∈ closing, '\n' ∉ text := by decide +kernel
      exact none text isClosing
  have isDirectives : directives (toNatsConfig grants) =
      ("authorization ".toList ++ ['{']) :: "users: [".toList ::
        (grants.flatMap userDirectives ++ ["]".toList, ['}']]) := by
    rw [directives, toNatsConfig, lines_flatMap_line single]
    simp only [List.map_append, List.filter_append, List.map_flatMap, List.filter_flatMap]
    simp only [trim_userLines]
    have ending : (closing.map trimStart).filter
        (fun text => decide (text ≠ [] ∧ text.head? ≠ some '#')) =
          ["]".toList, ['}']] := by
      decide +kernel
    rw [directives_preamble, ending]
    simp [trimStart]
  rw [readConfig, isDirectives]
  exact readUsers_directives plain

end Broker
end Datawatch
