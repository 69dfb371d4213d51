import Mathlib.Data.Finset.Card
import Datawatch.Library.Directory
import Datawatch.Ledger.Run

/-!
# Account bindings

Discovery binds a master's sub-accounts to ordinals, and so to aliases, as the venue first lists
them.  A process that starts rebuilds the bindings from the rows the record holds.
-/

namespace Datawatch
namespace Ledger

open Library Library.Transition Wire

/-- A binding row: a sub-account, and what it is bound to under its master. -/
structure AccountSeen where
  master : Account
  ordinal : UInt32
  fingerprint : Text
  name : Option Text
deriving DecidableEq

/-- A discovered sub-account's alias: `<master>_s<ordinal>`. -/
def subAlias (master : Account) (ordinal : UInt32) : Option Account :=
  Token.new (master.text ++ "_s".toList ++ Text.renderNat ordinal.toNat)

/-- What a discovery run made of one sub-account it saw. -/
inductive Seen
  | new (alias_ : Account) (seen : AccountSeen)
  | renamed (alias_ : Account) (seen : AccountSeen)
  | known (alias_ : Account)
deriving DecidableEq

/-- What a sub-account is bound to. -/
structure Bound where
  ordinal : UInt32
  name : Option Text
deriving DecidableEq

/-- Every sub-account binding: by master, then by fingerprint. -/
structure Bindings where
  masters : Directory Account (Directory Text Bound) := ∅

namespace Bindings

/-- The bindings under one master. -/
def under (bindings : Bindings) (master : Account) : Directory Text Bound :=
  (bindings.masters.lookup master).getD ∅

def bound (bindings : Bindings) (master : Account) (fingerprint : Text) : Option Bound :=
  (bindings.under master).lookup fingerprint

def insert (bindings : Bindings) (master : Account) (fingerprint : Text) (bound : Bound) :
    Bindings :=
  ⟨bindings.masters.insert master ((bindings.under master).insert fingerprint bound)⟩

/-- Take one row: a later one for the same fingerprint updates its name and never its ordinal. -/
def take (bindings : Bindings) (row : AccountSeen) : Bindings :=
  match bindings.bound row.master row.fingerprint with
  | some bound => bindings.insert row.master row.fingerprint { bound with name := row.name }
  | none => bindings.insert row.master row.fingerprint ⟨row.ordinal, row.name⟩

/-- The bindings rows make, in the order given. -/
def fromSeen (rows : List AccountSeen) : Bindings := rows.foldl take {}

/-- The alias a fingerprint is bound to under a master. -/
def aliasOf (bindings : Bindings) (master : Account) (fingerprint : Text) : Option Account :=
  (bindings.bound master fingerprint).bind fun bound => subAlias master bound.ordinal

/-- The highest ordinal bound under a master, zero where none is. -/
def highest (bindings : Bindings) (master : Account) : Nat :=
  ((bindings.under master).entries.map fun entry => entry.2.ordinal.toNat).foldr max 0

/-- One more than the highest bound, in the ordinal's own 32 bits. -/
def nextOrdinal (bindings : Bindings) (master : Account) : UInt32 :=
  .ofNat (bindings.highest master + 1)

/-- Record that a discovery run saw a sub-account, and say what to write. -/
def observe (bindings : Bindings) (master : Account) (fingerprint : Text) (name : Option Text) :
    Option (Bindings × Seen) :=
  match bindings.bound master fingerprint with
  | some bound =>
      (subAlias master bound.ordinal).map fun alias_ =>
        if bound.name = name then (bindings, .known alias_)
        else
          (bindings.insert master fingerprint { bound with name },
            .renamed alias_ ⟨master, bound.ordinal, fingerprint, name⟩)
  | none =>
      let ordinal := bindings.nextOrdinal master
      (subAlias master ordinal).map fun alias_ =>
        (bindings.insert master fingerprint ⟨ordinal, name⟩,
          .new alias_ ⟨master, ordinal, fingerprint, name⟩)

/-- The bound sub-accounts a discovery run did not see. -/
def missing (bindings : Bindings) (master : Account) (present : List Text) : List Account :=
  ((bindings.under master).entries.filter fun entry => entry.1 ∉ present).filterMap fun entry =>
    subAlias master entry.2.ordinal

@[simp] theorem bound_empty (master : Account) (fingerprint : Text) :
    ({} : Bindings).bound master fingerprint = none := rfl

/-- An insertion binds one sub-account and leaves every other as it was. -/
@[simp] theorem bound_insert (bindings : Bindings) (master : Account) (fingerprint : Text)
    (value : Bound) (asked : Account) (about : Text) :
    (bindings.insert master fingerprint value).bound asked about =
      if asked = master ∧ about = fingerprint then some value else bindings.bound asked about := by
  by_cases sameMaster : asked = master
  · subst sameMaster
    by_cases same : about = fingerprint
    · subst same
      simp [insert, bound, under]
    · simp [insert, bound, under, same]
  · simp [insert, bound, under, sameMaster]

/-- A row's account keeps its ordinal and takes the row's name. -/
@[simp] theorem bound_take (bindings : Bindings) (row : AccountSeen) (master : Account)
    (fingerprint : Text) :
    (bindings.take row).bound master fingerprint =
      if master = row.master ∧ fingerprint = row.fingerprint then
        some ⟨((bindings.bound master fingerprint).map Bound.ordinal).getD row.ordinal, row.name⟩
      else bindings.bound master fingerprint := by
  by_cases same : master = row.master ∧ fingerprint = row.fingerprint
  · obtain ⟨rfl, rfl⟩ := same
    cases found : bindings.bound row.master row.fingerprint with
    | none => simp [take, found]
    | some value => simp [take, found]
  · cases found : bindings.bound row.master row.fingerprint with
    | none => simp [take, found, same]
    | some value => simp [take, found, same]

/-- Whether a row is of one sub-account. -/
def about (master : Account) (fingerprint : Text) (row : AccountSeen) : Bool :=
  row.master = master && row.fingerprint = fingerprint

theorem about_iff {master : Account} {fingerprint : Text} {row : AccountSeen} :
    about master fingerprint row = true ↔ row.master = master ∧ row.fingerprint = fingerprint := by
  simp [about]

/-- Rows bind a sub-account as its own rows do. -/
theorem bound_foldl_take (rows : List AccountSeen) (bindings : Bindings) (master : Account)
    (fingerprint : Text) :
    (rows.foldl take bindings).bound master fingerprint =
      ((rows.filter (about master fingerprint)).foldl take bindings).bound master
        fingerprint := by
  suffices agreed : ∀ other : Bindings,
      bindings.bound master fingerprint = other.bound master fingerprint →
      (rows.foldl take bindings).bound master fingerprint =
        ((rows.filter (about master fingerprint)).foldl take other).bound master
          fingerprint from agreed bindings rfl
  induction rows generalizing bindings with
  | nil => exact fun _ same => same
  | cons row rows inductionHypothesis =>
      intro other same
      by_cases isAbout : about master fingerprint row = true
      · rw [List.filter_cons_of_pos isAbout, List.foldl_cons, List.foldl_cons]
        apply inductionHypothesis
        simp only [bound_take, same]
      · rw [List.filter_cons_of_neg isAbout, List.foldl_cons]
        apply inductionHypothesis
        have apart : ¬ (master = row.master ∧ fingerprint = row.fingerprint) :=
          fun equal => isAbout (about_iff.mpr ⟨equal.1.symm, equal.2.symm⟩)
        rw [bound_take, if_neg apart, same]

/-- The ordinal a sub-account is bound to is that of the first of its rows. -/
theorem ordinal_foldl_take {rows : List AccountSeen} {master : Account} {fingerprint : Text}
    (own : ∀ row ∈ rows, about master fingerprint row = true) (bindings : Bindings) :
    ((rows.foldl take bindings).bound master fingerprint).map Bound.ordinal =
      ((bindings.bound master fingerprint).map Bound.ordinal).or
        (rows.head?.map AccountSeen.ordinal) := by
  induction rows generalizing bindings with
  | nil => simp
  | cons row rows inductionHypothesis =>
      have isRow := about_iff.mp (own row List.mem_cons_self)
      rw [List.foldl_cons, inductionHypothesis fun other member =>
        own other (List.mem_cons_of_mem _ member)]
      rw [bound_take, if_pos ⟨isRow.1.symm, isRow.2.symm⟩]
      cases bindings.bound master fingerprint with
      | none => simp
      | some value => simp

/-- What a sub-account is bound to once rows are read: the ordinal of the first of its own. -/
theorem ordinal_fromSeen (rows : List AccountSeen) (master : Account) (fingerprint : Text) :
    ((fromSeen rows).bound master fingerprint).map Bound.ordinal =
      (rows.filter (about master fingerprint)).head?.map AccountSeen.ordinal := by
  have own : ∀ row ∈ rows.filter (about master fingerprint), about master fingerprint row = true :=
    fun row member => (List.mem_filter.mp member).2
  rw [fromSeen, bound_foldl_take, ordinal_foldl_take own]
  simp

/-- Two lists of rows with the same rows of a sub-account bind it alike. -/
theorem bound_fromSeen_congr {first second : List AccountSeen} {master : Account}
    {fingerprint : Text}
    (same : first.filter (about master fingerprint) = second.filter (about master fingerprint)) :
    (fromSeen first).bound master fingerprint = (fromSeen second).bound master fingerprint := by
  rw [fromSeen, fromSeen, bound_foldl_take, bound_foldl_take second, same]

/-- A row an observation can write: of the ordinal its account has, or of the next one. -/
def Emits (bindings : Bindings) (row : AccountSeen) : Prop :=
  row.ordinal =
    ((bindings.bound row.master row.fingerprint).map Bound.ordinal).getD
      (bindings.nextOrdinal row.master)

/-- An observation leaves the bindings as they were, or takes the row it says to write. -/
theorem observe_cases {bindings next : Bindings} {master : Account} {fingerprint : Text}
    {name : Option Text} {seen : Seen}
    (observed : bindings.observe master fingerprint name = some (next, seen)) :
    (∃ alias_, seen = .known alias_ ∧ next = bindings) ∨
      ∃ alias_ row, (seen = .new alias_ row ∨ seen = .renamed alias_ row) ∧
        next = bindings.take row ∧ bindings.Emits row ∧
          subAlias row.master row.ordinal = some alias_ := by
  cases found : bindings.bound master fingerprint with
  | none =>
      simp only [observe, found, Option.map_eq_some_iff, Prod.mk.injEq] at observed
      obtain ⟨alias_, named, rfl, rfl⟩ := observed
      refine .inr ⟨alias_, _, .inl rfl, ?_, ?_, named⟩
      · simp [take, found]
      · simp [Emits, found]
  | some value =>
      simp only [observe, found, Option.map_eq_some_iff] at observed
      obtain ⟨alias_, named, chosen⟩ := observed
      split at chosen
      · cases chosen
        exact .inl ⟨alias_, rfl, rfl⟩
      · cases chosen
        refine .inr ⟨alias_, _, .inr rfl, ?_, ?_, named⟩
        · simp [take, found]
        · simp [Emits, found]

end Bindings

/-- A binding row of the record, with its receipt time and its sequence. -/
structure BindingRow where
  recvMicros : Int
  seq : UInt64
  account : Account
  seen : AccountSeen
deriving DecidableEq

/-- Receipt order, then sequence: how the record is read back. -/
def rowBefore (first second : BindingRow) : Bool :=
  decide (first.recvMicros < second.recvMicros ∨
    (first.recvMicros = second.recvMicros ∧ first.seq ≤ second.seq))

/-- One venue's bindings, read back out of the record. -/
def Bindings.read (rows : List BindingRow) : Bindings :=
  .fromSeen ((rows.insertionSort fun first second => rowBefore first second = true).map
    BindingRow.seen)

/-- A ledger: the binding rows of its record, in the order they were written, and what its
process holds of them. -/
structure BindingRun where
  rows : List BindingRow := []
  bindings : Bindings := {}
  nextSeq : UInt64 := 0
  polled : List Account := []
  running : Bool := false

/-- A sub-account as a listing names it: by the keyed fingerprint of its address, with when its
row is stamped and how the row's commit comes out. -/
structure Listed where
  fingerprint : Text
  name : Option Text
  nowMicros : Int
  commit : Commit

/-- A listing: how recording it comes out, and its entries where it can be read. -/
structure ListingAnswer where
  commit : Commit
  listed : Option (List Listed)

/-- One master asked for its sub-accounts: no answer where the venue refused. -/
structure Ask where
  master : Account
  nowMicros : Int
  answer : Option ListingAnswer

/-- What one discovery run found under one master. -/
structure Discovery where
  master : Account
  atMicros : Int
  answered : Bool := false
  seen : Nat := 0
  new : List Account := []
  missing : List Account := []

namespace BindingRun

/-- What a process that ends leaves: the record. -/
def ended (run : BindingRun) : BindingRun := { rows := run.rows }

/-- Record another payload.  A failure ends the process. -/
def recordOther (commit : Commit) (run : BindingRun) : Except BindingRun BindingRun :=
  match commit with
  | .committed => .ok { run with nextSeq := run.nextSeq + 1 }
  | .refused | .unsynced => .error run.ended

/-- Record a binding.  A failure ends the process. -/
def recordBinding (alias_ : Account) (seen : AccountSeen) (nowMicros : Int) (commit : Commit)
    (run : BindingRun) : Except BindingRun BindingRun :=
  let written := { run with
    nextSeq := run.nextSeq + 1
    rows := run.rows ++ [⟨nowMicros, run.nextSeq, alias_, seen⟩] }
  match commit with
  | .committed => .ok written
  | .refused => .error run.ended
  | .unsynced => .error written.ended

def poll (alias_ : Account) (run : BindingRun) : BindingRun :=
  { run with polled := alias_ :: run.polled }

/-- Bind one listed sub-account, and record what is new or was renamed. -/
def seeListed (master : Account) (state : BindingRun × Discovery) (listed : Listed) :
    Except BindingRun (BindingRun × Discovery) :=
  let (run, discovery) := state
  match run.bindings.observe master listed.fingerprint listed.name with
  | none => .error run.ended
  | some (bindings, .new alias_ seen) => do
      let run ← { run with bindings }.recordBinding alias_ seen listed.nowMicros listed.commit
      return (run.poll alias_, { discovery with new := discovery.new ++ [alias_] })
  | some (bindings, .renamed alias_ seen) => do
      let run ← { run with bindings }.recordBinding alias_ seen listed.nowMicros listed.commit
      return (run.poll alias_, discovery)
  | some (bindings, .known alias_) => .ok ({ run with bindings }.poll alias_, discovery)

/-- One master's part of a discovery run: what vanished is no longer polled. -/
def discoverMaster (run : BindingRun) (ask : Ask) : Except BindingRun (BindingRun × Discovery) :=
  let discovery : Discovery := { master := ask.master, atMicros := ask.nowMicros }
  match ask.answer with
  | none => .ok (run, discovery)
  | some answer => do
      let run ← run.recordOther answer.commit
      match answer.listed with
      | none => return (run, discovery)
      | some listed =>
          let (run, discovery) ← listed.foldlM (seeListed ask.master)
            (run, { discovery with answered := true, seen := listed.length })
          let missing := run.bindings.missing ask.master (listed.map Listed.fingerprint)
          return ({ run with polled := run.polled.filter fun alias_ => alias_ ∉ missing },
            { discovery with missing })

/-- One discovery run over every master. -/
def discover (asks : List Ask) (run : BindingRun) :
    Except BindingRun (BindingRun × List Discovery) :=
  asks.foldlM (fun (run, found) ask => do
    let (run, discovery) ← run.discoverMaster ask
    return (run, found ++ [discovery])) (run, [])

/-- What happens next: the process starts, discovers, or records something else. -/
inductive Step
  | boot (nowMicros : Int)
  | discover (asks : List Ask)
  | recorded (commit : Commit)

/-- A process that starts holds what the record states, and sequences from its clock. -/
def booted (run : BindingRun) (nowMicros : Int) : BindingRun :=
  { rows := run.rows
    bindings := .read run.rows
    nextSeq := .ofNat nowMicros.toNat
    running := true }

/-- What a step comes to, the process ended where it failed. -/
def settled : Except BindingRun BindingRun → BindingRun
  | .ok run | .error run => run

/-- One step.  A process can end at any moment, so one can start from any state. -/
def step (run : BindingRun) : Step → Option BindingRun
  | .boot nowMicros => some (run.booted nowMicros)
  | .discover asks =>
      if run.running then some (settled ((run.discover asks).map Prod.fst)) else none
  | .recorded commit =>
      if run.running then some (settled (run.recordOther commit)) else none

end BindingRun

end Ledger
end Datawatch
