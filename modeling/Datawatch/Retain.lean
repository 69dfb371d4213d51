import Datawatch.Calendar
import Datawatch.Library.Directory
import Datawatch.Library.FileTree
import Datawatch.Segments.Cursor
import Datawatch.Wire.Dataset

/-!
# Retention

The mechanism that enacts a declared policy, and nothing where none is declared.  The whole
`date=` directory is the unit of expiry, and what the classifier does not know is left alone.
-/

namespace Datawatch
namespace Retain

open Library Segments Calendar Wire

/-- Which declared horizon selected a candidate. -/
inductive Family
  | venue (name : Text)
  | tape
  | signals
deriving DecidableEq

/-- A declared horizon, in days. -/
structure Horizon where
  days : UInt32

/-- What the operator declared, if anything. -/
structure Policy where
  venues : Directory Text Horizon := ∅
  tape : Option Horizon := none

/-- Whether nothing at all is declared. -/
def Policy.isEmpty (policy : Policy) : Bool :=
  policy.venues.entries.isEmpty && policy.tape.isNone

/-- The horizon of a family.  None can be declared for the signals. -/
def Policy.horizonFor (policy : Policy) : Family → Option Horizon
  | .venue name => policy.venues.lookup name
  | .tape => policy.tape
  | .signals => none

/-- One whole dated directory a declared horizon has expired. -/
structure Candidate where
  path : List EntryName
  family : Family
  date : Text
  bytes : Nat

/-- What one sweep saw. -/
structure Sweep where
  candidates : List Candidate := []
  unclassified : List (List EntryName) := []

/-- What several sweeps saw. -/
def Sweep.concat (sweeps : List Sweep) : Sweep where
  candidates := sweeps.flatMap Sweep.candidates
  unclassified := sweeps.flatMap Sweep.unclassified

/-- Whether there is nothing to do. -/
def Sweep.isEmpty (sweep : Sweep) : Bool := sweep.candidates.isEmpty

/-- How the archive's top level names a family. -/
def archiveFamily (top : Text) : Option Family := (top.dropPrefix? "venue=".toList).map .venue

/-- How the tape's top level names a family. -/
def tapeFamily (top : Text) : Option Family :=
  if top = "kind=".toList ++ Kind.signals.asStr then some .signals
  else if "kind=".toList <+: top then some .tape
  else none

/-- The nearest moment an `i64` holds. -/
def saturated (value : Int) : Int := max i64Min (min value i64Max)

/-- The moment a horizon ago. -/
def cutoff (horizon : Horizon) (nowMicros : Int) : Int :=
  saturated (nowMicros - saturated (horizon.days.toNat * microsPerDay))

/-- Whether a day that starts at a moment has ended a horizon ago. -/
def ended (horizon : Horizon) (nowMicros midnight : Int) : Bool :=
  decide (saturated (midnight + microsPerDay) ≤ cutoff horizon nowMicros)

/-- The date a directory is named for. -/
def dateOfName (name : EntryName) : Option Text := name.text.dropPrefix? "date=".toList

section Sweeping

variable {Content : Type u} (bytes : Content → Nat) (policy : Policy) (nowMicros : Int)

/-- Every `date=` directory under a family, at whatever depth. -/
def dated (family : Family) (horizon : Horizon) : List EntryName → FileTree Content → Sweep
  | _, .nil => {}
  | path, .file _ _ rest => dated family horizon path rest
  | path, .directory name inside rest =>
      let here : Sweep :=
        match dateOfName name with
        | none => dated family horizon (path ++ [name]) inside
        | some date =>
            match midnightOf date with
            | none => { unclassified := [path ++ [name]] }
            | some midnight =>
                if ended horizon nowMicros midnight then
                  { candidates := [⟨path ++ [name], family, date, inside.size bytes⟩] }
                else {}
      .concat [here, dated family horizon path rest]

/-- What one directory of a root's top level holds. -/
def collectTop (classify : Text → Option Family) (root : List EntryName)
    (top : EntryName × FileTree Content) : Sweep :=
  match classify top.1.text with
  | none => { unclassified := [root ++ [top.1]] }
  | some family =>
      match policy.horizonFor family with
      | none => {}
      | some horizon => dated bytes nowMicros family horizon (root ++ [top.1]) top.2

def collect (classify : Text → Option Family) (root : List EntryName)
    (files : FileTree Content) : Sweep :=
  .concat ((files.descend root).children.map (collectTop bytes policy nowMicros classify root))

/-- The order of paths, component by component. -/
def pathLe (first second : List EntryName) : Prop :=
  first.map EntryName.text ≤ second.map EntryName.text

instance : DecidableRel pathLe := fun _ _ => by
  unfold pathLe
  infer_instance

/-- What a declared policy expires.  Removes nothing. -/
def sweep (archiveRoot tapeRoot : List EntryName) (files : FileTree Content) : Sweep :=
  if policy.isEmpty then {}
  else
    let out := Sweep.concat
      [collect bytes policy nowMicros archiveFamily archiveRoot files,
        collect bytes policy nowMicros tapeFamily tapeRoot files]
    { candidates := out.candidates.insertionSort fun first second => pathLe first.path second.path
      unclassified := out.unclassified.insertionSort pathLe }

end Sweeping

/-- How the tool ends. -/
inductive Exit
  | done
  | broken
  | badArgument
  | nothing
deriving DecidableEq

/-- The argument without which nothing is removed. -/
def deleteFlag : Text := "--delete".toList

/-- What becomes of removing one directory.  One that fails may have removed some of it. -/
inductive Removal
  | removed
  | failed (gone : List EntryName → Bool)

/-- What a removal leaves. -/
def Removal.apply {Content : Type u} (path : List EntryName) (files : FileTree Content) :
    Removal → FileTree Content
  | .removed => files.removeAt path
  | .failed gone => files.keepFiles fun found => !(FileTree.leadsInto path found && gone found)

/-- Whether the directory went. -/
def Removal.succeeds : Removal → Bool
  | .removed => true
  | .failed _ => false

/-- What one run of the tool meets: its configuration where it loads, the roots it declares,
whether each can be read and held, and what becomes of each removal. -/
structure Setting where
  config : Option Policy
  archiveRoot : List EntryName
  tapeRoot : List EntryName
  archiveScans : Bool
  tapeScans : Bool
  archiveHeld : Bool
  tapeHeld : Bool
  nowMicros : Int
  removals : List EntryName → Removal

/-- Remove every candidate in turn, one that will not go being no reason to stop. -/
def removeAll {Content : Type u} (removals : List EntryName → Removal)
    (candidates : List Candidate) (files : FileTree Content) : FileTree Content :=
  candidates.foldl (fun files candidate => (removals candidate.path).apply candidate.path files)
    files

/-- Report what a declared horizon has expired and, only where told to, remove it. -/
def run {Content : Type u} (bytes : Content → Nat) (setting : Setting) (args : List Text)
    (files : FileTree Content) : Exit × FileTree Content :=
  if args.any (· ≠ deleteFlag) then (.badArgument, files)
  else
    let delete := !args.isEmpty
    match setting.config with
    | none => (.broken, files)
    | some policy =>
        if policy.isEmpty then (.nothing, files)
        else if !setting.archiveScans || !setting.tapeScans then (.broken, files)
        -- Deleting holds both stores before it lists what to delete.
        else if delete && (!setting.archiveHeld || !setting.tapeHeld) then (.broken, files)
        else
          let swept := sweep bytes policy setting.nowMicros setting.archiveRoot setting.tapeRoot
            files
          if swept.isEmpty then (.nothing, files)
          else if !delete then (.done, files)
          else
            (if swept.candidates.all fun candidate => (setting.removals candidate.path).succeeds
              then .done else .broken,
              removeAll setting.removals swept.candidates files)

end Retain
end Datawatch
