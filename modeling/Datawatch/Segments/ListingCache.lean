import Mathlib.Order.Monotone.Basic
import Datawatch.Library.Stamped
import Datawatch.Library.Transition
import Datawatch.Segments.Listing

/-!
# Cached listings

A walk over a tree of directories reuses a listing whose directory's mtime has not moved, where
the walk that read it saw some directory more than a margin newer.  Directories change, and other
walks share the cache, between any two of its steps.
-/

namespace Datawatch
namespace Segments

open Library Library.Stamped Library.Transition

/-- What an entry's file type says, a symlink followed. -/
inductive EntryKind
  | directory
  | file
  | other
deriving DecidableEq

/-- One entry of a directory. -/
structure Entry where
  name : Text
  kind : EntryKind
deriving DecidableEq

/-- A directory's path, by its components. -/
abbrev DirPath := List Text

/-- Every change made to a directory's entries so far, each with the mtime it set. -/
abbrev DirHistory := List (Change DirPath (List Entry))

/-- A filesystem's clock, in nanoseconds: it never goes back, and is within two seconds of the
time. -/
structure FilesystemClock where
  stamp : Nat → Nat
  monotone : Monotone stamp
  granular : ∀ now, stamp now ≤ now ∧ now < stamp now + 2_000_000_000

/-- How close to the newest mtime of a walk a listing may be and still be trusted. -/
def racyMargin : Nat := 2_000_000_000

/-- One directory's listing: its subdirectories and its committed segments. -/
structure Listed where
  modified : Nat
  /-- Older than the newest mtime of the walk that read it by more than the margin. -/
  trusted : Bool
  subdirs : List DirPath
  segments : Listing
deriving DecidableEq

/-- One `read_dir`.  A directory that will not read is an empty listing. -/
def read (dir : DirPath) (modified : Nat) (entries : Option (List Entry)) : Listed where
  modified := modified
  trusted := false
  subdirs := (((entries.getD []).filter fun entry => entry.kind = .directory).map fun entry =>
    dir ++ [entry.name]).insertionSort fun first second => first ≤ second
  segments := listSegments (((entries.getD []).filter fun entry => entry.kind = .file).map
    Entry.name)

/-- A cached listing, and the moment it was read, which no walk looks at. -/
structure Cached where
  listed : Listed
  readAt : Nat

/-- What a walk has gathered, and the directories it has still to visit. -/
structure Visited where
  out : List (DirPath × Listing)
  stack : List DirPath
deriving DecidableEq

/-- Take one directory's listing: its segments are gathered and its subdirectories are next. -/
def Visited.take (dir : DirPath) (listed : Listed) (visited : Visited) : Visited where
  out := if listed.segments = [] then visited.out else visited.out ++ [(dir, listed.segments)]
  stack := listed.subdirs ++ visited.stack

/-- Where a walk is in its visit of a directory. -/
inductive Phase
  | arriving
  /-- The directory's mtime is known. -/
  | statted (dir : DirPath) (modified : Nat)
  /-- The cache had no listing to reuse. -/
  | missed (dir : DirPath) (modified : Nat)
  /-- The directory is read, and its listing is not cached yet. -/
  | loaded (dir : DirPath) (listed : Listed) (readAt : Nat)
  | returned (partitions : List (DirPath × Listing))
deriving DecidableEq

/-- One call of `partitions_with_segments`. -/
structure Walk where
  root : DirPath
  /-- The moment it was called, which it does not look at. -/
  began : Nat
  phase : Phase
  visited : Visited
  seen : List (DirPath × Nat)
deriving DecidableEq

/-- The partitions a walk gathered, in order. -/
def sortPartitions (out : List (DirPath × Listing)) : List (DirPath × Listing) :=
  out.insertionSort fun first second => first.1 ≤ second.1

/-- Whether a walk that saw these mtimes trusts a listing of one of them. -/
def trusts (seen : List (DirPath × Nat)) (modified : Nat) : Bool :=
  ((seen.map Prod.snd).max?).any fun newest => decide (modified + racyMargin < newest)

/-- Settle which listings the next walk may trust. -/
def settle (seen : List (DirPath × Nat)) (cache : DirPath → Option Cached) :
    DirPath → Option Cached :=
  fun dir => (cache dir).map fun cached =>
    if (dir, cached.listed.modified) ∈ seen then
      { cached with
        listed := { cached.listed with trusted := trusts seen cached.listed.modified } }
    else cached

/-- The listing a walk reuses for a directory of this mtime. -/
def reusable (cache : DirPath → Option Cached) (dir : DirPath) (modified : Nat) :
    Option Listed :=
  ((cache dir).filter fun cached => cached.listed.trusted && cached.listed.modified = modified).map
    Cached.listed

/-- A tree, a cache, and every call made of it. -/
structure World where
  now : Nat := 0
  history : DirHistory := []
  cache : DirPath → Option Cached := fun _ => none
  walks : List Walk := []

/-- What a directory holds now. -/
def World.dirNow (world : World) (dir : DirPath) : Option (Nat × List Entry) :=
  heldAt world.history world.history.length dir

/-- A walk's next step, and what it makes of the cache: an mtime, a lookup, a read, the cache's
insertion, or the settling. -/
def World.advance (world : World) (walk : Walk) : (DirPath → Option Cached) × Walk :=
  match walk.phase with
  | .arriving =>
      match walk.visited.stack with
      | [] =>
          (settle walk.seen world.cache,
            { walk with phase := .returned (sortPartitions walk.visited.out) })
      | dir :: stack =>
          let walk := { walk with visited := { walk.visited with stack := stack } }
          match world.dirNow dir with
          | none => (world.cache, walk)
          | some (modified, _) =>
              (world.cache, { walk with
                phase := .statted dir modified
                seen := walk.seen ++ [(dir, modified)] })
  | .statted dir modified =>
      match reusable world.cache dir modified with
      | some listed =>
          (world.cache, { walk with
            phase := .arriving
            visited := walk.visited.take dir listed })
      | none => (world.cache, { walk with phase := .missed dir modified })
  | .missed dir modified =>
      (world.cache, { walk with
        phase := .loaded dir (read dir modified ((world.dirNow dir).map Prod.snd))
          world.history.length })
  | .loaded dir listed readAt =>
      (fun other => if other = dir then some ⟨listed, readAt⟩ else world.cache other,
        { walk with phase := .arriving, visited := walk.visited.take dir listed })
  | .returned _ => (world.cache, walk)

/-- What happens next: time passes, a directory changes or goes, a call is made or takes its next
step, or a directory that no longer exists is forgotten. -/
inductive CacheEvent
  | elapse (nanos : Nat)
  | change (dir : DirPath) (entries : Option (List Entry))
  | call (root : DirPath)
  | advance (index : Nat)
  | prune (dir : DirPath)

/-- One event. -/
def cacheStep (clock : FilesystemClock) (world : World) : CacheEvent → Option World
  | .elapse nanos => some { world with now := world.now + nanos }
  | .change dir entries =>
      some { world with history := world.history ++ [⟨dir, clock.stamp world.now, entries⟩] }
  | .call root =>
      some { world with
        walks := world.walks ++ [⟨root, world.history.length, .arriving, ⟨[], [root]⟩, []⟩] }
  | .advance index =>
      (world.walks[index]?).map fun walk =>
        { world with
          cache := (world.advance walk).1
          walks := world.walks.set index (world.advance walk).2 }
  | .prune dir =>
      some { world with
        cache := fun other =>
          if other = dir ∧ world.dirNow dir = none then none else world.cache other }

/-- What a directory's listing is at a moment. -/
def listedAt (history : DirHistory) (dir : DirPath) (moment : Nat) : Listed :=
  read dir 0 ((heldAt history moment dir).map Prod.snd)

/-- Read the next directory at a moment. -/
def readNext (history : DirHistory) (visited : Visited) (moment : Nat) : Option Visited :=
  match visited.stack with
  | [] => none
  | dir :: stack => some (Visited.take dir (listedAt history dir moment) ⟨visited.out, stack⟩)

/-- What a walk without a cache returns, each of its reads at a moment of its own. -/
def uncached (history : DirHistory) (root : DirPath) (moments : List Nat) :
    Option (List (DirPath × Listing)) :=
  (moments.foldlM (readNext history) ⟨[], [root]⟩).bind fun visited =>
    if visited.stack = [] then some (sortPartitions visited.out) else none

/-- A call returned what a walk without a cache returns that reads, in order, at moments between
its start and its end. -/
def AsUncached (history : DirHistory) (walk : Walk) : Prop :=
  ∀ partitions, walk.phase = .returned partitions →
    ∃ moments : List Nat, moments.Pairwise (fun first second => first ≤ second) ∧
      (∀ moment ∈ moments, walk.began ≤ moment ∧ moment ≤ history.length) ∧
        uncached history walk.root moments = some partitions

end Segments
end Datawatch
