import Datawatch.Library.Holds
import Datawatch.Replay.Compacted
import Datawatch.Retain.Keeps
import Datawatch.Segments.ClosedDays
import Datawatch.Tape.Rebuild

/-!
# The tools and what they hold

Four tools work on the archive and the tape while the recorders add to both.  A tool holds what it
changes exclusively and what it reads shared, and one that holds both takes the archive first.
Nothing but that keeps a change to what is held.
-/

namespace Datawatch
namespace Tools

open Library Library.Directory Library.Holds Library.Transition Segments Record Calendar

/-- The two stores that are held. -/
inductive Store
  | archive
  | tape
deriving DecidableEq

/-- The argument with which a compaction reports, and compacts nothing. -/
def reportFlag : Text := "--report".toList

/-- The argument with which today's closed hours are compacted too. -/
def closedHoursFlag : Text := "--closed-hours".toList

/-- Whether `galata-compact` comes to compact. -/
def compacts (args : List Text) : Bool :=
  (args.all fun arg => arg = reportFlag || arg = closedHoursFlag) && !args.contains reportFlag

/-- Whether `galata-retain` comes to delete. -/
def deletes (args : List Text) : Bool :=
  !args.isEmpty && args.all fun arg => arg = Retain.deleteFlag

/-- The tools, with the arguments that decide what they hold: `galata-compact`, `galata-retain`,
`galata-tape-rebuild` and `galata-watch`. -/
inductive Tool
  | compact (args : List Text)
  | retain (args : List Text)
  | rebuild
  | watch

/-- What a tool takes before it reads or changes anything. -/
def Tool.plan : Tool → List (Hold Store)
  | .compact args => if compacts args then [⟨.archive, .exclusive⟩] else []
  | .retain args =>
      if deletes args then [⟨.archive, .exclusive⟩, ⟨.tape, .exclusive⟩] else []
  | .rebuild => [⟨.archive, .shared⟩, ⟨.tape, .exclusive⟩]
  | .watch => [⟨.archive, .shared⟩, ⟨.tape, .shared⟩]

/-- Archive before tape, the order every holder of both takes. -/
def Store.rank : Store → Nat
  | .archive => 0
  | .tape => 1

theorem ordered_plan : Ordered Tool.plan Store.rank := by
  intro tool
  cases tool with
  | compact args | retain args =>
      simp only [Tool.plan]
      split <;> simp [Store.rank]
  | rebuild | watch => simp [Tool.plan, Store.rank]

/-- How long after an hour's end it counts as closed. -/
def graceMicros : Int := 5 * 60 * 1000000

/-- The start of the latest hour that ended at least the grace ago. -/
def closedHoursCutoff (nowMicros : Int) : Int := (nowMicros - graceMicros) / hourMicros * hourMicros

/-- What one run of `galata-compact` makes of the archive, closed days first. -/
def compactEffects (days hours : Text → Segments.Faults) (args : List Text) (nowMicros : Int)
    (archive : ArchiveTree) : List (Effect Path (SegmentFile ArchiveRow ArchiveSchema)) :=
  if compacts args then
    let today := dateOf nowMicros
    let closed := compactClosed Replay.receiptOfRow days (Replay.unlabelled archive) [] today
    match closed.result with
    | .error _ => closed.effects
    | .ok _ =>
        if args.contains closedHoursFlag then
          closed.effects ++ (compactClosedHoursUnder Replay.receiptOfRow hours
            (closed.after (Replay.unlabelled archive)) [] today
            (closedHoursCutoff nowMicros)).effects
        else closed.effects
  else []

/-- A file of either store. -/
inductive StoredFile
  | archived (file : ArchiveFile)
  | projected (segment : Tape.TapeSegment)
deriving DecidableEq

/-- Where a store lies. -/
def rootOf (setting : Retain.Setting) : Store → List EntryName
  | .archive => setting.archiveRoot
  | .tape => setting.tapeRoot

/-- What a tool can make of a store, whatever it finds there and whatever fails.  A removal goes by
names and sizes, which a tree of sizes has. -/
def Tool.Makes : Tool → Store → Effect Path StoredFile → Prop
  | .compact args, store, effect =>
      store = .archive ∧ ∃ days hours nowMicros archive,
        effect ∈ (compactEffects days hours args nowMicros archive).map
          (Effect.map fun merged => .archived ⟨[], merged⟩)
  | .retain args, store, effect =>
      ∃ setting, ∃ files : FileTree Nat,
        ∃ found ∈ (files.descend (rootOf setting store)).files,
          found ∉ ((Retain.run id setting args files).2.descend (rootOf setting store)).files ∧
            effect = .remove (Retain.pathOf found.1)
  | .rebuild, store, effect =>
      store = .tape ∧ ∃ ingest archive tape request faults,
        effect ∈ (Tape.rebuildWith ingest archive tape request faults).effects.map
          (Effect.map .projected)
  | .watch, _, _ => False

/-- **A tool changes only what it plans to hold exclusively**, and one that only reports changes
nothing. -/
theorem covers_plan : Covers Tool.plan Tool.Makes := by
  intro tool store effect makes
  cases tool with
  | compact args =>
      obtain ⟨rfl, days, hours, nowMicros, archive, member⟩ := makes
      by_cases comes : compacts args = true
      · rw [Tool.plan, if_pos comes]
        exact List.mem_singleton_self _
      · rw [compactEffects, if_neg comes] at member
        cases member
  | retain args =>
      obtain ⟨setting, files, found, there, gone, rfl⟩ := makes
      by_cases comes : deletes args = true
      · rw [Tool.plan, if_pos comes]
        cases store <;> simp
      · have idle : ∀ policy, ¬ Retain.Removes setting args policy := by
          intro policy removes
          apply comes
          have some : args ≠ [] := List.ne_nil_of_mem removes.asked
          simpa [deletes, some] using removes.known
        rw [Retain.run_of_not_removes id setting args files idle] at gone
        exact absurd there gone
  | rebuild =>
      obtain ⟨rfl, _⟩ := makes
      exact List.mem_cons_of_mem _ (List.mem_singleton_self _)
  | watch => cases makes

variable {Agent : Type u} [DecidableEq Agent]

/-- **What a tool listed, it can open.**  In every interleaving of tools and recorders, two tools
that hold one store both share it; while a tool holds a store no file goes from it, but for what the
tool removes itself; and a file that nobody writes again is the one that was listed. -/
theorem held_files_stay {files : Store → Directory Path StoredFile}
    {before during : List (Step Agent Tool Store Path StoredFile)}
    {listed final : System Agent Tool Store Path StoredFile}
    (made : Guarded (System.act Tool.plan) (System.Makes Tool.Makes) (before ++ during) { files })
    (reached : exec (System.act Tool.plan) before { files } = some listed)
    (ran : exec (System.act Tool.plan) during listed = some final) {agent : Agent}
    {hold : Hold Store} (has : listed.Has Tool.plan agent hold)
    (leaves : ∀ step ∈ during, step.LeavesTo agent hold.store) :
    final.Exclusive Tool.plan ∧ final.Has Tool.plan agent hold ∧
      ∀ name ∈ listed.files hold.store, name ∈ final.files hold.store ∧
        ((∀ step ∈ during, ¬ step.Writes hold.store name) →
          (final.files hold.store).lookup name = (listed.files hold.store).lookup name) := by
  have exclusive : listed.Exclusive Tool.plan :=
    exclusive_exec (exclusive_of_none rfl) (exec_of_makes covers_plan made.of_append reached)
  have ran := exec_of_makes covers_plan (made.drop reached) ran
  exact ⟨exclusive_exec exclusive ran, has_exec has leaves ran,
    fun name there => ⟨mem_of_held exclusive has leaves ran there,
      lookup_of_held exclusive has leaves ran⟩⟩

/-- The partition of one venue's day. -/
def dayOf (date : Text) : Path := ⟨"venue=h/date=".toList ++ date, "s.parquet".toList⟩

/-- One venue's files of two days, and no tape. -/
def twoDays : Store → Directory Path StoredFile
  | .archive => ofList [(dayOf "1970-01-01".toList, .archived (payloadFile [Replay.quoteAt 1 10])),
      (dayOf "1970-01-02".toList,
        .archived (payloadFile [Replay.quoteAt 2 (microsPerDay + 10)]))]
  | .tape => ∅

/-- A deletion of the first day, and then a judge that takes both stores. -/
def deleting : List (Step Nat Tool Store Path StoredFile) :=
  [.starts 2 (.retain [Retain.deleteFlag]), .takes 2, .takes 2,
    .changes 2 .archive (.remove (dayOf "1970-01-01".toList)), .ends 2, .starts 1 .watch, .takes 1,
    .takes 1]

/-- A compaction starts, the recorder adds a file, and another judge takes the archive. -/
def meanwhile : List (Step Nat Tool Store Path StoredFile) :=
  [.starts 2 (.compact []),
    .adds .archive (dayOf "1970-01-03".toList)
      (.archived (payloadFile [Replay.quoteAt 3 (2 * microsPerDay)])),
    .starts 3 .watch, .takes 3]

/-- The deletion is one that the tool makes. -/
theorem makes_removal :
    (Tool.retain [Retain.deleteFlag]).Makes .archive (.remove (dayOf "1970-01-01".toList)) := by
  refine ⟨Retain.keptADay, Retain.filesOfTwoDays 1 1, ?_⟩
  decide +kernel

/-- The deletion is made; the compaction is not granted the archive, and the day that is left is as
it was. -/
theorem held_files_stay_meanwhile :
    ∃ listed final, exec (System.act Tool.plan) deleting { files := twoDays } = some listed ∧
      exec (System.act Tool.plan) meanwhile listed = some final ∧
        (listed.files .archive).lookup (dayOf "1970-01-01".toList) = none ∧
          System.act Tool.plan final (.takes 2) = none ∧
            (final.files .archive).lookup (dayOf "1970-01-02".toList) =
              some (.archived (payloadFile [Replay.quoteAt 2 (microsPerDay + 10)])) := by
  obtain ⟨listed, reached⟩ := Option.isSome_iff_exists.mp
    (show (exec (System.act Tool.plan) deleting { files := twoDays }).isSome from by
      decide +kernel)
  obtain ⟨final, ran⟩ := Option.isSome_iff_exists.mp
    (show (exec (System.act Tool.plan) meanwhile listed).isSome from by
      obtain rfl := Option.some.inj reached
      decide +kernel)
  have unchanging : ∀ step ∈ [Step.ends 2, .starts 1 .watch, .takes 1, .takes 1] ++ meanwhile,
      ∀ system, System.Makes Tool.Makes system step := by
    simp [meanwhile, System.Makes]
  have made : Guarded (System.act Tool.plan) (System.Makes Tool.Makes) (deleting ++ meanwhile)
      { files := twoDays } := by
    refine ⟨trivial, fun first isFirst => ⟨trivial, fun second isSecond => ⟨trivial,
      fun third isThird => ⟨?_, fun fourth _ => guarded_of_forall unchanging fourth⟩⟩⟩⟩
    obtain rfl := Option.some.inj isFirst
    obtain rfl := Option.some.inj isSecond
    obtain rfl := Option.some.inj isThird
    intro process isProcess
    obtain rfl : (⟨.retain [Retain.deleteFlag], 2⟩ : Process Tool) = process :=
      Option.some.inj isProcess
    exact makes_removal
  have has : listed.Has Tool.plan 1 ⟨.archive, .shared⟩ := by
    obtain rfl := Option.some.inj reached
    exact ⟨⟨.watch, 2⟩, rfl, List.mem_cons_self⟩
  have there : (listed.files .archive).lookup (dayOf "1970-01-02".toList) =
      some (.archived (payloadFile [Replay.quoteAt 2 (microsPerDay + 10)])) := by
    obtain rfl := Option.some.inj reached
    decide +kernel
  have stays := held_files_stay made reached ran has (by simp [meanwhile, Step.LeavesTo])
  refine ⟨listed, final, reached, ran, ?_, ?_, ?_⟩
  · obtain rfl := Option.some.inj reached
    decide +kernel
  · obtain rfl := Option.some.inj reached
    obtain rfl := Option.some.inj ran
    decide +kernel
  · rw [← there]
    refine (stays.2.2 _ (AList.lookup_isSome.mp (by rw [there]; rfl))).2 ?_
    intro step member
    simp only [meanwhile, List.mem_cons, List.not_mem_nil, or_false] at member
    rcases member with rfl | rfl | rfl | rfl
    · exact id
    · exact fun writes => absurd writes.2 (by decide +kernel)
    · exact id
    · exact id

section Finish

variable {Name : Type v} {Content : Type w} [DecidableEq Name]

/-- **No tools wait for one another for ever.**  From any state of the tools, holds can be granted
until each tool has had all that it plans, and none has given up. -/
theorem tools_finish (system : System Agent Tool Store Name Content) :
    ∃ steps final, exec (System.step Tool.plan) steps system = some final ∧
      final.processes.entries = [] ∧
        Guarded (System.step Tool.plan) (System.Finishing Tool.plan) steps system :=
  all_can_finish ordered_plan system

end Finish

end Tools
end Datawatch
