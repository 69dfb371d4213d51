import Mathlib.Algebra.Order.Ring.Nat
import Datawatch.Library.Directory
import Datawatch.Library.Transition

/-!
# Holds on shared stores

Processes take what they plan to hold in a fixed order, exclusively or shared with others, and one
that holds a store exclusively may change its files.  Anybody may add a file, and holds nothing for
it.  Nothing keeps a process to what it holds: where no tool makes a change but of what it plans to
hold exclusively, every run is one in which changes are made under the changer's own hold.
-/

namespace Library
namespace Holds

open Directory Transition

/-- Whether a hold excludes every other holder, or the exclusive ones only. -/
inductive Mode
  | exclusive
  | shared
deriving DecidableEq

/-- Whether two holds of one store cannot be held at once. -/
def Mode.excludes (mode other : Mode) : Bool := mode = .exclusive || other = .exclusive

/-- A hold on a store. -/
structure Hold (Store : Type u) where
  store : Store
  mode : Mode
deriving DecidableEq

/-- A process: the tool it runs, and how many of its holds it has taken. -/
structure Process (Tool : Type u) where
  tool : Tool
  taken : Nat := 0

/-- Who runs, and the files of each store. -/
structure System (Agent : Type u) (Tool : Type v) (Store : Type w) (Name : Type x)
    (Content : Type y) where
  processes : Directory Agent (Process Tool) := ∅
  files : Store → Directory Name Content

/-- One thing that happens. -/
inductive Step (Agent : Type u) (Tool : Type v) (Store : Type w) (Name : Type x)
    (Content : Type y)
  | starts (agent : Agent) (tool : Tool)
  /-- A process is granted the next hold it plans. -/
  | takes (agent : Agent)
  /-- A process is done, gives up waiting or dies, and its holds with it. -/
  | ends (agent : Agent)
  | changes (agent : Agent) (store : Store) (effect : Effect Name Content)
  | adds (store : Store) (name : Name) (content : Content)

variable {Agent : Type u} {Tool : Type v} {Store : Type w} {Name : Type x} {Content : Type y}

section Plans

variable (plan : Tool → List (Hold Store))

/-- What a process holds. -/
def Process.holds (process : Process Tool) : List (Hold Store) :=
  (plan process.tool).take process.taken

/-- What a process has yet to take next. -/
def Process.next (process : Process Tool) : Option (Hold Store) :=
  (plan process.tool)[process.taken]?

variable {plan} in
/-- What a process takes is added to what it holds. -/
theorem holds_succ {process : Process Tool} {hold : Hold Store}
    (isNext : process.next plan = some hold) :
    ({ process with taken := process.taken + 1 } : Process Tool).holds plan =
      process.holds plan ++ [hold] := by
  unfold Process.holds
  rw [List.take_add_one]
  exact congrArg (fun taken => process.holds plan ++ Option.toList taken) isNext

theorem Mode.excludes_comm (mode other : Mode) : mode.excludes other = other.excludes mode :=
  Bool.or_comm _ _

variable [DecidableEq Agent] [DecidableEq Store] [DecidableEq Name]

/-- Whether nobody has a hold that excludes one. -/
def System.free (system : System Agent Tool Store Name Content) (hold : Hold Store) : Bool :=
  system.processes.entries.all fun entry => (entry.2.holds plan).all fun other =>
    decide (other.store ≠ hold.store) || !other.mode.excludes hold.mode

/-- What one thing makes of a system, where it can happen. -/
def System.step (system : System Agent Tool Store Name Content) :
    Step Agent Tool Store Name Content → Option (System Agent Tool Store Name Content)
  | .starts agent tool =>
      if agent ∈ system.processes then none
      else some { system with processes := system.processes.insert agent { tool } }
  | .takes agent =>
      (system.processes.lookup agent).bind fun process => (process.next plan).bind fun hold =>
        if system.free plan hold then
          some
            { system with
              processes :=
                system.processes.insert agent { process with taken := process.taken + 1 } }
        else none
  | .ends agent => some { system with processes := system.processes.erase agent }
  | .changes agent store effect =>
      (system.processes.lookup agent).bind fun process =>
        if process.next plan = none ∧ ⟨store, .exclusive⟩ ∈ process.holds plan then
          some
            { system with
              files := Function.update system.files store (effect.apply (system.files store)) }
        else none
  | .adds store name content =>
      some
        { system with
          files := Function.update system.files store ((system.files store).insert name content) }

/-- What one thing makes of a system in which nothing keeps a change to what is held. -/
def System.act (system : System Agent Tool Store Name Content) :
    Step Agent Tool Store Name Content → Option (System Agent Tool Store Name Content)
  | .changes agent store effect =>
      (system.processes.lookup agent).bind fun process =>
        if process.next plan = none then
          some
            { system with
              files := Function.update system.files store (effect.apply (system.files store)) }
        else none
  | step => system.step plan step

/-- A change is one that its process's tool makes. -/
def System.Makes (makes : Tool → Store → Effect Name Content → Prop)
    (system : System Agent Tool Store Name Content) : Step Agent Tool Store Name Content → Prop
  | .changes agent store effect => ∀ process, system.processes.lookup agent = some process →
      makes process.tool store effect
  | .starts .. | .takes _ | .ends _ | .adds .. => True

/-- Whether a process has a hold. -/
def System.Has (system : System Agent Tool Store Name Content) (agent : Agent)
    (hold : Hold Store) : Prop :=
  ∃ process, system.processes.lookup agent = some process ∧ hold ∈ process.holds plan

/-- Two processes hold one store only where both share it. -/
def System.Exclusive (system : System Agent Tool Store Name Content) : Prop :=
  ∀ first second firstHold secondHold, first ≠ second → system.Has plan first firstHold →
    system.Has plan second secondHold → firstHold.store = secondHold.store →
      firstHold.mode.excludes secondHold.mode = false

variable {plan} {system next : System Agent Tool Store Name Content}

omit [DecidableEq Name] in
/-- A free hold is excluded by none that is held. -/
theorem not_excludes_of_free {hold held : Hold Store} {agent : Agent}
    (free : system.free plan hold = true) (has : system.Has plan agent held)
    (same : held.store = hold.store) : held.mode.excludes hold.mode = false := by
  obtain ⟨process, isProcess, isHeld⟩ := has
  have here := List.all_eq_true.mp (List.all_eq_true.mp free ⟨agent, process⟩
    (mem_entries_iff_lookup.mpr isProcess)) held isHeld
  simpa [same] using here

/-- A hold that is there after a step was there, or is the one just granted. -/
theorem has_of_step {step : Step Agent Tool Store Name Content}
    (stepped : system.step plan step = some next) {agent : Agent} {hold : Hold Store}
    (has : next.Has plan agent hold) :
    system.Has plan agent hold ∨ step = .takes agent ∧ system.free plan hold = true := by
  obtain ⟨process, isProcess, isHeld⟩ := has
  cases step with
  | starts other tool =>
      obtain ⟨_, isNext⟩ := Option.ite_none_left_eq_some.mp stepped
      obtain rfl := Option.some.inj isNext
      by_cases same : agent = other
      · subst same
        rw [AList.lookup_insert] at isProcess
        obtain rfl := Option.some.inj isProcess
        cases isHeld
      · rw [AList.lookup_insert_ne same] at isProcess
        exact .inl ⟨process, isProcess, isHeld⟩
  | takes other =>
      obtain ⟨taking, isTaking, bound⟩ := Option.bind_eq_some_iff.mp stepped
      obtain ⟨granted, isGranted, isNext⟩ := Option.bind_eq_some_iff.mp bound
      obtain ⟨free, isNext⟩ := Option.ite_none_right_eq_some.mp isNext
      obtain rfl := Option.some.inj isNext
      by_cases same : agent = other
      · subst same
        rw [AList.lookup_insert] at isProcess
        obtain rfl := Option.some.inj isProcess
        rw [holds_succ isGranted] at isHeld
        rcases List.mem_append.mp isHeld with before | here
        · exact .inl ⟨taking, isTaking, before⟩
        · obtain rfl := List.mem_singleton.mp here
          exact .inr ⟨rfl, free⟩
      · rw [AList.lookup_insert_ne same] at isProcess
        exact .inl ⟨process, isProcess, isHeld⟩
  | ends other =>
      obtain rfl := Option.some.inj stepped
      by_cases same : agent = other
      · subst same
        rw [AList.lookup_erase] at isProcess
        cases isProcess
      · rw [AList.lookup_erase_ne same] at isProcess
        exact .inl ⟨process, isProcess, isHeld⟩
  | changes other store effect =>
      obtain ⟨changing, _, isNext⟩ := Option.bind_eq_some_iff.mp stepped
      obtain ⟨_, isNext⟩ := Option.ite_none_right_eq_some.mp isNext
      obtain rfl := Option.some.inj isNext
      exact .inl ⟨process, isProcess, isHeld⟩
  | adds store name content =>
      obtain rfl := Option.some.inj stepped
      exact .inl ⟨process, isProcess, isHeld⟩

/-- **No step lets a process hold a store beside one that excludes it.** -/
theorem exclusive_step (exclusive : system.Exclusive plan)
    {step : Step Agent Tool Store Name Content} (stepped : system.step plan step = some next) :
    next.Exclusive plan := by
  intro first second firstHold secondHold apart hasFirst hasSecond same
  rcases has_of_step stepped hasFirst with oldFirst | ⟨firstTakes, firstFree⟩
  · rcases has_of_step stepped hasSecond with oldSecond | ⟨secondTakes, secondFree⟩
    · exact exclusive first second firstHold secondHold apart oldFirst oldSecond same
    · exact not_excludes_of_free secondFree oldFirst same
  · rcases has_of_step stepped hasSecond with oldSecond | ⟨secondTakes, secondFree⟩
    · rw [Mode.excludes_comm]
      exact not_excludes_of_free firstFree oldSecond same.symm
    · exact absurd (Step.takes.inj (firstTakes.symm.trans secondTakes)) apart

omit [DecidableEq Store] [DecidableEq Name] in
/-- Nobody holds anything where nobody runs. -/
theorem exclusive_of_none (none : system.processes = ∅) : system.Exclusive plan := by
  rintro first second firstHold secondHold apart ⟨process, isProcess, _⟩
  rw [none] at isProcess
  cases isProcess

/-- A step that neither ends a process nor is its own change of a store. -/
def Step.LeavesTo (agent : Agent) (store : Store) : Step Agent Tool Store Name Content → Prop
  | .ends other => other ≠ agent
  | .changes other changed _ => other = agent → changed ≠ store
  | .starts .. | .takes _ | .adds .. => True

/-- A step that adds a file of one name to a store. -/
def Step.Writes (store : Store) (name : Name) : Step Agent Tool Store Name Content → Prop
  | .adds changed other _ => changed = store ∧ other = name
  | .starts .. | .takes _ | .ends _ | .changes .. => False

/-- A process keeps its holds until it ends. -/
theorem has_step {step : Step Agent Tool Store Name Content}
    (stepped : system.step plan step = some next) {agent : Agent} {hold : Hold Store}
    {store : Store} (leaves : step.LeavesTo agent store) (has : system.Has plan agent hold) :
    next.Has plan agent hold := by
  obtain ⟨process, isProcess, isHeld⟩ := has
  cases step with
  | starts other tool =>
      obtain ⟨absent, isNext⟩ := Option.ite_none_left_eq_some.mp stepped
      obtain rfl := Option.some.inj isNext
      have apart : agent ≠ other := by
        rintro rfl
        exact absent (AList.lookup_isSome.mp (by rw [isProcess]; rfl))
      exact ⟨process, (AList.lookup_insert_ne apart).trans isProcess, isHeld⟩
  | takes other =>
      obtain ⟨taking, isTaking, bound⟩ := Option.bind_eq_some_iff.mp stepped
      obtain ⟨granted, isGranted, isNext⟩ := Option.bind_eq_some_iff.mp bound
      obtain ⟨_, isNext⟩ := Option.ite_none_right_eq_some.mp isNext
      obtain rfl := Option.some.inj isNext
      by_cases same : agent = other
      · subst same
        obtain rfl := Option.some.inj (isProcess.symm.trans isTaking)
        refine ⟨_, AList.lookup_insert _, ?_⟩
        rw [holds_succ isGranted]
        exact List.mem_append_left _ isHeld
      · exact ⟨process, (AList.lookup_insert_ne same).trans isProcess, isHeld⟩
  | ends other =>
      obtain rfl := Option.some.inj stepped
      exact ⟨process, (AList.lookup_erase_ne (Ne.symm leaves)).trans isProcess, isHeld⟩
  | changes other changed effect =>
      obtain ⟨changing, _, isNext⟩ := Option.bind_eq_some_iff.mp stepped
      obtain ⟨_, isNext⟩ := Option.ite_none_right_eq_some.mp isNext
      obtain rfl := Option.some.inj isNext
      exact ⟨process, isProcess, isHeld⟩
  | adds changed name content =>
      obtain rfl := Option.some.inj stepped
      exact ⟨process, isProcess, isHeld⟩

/-- A file of a store that a process holds is the same after a step that is not its own, and does
not write that file. -/
theorem lookup_step (exclusive : system.Exclusive plan)
    {step : Step Agent Tool Store Name Content} (stepped : system.step plan step = some next)
    {agent : Agent} {hold : Hold Store} (leaves : step.LeavesTo agent hold.store)
    (has : system.Has plan agent hold) {name : Name} (unwritten : ¬ step.Writes hold.store name) :
    (next.files hold.store).lookup name = (system.files hold.store).lookup name := by
  cases step with
  | starts other tool =>
      obtain ⟨_, isNext⟩ := Option.ite_none_left_eq_some.mp stepped
      obtain rfl := Option.some.inj isNext
      rfl
  | takes other =>
      obtain ⟨taking, _, bound⟩ := Option.bind_eq_some_iff.mp stepped
      obtain ⟨granted, _, isNext⟩ := Option.bind_eq_some_iff.mp bound
      obtain ⟨_, isNext⟩ := Option.ite_none_right_eq_some.mp isNext
      obtain rfl := Option.some.inj isNext
      rfl
  | ends other =>
      obtain rfl := Option.some.inj stepped
      rfl
  | changes other changed effect =>
      obtain ⟨changing, isChanging, isNext⟩ := Option.bind_eq_some_iff.mp stepped
      obtain ⟨⟨_, holds⟩, isNext⟩ := Option.ite_none_right_eq_some.mp isNext
      obtain rfl := Option.some.inj isNext
      have elsewhere : hold.store ≠ changed := by
        intro same
        have apart : other ≠ agent := fun isAgent => leaves isAgent same.symm
        have free := exclusive other agent ⟨changed, .exclusive⟩ hold apart
          ⟨changing, isChanging, holds⟩ has same.symm
        cases free
      simp only [Function.update_of_ne elsewhere]
  | adds changed other added =>
      obtain rfl := Option.some.inj stepped
      by_cases same : hold.store = changed
      · subst same
        have apart : name ≠ other := fun isName => unwritten ⟨rfl, isName.symm⟩
        simp only [Function.update_self, AList.lookup_insert_ne apart]
      · simp only [Function.update_of_ne same]

/-- A file that a step writes is there after it. -/
theorem mem_of_writes {step : Step Agent Tool Store Name Content}
    (stepped : system.step plan step = some next) {store : Store} {name : Name}
    (writes : step.Writes store name) : name ∈ next.files store := by
  cases step with
  | starts other tool => cases writes
  | takes other => cases writes
  | ends other => cases writes
  | changes other changed effect => cases writes
  | adds changed other added =>
      obtain rfl := Option.some.inj stepped
      obtain ⟨rfl, rfl⟩ := writes
      simp only [Function.update_self, AList.mem_insert, true_or]

omit [DecidableEq Name] [DecidableEq Store] [DecidableEq Agent] in
/-- A run whose every label passes from every state is guarded. -/
theorem guarded_of_forall {State : Type u} {Label : Type v} {step : State → Label → Option State}
    {guard : State → Label → Prop} {labels : List Label}
    (all : ∀ label ∈ labels, ∀ state, guard state label) (state : State) :
    Guarded step guard labels state := by
  induction labels generalizing state with
  | nil => trivial
  | cons label labels inductionHypothesis =>
      exact ⟨all label List.mem_cons_self state, fun next _ =>
        inductionHypothesis (fun later member => all later (List.mem_cons_of_mem _ member)) next⟩

variable {steps : List (Step Agent Tool Store Name Content)} {agent : Agent} {hold : Hold Store}

/-- No tool makes a change but of what it plans to hold exclusively. -/
def Covers (plan : Tool → List (Hold Store)) (makes : Tool → Store → Effect Name Content → Prop) :
    Prop :=
  ∀ tool store effect, makes tool store effect → ⟨store, .exclusive⟩ ∈ plan tool

omit [DecidableEq Store] in
/-- A process that has nothing to take holds all that it plans. -/
theorem holds_of_next_eq_none {process : Process Tool} (isNone : process.next plan = none) :
    process.holds plan = plan process.tool :=
  List.take_of_length_le (List.getElem?_eq_none_iff.mp isNone)

/-- A change that is covered is made under a hold. -/
theorem step_of_makes {makes : Tool → Store → Effect Name Content → Prop}
    (covers : Covers plan makes) {step : Step Agent Tool Store Name Content}
    (made : system.Makes makes step) (acted : system.act plan step = some next) :
    system.step plan step = some next := by
  cases step with
  | starts agent tool => exact acted
  | takes agent => exact acted
  | ends agent => exact acted
  | adds store name content => exact acted
  | changes agent store effect =>
      obtain ⟨process, isProcess, isNext⟩ := Option.bind_eq_some_iff.mp acted
      obtain ⟨whole, isNext⟩ := Option.ite_none_right_eq_some.mp isNext
      have holds : ⟨store, .exclusive⟩ ∈ process.holds plan := by
        rw [holds_of_next_eq_none whole]
        exact covers _ _ _ (made process isProcess)
      simp only [System.step, isProcess, Option.bind_some, whole, holds, and_self, if_true, isNext]

/-- **Where tools change only what they plan to hold, every run is one that holds what it
changes.** -/
theorem exec_of_makes {makes : Tool → Store → Effect Name Content → Prop}
    (covers : Covers plan makes)
    (made : Guarded (System.act plan) (System.Makes makes) steps system)
    (ran : exec (System.act plan) steps system = some next) :
    exec (System.step plan) steps system = some next := by
  induction steps generalizing system with
  | nil => exact ran
  | cons step steps inductionHypothesis =>
      obtain ⟨middle, acted, rest⟩ := exec_cons_eq_some_iff.mp ran
      exact exec_cons_eq_some_iff.mpr ⟨middle, step_of_makes covers made.1 acted,
        inductionHypothesis (made.2 middle acted) rest⟩

/-- Holds that exclude one another are never held at once, in any interleaving. -/
theorem exclusive_exec (exclusive : system.Exclusive plan)
    (ran : exec (System.step plan) steps system = some next) : next.Exclusive plan :=
  @invariant_of_exec _ _ _ (fun system => system.Exclusive plan)
    (fun _ _ _ exclusive stepped => exclusive_step exclusive stepped) _ _ _ exclusive ran

/-- A process keeps its holds through every step that does not end it. -/
theorem has_exec (has : system.Has plan agent hold)
    (leaves : ∀ step ∈ steps, step.LeavesTo agent hold.store)
    (ran : exec (System.step plan) steps system = some next) : next.Has plan agent hold :=
  @invariant_of_guarded _ _ _ _ (fun system => system.Has plan agent hold)
    (fun _ _ _ has leaves stepped => has_step stepped leaves has) _ _ _ has
    (guarded_of_forall (fun step member _ => leaves step member) system) ran

/-- **While a process holds a store, no file goes from it**, but for what it changes itself. -/
theorem mem_of_held (exclusive : system.Exclusive plan) (has : system.Has plan agent hold)
    (leaves : ∀ step ∈ steps, step.LeavesTo agent hold.store)
    (ran : exec (System.step plan) steps system = some next) {name : Name}
    (there : name ∈ system.files hold.store) : name ∈ next.files hold.store := by
  refine (@invariant_of_guarded _ _ _ _ (fun now => now.Exclusive plan ∧
    now.Has plan agent hold ∧ name ∈ now.files hold.store) ?_ _ _ _ ⟨exclusive, has, there⟩
    (guarded_of_forall (fun step member _ => leaves step member) system) ran).2.2
  rintro before step after ⟨exclusive, has, there⟩ leaves stepped
  refine ⟨exclusive_step exclusive stepped, has_step stepped leaves has, ?_⟩
  by_cases writes : step.Writes hold.store name
  · exact mem_of_writes stepped writes
  · rw [← AList.lookup_isSome, lookup_step exclusive stepped leaves has writes,
      AList.lookup_isSome]
    exact there

/-- **While a process holds a store, its files are the ones it found there**, but for what it
changes itself and what is written under a name of theirs. -/
theorem lookup_of_held (exclusive : system.Exclusive plan) (has : system.Has plan agent hold)
    (leaves : ∀ step ∈ steps, step.LeavesTo agent hold.store)
    (ran : exec (System.step plan) steps system = some next) {name : Name}
    (unwritten : ∀ step ∈ steps, ¬ step.Writes hold.store name) :
    (next.files hold.store).lookup name = (system.files hold.store).lookup name := by
  refine (@invariant_of_guarded _ _ _ _ (fun now => now.Exclusive plan ∧
    now.Has plan agent hold ∧
      (now.files hold.store).lookup name = (system.files hold.store).lookup name) ?_ _ _ _
    ⟨exclusive, has, rfl⟩ ((guarded_of_forall (fun step member _ => leaves step member) system).and
      (guarded_of_forall (fun step member _ => unwritten step member) system)) ran).2.2
  rintro before step after ⟨exclusive, has, same⟩ ⟨leaves, unwritten⟩ stepped
  exact ⟨exclusive_step exclusive stepped, has_step stepped leaves has,
    (lookup_step exclusive stepped leaves has unwritten).trans same⟩

/-- Every plan takes stores in one order. -/
def Ordered (plan : Tool → List (Hold Store)) (rank : Store → Nat) : Prop :=
  ∀ tool, (plan tool).Pairwise fun first second => rank first.store < rank second.store

omit [DecidableEq Agent] [DecidableEq Store] [DecidableEq Name] in
/-- What a process has yet to take comes after everything it holds. -/
theorem rank_lt_next {rank : Store → Nat} (ordered : Ordered plan rank) {process : Process Tool}
    {held hold : Hold Store} (isHeld : held ∈ process.holds plan)
    (isNext : process.next plan = some hold) : rank held.store < rank hold.store := by
  obtain ⟨inRange, isHold⟩ := List.getElem?_eq_some_iff.mp isNext
  have whole := ordered process.tool
  rw [← List.take_append_drop process.taken (plan process.tool), List.pairwise_append] at whole
  refine whole.2.2 held isHeld hold ?_
  rw [List.drop_eq_getElem_cons inRange, isHold]
  exact List.mem_cons_self

omit [DecidableEq Name] in
/-- **Some process has what it plans to hold, or can take the next of it.** -/
theorem exists_unblocked {rank : Store → Nat} (ordered : Ordered plan rank)
    (running : system.processes.entries ≠ []) :
    ∃ agent process, system.processes.lookup agent = some process ∧
      ∀ hold, process.next plan = some hold → system.free plan hold = true := by
  by_contra blocked
  simp only [not_exists, not_and, not_forall] at blocked
  let ranks : List Nat := system.processes.entries.map fun entry =>
    ((entry.2.next plan).map fun hold => rank hold.store).getD 0
  -- Whoever blocks a process waits for something that comes later still.
  have further (bound : Nat) : ∃ entry ∈ system.processes.entries, ∃ hold,
      entry.2.next plan = some hold ∧ bound ≤ rank hold.store := by
    induction bound with
    | zero =>
        obtain ⟨entry, isEntry⟩ := List.exists_mem_of_ne_nil _ running
        obtain ⟨hold, isNext, _⟩ := blocked entry.1 entry.2 (mem_entries_iff_lookup.mp isEntry)
        exact ⟨entry, isEntry, hold, isNext, Nat.zero_le _⟩
    | succ bound inductionHypothesis =>
        obtain ⟨entry, isEntry, hold, isNext, atLeast⟩ := inductionHypothesis
        obtain ⟨waited, isWaited, notFree⟩ := blocked entry.1 entry.2
          (mem_entries_iff_lookup.mp isEntry)
        obtain rfl := Option.some.inj (isNext.symm.trans isWaited)
        simp only [System.free, List.all_eq_true, not_forall] at notFree
        obtain ⟨other, isOther, held, isHeld, excluded⟩ := notFree
        have same : held.store = hold.store := by
          by_contra apart
          simp [apart] at excluded
        obtain ⟨later, isLater, _⟩ := blocked other.1 other.2 (mem_entries_iff_lookup.mp isOther)
        have after := rank_lt_next ordered isHeld isLater
        rw [same] at after
        exact ⟨other, isOther, later, isLater, by omega⟩
  obtain ⟨entry, isEntry, hold, isNext, atLeast⟩ := further (ranks.sum + 1)
  have inRanks : rank hold.store ∈ ranks :=
    List.mem_map.mpr ⟨entry, isEntry, by rw [isNext]; rfl⟩
  have bounded := List.single_le_sum (fun _ _ => Nat.zero_le _) _ inRanks
  omega

/-- What some processes have yet to be granted, and to end. -/
def remaining (plan : Tool → List (Hold Store)) (processes : Directory Agent (Process Tool)) :
    Nat :=
  (processes.entries.map fun entry => (plan entry.2.tool).length - entry.2.taken + 1).sum

/-- A step with which no process gives up: it takes a hold, or ends with all it plans. -/
def System.Finishing (plan : Tool → List (Hold Store))
    (system : System Agent Tool Store Name Content) : Step Agent Tool Store Name Content → Prop
  | .takes _ => True
  | .ends agent => ∀ process, system.processes.lookup agent = some process →
      process.next plan = none
  | .starts .. | .changes .. | .adds .. => False

variable (plan) in
omit [DecidableEq Store] in
/-- A process is one of what is left. -/
theorem remaining_erase {processes : Directory Agent (Process Tool)} {agent : Agent}
    {process : Process Tool} (isProcess : processes.lookup agent = some process) :
    remaining plan (processes.erase agent) + ((plan process.tool).length - process.taken + 1) =
      remaining plan processes := by
  have member : agent ∈ processes.keys :=
    AList.mem_keys.mpr (AList.lookup_isSome.mp (by rw [isProcess]; rfl))
  obtain ⟨found, before, after, _, split, erased⟩ := List.exists_of_kerase member
  have isFound : found = process := by
    have inEntries : (⟨agent, found⟩ : Σ _ : Agent, Process Tool) ∈ processes.entries := by
      rw [split]
      simp
    exact Option.some.inj ((mem_entries_iff_lookup.mp inEntries).symm.trans isProcess)
  subst isFound
  have isErased : (processes.erase agent).entries = before ++ after := erased
  unfold remaining
  rw [isErased, split]
  simp only [List.map_append, List.map_cons, List.sum_append, List.sum_cons]
  omega

omit [DecidableEq Store] in
/-- Taking a hold leaves less. -/
theorem remaining_insert {processes : Directory Agent (Process Tool)} {agent : Agent}
    {process : Process Tool} {hold : Hold Store}
    (isProcess : processes.lookup agent = some process)
    (isNext : process.next plan = some hold) :
    remaining plan (processes.insert agent { process with taken := process.taken + 1 }) <
      remaining plan processes := by
  obtain ⟨inRange, _⟩ := List.getElem?_eq_some_iff.mp isNext
  have whole := remaining_erase plan isProcess
  have inserted : remaining plan
      (processes.insert agent { process with taken := process.taken + 1 }) =
        (plan process.tool).length - (process.taken + 1) + 1 +
          remaining plan (processes.erase agent) := rfl
  omega

/-- **Every process can finish.**  From any system, holds are granted in some order until each
process has had all that it plans, with none giving up. -/
theorem all_can_finish {rank : Store → Nat} (ordered : Ordered plan rank)
    (system : System Agent Tool Store Name Content) :
    ∃ steps final, exec (System.step plan) steps system = some final ∧
      final.processes.entries = [] ∧
        Guarded (System.step plan) (System.Finishing plan) steps system := by
  induction isLeft : remaining plan system.processes using Nat.strong_induction_on
    generalizing system with
  | h left inductionHypothesis =>
      by_cases done : system.processes.entries = []
      · exact ⟨[], system, rfl, done, trivial⟩
      · obtain ⟨agent, process, isProcess, unblocked⟩ := exists_unblocked ordered done
        have further (step : Step Agent Tool Store Name Content)
            (next : System Agent Tool Store Name Content)
            (stepped : system.step plan step = some next)
            (finishing : system.Finishing plan step)
            (less : remaining plan next.processes < remaining plan system.processes) :
            ∃ steps final, exec (System.step plan) steps system = some final ∧
              final.processes.entries = [] ∧
                Guarded (System.step plan) (System.Finishing plan) steps system := by
          obtain ⟨steps, final, ran, empty, guarded⟩ :=
            inductionHypothesis _ (isLeft ▸ less) next rfl
          refine ⟨step :: steps, final, exec_cons_eq_some_iff.mpr ⟨next, stepped, ran⟩, empty,
            finishing, ?_⟩
          intro other isOther
          obtain rfl := Option.some.inj (stepped.symm.trans isOther)
          exact guarded
        cases isNext : process.next plan with
        | none =>
            have whole := remaining_erase plan isProcess
            have less : remaining plan (system.processes.erase agent) <
                remaining plan system.processes := by
              omega
            refine further (.ends agent) _ rfl ?_ less
            intro other isOther
            obtain rfl := Option.some.inj (isProcess.symm.trans isOther)
            exact isNext
        | some hold =>
            refine further (.takes agent)
              { system with
                processes :=
                  system.processes.insert agent { process with taken := process.taken + 1 } }
              ?_ trivial (remaining_insert isProcess isNext)
            simp only [System.step, isProcess, isNext, Option.bind_some,
              unblocked hold isNext, if_true]

end Plans

end Holds
end Library
