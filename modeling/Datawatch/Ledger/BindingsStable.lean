import Datawatch.Library.Outcome
import Datawatch.Library.StableSort
import Datawatch.Ledger.Accounting
import Datawatch.Ledger.Bindings

/-!
# Bindings over discoveries and restarts

An account keeps its ordinal and its alias whatever the clock does.  Its name survives a restart
where no row of it is stamped before one already written.
-/

namespace Datawatch
namespace Ledger

open Library Library.Outcome Library.Transition Wire

namespace BindingRun

/-- The sub-accounts a record has rows of under a master. -/
def accountsOf (rows : List BindingRow) (master : Account) : Finset Text :=
  ((rows.filter fun row => row.seen.master = master).map fun row => row.seen.fingerprint).toFinset

/-- No master has more sub-accounts than there are ordinals. -/
def Roomy (rows : List BindingRow) : Prop :=
  ∀ master, (accountsOf rows master).card ≤ 2 ^ 32

/-- No row is stamped before one already written for the same sub-account. -/
def DatedForward (rows : List BindingRow) : Prop :=
  rows.Pairwise fun earlier later =>
    earlier.seen.master = later.seen.master →
      earlier.seen.fingerprint = later.seen.fingerprint → rowBefore earlier later = true

/-- Each sub-account has one ordinal under its master, its own, and the alias that ordinal
names. -/
structure Sound (rows : List BindingRow) : Prop where
  apart : ∀ first ∈ rows, ∀ second ∈ rows, first.seen.master = second.seen.master →
    (first.seen.ordinal = second.seen.ordinal ↔
      first.seen.fingerprint = second.seen.fingerprint)
  bounded : ∀ row ∈ rows, row.seen.ordinal.toNat ≤ (accountsOf rows row.seen.master).card
  wrapped : ∀ row ∈ rows, row.seen.ordinal = 0 →
    (accountsOf rows row.seen.master).card = 2 ^ 32
  named : ∀ row ∈ rows, subAlias row.seen.master row.seen.ordinal = some row.account

/-- Bindings give each sub-account the ordinal its rows give it, and bind no other. -/
def Mirrors (rows : List BindingRow) (bindings : Bindings) : Prop :=
  ∀ master fingerprint ordinal,
    (bindings.bound master fingerprint).map Bound.ordinal = some ordinal ↔
      ∃ row ∈ rows, row.seen.master = master ∧ row.seen.fingerprint = fingerprint ∧
        row.seen.ordinal = ordinal

theorem mem_accountsOf {rows : List BindingRow} {master : Account} {fingerprint : Text} :
    fingerprint ∈ accountsOf rows master ↔
      ∃ row ∈ rows, row.seen.master = master ∧ row.seen.fingerprint = fingerprint := by
  simp only [accountsOf, List.mem_toFinset, List.mem_map, List.mem_filter, decide_eq_true_eq,
    and_assoc]

/-- A row adds its own sub-account, under its own master. -/
theorem accountsOf_concat (rows : List BindingRow) (row : BindingRow) (master : Account) :
    accountsOf (rows ++ [row]) master =
      if row.seen.master = master then insert row.seen.fingerprint (accountsOf rows master)
      else accountsOf rows master := by
  ext fingerprint
  split
  · rename_i own
    simp only [mem_accountsOf, Finset.mem_insert, List.mem_append, List.mem_singleton]
    constructor
    · rintro ⟨other, inRows | rfl, isMaster, same⟩
      · exact .inr ⟨other, inRows, isMaster, same⟩
      · exact .inl same.symm
    · rintro (rfl | ⟨other, inRows, isMaster, same⟩)
      · exact ⟨row, .inr rfl, own, rfl⟩
      · exact ⟨other, .inl inRows, isMaster, same⟩
  · rename_i other
    simp only [mem_accountsOf, List.mem_append, List.mem_singleton]
    constructor
    · rintro ⟨found, inRows | rfl, isMaster, same⟩
      · exact ⟨found, inRows, isMaster, same⟩
      · exact absurd isMaster other
    · rintro ⟨found, inRows, isMaster, same⟩
      exact ⟨found, .inl inRows, isMaster, same⟩

/-- A record that grows loses no sub-account. -/
theorem accountsOf_subset {rows later : List BindingRow} (grown : rows <+: later)
    (master : Account) : accountsOf rows master ⊆ accountsOf later master := by
  intro fingerprint member
  obtain ⟨row, inRows, found⟩ := mem_accountsOf.mp member
  exact mem_accountsOf.mpr ⟨row, grown.subset inRows, found⟩

theorem Roomy.of_prefix {rows later : List BindingRow} (roomy : Roomy later)
    (grown : rows <+: later) : Roomy rows := fun master =>
  (Finset.card_le_card (accountsOf_subset grown master)).trans (roomy master)

theorem DatedForward.of_prefix {rows later : List BindingRow} (dated : DatedForward later)
    (grown : rows <+: later) : DatedForward rows :=
  List.Pairwise.sublist grown.sublist dated

/-- The highest ordinal is at or above each bound. -/
theorem le_highest {bindings : Bindings} {master : Account} {fingerprint : Text} {value : Bound}
    (isBound : bindings.bound master fingerprint = some value) :
    value.ordinal.toNat ≤ bindings.highest master := by
  have member := AList.mem_lookup_iff.mp isBound
  rw [Bindings.highest]
  apply List.le_max_of_le
  · exact List.mem_map_of_mem member
  · exact le_rfl

/-- The highest ordinal is bound, where it is not zero. -/
theorem exists_of_highest {bindings : Bindings} {master : Account}
    (positive : 0 < bindings.highest master) :
    ∃ fingerprint value, bindings.bound master fingerprint = some value ∧
      value.ordinal.toNat = bindings.highest master := by
  have nonempty :
      ((bindings.under master).entries.map fun entry => entry.2.ordinal.toNat) ≠ [] := by
    intro empty
    simp [Bindings.highest, empty] at positive
  have attained := List.maximum_mem (List.foldr_max_of_ne_nil nonempty).symm
  obtain ⟨entry, inEntries, same⟩ := List.mem_map.mp attained
  exact ⟨entry.1, entry.2, AList.mem_lookup_iff.mpr inEntries, same⟩

/-- The next ordinal under a master is no sub-account's, and within their number. -/
structure Fresh (rows : List BindingRow) (master : Account) (ordinal : UInt32) : Prop where
  unused : ∀ row ∈ rows, row.seen.master = master → row.seen.ordinal ≠ ordinal
  bounded : ordinal.toNat ≤ (accountsOf rows master).card + 1
  wrapped : ordinal = 0 → (accountsOf rows master).card + 1 = 2 ^ 32

theorem fresh_nextOrdinal {rows : List BindingRow} {bindings : Bindings} {master : Account}
    (sound : Sound rows) (mirrors : Mirrors rows bindings)
    (room : (accountsOf rows master).card < 2 ^ 32) :
    Fresh rows master (bindings.nextOrdinal master) := by
  have below : bindings.highest master ≤ (accountsOf rows master).card := by
    rcases Nat.eq_zero_or_pos (bindings.highest master) with zero | positive
    · omega
    · obtain ⟨fingerprint, value, isBound, isHighest⟩ := exists_of_highest positive
      obtain ⟨row, inRows, rfl, -, same⟩ :=
        (mirrors master fingerprint value.ordinal).mp (by simp [isBound])
      have := sound.bounded row inRows
      rw [same] at this
      omega
  have atMost : ∀ row ∈ rows, row.seen.master = master →
      row.seen.ordinal.toNat ≤ bindings.highest master := by
    rintro row inRows rfl
    obtain ⟨value, isBound, same⟩ := Option.map_eq_some_iff.mp
      ((mirrors row.seen.master row.seen.fingerprint row.seen.ordinal).mpr
        ⟨row, inRows, rfl, rfl, rfl⟩)
    rw [← same]
    exact le_highest isBound
  have value : (bindings.nextOrdinal master).toNat = (bindings.highest master + 1) % 2 ^ 32 :=
    UInt32.toNat_ofNat
  constructor
  · rintro row inRows isMaster same
    have rowAtMost := atMost row inRows isMaster
    rw [same, value] at rowAtMost
    -- The highest is the last ordinal there is: the next is zero, which no row has yet.
    have wraps : (bindings.highest master + 1) % 2 ^ 32 = 0 := by omega
    have isZero : row.seen.ordinal = 0 := by
      apply UInt32.toNat.inj
      rw [same, value, wraps]
      rfl
    have full := sound.wrapped row inRows isZero
    rw [isMaster] at full
    omega
  · omega
  · intro isZero
    rw [isZero] at value
    change 0 = _ at value
    omega

/-- A row an observation writes, with the alias its ordinal names. -/
structure Written (bindings : Bindings) (row : BindingRow) : Prop where
  emits : bindings.Emits row.seen
  named : subAlias row.seen.master row.seen.ordinal = some row.account

/-- Whether a sub-account is bound is whether the record has a row of it. -/
theorem Mirrors.isSome_iff {rows : List BindingRow} {bindings : Bindings}
    (mirrors : Mirrors rows bindings) (master : Account) (fingerprint : Text) :
    (bindings.bound master fingerprint).isSome = true ↔
      fingerprint ∈ accountsOf rows master := by
  rw [mem_accountsOf, Option.isSome_iff_exists]
  constructor
  · rintro ⟨value, isBound⟩
    obtain ⟨row, inRows, isMaster, same, -⟩ :=
      (mirrors master fingerprint value.ordinal).mp (by simp [isBound])
    exact ⟨row, inRows, isMaster, same⟩
  · rintro ⟨row, inRows, isMaster, same⟩
    obtain ⟨value, isBound, -⟩ := Option.map_eq_some_iff.mp
      ((mirrors master fingerprint row.seen.ordinal).mpr ⟨row, inRows, isMaster, same, rfl⟩)
    exact ⟨value, isBound⟩

/-- A row of a sub-account already bound adds no sub-account and repeats its ordinal. -/
theorem Sound.concat_known {rows : List BindingRow} {row known : BindingRow}
    (sound : Sound rows) (inRows : known ∈ rows)
    (sameMaster : known.seen.master = row.seen.master)
    (sameAccount : known.seen.fingerprint = row.seen.fingerprint)
    (sameOrdinal : known.seen.ordinal = row.seen.ordinal)
    (named : subAlias row.seen.master row.seen.ordinal = some row.account) :
    Sound (rows ++ [row]) := by
  have sameAccounts : ∀ master, accountsOf (rows ++ [row]) master = accountsOf rows master := by
    intro master
    rw [accountsOf_concat]
    split
    · rename_i own
      exact Finset.insert_eq_of_mem
        (mem_accountsOf.mpr ⟨known, inRows, sameMaster.trans own, sameAccount⟩)
    · rfl
  -- Each row of the record stands for a row already in it.
  have stands : ∀ other ∈ rows ++ [row], ∃ found ∈ rows,
      found.seen.master = other.seen.master ∧
        found.seen.fingerprint = other.seen.fingerprint ∧
          found.seen.ordinal = other.seen.ordinal := by
    intro other member
    rcases List.mem_append.mp member with isRow | isLast
    · exact ⟨other, isRow, rfl, rfl, rfl⟩
    · rw [List.mem_singleton.mp isLast]
      exact ⟨known, inRows, sameMaster, sameAccount, sameOrdinal⟩
  constructor
  · intro first firstMember second secondMember isMaster
    obtain ⟨firstFound, inFirst, firstMaster, firstAccount, firstOrdinal⟩ :=
      stands first firstMember
    obtain ⟨secondFound, inSecond, secondMaster, secondAccount, secondOrdinal⟩ :=
      stands second secondMember
    rw [← firstOrdinal, ← secondOrdinal, ← firstAccount, ← secondAccount]
    exact sound.apart _ inFirst _ inSecond (by rw [firstMaster, secondMaster, isMaster])
  · intro other member
    obtain ⟨found, isFound, foundMaster, -, foundOrdinal⟩ := stands other member
    rw [sameAccounts, ← foundMaster, ← foundOrdinal]
    exact sound.bounded found isFound
  · intro other member isZero
    obtain ⟨found, isFound, foundMaster, -, foundOrdinal⟩ := stands other member
    rw [sameAccounts, ← foundMaster]
    exact sound.wrapped found isFound (foundOrdinal.trans isZero)
  · intro other member
    rcases List.mem_append.mp member with isRow | isLast
    · exact sound.named other isRow
    · rw [List.mem_singleton.mp isLast]
      exact named

/-- A row of a sub-account not yet bound takes an ordinal no other has. -/
theorem Sound.concat_fresh {rows : List BindingRow} {row : BindingRow} (sound : Sound rows)
    (unbound : row.seen.fingerprint ∉ accountsOf rows row.seen.master)
    (fresh : Fresh rows row.seen.master row.seen.ordinal)
    (roomy : Roomy (rows ++ [row]))
    (named : subAlias row.seen.master row.seen.ordinal = some row.account) :
    Sound (rows ++ [row]) := by
  have more : (accountsOf (rows ++ [row]) row.seen.master).card =
      (accountsOf rows row.seen.master).card + 1 := by
    rw [accountsOf_concat, if_pos rfl, Finset.card_insert_of_notMem unbound]
  have room := roomy row.seen.master
  -- A row of the record against the new one: neither is the other's sub-account or ordinal.
  have against : ∀ other ∈ rows, other.seen.master = row.seen.master →
      (other.seen.ordinal = row.seen.ordinal ↔
        other.seen.fingerprint = row.seen.fingerprint) := by
    intro other inRows isMaster
    apply iff_of_false
    · exact fresh.unused other inRows isMaster
    · intro same
      exact unbound (mem_accountsOf.mpr ⟨other, inRows, isMaster, same⟩)
  constructor
  · intro first firstMember second secondMember isMaster
    rcases List.mem_append.mp firstMember with inFirst | firstLast
    · rcases List.mem_append.mp secondMember with inSecond | secondLast
      · exact sound.apart first inFirst second inSecond isMaster
      · rw [List.mem_singleton.mp secondLast] at isMaster ⊢
        exact against first inFirst isMaster
    · rw [List.mem_singleton.mp firstLast] at isMaster ⊢
      rcases List.mem_append.mp secondMember with inSecond | secondLast
      · rw [eq_comm, against second inSecond isMaster.symm, eq_comm]
      · rw [List.mem_singleton.mp secondLast]
        simp
  · intro other member
    rcases List.mem_append.mp member with inRows | isLast
    · exact (sound.bounded other inRows).trans
        (Finset.card_le_card (accountsOf_subset (List.prefix_append _ _) _))
    · rw [List.mem_singleton.mp isLast, more]
      exact fresh.bounded
  · intro other member isZero
    rcases List.mem_append.mp member with inRows | isLast
    · have full := sound.wrapped other inRows isZero
      have kept := Finset.card_le_card
        (accountsOf_subset (List.prefix_append rows [row]) other.seen.master)
      have within := roomy other.seen.master
      omega
    · rw [List.mem_singleton.mp isLast] at isZero ⊢
      rw [more]
      exact fresh.wrapped isZero
  · intro other member
    rcases List.mem_append.mp member with inRows | isLast
    · exact sound.named other inRows
    · rw [List.mem_singleton.mp isLast]
      exact named

/-- A written row keeps a record sound. -/
theorem Sound.concat {rows : List BindingRow} {row : BindingRow} {bindings : Bindings}
    (sound : Sound rows) (mirrors : Mirrors rows bindings) (written : Written bindings row)
    (roomy : Roomy (rows ++ [row])) : Sound (rows ++ [row]) := by
  have emits := written.emits
  rw [Bindings.Emits] at emits
  cases isBound : bindings.bound row.seen.master row.seen.fingerprint with
  | some value =>
      simp only [isBound, Option.map_some, Option.getD_some] at emits
      obtain ⟨known, inRows, isMaster, same, ordinal⟩ :=
        (mirrors row.seen.master row.seen.fingerprint value.ordinal).mp (by simp [isBound])
      exact sound.concat_known inRows isMaster same (ordinal.trans emits.symm) written.named
  | none =>
      simp only [isBound, Option.map_none, Option.getD_none] at emits
      have unbound : row.seen.fingerprint ∉ accountsOf rows row.seen.master := by
        rw [← mirrors.isSome_iff, isBound]
        simp
      have room : (accountsOf rows row.seen.master).card < 2 ^ 32 := by
        have within := roomy row.seen.master
        rw [accountsOf_concat, if_pos rfl, Finset.card_insert_of_notMem unbound] at within
        omega
      apply sound.concat_fresh unbound _ roomy written.named
      rw [emits]
      exact fresh_nextOrdinal sound mirrors room

/-- Taking a written row gives its sub-account the row's ordinal. -/
theorem Mirrors.take {rows : List BindingRow} {row : BindingRow} {bindings : Bindings}
    (mirrors : Mirrors rows bindings) (written : Written bindings row) :
    Mirrors (rows ++ [row]) (bindings.take row.seen) := by
  intro master fingerprint ordinal
  rw [Bindings.bound_take]
  by_cases own : master = row.seen.master ∧ fingerprint = row.seen.fingerprint
  · obtain ⟨rfl, rfl⟩ := own
    have emits := written.emits
    rw [Bindings.Emits] at emits
    have earlier := mirrors row.seen.master row.seen.fingerprint
    rw [if_pos ⟨rfl, rfl⟩, Option.map_some, Option.some_inj]
    constructor
    · rintro rfl
      refine ⟨row, by simp, rfl, rfl, ?_⟩
      rw [emits]
      cases (bindings.bound row.seen.master row.seen.fingerprint) with
      | none => simp
      | some value => simp
    · rintro ⟨other, member, isMaster, same, rfl⟩
      rcases List.mem_append.mp member with inRows | isLast
      · have isBound := (earlier other.seen.ordinal).mpr ⟨other, inRows, isMaster, same, rfl⟩
        rw [isBound]
        rfl
      · rw [List.mem_singleton.mp isLast]
        cases isBound : bindings.bound row.seen.master row.seen.fingerprint with
        | none => rfl
        | some value => simpa [isBound] using emits.symm
  · rw [if_neg own, mirrors master fingerprint ordinal]
    constructor
    · rintro ⟨other, inRows, found⟩
      exact ⟨other, List.mem_append_left _ inRows, found⟩
    · rintro ⟨other, member, isMaster, same, isOrdinal⟩
      rcases List.mem_append.mp member with inRows | isLast
      · exact ⟨other, inRows, isMaster, same, isOrdinal⟩
      · rw [List.mem_singleton.mp isLast] at isMaster same
        exact absurd ⟨isMaster.symm, same.symm⟩ own

/-- Reading a sound record back binds each sub-account to the ordinal of its rows. -/
theorem Sound.mirrors_read {rows : List BindingRow} (sound : Sound rows) :
    Mirrors rows (.read rows) := by
  intro master fingerprint ordinal
  rw [Bindings.read, Bindings.ordinal_fromSeen]
  have inRead : ∀ seen : AccountSeen,
      seen ∈ ((rows.insertionSort fun first second => rowBefore first second = true).map
        BindingRow.seen).filter (Bindings.about master fingerprint) ↔
        ∃ row ∈ rows, row.seen = seen ∧ seen.master = master ∧ seen.fingerprint = fingerprint := by
    intro seen
    simp only [List.mem_filter, List.mem_map, List.mem_insertionSort, Bindings.about_iff]
    constructor
    · rintro ⟨⟨row, inRows, same⟩, isAbout⟩
      exact ⟨row, inRows, same, isAbout⟩
    · rintro ⟨row, inRows, same, isAbout⟩
      exact ⟨⟨row, inRows, same⟩, isAbout⟩
  generalize ((rows.insertionSort fun first second => rowBefore first second = true).map
    BindingRow.seen).filter (Bindings.about master fingerprint) = own at inRead
  cases own with
  | nil =>
      simp only [List.head?_nil, Option.map_none, reduceCtorEq, false_iff]
      rintro ⟨row, inRows, isMaster, same, -⟩
      exact List.not_mem_nil ((inRead row.seen).mpr ⟨row, inRows, rfl, isMaster, same⟩)
  | cons first own =>
      obtain ⟨found, inRows, rfl, isMaster, same⟩ := (inRead first).mp List.mem_cons_self
      simp only [List.head?_cons, Option.map_some, Option.some_inj]
      constructor
      · rintro rfl
        exact ⟨found, inRows, isMaster, same, rfl⟩
      · rintro ⟨row, rowInRows, rowMaster, rowSame, rfl⟩
        exact (sound.apart found inRows row rowInRows (isMaster.trans rowMaster.symm)).mpr
          (same.trans rowSame.symm)

/-- Rows dated forward are read back as they were written. -/
theorem bound_read_of_datedForward {rows : List BindingRow} (dated : DatedForward rows)
    (master : Account) (fingerprint : Text) :
    (Bindings.read rows).bound master fingerprint =
      (Bindings.fromSeen (rows.map BindingRow.seen)).bound master fingerprint := by
  apply Bindings.bound_fromSeen_congr
  rw [List.filter_map, List.filter_map]
  congr 1
  apply StableSort.filter_insertionSort
  rw [List.pairwise_filter]
  apply dated.imp
  intro earlier later forward isEarlier isLater
  simp only [Function.comp_apply, Bindings.about_iff] at isEarlier isLater
  exact forward (isEarlier.1.trans isLater.1.symm) (isEarlier.2.trans isLater.2.symm)

/-! ## Runs -/

/-- What a record keeps: it grows, and stays sound while there is room. -/
structure Recorded (start rows : List BindingRow) : Prop where
  grown : start <+: rows
  sound : Roomy rows → Sound rows

/-- What a process keeps: its bindings are those its rows make. -/
structure Live (start rows : List BindingRow) (bindings : Bindings) : Prop
    extends Recorded start rows where
  mirrors : Roomy rows → Mirrors rows bindings
  rebuilt : DatedForward rows → ∀ master fingerprint,
    bindings.bound master fingerprint =
      (Bindings.fromSeen (rows.map BindingRow.seen)).bound master fingerprint

/-- A written row keeps what a record keeps. -/
theorem Live.recorded {start rows : List BindingRow} {row : BindingRow} {bindings : Bindings}
    (live : Live start rows bindings) (written : Written bindings row) :
    Recorded start (rows ++ [row]) := by
  have longer : rows <+: rows ++ [row] := List.prefix_append _ _
  refine ⟨live.grown.trans longer, fun roomy => ?_⟩
  have before := roomy.of_prefix longer
  exact (live.sound before).concat (live.mirrors before) written roomy

/-- A written row, taken into the bindings, keeps what a process keeps. -/
theorem Live.take {start rows : List BindingRow} {row : BindingRow} {bindings : Bindings}
    (live : Live start rows bindings) (written : Written bindings row) :
    Live start (rows ++ [row]) (bindings.take row.seen) := by
  have longer : rows <+: rows ++ [row] := List.prefix_append _ _
  refine ⟨live.recorded written, fun roomy => ?_, fun dated master fingerprint => ?_⟩
  · exact (live.mirrors (roomy.of_prefix longer)).take written
  · have before := live.rebuilt (dated.of_prefix longer) master fingerprint
    rw [List.map_append, Bindings.fromSeen, List.foldl_append]
    change _ = ((Bindings.fromSeen _).take row.seen).bound master fingerprint
    rw [Bindings.bound_take, Bindings.bound_take, before]

/-- A process that starts keeps what the record kept. -/
theorem Recorded.booted {start rows : List BindingRow} (recorded : Recorded start rows) :
    Live start rows (.read rows) :=
  ⟨recorded, fun roomy => (recorded.sound roomy).mirrors_read,
    fun dated master fingerprint => bound_read_of_datedForward dated master fingerprint⟩

/-- What a run keeps: its record, and its process where it has one. -/
def Keeps (start : List BindingRow) (run : BindingRun) : Prop :=
  Live start run.rows run.bindings ∧ run.running = true

/-- What a process that ended leaves. -/
def Rests (start : List BindingRow) (run : BindingRun) : Prop :=
  Recorded start run.rows ∧ run.running = false

/-- Recording a binding keeps what the process keeps. -/
theorem leaves_recordBinding {start : List BindingRow} {run : BindingRun} {bindings : Bindings}
    {alias_ : Account} {seen : AccountSeen} (keeps : Keeps start run)
    (emits : run.bindings.Emits seen)
    (named : subAlias seen.master seen.ordinal = some alias_)
    (taken : bindings = run.bindings.take seen) (nowMicros : Int) (commit : Commit) :
    Leaves (Keeps start) (Rests start)
      ({ run with bindings }.recordBinding alias_ seen nowMicros commit) := by
  obtain ⟨live, running⟩ := keeps
  have written : Written run.bindings ⟨nowMicros, run.nextSeq, alias_, seen⟩ := ⟨emits, named⟩
  cases commit with
  | committed => exact ⟨taken ▸ live.take written, running⟩
  | refused => exact ⟨live.toRecorded, rfl⟩
  | unsynced => exact ⟨live.recorded written, rfl⟩

/-- One listed sub-account keeps what the process keeps. -/
theorem leaves_seeListed {start : List BindingRow} {state : BindingRun × Discovery}
    (keeps : Keeps start state.1) (master : Account) (listed : Listed) :
    Leaves (fun next => Keeps start next.1) (Rests start)
      (seeListed master state listed) := by
  obtain ⟨run, discovery⟩ := state
  rw [seeListed]
  cases observed : run.bindings.observe master listed.fingerprint listed.name with
  | none => exact ⟨keeps.1.toRecorded, rfl⟩
  | some found =>
      obtain ⟨bindings, seen⟩ := found
      rcases Bindings.observe_cases observed with
        ⟨alias_, rfl, rfl⟩ | ⟨alias_, row, rfl | rfl, taken, emits, named⟩
      · exact keeps
      · exact (leaves_recordBinding keeps emits named taken _ _).bind fun _ kept => kept
      · exact (leaves_recordBinding keeps emits named taken _ _).bind fun _ kept => kept

/-- Another payload keeps what the process keeps. -/
theorem leaves_recordOther {start : List BindingRow} {run : BindingRun}
    (keeps : Keeps start run) (commit : Commit) :
    Leaves (Keeps start) (Rests start) (run.recordOther commit) := by
  cases commit with
  | committed => exact keeps
  | refused | unsynced => exact ⟨keeps.1.toRecorded, rfl⟩

/-- One master's part of a discovery run keeps what the process keeps. -/
theorem leaves_discoverMaster {start : List BindingRow} {run : BindingRun}
    (keeps : Keeps start run) (ask : Ask) :
    Leaves (fun next => Keeps start next.1) (Rests start)
      (run.discoverMaster ask) := by
  rw [discoverMaster]
  cases ask.answer with
  | none => exact keeps
  | some answer =>
      apply (leaves_recordOther keeps answer.commit).bind
      intro recorded kept
      cases answer.listed with
      | none => exact kept
      | some listed =>
          have folded : Leaves (fun next => Keeps start next.1) (Rests start)
              (listed.foldlM (seeListed ask.master) (recorded,
                { master := ask.master, atMicros := ask.nowMicros, answered := true,
                  seen := listed.length })) :=
            Leaves.foldlM (fun entry _ state isKept =>
              leaves_seeListed isKept ask.master entry) kept
          exact folded.bind fun _ isKept => isKept

/-- A discovery run keeps what the process keeps. -/
theorem leaves_discover {start : List BindingRow} {run : BindingRun}
    (keeps : Keeps start run) (asks : List Ask) :
    Leaves (fun next => Keeps start next.1) (Rests start) (run.discover asks) := by
  refine @Leaves.foldlM (BindingRun × List Discovery) Ask BindingRun
    (fun next => Keeps start next.1) _ _ _ ?_ (run, []) keeps
  rintro ask _ ⟨next, found⟩ kept
  exact (leaves_discoverMaster kept ask).bind fun _ isKept => isKept

/-- What holds of a run at every moment. -/
def Holds (start : List BindingRow) (run : BindingRun) : Prop :=
  Recorded start run.rows ∧ (run.running = true → Live start run.rows run.bindings)

theorem holds_settled {start : List BindingRow} {outcome : Except BindingRun BindingRun}
    (leaves : Leaves (Keeps start) (Rests start) outcome) :
    Holds start (settled outcome) := by
  cases outcome with
  | ok run => exact ⟨leaves.1.toRecorded, fun _ => leaves.1⟩
  | error run =>
      refine ⟨leaves.1, fun running => ?_⟩
      rw [settled, leaves.2] at running
      cases running

/-- Every step keeps what holds of a run. -/
theorem holds_step {start : List BindingRow} {run next : BindingRun} {taken : Step}
    (holds : Holds start run) (stepped : run.step taken = some next) : Holds start next := by
  cases taken with
  | boot nowMicros =>
      cases stepped
      exact ⟨holds.1, fun _ => holds.1.booted⟩
  | discover asks =>
      simp only [BindingRun.step, Option.ite_none_right_eq_some, Option.some_inj] at stepped
      obtain ⟨running, rfl⟩ := stepped
      apply holds_settled
      have leaves := leaves_discover ⟨holds.2 running, running⟩ asks
      cases ran : run.discover asks with
      | ok result =>
          rw [ran] at leaves
          exact leaves
      | error left =>
          rw [ran] at leaves
          exact leaves
  | recorded commit =>
      simp only [BindingRun.step, Option.ite_none_right_eq_some, Option.some_inj] at stepped
      obtain ⟨running, rfl⟩ := stepped
      exact holds_settled (leaves_recordOther ⟨holds.2 running, running⟩ commit)

/-- A run keeps what holds of it, and counts its rows from any moment of it. -/
theorem holds_exec {start : List BindingRow} {run final : BindingRun} {steps : List Step}
    (holds : Holds start run) (ran : exec step steps run = some final) : Holds start final :=
  invariant_of_exec (fun _ _ _ => holds_step) holds ran

/-- A ledger with nothing recorded. -/
theorem holds_empty : Holds [] {} := by
  refine ⟨⟨List.prefix_rfl, fun _ => ?_⟩, fun running => nomatch running⟩
  constructor <;> simp

/-- An alias names one ordinal. -/
theorem subAlias_injective {master alias_ : Account} {first second : UInt32}
    (isFirst : subAlias master first = some alias_)
    (isSecond : subAlias master second = some alias_) : first = second := by
  simp only [subAlias, Token.new, Option.dite_none_right_eq_some, Option.some_inj]
    at isFirst isSecond
  obtain ⟨_, rfl⟩ := isFirst
  obtain ⟨_, same⟩ := isSecond
  have texts := congrArg Token.text same
  have digits := List.append_cancel_left texts
  have parsed := congrArg Text.parseDigits digits
  rw [Text.parseDigits_renderNat, Text.parseDigits_renderNat] at parsed
  exact (UInt32.toNat.inj (Option.some.inj parsed)).symm

/-- What two moments of a run say alike of the accounts bound at them. -/
structure Stable (earlier later : BindingRun) : Prop where
  keepsAlias : ∀ master fingerprint,
    (earlier.bindings.bound master fingerprint).isSome = true →
      ∃ alias_, earlier.bindings.aliasOf master fingerprint = some alias_ ∧
        later.bindings.aliasOf master fingerprint = some alias_
  ownAlias : ∀ master first second alias_,
    earlier.bindings.aliasOf master first = some alias_ →
      later.bindings.aliasOf master second = some alias_ → first = second
  ownOrdinal : ∀ master first second firstBound secondBound,
    earlier.bindings.bound master first = some firstBound →
      later.bindings.bound master second = some secondBound →
        (firstBound.ordinal = secondBound.ordinal ↔ first = second)

/-- Rebuilding from the rows written so far gives the bindings the process holds. -/
def Rebuilds (run : BindingRun) : Prop :=
  ∀ master fingerprint,
    (Bindings.read run.rows).bound master fingerprint = run.bindings.bound master fingerprint

/-- **Bindings are stable.**  Over discoveries and restarts, while no master outgrows its
ordinals, an account keeps its ordinal and its alias and shares neither, ever; and where no row
is stamped before one already written for its account, the rows rebuild the live bindings. -/
theorem bindings_stable {first second : List Step} {earlier later : BindingRun}
    (started : exec step first {} = some earlier)
    (continued : exec step second earlier = some later)
    (earlierRuns : earlier.running = true) (laterRuns : later.running = true)
    (roomy : Roomy later.rows) :
    Stable earlier later ∧ (DatedForward later.rows → Rebuilds later) := by
  have earlierHolds := holds_exec holds_empty started
  have earlierLive := earlierHolds.2 earlierRuns
  -- The rows of the earlier moment are the first of the later one's.
  have restarted : Holds earlier.rows earlier :=
    ⟨⟨List.prefix_rfl, earlierLive.sound⟩, fun running =>
      ⟨⟨List.prefix_rfl, earlierLive.sound⟩, earlierLive.mirrors, earlierLive.rebuilt⟩⟩
  have laterLive := (holds_exec restarted continued).2 laterRuns
  have laterSound := laterLive.sound roomy
  have laterMirrors := laterLive.mirrors roomy
  have earlierMirrors := earlierLive.mirrors (roomy.of_prefix laterLive.grown)
  -- What the earlier moment binds has its row in the later record.
  have rowOf : ∀ master fingerprint value,
      earlier.bindings.bound master fingerprint = some value →
        ∃ row ∈ later.rows, row.seen.master = master ∧ row.seen.fingerprint = fingerprint ∧
          row.seen.ordinal = value.ordinal := by
    intro master fingerprint value isBound
    obtain ⟨row, inRows, found⟩ :=
      (earlierMirrors master fingerprint value.ordinal).mp (by simp [isBound])
    exact ⟨row, laterLive.grown.subset inRows, found⟩
  have ownOrdinal : ∀ master first second firstBound secondBound,
      earlier.bindings.bound master first = some firstBound →
        later.bindings.bound master second = some secondBound →
          (firstBound.ordinal = secondBound.ordinal ↔ first = second) := by
    intro master first second firstBound secondBound isFirst isSecond
    obtain ⟨row, inRows, rfl, rfl, sameFirst⟩ := rowOf _ _ _ isFirst
    obtain ⟨other, otherInRows, isMaster, rfl, sameSecond⟩ :=
      (laterMirrors row.seen.master second secondBound.ordinal).mp (by simp [isSecond])
    rw [← sameFirst, ← sameSecond]
    exact laterSound.apart row inRows other otherInRows isMaster.symm
  refine ⟨⟨?_, ?_, ownOrdinal⟩, fun dated master fingerprint => ?_⟩
  · intro master fingerprint isSome
    obtain ⟨value, isBound⟩ := Option.isSome_iff_exists.mp isSome
    obtain ⟨row, inRows, rfl, rfl, same⟩ := rowOf _ _ _ isBound
    obtain ⟨laterValue, laterBound, sameLater⟩ := Option.map_eq_some_iff.mp
      ((laterMirrors row.seen.master row.seen.fingerprint row.seen.ordinal).mpr
        ⟨row, inRows, rfl, rfl, rfl⟩)
    refine ⟨row.account, ?_, ?_⟩
    · rw [Bindings.aliasOf, isBound, Option.bind_some, ← same, laterSound.named row inRows]
    · rw [Bindings.aliasOf, laterBound, Option.bind_some, sameLater, laterSound.named row inRows]
  · intro master first second alias_ isFirst isSecond
    obtain ⟨firstBound, firstIs, firstNamed⟩ := Option.bind_eq_some_iff.mp isFirst
    obtain ⟨secondBound, secondIs, secondNamed⟩ := Option.bind_eq_some_iff.mp isSecond
    exact (ownOrdinal master first second firstBound secondBound firstIs secondIs).mp
      (subAlias_injective firstNamed secondNamed)
  · rw [bound_read_of_datedForward dated, laterLive.rebuilt dated]

/-- A listing that names one sub-account, its row stamped at a time. -/
def naming (name : Text) (nowMicros : Int) : Step :=
  .discover [⟨mainAccount, nowMicros,
    some ⟨.committed, some [⟨"aa".toList, some name, nowMicros, .committed⟩]⟩⟩]

/-- Few rows leave room. -/
theorem roomy_of_length {rows : List BindingRow} (few : rows.length ≤ 2 ^ 32) : Roomy rows := by
  intro master
  apply (List.toFinset_card_le _).trans
  rw [List.length_map]
  exact (List.length_filter_le _ _).trans few

/-- An account renamed as the clock goes on, and the rows that rebuild it. -/
theorem bindings_stable_renamed :
    ∃ earlier later, exec step [.boot 100, naming "arb".toList 101] {} = some earlier ∧
      exec step [naming "hedge".toList 102, .boot 103, .recorded .committed] earlier =
        some later ∧ later.rows.length = 2 ∧ Stable earlier later ∧ Rebuilds later := by
  refine ⟨_, _, rfl, rfl, rfl, ?_⟩
  have stable := @bindings_stable [.boot 100, naming "arb".toList 101]
    [naming "hedge".toList 102, .boot 103, .recorded .committed] _ _ rfl rfl rfl rfl
    (roomy_of_length (by decide +kernel))
  exact ⟨stable.1, stable.2 (by unfold DatedForward; decide +kernel)⟩

/-- **A rename is forgotten.**  The clock steps back before an account is renamed, and a process
that starts then binds it to the name it had before. -/
theorem rename_forgotten :
    ∃ final, exec step [.boot 100, naming "arb".toList 101, naming "hedge".toList 50] {} =
        some final ∧ final.running = true ∧ ¬ Rebuilds final := by
  refine ⟨_, rfl, rfl, fun rebuilds => ?_⟩
  have same := congrArg (Option.map Bound.name) (rebuilds mainAccount "aa".toList)
  revert same
  decide +kernel

end BindingRun

end Ledger
end Datawatch
