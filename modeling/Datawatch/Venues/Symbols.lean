import Mathlib.Data.List.Induction
import Mathlib.Data.List.Lex
import Datawatch.Library.Inverse
import Datawatch.Wire.Validate

/-!
# The symbol resolver

What a venue's spellings mean, channel by channel, and the index from a ticker back to its
spelling, which is kept beside the scan it stands for.
-/

namespace Datawatch
namespace Venues

open Library Wire

/-- The venue's own strings, per channel, and the one ticker they mean.  `onAll` holds a
spelling that means the same on every channel, and `reverse` reads it backwards. -/
structure Symbols where
  byChannel : Directory Text (Directory Text Ticker) := ∅
  onAll : Directory Text Ticker := ∅
  reverse : Directory Ticker Text := ∅

namespace Symbols

/-- An empty resolver. -/
def new : Symbols := {}

/-- The index with a spelling of a ticker, unless an earlier one is there. -/
def indexed (reverse : Directory Ticker Text) (venueSymbol : Text) (ticker : Ticker) :
    Directory Ticker Text :=
  match reverse.lookup ticker with
  | none => reverse.insert ticker venueSymbol
  | some held => if venueSymbol < held then reverse.insert ticker venueSymbol else reverse

/-- The index once a spelling no longer means a ticker: its entry is found again where it was
that spelling. -/
def repointed (reverse : Directory Ticker Text) (onAll : Directory Text Ticker)
    (venueSymbol : Text) (old : Ticker) : Directory Ticker Text :=
  if reverse.lookup old = some venueSymbol then
    match onAll.firstHolding old with
    | some spelling => reverse.insert old spelling
    | none => reverse.erase old
  else reverse

/-- A venue symbol that means one ticker on every channel. -/
def everywhere (symbols : Symbols) (venueSymbol ticker : Text) :
    Except TokenError Unit × Symbols :=
  match Token.tryNew "ticker".toList ticker with
  | .error refused => (.error refused, symbols)
  | .ok ticker =>
      let reverse := indexed symbols.reverse venueSymbol ticker
      let onAll := symbols.onAll.insert venueSymbol ticker
      let reverse := match symbols.onAll.lookup venueSymbol with
        | none => reverse
        | some old => if old ≠ ticker then repointed reverse onAll venueSymbol old else reverse
      (.ok (), { symbols with onAll := onAll, reverse := reverse })

/-- A venue symbol that means one ticker on one channel only.  The channel's entry is there
also where the ticker is refused. -/
def onChannel (symbols : Symbols) (channel venueSymbol ticker : Text) :
    Except TokenError Unit × Symbols :=
  let declared := (symbols.byChannel.lookup channel).getD ∅
  match Token.tryNew "ticker".toList ticker with
  | .error refused =>
      (.error refused, { symbols with byChannel := symbols.byChannel.insert channel declared })
  | .ok ticker =>
      (.ok (), { symbols with
        byChannel := symbols.byChannel.insert channel (declared.insert venueSymbol ticker) })

/-- What a channel alone makes of a venue symbol. -/
def override (symbols : Symbols) (channel venueSymbol : Text) : Option Ticker :=
  (symbols.byChannel.lookup channel).bind fun declared => declared.lookup venueSymbol

/-- The one ticker a venue symbol means on a channel. -/
def resolve (symbols : Symbols) (channel venueSymbol : Text) : Option Ticker :=
  (symbols.override channel venueSymbol).or (symbols.onAll.lookup venueSymbol)

/-- The venue's own string for a ticker. -/
def venueSymbolFor (symbols : Symbols) (ticker : Ticker) : Option Text :=
  symbols.reverse.lookup ticker

/-- The scan the index stands for: the first spelling declared for a ticker, in their order. -/
def scan (symbols : Symbols) (ticker : Ticker) : Option Text :=
  symbols.onAll.firstHolding ticker

/-- The index answers as the scan does. -/
def Indexes (symbols : Symbols) : Prop :=
  ∀ ticker, symbols.venueSymbolFor ticker = symbols.scan ticker

/-- A new spelling leaves the entry of every other ticker. -/
theorem lookup_indexed_of_ne {reverse : Directory Ticker Text} {venueSymbol : Text}
    {ticker other : Ticker} (different : other ≠ ticker) :
    (indexed reverse venueSymbol ticker).lookup other = reverse.lookup other := by
  unfold indexed
  split
  · exact AList.lookup_insert_ne different
  · split
    · exact AList.lookup_insert_ne different
    · rfl

/-- A new spelling leaves its ticker the earlier of it and the one held. -/
theorem lookup_indexed_self (reverse : Directory Ticker Text) (venueSymbol : Text)
    (ticker : Ticker) :
    (indexed reverse venueSymbol ticker).lookup ticker =
      some ((reverse.lookup ticker).elim venueSymbol (min venueSymbol)) := by
  unfold indexed
  split
  next absent =>
    rw [absent]
    exact AList.lookup_insert _
  next held found =>
    rw [found]
    split
    next earlier =>
      rw [AList.lookup_insert, Option.elim_some, min_eq_left_of_lt earlier]
    next later =>
      rw [found, Option.elim_some, min_eq_right (not_lt.mp later)]

/-- Repointing a spelling leaves the entry of every other ticker. -/
theorem lookup_repointed_of_ne {reverse : Directory Ticker Text} {onAll : Directory Text Ticker}
    {venueSymbol : Text} {old other : Ticker} (different : other ≠ old) :
    (repointed reverse onAll venueSymbol old).lookup other = reverse.lookup other := by
  unfold repointed
  split
  · split
    · exact AList.lookup_insert_ne different
    · exact AList.lookup_erase_ne different
  · rfl

/-- A repointed ticker has the entry the scan finds, where an entry other than the spelling was
the scan's already. -/
theorem lookup_repointed_self {reverse : Directory Ticker Text} {onAll : Directory Text Ticker}
    {venueSymbol : Text} {old : Ticker}
    (kept : reverse.lookup old ≠ some venueSymbol →
      reverse.lookup old = onAll.firstHolding old) :
    (repointed reverse onAll venueSymbol old).lookup old = onAll.firstHolding old := by
  unfold repointed
  split
  · split
    next found => exact (AList.lookup_insert _).trans found.symm
    next found => exact (AList.lookup_erase old reverse).trans found.symm
  next other => exact kept other

/-- The entry of the ticker a call declares. -/
theorem lookup_indexed_eq_scan {symbols : Symbols} (indexes : symbols.Indexes)
    (venueSymbol : Text) (ticker : Ticker) :
    (indexed symbols.reverse venueSymbol ticker).lookup ticker =
      Directory.firstHolding (symbols.onAll.insert venueSymbol ticker) ticker := by
  have agrees : symbols.reverse.lookup ticker = symbols.onAll.firstHolding ticker :=
    indexes ticker
  rw [lookup_indexed_self, Directory.firstHolding_insert_self, agrees]

/-- The scan finds what it found before for a ticker that loses a spelling other than its
first. -/
theorem firstHolding_of_repointed {symbols : Symbols} (indexes : symbols.Indexes)
    {venueSymbol : Text} {ticker old : Ticker} (changed : old ≠ ticker)
    (held : symbols.onAll.lookup venueSymbol = some old)
    (other : symbols.reverse.lookup old ≠ some venueSymbol) :
    symbols.reverse.lookup old =
      Directory.firstHolding (symbols.onAll.insert venueSymbol ticker) old := by
  have agrees : symbols.reverse.lookup old = symbols.onAll.firstHolding old := indexes old
  rw [agrees] at other ⊢
  cases found : symbols.onAll.firstHolding old with
  | none => exact absurd held (Directory.firstHolding_eq_none_iff.mp found venueSymbol)
  | some first =>
      refine (Directory.firstHolding_insert_of_other_first changed found ?_).symm
      intro same
      exact other (same ▸ found)

/-- A call keeps the index in step with the scan, refused or not. -/
theorem indexes_everywhere {symbols : Symbols} (indexes : symbols.Indexes)
    (venueSymbol ticker : Text) : (symbols.everywhere venueSymbol ticker).2.Indexes := by
  unfold everywhere
  split
  · exact indexes
  next token made =>
    intro asked
    simp only [venueSymbolFor, scan]
    have declared := lookup_indexed_eq_scan indexes venueSymbol token
    have agrees : symbols.reverse.lookup asked = symbols.onAll.firstHolding asked :=
      indexes asked
    split
    next fresh =>
      by_cases same : asked = token
      · rw [same, declared]
      · rw [lookup_indexed_of_ne same, agrees]
        refine (Directory.firstHolding_insert_of_ne same ?_).symm
        simp [fresh]
    next old held =>
      split
      next changed =>
        by_cases isOld : asked = old
        · rw [isOld]
          apply lookup_repointed_self
          rw [lookup_indexed_of_ne changed]
          exact firstHolding_of_repointed indexes changed held
        · rw [lookup_repointed_of_ne isOld]
          by_cases same : asked = token
          · rw [same, declared]
          · rw [lookup_indexed_of_ne same, agrees]
            refine (Directory.firstHolding_insert_of_ne same ?_).symm
            rw [held]
            exact fun isAsked => isOld (Option.some.inj isAsked).symm
      next unchanged =>
        have isToken : old = token := not_not.mp unchanged
        by_cases same : asked = token
        · rw [same, declared]
        · rw [lookup_indexed_of_ne same, agrees]
          refine (Directory.firstHolding_insert_of_ne same ?_).symm
          rw [held, isToken]
          exact fun isAsked => same (Option.some.inj isAsked).symm

/-- What a call makes every spelling mean. -/
theorem lookup_everywhere (symbols : Symbols) (venueSymbol ticker spelling : Text) :
    (symbols.everywhere venueSymbol ticker).2.onAll.lookup spelling =
      if venueSymbol = spelling then (Token.new ticker).or (symbols.onAll.lookup spelling)
      else symbols.onAll.lookup spelling := by
  unfold everywhere
  split
  next refused isRefused =>
    have noToken : Token.new ticker = none := by
      apply Option.eq_none_iff_forall_ne_some.mpr
      intro token made
      rw [Token.tryNew_eq_ok_iff_new.mpr made] at isRefused
      cases isRefused
    simp [noToken]
  next token made =>
    rw [Token.tryNew_eq_ok_iff_new.mp made, Option.some_or]
    by_cases same : venueSymbol = spelling
    · rw [if_pos same, same]
      exact AList.lookup_insert _
    · rw [if_neg same]
      exact AList.lookup_insert_ne (Ne.symm same)

/-- A call is accepted exactly where its ticker is a token. -/
theorem everywhere_ok_iff {symbols : Symbols} {venueSymbol ticker : Text} :
    (symbols.everywhere venueSymbol ticker).1 = .ok () ↔ (Token.new ticker).isSome = true := by
  rw [Option.isSome_iff_exists]
  unfold everywhere
  split
  next refused isRefused =>
    refine ⟨fun impossible => absurd impossible (by simp), fun legal => ?_⟩
    obtain ⟨token, made⟩ := legal
    rw [Token.tryNew_eq_ok_iff_new.mpr made] at isRefused
    cases isRefused
  next token made =>
    exact ⟨fun _ => ⟨token, Token.tryNew_eq_ok_iff_new.mp made⟩, fun _ => rfl⟩

/-- A refused call leaves the resolver as it was. -/
theorem everywhere_of_refused {symbols : Symbols} {venueSymbol ticker : Text}
    {refused : TokenError}
    (isRefused : (symbols.everywhere venueSymbol ticker).1 = .error refused) :
    (symbols.everywhere venueSymbol ticker).2 = symbols := by
  unfold everywhere at isRefused ⊢
  split at isRefused
  · rfl
  · cases isRefused

/-- A declaration on one channel touches no other map, refused or not. -/
theorem onChannel_frame (symbols : Symbols) (channel venueSymbol ticker : Text) :
    (symbols.onChannel channel venueSymbol ticker).2.onAll = symbols.onAll ∧
      (symbols.onChannel channel venueSymbol ticker).2.reverse = symbols.reverse := by
  unfold onChannel
  split
  · exact ⟨rfl, rfl⟩
  · exact ⟨rfl, rfl⟩

/-- The spelling of a ticker resolves to it wherever no channel says otherwise. -/
theorem resolve_of_indexes {symbols : Symbols} (indexes : symbols.Indexes)
    {channel spelling : Text} {ticker : Ticker}
    (spells : symbols.venueSymbolFor ticker = some spelling)
    (plain : symbols.override channel spelling = none) :
    symbols.resolve channel spelling = some ticker := by
  rw [indexes ticker] at spells
  have least := Directory.firstHolding_eq_some_iff.mp spells
  rw [resolve, plain, Option.none_or]
  exact least.1

end Symbols

/-- A declaration of the resolver. -/
inductive Call
  | everywhere (venueSymbol ticker : Text)
  | onChannel (channel venueSymbol ticker : Text)
deriving DecidableEq

/-- What a call answers and makes of the resolver. -/
def Call.apply (symbols : Symbols) : Call → Except TokenError Unit × Symbols
  | .everywhere venueSymbol ticker => symbols.everywhere venueSymbol ticker
  | .onChannel channel venueSymbol ticker => symbols.onChannel channel venueSymbol ticker

/-- The resolver after calls, each made whether or not an earlier one was refused. -/
def run (calls : List Call) (symbols : Symbols) : Symbols :=
  calls.foldl (fun held call => (call.apply held).2) symbols

/-- The ticker a call declares a spelling to mean on every channel, where it is accepted. -/
def Call.declares (spelling : Text) : Call → Option Ticker
  | .everywhere venueSymbol ticker => if venueSymbol = spelling then Token.new ticker else none
  | .onChannel .. => none

/-- What a spelling means after calls: what the last accepted declaration of it said. -/
def meaning (calls : List Call) (spelling : Text) : Option Ticker :=
  calls.reverse.findSome? fun call => call.declares spelling

/-- What a resolver answers after calls. -/
structure Answers (calls : List Call) (symbols : Symbols) : Prop where
  /-- A spelling is mapped to what its last accepted declaration said. -/
  means : ∀ spelling, symbols.onAll.lookup spelling = meaning calls spelling
  /-- The index answers as the scan it stands for. -/
  scanned : ∀ ticker, symbols.venueSymbolFor ticker = symbols.scan ticker
  /-- The spelling of a ticker is the least of those that mean it. -/
  least : ∀ ticker spelling, symbols.venueSymbolFor ticker = some spelling ↔
    IsLeast {declared | meaning calls declared = some ticker} spelling
  /-- A ticker has no spelling exactly where none means it. -/
  absent : ∀ ticker, symbols.venueSymbolFor ticker = none ↔
    ∀ spelling, meaning calls spelling ≠ some ticker
  /-- A call is refused exactly where its ticker is no token. -/
  refuses : ∀ venueSymbol ticker, (symbols.everywhere venueSymbol ticker).1 = .ok () ↔
    (Token.new ticker).isSome = true
  /-- A refused call leaves the resolver as it was. -/
  unchanged : ∀ venueSymbol ticker refused,
    (symbols.everywhere venueSymbol ticker).1 = .error refused →
      (symbols.everywhere venueSymbol ticker).2 = symbols
  /-- The spelling of a ticker resolves to it on a channel that does not override it. -/
  resolves : ∀ channel ticker spelling, symbols.venueSymbolFor ticker = some spelling →
    symbols.override channel spelling = none → symbols.resolve channel spelling = some ticker

/-- A call keeps the index in step with the scan. -/
theorem Call.indexes_apply (call : Call) {symbols : Symbols} (indexes : symbols.Indexes) :
    (call.apply symbols).2.Indexes := by
  cases call with
  | everywhere venueSymbol ticker => exact Symbols.indexes_everywhere indexes venueSymbol ticker
  | onChannel channel venueSymbol ticker =>
      obtain ⟨sameMap, sameIndex⟩ := symbols.onChannel_frame channel venueSymbol ticker
      intro asked
      have agrees := indexes asked
      simp only [Call.apply, Symbols.venueSymbolFor, Symbols.scan] at agrees ⊢
      rw [sameMap, sameIndex, agrees]

/-- A call maps a spelling to what it declares it to mean, and no other. -/
theorem Call.lookup_apply (call : Call) (symbols : Symbols) (spelling : Text) :
    (call.apply symbols).2.onAll.lookup spelling =
      (call.declares spelling).or (symbols.onAll.lookup spelling) := by
  cases call with
  | everywhere venueSymbol ticker =>
      rw [Call.apply, symbols.lookup_everywhere, Call.declares]
      split
      · rfl
      · rfl
  | onChannel channel venueSymbol ticker =>
      rw [Call.apply, (symbols.onChannel_frame channel venueSymbol ticker).1]
      rfl

/-- A run ends with its last call. -/
theorem run_concat (calls : List Call) (call : Call) (symbols : Symbols) :
    run (calls ++ [call]) symbols = (call.apply (run calls symbols)).2 := by
  rw [run, List.foldl_append]
  rfl

/-- The last call decides what the spelling it declares means. -/
theorem meaning_concat (calls : List Call) (call : Call) (spelling : Text) :
    meaning (calls ++ [call]) spelling = (call.declares spelling).or (meaning calls spelling) := by
  rw [meaning, List.reverse_append, List.reverse_singleton, List.singleton_append,
    List.findSome?_cons]
  cases call.declares spelling with
  | none => rfl
  | some ticker => rfl

/-- Every run keeps the index in step with the scan. -/
theorem indexes_run (calls : List Call) : (run calls Symbols.new).Indexes := by
  induction calls using List.reverseRecOn with
  | nil => exact fun ticker => rfl
  | append_singleton calls call inductionHypothesis =>
      rw [run_concat]
      exact call.indexes_apply inductionHypothesis

/-- A run maps every spelling to what its last accepted declaration said. -/
theorem lookup_run (calls : List Call) (spelling : Text) :
    (run calls Symbols.new).onAll.lookup spelling = meaning calls spelling := by
  induction calls using List.reverseRecOn with
  | nil => rfl
  | append_singleton calls call inductionHypothesis =>
      rw [run_concat, call.lookup_apply, inductionHypothesis, meaning_concat]

/-- After any calls the index answers as the scan it stands for, a refused call changes nothing,
and the spelling of a ticker resolves back to it. -/
theorem answers_run (calls : List Call) : Answers calls (run calls Symbols.new) := by
  have indexes := indexes_run calls
  have spellings (ticker : Ticker) :
      (run calls Symbols.new).onAll.Holding ticker =
        {declared | meaning calls declared = some ticker} := by
    ext declared
    rw [Directory.Holding, Set.mem_ofPred_eq, Set.mem_ofPred_eq, lookup_run]
  refine ⟨lookup_run calls, indexes, fun ticker spelling => ?_, fun ticker => ?_,
    fun venueSymbol ticker => ?_, fun venueSymbol ticker refused => ?_,
    fun channel ticker spelling => ?_⟩
  · rw [indexes ticker, Symbols.scan, Directory.firstHolding_eq_some_iff, spellings]
  · rw [indexes ticker, Symbols.scan, Directory.firstHolding_eq_none_iff, spellings]
    rfl
  · exact Symbols.everywhere_ok_iff
  · exact Symbols.everywhere_of_refused
  · exact Symbols.resolve_of_indexes indexes

/-- A ticker falls back to its remaining spelling where the first is declared to mean another. -/
example :
    let symbols := run [.everywhere "b:BTC".toList "BTC".toList,
      .everywhere "a:BTC".toList "BTC".toList, .everywhere "a:BTC".toList "ETH".toList] Symbols.new
    (Token.new "BTC".toList).bind symbols.venueSymbolFor = some "b:BTC".toList := by
  decide +kernel

end Venues
end Datawatch
