import Mathlib.Data.List.Nodup
import Datawatch.Library.Text

/-!
# Datasets

The series a configuration may declare, the datasets a store writes, and how each
is addressed.
-/

namespace Datawatch
namespace Wire

open Library

/-- A series a configuration may declare and a gap may be about. -/
inductive Series
  | trades
  | book
  | candles
  | funding
  | quotes
  | transfers
  | mints
  | margin
  | fills
  | fundingPayments
  | ledgerUpdates
deriving DecidableEq

/-- A dataset a store writes. -/
inductive Kind
  | trades
  | book
  | candles
  | funding
  | quotes
  | transfers
  | mints
  | marks
  | gaps
  | unparsed
  | sessions
  | instruments
  | reorgs
  | margin
  | positions
  | accounts
  | fills
  | fundingPayments
  | ledgerUpdates
  | signals
deriving DecidableEq

/-- The partition level a dataset sits under. -/
inductive Addressing
  | venue
  | market
  | account
deriving DecidableEq

/-- The partition level's key, without its value. -/
def Addressing.key : Addressing → Text
  | .venue => "venue".toList
  | .market => "market".toList
  | .account => "account".toList

/-- The discriminator written to disk and to a subject. -/
def Series.asStr : Series → Text
  | .trades => "trades".toList
  | .book => "book".toList
  | .candles => "candles".toList
  | .funding => "funding".toList
  | .quotes => "quotes".toList
  | .transfers => "transfers".toList
  | .mints => "mints".toList
  | .margin => "margin".toList
  | .fills => "fills".toList
  | .fundingPayments => "funding_payments".toList
  | .ledgerUpdates => "ledger_updates".toList

/-- The dataset a series' own events land in. -/
def Series.kind : Series → Kind
  | .trades => .trades
  | .book => .book
  | .candles => .candles
  | .funding => .funding
  | .quotes => .quotes
  | .transfers => .transfers
  | .mints => .mints
  | .margin => .margin
  | .fills => .fills
  | .fundingPayments => .fundingPayments
  | .ledgerUpdates => .ledgerUpdates

namespace Kind

/-- Every dataset, in declaration order. -/
def all : List Kind :=
  [.trades, .book, .candles, .funding, .quotes, .transfers, .mints, .marks, .gaps, .unparsed,
    .sessions, .instruments, .reorgs, .margin, .positions, .accounts, .fills, .fundingPayments,
    .ledgerUpdates, .signals]

theorem mem_all (kind : Kind) : kind ∈ all := by
  cases kind <;> decide

/-- The position of a dataset in the declaration order, which its `Ord` follows. -/
def rank : Kind → Nat
  | .trades => 0
  | .book => 1
  | .candles => 2
  | .funding => 3
  | .quotes => 4
  | .transfers => 5
  | .mints => 6
  | .marks => 7
  | .gaps => 8
  | .unparsed => 9
  | .sessions => 10
  | .instruments => 11
  | .reorgs => 12
  | .margin => 13
  | .positions => 14
  | .accounts => 15
  | .fills => 16
  | .fundingPayments => 17
  | .ledgerUpdates => 18
  | .signals => 19

/-- The discriminator written to disk and to a subject. -/
def asStr : Kind → Text
  | .trades => "trades".toList
  | .book => "book".toList
  | .candles => "candles".toList
  | .funding => "funding".toList
  | .quotes => "quotes".toList
  | .transfers => "transfers".toList
  | .mints => "mints".toList
  | .marks => "marks".toList
  | .gaps => "gaps".toList
  | .unparsed => "unparsed".toList
  | .sessions => "sessions".toList
  | .instruments => "instruments".toList
  | .reorgs => "reorgs".toList
  | .margin => "margin".toList
  | .positions => "positions".toList
  | .accounts => "accounts".toList
  | .fills => "fills".toList
  | .fundingPayments => "funding_payments".toList
  | .ledgerUpdates => "ledger_updates".toList
  | .signals => "signals".toList

/-- How a dataset is addressed. -/
def addressing : Kind → Addressing
  | .trades | .book | .candles | .funding | .quotes | .transfers | .mints | .marks | .gaps
  | .unparsed | .sessions | .instruments | .reorgs => .venue
  | .margin | .positions | .accounts | .fills | .fundingPayments | .ledgerUpdates => .account
  | .signals => .market

/-- Two datasets never share a spelling. -/
theorem asStr_injective : Function.Injective asStr := by
  intro first second same
  have distinct : (all.map asStr).Nodup := by decide +kernel
  exact List.inj_on_of_nodup_map distinct (mem_all first) (mem_all second) same

/-- No spelling holds a path separator. -/
theorem slash_not_mem_asStr (kind : Kind) : '/' ∉ kind.asStr := by
  cases kind <;> decide +kernel

end Kind

end Wire
end Datawatch
