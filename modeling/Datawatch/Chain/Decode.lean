import Datawatch.Library.Attempt
import Datawatch.Library.Directory
import Datawatch.Library.Hex
import Datawatch.Library.Utf8
import Datawatch.Chain.Trail
import Datawatch.Wire.Decimal

/-!
# Reading a chain's answers

A log is read as a fungible transfer, and a contract's answers as what it says about itself.
-/

namespace Datawatch
namespace Chain

open Library Library.Text Wire

/-- The signature of a transfer, of a fungible token or not. -/
def transferTopic : Text :=
  "0xddf252ad1be2c89b69c2b068fc378daa952ba7f163c4a11628f55a4df523b3ef".toList

/-- The address that issues when it sends and redeems when it receives. -/
def zeroAddress : Text := "0x0000000000000000000000000000000000000000".toList

/-- One log, as the node sends it. -/
structure Log where
  address : Text
  topics : List Text
  data : Text
  blockNumber : Text
  transactionHash : Text
  logIndex : Text

/-- Why a log could not be read. -/
inductive DecodeError
  | notATransfer
  | notFungible (topics : Nat)
  | shortTopic (index length : Nat)
  | unknownContract (address : Text)
  | badAmount (data : Text)
deriving DecidableEq

/-- A fungible transfer, decoded. -/
structure Transfer where
  fromAddress : Text
  toAddress : Text
  amount : Decimal
  contract : Text
  transactionHash : Text
  logIndex : Nat
  block : Nat
deriving DecidableEq

/-- The address a topic holds: its last twenty bytes.  Cutting inside a character panics. -/
def topicAddress (topic : Text) (index : Nat) : Attempt (Except DecodeError Text) :=
  let hex := stripHexPrefix topic
  if byteLength hex ≠ 64 then .returns (.error (.shortTopic index (byteLength hex)))
  else
    match dropBytes 24 hex with
    | none => .panics
    | some address => .returns (.ok ('0' :: 'x' :: address.map Char.toLower))

/-- A word as a number, scaled by its contract's decimals. -/
def scaled (data : Text) (decimals : Nat) : Attempt (Except DecodeError Decimal) :=
  let hex := stripHexPrefix data
  if hex = [] ∨ 64 < byteLength hex then .returns (.error (.badAmount data))
  else
    match readWord 128 hex with
    | none => .returns (.error (.badAmount data))
    | some raw =>
        (Decimal.fromU128 raw).bind fun value =>
          match Decimal.setScale value decimals with
          | some value => .returns (.ok value)
          | none => .returns (.error (.badAmount data))

/-- A quantity of sixty-four bits. -/
def hexU64 (value : Text) : Option Nat := parseHex 64 (stripHexPrefix value)

/-- Read a log as a fungible transfer, with each contract's decimals. -/
def Log.transfer (log : Log) (decimals : Directory Text Nat) :
    Attempt (Except DecodeError Transfer) :=
  match log.topics with
  | [] => .returns (.error .notATransfer)
  | topic0 :: topics =>
      if sameHash topic0 transferTopic = false then .returns (.error .notATransfer)
      else
        match topics with
        | [sender, receiver] =>
            let address := log.address.map Char.toLower
            match decimals.lookup address with
            | none => .returns (.error (.unknownContract address))
            | some scale =>
                (topicAddress sender 1).andThen fun fromAddress =>
                  (topicAddress receiver 2).andThen fun toAddress =>
                    (scaled log.data scale).andThen fun amount =>
                      .returns (.ok
                        { fromAddress := fromAddress
                          toAddress := toAddress
                          amount := amount
                          contract := address
                          transactionHash := log.transactionHash.map Char.toLower
                          -- A quantity that does not parse is zero, and a wide one is cut.
                          logIndex := (hexU64 log.logIndex).getD 0 % 2 ^ 32
                          block := (hexU64 log.blockNumber).getD 0 })
        | _ => .returns (.error (.notFungible (topics.length + 1)))

/-- The multiplier's own scale. -/
def multiplierScale : Nat := 18

/-- Read a `uiMultiplier()` answer, `none` for a call that reverted. -/
def multiplier : Option Text → Attempt (Option Decimal)
  | none => .returns none
  | some returned =>
      let hex := stripHexPrefix returned
      if hex = [] then .returns none
      else
        match readWord 128 hex with
        | none => .returns none
        | some raw =>
            (Decimal.fromU128 raw).bind fun value =>
              .returns (Decimal.setScale value multiplierScale)

/-- Read a `decimals()` answer. -/
def decimals : Option Text → Option Nat
  | none => none
  | some returned =>
      let hex := stripHexPrefix returned
      (parseHex 32 (trimZeros hex)).or
        (if hex ≠ [] ∧ hex.all (· = '0') then some 0 else none)

/-- The bytes a text spells, read two of its own bytes at a time up to the first pair that spells
none.  A pair that ends inside a character panics. -/
def pairBytes : Text → Attempt (Option (List Nat))
  | [] => .returns (some [])
  | [char] =>
      if char.utf8Size = 1 then .returns (some [])
      else if char.utf8Size = 2 then .returns none
      else .panics
  | first :: second :: rest =>
      if first.utf8Size = 2 then .returns none
      else if first.utf8Size = 1 ∧ second.utf8Size = 1 then
        match parseHex 8 [first, second] with
        | none => .returns none
        | some byte =>
            (pairBytes rest).bind fun bytes => .returns (bytes.map fun bytes => byte :: bytes)
      else .panics

/-- Bytes as an integer, the highest first. -/
def bigEndian (bytes : List Nat) : Nat := bytes.foldl (fun value byte => value * 256 + byte) 0

/-- Text without the zero characters it ends in. -/
def trimNuls (text : Text) : Text := (text.reverse.dropWhile (· = Char.ofNat 0)).reverse

/-- Read a `symbol()` answer: an offset, a length and that many bytes. -/
def symbol : Option Text → Attempt (Option Text)
  | none => .returns none
  | some returned =>
      (pairBytes (stripHexPrefix returned)).bind fun read =>
        .returns (read.bind fun bytes =>
          if bytes.length < 64 then none
          else
            let length := bigEndian ((bytes.drop 60).take 4)
            if bytes.length < 64 + length then none
            else some (trimNuls (utf8Lossy ((bytes.drop 64).take length))))

end Chain
end Datawatch
