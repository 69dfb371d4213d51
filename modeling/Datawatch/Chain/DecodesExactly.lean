import Datawatch.Chain.Symbols

/-!
# The chain's decoders, exactly

A decoder neither panics nor accepts what is no word of its shape, but where a string is cut
inside a character, a word has a sign or too many digits, or a number exceeds ninety-six bits.
-/

namespace Datawatch
namespace Chain

open Library Library.Text Wire

/-- At most sixty-four hex digits, prefixed or bare. -/
def IsWord (text : Text) : Prop :=
  IsHex (stripHexPrefix text) ∧ (stripHexPrefix text).length ≤ 64

/-- Sixty-four hex digits, prefixed or bare. -/
def IsTopic (text : Text) : Prop :=
  IsHex (stripHexPrefix text) ∧ (stripHexPrefix text).length = 64

/-- Hex digits of a number within a width. -/
def IsQuantity (bits : Nat) (text : Text) : Prop :=
  IsHex (stripHexPrefix text) ∧ hexValue (stripHexPrefix text) < 2 ^ bits

/-- A transfer that is what its log says. -/
structure DecodedExactly (log : Log) (scale : Nat) (transfer : Transfer) : Prop where
  topics : ∃ topic0 sender receiver, log.topics = [topic0, sender, receiver] ∧
    IsTopic sender ∧ IsTopic receiver
  amount : IsWord log.data ∧
    transfer.amount.value * 10 ^ scale = hexValue (stripHexPrefix log.data)
  block : IsQuantity 64 log.blockNumber ∧
    transfer.block = hexValue (stripHexPrefix log.blockNumber)
  index : IsQuantity 32 log.logIndex ∧ transfer.logIndex = hexValue (stripHexPrefix log.logIndex)

/-- A log is read without a panic, and as what it says where it is accepted. -/
def TransferExact (log : Log) (decimals : Directory Text Nat) : Prop :=
  (log.transfer decimals).Satisfies fun answer => ∀ transfer, answer = .ok transfer →
    ∃ scale, decimals.lookup (log.address.map Char.toLower) = some scale ∧
      DecodedExactly log scale transfer

/-- A multiplier is read without a panic, and as its word where it is accepted. -/
def MultiplierExact (returned : Option Text) : Prop :=
  (multiplier returned).Satisfies fun answer => ∀ value : Decimal, answer = some value →
    ∃ text, returned = some text ∧ IsWord text ∧
      value.value * 10 ^ 18 = hexValue (stripHexPrefix text)

/-- A contract's decimals are those of its word. -/
def DecimalsExact (returned : Option Text) : Prop :=
  ∀ value, decimals returned = some value → ∃ text, returned = some text ∧ IsWord text ∧
    value = hexValue (stripHexPrefix text)

/-- An offset, a length and that many bytes, in hex digits. -/
def IsSymbol (text : Text) : Prop :=
  let hex := stripHexPrefix text
  hex.all isHex = true ∧ Even hex.length ∧ hexValue (hex.take 64) = 32 ∧
    128 + 2 * hexValue ((hex.drop 64).take 64) ≤ hex.length

/-- A symbol is read without a panic, and from its shape where it is accepted. -/
def SymbolExact (returned : Option Text) : Prop :=
  (symbol returned).Satisfies fun answer => ∀ name : Text, answer = some name →
    ∃ text, returned = some text ∧ IsSymbol text

/-- A topic's last twenty bytes begin with a character. -/
def Sliceable (topic : Text) : Prop := (dropBytes 24 (stripHexPrefix topic)).isSome

/-- A number of 128 bits, a plus sign among its digits or not. -/
def Spells128 (hex : Text) : Prop :=
  hex ≠ [] ∧ (hex.all isHex = true ∨ SignedHex hex) ∧ wordValue hex < 2 ^ 128

/-- No character but hex digits after the prefix. -/
def HasHex (text : Text) : Prop := (stripHexPrefix text).all isHex = true

/-- A log that is refused, or is cut where it can be and within a decimal, and has no character
but hex digits in its topics, no sign in its amount and quantities within their widths. -/
def TransferReadable (log : Log) (decimals : Directory Text Nat) : Prop :=
  ∀ topic0 sender receiver scale, log.topics = [topic0, sender, receiver] →
    sameHash topic0 transferTopic = true →
    decimals.lookup (log.address.map Char.toLower) = some scale →
    byteLength (stripHexPrefix sender) = 64 →
    Sliceable sender ∧ (byteLength (stripHexPrefix receiver) = 64 →
      Sliceable receiver ∧
        (Spells128 (stripHexPrefix log.data) ∧ byteLength (stripHexPrefix log.data) ≤ 64 →
          wordValue (stripHexPrefix log.data) < 2 ^ 96 ∧
            (scale ≤ 28 → HasHex sender ∧ HasHex receiver ∧
              ¬ SignedHex (stripHexPrefix log.data) ∧
              IsQuantity 64 log.blockNumber ∧ IsQuantity 32 log.logIndex)))

/-- A multiplier that is refused, or has no sign, no digit too many and a decimal to hold it. -/
def MultiplierReadable (returned : Option Text) : Prop :=
  ∀ text, returned = some text → Spells128 (stripHexPrefix text) →
    wordValue (stripHexPrefix text) < 2 ^ 96 ∧ ¬ SignedHex (stripHexPrefix text) ∧
      (stripHexPrefix text).length ≤ 64

/-- Decimals that are refused, or have no sign and no digit too many. -/
def DecimalsReadable (returned : Option Text) : Prop :=
  ∀ text, returned = some text → Spells128 (stripHexPrefix text) →
    wordValue (stripHexPrefix text) < 2 ^ 32 →
      ¬ SignedHex (stripHexPrefix text) ∧ (stripHexPrefix text).length ≤ 64

/-- A symbol that is cut inside no character, and that, where its length's last four bytes fit,
has no sign, no odd digit, its bytes where they belong and a length that fits. -/
def SymbolReadable (returned : Option Text) : Prop :=
  ∀ text, returned = some text → ¬ CutsCharacter (stripHexPrefix text) ∧
    ∀ bytes, Spells (stripHexPrefix text) bytes →
      64 + bigEndian ((bytes.drop 60).take 4) ≤ bytes.length →
        '+' ∉ stripHexPrefix text ∧ Even (stripHexPrefix text).length ∧
          bigEndian (bytes.take 32) = 32 ∧
            64 + bigEndian ((bytes.drop 32).take 32) ≤ bytes.length

theorem topicAddress_of_short {topic : Text} (short : byteLength (stripHexPrefix topic) ≠ 64)
    (index : Nat) : topicAddress topic index =
      .returns (.error (.shortTopic index (byteLength (stripHexPrefix topic)))) := by
  rw [topicAddress, if_pos short]

theorem topicAddress_of_sliceable {topic : Text} (whole : byteLength (stripHexPrefix topic) = 64)
    (sliceable : Sliceable topic) (index : Nat) :
    ∃ address, topicAddress topic index = .returns (.ok address) := by
  obtain ⟨rest, isRest⟩ := Option.isSome_iff_exists.mp sliceable
  rw [topicAddress, if_neg (not_not.mpr whole)]
  simp only [isRest]
  exact ⟨_, rfl⟩

theorem topicAddress_of_not_sliceable {topic : Text}
    (whole : byteLength (stripHexPrefix topic) = 64) (cut : ¬ Sliceable topic) (index : Nat) :
    topicAddress topic index = .panics := by
  have isNone : dropBytes 24 (stripHexPrefix topic) = none := by simpa [Sliceable] using cut
  rw [topicAddress, if_neg (not_not.mpr whole)]
  simp only [isNone]

/-- Sixty-four bytes are a topic where they are hex digits. -/
theorem isTopic_iff {topic : Text} (whole : byteLength (stripHexPrefix topic) = 64) :
    IsTopic topic ↔ HasHex topic := by
  constructor
  · intro isTopic
    exact isTopic.1.2
  · intro hex
    have sixtyFour : (stripHexPrefix topic).length = 64 := by
      rw [← byteLength_of_isHex hex, whole]
    refine ⟨⟨?_, hex⟩, sixtyFour⟩
    intro isEmpty
    rw [isEmpty] at sixtyFour
    cases sixtyFour

/-- What spells a number is a word where it has no sign and no digit too many. -/
theorem isWord_iff {text : Text} (spells : Spells128 (stripHexPrefix text)) :
    IsWord text ↔ ¬ SignedHex (stripHexPrefix text) ∧ (stripHexPrefix text).length ≤ 64 := by
  constructor
  · intro isWord
    exact ⟨fun signed => signed.not_all_isHex isWord.1.2, isWord.2⟩
  · intro plain
    exact ⟨⟨spells.1, spells.2.1.resolve_right plain.1⟩, plain.2⟩

/-- A word of sixty-four hex digits is cut at its address. -/
theorem IsTopic.sliceable {topic : Text} (isTopic : IsTopic topic) : Sliceable topic := by
  rw [Sliceable, dropBytes_of_isHex isTopic.1.2 (by rw [isTopic.2]; decide)]
  rfl

theorem readWord_none {hex : Text} (nonempty : hex ≠ []) (unspelled : ¬ Spells128 hex) :
    readWord 128 hex = none := by
  rw [Option.eq_none_iff_forall_ne_some]
  intro value read
  obtain ⟨digits, below, _⟩ := readWord_eq_some_iff.mp read
  exact unspelled ⟨nonempty, digits, below⟩

theorem readWord_of_spells {hex : Text} (spells : Spells128 hex) :
    readWord 128 hex = some (wordValue hex) :=
  readWord_eq_some_iff.mpr ⟨spells.2.1, spells.2.2, rfl⟩

theorem fromU128_of_lt {raw : Nat} (bits : raw < 2 ^ 96) :
    Decimal.fromU128 raw = .returns ⟨⟨raw, 0⟩, bits, Nat.zero_le _⟩ := by
  rw [Decimal.fromU128, dif_pos bits]

theorem fromU128_of_le {raw : Nat} (wide : 2 ^ 96 ≤ raw) : Decimal.fromU128 raw = .panics := by
  rw [Decimal.fromU128, dif_neg (Nat.not_lt.mpr wide)]

/-- A decimal's number at a scale is its digits over that power of ten. -/
theorem value_mul_pow (raw scale : Nat) :
    (Wire.Num.value ⟨raw, scale⟩) * 10 ^ scale = raw := by
  rw [Wire.Num.value, div_mul_cancel₀ _ (by positivity)]
  exact Int.cast_natCast raw

/-- An amount that spells no number of 128 bits within a word is refused. -/
theorem scaled_of_unspelled {data : Text} (unspelled : ¬ (Spells128 (stripHexPrefix data) ∧
    byteLength (stripHexPrefix data) ≤ 64)) (scale : Nat) :
    scaled data scale = .returns (.error (.badAmount data)) := by
  unfold scaled
  simp only
  by_cases short : stripHexPrefix data = [] ∨ 64 < byteLength (stripHexPrefix data)
  · rw [if_pos short]
  · rw [if_neg short]
    rw [not_or] at short
    rw [readWord_none short.1 fun spells => unspelled ⟨spells, not_lt.mp short.2⟩]

/-- An amount of more than ninety-six bits panics. -/
theorem scaled_of_wide {data : Text} (spells : Spells128 (stripHexPrefix data))
    (short : byteLength (stripHexPrefix data) ≤ 64)
    (wide : 2 ^ 96 ≤ wordValue (stripHexPrefix data)) (scale : Nat) :
    scaled data scale = .panics := by
  unfold scaled
  simp only
  rw [if_neg (not_or.mpr ⟨spells.1, not_lt.mpr short⟩), readWord_of_spells spells]
  simp only
  rw [fromU128_of_le wide, Attempt.panics_bind]

/-- An amount within a decimal is accepted at a scale a decimal has. -/
theorem scaled_of_fits {data : Text} (spells : Spells128 (stripHexPrefix data))
    (short : byteLength (stripHexPrefix data) ≤ 64)
    (bits : wordValue (stripHexPrefix data) < 2 ^ 96) {scale : Nat} (atMost : scale ≤ 28) :
    scaled data scale =
      .returns (.ok ⟨⟨wordValue (stripHexPrefix data), scale⟩, bits, atMost⟩) := by
  unfold scaled
  simp only
  rw [if_neg (not_or.mpr ⟨spells.1, not_lt.mpr short⟩), readWord_of_spells spells]
  simp only
  rw [fromU128_of_lt bits, Attempt.returns_bind, Decimal.setScale, dif_pos atMost]

/-- No decimal has a scale beyond 28. -/
theorem scaled_of_beyond {data : Text} (spells : Spells128 (stripHexPrefix data))
    (short : byteLength (stripHexPrefix data) ≤ 64)
    (bits : wordValue (stripHexPrefix data) < 2 ^ 96) {scale : Nat} (beyond : ¬ scale ≤ 28) :
    scaled data scale = .returns (.error (.badAmount data)) := by
  unfold scaled
  simp only
  rw [if_neg (not_or.mpr ⟨spells.1, not_lt.mpr short⟩), readWord_of_spells spells]
  simp only
  rw [fromU128_of_lt bits, Attempt.returns_bind, Decimal.setScale, dif_neg beyond]

/-- A quantity of hex digits within sixty-four bits is read as its value. -/
theorem hexU64_of_isQuantity {value : Text} (quantity : IsQuantity 64 value) :
    hexU64 value = some (hexValue (stripHexPrefix value)) := by
  have bare : stripPlus (stripHexPrefix value) = stripHexPrefix value := by
    cases isHex : stripHexPrefix value with
    | nil => exact absurd isHex quantity.1.1
    | cons char rest =>
        refine stripPlus_of_ne ?_
        rintro rfl
        exact quantity.1.not_plus isHex
  rw [hexU64, parseHex, bare, if_pos ⟨quantity.1, quantity.2⟩]

/-- What is left of a transfer after the checks that come before its topics. -/
theorem transfer_eq {log : Log} {decimals : Directory Text Nat} {topic0 sender receiver : Text}
    {scale : Nat} (isTopics : log.topics = [topic0, sender, receiver])
    (isTransfer : sameHash topic0 transferTopic = true)
    (declared : decimals.lookup (log.address.map Char.toLower) = some scale) :
    log.transfer decimals = (topicAddress sender 1).andThen fun fromAddress =>
      (topicAddress receiver 2).andThen fun toAddress =>
        (scaled log.data scale).andThen fun amount =>
          .returns (.ok ⟨fromAddress, toAddress, amount, log.address.map Char.toLower,
            log.transactionHash.map Char.toLower, (hexU64 log.logIndex).getD 0 % 2 ^ 32,
            (hexU64 log.blockNumber).getD 0⟩) := by
  unfold Log.transfer
  rw [isTopics]
  simp only
  rw [if_neg (by rw [isTransfer]; decide), declared]

/-- A log that fails one of the checks that come first is refused. -/
theorem transfer_refused {log : Log} {decimals : Directory Text Nat}
    (fails : ¬ ∃ topic0 sender receiver scale, log.topics = [topic0, sender, receiver] ∧
      sameHash topic0 transferTopic = true ∧
      decimals.lookup (log.address.map Char.toLower) = some scale) :
    ∃ reason, log.transfer decimals = .returns (.error reason) := by
  unfold Log.transfer
  split
  · exact ⟨_, rfl⟩
  · rename_i topic0 topics isTopics
    split
    · exact ⟨_, rfl⟩
    · rename_i isTransfer
      split
      · rename_i sender receiver
        simp only
        split
        · exact ⟨_, rfl⟩
        · rename_i scale declared
          exact absurd ⟨topic0, sender, receiver, scale, isTopics,
            Bool.eq_true_of_not_eq_false isTransfer, declared⟩ fails
      · exact ⟨_, rfl⟩

theorem transferExact_of_refused {log : Log} {decimals : Directory Text Nat}
    {reason : DecodeError} (refused : log.transfer decimals = .returns (.error reason)) :
    TransferExact log decimals := by
  rw [TransferExact, refused, Attempt.satisfies_returns]
  intro transfer accepted
  cases accepted

theorem not_transferExact_of_panics {log : Log} {decimals : Directory Text Nat}
    (panicked : log.transfer decimals = .panics) : ¬ TransferExact log decimals := by
  rw [TransferExact, panicked, Attempt.satisfies_panics]
  exact id

theorem transferExact_of_accepted {log : Log} {decimals : Directory Text Nat} {scale : Nat}
    {transfer : Transfer} (declared : decimals.lookup (log.address.map Char.toLower) = some scale)
    (accepted : log.transfer decimals = .returns (.ok transfer)) :
    TransferExact log decimals ↔ DecodedExactly log scale transfer := by
  rw [TransferExact, accepted, Attempt.satisfies_returns]
  constructor
  · intro exact
    obtain ⟨other, isDeclared, decoded⟩ := exact transfer rfl
    obtain rfl : scale = other := Option.some.inj (declared.symm.trans isDeclared)
    exact decoded
  · intro decoded other isTransfer
    obtain rfl : transfer = other := Except.ok.inj isTransfer
    exact ⟨scale, declared, decoded⟩

/-- A quantity within thirty-two bits survives the cut to them. -/
theorem hexU64_cut {value : Text} (quantity : IsQuantity 32 value) :
    (hexU64 value).getD 0 % 2 ^ 32 = hexValue (stripHexPrefix value) := by
  have wide : IsQuantity 64 value :=
    ⟨quantity.1, Nat.lt_trans quantity.2 (Nat.pow_lt_pow_right (by omega) (by omega))⟩
  rw [hexU64_of_isQuantity wide, Option.getD_some, Nat.mod_eq_of_lt quantity.2]

/-- An accepted transfer is what its log says where the log is well formed. -/
theorem decodedExactly_iff {log : Log} {topic0 sender receiver fromAddress toAddress : Text}
    {scale : Nat} (isTopics : log.topics = [topic0, sender, receiver])
    (wholeSender : byteLength (stripHexPrefix sender) = 64)
    (wholeReceiver : byteLength (stripHexPrefix receiver) = 64)
    (spells : Spells128 (stripHexPrefix log.data))
    (short : byteLength (stripHexPrefix log.data) ≤ 64)
    (bits : wordValue (stripHexPrefix log.data) < 2 ^ 96) (atMost : scale ≤ 28) :
    DecodedExactly log scale ⟨fromAddress, toAddress,
        ⟨⟨wordValue (stripHexPrefix log.data), scale⟩, bits, atMost⟩, log.address.map Char.toLower,
        log.transactionHash.map Char.toLower, (hexU64 log.logIndex).getD 0 % 2 ^ 32,
        (hexU64 log.blockNumber).getD 0⟩ ↔
      HasHex sender ∧ HasHex receiver ∧ ¬ SignedHex (stripHexPrefix log.data) ∧
        IsQuantity 64 log.blockNumber ∧ IsQuantity 32 log.logIndex := by
  constructor
  · intro decoded
    obtain ⟨_, _, _, isTopics', isSender, isReceiver⟩ := decoded.topics
    rw [isTopics] at isTopics'
    obtain ⟨rfl, rfl, rfl⟩ : _ ∧ _ ∧ _ := by simpa using isTopics'
    exact ⟨isSender.1.2, isReceiver.1.2, ((isWord_iff spells).mp decoded.amount.1).1,
      decoded.block.1, decoded.index.1⟩
  · rintro ⟨isSender, isReceiver, unsigned, isBlock, isIndex⟩
    have isWord : IsWord log.data := by
      refine (isWord_iff spells).mpr ⟨unsigned, ?_⟩
      rw [← byteLength_of_isHex (spells.2.1.resolve_right unsigned)]
      exact short
    refine
      { topics := ⟨_, _, _, isTopics, (isTopic_iff wholeSender).mpr isSender,
          (isTopic_iff wholeReceiver).mpr isReceiver⟩
        amount := ⟨isWord, ?_⟩
        block := ⟨isBlock, ?_⟩
        index := ⟨isIndex, hexU64_cut isIndex⟩ }
    · rw [← wordValue_of_isHex isWord.1.2]
      exact value_mul_pow _ _
    · rw [hexU64_of_isQuantity isBlock]
      rfl

/-- **A transfer is read exactly where its log can be.** -/
theorem transferExact_iff (log : Log) (decimals : Directory Text Nat) :
    TransferExact log decimals ↔ TransferReadable log decimals := by
  by_cases passes : ∃ topic0 sender receiver scale, log.topics = [topic0, sender, receiver] ∧
      sameHash topic0 transferTopic = true ∧
      decimals.lookup (log.address.map Char.toLower) = some scale
  · obtain ⟨topic0, sender, receiver, scale, isTopics, isTransfer, declared⟩ := passes
    have isRead := transfer_eq isTopics isTransfer declared
    have readable : TransferReadable log decimals ↔
        (byteLength (stripHexPrefix sender) = 64 → Sliceable sender ∧
          (byteLength (stripHexPrefix receiver) = 64 → Sliceable receiver ∧
            (Spells128 (stripHexPrefix log.data) ∧ byteLength (stripHexPrefix log.data) ≤ 64 →
              wordValue (stripHexPrefix log.data) < 2 ^ 96 ∧
                (scale ≤ 28 → HasHex sender ∧ HasHex receiver ∧
                  ¬ SignedHex (stripHexPrefix log.data) ∧
                  IsQuantity 64 log.blockNumber ∧ IsQuantity 32 log.logIndex)))) := by
      constructor
      · intro readable
        exact readable topic0 sender receiver scale isTopics isTransfer declared
      · intro readable _ _ _ _ isTopics' _ declared'
        rw [isTopics] at isTopics'
        rw [declared] at declared'
        obtain ⟨rfl, rfl, rfl⟩ : _ ∧ _ ∧ _ := by simpa using isTopics'
        obtain rfl := Option.some.inj declared'
        exact readable
    rw [readable]
    by_cases wholeSender : byteLength (stripHexPrefix sender) = 64
    swap
    · rw [topicAddress_of_short wholeSender, Attempt.error_andThen] at isRead
      exact iff_of_true (transferExact_of_refused isRead) fun whole => absurd whole wholeSender
    by_cases cutSender : Sliceable sender
    swap
    · rw [topicAddress_of_not_sliceable wholeSender cutSender, Attempt.panics_andThen] at isRead
      exact iff_of_false (not_transferExact_of_panics isRead) fun readable =>
        cutSender (readable wholeSender).1
    obtain ⟨fromAddress, isFrom⟩ := topicAddress_of_sliceable wholeSender cutSender 1
    rw [isFrom, Attempt.ok_andThen] at isRead
    by_cases wholeReceiver : byteLength (stripHexPrefix receiver) = 64
    swap
    · rw [topicAddress_of_short wholeReceiver, Attempt.error_andThen] at isRead
      exact iff_of_true (transferExact_of_refused isRead) fun _ =>
        ⟨cutSender, fun whole => absurd whole wholeReceiver⟩
    by_cases cutReceiver : Sliceable receiver
    swap
    · rw [topicAddress_of_not_sliceable wholeReceiver cutReceiver, Attempt.panics_andThen]
        at isRead
      exact iff_of_false (not_transferExact_of_panics isRead) fun readable =>
        cutReceiver ((readable wholeSender).2 wholeReceiver).1
    obtain ⟨toAddress, isTo⟩ := topicAddress_of_sliceable wholeReceiver cutReceiver 2
    rw [isTo, Attempt.ok_andThen] at isRead
    by_cases spells : Spells128 (stripHexPrefix log.data) ∧
        byteLength (stripHexPrefix log.data) ≤ 64
    swap
    · rw [scaled_of_unspelled spells, Attempt.error_andThen] at isRead
      exact iff_of_true (transferExact_of_refused isRead) fun _ =>
        ⟨cutSender, fun _ => ⟨cutReceiver, fun spelled => absurd spelled spells⟩⟩
    by_cases bits : wordValue (stripHexPrefix log.data) < 2 ^ 96
    swap
    · rw [scaled_of_wide spells.1 spells.2 (Nat.le_of_not_lt bits), Attempt.panics_andThen]
        at isRead
      exact iff_of_false (not_transferExact_of_panics isRead) fun readable =>
        bits (((readable wholeSender).2 wholeReceiver).2 spells).1
    by_cases atMost : scale ≤ 28
    swap
    · rw [scaled_of_beyond spells.1 spells.2 bits atMost, Attempt.error_andThen] at isRead
      exact iff_of_true (transferExact_of_refused isRead) fun _ =>
        ⟨cutSender, fun _ => ⟨cutReceiver, fun _ => ⟨bits, fun within => absurd within atMost⟩⟩⟩
    rw [scaled_of_fits spells.1 spells.2 bits atMost, Attempt.ok_andThen] at isRead
    rw [transferExact_of_accepted declared isRead,
      decodedExactly_iff isTopics wholeSender wholeReceiver spells.1 spells.2 bits atMost]
    constructor
    · intro wellFormed _
      exact ⟨cutSender, fun _ => ⟨cutReceiver, fun _ => ⟨bits, fun _ => wellFormed⟩⟩⟩
    · intro readable
      exact (((readable wholeSender).2 wholeReceiver).2 spells).2 atMost
  · obtain ⟨reason, refused⟩ := transfer_refused passes
    refine iff_of_true (transferExact_of_refused refused) ?_
    intro topic0 sender receiver scale isTopics isTransfer declared
    exact absurd ⟨topic0, sender, receiver, scale, isTopics, isTransfer, declared⟩ passes

theorem multiplier_of_unspelled {text : Text} (unspelled : ¬ Spells128 (stripHexPrefix text)) :
    multiplier (some text) = .returns none := by
  unfold multiplier
  by_cases nonempty : stripHexPrefix text = []
  · exact if_pos nonempty
  · simp only [if_neg nonempty, readWord_none nonempty unspelled]

/-- **A multiplier is read exactly where its answer can be.** -/
theorem multiplierExact_iff (returned : Option Text) :
    MultiplierExact returned ↔ MultiplierReadable returned := by
  cases returned with
  | none =>
      refine iff_of_true ?_ ?_
      · intro value accepted
        cases accepted
      · intro text isText
        cases isText
  | some text =>
      have readable : MultiplierReadable (some text) ↔ (Spells128 (stripHexPrefix text) →
          wordValue (stripHexPrefix text) < 2 ^ 96 ∧ ¬ SignedHex (stripHexPrefix text) ∧
            (stripHexPrefix text).length ≤ 64) :=
        ⟨fun readable => readable text rfl, fun readable _ isText => by cases isText; exact readable⟩
      rw [readable, MultiplierExact]
      by_cases spells : Spells128 (stripHexPrefix text)
      · rw [multiplier, if_neg spells.1, readWord_of_spells spells]
        simp only
        by_cases bits : wordValue (stripHexPrefix text) < 2 ^ 96
        · rw [fromU128_of_lt bits, Attempt.returns_bind, Attempt.satisfies_returns,
            Decimal.setScale, dif_pos (by decide)]
          constructor
          · intro exact _
            obtain ⟨_, isText, isWord, _⟩ := exact _ rfl
            obtain rfl := Option.some.inj isText
            exact ⟨bits, (isWord_iff spells).mp isWord⟩
          · intro plain value isValue
            obtain rfl := Option.some.inj isValue
            have isWord := (isWord_iff spells).mpr (plain spells).2
            refine ⟨text, rfl, isWord, ?_⟩
            rw [← wordValue_of_isHex isWord.1.2]
            exact value_mul_pow _ _
        · rw [fromU128_of_le (Nat.le_of_not_lt bits), Attempt.panics_bind,
            Attempt.satisfies_panics]
          exact iff_of_false id fun plain => bits (plain spells).1
      · rw [multiplier_of_unspelled spells, Attempt.satisfies_returns]
        refine iff_of_true ?_ fun spelled => absurd spelled spells
        intro value accepted
        cases accepted

/-- A contract's decimals are a word of thirty-two bits, where there is one. -/
theorem decimals_some (text : Text) : decimals (some text) =
    if stripHexPrefix text = [] then none else readWord 32 (stripHexPrefix text) := by
  unfold decimals readWord
  simp only
  by_cases nonempty : stripHexPrefix text = []
  · rw [nonempty]
    rfl
  · rw [if_neg nonempty]
    simp only [ne_eq, nonempty, not_false_eq_true, true_and]

/-- **Decimals are read exactly where their answer can be.** -/
theorem decimalsExact_iff (returned : Option Text) :
    DecimalsExact returned ↔ DecimalsReadable returned := by
  cases returned with
  | none =>
      refine iff_of_true ?_ ?_
      · intro value accepted
        cases accepted
      · intro text isText
        cases isText
  | some text =>
      rw [DecimalsExact, decimals_some]
      constructor
      · intro exact other isText spells bits
        obtain rfl := Option.some.inj isText
        rw [if_neg spells.1] at exact
        obtain ⟨_, isText', isWord, _⟩ :=
          exact _ (readWord_eq_some_iff.mpr ⟨spells.2.1, bits, rfl⟩)
        obtain rfl := Option.some.inj isText'
        exact (isWord_iff spells).mp isWord
      · intro readable value isValue
        split at isValue
        · cases isValue
        · rename_i nonempty
          obtain ⟨digits, bits, rfl⟩ := readWord_eq_some_iff.mp isValue
          have spells : Spells128 (stripHexPrefix text) :=
            ⟨nonempty, digits, Nat.lt_trans bits (Nat.pow_lt_pow_right (by omega) (by omega))⟩
          have isWord := (isWord_iff spells).mpr (readable text rfl spells bits)
          exact ⟨text, rfl, isWord, wordValue_of_isHex isWord.1.2⟩

/-- What a text of digits spells is worth what the digits are, wherever it is read. -/
theorem bigEndian_of_spells {text : Text} {bytes : List Nat} (spells : Spells text bytes)
    (hex : text.all isHex = true) (even : Even text.length) (from' count : Nat) :
    hexValue ((text.drop (2 * from')).take (2 * count)) =
      bigEndian ((bytes.drop from').take count) := by
  refine ((spells.drop from').take count).hexValueFrom_eq ?_ ?_ 0
  · rw [List.all_eq_true] at hex ⊢
    intro char isMember
    exact hex char (List.mem_of_mem_drop (List.mem_of_mem_take isMember))
  · rw [List.length_take, List.length_drop, spells.length_eq even, ← Nat.mul_sub,
      Nat.mul_min_mul_left]
    exact even_two_mul _

/-- What spells bytes for a length and more is a symbol's shape where its bytes are. -/
theorem isSymbol_iff {text : Text} {bytes : List Nat}
    (spells : Spells (stripHexPrefix text) bytes) :
    IsSymbol text ↔ '+' ∉ stripHexPrefix text ∧ Even (stripHexPrefix text).length ∧
      bigEndian (bytes.take 32) = 32 ∧
        64 + bigEndian ((bytes.drop 32).take 32) ≤ bytes.length := by
  have worth (hex : (stripHexPrefix text).all isHex = true)
      (even : Even (stripHexPrefix text).length) :
      hexValue ((stripHexPrefix text).take 64) = bigEndian (bytes.take 32) ∧
        hexValue (((stripHexPrefix text).drop 64).take 64) =
          bigEndian ((bytes.drop 32).take 32) :=
    ⟨bigEndian_of_spells spells hex even 0 32, bigEndian_of_spells spells hex even 32 32⟩
  constructor
  · rintro ⟨hex, even, offset, fits⟩
    obtain ⟨isOffset, isLength⟩ := worth hex even
    refine ⟨?_, even, isOffset.symm.trans offset, ?_⟩
    · intro plus
      have isHex := List.all_eq_true.mp hex '+' plus
      rw [isHex_plus] at isHex
      cases isHex
    · rw [← isLength]
      rw [spells.length_eq even] at fits
      omega
  · rintro ⟨plain, even, offset, fits⟩
    have hex := spells.all_isHex even plain
    obtain ⟨isOffset, isLength⟩ := worth hex even
    refine ⟨hex, even, isOffset.trans offset, ?_⟩
    rw [← isLength] at fits
    rw [spells.length_eq even]
    omega

/-- **A symbol is read exactly where its answer can be.** -/
theorem symbolExact_iff (returned : Option Text) :
    SymbolExact returned ↔ SymbolReadable returned := by
  cases returned with
  | none =>
      refine iff_of_true ?_ ?_
      · intro name accepted
        cases accepted
      · intro text isText
        cases isText
  | some text =>
      have readable : SymbolReadable (some text) ↔ (¬ CutsCharacter (stripHexPrefix text) ∧
          ∀ bytes, Spells (stripHexPrefix text) bytes →
            64 + bigEndian ((bytes.drop 60).take 4) ≤ bytes.length →
              '+' ∉ stripHexPrefix text ∧ Even (stripHexPrefix text).length ∧
                bigEndian (bytes.take 32) = 32 ∧
                  64 + bigEndian ((bytes.drop 32).take 32) ≤ bytes.length) :=
        ⟨fun readable => readable text rfl, fun readable _ isText => by cases isText; exact readable⟩
      rw [readable, SymbolExact, symbol]
      cases isRead : pairBytes (stripHexPrefix text) with
      | panics =>
          rw [Attempt.panics_bind, Attempt.satisfies_panics]
          exact iff_of_false id fun whole => whole.1 ((pairBytes_eq_panics_iff _).mp isRead)
      | returns read =>
          have whole : ¬ CutsCharacter (stripHexPrefix text) := by
            intro cuts
            rw [(pairBytes_eq_panics_iff _).mpr cuts] at isRead
            cases isRead
          rw [Attempt.returns_bind, Attempt.satisfies_returns]
          cases read with
          | none =>
              refine iff_of_true ?_ ⟨whole, ?_⟩
              · intro name accepted
                cases accepted
              · intro bytes spells
                rw [(pairBytes_eq_returns_iff _ _).mpr spells] at isRead
                cases isRead
          | some bytes =>
              have spells := (pairBytes_eq_returns_iff _ _).mp isRead
              have only (other : List Nat) (isOther : Spells (stripHexPrefix text) other) :
                  bytes = other := by
                rw [(pairBytes_eq_returns_iff _ _).mpr isOther] at isRead
                exact (Option.some.inj (Attempt.returns.inj isRead)).symm
              rw [Option.bind_some]
              by_cases holds : 64 + bigEndian ((bytes.drop 60).take 4) ≤ bytes.length
              · rw [if_neg (by omega)]
                simp only
                rw [if_neg (by omega)]
                constructor
                · intro exact
                  obtain ⟨_, isText, isSymbol⟩ := exact _ rfl
                  obtain rfl := Option.some.inj isText
                  refine ⟨whole, ?_⟩
                  intro other isOther _
                  obtain rfl := only other isOther
                  exact (isSymbol_iff spells).mp isSymbol
                · intro plain name _
                  exact ⟨text, rfl, (isSymbol_iff spells).mpr (plain.2 bytes spells holds)⟩
              · refine iff_of_true ?_ ⟨whole, ?_⟩
                · intro name accepted
                  split at accepted
                  · cases accepted
                  · simp only at accepted
                    rw [if_pos (by omega)] at accepted
                    cases accepted
                · intro other isOther holds'
                  obtain rfl := only other isOther
                  exact absurd holds' holds

/-- **The decoders, exactly.**  Each is total and exact just where what it reads is refused, or is
cut where it can be, within a decimal, without a sign and well formed. -/
theorem decoders_exact_iff (log : Log) (scales : Directory Text Nat) (returned : Option Text) :
    (TransferExact log scales ↔ TransferReadable log scales) ∧
      (MultiplierExact returned ↔ MultiplierReadable returned) ∧
      (DecimalsExact returned ↔ DecimalsReadable returned) ∧
      (SymbolExact returned ↔ SymbolReadable returned) :=
  ⟨transferExact_iff log scales, multiplierExact_iff returned, decimalsExact_iff returned,
    symbolExact_iff returned⟩

/-- A transfer between two addresses of a contract without decimals. -/
def exampleLog (data blockNumber logIndex : Text) : Log :=
  { address := zeroAddress
    topics := [transferTopic, List.replicate 64 '0', List.replicate 64 '1']
    data := data
    blockNumber := blockNumber
    transactionHash := []
    logIndex := logIndex }

/-- What has to hold of such a log for it to be read exactly. -/
theorem exampleLog_readable {data blockNumber logIndex : Text}
    (exact : TransferExact (exampleLog data blockNumber logIndex) (.ofList [(zeroAddress, 0)]))
    (spells : Spells128 (stripHexPrefix data)) (short : byteLength (stripHexPrefix data) ≤ 64) :
    wordValue (stripHexPrefix data) < 2 ^ 96 ∧ IsQuantity 64 blockNumber ∧
      IsQuantity 32 logIndex := by
  have declared : (Directory.ofList [(zeroAddress, 0)]).lookup (zeroAddress.map Char.toLower) =
      some 0 := by decide +kernel
  have readable := (transferExact_iff _ _).mp exact transferTopic (List.replicate 64 '0')
    (List.replicate 64 '1') 0 rfl (by decide +kernel) declared (by decide +kernel)
  have fits := (readable.2 (by decide +kernel)).2 ⟨spells, short⟩
  have wellFormed := fits.2 (Nat.zero_le 28)
  exact ⟨fits.1, wellFormed.2.2.2.1, wellFormed.2.2.2.2⟩

/-- **The decoders are inexact.**  An amount of 2 ^ 96 panics, a block and an index that do not
parse are zero, an index beyond thirty-two bits is cut, and a multiplier may have a sign. -/
theorem decoders_inexact :
    ¬ TransferExact (exampleLog ('1' :: List.replicate 24 '0') ['1'] ['1'])
        (.ofList [(zeroAddress, 0)]) ∧
      ¬ TransferExact (exampleLog ['1'] ['z'] ['1']) (.ofList [(zeroAddress, 0)]) ∧
      ¬ TransferExact (exampleLog ['1'] ['1'] "100000001".toList)
        (.ofList [(zeroAddress, 0)]) ∧
      ¬ MultiplierExact (some ['+', '1']) := by
  refine ⟨?_, ?_, ?_, ?_⟩
  · intro exact
    have fits := (exampleLog_readable exact (by unfold Spells128; decide +kernel)
      (by decide +kernel)).1
    exact absurd fits (by decide +kernel)
  · intro exact
    have isBlock := (exampleLog_readable exact (by unfold Spells128; decide +kernel)
      (by decide +kernel)).2.1
    exact absurd isBlock (by unfold IsQuantity; decide +kernel)
  · intro exact
    have isIndex := (exampleLog_readable exact (by unfold Spells128; decide +kernel)
      (by decide +kernel)).2.2
    exact absurd isIndex (by unfold IsQuantity; decide +kernel)
  · intro exact
    have unsigned := ((multiplierExact_iff _).mp exact _ rfl
      (by unfold Spells128; decide +kernel)).2.1
    exact unsigned (by decide +kernel)

end Chain
end Datawatch
