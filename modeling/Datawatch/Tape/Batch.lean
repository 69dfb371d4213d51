import Datawatch.Tape.Schema

/-!
# Projecting rows into a batch

Every dataset's columns are built from the rows of one group, and a number that would have
to be rounded refuses the whole batch.
-/

namespace Datawatch
namespace Tape

open Library Wire

/-- The scale every price and size is written at. -/
def priceScale : Nat := 18

/-- Why the tape refused. -/
inductive TapeError
  /-- The segment store refused. -/
  | segment
  | arrow (reason : Text)
  /-- A number does not fit `decimal(38,18)`. -/
  | precision (value : Text)
  | notProjected (kind : Kind)
deriving DecidableEq

/-- One row, and the archive position it came from. -/
structure Row where
  streamSeq : UInt64
  sourceRecvMicros : Int
  envelope : Envelope
deriving DecidableEq

/-- One value of a column. -/
inductive Cell
  | null
  | text (value : Text)
  | int (value : Int)
  | uint (value : Nat)
  | flag (value : Bool)
  | price (value : Int)
deriving DecidableEq

/-- The venue, or the empty string for a market-addressed event. -/
def venueOf (envelope : Envelope) : Text := (envelope.venue.map Token.text).getD []

/-- The ticker, or the empty string for an event that names none. -/
def tickerOf (envelope : Envelope) : Text := (envelope.ticker.map Token.text).getD []

/-- A number, at the scale the column holds: refused rather than rounded. -/
def scaled (value : Wire.Num) : Except TapeError Int :=
  if priceScale < value.scale then .error (.precision value.render)
  else
    let product := value.mantissa * 10 ^ (priceScale - value.scale)
    if -2 ^ 127 ≤ product ∧ product < 2 ^ 127 then .ok product
    else .error (.precision value.render)

/-- How a column is read off a row. -/
inductive Reader
  | dec (read : Envelope → Option Wire.Num)
  | text (read : Envelope → Option Text)
  | int (read : Envelope → Option Int)
  | u64s (read : Row → Nat)
  | u32s (read : Envelope → Option Nat)
  | flag (read : Envelope → Bool)

namespace Reader

/-- The cell a row gives a column, whether or not the column can hold it. -/
def value : Reader → Row → Cell
  | .dec read, row =>
      ((read row.envelope).map fun num =>
        Cell.price (num.mantissa * 10 ^ (priceScale - num.scale))).getD .null
  | .text read, row => ((read row.envelope).map Cell.text).getD .null
  | .int read, row => ((read row.envelope).map Cell.int).getD .null
  | .u64s read, row => .uint (read row)
  | .u32s read, row => ((read row.envelope).map Cell.uint).getD .null
  | .flag read, row => .flag (read row.envelope)

/-- The cell a row gives a column, or why it is refused. -/
def cell : Reader → Row → Except TapeError Cell
  | .dec read, row =>
      match read row.envelope with
      | some num => (scaled num).map Cell.price
      | none => .ok .null
  | reader, row => .ok (reader.value row)

/-- A column, in the order of its rows. -/
def column (reader : Reader) (rows : List Row) : Except TapeError (List Cell) :=
  rows.mapM reader.cell

end Reader

/-- The five every dataset carries. -/
def common : List Reader :=
  [.text fun envelope => some (venueOf envelope),
    .text fun envelope => envelope.ticker.map Token.text,
    .int fun envelope => envelope.atMicros,
    .int fun envelope => some envelope.recvMicros,
    .u64s fun row => row.streamSeq.toNat]

def trade (envelope : Envelope) : Option Trade :=
  match envelope.event with | .trade inner => some inner | _ => none

def candle (envelope : Envelope) : Option Candle :=
  match envelope.event with | .candle inner => some inner | _ => none

def funding (envelope : Envelope) : Option Funding :=
  match envelope.event with | .funding inner => some inner | _ => none

def quote (envelope : Envelope) : Option Quote :=
  match envelope.event with | .quote inner => some inner | _ => none

def transfer (envelope : Envelope) : Option Transfer :=
  match envelope.event with | .transfer inner => some inner | _ => none

def mint (envelope : Envelope) : Option Mint :=
  match envelope.event with | .mint inner => some inner | _ => none

def mark (envelope : Envelope) : Option Mark :=
  match envelope.event with | .mark inner => some inner | _ => none

def gap (envelope : Envelope) : Option Gap :=
  match envelope.event with | .gap inner => some inner | _ => none

def unparsed (envelope : Envelope) : Option Unparsed :=
  match envelope.event with | .unparsed inner => some inner | _ => none

def session (envelope : Envelope) : Option Session :=
  match envelope.event with | .session inner => some inner | _ => none

def instrument (envelope : Envelope) : Option Instrument :=
  match envelope.event with | .instrument inner => some inner | _ => none

def reorg (envelope : Envelope) : Option Reorg :=
  match envelope.event with | .reorg inner => some inner | _ => none

/-- The columns a dataset has besides the five, or `none` for one this build does not
project.  The book expands its rows first and has none here. -/
def extra : Kind → Option (List Reader)
  | .trades => some
      [.dec fun e => (trade e).map Trade.price,
        .dec fun e => (trade e).map Trade.size,
        .text fun e => (trade e).map fun t => t.aggressor.asStr,
        .text fun e => (trade e).bind Trade.tradeId]
  | .candles => some
      [.text fun e => (candle e).map Candle.interval,
        .dec fun e => (candle e).map Candle.openPx,
        .dec fun e => (candle e).map Candle.high,
        .dec fun e => (candle e).map Candle.low,
        .dec fun e => (candle e).map Candle.close,
        .dec fun e => (candle e).map Candle.volume,
        .u32s fun e => (candle e).bind Candle.tradeCount,
        .flag fun e => (candle e).any Candle.isFinal]
  | .funding => some
      [.dec fun e => (funding e).map Funding.rate,
        .int fun e => (funding e).bind Funding.nextMicros,
        .dec fun e => (funding e).bind Funding.premium]
  | .quotes => some
      [.dec fun e => (quote e).bind Quote.bidPx,
        .dec fun e => (quote e).bind Quote.askPx,
        .dec fun e => (quote e).bind Quote.bidSz,
        .dec fun e => (quote e).bind Quote.askSz,
        .dec fun e => (quote e).bind Quote.bidSpread,
        .dec fun e => (quote e).bind Quote.askSpread]
  | .transfers => some
      [.u64s fun r => ((transfer r.envelope).map Transfer.block).getD 0,
        .text fun e => (transfer e).map Transfer.fromAddress,
        .text fun e => (transfer e).map Transfer.toAddress,
        .dec fun e => (transfer e).map Transfer.amount,
        .text fun e => (transfer e).map Transfer.txHash,
        .u32s fun e => (transfer e).map Transfer.logIndex]
  | .mints => some
      [.u64s fun r => ((mint r.envelope).map Mint.block).getD 0,
        .text fun e => (mint e).map Mint.holder,
        .dec fun e => (mint e).map Mint.amount,
        .flag fun e => (mint e).any Mint.isIssue,
        .text fun e => (mint e).map Mint.txHash,
        .u32s fun e => (mint e).map Mint.logIndex]
  | .marks => some
      [.dec fun e => (mark e).bind Mark.mark,
        .dec fun e => (mark e).bind Mark.index,
        .dec fun e => (mark e).bind Mark.oracle,
        .dec fun e => (mark e).bind Mark.openInterest,
        .dec fun e => (mark e).bind Mark.mid,
        .dec fun e => (mark e).bind Mark.premium]
  | .gaps => some
      [.text fun e => (gap e).map fun g => g.series.asStr,
        .int fun e => (gap e).map Gap.fromMicros,
        .int fun e => (gap e).map Gap.toMicros,
        .text fun e => (gap e).map fun g => g.cause.asStr,
        .text fun e => (gap e).map fun g => g.clipped.asStr]
  | .unparsed => some
      [.text fun e => (unparsed e).map Unparsed.channel,
        .u64s fun r => ((unparsed r.envelope).map Unparsed.archiveSeq).getD 0,
        .text fun e => (unparsed e).map Unparsed.error]
  | .sessions => some
      [.int fun e => (session e).map Session.sessionStart,
        .int fun e => (session e).map Session.sessionEnd,
        .text fun e => (session e).map fun s => s.sessionKind.asStr,
        .text fun e => (session e).map Session.tz,
        .text fun e => (session e).map Session.source,
        .int fun e => (session e).map Session.observedAt]
  | .instruments => some
      [.dec fun e => (instrument e).map Instrument.tickSize,
        .dec fun e => (instrument e).map Instrument.lotSize,
        .dec fun e => (instrument e).map Instrument.minSize,
        .text fun e => (instrument e).map Instrument.contractType,
        .text fun e => (instrument e).map Instrument.base,
        .text fun e => (instrument e).map Instrument.quote,
        .text fun e => (instrument e).map Instrument.hours,
        .flag fun e => (instrument e).any Instrument.active,
        .u32s fun e => (instrument e).bind Instrument.venueIndex,
        .dec fun e => (instrument e).bind Instrument.uiMultiplier,
        .int fun e => (instrument e).map Instrument.observedAt]
  | .reorgs => some
      [.u64s fun r => ((reorg r.envelope).map Reorg.fromBlock).getD 0,
        .u64s fun r => ((reorg r.envelope).map Reorg.toBlock).getD 0,
        .text fun e => (reorg e).map Reorg.oldHash,
        .text fun e => (reorg e).map Reorg.newHash]
  | _ => none

/-- A batch: one schema, and one column for each of its fields. -/
structure RecordBatch where
  fields : List Field
  columns : List (List Cell)
deriving DecidableEq

/-- The length of the first column, which every column has. -/
def RecordBatch.numRows (batch : RecordBatch) : Nat := (batch.columns.head?.map List.length).getD 0

/-- The rows of a batch, each a cell for every column. -/
def RecordBatch.rows (batch : RecordBatch) : List (List Cell) :=
  (List.range batch.numRows).map fun index =>
    batch.columns.map fun column => column.getD index .null

/-- A null in a column that is not nullable. -/
def nullRefused (field : Field × List Cell) : Bool := !field.1.nullable && field.2.contains .null

/-- A batch of a dataset, refused where a column that is not nullable holds a null. -/
def tryNew (kind : Kind) (columns : List (List Cell)) : Except TapeError RecordBatch :=
  match schemaFor kind with
  | none => .error (.notProjected kind)
  | some fields =>
      match (fields.zip columns).find? nullRefused with
      | some (field, _) => .error (.arrow ("Column '".toList ++ field.name ++
          "' is declared as non-nullable but contains null values".toList))
      | none => .ok ⟨fields, columns⟩

/-- One price level of a book, with the row it came from. -/
structure Level where
  row : Row
  updateSeq : Int
  isSnapshot : Bool
  level : BookLevel

/-- The levels of a row's book. -/
def levelsOf (row : Row) : List Level :=
  match row.envelope.event with
  | .book book => book.levels.map fun level => ⟨row, book.updateSeq, book.isSnapshot, level⟩
  | _ => []

/-- The price and the size of a level, whichever is refused first. -/
def Level.figures (level : Level) : Except TapeError (Int × Int) :=
  (scaled level.level.price).bind fun price =>
    (scaled level.level.size).map fun size => (price, size)

/-- The book, expanded: one row for each price level touched. -/
def bookBatch (rows : List Row) : Except TapeError RecordBatch :=
  let levels := rows.flatMap levelsOf
  (common.mapM fun reader : Reader => reader.column (levels.map Level.row)).bind fun columns =>
    (levels.mapM Level.figures).bind fun figures =>
      tryNew .book (columns ++
        [levels.map fun level => .int level.updateSeq,
          levels.map fun level => .flag level.isSnapshot,
          levels.map fun level => .text level.level.side.asStr,
          figures.map fun figure => .price figure.1,
          figures.map fun figure => .price figure.2,
          levels.map fun level => (level.level.level.map Cell.uint).getD .null])

/-- The batch for one dataset. -/
def batchFor (kind : Kind) (rows : List Row) : Except TapeError RecordBatch :=
  if kind = .book then bookBatch rows
  else
    match extra kind with
    | none => .error (.notProjected kind)
    | some readers =>
        ((common ++ readers).mapM fun reader : Reader => reader.column rows).bind (tryNew kind)

/-- The cells a book's level is written as. -/
def Level.cells (level : Level) : List Cell :=
  (common.map fun reader => reader.value level.row) ++
    [.int level.updateSeq, .flag level.isSnapshot, .text level.level.side.asStr,
      .price (level.level.price.mantissa * 10 ^ (priceScale - level.level.price.scale)),
      .price (level.level.size.mantissa * 10 ^ (priceScale - level.level.size.scale)),
      (level.level.level.map Cell.uint).getD .null]

/-- The tape rows a row is projected into: one for each level of a book, one for any other
event of a projected dataset. -/
def Row.cells (row : Row) : List (List Cell) :=
  if row.envelope.kind = .book then (levelsOf row).map Level.cells
  else
    match extra row.envelope.kind with
    | none => []
    | some readers => [(common ++ readers).map fun reader => reader.value row]

theorem scaled_eq_of_ok {num : Wire.Num} {value : Int} (accepted : scaled num = .ok value) :
    value = num.mantissa * 10 ^ (priceScale - num.scale) := by
  unfold scaled at accepted
  split at accepted
  · cases accepted
  · dsimp only at accepted
    split at accepted
    · exact (Except.ok.inj accepted).symm
    · cases accepted

theorem Reader.cell_eq_value {reader : Reader} {row : Row} {cell : Cell}
    (accepted : reader.cell row = .ok cell) : cell = reader.value row := by
  cases reader with
  | dec read =>
      simp only [Reader.cell] at accepted
      cases figure : read row.envelope with
      | none =>
          rw [figure] at accepted
          simp [Reader.value, figure, ← Except.ok.inj accepted]
      | some num =>
          rw [figure] at accepted
          cases number : scaled num with
          | error reason => simp [number, Except.map] at accepted
          | ok value =>
              simp only [number, Except.map, Except.ok.injEq] at accepted
              simp [Reader.value, figure, ← accepted, scaled_eq_of_ok number]
  | text read | int read | u64s read | u32s read | flag read =>
      exact (Except.ok.inj accepted).symm

/-- A list read without a refusal is its reading, one by one. -/
theorem map_eq_of_mapM_ok {α β : Type} {read : α → Except TapeError β} {value : α → β}
    (agrees : ∀ item made, read item = .ok made → made = value item)
    {items : List α} {made : List β} (accepted : items.mapM read = .ok made) :
    made = items.map value := by
  induction items generalizing made with
  | nil =>
      rw [List.mapM_nil] at accepted
      exact (Except.ok.inj accepted).symm
  | cons item items inductionHypothesis =>
      rw [List.mapM_cons] at accepted
      cases first : read item with
      | error reason => simp [first, bind, Except.bind] at accepted
      | ok head =>
          cases rest : items.mapM read with
          | error reason => simp [first, rest, bind, Except.bind] at accepted
          | ok tail =>
              simp only [first, rest, bind, Except.bind, pure, Except.pure,
                Except.ok.injEq] at accepted
              rw [← accepted, agrees item head first, inductionHypothesis rest, List.map_cons]

/-- Columns read one by one from a list of items hold a row for each of them. -/
theorem rows_of_columns {α : Type} {fields : List Field} {values : List (α → Cell)}
    (nonempty : values ≠ []) (items : List α) :
    (RecordBatch.mk fields (values.map fun value => items.map value)).rows =
      items.map fun item => values.map fun value => value item := by
  have numRows : (RecordBatch.mk fields (values.map fun value => items.map value)).numRows =
      items.length := by
    obtain ⟨first, rest, rfl⟩ := List.exists_cons_of_ne_nil nonempty
    simp [RecordBatch.numRows]
  rw [RecordBatch.rows, numRows]
  refine List.ext_getElem (by simp) fun index _ inItems => ?_
  simp only [List.length_map] at inItems
  simp [List.getElem?_eq_getElem inItems]

theorem eq_of_tryNew_ok {kind : Kind} {columns : List (List Cell)} {batch : RecordBatch}
    (made : tryNew kind columns = .ok batch) : batch.columns = columns := by
  unfold tryNew at made
  split at made
  · cases made
  · split at made
    · cases made
    · rw [← Except.ok.inj made]

/-- The columns of readers hold each row's cells. -/
theorem eq_of_mapM_column_ok {readers : List Reader} {rows : List Row}
    {columns : List (List Cell)}
    (accepted : (readers.mapM fun reader : Reader => reader.column rows) = .ok columns) :
    columns = readers.map fun reader => rows.map reader.value :=
  map_eq_of_mapM_ok (fun _ _ made => map_eq_of_mapM_ok
    (fun _ _ => Reader.cell_eq_value) made) accepted

theorem Level.figures_eq {level : Level} {figure : Int × Int}
    (accepted : level.figures = .ok figure) :
    figure = (level.level.price.mantissa * 10 ^ (priceScale - level.level.price.scale),
      level.level.size.mantissa * 10 ^ (priceScale - level.level.size.scale)) := by
  unfold Level.figures at accepted
  cases price : scaled level.level.price with
  | error reason => simp [price, Except.bind] at accepted
  | ok priceValue =>
      cases size : scaled level.level.size with
      | error reason => simp [price, size, Except.bind, Except.map] at accepted
      | ok sizeValue =>
          simp only [price, size, Except.bind, Except.map, Except.ok.injEq] at accepted
          rw [← accepted, scaled_eq_of_ok price, scaled_eq_of_ok size]

/-- A book's batch holds a row for each level. -/
theorem rows_bookBatch {rows : List Row} {batch : RecordBatch}
    (made : bookBatch rows = .ok batch) :
    batch.rows = (rows.flatMap levelsOf).map Level.cells := by
  unfold bookBatch at made
  dsimp only at made
  cases commonRead : common.mapM fun reader : Reader =>
      reader.column ((rows.flatMap levelsOf).map Level.row) with
  | error reason => simp [commonRead, Except.bind] at made
  | ok columns =>
      cases figuresRead : (rows.flatMap levelsOf).mapM Level.figures with
      | error reason => simp [commonRead, figuresRead, Except.bind] at made
      | ok figures =>
          simp only [commonRead, figuresRead, Except.bind] at made
          have commonColumns := eq_of_mapM_column_ok commonRead
          have figureColumns := map_eq_of_mapM_ok (fun _ _ => Level.figures_eq) figuresRead
          obtain ⟨fields, made⟩ : ∃ fields, batch = ⟨fields, _⟩ :=
            ⟨batch.fields, congrArg (RecordBatch.mk batch.fields) (eq_of_tryNew_ok made)⟩
          rw [made, commonColumns, figureColumns]
          let cells : List (Level → Cell) :=
            (common.map fun reader level => reader.value level.row) ++
              [fun level => .int level.updateSeq, fun level => .flag level.isSnapshot,
                fun level => .text level.level.side.asStr,
                fun level => .price
                  (level.level.price.mantissa * 10 ^ (priceScale - level.level.price.scale)),
                fun level => .price
                  (level.level.size.mantissa * 10 ^ (priceScale - level.level.size.scale)),
                fun level => (level.level.level.map Cell.uint).getD .null]
          have byLevel := @rows_of_columns _ fields cells (by simp [cells])
            (rows.flatMap levelsOf)
          have isCells : Level.cells = fun level => cells.map fun value => value level := by
            funext level
            simp [cells, Level.cells]
          rw [isCells, ← byLevel]
          simp [cells, Function.comp_def]

/-- **A batch holds exactly the tape rows its rows are projected into, in their order.** -/
theorem rows_batchFor {kind : Kind} {rows : List Row} {batch : RecordBatch}
    (ofKind : ∀ row ∈ rows, row.envelope.kind = kind) (made : batchFor kind rows = .ok batch) :
    batch.rows = rows.flatMap Row.cells := by
  unfold batchFor at made
  split at made
  · rename_i isBook
    subst isBook
    rw [rows_bookBatch made, List.map_flatMap]
    refine List.flatMap_congr fun row member => ?_
    rw [Row.cells, if_pos (ofKind row member)]
  · rename_i notBook
    cases readers : extra kind with
    | none => simp [readers] at made
    | some readers' =>
        simp only [readers] at made
        cases read : (common ++ readers').mapM fun reader : Reader => reader.column rows with
        | error reason => simp [read, Except.bind] at made
        | ok columns =>
            simp only [read, Except.bind] at made
            have isColumns := eq_of_mapM_column_ok read
            obtain ⟨fields, made⟩ : ∃ fields, batch = ⟨fields, columns⟩ :=
              ⟨batch.fields, congrArg (RecordBatch.mk batch.fields) (eq_of_tryNew_ok made)⟩
            have byRow := @rows_of_columns _ fields ((common ++ readers').map Reader.value)
              (by simp [common]) rows
            rw [List.map_map] at byRow
            rw [made, isColumns]
            refine byRow.trans ?_
            rw [List.map_eq_flatMap]
            refine List.flatMap_congr fun row member => ?_
            rw [Row.cells, ofKind row member, if_neg notBook, readers, List.map_map]
            rfl

end Tape
end Datawatch
