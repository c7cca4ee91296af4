import Hyphae.Lib.Bytes
import Hyphae.Lib.Effect

/-!
# Row tuples

A typed row is one self-delimiting byte string: a header with the total length and the
column count, one null bit for every column, the offsets of the columns and their end,
and the encoded columns. A view is what the decoder has validated.
-/

namespace Hyphae.Records

open Lib

/-- Why a row representation is refused. -/
inductive RecordError
  | truncated
  | invalidTupleHeader
  | lengthMismatch
  | lengthOverflow
  | emptyRegularRow
  | columnCountOverflow
  | noncanonicalNullBitmap
  | invalidOffsets
  | nullHasBytes
  deriving DecidableEq, Repr

def rowTupleHeaderSize : Nat := 16

/-- `HYTUPL01`. -/
def rowTupleMagic : Bytes := [0x48, 0x59, 0x54, 0x55, 0x50, 0x4c, 0x30, 0x31]

def nullBitmapLength (columnCount : Nat) : Nat := (columnCount + 7) / 8

/-! ## The encoder -/

/-- The null bits of eight columns, the first one lowest. -/
def nullByte : List (Option Bytes) → Nat
  | [] => 0
  | value :: values => (if value.isNone then 1 else 0) + 2 * nullByte values

/-- The bitmap of a row: eight columns a byte. -/
def nullBitmap (values : List (Option Bytes)) : Bytes :=
  (List.range (nullBitmapLength values.length)).map fun index =>
    UInt8.ofNat (nullByte ((values.drop (8 * index)).take 8))

/-- Where each column starts, and where the last one ends. -/
def columnOffsets (start : Nat) : List (Option Bytes) → List Nat
  | [] => [start]
  | value :: values => start :: columnOffsets (start + (value.getD []).length) values

/-- `RowTuple::new` and its `encode`. -/
def encodeRowTuple (values : List (Option Bytes)) : Except RecordError Bytes := do
  .failIf (values = []) .emptyRegularRow
  .failIf (2 ^ 16 ≤ values.length) .columnCountOverflow
  let valueStart := rowTupleHeaderSize + nullBitmapLength values.length + 4 * (values.length + 1)
  let payload := (values.map fun value => value.getD []).flatten
  .failIf (2 ^ 32 ≤ valueStart + payload.length) .lengthOverflow
  .ok (rowTupleMagic ++ leBytes 4 (valueStart + payload.length) ++ leBytes 2 values.length ++ [0, 0] ++
    nullBitmap values ++ (columnOffsets valueStart values).flatMap (leBytes 4) ++ payload)

/-! ## The decoder -/

structure RowTupleView where
  encoded : Bytes
  columnCount : Nat
  offsetsStart : Nat

/-- The null bit of a column. -/
def isNullColumn (encoded : Bytes) (column : Nat) : Bool :=
  (encoded.getD (rowTupleHeaderSize + column / 8) 0).toNat.testBit (column % 8)

def readU32 (encoded : Bytes) (start : Nat) : Nat := ofLe (slice encoded start (start + 4))

/-- The offsets in turn, each against the one before it. -/
def validateOffsets (encoded : Bytes) (valueStart offsetsStart : Nat) (previous : Nat) :
    List Nat → Except RecordError Nat
  | [] => .ok previous
  | column :: columns => do
    let offset := readU32 encoded (offsetsStart + 4 * (column + 1))
    .failIf (offset < valueStart ∨ encoded.length < offset) .invalidOffsets
    .failIf (offset < previous) .invalidOffsets
    .failIf (isNullColumn encoded column = true ∧ previous ≠ offset) .nullHasBytes
    validateOffsets encoded valueStart offsetsStart offset columns

def validateLayout (encoded : Bytes) (columnCount : Nat) : Except RecordError Nat := do
  let nullBytes := nullBitmapLength columnCount
  let offsetsStart := rowTupleHeaderSize + nullBytes
  let valueStart := offsetsStart + 4 * (columnCount + 1)
  .failIf (encoded.length < valueStart) .truncated
  .failIf (columnCount % 8 ≠ 0 ∧
    2 ^ (columnCount % 8) ≤ (encoded.getD (rowTupleHeaderSize + nullBytes - 1) 0).toNat) .noncanonicalNullBitmap
  .failIf (readU32 encoded offsetsStart ≠ valueStart) .invalidOffsets
  let stop ← validateOffsets encoded valueStart offsetsStart valueStart (List.range columnCount)
  .failIf (stop ≠ encoded.length) .invalidOffsets
  .ok offsetsStart

namespace RowTupleView

def decode (encoded : Bytes) : Except RecordError RowTupleView := do
  .failIf (encoded.length < rowTupleHeaderSize) .truncated
  .failIf (encoded.take 8 ≠ rowTupleMagic ∨ slice encoded 14 16 ≠ [0, 0]) .invalidTupleHeader
  .failIf (readU32 encoded 8 ≠ encoded.length) .lengthMismatch
  let columnCount := ofLe (slice encoded 12 14)
  .failIf (columnCount = 0) .emptyRegularRow
  let offsetsStart ← validateLayout encoded columnCount
  .ok { encoded, columnCount, offsetsStart }

/-- A column: its bytes, or null. -/
def value (view : RowTupleView) (index : Nat) : Option (Option Bytes) :=
  if view.columnCount ≤ index then none
  else if isNullColumn view.encoded index then some none
  else
    let start := readU32 view.encoded (view.offsetsStart + 4 * index)
    let stop := readU32 view.encoded (view.offsetsStart + 4 * (index + 1))
    if start ≤ stop ∧ stop ≤ view.encoded.length then some (some (slice view.encoded start stop)) else none

end RowTupleView

end Hyphae.Records
