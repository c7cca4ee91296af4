import Hyphae.Lib.Ascending
import Hyphae.Lib.Checked
import Hyphae.Pages.Pool

/-!
# Nodes of the copy-on-write B+tree

A node is a leaf of key/value entries or an internal node of separators and child
pages, stored as the payload of one page.
-/

namespace Hyphae

open Lib

/-- Canonical binary key/value pair: a leaf entry, and what a scan returns. -/
abbrev KeyValue := Bytes × Bytes

/-- B+tree codec, storage, or semantic failure. -/
inductive BTreeError
  | store (error : PageStoreError)
  | bufferPool (error : BufferPoolError)
  | wrongPageKind
  | invalidLength
  | invalidPreamble
  | invalidCount
  | noncanonicalKeyOrder
  | invalidSeparator
  | zeroChild
  | lengthOverflow
  | keyTooLarge
  | entryTooLarge
  | noValidSplit
  | duplicateKey
  | heightExceeded
  | cycle
  | unbalanced
  | futurePage
  | foreignSegment
  deriving DecidableEq, Repr

/-- An operation on nodes or trees that may fail. -/
abbrev TreeM := Except BTreeError

namespace BTree

def leafMagic : Bytes := [72, 89, 66, 84, 76, 70, 48, 49]

def internalMagic : Bytes := [72, 89, 66, 84, 73, 78, 48, 49]

def formatVersion : Nat := 1

def leafHeaderSize : Nat := 16

def internalHeaderSize : Nat := 24

/-- Maximum canonical inline key size. -/
def maxKeySize : Nat := 4096

/-- One tree node. -/
inductive Node
  | leaf (entries : List KeyValue)
  | internal (keys : List Bytes) (children : List PageId)
  deriving DecidableEq

def Node.pageKind : Node → PageKind
  | .leaf _ => .bTreeLeaf
  | .internal _ _ => .bTreeInternal

/-! ## Encoded lengths -/

/-- `u32::try_from` on a length. -/
def checkU32 (length : Nat) : TreeM Unit := .failIf (2 ^ 32 ≤ length) .lengthOverflow

def leafEntryEncodedLength (entry : KeyValue) : TreeM Nat := do
  checkU32 entry.1.length
  checkU32 entry.2.length
  .okOr (do checkedAdd (← checkedAdd 8 entry.1.length) entry.2.length) .lengthOverflow

def leafEncodedLength (entries : List KeyValue) : TreeM Nat :=
  entries.foldlM (fun total entry => do
    checkU32 entry.1.length
    checkU32 entry.2.length
    .okOr (do checkedAdd (← checkedAdd (← checkedAdd total 8) entry.1.length) entry.2.length)
      .lengthOverflow) leafHeaderSize

def internalSeparatorEncodedLength (key : Bytes) : TreeM Nat := do
  checkU32 key.length
  .okOr (checkedAdd 12 key.length) .lengthOverflow

def internalEncodedLength (keys : List Bytes) : TreeM Nat :=
  keys.foldlM (fun total key => do
    checkU32 key.length
    .okOr (do checkedAdd (← checkedAdd total 12) key.length) .lengthOverflow) internalHeaderSize

/-! ## Shape checks -/

def validateLeafEntries (entries : List KeyValue) : TreeM Unit := do
  .failIf (entries = []) .invalidCount
  .failIf (¬KeyAscending entries) .noncanonicalKeyOrder
  entries.forM fun entry => do
    .failIf (maxKeySize < entry.1.length) .keyTooLarge
    checkU32 entry.1.length
    checkU32 entry.2.length

def validateInternalShape (keys : List Bytes) (children : List PageId) : TreeM Unit := do
  .failIf (keys = [] ∨ children.length ≠ keys.length + 1) .invalidCount
  .failIf (¬Ascending keys) .noncanonicalKeyOrder
  keys.forM fun key => do
    .failIf (maxKeySize < key.length) .keyTooLarge
    checkU32 key.length

/-! ## Encoding -/

def putLength (length : Nat) : TreeM Bytes := do
  checkU32 length
  return leBytes 4 length

def encodeLeafEntry (entry : KeyValue) : TreeM Bytes := do
  let keyLength ← putLength entry.1.length
  let valueLength ← putLength entry.2.length
  return keyLength ++ valueLength ++ entry.1 ++ entry.2

def encodeLeaf (entries : List KeyValue) : TreeM Bytes := do
  validateLeafEntries entries
  let total ← leafEncodedLength entries
  .failIf (pagePayloadSize < total) .noValidSplit
  .failIf (2 ^ 16 ≤ entries.length) .invalidCount
  let body ← entries.mapM encodeLeafEntry
  return leafMagic ++ leBytes 2 formatVersion ++ leBytes 2 entries.length ++ leBytes 4 0 ++ body.flatten

def encodeSeparator (separator : Bytes × PageId) : TreeM Bytes := do
  let keyLength ← putLength separator.1.length
  return keyLength ++ separator.1 ++ leBytes 8 separator.2.get

def encodeInternal (keys : List Bytes) (children : List PageId) : TreeM Bytes := do
  validateInternalShape keys children
  let total ← internalEncodedLength keys
  .failIf (pagePayloadSize < total) .noValidSplit
  .failIf (2 ^ 16 ≤ keys.length) .invalidCount
  let firstChild ← .okOr children.head? .invalidCount
  let body ← (keys.zip children.tail).mapM encodeSeparator
  return internalMagic ++ leBytes 2 formatVersion ++ leBytes 2 keys.length ++ leBytes 4 0 ++
    leBytes 8 firstChild.get ++ body.flatten

def Node.encode : Node → TreeM Bytes
  | .leaf entries => encodeLeaf entries
  | .internal keys children => encodeInternal keys children

/-! ## Decoding

A cursor is the part of the payload still to be read. -/

def cursorTake (length : Nat) (cursor : Bytes) : TreeM (Bytes × Bytes) := do
  .failIf (cursor.length < length) .invalidLength
  return (cursor.take length, cursor.drop length)

def cursorLength (cursor : Bytes) : TreeM (Nat × Bytes) := do
  let (bytes, cursor) ← cursorTake 4 cursor
  return (ofLe bytes, cursor)

def cursorU64 (cursor : Bytes) : TreeM (Nat × Bytes) := do
  let (bytes, cursor) ← cursorTake 8 cursor
  return (ofLe bytes, cursor)

def cursorFinish (cursor : Bytes) : TreeM Unit := .failIf (cursor ≠ []) .invalidLength

/-- The preamble every node decoder checks; the entry count on success. -/
def decodePreamble (magic : Bytes) (headerSize : Nat) (payload : Bytes) : TreeM Nat := do
  .failIf (payload.length < headerSize) .invalidLength
  .failIf (slice payload 0 8 ≠ magic ∨ ofLe (slice payload 8 10) ≠ formatVersion ∨
    slice payload 12 16 ≠ [0, 0, 0, 0]) .invalidPreamble
  return ofLe (slice payload 10 12)

def decodeLeafEntries : Nat → Bytes → TreeM (List KeyValue × Bytes)
  | 0, cursor => return ([], cursor)
  | count + 1, cursor => do
    let (keyLength, cursor) ← cursorLength cursor
    let (valueLength, cursor) ← cursorLength cursor
    let (key, cursor) ← cursorTake keyLength cursor
    let (value, cursor) ← cursorTake valueLength cursor
    let (entries, cursor) ← decodeLeafEntries count cursor
    return ((key, value) :: entries, cursor)

def decodeLeaf (payload : Bytes) : TreeM Node := do
  let count ← decodePreamble leafMagic leafHeaderSize payload
  .failIf (count = 0 ∨ (payload.length - leafHeaderSize) / 8 < count) .invalidCount
  let (entries, cursor) ← decodeLeafEntries count (payload.drop leafHeaderSize)
  cursorFinish cursor
  validateLeafEntries entries
  return .leaf entries

def decodeSeparators : Nat → Bytes → TreeM (List (Bytes × PageId) × Bytes)
  | 0, cursor => return ([], cursor)
  | count + 1, cursor => do
    let (keyLength, cursor) ← cursorLength cursor
    let (key, cursor) ← cursorTake keyLength cursor
    let (child, cursor) ← cursorU64 cursor
    let child ← .okOr (NonZeroUInt.new 64 child) .zeroChild
    let (separators, cursor) ← decodeSeparators count cursor
    return ((key, child) :: separators, cursor)

def decodeInternal (payload : Bytes) : TreeM Node := do
  let count ← decodePreamble internalMagic internalHeaderSize payload
  .failIf (count = 0 ∨ (payload.length - internalHeaderSize) / 12 + 1 < count) .invalidCount
  let firstChild ← .okOr (NonZeroUInt.new 64 (ofLe (slice payload 16 24))) .zeroChild
  let (separators, cursor) ← decodeSeparators count (payload.drop internalHeaderSize)
  cursorFinish cursor
  let keys := separators.map Prod.fst
  let children := firstChild :: separators.map Prod.snd
  validateInternalShape keys children
  return .internal keys children

def decodePage (page : Page) : TreeM Node :=
  match page.kind with
  | .bTreeLeaf => decodeLeaf page.payload
  | .bTreeInternal => decodeInternal page.payload
  | _ => .error .wrongPageKind

end BTree

end Hyphae
