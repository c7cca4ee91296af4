import Hyphae.Types.Ordered

/-!
# The row-storage codec

The bytes of a non-null scalar in a row: fixed-width numbers little-endian, text and
binary as they are, arrays and maps as a count followed by length-framed payloads
with a byte in front of each element that says whether it is null. The keys of a map
stand in the order of their ordered components.
-/

namespace Hyphae.Types

open Lib

/-! ## JSON -/

/-- A JSON number as the parser classifies it. -/
inductive JsonNumber
  | posInt (value : BitVec 64)
  | negInt (value : BitVec 64)
  | float (bits : BitVec 64)

/-- A parsed JSON document. -/
inductive JsonValue
  | null
  | bool (value : Bool)
  | number (value : JsonNumber)
  | string (value : Bytes)
  | array (values : List JsonValue)
  | object (entries : List (Bytes × JsonValue))

/-- The third-party JSON parser and printers the canonical form is built on. -/
structure JsonLibrary where
  fromStr : Bytes → Option JsonValue
  quote : Bytes → Option Bytes
  formatFloat : BitVec 64 → Bytes

def formatInteger (value : Int) : Bytes := (toString value).toUTF8.toList

def isFinite (bits : BitVec 64) : Prop := FloatFormat.magnitude bits < FloatFormat.binary64.infinity.toNat

instance (bits : BitVec 64) : Decidable (isFinite bits) := inferInstanceAs (Decidable (_ < _))

/-- Join texts with a comma. -/
def joinComma : List Bytes → Bytes
  | [] => []
  | [text] => text
  | text :: texts => text ++ [44] ++ joinComma texts

section Json

variable (json : JsonLibrary)

def canonicalizeNumber : JsonNumber → Checked Bytes
  | .posInt value => .ok (formatInteger value.toNat)
  | .negInt value => .ok (formatInteger value.toInt)
  | .float bits => do
    .failIf (¬isFinite bits) .invalidScalarEncoding
    let encoded := json.formatFloat bits
    -- the text "-0" becomes "0"
    .ok (if encoded = [45, 48] then [48] else encoded)

mutual

def canonicalizeJsonValue : JsonValue → Checked Bytes
  | .null => .ok [110, 117, 108, 108]
  | .bool value => .ok (if value then [116, 114, 117, 101] else [102, 97, 108, 115, 101])
  | .number value => canonicalizeNumber json value
  | .string value => .okOr (json.quote value) .invalidScalarEncoding
  | .array values => do
    let texts ← canonicalizeJsonValues values
    .ok ([91] ++ joinComma texts ++ [93])
  | .object entries => do
    let texts ← canonicalizeJsonEntries entries
    .ok ([123] ++ joinComma texts ++ [125])

def canonicalizeJsonValues : List JsonValue → Checked (List Bytes)
  | [] => .ok []
  | value :: values => do
    let text ← canonicalizeJsonValue value
    let texts ← canonicalizeJsonValues values
    .ok (text :: texts)

def canonicalizeJsonEntries : List (Bytes × JsonValue) → Checked (List Bytes)
  | [] => .ok []
  | (key, value) :: entries => do
    let quoted ← .okOr (json.quote key) .invalidScalarEncoding
    let text ← canonicalizeJsonValue value
    let texts ← canonicalizeJsonEntries entries
    .ok ((quoted ++ [58] ++ text) :: texts)

end

def canonicalJsonBytes (value : Text) : Checked Bytes := do
  ensureScalarLength value.bytes.length
  let parsed ← .okOr (json.fromStr value.bytes) .invalidScalarEncoding
  let canonical ← canonicalizeJsonValue json parsed
  .failIf (canonical ≠ value.bytes) .invalidScalarEncoding
  .ok value.bytes

def decodeCanonicalJson (encoded : Bytes) : Checked Text := do
  ensureScalarLength encoded.length
  let value ← Text.fromUtf8 encoded
  let _ ← canonicalJsonBytes json value
  .ok value

end Json

/-! ## Integers and vectors -/

def encodeSignedStorage (value : BitVec 64) (width : IntegerWidth) : Checked Bytes := do
  .failIf (¬width.fitsSigned value) .scalarOutOfRange
  .ok (leBytes width.bytes value.toNat)

def decodeSignedStorage (encoded : Bytes) (width : IntegerWidth) : Checked (BitVec 64) := do
  let bytes ← exactScalarBytes width.bytes encoded
  .ok (signExtended width.bytes (ofLe bytes))

def encodeUnsignedStorage (value : BitVec 64) (width : IntegerWidth) : Checked Bytes := do
  .failIf (¬width.fitsUnsigned value) .scalarOutOfRange
  .ok (leBytes width.bytes value.toNat)

def decodeUnsignedStorage (encoded : Bytes) (width : IntegerWidth) : Checked (BitVec 64) := do
  let bytes ← exactScalarBytes width.bytes encoded
  .ok (BitVec.ofNat 64 (ofLe bytes))

def encodeVectorStorage (values : List CanonicalF32) (vectorType : VectorType) : Checked Bytes := do
  .failIf (values.length ≠ vectorType.dimension) .scalarOutOfRange
  let encoded := values.flatMap fun value => leBytes 4 value.bits.toNat
  ensureScalarLength encoded.length
  .ok encoded

def decodeVectorStorage (encoded : Bytes) (vectorType : VectorType) : Checked (List CanonicalF32) := do
  .failIf (encoded.length ≠ vectorType.dimension * 4) .invalidScalarEncoding
  (chunksExact4 encoded).mapM fun bytes => FloatFormat.binary32.decodeCanonical (BitVec.ofNat 32 (ofLe bytes))

/-! ## Arrays and maps -/

/-- A payload behind its 32-bit length. -/
def putNestedPayload (encoded payload : Bytes) : Checked Bytes := do
  .failIf (2 ^ 32 ≤ payload.length) .scalarLengthExceeded
  .ok (encoded ++ leBytes 4 payload.length ++ payload)

/-- The payload at the front of the remaining bytes, and what is left behind it. -/
def takeNestedPayload (remaining : Bytes) : Checked (Bytes × Bytes) := do
  .failIf (remaining.length < 4) .invalidScalarEncoding
  let length := ofLe (remaining.take 4)
  let remaining := remaining.drop 4
  .failIf (remaining.length < length) .invalidScalarEncoding
  .ok (remaining.take length, remaining.drop length)

section Nested

variable (encode : ScalarValue → Checked Bytes) (decode : Bytes → Checked ScalarValue)
  (encodeKey encodeKeyOrdered encodeValue : ScalarValue → Checked Bytes)
  (decodeKey decodeValue : Bytes → Checked ScalarValue)

/-- The element loop, behind what is encoded so far. -/
def encodeArrayElements (encoded : Bytes) : List ScalarValue → Checked Bytes
  | [] => .ok encoded
  | value :: values =>
    if value.isNull then encodeArrayElements (encoded ++ [0]) values
    else do
      let payload ← encode value
      let encoded ← putNestedPayload (encoded ++ [1]) payload
      ensureScalarLength encoded.length
      encodeArrayElements encoded values

def encodeArrayStorage (values : List ScalarValue) : Checked Bytes := do
  .failIf (2 ^ 32 ≤ values.length) .scalarLengthExceeded
  encodeArrayElements encode (leBytes 4 values.length) values

/-- The payload behind a null marker, and what is left behind it. -/
def takeMarkedPayload (remaining : Bytes) : Checked (ScalarValue × Bytes) :=
  match remaining with
  | [] => .error .invalidScalarEncoding
  | marker :: remaining =>
    if marker = 0 then .ok (.null, remaining)
    else if marker = 1 then do
      let (payload, remaining) ← takeNestedPayload remaining
      let value ← decode payload
      .ok (value, remaining)
    else .error .invalidScalarEncoding

/-- The element loop: `count` elements, and what is left behind them. -/
def decodeArrayElements : Nat → Bytes → Checked (List ScalarValue × Bytes)
  | 0, remaining => .ok ([], remaining)
  | count + 1, remaining => do
    let (value, remaining) ← takeMarkedPayload decode remaining
    let (values, remaining) ← decodeArrayElements count remaining
    .ok (value :: values, remaining)

/-- The count in front of an array or a map, and what is left behind it. -/
def takeCount (encoded : Bytes) : Checked (Nat × Bytes) := do
  .failIf (encoded.length < 4) .invalidScalarEncoding
  let count := ofLe (encoded.take 4)
  .failIf (maxDecodedCount < count) .scalarLengthExceeded
  .ok (count, encoded.drop 4)

def decodeArrayStorage (encoded : Bytes) : Checked (List ScalarValue) := do
  let (count, remaining) ← takeCount encoded
  let (values, remaining) ← decodeArrayElements decode count remaining
  .failIf (remaining ≠ []) .invalidScalarEncoding
  .ok values

/-- A value of a map behind its null marker. -/
def putMarkedValue (encoded : Bytes) (value : ScalarValue) : Checked Bytes :=
  if value.isNull then .ok (encoded ++ [0])
  else do
    let payload ← encodeValue value
    putNestedPayload (encoded ++ [1]) payload

/-- The entry loop, behind what is encoded so far and the previous key. -/
def encodeMapEntries (encoded : Bytes) (previousKey : Option Bytes) :
    List (ScalarValue × ScalarValue) → Checked Bytes
  | [] => .ok encoded
  | (key, value) :: entries => do
    .failIf key.isNull .invalidScalarEncoding
    let keyPayload ← encodeKey key
    let keyOrdered ← encodeKeyOrdered key
    .failIf (¬keyAscends previousKey keyOrdered) .invalidScalarEncoding
    let encoded ← putNestedPayload encoded keyPayload
    let encoded ← putMarkedValue encodeValue encoded value
    ensureScalarLength encoded.length
    encodeMapEntries encoded (some keyOrdered) entries

def encodeMapStorage (entries : List (ScalarValue × ScalarValue)) : Checked Bytes := do
  .failIf (2 ^ 32 ≤ entries.length) .scalarLengthExceeded
  encodeMapEntries encodeKey encodeKeyOrdered encodeValue (leBytes 4 entries.length) none entries

/-- The entry loop: `count` entries behind a previous key, and what is left behind them. -/
def decodeMapEntries (previousKey : Option Bytes) :
    Nat → Bytes → Checked (List (ScalarValue × ScalarValue) × Bytes)
  | 0, remaining => .ok ([], remaining)
  | count + 1, remaining => do
    let (payload, remaining) ← takeNestedPayload remaining
    let key ← decodeKey payload
    let keyOrdered ← encodeKeyOrdered key
    .failIf (key.isNull ∨ ¬keyAscends previousKey keyOrdered) .invalidScalarEncoding
    let (value, remaining) ← takeMarkedPayload decodeValue remaining
    let (entries, remaining) ← decodeMapEntries (some keyOrdered) count remaining
    .ok ((key, value) :: entries, remaining)

def decodeMapStorage (encoded : Bytes) : Checked (List (ScalarValue × ScalarValue)) := do
  let (count, remaining) ← takeCount encoded
  let (entries, remaining) ← decodeMapEntries encodeKeyOrdered decodeKey decodeValue none count remaining
  .failIf (remaining ≠ []) .invalidScalarEncoding
  .ok entries

end Nested

/-! ## Values -/

section Values

variable (json : JsonLibrary)

/-- The bytes of a non-null value of a type without nested types. -/
def encodePrimitiveStorage : LogicalType → ScalarValue → Checked Bytes
  | .boolean, .boolean value => .ok [if value then 1 else 0]
  | .signed width, .signed value => encodeSignedStorage value width
  | .unsigned width, .unsigned value => encodeUnsignedStorage value width
  | .decimal decimal, .decimal value => do
    validateDecimal value decimal
    .ok (leBytes 16 value.toNat)
  | .float32, .float32 value => .ok (leBytes 4 value.bits.toNat)
  | .float64, .float64 value => .ok (leBytes 8 value.bits.toNat)
  | .text, .text value => do
    ensureScalarLength value.bytes.length
    .ok value.bytes
  | .binary, .binary value => do
    ensureScalarLength value.length
    .ok value
  | .date, .date value => .ok (leBytes 4 value.toNat)
  | .time, .time value => do
    validateTime value
    .ok (leBytes 8 value.toNat)
  | .timestamp, .timestamp value => .ok (leBytes 8 value.toNat)
  | .interval, .interval months days nanoseconds =>
    .ok (leBytes 4 months.toNat ++ leBytes 4 days.toNat ++ leBytes 8 nanoseconds.toNat)
  | .uuid, .uuid value => .ok value.bytes
  | .vector vectorType, .vector values => encodeVectorStorage values vectorType
  | .json, .json value => canonicalJsonBytes json value
  | _, _ => .error .scalarTypeMismatch

/-- Refuse null, and bound what is encoded. -/
def storeValue (value : ScalarValue) (encoded : Checked Bytes) : Checked Bytes := do
  .failIf value.isNull .nullRequiresRowBitmap
  let encoded ← encoded
  ensureScalarLength encoded.length
  .ok encoded

/-- Encode one non-null scalar for native row storage. -/
def encodeStorage : LogicalType → ScalarValue → Checked Bytes
  | .array element, value =>
    storeValue value (match value with
      | .array values => encodeArrayStorage (encodeStorage element) values
      | _ => .error .scalarTypeMismatch)
  | .map keyType valueType, value =>
    storeValue value (match value with
      | .map entries =>
        encodeMapStorage (encodeStorage keyType) (encodeOrderedComponent keyType) (encodeStorage valueType) entries
      | _ => .error .scalarTypeMismatch)
  | logicalType, value => storeValue value (encodePrimitiveStorage json logicalType value)

/-- Decode a value of a type without nested types. -/
def decodePrimitiveStorage (encoded : Bytes) : LogicalType → Checked ScalarValue
  | .boolean =>
    if encoded = [0] then .ok (.boolean false)
    else if encoded = [1] then .ok (.boolean true)
    else .error .invalidScalarEncoding
  | .signed width => do .ok (.signed (← decodeSignedStorage encoded width))
  | .unsigned width => do .ok (.unsigned (← decodeUnsignedStorage encoded width))
  | .decimal decimal => do
    let bytes ← exactScalarBytes 16 encoded
    let value := BitVec.ofNat 128 (ofLe bytes)
    validateDecimal value decimal
    .ok (.decimal value)
  | .float32 => do
    let bytes ← exactScalarBytes 4 encoded
    .ok (.float32 (← FloatFormat.binary32.decodeCanonical (BitVec.ofNat 32 (ofLe bytes))))
  | .float64 => do
    let bytes ← exactScalarBytes 8 encoded
    .ok (.float64 (← FloatFormat.binary64.decodeCanonical (BitVec.ofNat 64 (ofLe bytes))))
  | .text => do .ok (.text (← Text.fromUtf8 encoded))
  | .binary => .ok (.binary encoded)
  | .date => do
    let bytes ← exactScalarBytes 4 encoded
    .ok (.date (BitVec.ofNat 32 (ofLe bytes)))
  | .time => do
    let bytes ← exactScalarBytes 8 encoded
    let value := BitVec.ofNat 64 (ofLe bytes)
    validateTime value
    .ok (.time value)
  | .timestamp => do
    let bytes ← exactScalarBytes 8 encoded
    .ok (.timestamp (BitVec.ofNat 64 (ofLe bytes)))
  | .interval => do
    .failIf (encoded.length ≠ 16) .invalidScalarEncoding
    .ok (.interval (BitVec.ofNat 32 (ofLe (slice encoded 0 4))) (BitVec.ofNat 32 (ofLe (slice encoded 4 8)))
      (BitVec.ofNat 64 (ofLe (slice encoded 8 16))))
  | .uuid => if size : encoded.length = 16 then .ok (.uuid ⟨encoded, size⟩) else .error .invalidScalarEncoding
  | .vector vectorType => do .ok (.vector (← decodeVectorStorage encoded vectorType))
  | .json => do .ok (.json (← decodeCanonicalJson json encoded))
  -- arrays and maps are decoded through their element types
  | .array _ | .map _ _ => .error .scalarTypeMismatch

/-- Decode one complete non-null scalar from native row bytes. -/
def decodeStorage : LogicalType → Bytes → Checked ScalarValue
  | .array element, encoded => do
    ensureScalarLength encoded.length
    .ok (.array (← decodeArrayStorage (decodeStorage element) encoded))
  | .map keyType valueType, encoded => do
    ensureScalarLength encoded.length
    .ok (.map (← decodeMapStorage (encodeOrderedComponent keyType) (decodeStorage keyType) (decodeStorage valueType)
      encoded))
  | logicalType, encoded => do
    ensureScalarLength encoded.length
    decodePrimitiveStorage json encoded logicalType

end Values

end Hyphae.Types
