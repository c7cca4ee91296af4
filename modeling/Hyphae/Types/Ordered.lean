import Hyphae.Types.Scalar

/-!
# The ordered-component codec

The memcomparable form of a scalar: one byte that sorts null first, then a payload
whose bytes sort as the values do. Signed numbers flip their sign bit, floats invert
their negative range, and byte strings escape their zero bytes so that a terminator
can end them. Arrays and maps escape the whole component of every element.
-/

namespace Hyphae.Types

open Lib

/-- Longest ordered component. -/
def maxOrderedScalarBytes : Nat := maxScalarBytes * 2 + 3

/-! ## Integers -/

/-- The range check of `iN::try_from` on an `i64`. -/
def IntegerWidth.fitsSigned (width : IntegerWidth) (value : BitVec 64) : Prop :=
  -2 ^ (8 * width.bytes - 1) ≤ value.toInt ∧ value.toInt < 2 ^ (8 * width.bytes - 1)

/-- The range check of `uN::try_from` on a `u64`. -/
def IntegerWidth.fitsUnsigned (width : IntegerWidth) (value : BitVec 64) : Prop := value.toNat < 256 ^ width.bytes

instance (width : IntegerWidth) (value : BitVec 64) : Decidable (width.fitsSigned value) :=
  inferInstanceAs (Decidable (_ ∧ _))

instance (width : IntegerWidth) (value : BitVec 64) : Decidable (width.fitsUnsigned value) :=
  inferInstanceAs (Decidable (_ < _))

/-- The `i64` of a narrower signed number given by its bits. -/
def signExtended (bytes : Nat) (bits : Nat) : BitVec 64 := (BitVec.ofNat (8 * bytes) bits).signExtend 64

/-- `bytes[0] ^= 0x80`. -/
def flipSign : Bytes → Bytes
  | [] => []
  | byte :: rest => (byte ^^^ 0x80) :: rest

/-- Big-endian two's complement with the sign bit flipped. -/
def encodeIntOrdered (bytes : Nat) (bits : Nat) : Bytes := flipSign (beBytes bytes bits)

def encodeI32Ordered (value : BitVec 32) : Bytes := encodeIntOrdered 4 value.toNat

def encodeI64Ordered (value : BitVec 64) : Bytes := encodeIntOrdered 8 value.toNat

def encodeI128Ordered (value : BitVec 128) : Bytes := encodeIntOrdered 16 value.toNat

def encodeSignedOrdered (value : BitVec 64) (width : IntegerWidth) : Checked Bytes := do
  .failIf (¬width.fitsSigned value) .scalarOutOfRange
  .ok (encodeIntOrdered width.bytes value.toNat)

def decodeSignedOrdered (encoded : Bytes) (width : IntegerWidth) : Checked (BitVec 64) := do
  let bytes ← exactScalarBytes width.bytes encoded
  .ok (signExtended width.bytes (ofBe (flipSign bytes)))

def encodeUnsignedOrdered (value : BitVec 64) (width : IntegerWidth) : Checked Bytes := do
  .failIf (¬width.fitsUnsigned value) .scalarOutOfRange
  .ok (beBytes width.bytes value.toNat)

def decodeUnsignedOrdered (encoded : Bytes) (width : IntegerWidth) : Checked (BitVec 64) := do
  let bytes ← exactScalarBytes width.bytes encoded
  .ok (BitVec.ofNat 64 (ofBe bytes))

/-! ## Floats -/

/-- Bits that sort as unsigned numbers in the total order of the floats. -/
def sortableBits {w : Nat} (bits : BitVec w) : BitVec w :=
  if bits.msb = false then bits ^^^ BitVec.twoPow w (w - 1) else ~~~bits

def unsortableBits {w : Nat} (bits : BitVec w) : BitVec w :=
  if bits.msb = false then ~~~bits else bits ^^^ BitVec.twoPow w (w - 1)

def sortableF32Bits (bits : BitVec 32) : BitVec 32 := sortableBits bits

def unsortableF32Bits (bits : BitVec 32) : BitVec 32 := unsortableBits bits

def sortableF64Bits (bits : BitVec 64) : BitVec 64 := sortableBits bits

def unsortableF64Bits (bits : BitVec 64) : BitVec 64 := unsortableBits bits

/-! ## Byte strings -/

/-- The escaped bytes in front of the terminator. -/
def escapeBytes (value : Bytes) : Bytes := value.flatMap fun byte => if byte = 0 then [0, 0xff] else [byte]

/-- Escape arbitrary bytes into a self-delimiting order-preserving form. -/
def encodeMemcomparableBytes (value : Bytes) : Checked Bytes := do
  let encodedLength ← .okOr
    (value.foldlM (fun length byte => checkedAdd length (if byte = 0 then 2 else 1)) 2) .scalarLengthExceeded
  .failIf (maxOrderedScalarBytes ≤ encodedLength) .scalarLengthExceeded
  .ok (escapeBytes value ++ [0, 0])

/-- The unescaping loop. -/
def decodeMemcomparableFrom (decoded : Bytes) : Bytes → Checked Bytes
  | [] => .error .invalidScalarEncoding
  | byte :: rest =>
    if byte ≠ 0 then decodeMemcomparableFrom (decoded ++ [byte]) rest
    else
      match rest with
      | [] => .error .invalidScalarEncoding
      | escape :: rest =>
        if escape = 0 ∧ rest = [] then
          if maxScalarBytes < decoded.length then .error .scalarLengthExceeded else .ok decoded
        else if escape = 0xff then
          if maxScalarBytes < decoded.length + 1 then .error .scalarLengthExceeded
          else decodeMemcomparableFrom (decoded ++ [0]) rest
        else .error .invalidScalarEncoding

def decodeMemcomparableBytes (encoded : Bytes) : Checked Bytes := decodeMemcomparableFrom [] encoded

/-- Where the first escaped string ends, terminator included. -/
def memcomparableComponentEnd : Bytes → Checked Nat
  | [] => .error .invalidScalarEncoding
  | byte :: rest =>
    if byte ≠ 0 then do
      let stop ← memcomparableComponentEnd rest
      .ok (stop + 1)
    else
      match rest with
      | [] => .error .invalidScalarEncoding
      | escape :: rest =>
        if escape = 0 then .ok 2
        else if escape = 0xff then do
          let stop ← memcomparableComponentEnd rest
          .ok (stop + 2)
        else .error .invalidScalarEncoding

theorem memcomparableComponentEnd_pos {encoded : Bytes} {stop : Nat}
    (h : memcomparableComponentEnd encoded = .ok stop) : encoded ≠ [] ∧ 0 < stop := by
  cases encoded with
  | nil => cases h
  | cons byte rest =>
    refine ⟨by simp, ?_⟩
    rw [memcomparableComponentEnd.eq_def] at h
    simp only at h
    split at h
    · obtain ⟨n, -, hn⟩ := Except.bind_eq_ok.mp h
      cases hn
      omega
    · split at h
      · cases h
      · split at h
        · cases h
          omega
        · split at h
          · obtain ⟨n, -, hn⟩ := Except.bind_eq_ok.mp h
            cases hn
            omega
          · cases h

theorem length_drop_lt {encoded : Bytes} {stop : Nat} (h : memcomparableComponentEnd encoded = .ok stop) :
    (encoded.drop stop).length < encoded.length := by
  obtain ⟨hne, hpos⟩ := memcomparableComponentEnd_pos h
  have := List.length_pos_of_ne_nil hne
  rw [List.length_drop]
  omega

/-! ## Vectors, arrays and maps

The codecs of arrays and maps take the codec of their parts. -/

def encodeVectorOrdered (values : List CanonicalF32) (vectorType : VectorType) : Checked Bytes := do
  .failIf (values.length ≠ vectorType.dimension) .scalarOutOfRange
  .ok (values.flatMap fun value => beBytes 4 (sortableF32Bits value.bits).toNat)

/-- The whole chunks of four bytes. -/
def chunksExact4 : Bytes → List Bytes
  | a :: b :: c :: d :: rest => [a, b, c, d] :: chunksExact4 rest
  | _ => []

def decodeVectorOrdered (encoded : Bytes) (vectorType : VectorType) : Checked (List CanonicalF32) := do
  .failIf (encoded.length ≠ vectorType.dimension * 4) .invalidScalarEncoding
  (chunksExact4 encoded).mapM fun bytes =>
    FloatFormat.binary32.decodeCanonical (unsortableF32Bits (BitVec.ofNat 32 (ofBe bytes)))

section Nested

variable (encode : ScalarValue → Checked Bytes) (decode : Bytes → Checked ScalarValue)
  (encodeKey encodeValue : ScalarValue → Checked Bytes)
  (decodeKey decodeValue : Bytes → Checked ScalarValue)

/-- The escaped components of the elements. -/
def encodeArrayComponents : List ScalarValue → Checked Bytes
  | [] => .ok []
  | value :: values => do
    let component ← encode value
    let escaped ← encodeMemcomparableBytes component
    let rest ← encodeArrayComponents values
    .ok (escaped ++ rest)

def encodeArrayOrdered (values : List ScalarValue) : Checked Bytes := do
  let encoded := (← encodeArrayComponents encode values) ++ [0, 0]
  ensureScalarLength encoded.length
  .ok encoded

/-- The decoding loop, `count` values in. -/
def decodeArrayFrom (remaining : Bytes) (count : Nat) : Checked (List ScalarValue) :=
  if remaining = [0, 0] then .ok []
  else if [0, 0] <+: remaining then .error .invalidScalarEncoding
  else if maxDecodedCount ≤ count then .error .scalarLengthExceeded
  else
    match _h : memcomparableComponentEnd remaining with
    | .error e => .error e
    | .ok stop => do
      let component ← decodeMemcomparableBytes (remaining.take stop)
      let value ← decode component
      let values ← decodeArrayFrom (remaining.drop stop) (count + 1)
      .ok (value :: values)
termination_by remaining.length
decreasing_by exact length_drop_lt _h

def decodeArrayOrdered (encoded : Bytes) : Checked (List ScalarValue) :=
  decodeArrayFrom decode encoded 0

/-- The previous key, if there is one, is below the next. -/
def keyAscends (previous : Option Bytes) (key : Bytes) : Prop := ∀ p ∈ previous, p < key

instance (previous : Option Bytes) (key : Bytes) : Decidable (keyAscends previous key) :=
  inferInstanceAs (Decidable (∀ p ∈ previous, p < key))

/-- The escaped components of the entries behind a previous key. -/
def encodeMapComponents (previousKey : Option Bytes) :
    List (ScalarValue × ScalarValue) → Checked Bytes
  | [] => .ok []
  | (key, value) :: entries => do
    .failIf key.isNull .invalidScalarEncoding
    let keyComponent ← encodeKey key
    .failIf (¬keyAscends previousKey keyComponent) .invalidScalarEncoding
    let escapedKey ← encodeMemcomparableBytes keyComponent
    let valueComponent ← encodeValue value
    let escapedValue ← encodeMemcomparableBytes valueComponent
    let rest ← encodeMapComponents (some keyComponent) entries
    .ok (escapedKey ++ escapedValue ++ rest)

def encodeMapOrdered (entries : List (ScalarValue × ScalarValue)) : Checked Bytes := do
  let encoded := (← encodeMapComponents encodeKey encodeValue none entries) ++ [0, 0]
  ensureScalarLength encoded.length
  .ok encoded

/-- The decoding loop, `count` entries in, behind a previous key. -/
def decodeMapFrom (previousKey : Option Bytes) (remaining : Bytes) (count : Nat) :
    Checked (List (ScalarValue × ScalarValue)) :=
  if remaining = [0, 0] then .ok []
  else if maxDecodedCount ≤ count then .error .scalarLengthExceeded
  else
    match _hkey : memcomparableComponentEnd remaining with
    | .error e => .error e
    | .ok keyEnd => do
      let keyComponent ← decodeMemcomparableBytes (remaining.take keyEnd)
      let key ← decodeKey keyComponent
      .failIf (key.isNull ∨ ¬keyAscends previousKey keyComponent) .invalidScalarEncoding
      match _hvalue : memcomparableComponentEnd (remaining.drop keyEnd) with
      | .error e => .error e
      | .ok valueEnd =>
        let valueComponent ← decodeMemcomparableBytes ((remaining.drop keyEnd).take valueEnd)
        let value ← decodeValue valueComponent
        let entries ← decodeMapFrom (some keyComponent) ((remaining.drop keyEnd).drop valueEnd) (count + 1)
        .ok ((key, value) :: entries)
termination_by remaining.length
decreasing_by exact (length_drop_lt _hvalue).trans (length_drop_lt _hkey)

def decodeMapOrdered (encoded : Bytes) : Checked (List (ScalarValue × ScalarValue)) :=
  decodeMapFrom decodeKey decodeValue none encoded 0

end Nested

/-! ## Components -/

/-- The payload of a non-null value of a type without nested types. -/
def encodePrimitiveOrdered : LogicalType → ScalarValue → Checked Bytes
  | .boolean, .boolean value => .ok [if value then 1 else 0]
  | .signed width, .signed value => encodeSignedOrdered value width
  | .unsigned width, .unsigned value => encodeUnsignedOrdered value width
  | .decimal decimal, .decimal value => do
    validateDecimal value decimal
    .ok (encodeI128Ordered value)
  | .float32, .float32 value => .ok (beBytes 4 (sortableF32Bits value.bits).toNat)
  | .float64, .float64 value => .ok (beBytes 8 (sortableF64Bits value.bits).toNat)
  | .text, .text value => do
    ensureScalarLength value.bytes.length
    encodeMemcomparableBytes value.bytes
  | .binary, .binary value => do
    ensureScalarLength value.length
    encodeMemcomparableBytes value
  | .date, .date value => .ok (encodeI32Ordered value)
  | .time, .time value => do
    validateTime value
    .ok (beBytes 8 value.toNat)
  | .timestamp, .timestamp value => .ok (encodeI64Ordered value)
  | .interval, .interval months days nanoseconds =>
    .ok (encodeI32Ordered months ++ encodeI32Ordered days ++ encodeI64Ordered nanoseconds)
  | .uuid, .uuid value => .ok value.bytes
  | .vector vectorType, .vector values => encodeVectorOrdered values vectorType
  | .json, _ => .error .unsupportedOrderedType
  | _, _ => .error .scalarTypeMismatch

/-- Null is one byte that sorts first; any other value is marked and followed by its payload. -/
def markComponent (value : ScalarValue) (payload : Checked Bytes) : Checked Bytes :=
  if value.isNull then .ok [0]
  else do
    let payload ← payload
    let outputLength ← .okOr (checkedAdd payload.length 1) .scalarLengthExceeded
    .failIf (maxOrderedScalarBytes < outputLength) .scalarLengthExceeded
    .ok (1 :: payload)

/-- Encode one scalar as a self-delimiting memcomparable index component. -/
def encodeOrderedComponent : LogicalType → ScalarValue → Checked Bytes
  | .array element, value =>
    markComponent value (match value with
      | .array values => encodeArrayOrdered (encodeOrderedComponent element) values
      | _ => .error .scalarTypeMismatch)
  | .map keyType valueType, value =>
    markComponent value (match value with
      | .map entries => encodeMapOrdered (encodeOrderedComponent keyType) (encodeOrderedComponent valueType) entries
      | _ => .error .scalarTypeMismatch)
  | logicalType, value => markComponent value (encodePrimitiveOrdered logicalType value)

/-- Decode the payload of a type without nested types. -/
def decodePrimitiveOrdered (payload : Bytes) : LogicalType → Checked ScalarValue
  | .boolean =>
    if payload = [0] then .ok (.boolean false)
    else if payload = [1] then .ok (.boolean true)
    else .error .invalidScalarEncoding
  | .signed width => do .ok (.signed (← decodeSignedOrdered payload width))
  | .unsigned width => do .ok (.unsigned (← decodeUnsignedOrdered payload width))
  | .decimal decimal => do
    let bytes ← exactScalarBytes 16 payload
    let value := BitVec.ofNat 128 (ofBe (flipSign bytes))
    validateDecimal value decimal
    .ok (.decimal value)
  | .float32 => do
    let bytes ← exactScalarBytes 4 payload
    .ok (.float32 (← FloatFormat.binary32.decodeCanonical (unsortableF32Bits (BitVec.ofNat 32 (ofBe bytes)))))
  | .float64 => do
    let bytes ← exactScalarBytes 8 payload
    .ok (.float64 (← FloatFormat.binary64.decodeCanonical (unsortableF64Bits (BitVec.ofNat 64 (ofBe bytes)))))
  | .text => do
    let decoded ← decodeMemcomparableBytes payload
    .ok (.text (← Text.fromUtf8 decoded))
  | .binary => do .ok (.binary (← decodeMemcomparableBytes payload))
  | .date => do
    let bytes ← exactScalarBytes 4 payload
    .ok (.date (BitVec.ofNat 32 (ofBe (flipSign bytes))))
  | .time => do
    let bytes ← exactScalarBytes 8 payload
    let value := BitVec.ofNat 64 (ofBe bytes)
    validateTime value
    .ok (.time value)
  | .timestamp => do
    let bytes ← exactScalarBytes 8 payload
    .ok (.timestamp (BitVec.ofNat 64 (ofBe (flipSign bytes))))
  | .interval => do
    .failIf (payload.length ≠ 16) .invalidScalarEncoding
    .ok (.interval (BitVec.ofNat 32 (ofBe (flipSign (slice payload 0 4))))
      (BitVec.ofNat 32 (ofBe (flipSign (slice payload 4 8)))) (BitVec.ofNat 64 (ofBe (flipSign (slice payload 8 16)))))
  | .uuid => if size : payload.length = 16 then .ok (.uuid ⟨payload, size⟩) else .error .invalidScalarEncoding
  | .vector vectorType => do .ok (.vector (← decodeVectorOrdered payload vectorType))
  -- arrays and maps are decoded through their element types
  | .json | .array _ | .map _ _ => .error .unsupportedOrderedType

/-- Take the mark off and decode the payload. -/
def unmarkComponent (encoded : Bytes) (decodePayload : Bytes → Checked ScalarValue) : Checked ScalarValue :=
  match encoded with
  | [] => .error .invalidScalarEncoding
  | marker :: payload =>
    if maxOrderedScalarBytes < encoded.length then .error .scalarLengthExceeded
    else if marker = 0 ∧ payload = [] then .ok .null
    else if marker = 1 then decodePayload payload
    else .error .invalidScalarEncoding

/-- Decode one complete memcomparable index component. -/
def decodeOrderedComponent : LogicalType → Bytes → Checked ScalarValue
  | .array element, encoded => unmarkComponent encoded fun payload => do
    .ok (.array (← decodeArrayOrdered (decodeOrderedComponent element) payload))
  | .map keyType valueType, encoded => unmarkComponent encoded fun payload => do
    .ok (.map (← decodeMapOrdered (decodeOrderedComponent keyType) (decodeOrderedComponent valueType) payload))
  | logicalType, encoded => unmarkComponent encoded fun payload => decodePrimitiveOrdered payload logicalType

end Hyphae.Types
