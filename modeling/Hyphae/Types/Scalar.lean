import Hyphae.Lib.Bytes
import Hyphae.Lib.Checked
import Hyphae.Lib.Effect

/-!
# Logical types and scalar values

The canonical types and values the engines share. Machine integers are bit vectors,
read as signed numbers where the source's type is signed. A float is its bits; the
canonical ones have one NaN and no negative zero. Text is a byte string that is valid
UTF-8.
-/

namespace Hyphae.Types

open Lib

variable {length : Nat}

/-- Failure of a native type or scalar codec. -/
inductive NativeTypeError
  | invalidDecimalPrecision
  | invalidDecimalScale
  | emptyVector
  | invalidTypeDescriptor
  | typeNestingDepthExceeded
  | scalarTypeMismatch
  | nullRequiresRowBitmap
  | invalidScalarEncoding
  | scalarOutOfRange
  | unsupportedOrderedType
  | scalarLengthExceeded
  deriving DecidableEq, Repr

/-- A value, or why it is refused. -/
abbrev Checked := Except NativeTypeError

/-! ## Logical types -/

/-- Supported fixed integer widths. -/
inductive IntegerWidth
  | bits8 | bits16 | bits32 | bits64
  deriving DecidableEq, Repr

/-- Bytes of an integer of this width. -/
def IntegerWidth.bytes : IntegerWidth → Nat
  | .bits8 => 1
  | .bits16 => 2
  | .bits32 => 4
  | .bits64 => 8

/-- Checked fixed-precision decimal declaration. -/
structure DecimalType where
  precision : Nat
  scale : Nat
  precision_pos : 1 ≤ precision
  precision_le : precision ≤ 38
  scale_le : scale ≤ precision
  deriving DecidableEq

def DecimalType.new (precision scale : Nat) : Checked DecimalType :=
  if hp : 1 ≤ precision ∧ precision ≤ 38 then
    if hs : scale ≤ precision then .ok ⟨precision, scale, hp.1, hp.2, hs⟩
    else .error .invalidDecimalScale
  else .error .invalidDecimalPrecision

/-- Checked fixed-dimension vector declaration. The only element is binary32. -/
structure VectorType where
  dimension : Nat
  dimension_pos : 0 < dimension
  dimension_lt : dimension < 2 ^ 16

instance : DecidableEq VectorType := fun a b =>
  decidable_of_iff (a.dimension = b.dimension) (by cases a; cases b; simp)

def VectorType.new (dimension : UInt16) : Checked VectorType :=
  if h : 0 < dimension.toNat then .ok ⟨dimension.toNat, h, dimension.toNat_lt⟩ else .error .emptyVector

/-- Canonical logical type shared by native engines. -/
inductive LogicalType
  | boolean
  | signed (width : IntegerWidth)
  | unsigned (width : IntegerWidth)
  | decimal (decimal : DecimalType)
  | float32
  | float64
  | text
  | binary
  | date
  | time
  | timestamp
  | interval
  | uuid
  | json
  | array (element : LogicalType)
  | map (key value : LogicalType)
  | vector (vector : VectorType)
  deriving DecidableEq

/-! ## Canonical floats -/

/-- An IEEE-754 binary format of `w` bits: its infinity and its canonical NaN. -/
structure FloatFormat (w : Nat) where
  infinity : BitVec w
  nan : BitVec w

def FloatFormat.binary32 : FloatFormat 32 := { infinity := 0x7f800000, nan := 0x7fc00000 }

def FloatFormat.binary64 : FloatFormat 64 := { infinity := 0x7ff0000000000000, nan := 0x7ff8000000000000 }

namespace FloatFormat

variable {w : Nat} (format : FloatFormat w)

/-- The bits below the sign. -/
def magnitude (bits : BitVec w) : Nat := bits.toNat % 2 ^ (w - 1)

def isNan (bits : BitVec w) : Prop := format.infinity.toNat < magnitude bits

def isZero (bits : BitVec w) : Prop := magnitude bits = 0

instance (bits : BitVec w) : Decidable (format.isNan bits) := inferInstanceAs (Decidable (_ < _))

instance (bits : BitVec w) : Decidable (isZero bits) := inferInstanceAs (Decidable (_ = _))

/-- One NaN, and no negative zero. -/
def canonicalBits (bits : BitVec w) : BitVec w :=
  if format.isNan bits then format.nan else if isZero bits then 0 else bits

/-- Canonicalized float. -/
structure Canonical where
  bits : BitVec w
  canonical : format.canonicalBits bits = bits

/-- Accept the bits of a canonical float only. -/
def decodeCanonical (bits : BitVec w) : Checked format.Canonical :=
  if canonical : format.canonicalBits bits = bits then .ok ⟨bits, canonical⟩ else .error .invalidScalarEncoding

theorem decodeCanonical_bits (value : format.Canonical) : format.decodeCanonical value.bits = .ok value := by
  rw [decodeCanonical, dif_pos value.canonical]

end FloatFormat

abbrev CanonicalF32 := FloatFormat.binary32.Canonical

abbrev CanonicalF64 := FloatFormat.binary64.Canonical

/-! ## Values -/

def validUtf8 (bytes : Bytes) : Bool := (ByteArray.mk bytes.toArray).validateUTF8

/-- Valid UTF-8 text. -/
structure Text where
  bytes : Bytes
  valid : validUtf8 bytes = true
  deriving DecidableEq

def Text.fromUtf8 (bytes : Bytes) : Checked Text :=
  if valid : validUtf8 bytes = true then .ok ⟨bytes, valid⟩ else .error .invalidScalarEncoding

theorem Text.fromUtf8_bytes (text : Text) : fromUtf8 text.bytes = .ok text := by
  rw [fromUtf8, dif_pos text.valid]

/-- UUID bits in network byte order. -/
structure Uuid where
  bytes : Bytes
  size : bytes.length = 16
  deriving DecidableEq

/-- One canonical scalar. -/
inductive ScalarValue
  | null
  | boolean (value : Bool)
  | signed (value : BitVec 64)
  | unsigned (value : BitVec 64)
  | decimal (coefficient : BitVec 128)
  | float32 (value : CanonicalF32)
  | float64 (value : CanonicalF64)
  | text (value : Text)
  | binary (value : Bytes)
  | date (days : BitVec 32)
  | time (nanoseconds : BitVec 64)
  | timestamp (microseconds : BitVec 64)
  | interval (months days : BitVec 32) (nanoseconds : BitVec 64)
  | uuid (value : Uuid)
  | array (values : List ScalarValue)
  | map (entries : List (ScalarValue × ScalarValue))
  | vector (values : List CanonicalF32)
  | json (value : Text)

def ScalarValue.isNull : ScalarValue → Bool
  | .null => true
  | _ => false

/-! ## Domain checks -/

/-- Maximum encoded byte length for one native scalar value. -/
def maxScalarBytes : Nat := 16 * 1024 * 1024

def nanosPerDay : Nat := 86400000000000

/-- Elements of an array and entries of a map that the decoders accept. -/
def maxDecodedCount : Nat := 100000

def ensureScalarLength (length : Nat) : Checked Unit :=
  .failIf (maxScalarBytes < length) .scalarLengthExceeded

/-- The bytes as they are, if there are exactly `length`. -/
def exactScalarBytes (length : Nat) (encoded : Bytes) : Checked Bytes := do
  .failIf (encoded.length ≠ length) .invalidScalarEncoding
  .ok encoded

def validateDecimal (value : BitVec 128) (decimal : DecimalType) : Checked Unit :=
  .failIf (10 ^ decimal.precision - 1 < value.toInt.natAbs) .scalarOutOfRange

def validateTime (value : BitVec 64) : Checked Unit :=
  .failIf (nanosPerDay ≤ value.toNat) .scalarOutOfRange

theorem ensureScalarLength_eq_ok {u : Unit} : ensureScalarLength length = .ok u ↔ length ≤ maxScalarBytes := by
  rw [ensureScalarLength, Except.failIf_eq_ok, Nat.not_lt]

theorem ensureScalarLength_of_le (h : length ≤ maxScalarBytes) : ensureScalarLength length = .ok () :=
  ensureScalarLength_eq_ok.mpr h

theorem exactScalarBytes_eq_ok {encoded bytes : Bytes} :
    exactScalarBytes length encoded = .ok bytes ↔ encoded.length = length ∧ encoded = bytes := by
  simp [exactScalarBytes, Except.bind_eq_ok]

theorem exactScalarBytes_self {encoded : Bytes} (h : encoded.length = length) :
    exactScalarBytes length encoded = .ok encoded := exactScalarBytes_eq_ok.mpr ⟨h, rfl⟩

end Hyphae.Types
