import Hyphae.Types.Scalar

/-!
# Descriptors of logical types

A type is written as a tag and its parameters, the types inside an array or a map behind
it. Encoder and decoder refuse arrays and maps nested deeper than `maxTypeNesting`; the
`levels` argument is what is left of that.
-/

namespace Hyphae.Types

open Lib Except List

variable {bytes : Bytes} {byte : UInt8}

/-! ## The codec -/

def maxTypeNesting : Nat := 64

/-- The byte a width is written as. -/
def IntegerWidth.toByte : IntegerWidth → UInt8
  | .bits8 => 8
  | .bits16 => 16
  | .bits32 => 32
  | .bits64 => 64

def encodeTypeDescriptor : LogicalType → (levels : Nat) → Checked Bytes
  | _, 0 => .error .typeNestingDepthExceeded
  | .boolean, _ + 1 => .ok [1]
  | .signed width, _ + 1 => .ok [2, width.toByte]
  | .unsigned width, _ + 1 => .ok [3, width.toByte]
  | .decimal decimal, _ + 1 => .ok [4, .ofNat decimal.precision, .ofNat decimal.scale]
  | .float32, _ + 1 => .ok [5]
  | .float64, _ + 1 => .ok [6]
  | .text, _ + 1 => .ok [7]
  | .binary, _ + 1 => .ok [8]
  | .date, _ + 1 => .ok [9]
  | .time, _ + 1 => .ok [10]
  | .timestamp, _ + 1 => .ok [11]
  | .interval, _ + 1 => .ok [12]
  | .uuid, _ + 1 => .ok [13]
  | .json, _ + 1 => .ok [14]
  | .array element, levels + 1 => do
    .ok (15 :: (← encodeTypeDescriptor element levels))
  | .map key value, levels + 1 => do
    .ok (16 :: ((← encodeTypeDescriptor key levels) ++ (← encodeTypeDescriptor value levels)))
  -- the only element is binary32, written as 1
  | .vector vector, _ + 1 => .ok ([17, 1] ++ leBytes 2 vector.dimension)

def takeByte : Bytes → Checked (UInt8 × Bytes)
  | [] => .error .invalidTypeDescriptor
  | byte :: rest => .ok (byte, rest)

def takeExact (length : Nat) (encoded : Bytes) : Checked (Bytes × Bytes) := do
  .failIf (encoded.length < length) .invalidTypeDescriptor
  .ok (encoded.take length, encoded.drop length)

def decodeIntegerWidth (encoded : UInt8) : Checked IntegerWidth :=
  if encoded = 8 then .ok .bits8
  else if encoded = 16 then .ok .bits16
  else if encoded = 32 then .ok .bits32
  else if encoded = 64 then .ok .bits64
  else .error .invalidTypeDescriptor

/-- Read a type from the front; what stands behind it is left. -/
def decodeTypeDescriptor : (levels : Nat) → Bytes → Checked (LogicalType × Bytes)
  | 0, _ => .error .typeNestingDepthExceeded
  | levels + 1, encoded => do
    let (tag, rest) ← takeByte encoded
    match tag with
    | 1 => .ok (.boolean, rest)
    | 2 =>
      let (width, rest) ← takeByte rest
      .ok (.signed (← decodeIntegerWidth width), rest)
    | 3 =>
      let (width, rest) ← takeByte rest
      .ok (.unsigned (← decodeIntegerWidth width), rest)
    | 4 =>
      let (precision, rest) ← takeByte rest
      let (scale, rest) ← takeByte rest
      let decimal ← (DecimalType.new precision.toNat scale.toNat).mapError fun _ => .invalidTypeDescriptor
      .ok (.decimal decimal, rest)
    | 5 => .ok (.float32, rest)
    | 6 => .ok (.float64, rest)
    | 7 => .ok (.text, rest)
    | 8 => .ok (.binary, rest)
    | 9 => .ok (.date, rest)
    | 10 => .ok (.time, rest)
    | 11 => .ok (.timestamp, rest)
    | 12 => .ok (.interval, rest)
    | 13 => .ok (.uuid, rest)
    | 14 => .ok (.json, rest)
    | 15 =>
      let (element, rest) ← decodeTypeDescriptor levels rest
      .ok (.array element, rest)
    | 16 =>
      let (key, rest) ← decodeTypeDescriptor levels rest
      let (value, rest) ← decodeTypeDescriptor levels rest
      .ok (.map key value, rest)
    | 17 =>
      let (element, rest) ← takeByte rest
      .failIf (element ≠ 1) .invalidTypeDescriptor
      let (dimension, rest) ← takeExact 2 rest
      let vector ← (VectorType.new (.ofNat (ofLe dimension))).mapError fun _ => .invalidTypeDescriptor
      .ok (.vector vector, rest)
    | _ => .error .invalidTypeDescriptor

/-- Encode one self-delimiting canonical descriptor. -/
def LogicalType.encodeDescriptor (logicalType : LogicalType) : Checked Bytes :=
  encodeTypeDescriptor logicalType (maxTypeNesting + 1)

/-- Decode one complete canonical descriptor. -/
def LogicalType.decodeDescriptor (encoded : Bytes) : Checked LogicalType := do
  let (decoded, rest) ← decodeTypeDescriptor (maxTypeNesting + 1) encoded
  .failIf (rest ≠ []) .invalidTypeDescriptor
  .ok decoded

/-! ## Parameters -/

variable {encoded rest : Bytes} {logicalType : LogicalType} {levels : Nat}

theorem takeByte_eq_ok : takeByte encoded = .ok (byte, rest) ↔ encoded = byte :: rest := by
  cases encoded <;> simp [takeByte]

theorem takeExact_eq_ok {length : Nat} :
    takeExact length encoded = .ok (bytes, rest) ↔ bytes.length = length ∧ encoded = bytes ++ rest := by
  simp only [takeExact, bind_eq_ok, failIf_eq_ok, Nat.not_lt, ok.injEq, Prod.mk.injEq]
  constructor
  · rintro ⟨-, hlength, rfl, rfl⟩
    exact ⟨length_take_of_le hlength, (take_append_drop _ _).symm⟩
  · rintro ⟨rfl, rfl⟩
    exact ⟨(), by simp, by simp, by simp⟩

theorem decodeIntegerWidth_eq_ok {width : IntegerWidth} :
    decodeIntegerWidth byte = .ok width ↔ byte = width.toByte := by
  unfold decodeIntegerWidth
  split_ifs <;> cases width <;> simp_all [IntegerWidth.toByte]

theorem decimalNew_eq_ok {precision scale : UInt8} {decimal : DecimalType} :
    DecimalType.new precision.toNat scale.toNat = .ok decimal ↔
      precision = .ofNat decimal.precision ∧ scale = .ofNat decimal.scale := by
  have hprecision := decimal.precision_le
  have hscale := decimal.scale_le
  unfold DecimalType.new
  constructor
  · intro h
    split_ifs at h
    cases h
    simp
  · rintro ⟨rfl, rfl⟩
    have hbyte {n : Nat} (hn : n ≤ 38) : (UInt8.ofNat n).toNat = n := UInt8.toNat_ofNat_of_lt (hn.trans_lt (by decide))
    rw [hbyte hprecision, hbyte (hscale.trans hprecision), dif_pos ⟨decimal.precision_pos, hprecision⟩, dif_pos hscale]

theorem vectorNew_eq_ok {vector : VectorType} (h : bytes.length = 2) :
    VectorType.new (.ofNat (ofLe bytes)) = .ok vector ↔ bytes = leBytes 2 vector.dimension := by
  have hlt : ofLe bytes < 2 ^ 16 := by simpa [h] using ofLe_lt bytes
  have hread : (UInt16.ofNat (ofLe bytes)).toNat = ofLe bytes := UInt16.toNat_ofNat_of_lt hlt
  obtain ⟨dimension, hpos, hdimension⟩ := vector
  have hnew : VectorType.new (.ofNat (ofLe bytes)) = .ok ⟨dimension, hpos, hdimension⟩ ↔ ofLe bytes = dimension := by
    unfold VectorType.new
    split_ifs with hzero
    · simp [hread]
    · simp only [false_iff]
      omega
  rw [hnew, eq_leBytes_iff h]
  exact and_iff_right hdimension

/-! ## Types -/

theorem decodeTypeDescriptor_of_encode (h : encodeTypeDescriptor logicalType levels = .ok bytes) (rest : Bytes) :
    decodeTypeDescriptor levels (bytes ++ rest) = .ok (logicalType, rest) := by
  induction logicalType generalizing levels bytes rest with
  | array element ih =>
    cases levels with
    | zero => cases h
    | succ levels =>
      obtain ⟨inner, hinner, hbytes⟩ := bind_eq_ok.mp h
      cases hbytes
      simp [decodeTypeDescriptor, takeByte, ih hinner]
  | map key value ihkey ihvalue =>
    cases levels with
    | zero => cases h
    | succ levels =>
      simp only [encodeTypeDescriptor, bind_eq_ok, ok.injEq] at h
      obtain ⟨keyBytes, hkey, valueBytes, hvalue, rfl⟩ := h
      simp [decodeTypeDescriptor, takeByte, ihkey hkey, ihvalue hvalue]
  | signed width | unsigned width =>
    cases levels <;> cases h
    have hwidth := decodeIntegerWidth_eq_ok.mpr (Eq.refl width.toByte)
    simp [decodeTypeDescriptor, takeByte, hwidth]
  | decimal decimal =>
    cases levels <;> cases h
    have hnew := decimalNew_eq_ok.mpr ⟨Eq.refl (UInt8.ofNat decimal.precision), Eq.refl (UInt8.ofNat decimal.scale)⟩
    simp only [cons_append, nil_append, decodeTypeDescriptor, takeByte, ok_bind, hnew]
    rfl
  | vector vector =>
    cases levels <;> cases h
    have hlength := length_leBytes 2 vector.dimension
    have htake : takeExact 2 (leBytes 2 vector.dimension ++ rest) = .ok (leBytes 2 vector.dimension, rest) :=
      takeExact_eq_ok.mpr ⟨hlength, rfl⟩
    have hnew := (vectorNew_eq_ok hlength).mpr rfl
    simp only [cons_append, nil_append, decodeTypeDescriptor, takeByte, ok_bind, htake, hnew]
    rfl
  | _ =>
    cases levels <;> cases h
    rfl

theorem encodeTypeDescriptor_of_decode (h : decodeTypeDescriptor levels encoded = .ok (logicalType, rest)) :
    ∃ bytes, encodeTypeDescriptor logicalType levels = .ok bytes ∧ encoded = bytes ++ rest := by
  induction levels generalizing logicalType encoded rest with
  | zero => cases h
  | succ levels ih =>
    simp only [decodeTypeDescriptor, bind_eq_ok, Prod.exists, takeByte_eq_ok] at h
    obtain ⟨tag, behind, rfl, h⟩ := h
    split at h
    case h_18 => cases h
    all_goals
      simp only [bind_eq_ok, Prod.exists, takeByte_eq_ok, decodeIntegerWidth_eq_ok, mapError_eq_ok, decimalNew_eq_ok,
        failIf_eq_ok, not_not, takeExact_eq_ok, ok.injEq, Prod.mk.injEq] at h
    case h_2 | h_3 =>
      obtain ⟨byte, behind, rfl, width, rfl, rfl, rfl⟩ := h
      exact ⟨_, rfl, rfl⟩
    case h_4 =>
      obtain ⟨precision, behind, rfl, scale, behind, rfl, decimal, ⟨rfl, rfl⟩, rfl, rfl⟩ := h
      exact ⟨_, rfl, rfl⟩
    case h_15 =>
      obtain ⟨element, behind, helement, rfl, rfl⟩ := h
      obtain ⟨bytes, hbytes, rfl⟩ := ih helement
      exact ⟨15 :: bytes, by rw [encodeTypeDescriptor, hbytes]; rfl, rfl⟩
    case h_16 =>
      obtain ⟨key, behind, hkey, value, behind, hvalue, rfl, rfl⟩ := h
      obtain ⟨keyBytes, hkeyBytes, rfl⟩ := ih hkey
      obtain ⟨valueBytes, hvalueBytes, rfl⟩ := ih hvalue
      exact ⟨16 :: (keyBytes ++ valueBytes), by rw [encodeTypeDescriptor, hkeyBytes, hvalueBytes]; rfl, by simp⟩
    case h_17 =>
      obtain ⟨element, behind, rfl, -, rfl, dimension, behind, ⟨hlength, rfl⟩, vector, hvector, rfl, rfl⟩ := h
      rw [(vectorNew_eq_ok hlength).mp hvector]
      exact ⟨_, rfl, rfl⟩
    all_goals
      obtain ⟨rfl, rfl⟩ := h
      exact ⟨_, rfl, rfl⟩

/-- How deep arrays and maps stand inside one another. -/
def LogicalType.nesting : LogicalType → Nat
  | .array element => element.nesting + 1
  | .map key value => max key.nesting value.nesting + 1
  | _ => 0

theorem exists_encodeTypeDescriptor_iff :
    (∃ bytes, encodeTypeDescriptor logicalType levels = .ok bytes) ↔ logicalType.nesting < levels := by
  induction logicalType generalizing levels with
  | array element ih =>
    cases levels with
    | zero => simp [encodeTypeDescriptor]
    | succ levels => simp [encodeTypeDescriptor, bind_eq_ok, LogicalType.nesting, ← ih]
  | map key value ihkey ihvalue =>
    cases levels with
    | zero => simp [encodeTypeDescriptor]
    | succ levels => simp [encodeTypeDescriptor, bind_eq_ok, LogicalType.nesting, ← ihkey, ← ihvalue]
  | _ => cases levels <;> simp [encodeTypeDescriptor, LogicalType.nesting]

/-- A descriptor decodes to a type exactly if the type encodes to it, and both sides accept exactly the types that
are nested within the limit. -/
theorem descriptors_round_trip (logicalType : LogicalType) :
    (∀ encoded, logicalType.encodeDescriptor = .ok encoded ↔ LogicalType.decodeDescriptor encoded = .ok logicalType) ∧
      ((∃ encoded, logicalType.encodeDescriptor = .ok encoded) ↔ logicalType.nesting ≤ maxTypeNesting) ∧
      ((∃ encoded, LogicalType.decodeDescriptor encoded = .ok logicalType) ↔ logicalType.nesting ≤ maxTypeNesting) := by
  have hround (encoded : Bytes) :
      logicalType.encodeDescriptor = .ok encoded ↔ LogicalType.decodeDescriptor encoded = .ok logicalType := by
    simp only [LogicalType.decodeDescriptor, bind_eq_ok, Prod.exists, failIf_eq_ok, not_not, ok.injEq]
    constructor
    · intro h
      have hdecode := decodeTypeDescriptor_of_encode h []
      rw [append_nil] at hdecode
      exact ⟨logicalType, [], hdecode, (), rfl, rfl⟩
    · rintro ⟨_, _, hdecode, -, rfl, rfl⟩
      obtain ⟨bytes, hbytes, rfl⟩ := encodeTypeDescriptor_of_decode hdecode
      rwa [append_nil]
  have haccepts : (∃ encoded, logicalType.encodeDescriptor = .ok encoded) ↔ logicalType.nesting ≤ maxTypeNesting :=
    exists_encodeTypeDescriptor_iff.trans Nat.lt_succ_iff
  exact ⟨hround, haccepts, (exists_congr hround).symm.trans haccepts⟩

end Hyphae.Types
