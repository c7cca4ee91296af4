import Hyphae.Lib.OrderCode
import Hyphae.Types.OrderedRoundTrip

/-!
# The order of the ordered components

`logicalCompare` is the order of the values of a logical type, said without bytes.
The ordered encoding is a code for it: encodings compare as the values do, none is
the beginning of another, and the components of a row compare as the row does.
-/

namespace Hyphae.Types

open Lib

open Except List

variable {w k : Nat} {cmp : ScalarValue → ScalarValue → Ordering} {encode : ScalarValue → Checked Bytes}

/-! ## The logical order -/

/-- Where a float stands in the IEEE total order: by sign, then by magnitude. -/
def totalOrder {w : Nat} (bits : BitVec w) : Int :=
  if bits.msb = false then FloatFormat.magnitude bits else -FloatFormat.magnitude bits - 1

def compareFloats {w : Nat} (a b : BitVec w) : Ordering := compare (totalOrder a) (totalOrder b)

/-- The order of the non-null values of a type without nested types. -/
def comparePrimitive : LogicalType → ScalarValue → ScalarValue → Ordering
  | .boolean, .boolean a, .boolean b => compare a.toNat b.toNat
  | .signed _, .signed a, .signed b => compare a.toInt b.toInt
  | .unsigned _, .unsigned a, .unsigned b => compare a.toNat b.toNat
  | .decimal _, .decimal a, .decimal b => compare a.toInt b.toInt
  | .float32, .float32 a, .float32 b => compareFloats a.bits b.bits
  | .float64, .float64 a, .float64 b => compareFloats a.bits b.bits
  | .text, .text a, .text b => compareBytes a.bytes b.bytes
  | .binary, .binary a, .binary b => compareBytes a b
  | .date, .date a, .date b => compare a.toInt b.toInt
  | .time, .time a, .time b => compare a.toNat b.toNat
  | .timestamp, .timestamp a, .timestamp b => compare a.toInt b.toInt
  | .interval, .interval months days nanoseconds, .interval months' days' nanoseconds' =>
    ((compare months.toInt months'.toInt).then (compare days.toInt days'.toInt)).then
      (compare nanoseconds.toInt nanoseconds'.toInt)
  | .uuid, .uuid a, .uuid b => compareBytes a.bytes b.bytes
  | .vector _, .vector a, .vector b => List.compareLex (fun a b => compareFloats a.bits b.bits) a b
  | _, _, _ => .eq

/-- Null is below every other value. -/
def nullsFirst (cmp : ScalarValue → ScalarValue → Ordering) (a b : ScalarValue) : Ordering :=
  if a.isNull then (if b.isNull then .eq else .lt) else if b.isNull then .gt else cmp a b

def compareArrays (cmp : ScalarValue → ScalarValue → Ordering) : ScalarValue → ScalarValue → Ordering
  | .array as, .array bs => List.compareLex cmp as bs
  | _, _ => .eq

def compareMaps (cmpKey cmpValue : ScalarValue → ScalarValue → Ordering) : ScalarValue → ScalarValue → Ordering
  | .map as, .map bs => List.compareLex (fun a b => (cmpKey a.1 b.1).then (cmpValue a.2 b.2)) as bs
  | _, _ => .eq

/-- The order of the values of a type. -/
def logicalCompare : LogicalType → ScalarValue → ScalarValue → Ordering
  | .array element => nullsFirst (compareArrays (logicalCompare element))
  | .map keyType valueType => nullsFirst (compareMaps (logicalCompare keyType) (logicalCompare valueType))
  | logicalType => nullsFirst (comparePrimitive logicalType)

/-! ## Numbers -/

theorem beBytes_mod (w n : Nat) : beBytes w (n % 256 ^ w) = beBytes w n := by
  have hread := leBytes_ofLe (leBytes w n)
  rw [length_leBytes, ofLe_leBytes_mod] at hread
  rw [beBytes, hread, beBytes]

/-- Flipping the top bit adds half the range. -/
theorem encodeIntOrdered_eq (k n : Nat) :
    encodeIntOrdered (k + 1) n = beBytes (k + 1) ((n + 128 * 256 ^ k) % 256 ^ (k + 1)) := by
  have hsplit : ∀ n, beBytes (k + 1) n = UInt8.ofNat (n / 256 ^ k) :: beBytes k n := by
    intro n
    induction k generalizing n with
    | zero => simp [beBytes, leBytes]
    | succ k ih =>
      have hlow : ∀ w m, beBytes (w + 1) m = beBytes w (m / 256) ++ [UInt8.ofNat m] := by
        intro w m
        simp [beBytes, leBytes]
      rw [hlow, ih, hlow k n, Nat.div_div_eq_div_mul, ← pow_succ']
      rfl
  have hflip : ∀ byte : UInt8, byte ^^^ 0x80 = byte + 128 := by
    intro byte
    have hbits : ∀ bits : BitVec 8, bits ^^^ 0x80 = bits + 128 := by decide
    exact UInt8.toBitVec_inj.mp (hbits byte.toBitVec)
  have htail : beBytes k (n + 128 * 256 ^ k) = beBytes k n := by
    rw [← beBytes_mod, Nat.add_mul_mod_self_right, beBytes_mod]
  rw [encodeIntOrdered, beBytes_mod, hsplit, hsplit, flipSign, hflip, htail, Nat.add_mul_div_right _ _ (by positivity),
    UInt8.ofNat_add]
  rfl

/-- The ordered bytes of a signed number are those of the number shifted to start at zero. -/
theorem encodeIntOrdered_toInt (hwidth : 256 ^ (k + 1) ∣ 2 ^ w) (value : BitVec w)
    (hlow : -(128 * 256 ^ k : Nat) ≤ value.toInt) (hhigh : value.toInt < (128 * 256 ^ k : Nat)) :
    encodeIntOrdered (k + 1) value.toNat = beBytes (k + 1) (value.toInt + (128 * 256 ^ k : Nat)).toNat := by
  rw [encodeIntOrdered_eq]
  congr 1
  have hsize : (256 ^ (k + 1) : Nat) = 2 * (128 * 256 ^ k) := by ring
  have hcongr : (value.toNat : Int) ≡ value.toInt [ZMOD (256 ^ (k + 1) : Nat)] := by
    rw [BitVec.toInt_eq_toNat_cond]
    split
    · rfl
    · exact (Int.modEq_iff_dvd.mpr (by
        simpa using Int.natCast_dvd_natCast.mpr hwidth)).symm
  have hmod := (hcongr.add_right ((128 * 256 ^ k : Nat) : Int))
  have hvalue : ((value.toNat + 128 * 256 ^ k : Nat) : Int) % (256 ^ (k + 1) : Nat) =
      value.toInt + (128 * 256 ^ k : Nat) := by
    rw [Nat.cast_add, hmod]
    apply Int.emod_eq_of_lt
    · omega
    · rw [hsize]
      push_cast at hhigh ⊢
      omega
  omega

/-- Setting a bit above a number adds it. -/
theorem xor_two_pow_of_lt {n : Nat} (h : n < 2 ^ k) : n ^^^ 2 ^ k = n + 2 ^ k := by
  rw [← Nat.or_two_pow_eq_add_of_lt h]
  apply Nat.eq_of_testBit_eq
  intro i
  rw [Nat.testBit_xor, Nat.testBit_or, Nat.testBit_two_pow]
  by_cases hi : k = i
  · subst hi
    rw [Nat.testBit_lt_two_pow h, Bool.false_xor, Bool.false_or]
  · simp [hi]

/-- The sortable bits of a float count its place in the total order. -/
theorem toNat_sortableBits (bits : BitVec (w + 1)) :
    -(2 ^ w : Nat) ≤ totalOrder bits ∧ totalOrder bits < (2 ^ w : Nat) ∧
      (sortableBits bits).toNat = (totalOrder bits + (2 ^ w : Nat)).toNat := by
  have hlt := bits.isLt
  rw [pow_succ] at hlt
  unfold sortableBits totalOrder FloatFormat.magnitude
  rw [Nat.add_sub_cancel]
  by_cases hsign : bits.msb = false
  · have hsmall : bits.toNat < 2 ^ w := by
      have := BitVec.msb_eq_false_iff_two_mul_lt.mp hsign
      rw [pow_succ] at this
      omega
    have htop : 2 ^ w % 2 ^ (w + 1) = 2 ^ w := Nat.mod_eq_of_lt (Nat.pow_lt_pow_succ (by norm_num))
    rw [if_pos hsign, if_pos hsign, Nat.mod_eq_of_lt hsmall, BitVec.toNat_xor, BitVec.toNat_twoPow, htop,
      xor_two_pow_of_lt hsmall]
    omega
  · have hbig : 2 ^ w ≤ bits.toNat := by
      have := (not_congr BitVec.msb_eq_false_iff_two_mul_lt).mp hsign
      rw [pow_succ] at this
      omega
    have hrest : bits.toNat % 2 ^ w = bits.toNat - 2 ^ w := by
      rw [Nat.mod_eq_sub_mod hbig, Nat.mod_eq_of_lt (by omega)]
    rw [if_neg hsign, if_neg hsign, hrest, BitVec.toNat_not, pow_succ]
    omega

theorem orders_floats (hwidth : 2 ^ w = 128 * 256 ^ k) :
    Orders compareFloats (fun (bits : BitVec (w + 1)) x => x = beBytes (k + 1) (sortableBits bits).toNat) := by
  have hsize : 2 * 2 ^ w = 256 ^ (k + 1) := by
    rw [hwidth]
    ring
  refine ((orders_shifted hsize).comap totalOrder).mono ?_
  rintro bits _ rfl
  obtain ⟨hlow, hhigh, hbits⟩ := toNat_sortableBits bits
  exact ⟨hlow, hhigh, by rw [hbits]⟩

/-- Signed machine numbers that fit the bytes written. -/
theorem orders_signed (hwidth : 256 ^ (k + 1) ∣ 2 ^ w) :
    Orders (fun a b : BitVec w => compare a.toInt b.toInt)
      (fun value x => -(128 * 256 ^ k : Nat) ≤ value.toInt ∧ value.toInt < (128 * 256 ^ k : Nat) ∧
        x = encodeIntOrdered (k + 1) value.toNat) := by
  have hsize : 2 * (128 * 256 ^ k) = 256 ^ (k + 1) := by ring
  refine ((orders_shifted hsize).comap BitVec.toInt).mono ?_
  rintro value _ ⟨hlow, hhigh, rfl⟩
  exact ⟨hlow, hhigh, encodeIntOrdered_toInt hwidth value hlow hhigh⟩

/-- Signed machine numbers written in full. -/
theorem orders_signed_full (hwidth : w + 1 = 8 * (k + 1)) :
    Orders (fun a b : BitVec (w + 1) => compare a.toInt b.toInt)
      (fun value x => x = encodeIntOrdered (k + 1) value.toNat) := by
  have hsize : 256 ^ (k + 1) = 2 ^ (w + 1) := by
    rw [hwidth, pow_mul]
    norm_num
  have hhalf : 128 * 256 ^ k = 2 ^ w := by
    rw [pow_succ, pow_succ] at hsize
    omega
  refine (orders_signed (dvd_of_eq hsize)).mono ?_
  rintro value _ rfl
  have hlow := BitVec.le_toInt value
  have hhigh := @BitVec.toInt_lt _ value
  rw [Nat.add_sub_cancel] at hlow hhigh
  rw [hhalf]
  push_cast
  exact ⟨hlow, hhigh, rfl⟩

/-! ## Byte strings -/

theorem escaped_cons (byte : UInt8) (value : Bytes) :
    escaped (byte :: value) = byte :: ((if byte = 0 then [0xff] else []) ++ escaped value) := by
  unfold escaped
  by_cases hzero : byte = 0
  · subst hzero
    rw [escapeBytes_zero]
    rfl
  · rw [escapeBytes_cons hzero, if_neg hzero]
    rfl

/-- The terminator sorts before every escaped string that is not empty. -/
theorem terminator_before {component : Bytes} (h : component ≠ []) (s t : Bytes) :
    compareBytes ([0, 0] ++ s) (escaped component ++ t) = .lt := by
  obtain ⟨byte, component, rfl⟩ := exists_cons_of_ne_nil h
  rw [escaped_cons]
  by_cases hzero : byte = 0
  · -- an escaped zero is followed by `0xff`
    subst hzero
    simp only [cons_append, compareBytes_cons_self, if_pos]
    exact compareBytes_cons_of_lt (by decide) _ _
  · apply compareBytes_cons_of_lt
    rw [UInt8.lt_iff_toNat_lt]
    exact Nat.pos_of_ne_zero fun h => hzero (UInt8.toNat_inj.mp h)

/-- Escaped strings compare as the strings do. -/
theorem orders_escaped : Orders compareBytes (fun a x => x = escaped a) := by
  rintro a b _ _ rfl rfl
  induction a generalizing b with
  | nil =>
    intro s t
    cases b with
    | nil => exact compareBytes_append_left [0, 0] s t
    | cons byte b =>
      rw [compareBytes_nil_cons]
      exact terminator_before (cons_ne_nil byte b) s t
  | cons byte a ih =>
    intro s t
    cases b with
    | nil =>
      rw [compareBytes_cons_nil, ← compareBytes_swap]
      exact congrArg Ordering.swap (terminator_before (cons_ne_nil byte a) t s)
    | cons byte' b =>
      rw [escaped_cons, escaped_cons, cons_append, cons_append]
      by_cases hbyte : byte = byte'
      · subst hbyte
        rw [compareBytes_cons_self, compareBytes_cons_self, append_assoc, append_assoc, compareBytes_append_left, ih]
      · -- different first bytes decide on both sides
        rw [compareBytes_cons, compareBytes_cons]
        cases hcmp : compare byte.toNat byte'.toNat with
        | lt => rfl
        | gt => rfl
        | eq => exact absurd (UInt8.toNat_inj.mp (Nat.compare_eq_eq.mp hcmp)) hbyte

/-! ## Types without nested types -/

theorem orders_signedWidth (width : IntegerWidth) :
    Orders (fun a b : BitVec 64 => compare a.toInt b.toInt)
      (fun value x => encodeSignedOrdered value width = .ok x) := by
  obtain ⟨k, hbytes, hk⟩ : ∃ k, width.bytes = k + 1 ∧ k ≤ 7 := by
    cases width
    exacts [⟨0, rfl, by omega⟩, ⟨1, rfl, by omega⟩, ⟨3, rfl, by omega⟩, ⟨7, rfl, by omega⟩]
  have hdvd : 256 ^ (k + 1) ∣ 2 ^ 64 := by
    rw [show 256 = 2 ^ 8 by norm_num, ← pow_mul]
    exact pow_dvd_pow 2 (by omega)
  have hhalf : (2 : Int) ^ (8 * width.bytes - 1) = (128 * 256 ^ k : Nat) := by
    rw [hbytes, show 8 * (k + 1) - 1 = 7 + 8 * k by omega, pow_add, pow_mul]
    push_cast
    norm_num
  refine (orders_signed hdvd).mono ?_
  intro value x h
  simp only [encodeSignedOrdered, bind_eq_ok, failIf_eq_ok, not_not, ok.injEq] at h
  obtain ⟨-, ⟨hlow, hhigh⟩, rfl⟩ := h
  rw [hhalf] at hlow hhigh
  rw [hbytes]
  exact ⟨hlow, hhigh, rfl⟩

theorem orders_unsignedWidth (width : IntegerWidth) :
    Orders (fun a b : BitVec 64 => compare a.toNat b.toNat)
      (fun value x => encodeUnsignedOrdered value width = .ok x) := by
  refine ((orders_beBytes width.bytes).comap BitVec.toNat).mono ?_
  intro value x h
  simp only [encodeUnsignedOrdered, bind_eq_ok, failIf_eq_ok, not_not, ok.injEq] at h
  obtain ⟨-, hfits, rfl⟩ := h
  exact ⟨hfits, rfl⟩

theorem orders_float32 :
    Orders (fun a b : CanonicalF32 => compareFloats a.bits b.bits)
      (fun value x => x = beBytes 4 (sortableF32Bits value.bits).toNat) :=
  (orders_floats (k := 3) (by norm_num)).comap (fun value : CanonicalF32 => value.bits)

theorem orders_float64 :
    Orders (fun a b : CanonicalF64 => compareFloats a.bits b.bits)
      (fun value x => x = beBytes 8 (sortableF64Bits value.bits).toNat) :=
  (orders_floats (k := 7) (by norm_num)).comap (fun value : CanonicalF64 => value.bits)

theorem orders_memcomparable : Orders compareBytes (fun value x => encodeMemcomparableBytes value = .ok x) := by
  refine orders_escaped.mono ?_
  intro value x h
  exact (encodeMemcomparableBytes_eq_ok.mp h).2

theorem orders_vector (vectorType : VectorType) :
    Orders (List.compareLex fun a b : CanonicalF32 => compareFloats a.bits b.bits)
      (fun values x => encodeVectorOrdered values vectorType = .ok x) := by
  refine (orders_float32.sized vectorType.dimension).mono ?_
  intro values x h
  simp only [encodeVectorOrdered, bind_eq_ok, failIf_eq_ok, not_not, ok.injEq] at h
  obtain ⟨-, hdimension, rfl⟩ := h
  refine ⟨hdimension, values.map fun value => beBytes 4 (sortableF32Bits value.bits).toNat, ?_, ?_⟩
  · rw [List.forall₂_map_right_iff]
    exact List.forall₂_same.mpr fun _ _ => rfl
  · rw [List.flatMap_def]

theorem orders_primitive (logicalType : LogicalType) :
    Orders (comparePrimitive logicalType) (fun value x => encodePrimitiveOrdered logicalType value = .ok x) := by
  cases logicalType with
  | boolean =>
    refine ((orders_beBytes 1).comap Bool.toNat).of_shape ScalarValue.boolean ?_ (fun _ _ => rfl)
    intro value x h
    cases value <;> cases h
    rename_i flag
    exact ⟨flag, rfl, by cases flag <;> decide, by cases flag <;> rfl⟩
  | signed width =>
    refine (orders_signedWidth width).of_shape ScalarValue.signed ?_ (fun _ _ => rfl)
    intro value x h
    cases value <;> first | exact ⟨_, rfl, h⟩ | cases h
  | unsigned width =>
    refine (orders_unsignedWidth width).of_shape ScalarValue.unsigned ?_ (fun _ _ => rfl)
    intro value x h
    cases value <;> first | exact ⟨_, rfl, h⟩ | cases h
  | decimal decimal =>
    refine (orders_signed_full (w := 127) (k := 15) (by norm_num)).of_shape ScalarValue.decimal ?_ (fun _ _ => rfl)
    intro value x h
    cases value with
    | decimal value =>
      obtain ⟨_, -, hok⟩ := bind_eq_ok.mp h
      cases hok
      exact ⟨value, rfl, rfl⟩
    | _ => cases h
  | float32 =>
    refine orders_float32.of_shape ScalarValue.float32 ?_ (fun _ _ => rfl)
    intro value x h
    cases value <;> cases h
    exact ⟨_, rfl, rfl⟩
  | float64 =>
    refine orders_float64.of_shape ScalarValue.float64 ?_ (fun _ _ => rfl)
    intro value x h
    cases value <;> cases h
    exact ⟨_, rfl, rfl⟩
  | text =>
    refine (orders_memcomparable.comap Text.bytes).of_shape ScalarValue.text ?_ (fun _ _ => rfl)
    intro value x h
    cases value with
    | text value =>
      obtain ⟨_, -, hencode⟩ := bind_eq_ok.mp h
      exact ⟨value, rfl, hencode⟩
    | _ => cases h
  | binary =>
    refine orders_memcomparable.of_shape ScalarValue.binary ?_ (fun _ _ => rfl)
    intro value x h
    cases value with
    | binary value =>
      obtain ⟨_, -, hencode⟩ := bind_eq_ok.mp h
      exact ⟨value, rfl, hencode⟩
    | _ => cases h
  | date =>
    refine (orders_signed_full (w := 31) (k := 3) (by norm_num)).of_shape ScalarValue.date ?_ (fun _ _ => rfl)
    intro value x h
    cases value <;> cases h
    exact ⟨_, rfl, rfl⟩
  | time =>
    refine ((orders_beBytes 8).comap (BitVec.toNat : BitVec 64 → Nat)).of_shape ScalarValue.time ?_ (fun _ _ => rfl)
    intro value x h
    cases value with
    | time value =>
      obtain ⟨_, -, hok⟩ := bind_eq_ok.mp h
      cases hok
      exact ⟨value, rfl, value.isLt, rfl⟩
    | _ => cases h
  | timestamp =>
    refine (orders_signed_full (w := 63) (k := 7) (by norm_num)).of_shape ScalarValue.timestamp ?_ (fun _ _ => rfl)
    intro value x h
    cases value <;> cases h
    exact ⟨_, rfl, rfl⟩
  | interval =>
    -- three signed parts one after the other, months and days of the same width
    have hmonths := orders_signed_full (w := 31) (k := 3) (by norm_num)
    have hnanoseconds := orders_signed_full (w := 63) (k := 7) (by norm_num)
    refine ((hmonths.pair hmonths).pair hnanoseconds).of_shape
      (fun parts => ScalarValue.interval parts.1.1 parts.1.2 parts.2) ?_ (fun _ _ => rfl)
    intro value x h
    cases value <;> cases h
    rename_i months days nanoseconds
    exact ⟨((months, days), nanoseconds), rfl, _, _, ⟨_, _, rfl, rfl, rfl⟩, rfl, rfl⟩
  | uuid =>
    refine ((orders_bytes 16).comap Uuid.bytes).of_shape ScalarValue.uuid ?_ (fun _ _ => rfl)
    intro value x h
    cases value <;> cases h
    rename_i value
    exact ⟨value, rfl, value.size, rfl⟩
  | vector vectorType =>
    refine (orders_vector vectorType).of_shape ScalarValue.vector ?_ (fun _ _ => rfl)
    intro value x h
    cases value <;> first | exact ⟨_, rfl, h⟩ | cases h
  | json | array | map =>
    -- these payloads are never written here
    intro value _ x _ h
    cases value <;> cases h

/-! ## All types -/

/-- Null is one low byte, any other value is marked by a higher one. -/
theorem orders_marked {payload : ScalarValue → Checked Bytes} (h : Orders cmp (fun value x => payload value = .ok x)) :
    Orders (nullsFirst cmp) (fun value x => markComponent value (payload value) = .ok x) := by
  intro a b x y hx hy s t
  unfold nullsFirst
  rcases markComponent_eq_ok.mp hx with ⟨ha, rfl⟩ | ⟨ha, x, hpx, -, rfl⟩ <;>
    rcases markComponent_eq_ok.mp hy with ⟨hb, rfl⟩ | ⟨hb, y, hpy, -, rfl⟩ <;> simp only [ha, hb]
  · exact compareBytes_append_left [0] s t
  · exact compareBytes_cons_of_lt (by decide) _ _
  · rw [← compareBytes_swap]
    exact congrArg Ordering.swap (compareBytes_cons_of_lt (by decide) _ _)
  · rw [cons_append, cons_append, compareBytes_cons_self, h a b x y hpx hpy]
    rfl

/-- A component inside an array or a map is escaped, and it is never empty. -/
theorem orders_component (h : Orders cmp (fun value x => encode value = .ok x)) :
    Orders cmp (fun value z => ∃ component, encode value = .ok component ∧ z = escaped component) := by
  rintro a b _ _ ⟨x, hx, rfl⟩ ⟨y, hy, rfl⟩ s t
  rw [orders_escaped x y _ _ rfl rfl, h.compare_eq hx hy]

/-- Every component a nested type is made of is written. -/
def WritesSomething (encode : ScalarValue → Checked Bytes) : Prop :=
  ∀ value component, encode value = .ok component → component ≠ []

theorem orders_array (hne : WritesSomething encode) (h : Orders cmp (fun value x => encode value = .ok x)) :
    Orders (List.compareLex cmp) (fun values x => encodeArrayOrdered encode values = .ok x) := by
  refine ((orders_component h).terminated [0, 0] ?_).mono ?_
  · rintro value _ ⟨component, hcomponent, rfl⟩ s t
    exact terminator_before (hne value component hcomponent) s t
  · intro values x hx
    simp only [encodeArrayOrdered, bind_eq_ok, ok.injEq] at hx
    obtain ⟨bytes, hbytes, -, -, rfl⟩ := hx
    obtain ⟨components, hall, rfl⟩ := encodeArrayComponents_eq_ok hbytes
    refine ⟨components.map escaped, ?_, by rw [List.flatMap_def]⟩
    rw [List.forall₂_map_right_iff]
    exact hall.imp fun _ component hencode => ⟨component, hencode, rfl⟩

theorem orders_map {cmpKey cmpValue : ScalarValue → ScalarValue → Ordering}
    {encodeKey encodeValue : ScalarValue → Checked Bytes} (hne : WritesSomething encodeKey)
    (hKey : Orders cmpKey (fun value x => encodeKey value = .ok x))
    (hValue : Orders cmpValue (fun value x => encodeValue value = .ok x)) :
    Orders (List.compareLex fun a b => (cmpKey a.1 b.1).then (cmpValue a.2 b.2))
      (fun entries x => encodeMapOrdered encodeKey encodeValue entries = .ok x) := by
  refine (((orders_component hKey).pair (orders_component hValue)).terminated [0, 0] ?_).mono ?_
  · rintro entry _ ⟨_, _, ⟨component, hcomponent, rfl⟩, -, rfl⟩ s t
    rw [List.append_assoc]
    exact terminator_before (hne _ component hcomponent) s _
  · intro entries x hx
    simp only [encodeMapOrdered, bind_eq_ok, ok.injEq] at hx
    obtain ⟨bytes, hbytes, -, -, rfl⟩ := hx
    obtain ⟨components, hall, -, rfl⟩ := encodeMapComponents_eq_ok hbytes
    refine ⟨components.map escapedEntry, ?_, by rw [List.flatMap_def]⟩
    rw [List.forall₂_map_right_iff]
    exact hall.imp fun _ component hencode =>
      ⟨_, _, ⟨component.1, hencode.2.1, rfl⟩, ⟨component.2, hencode.2.2, rfl⟩, rfl⟩

/-- The ordered component is a code for the order of its type. -/
theorem orders_orderedComponent (logicalType : LogicalType) :
    Orders (logicalCompare logicalType) (fun value x => encodeOrderedComponent logicalType value = .ok x) := by
  induction logicalType with
  | array element ih =>
    refine orders_marked ((orders_array (fun _ _ h => encodeOrderedComponent_ne_nil h) ih).of_shape ScalarValue.array ?_
      fun _ _ => rfl)
    intro value x h
    cases value <;> first | exact ⟨_, rfl, h⟩ | cases h
  | map keyType valueType ihKey ihValue =>
    refine orders_marked ((orders_map (fun _ _ h => encodeOrderedComponent_ne_nil h) ihKey ihValue).of_shape
      ScalarValue.map ?_ fun _ _ => rfl)
    intro value x h
    cases value <;> first | exact ⟨_, rfl, h⟩ | cases h
  | _ => exact orders_marked (orders_primitive _)

/-- The components of a row, each written at the type of its column. -/
def EncodesRow : List LogicalType → List ScalarValue → List Bytes → Prop :=
  EncodesColumns fun logicalType value x => encodeOrderedComponent logicalType value = .ok x

/-- Encodings compare as the values of their type do, none is a proper beginning of another, and concatenated components
compare as the rows do. -/
theorem orderedComponents_compare :
    (∀ logicalType a b x y, encodeOrderedComponent logicalType a = .ok x →
      encodeOrderedComponent logicalType b = .ok y →
      compareBytes x y = logicalCompare logicalType a b ∧ (x <+: y → x = y)) ∧
    ∀ columns as bs xs ys, EncodesRow columns as xs → EncodesRow columns bs ys →
      compareBytes xs.flatten ys.flatten = compareColumns logicalCompare columns as bs := by
  constructor
  · intro logicalType a b x y hx hy
    have hcode := orders_orderedComponent logicalType
    exact ⟨hcode.compare_eq hx hy, hcode.eq_of_isPrefix hx hy⟩
  · intro columns as bs xs ys hxs hys
    exact (Orders.columns orders_orderedComponent columns).compare_eq ⟨xs, hxs, rfl⟩ ⟨ys, hys, rfl⟩

theorem orderedComponents_compare_nestedArray :
    compareBytes [1, 0, 255, 0, 0, 0, 0] [1, 1, 0, 255, 0, 0, 0, 0] =
      logicalCompare (.array .boolean) (.array [.null]) (.array [.boolean false]) ∧
    compareBytes [1, 1, 1, 0, 0] [1, 1, 0] =
      compareColumns logicalCompare [.boolean, .array .boolean] [.boolean true, .array []] [.boolean true, .null] :=
  ⟨(orderedComponents_compare.1 _ _ _ _ _ (by decide) (by decide)).1,
    orderedComponents_compare.2 _ _ _ [[1, 1], [1, 0, 0]] [[1, 1], [0]] ⟨by decide, by decide, trivial⟩
      ⟨by decide, by decide, trivial⟩⟩

end Hyphae.Types
