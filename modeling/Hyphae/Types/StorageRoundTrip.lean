import Hyphae.Types.OrderedRoundTrip
import Hyphae.Types.Storage

/-!
# Stored values are decoded to what was encoded

The same statement for the row-storage codec, and both codecs together: what an
encoder accepts, its decoder gives back exactly if no array and no map inside the
value has more than 100000 parts. The encoders do not check that bound, so a longer
one is written and cannot be read.
-/

namespace Hyphae.Types

open Lib Except List

variable {encoded bytes payload : Bytes} {part : Option Bytes} {value : ScalarValue} {count : Nat}
  {values : List ScalarValue} {entries : List (ScalarValue × ScalarValue)} {json : JsonLibrary}
  {logicalType : LogicalType}

/-! ## Frames -/

/-- A payload behind its length. -/
def framed (payload : Bytes) : Bytes := leBytes 4 payload.length ++ payload

/-- A part of an array or a map behind its null marker. -/
def marked : Option Bytes → Bytes
  | none => [0]
  | some payload => 1 :: framed payload

/-- What an element is stored as. -/
inductive StoredAs (encode : ScalarValue → Checked Bytes) : ScalarValue → Option Bytes → Prop
  | null : StoredAs encode .null none
  | payload {value : ScalarValue} {payload : Bytes} : value.isNull = false → encode value = .ok payload →
      payload.length < 2 ^ 32 → StoredAs encode value (some payload)

/-- What a stored element is read as. -/
def readPart (decode : Bytes → Checked ScalarValue) : Option Bytes → Checked ScalarValue
  | none => .ok .null
  | some payload => decode payload

theorem putNestedPayload_eq_ok :
    putNestedPayload encoded payload = .ok bytes ↔ payload.length < 2 ^ 32 ∧ bytes = encoded ++ framed payload := by
  simp only [putNestedPayload, bind_eq_ok, failIf_eq_ok, Nat.not_le, ok.injEq, framed, append_assoc]
  constructor
  · rintro ⟨-, hlen, rfl⟩
    exact ⟨hlen, rfl⟩
  · rintro ⟨hlen, rfl⟩
    exact ⟨(), hlen, rfl⟩

theorem takeNestedPayload_framed (h : payload.length < 2 ^ 32) (rest : Bytes) :
    takeNestedPayload (framed payload ++ rest) = .ok (payload, rest) := by
  have hfour : (leBytes 4 payload.length).length = 4 := length_leBytes _ _
  have hfield : (framed payload ++ rest).take 4 = leBytes 4 payload.length := by
    rw [framed, append_assoc, take_left' hfour]
  have hrest : (framed payload ++ rest).drop 4 = payload ++ rest := by
    rw [framed, append_assoc, drop_left' hfour]
  have hlen : 4 ≤ (framed payload ++ rest).length := by
    rw [framed, append_assoc, length_append, hfour]
    omega
  simp only [takeNestedPayload, hfield, hrest, ofLe_leBytes (show payload.length < 256 ^ 4 by omega)]
  rw [failIf_bind (by omega), failIf_bind (by rw [length_append]; omega), take_left, drop_left]

/-- A marked part is read, and what stands behind it is left. -/
theorem takeMarkedPayload_marked {decode : Bytes → Checked ScalarValue}
    (h : ∀ payload ∈ part, payload.length < 2 ^ 32) (rest : Bytes) :
    takeMarkedPayload decode (marked part ++ rest) = (readPart decode part >>= fun value => .ok (value, rest)) := by
  cases part with
  | none => rfl
  | some payload =>
    have hframe := takeNestedPayload_framed (h payload rfl) rest
    simp only [marked, cons_append, takeMarkedPayload, hframe, readPart, ok_bind]
    rfl

theorem StoredAs.length_lt {encode : ScalarValue → Checked Bytes} (h : StoredAs encode value part) :
    ∀ payload ∈ part, payload.length < 2 ^ 32 := by
  cases h with
  | null => simp
  | payload _ _ hlen => simpa using hlen

/-- A stored element is read back exactly if its payload is. -/
theorem StoredAs.read_iff {encode : ScalarValue → Checked Bytes}
    {decode : Bytes → Checked ScalarValue} {P : ScalarValue → Prop} (hnull : P .null)
    (hiff : ∀ value encoded, encode value = .ok encoded → (decode encoded = .ok value ↔ P value))
    (h : StoredAs encode value part) : readPart decode part = .ok value ↔ P value := by
  cases h with
  | null => exact iff_of_true rfl hnull
  | payload _ hencode _ => exact hiff _ _ hencode

theorem takeCount_leBytes (h : count < 2 ^ 32) (rest : Bytes) :
    takeCount (leBytes 4 count ++ rest) =
      if maxDecodedCount < count then .error .scalarLengthExceeded else .ok (count, rest) := by
  have hfour : (leBytes 4 count).length = 4 := length_leBytes _ _
  have hfield : (leBytes 4 count ++ rest).take 4 = leBytes 4 count := take_left' hfour
  have hrest : (leBytes 4 count ++ rest).drop 4 = rest := drop_left' hfour
  rw [takeCount, failIf_bind (by rw [length_append, hfour]; omega)]
  simp only [hfield, hrest, ofLe_leBytes (show count < 256 ^ 4 by omega)]
  by_cases hcount : maxDecodedCount < count
  · rw [failIf_of hcount, if_pos hcount]
    rfl
  · rw [failIf_of_not hcount, if_neg hcount]
    rfl

/-- Items behind their count are read back exactly if the count is allowed and the loop reads them to the end. -/
theorem counted_iff {α : Type} {items : List α} {loop : Nat → Bytes → Checked (List α × Bytes)}
    {stored : Bytes} {Q : Prop} (hcount : items.length < 2 ^ 32)
    (hloop : ∀ left, loop items.length stored = .ok (items, left) ↔ left = [] ∧ Q) :
    (do
      let (count, remaining) ← takeCount (leBytes 4 items.length ++ stored)
      let (items, remaining) ← loop count remaining
      .failIf (remaining ≠ []) .invalidScalarEncoding
      .ok items : Checked (List α)) = .ok items ↔ items.length ≤ maxDecodedCount ∧ Q := by
  rw [takeCount_leBytes hcount]
  by_cases hbound : maxDecodedCount < items.length
  · rw [if_pos hbound, error_bind]
    simp only [reduceCtorEq, false_iff, not_and]
    omega
  · rw [if_neg hbound, ok_bind]
    simp only [bind_eq_ok, failIf_eq_ok, not_not]
    constructor
    · rintro ⟨⟨found, left⟩, hrun, -, hempty, hfinal⟩
      cases hfinal
      exact ⟨by omega, ((hloop _).mp hrun).2⟩
    · rintro ⟨-, hread⟩
      exact ⟨(items, []), (hloop _).mpr ⟨rfl, hread⟩, (), rfl, rfl⟩

section Nested

variable {encode : ScalarValue → Checked Bytes} {decode : Bytes → Checked ScalarValue}
  {encodeKey encodeKeyOrdered encodeValue : ScalarValue → Checked Bytes}
  {decodeKey decodeValue : Bytes → Checked ScalarValue} {P Q : ScalarValue → Prop}
  {previous : Option Bytes}

/-! ## Arrays -/

theorem encodeArrayElements_eq_ok (h : encodeArrayElements encode encoded values = .ok bytes) :
    ∃ parts, List.Forall₂ (StoredAs encode) values parts ∧ bytes = encoded ++ parts.flatMap marked := by
  induction values generalizing encoded with
  | nil =>
    cases h
    exact ⟨[], .nil, by simp⟩
  | cons value values ih =>
    rw [encodeArrayElements] at h
    cases hnull : value.isNull with
    | true =>
      rw [if_pos hnull] at h
      obtain ⟨parts, hall, rfl⟩ := ih h
      rw [ScalarValue.eq_null hnull]
      exact ⟨none :: parts, .cons .null hall, by simp [marked]⟩
    | false =>
      rw [if_neg (by simp [hnull])] at h
      simp only [bind_eq_ok, putNestedPayload_eq_ok] at h
      obtain ⟨payload, hpayload, _, ⟨hlen, rfl⟩, -, -, hrest⟩ := h
      obtain ⟨parts, hall, rfl⟩ := ih hrest
      exact ⟨some payload :: parts, .cons (.payload hnull hpayload hlen) hall, by simp [marked]⟩

theorem decodeArrayElements_eq_ok {parts : List (Option Bytes)} {rest left : Bytes}
    (h : ∀ part ∈ parts, ∀ payload ∈ part, payload.length < 2 ^ 32) :
    decodeArrayElements decode parts.length (parts.flatMap marked ++ rest) = .ok (values, left) ↔
      left = rest ∧ List.Forall₂ (fun part value => readPart decode part = .ok value) parts values := by
  induction parts generalizing values with
  | nil =>
    simp only [length_nil, decodeArrayElements, flatMap_nil, nil_append, ok.injEq, Prod.mk.injEq, forall₂_nil_left_iff]
    exact ⟨fun heq => ⟨heq.2.symm, heq.1.symm⟩, fun heq => ⟨heq.2.symm, heq.1.symm⟩⟩
  | cons part parts ih =>
    obtain ⟨hpart, hparts⟩ := forall_mem_cons.mp h
    rw [length_cons, decodeArrayElements, flatMap_cons, append_assoc, takeMarkedPayload_marked hpart,
      forall₂_cons_left_iff]
    simp only [bind_eq_ok]
    constructor
    · rintro ⟨_, ⟨value, hread, hstep⟩, ⟨values, left⟩, hrest, hfinal⟩
      cases hstep
      cases hfinal
      obtain ⟨rfl, hall⟩ := (ih hparts).mp hrest
      exact ⟨rfl, value, values, hread, hall, rfl⟩
    · rintro ⟨rfl, value, values, hread, hall, rfl⟩
      exact ⟨_, ⟨value, hread, rfl⟩, (values, _), (ih hparts).mpr ⟨rfl, hall⟩, rfl⟩

/-- An array decodes to its values exactly if it is short enough and every element decodes to itself. -/
theorem decodeArrayStorage_iff (hnull : P .null)
    (hiff : ∀ value encoded, encode value = .ok encoded → (decode encoded = .ok value ↔ P value))
    (h : encodeArrayStorage encode values = .ok encoded) :
    decodeArrayStorage decode encoded = .ok values ↔ values.length ≤ maxDecodedCount ∧ ∀ v ∈ values, P v := by
  simp only [encodeArrayStorage, bind_eq_ok, failIf_eq_ok, Nat.not_le] at h
  obtain ⟨-, hcount, helements⟩ := h
  obtain ⟨parts, hall, rfl⟩ := encodeArrayElements_eq_ok helements
  have hlen : ∀ part ∈ parts, ∀ payload ∈ part, payload.length < 2 ^ 32 :=
    ((forall₂_and_left _ _).mp (hall.flip.imp fun part value hp => ⟨StoredAs.length_lt hp, hp⟩)).1
  have hread : List.Forall₂ (fun part value => readPart decode part = .ok value) parts values ↔ ∀ v ∈ values, P v :=
    forall₂_iff_forall hall fun _ _ hp => hp.read_iff hnull hiff
  refine counted_iff hcount fun left => ?_
  rw [hall.length_eq, ← append_nil (parts.flatMap marked), decodeArrayElements_eq_ok hlen, hread]

/-! ## Maps -/

/-- An entry as it is stored. -/
def storedEntry (entry : Bytes × Option Bytes) : Bytes := framed entry.1 ++ marked entry.2

/-- What an entry is stored as. -/
def EntryStoredAs (encodeKey encodeValue : ScalarValue → Checked Bytes)
    (entry : ScalarValue × ScalarValue) (stored : Bytes × Option Bytes) : Prop :=
  entry.1.isNull = false ∧ encodeKey entry.1 = .ok stored.1 ∧ stored.1.length < 2 ^ 32 ∧
    StoredAs encodeValue entry.2 stored.2

/-- The keys have ordered components, and these stand in order behind a previous one. -/
def KeysAscend (encodeKeyOrdered : ScalarValue → Checked Bytes) :
    Option Bytes → List (ScalarValue × ScalarValue) → Prop
  | _, [] => True
  | previous, entry :: entries =>
    ∃ ordered, encodeKeyOrdered entry.1 = .ok ordered ∧ keyAscends previous ordered ∧
      KeysAscend encodeKeyOrdered (some ordered) entries

theorem putMarkedValue_eq_ok (h : putMarkedValue encodeValue encoded value = .ok bytes) :
    ∃ part, StoredAs encodeValue value part ∧ bytes = encoded ++ marked part := by
  rw [putMarkedValue] at h
  cases hnull : value.isNull with
  | true =>
    rw [if_pos hnull] at h
    cases h
    rw [ScalarValue.eq_null hnull]
    exact ⟨none, .null, rfl⟩
  | false =>
    rw [if_neg (by simp [hnull])] at h
    simp only [bind_eq_ok, putNestedPayload_eq_ok] at h
    obtain ⟨payload, hencode, hlen, rfl⟩ := h
    exact ⟨some payload, .payload hnull hencode hlen, by simp [marked]⟩

theorem encodeMapEntries_eq_ok
    (h : encodeMapEntries encodeKey encodeKeyOrdered encodeValue encoded previous entries = .ok bytes) :
    ∃ stored, List.Forall₂ (EntryStoredAs encodeKey encodeValue) entries stored ∧
      KeysAscend encodeKeyOrdered previous entries ∧ bytes = encoded ++ stored.flatMap storedEntry := by
  induction entries generalizing encoded previous with
  | nil =>
    cases h
    exact ⟨[], .nil, trivial, by simp⟩
  | cons entry entries ih =>
    simp only [encodeMapEntries, bind_eq_ok, failIf_eq_ok, not_not, putNestedPayload_eq_ok] at h
    obtain ⟨-, hnull, payload, hpayload, ordered, hordered, -, hascends, _, ⟨hlen, rfl⟩, grown, hvalue, -, -, hrest⟩ :=
      h
    obtain ⟨stored, hall, hkeys, rfl⟩ := ih hrest
    obtain ⟨part, hpart, rfl⟩ := putMarkedValue_eq_ok hvalue
    exact ⟨(payload, part) :: stored, .cons ⟨Bool.eq_false_iff.mpr hnull, hpayload, hlen, hpart⟩ hall,
      ⟨ordered, hordered, hascends, hkeys⟩, by simp [storedEntry]⟩

theorem decodeMapEntries_eq_ok {stored : List (Bytes × Option Bytes)} {rest left : Bytes}
    (h : ∀ s ∈ stored, s.1.length < 2 ^ 32 ∧ ∀ payload ∈ s.2, payload.length < 2 ^ 32) :
    decodeMapEntries encodeKeyOrdered decodeKey decodeValue previous stored.length
      (stored.flatMap storedEntry ++ rest) = .ok (entries, left) ↔
      left = rest ∧ KeysAscend encodeKeyOrdered previous entries ∧
        List.Forall₂ (fun s entry => decodeKey s.1 = .ok entry.1 ∧ entry.1.isNull = false ∧
          readPart decodeValue s.2 = .ok entry.2) stored entries := by
  induction stored generalizing entries previous with
  | nil =>
    simp only [length_nil, decodeMapEntries, flatMap_nil, nil_append, ok.injEq, Prod.mk.injEq, forall₂_nil_left_iff]
    constructor
    · rintro ⟨rfl, rfl⟩
      exact ⟨rfl, trivial, rfl⟩
    · rintro ⟨rfl, -, rfl⟩
      exact ⟨rfl, rfl⟩
  | cons s stored ih =>
    obtain ⟨⟨hkeyLen, hpartLen⟩, hstored⟩ := forall_mem_cons.mp h
    have hsplit : (s :: stored).flatMap storedEntry ++ rest =
        framed s.1 ++ (marked s.2 ++ (stored.flatMap storedEntry ++ rest)) := by simp [storedEntry]
    rw [length_cons, decodeMapEntries, hsplit, takeNestedPayload_framed hkeyLen, ok_bind, forall₂_cons_left_iff]
    simp only [takeMarkedPayload_marked hpartLen, bind_eq_ok, failIf_eq_ok, not_or, not_not, Bool.not_eq_true]
    constructor
    · rintro ⟨key, hkey, ordered, hordered, -, ⟨hnull, hascends⟩, _, ⟨value, hvalue, hstep⟩, ⟨found, after⟩, hrest,
        hfinal⟩
      cases hstep
      cases hfinal
      obtain ⟨rfl, hkeys, hall⟩ := (ih hstored).mp hrest
      exact ⟨rfl, ⟨ordered, hordered, hascends, hkeys⟩, (key, value), found, ⟨hkey, hnull, hvalue⟩, hall, rfl⟩
    · rintro ⟨rfl, hkeys, ⟨key, value⟩, found, ⟨hkey, hnull, hvalue⟩, hall, rfl⟩
      obtain ⟨ordered, hordered, hascends, hkeys⟩ := hkeys
      exact ⟨key, hkey, ordered, hordered, (), ⟨hnull, hascends⟩, _, ⟨value, hvalue, rfl⟩, (found, _),
        (ih hstored).mpr ⟨rfl, hkeys, hall⟩, rfl⟩

/-- A map decodes to its entries exactly if it is short enough and every key and value decodes to itself. -/
theorem decodeMapStorage_iff (hnull : Q .null)
    (hkey : ∀ key encoded, encodeKey key = .ok encoded → (decodeKey encoded = .ok key ↔ P key))
    (hvalue : ∀ value encoded, encodeValue value = .ok encoded → (decodeValue encoded = .ok value ↔ Q value))
    (h : encodeMapStorage encodeKey encodeKeyOrdered encodeValue entries = .ok encoded) :
    decodeMapStorage encodeKeyOrdered decodeKey decodeValue encoded = .ok entries ↔
      entries.length ≤ maxDecodedCount ∧ ∀ e ∈ entries, P e.1 ∧ Q e.2 := by
  simp only [encodeMapStorage, bind_eq_ok, failIf_eq_ok, Nat.not_le] at h
  obtain ⟨-, hcount, hentries⟩ := h
  obtain ⟨stored, hall, hkeys, rfl⟩ := encodeMapEntries_eq_ok hentries
  have hlen : ∀ s ∈ stored, s.1.length < 2 ^ 32 ∧ ∀ payload ∈ s.2, payload.length < 2 ^ 32 :=
    ((forall₂_and_left _ _).mp (hall.flip.imp fun s e hs => ⟨⟨hs.2.2.1, StoredAs.length_lt hs.2.2.2⟩, hs⟩)).1
  have hread : List.Forall₂ (fun s entry => decodeKey s.1 = .ok entry.1 ∧ entry.1.isNull = false ∧
      readPart decodeValue s.2 = .ok entry.2) stored entries ↔ ∀ e ∈ entries, P e.1 ∧ Q e.2 := by
    apply forall₂_iff_forall hall
    intro e s hs
    rw [hkey _ _ hs.2.1, hs.2.2.2.read_iff hnull hvalue]
    exact ⟨fun hp => ⟨hp.1, hp.2.2⟩, fun hp => ⟨hp.1, hs.1, hp.2⟩⟩
  refine counted_iff hcount fun left => ?_
  rw [hall.length_eq, ← append_nil (stored.flatMap storedEntry), decodeMapEntries_eq_ok hlen, hread]
  exact and_congr_right fun _ => and_iff_right hkeys

end Nested

/-! ## Values without nested types -/

theorem decodeVectorStorage_of_encode {values : List CanonicalF32} {vectorType : VectorType}
    (h : encodeVectorStorage values vectorType = .ok encoded) :
    decodeVectorStorage encoded vectorType = .ok values := by
  simp only [encodeVectorStorage, bind_eq_ok, failIf_eq_ok, not_not, ok.injEq] at h
  obtain ⟨-, hdimension, -, -, rfl⟩ := h
  exact readVector_flatMap (fun _ => length_leBytes 4 _) (fun value => ofNat_ofLe_leBytes (by norm_num) _) hdimension

theorem decodeCanonicalJson_of_encode {value : Text} (h : canonicalJsonBytes json value = .ok encoded) :
    decodeCanonicalJson json encoded = .ok value := by
  have hbytes : encoded = value.bytes ∧ value.bytes.length ≤ maxScalarBytes := by
    simp only [canonicalJsonBytes, bind_eq_ok, ensureScalarLength_eq_ok, ok.injEq] at h
    obtain ⟨-, hlen, -, -, -, -, -, -, rfl⟩ := h
    exact ⟨rfl, hlen⟩
  obtain ⟨rfl, hlen⟩ := hbytes
  rw [decodeCanonicalJson, ensureScalarLength_of_le hlen, ok_bind, Text.fromUtf8_bytes, ok_bind, h]
  rfl

theorem decodePrimitiveStorage_of_encode (h : encodePrimitiveStorage json logicalType value = .ok encoded) :
    decodePrimitiveStorage json encoded logicalType = .ok value := by
  rw [encodePrimitiveStorage.eq_def] at h
  split at h
  · -- boolean
    rename_i value
    cases h
    cases value <;> simp [decodePrimitiveStorage]
  · -- signed
    rename_i width value
    simp only [encodeSignedStorage, bind_eq_ok, failIf_eq_ok, not_not, ok.injEq] at h
    obtain ⟨-, hfits, rfl⟩ := h
    rw [decodePrimitiveStorage, decodeSignedStorage, exactScalarBytes_self (length_leBytes _ _), ok_bind,
      ok_bind, ofLe_leBytes_mod, signExtended_of_fits hfits]
  · -- unsigned
    rename_i width value
    simp only [encodeUnsignedStorage, bind_eq_ok, failIf_eq_ok, not_not, ok.injEq] at h
    obtain ⟨-, hfits, rfl⟩ := h
    rw [decodePrimitiveStorage, decodeUnsignedStorage, exactScalarBytes_self (length_leBytes _ _), ok_bind,
      ok_bind, ofLe_leBytes hfits, BitVec.ofNat_toNat, BitVec.setWidth_eq]
  · -- decimal
    rename_i decimal value
    obtain ⟨_, hvalid, hok⟩ := bind_eq_ok.mp h
    cases hok
    rw [decodePrimitiveStorage, exactScalarBytes_self (length_leBytes _ _), ok_bind]
    simp only [ofNat_ofLe_leBytes (show 2 ^ 128 = 256 ^ 16 by norm_num), hvalid, ok_bind]
  -- float32 and float64
  iterate 2
    · rename_i value
      cases h
      rw [decodePrimitiveStorage, exactScalarBytes_self (length_leBytes _ _), ok_bind,
        ofNat_ofLe_leBytes (by norm_num), FloatFormat.decodeCanonical_bits, ok_bind]
  · -- text
    rename_i value
    obtain ⟨_, -, hok⟩ := bind_eq_ok.mp h
    cases hok
    rw [decodePrimitiveStorage, Text.fromUtf8_bytes, ok_bind]
  · -- binary
    rename_i value
    obtain ⟨_, -, hok⟩ := bind_eq_ok.mp h
    cases hok
    rfl
  · -- date
    rename_i value
    cases h
    rw [decodePrimitiveStorage, exactScalarBytes_self (length_leBytes _ _), ok_bind, ofNat_ofLe_leBytes (by norm_num)]
  · -- time
    rename_i value
    obtain ⟨_, hvalid, hok⟩ := bind_eq_ok.mp h
    cases hok
    rw [decodePrimitiveStorage, exactScalarBytes_self (length_leBytes _ _), ok_bind]
    simp only [ofNat_ofLe_leBytes (show 2 ^ 64 = 256 ^ 8 by norm_num), hvalid, ok_bind]
  · -- timestamp
    rename_i value
    cases h
    rw [decodePrimitiveStorage, exactScalarBytes_self (length_leBytes _ _), ok_bind, ofNat_ofLe_leBytes (by norm_num)]
  · -- interval
    rename_i months days nanoseconds
    cases h
    obtain ⟨hlen, hmonths, hdays, hnanoseconds⟩ := slice_interval
      (length_leBytes 4 months.toNat) (length_leBytes 4 days.toNat) (length_leBytes 8 nanoseconds.toNat)
    simp only [decodePrimitiveStorage, hlen, hmonths, hdays, hnanoseconds,
      ofNat_ofLe_leBytes (show 2 ^ 32 = 256 ^ 4 by norm_num), ofNat_ofLe_leBytes (show 2 ^ 64 = 256 ^ 8 by norm_num)]
    rfl
  · -- uuid
    rename_i value
    cases h
    rw [decodePrimitiveStorage, dif_pos value.size]
  · -- vector
    rename_i vectorType values
    rw [decodePrimitiveStorage, decodeVectorStorage_of_encode h, ok_bind]
  · -- json
    rename_i value
    rw [decodePrimitiveStorage, decodeCanonicalJson_of_encode h, ok_bind]
  · cases h

/-! ## All values -/

theorem storeValue_eq_ok {bytes : Checked Bytes} :
    storeValue value bytes = .ok encoded ↔
      value.isNull = false ∧ bytes = .ok encoded ∧ encoded.length ≤ maxScalarBytes := by
  simp only [storeValue, bind_eq_ok, failIf_eq_ok, ensureScalarLength_eq_ok, ok.injEq, Bool.not_eq_true]
  constructor
  · rintro ⟨-, hnull, _, hbytes, -, hlen, rfl⟩
    exact ⟨hnull, hbytes, hlen⟩
  · rintro ⟨hnull, hbytes, hlen⟩
    exact ⟨(), hnull, encoded, hbytes, (), hlen, rfl⟩

theorem countsWithin_null (logicalType : LogicalType) : CountsWithin logicalType .null := by
  cases logicalType <;> exact trivial

theorem decodeStorage_primitive (hlen : encoded.length ≤ maxScalarBytes)
    (h : encodePrimitiveStorage json logicalType value = .ok encoded) :
    (do ensureScalarLength encoded.length; decodePrimitiveStorage json encoded logicalType) = .ok value := by
  rw [ensureScalarLength_of_le hlen, ok_bind]
  exact decodePrimitiveStorage_of_encode h

/-- The storage decoder gives back exactly the values whose nested counts are within its bound. -/
theorem decodeStorage_iff (json : JsonLibrary) (logicalType : LogicalType) :
    ∀ value encoded, encodeStorage json logicalType value = .ok encoded →
      (decodeStorage json logicalType encoded = .ok value ↔ CountsWithin logicalType value) := by
  induction logicalType with
  | array element ih =>
    intro value encoded h
    obtain ⟨-, hbytes, hlen⟩ := storeValue_eq_ok.mp h
    split at hbytes
    · rename_i values
      have hdecode := decodeArrayStorage_iff (countsWithin_null element) ih hbytes
      rw [decodeStorage, ensureScalarLength_of_le hlen, ok_bind, CountsWithin, ← hdecode]
      simp [bind_eq_ok]
    · cases hbytes
  | map keyType valueType ihKey ihValue =>
    intro value encoded h
    obtain ⟨-, hbytes, hlen⟩ := storeValue_eq_ok.mp h
    split at hbytes
    · rename_i entries
      have hdecode := decodeMapStorage_iff (countsWithin_null valueType) ihKey ihValue hbytes
      rw [decodeStorage, ensureScalarLength_of_le hlen, ok_bind, CountsWithin, ← hdecode]
      simp [bind_eq_ok]
    · cases hbytes
  | _ =>
    intro value encoded h
    obtain ⟨-, hbytes, hlen⟩ := storeValue_eq_ok.mp h
    exact iff_of_true (decodeStorage_primitive hlen hbytes) trivial

/-- Both codecs give back every value they accept, if and only if no array and no map in it is longer than the decoders'
count bound. -/
theorem codecs_round_trip (json : JsonLibrary) (logicalType : LogicalType) (value : ScalarValue) (encoded : Bytes) :
    (encodeStorage json logicalType value = .ok encoded →
      (decodeStorage json logicalType encoded = .ok value ↔ CountsWithin logicalType value)) ∧
    (encodeOrderedComponent logicalType value = .ok encoded →
      (decodeOrderedComponent logicalType encoded = .ok value ↔ CountsWithin logicalType value)) :=
  ⟨decodeStorage_iff json logicalType value encoded, decodeOrderedComponent_iff logicalType value encoded⟩

/-- A library that parses nothing: enough where no JSON is stored. -/
def JsonLibrary.none : JsonLibrary where
  fromStr _ := Option.none
  quote _ := Option.none
  formatFloat _ := []

theorem codecs_round_trip_nestedArray :
    decodeStorage .none (.array (.array .boolean)) [1, 0, 0, 0, 1, 5, 0, 0, 0, 1, 0, 0, 0, 0] =
      .ok (.array [.array [.null]]) ∧
    decodeOrderedComponent (.array .boolean) [1, 0, 255, 0, 0, 0, 0] = .ok (.array [.null]) :=
  ⟨((codecs_round_trip .none (.array (.array .boolean)) (.array [.array [.null]]) _).1 (by decide)).mpr
      (by simp [CountsWithin, maxDecodedCount]),
    ((codecs_round_trip .none (.array .boolean) (.array [.null]) _).2 (by decide)).mpr
      (by simp [CountsWithin, maxDecodedCount])⟩

theorem encodeArrayElements_nulls (encode : ScalarValue → Checked Bytes) (count : Nat) :
    ∀ encoded, encodeArrayElements encode encoded (replicate count .null) =
      .ok (encoded ++ replicate count 0) := by
  induction count with
  | zero =>
    intro encoded
    simp [encodeArrayElements]
  | succ count ih =>
    intro encoded
    have hnull : ScalarValue.null.isNull = true := rfl
    rw [replicate_succ, encodeArrayElements, if_pos hnull, ih, append_assoc]
    rfl

theorem encodeArrayComponents_nulls (element : LogicalType) (count : Nat) :
    encodeArrayComponents (encodeOrderedComponent element) (replicate count .null) =
      .ok (replicate count [0, 255, 0, 0]).flatten := by
  have hnull : encodeOrderedComponent element .null = .ok [0] := by
    cases element <;> rfl
  induction count with
  | zero => rfl
  | succ count ih =>
    have hescaped : encodeMemcomparableBytes [0] = .ok [0, 255, 0, 0] := by decide
    rw [replicate_succ, encodeArrayComponents, hnull, ok_bind, hescaped, ok_bind, ih, ok_bind,
      replicate_succ, flatten_cons]

theorem encodeStorage_nulls (json : JsonLibrary) (element : LogicalType) (h : 4 + count ≤ maxScalarBytes) :
    encodeStorage json (.array element) (.array (replicate count .null)) =
      .ok (leBytes 4 count ++ replicate count 0) := by
  have hcount : ¬ 2 ^ 32 ≤ count := by
    rw [maxScalarBytes] at h
    omega
  apply storeValue_eq_ok.mpr
  refine ⟨rfl, ?_, ?_⟩
  · show encodeArrayStorage _ _ = _
    rw [encodeArrayStorage, length_replicate, failIf_bind hcount, encodeArrayElements_nulls]
  · rwa [length_append, length_leBytes, length_replicate]

theorem encodeOrderedComponent_nulls (element : LogicalType) (h : count * 4 + 2 ≤ maxScalarBytes) :
    encodeOrderedComponent (.array element) (.array (replicate count .null)) =
      .ok (1 :: ((replicate count [0, 255, 0, 0]).flatten ++ [0, 0])) := by
  have hlength : ((replicate count ([0, 255, 0, 0] : Bytes)).flatten ++ [0, 0]).length = count * 4 + 2 := by
    simp
  apply markComponent_eq_ok.mpr
  refine .inr ⟨rfl, _, ?_, ?_, rfl⟩
  · show encodeArrayOrdered _ _ = _
    simp only [encodeArrayOrdered, encodeArrayComponents_nulls, ok_bind, hlength, ensureScalarLength_of_le h]
  · rw [hlength, maxOrderedScalarBytes]
    omega

/-- One element more than the decoders accept: both encoders write it, neither decoder gives it back. -/
theorem codecs_refuse_longArray :
    (∀ json : JsonLibrary, ∃ encoded,
      encodeStorage json (.array .boolean) (.array (List.replicate 100001 .null)) = .ok encoded ∧
      decodeStorage json (.array .boolean) encoded ≠ .ok (.array (List.replicate 100001 .null))) ∧
    ∃ encoded, encodeOrderedComponent (.array .boolean) (.array (List.replicate 100001 .null)) = .ok encoded ∧
      decodeOrderedComponent (.array .boolean) encoded ≠ .ok (.array (List.replicate 100001 .null)) := by
  have hcounts : ¬ CountsWithin (.array .boolean) (.array (List.replicate 100001 .null)) := by
    rintro ⟨hlength, -⟩
    rw [length_replicate, maxDecodedCount] at hlength
    omega
  constructor
  · intro json
    have hencode := encodeStorage_nulls json .boolean (show 4 + 100001 ≤ maxScalarBytes by norm_num [maxScalarBytes])
    exact ⟨_, hencode, fun h => hcounts ((decodeStorage_iff json _ _ _ hencode).mp h)⟩
  · have hencode := encodeOrderedComponent_nulls .boolean
      (show 100001 * 4 + 2 ≤ maxScalarBytes by norm_num [maxScalarBytes])
    exact ⟨_, hencode, fun h => hcounts ((decodeOrderedComponent_iff _ _ _ hencode).mp h)⟩

end Hyphae.Types
