import Hyphae.Types.Ordered

/-!
# Ordered components are decoded to what was encoded

The decoder undoes the encoder on every value the encoder accepts, except that the
decoder alone bounds how many elements an array and how many entries a map has.
`CountsWithin` is that bound, for a value and everything nested in it.
-/

namespace Hyphae.Types

open Lib Except List

variable {w : Nat} {byte : UInt8} {value : ScalarValue} {encoded payload component : Bytes} {values : List ScalarValue}
  {entries : List (ScalarValue × ScalarValue)} {logicalType : LogicalType} {α : Type} {items : List α}
  {vectorType : VectorType}

/-- No array and no map inside the value is longer than the decoders accept. -/
def CountsWithin : LogicalType → ScalarValue → Prop
  | .array element, .array values => values.length ≤ maxDecodedCount ∧ ∀ v ∈ values, CountsWithin element v
  | .map keyType valueType, .map entries =>
    entries.length ≤ maxDecodedCount ∧ ∀ e ∈ entries, CountsWithin keyType e.1 ∧ CountsWithin valueType e.2
  | _, _ => True

/-! ## Numbers -/

@[simp] theorem length_flipSign (bytes : Bytes) : (flipSign bytes).length = bytes.length := by
  cases bytes <;> rfl

@[simp] theorem flipSign_flipSign (bytes : Bytes) : flipSign (flipSign bytes) = bytes := by
  cases bytes with
  | nil => rfl
  | cons byte rest => simp [flipSign]

@[simp] theorem length_encodeIntOrdered (bytes bits : Nat) : (encodeIntOrdered bytes bits).length = bytes := by
  simp [encodeIntOrdered]

/-- Narrowing a number that fits loses nothing. -/
theorem signExtended_of_fits {width : IntegerWidth} {value : BitVec 64} (h : width.fitsSigned value) :
    signExtended width.bytes (value.toNat % 256 ^ width.bytes) = value := by
  apply BitVec.eq_of_toInt_eq
  have hbits : 8 * width.bytes ≤ 64 := by cases width <;> decide
  have hint := BitVec.toInt_eq_toNat_cond value
  obtain ⟨hlow, hhigh⟩ := h
  rw [signExtended, BitVec.toInt_signExtend_of_le hbits, BitVec.toInt_eq_toNat_bmod, BitVec.toNat_ofNat]
  cases width <;> simp only [IntegerWidth.bytes] at hlow hhigh ⊢ <;> simp only [Int.bmod] <;> split at hint <;> omega

theorem unsortableBits_sortableBits (hw : 0 < w) (bits : BitVec w) : unsortableBits (sortableBits bits) = bits := by
  unfold sortableBits
  by_cases hsign : bits.msb = false
  · have htop : (BitVec.twoPow w (w - 1)).msb = true := by
      rw [BitVec.msb_twoPow]
      simp [hw]
    have hflipped : (bits ^^^ BitVec.twoPow w (w - 1)).msb = true := by rw [BitVec.msb_xor, hsign, htop]; rfl
    rw [if_pos hsign, unsortableBits, if_neg (by simp [hflipped]), BitVec.xor_assoc, BitVec.xor_self, BitVec.xor_zero]
  · have hflipped : (~~~bits).msb = false := by
      rw [BitVec.msb_not]
      simp_all
    rw [if_neg hsign, unsortableBits, if_pos hflipped, BitVec.not_not]

theorem unsortableF32Bits_sortable (bits : BitVec 32) : unsortableF32Bits (sortableF32Bits bits) = bits :=
  unsortableBits_sortableBits (by decide) bits

theorem unsortableF64Bits_sortable (bits : BitVec 64) : unsortableF64Bits (sortableF64Bits bits) = bits :=
  unsortableBits_sortableBits (by decide) bits

/-- A machine number is read back from its big-endian bytes. -/
theorem ofNat_ofBe_beBytes {k : Nat} (h : 2 ^ w = 256 ^ k) (value : BitVec w) :
    BitVec.ofNat w (ofBe (beBytes k value.toNat)) = value := by
  rw [ofBe_beBytes (h ▸ value.isLt), BitVec.ofNat_toNat, BitVec.setWidth_eq]

/-- A signed machine number is read back from its ordered bytes. -/
theorem ofNat_ofBe_flipSign {k : Nat} (h : 2 ^ w = 256 ^ k) (value : BitVec w) :
    BitVec.ofNat w (ofBe (flipSign (encodeIntOrdered k value.toNat))) = value := by
  rw [encodeIntOrdered, flipSign_flipSign, ofNat_ofBe_beBytes h]

theorem chunksExact4_flatMap (chunk : α → Bytes) (hchunk : ∀ a, (chunk a).length = 4) (items : List α) :
    chunksExact4 (items.flatMap chunk) = items.map chunk := by
  induction items with
  | nil => rfl
  | cons a items ih =>
    obtain ⟨b₀, b₁, b₂, b₃, hbytes⟩ := length_eq_four.mp (hchunk a)
    rw [flatMap_cons, map_cons, ← ih, hbytes]
    rfl

/-! ## Escaped byte strings -/

@[simp] theorem escapeBytes_nil : escapeBytes [] = [] := rfl

theorem escapeBytes_zero (value : Bytes) : escapeBytes (0 :: value) = 0 :: 0xff :: escapeBytes value := rfl

theorem escapeBytes_cons (h : byte ≠ 0) (value : Bytes) : escapeBytes (byte :: value) = byte :: escapeBytes value := by
  simp [escapeBytes, h]

theorem length_escapeBytes_cons (byte : UInt8) (value : Bytes) :
    (escapeBytes (byte :: value)).length = (if byte = 0 then 2 else 1) + (escapeBytes value).length := by
  by_cases h : byte = 0
  · subst h
    rw [escapeBytes_zero, if_pos rfl]
    simp only [length_cons]
    omega
  · rw [escapeBytes_cons h, if_neg h, length_cons, Nat.add_comm]

theorem length_le_escapeBytes (value : Bytes) : value.length ≤ (escapeBytes value).length := by
  induction value with
  | nil => simp
  | cons byte value ih =>
    rw [length_escapeBytes_cons, length_cons]
    split <;> omega

theorem foldlM_escapedLength {value : Bytes} {start total : Nat} (hstart : start < 2 ^ 64) :
    value.foldlM (fun length byte => checkedAdd length (if byte = 0 then 2 else 1)) start = some total ↔
      start + (escapeBytes value).length < 2 ^ 64 ∧ total = start + (escapeBytes value).length := by
  induction value generalizing start with
  | nil =>
    simp only [foldlM_nil, Option.pure_def, Option.some.injEq, escapeBytes_nil, length_nil, Nat.add_zero]
    exact ⟨fun h => ⟨hstart, h.symm⟩, fun h => h.2.symm⟩
  | cons byte value ih =>
    rw [foldlM_cons, length_escapeBytes_cons]
    generalize (if byte = 0 then 2 else 1) = step
    simp only [Option.bind_eq_bind, Option.bind_eq_some_iff, checkedAdd_eq_some]
    constructor
    · rintro ⟨next, ⟨hlt, rfl⟩, hrest⟩
      obtain ⟨hfits, rfl⟩ := (ih hlt).mp hrest
      omega
    · rintro ⟨hfits, rfl⟩
      refine ⟨start + step, ⟨by omega, rfl⟩, (ih (by omega)).mpr ?_⟩
      omega

theorem maxOrderedScalarBytes_lt : maxOrderedScalarBytes < 2 ^ 64 := by
  norm_num [maxOrderedScalarBytes, maxScalarBytes]

theorem encodeMemcomparableBytes_eq_ok {value : Bytes} :
    encodeMemcomparableBytes value = .ok encoded ↔
      (escapeBytes value).length + 2 < maxOrderedScalarBytes ∧ encoded = escapeBytes value ++ [0, 0] := by
  have hmax := maxOrderedScalarBytes_lt
  have hstart : 2 < 2 ^ 64 := by norm_num
  simp only [encodeMemcomparableBytes, bind_eq_ok, okOr_eq_ok, foldlM_escapedLength hstart, failIf_eq_ok, ok.injEq]
  constructor
  · rintro ⟨total, ⟨-, rfl⟩, -, hlt, rfl⟩
    exact ⟨by omega, rfl⟩
  · rintro ⟨hlt, rfl⟩
    exact ⟨_, ⟨by omega, rfl⟩, (), by omega, rfl⟩

theorem decodeMemcomparableFrom_cons (h : byte ≠ 0) (decoded rest : Bytes) :
    decodeMemcomparableFrom decoded (byte :: rest) = decodeMemcomparableFrom (decoded ++ [byte]) rest := by
  rw [decodeMemcomparableFrom.eq_def]
  exact if_pos h

theorem decodeMemcomparableFrom_zero {decoded rest : Bytes} (h : decoded.length + 1 ≤ maxScalarBytes) :
    decodeMemcomparableFrom decoded (0 :: 0xff :: rest) = decodeMemcomparableFrom (decoded ++ [0]) rest := by
  rw [decodeMemcomparableFrom.eq_def]
  simp [Nat.not_lt.mpr h]

theorem memcomparableComponentEnd_cons (h : byte ≠ 0) (rest : Bytes) :
    memcomparableComponentEnd (byte :: rest) = (memcomparableComponentEnd rest >>= fun stop => .ok (stop + 1)) := by
  rw [memcomparableComponentEnd.eq_def]
  exact if_pos h

theorem memcomparableComponentEnd_zero (rest : Bytes) :
    memcomparableComponentEnd (0 :: 0xff :: rest) =
      (memcomparableComponentEnd rest >>= fun stop => .ok (stop + 2)) := by
  rw [memcomparableComponentEnd.eq_def]
  simp

theorem decodeMemcomparableFrom_escape {decoded value : Bytes} (h : decoded.length + value.length ≤ maxScalarBytes) :
    decodeMemcomparableFrom decoded (escapeBytes value ++ [0, 0]) = .ok (decoded ++ value) := by
  induction value generalizing decoded with
  | nil =>
    rw [escapeBytes_nil, nil_append, append_nil]
    simp only [length_nil, Nat.add_zero] at h
    simp [decodeMemcomparableFrom, Nat.not_lt.mpr h]
  | cons byte value ih =>
    simp only [length_cons] at h
    by_cases hzero : byte = 0
    · subst hzero
      have hnext := @ih (decoded ++ [0]) (by rw [length_append]; simp only [length_singleton]; omega)
      rw [escapeBytes_zero, cons_append, cons_append, decodeMemcomparableFrom_zero (by omega), hnext]
      simp
    · have hnext := @ih (decoded ++ [byte]) (by rw [length_append]; simp only [length_singleton]; omega)
      rw [escapeBytes_cons hzero, cons_append, decodeMemcomparableFrom_cons hzero, hnext]
      simp

theorem decodeMemcomparableBytes_escape {value : Bytes} (h : value.length ≤ maxScalarBytes) :
    decodeMemcomparableBytes (escapeBytes value ++ [0, 0]) = .ok value := by
  have hlen : ([] : Bytes).length + value.length ≤ maxScalarBytes := by simpa using h
  simpa [decodeMemcomparableBytes] using decodeMemcomparableFrom_escape hlen

/-- A component as it stands inside an array or a map. -/
def escaped (component : Bytes) : Bytes := escapeBytes component ++ [0, 0]

theorem memcomparableComponentEnd_escaped (component rest : Bytes) :
    memcomparableComponentEnd (escaped component ++ rest) = .ok (escaped component).length := by
  unfold escaped
  induction component with
  | nil => rfl
  | cons byte component ih =>
    by_cases hzero : byte = 0
    · subst hzero
      rw [escapeBytes_zero, cons_append, cons_append, cons_append, cons_append,
        memcomparableComponentEnd_zero, ih, ok_bind, length_cons, length_cons]
    · rw [escapeBytes_cons hzero, cons_append, cons_append, memcomparableComponentEnd_cons hzero, ih,
        ok_bind, length_cons]

theorem length_le_escaped (component : Bytes) : component.length ≤ (escaped component).length := by
  have := length_le_escapeBytes component
  rw [escaped, length_append]
  omega

/-- The terminator is no beginning of an escaped component: a zero byte is followed by `0xff` there. -/
theorem not_terminator_of_ne_nil (h : component ≠ []) (rest : Bytes) : ¬[0, 0] <+: escaped component ++ rest := by
  obtain ⟨byte, component, rfl⟩ := exists_cons_of_ne_nil h
  rintro ⟨tail, htail⟩
  by_cases hzero : byte = 0
  · subst hzero
    rw [escaped, escapeBytes_zero] at htail
    simp at htail
  · rw [escaped, escapeBytes_cons hzero] at htail
    simp at htail
    exact hzero htail.1.symm

section Nested

variable {encode : ScalarValue → Checked Bytes} {decode : Bytes → Checked ScalarValue}
  {encodeKey encodeValue : ScalarValue → Checked Bytes}
  {decodeKey decodeValue : Bytes → Checked ScalarValue} {previous : Option Bytes} {count : Nat}
  {bytes : Bytes}

theorem encodeArrayComponents_eq_ok (h : encodeArrayComponents encode values = .ok bytes) :
    ∃ components, List.Forall₂ (fun value component => encode value = .ok component) values components ∧
      bytes = components.flatMap escaped := by
  induction values generalizing bytes with
  | nil =>
    cases h
    exact ⟨[], .nil, rfl⟩
  | cons value values ih =>
    simp only [encodeArrayComponents, bind_eq_ok, encodeMemcomparableBytes_eq_ok, ok.injEq] at h
    obtain ⟨component, hcomponent, _, ⟨-, rfl⟩, rest, hrest, rfl⟩ := h
    obtain ⟨components, hall, rfl⟩ := ih hrest
    exact ⟨component :: components, .cons hcomponent hall, rfl⟩

/-- One turn of the array loop. -/
theorem decodeArrayFrom_escaped (hne : component ≠ []) (hlen : component.length ≤ maxScalarBytes) (rest : Bytes)
    (count : Nat) :
    decodeArrayFrom decode (escaped component ++ rest) count =
      if maxDecodedCount ≤ count then .error .scalarLengthExceeded
      else (do
        let value ← decode component
        let values ← decodeArrayFrom decode rest (count + 1)
        .ok (value :: values)) := by
  have hstart := not_terminator_of_ne_nil hne rest
  have hstop : escaped component ++ rest ≠ [0, 0] := by
    intro heq
    exact hstart (heq ▸ prefix_refl _)
  have hend := memcomparableComponentEnd_escaped component rest
  rw [decodeArrayFrom, if_neg hstop, if_neg hstart]
  by_cases hcount : maxDecodedCount ≤ count
  · rw [if_pos hcount, if_pos hcount]
  · rw [if_neg hcount, if_neg hcount]
    split
    · rename_i e he
      rw [hend] at he
      cases he
    · rename_i stop he
      rw [hend] at he
      cases he
      rw [take_left, drop_left]
      simp only [escaped, decodeMemcomparableBytes_escape hlen, ok_bind]

/-- There is room for one part and for those behind it. -/
theorem room_cons {limit : Nat} :
    ¬limit ≤ count ∧ (items ≠ [] → count + 1 + items.length ≤ limit) ↔ count + (items.length + 1) ≤ limit := by
  cases items with
  | nil => simp
  | cons item items =>
    simp only [ne_eq, reduceCtorEq, not_false_eq_true, forall_const, length_cons]
    omega

theorem room_zero {limit : Nat} : (items ≠ [] → 0 + items.length ≤ limit) ↔ items.length ≤ limit := by
  cases items <;> simp

/-- A loop that counts its turns goes on while there is room. -/
theorem turn_eq_ok {p : Prop} [Decidable p] {e : NativeTypeError} {next : Checked α} {a : α} :
    (if p then .error e else next) = .ok a ↔ ¬p ∧ next = .ok a := by
  split <;> simp [*]

/-- The array loop reads the components in order, and refuses to read too many. -/
theorem decodeArrayFrom_eq_ok {components : List Bytes} (hne : ∀ c ∈ components, c ≠ [])
    (hlen : ∀ c ∈ components, c.length ≤ maxScalarBytes) :
    decodeArrayFrom decode (components.flatMap escaped ++ [0, 0]) count = .ok values ↔
      (components ≠ [] → count + components.length ≤ maxDecodedCount) ∧
        List.Forall₂ (fun component value => decode component = .ok value) components values := by
  induction components generalizing count values with
  | nil =>
    rw [decodeArrayFrom, flatMap_nil, nil_append, if_pos rfl, forall₂_nil_left_iff, ok.injEq]
    exact ⟨fun h => ⟨fun hne => absurd rfl hne, h.symm⟩, fun h => h.2.symm⟩
  | cons component components ih =>
    obtain ⟨hne₀, hne⟩ := forall_mem_cons.mp hne
    obtain ⟨hlen₀, hlen⟩ := forall_mem_cons.mp hlen
    rw [flatMap_cons, append_assoc, decodeArrayFrom_escaped hne₀ hlen₀, turn_eq_ok]
    simp only [bind_eq_ok, ok.injEq, ih hne hlen, forall₂_cons_left_iff, length_cons, ← room_cons, ne_eq,
      reduceCtorEq, not_false_eq_true, forall_const]
    constructor
    · rintro ⟨hroom, value, hvalue, rest, ⟨hfits, hrest⟩, rfl⟩
      exact ⟨⟨hroom, hfits⟩, value, rest, hvalue, hrest, rfl⟩
    · rintro ⟨⟨hroom, hfits⟩, value, rest, hvalue, hrest, rfl⟩
      exact ⟨hroom, value, hvalue, rest, ⟨hfits, hrest⟩, rfl⟩

/-- Keys that stand in order behind a previous key. -/
def AscendsFrom : Option Bytes → List Bytes → Prop
  | _, [] => True
  | previous, key :: keys => keyAscends previous key ∧ AscendsFrom (some key) keys

/-- An entry as it stands inside a map. -/
def escapedEntry (entry : Bytes × Bytes) : Bytes := escaped entry.1 ++ escaped entry.2

theorem encodeMapComponents_eq_ok (h : encodeMapComponents encodeKey encodeValue previous entries = .ok bytes) :
    ∃ components, List.Forall₂ (fun entry component => entry.1.isNull = false ∧ encodeKey entry.1 = .ok component.1 ∧
        encodeValue entry.2 = .ok component.2) entries components ∧
      AscendsFrom previous (components.map Prod.fst) ∧ bytes = components.flatMap escapedEntry := by
  induction entries generalizing previous bytes with
  | nil =>
    cases h
    exact ⟨[], .nil, trivial, rfl⟩
  | cons entry entries ih =>
    obtain ⟨key, value⟩ := entry
    simp only [encodeMapComponents, bind_eq_ok, encodeMemcomparableBytes_eq_ok, ok.injEq, failIf_eq_ok, not_not] at h
    obtain ⟨-, hnull, keyComponent, hkey, -, hascends, _, ⟨-, rfl⟩, valueComponent, hvalue, _, ⟨-, rfl⟩, rest, hrest,
      rfl⟩ := h
    obtain ⟨components, hall, hkeys, rfl⟩ := ih hrest
    exact ⟨(keyComponent, valueComponent) :: components, .cons ⟨Bool.eq_false_iff.mpr hnull, hkey, hvalue⟩ hall,
      ⟨hascends, hkeys⟩, rfl⟩

/-- One turn of the map loop. -/
theorem decodeMapFrom_escaped {component : Bytes × Bytes} (hne : component.1 ≠ [])
    (hkeyLen : component.1.length ≤ maxScalarBytes) (hvalueLen : component.2.length ≤ maxScalarBytes)
    (previous : Option Bytes) (rest : Bytes) (count : Nat) :
    decodeMapFrom decodeKey decodeValue previous (escapedEntry component ++ rest) count =
      if maxDecodedCount ≤ count then .error .scalarLengthExceeded
      else (do
        let key ← decodeKey component.1
        .failIf (key.isNull ∨ ¬keyAscends previous component.1) .invalidScalarEncoding
        let value ← decodeValue component.2
        let entries ← decodeMapFrom decodeKey decodeValue (some component.1) rest (count + 1)
        .ok ((key, value) :: entries)) := by
  have hstop : escapedEntry component ++ rest ≠ [0, 0] := by
    intro heq
    rw [escapedEntry, append_assoc] at heq
    apply not_terminator_of_ne_nil hne (escaped component.2 ++ rest)
    rw [heq]
  have hkeyEnd : memcomparableComponentEnd (escapedEntry component ++ rest) = .ok (escaped component.1).length := by
    rw [escapedEntry, append_assoc, memcomparableComponentEnd_escaped]
  have hdrop : (escapedEntry component ++ rest).drop (escaped component.1).length = escaped component.2 ++ rest := by
    rw [escapedEntry, append_assoc, drop_left]
  have htake : (escapedEntry component ++ rest).take (escaped component.1).length = escaped component.1 := by
    rw [escapedEntry, append_assoc, take_left]
  have hvalueEnd := memcomparableComponentEnd_escaped component.2 rest
  rw [decodeMapFrom, if_neg hstop]
  by_cases hcount : maxDecodedCount ≤ count
  · rw [if_pos hcount, if_pos hcount]
  · rw [if_neg hcount, if_neg hcount]
    split
    · rename_i e he
      rw [hkeyEnd] at he
      cases he
    · rename_i stop he
      rw [hkeyEnd] at he
      cases he
      rw [htake, escaped, decodeMemcomparableBytes_escape hkeyLen, ok_bind]
      congr 1
      funext key
      congr 1
      funext _
      split
      · rename_i e he
        rw [← escaped, hdrop, hvalueEnd] at he
        cases he
      · rename_i stop he
        rw [← escaped, hdrop, hvalueEnd] at he
        cases he
        rw [← escaped, hdrop, take_left, drop_left, escaped, decodeMemcomparableBytes_escape hvalueLen, ok_bind]

theorem decodeMapFrom_eq_ok {components : List (Bytes × Bytes)} (hne : ∀ c ∈ components, c.1 ≠ [])
    (hlen : ∀ c ∈ components, c.1.length ≤ maxScalarBytes ∧ c.2.length ≤ maxScalarBytes) :
    decodeMapFrom decodeKey decodeValue previous (components.flatMap escapedEntry ++ [0, 0]) count = .ok entries ↔
      (components ≠ [] → count + components.length ≤ maxDecodedCount) ∧
        AscendsFrom previous (components.map Prod.fst) ∧
        List.Forall₂ (fun component entry => decodeKey component.1 = .ok entry.1 ∧ entry.1.isNull = false ∧
          decodeValue component.2 = .ok entry.2) components entries := by
  induction components generalizing previous count entries with
  | nil =>
    rw [decodeMapFrom, flatMap_nil, nil_append, if_pos rfl, forall₂_nil_left_iff, ok.injEq]
    exact ⟨fun h => ⟨fun hne => absurd rfl hne, trivial, h.symm⟩, fun h => h.2.2.symm⟩
  | cons component components ih =>
    obtain ⟨hne₀, hne⟩ := forall_mem_cons.mp hne
    obtain ⟨hlen₀, hlen⟩ := forall_mem_cons.mp hlen
    rw [flatMap_cons, append_assoc, decodeMapFrom_escaped hne₀ hlen₀.1 hlen₀.2, turn_eq_ok]
    simp only [bind_eq_ok, ok.injEq, ih hne hlen, forall₂_cons_left_iff, length_cons, ← room_cons, ne_eq,
      reduceCtorEq, not_false_eq_true, forall_const, failIf_eq_ok, not_or, not_not, Bool.not_eq_true, map_cons,
      AscendsFrom]
    constructor
    · rintro ⟨hroom, key, hkey, -, ⟨hnull, hascends⟩, value, hvalue, rest, ⟨hfits, hkeys, hrest⟩, rfl⟩
      exact ⟨⟨hroom, hfits⟩, ⟨hascends, hkeys⟩, (key, value), rest, ⟨hkey, hnull, hvalue⟩, hrest, rfl⟩
    · rintro ⟨⟨hroom, hfits⟩, ⟨hascends, hkeys⟩, ⟨key, value⟩, rest, ⟨hkey, hnull, hvalue⟩, hrest, rfl⟩
      exact ⟨hroom, key, hkey, (), ⟨hnull, hascends⟩, value, hvalue, rest, ⟨hfits, hkeys, hrest⟩, rfl⟩

end Nested

/-! ## Values without nested types -/

/-- Read a vector whose elements stand in four bytes each. -/
def readVector (read : Bytes → BitVec 32) (vectorType : VectorType) (encoded : Bytes) :
    Checked (List CanonicalF32) := do
  .failIf (encoded.length ≠ vectorType.dimension * 4) .invalidScalarEncoding
  (chunksExact4 encoded).mapM fun bytes => FloatFormat.binary32.decodeCanonical (read bytes)

theorem readVector_flatMap {write : CanonicalF32 → Bytes} {read : Bytes → BitVec 32} {values : List CanonicalF32}
    (hlen : ∀ value, (write value).length = 4) (hread : ∀ value, read (write value) = value.bits)
    (hdimension : values.length = vectorType.dimension) :
    readVector read vectorType (values.flatMap write) = .ok values := by
  have htotal : (values.flatMap write).length = vectorType.dimension * 4 := by
    simp [length_flatMap, hlen, hdimension]
  rw [readVector, failIf_bind (not_not.mpr htotal), chunksExact4_flatMap _ hlen, mapM_map]
  have heach : ∀ value ∈ values, FloatFormat.binary32.decodeCanonical (read (write value)) = .ok value := by
    intro value _
    rw [hread]
    exact FloatFormat.decodeCanonical_bits _ value
  have hmap := mapM_eq_ok heach
  rw [map_id'] at hmap
  exact hmap

theorem decodeVectorOrdered_of_encode {values : List CanonicalF32}
    (h : encodeVectorOrdered values vectorType = .ok payload) :
    decodeVectorOrdered payload vectorType = .ok values := by
  simp only [encodeVectorOrdered, bind_eq_ok, failIf_eq_ok, not_not, ok.injEq] at h
  obtain ⟨-, hdimension, rfl⟩ := h
  refine readVector_flatMap (fun _ => length_beBytes 4 _) (fun value => ?_) hdimension
  rw [ofNat_ofBe_beBytes (by norm_num), unsortableF32Bits_sortable]

/-- The three fields of an interval. -/
theorem slice_interval {months days nanoseconds : Bytes} (hmonths : months.length = 4) (hdays : days.length = 4)
    (hnanoseconds : nanoseconds.length = 8) :
    (months ++ days ++ nanoseconds).length = 16 ∧ slice (months ++ days ++ nanoseconds) 0 4 = months ∧
      slice (months ++ days ++ nanoseconds) 4 8 = days ∧ slice (months ++ days ++ nanoseconds) 8 16 = nanoseconds := by
  have hflat : months ++ days ++ nanoseconds = [months, days, nanoseconds].flatten := by simp
  obtain ⟨hfirst, hsecond, hthird, -⟩ := fieldsAt hflat [0, 4, 8, 16] (by simp [hmonths, hdays, hnanoseconds])
  exact ⟨by simp [hmonths, hdays, hnanoseconds], hfirst, hsecond, hthird⟩

theorem decodePrimitiveOrdered_of_encode (h : encodePrimitiveOrdered logicalType value = .ok payload) :
    decodePrimitiveOrdered payload logicalType = .ok value := by
  rw [encodePrimitiveOrdered.eq_def] at h
  split at h
  · -- boolean
    rename_i value
    cases h
    cases value <;> simp [decodePrimitiveOrdered]
  · -- signed
    rename_i width value
    simp only [encodeSignedOrdered, bind_eq_ok, failIf_eq_ok, not_not, ok.injEq] at h
    obtain ⟨-, hfits, rfl⟩ := h
    rw [decodePrimitiveOrdered, decodeSignedOrdered, exactScalarBytes_self (length_encodeIntOrdered _ _), ok_bind,
      ok_bind, encodeIntOrdered, flipSign_flipSign, ofBe_beBytes_mod, signExtended_of_fits hfits]
  · -- unsigned
    rename_i width value
    simp only [encodeUnsignedOrdered, bind_eq_ok, failIf_eq_ok, not_not, ok.injEq] at h
    obtain ⟨-, hfits, rfl⟩ := h
    rw [decodePrimitiveOrdered, decodeUnsignedOrdered, exactScalarBytes_self (length_beBytes _ _), ok_bind,
      ok_bind, ofBe_beBytes hfits, BitVec.ofNat_toNat, BitVec.setWidth_eq]
  · -- decimal
    rename_i decimal value
    obtain ⟨_, hvalid, hok⟩ := bind_eq_ok.mp h
    cases hok
    rw [decodePrimitiveOrdered, encodeI128Ordered, exactScalarBytes_self (length_encodeIntOrdered _ _), ok_bind]
    simp only [ofNat_ofBe_flipSign (show 2 ^ 128 = 256 ^ 16 by norm_num), hvalid, ok_bind]
  · -- float32
    rename_i value
    cases h
    rw [decodePrimitiveOrdered, exactScalarBytes_self (length_beBytes _ _), ok_bind,
      ofNat_ofBe_beBytes (by norm_num), unsortableF32Bits_sortable, FloatFormat.decodeCanonical_bits, ok_bind]
  · -- float64
    rename_i value
    cases h
    rw [decodePrimitiveOrdered, exactScalarBytes_self (length_beBytes _ _), ok_bind,
      ofNat_ofBe_beBytes (by norm_num), unsortableF64Bits_sortable, FloatFormat.decodeCanonical_bits, ok_bind]
  · -- text
    rename_i value
    simp only [bind_eq_ok, ensureScalarLength_eq_ok, encodeMemcomparableBytes_eq_ok] at h
    obtain ⟨-, hlen, -, rfl⟩ := h
    rw [decodePrimitiveOrdered, decodeMemcomparableBytes_escape hlen, ok_bind, Text.fromUtf8_bytes, ok_bind]
  · -- binary
    rename_i value
    simp only [bind_eq_ok, ensureScalarLength_eq_ok, encodeMemcomparableBytes_eq_ok] at h
    obtain ⟨-, hlen, -, rfl⟩ := h
    rw [decodePrimitiveOrdered, decodeMemcomparableBytes_escape hlen, ok_bind]
  · -- date
    rename_i value
    cases h
    rw [decodePrimitiveOrdered, encodeI32Ordered, exactScalarBytes_self (length_encodeIntOrdered _ _), ok_bind,
      ofNat_ofBe_flipSign (by norm_num)]
  · -- time
    rename_i value
    obtain ⟨_, hvalid, hok⟩ := bind_eq_ok.mp h
    cases hok
    rw [decodePrimitiveOrdered, exactScalarBytes_self (length_beBytes _ _), ok_bind]
    simp only [ofNat_ofBe_beBytes (show 2 ^ 64 = 256 ^ 8 by norm_num), hvalid, ok_bind]
  · -- timestamp
    rename_i value
    cases h
    rw [decodePrimitiveOrdered, encodeI64Ordered, exactScalarBytes_self (length_encodeIntOrdered _ _), ok_bind,
      ofNat_ofBe_flipSign (by norm_num)]
  · -- interval
    rename_i months days nanoseconds
    cases h
    obtain ⟨hlen, hmonths, hdays, hnanoseconds⟩ := slice_interval
      (length_encodeIntOrdered 4 months.toNat) (length_encodeIntOrdered 4 days.toNat)
      (length_encodeIntOrdered 8 nanoseconds.toNat)
    simp only [decodePrimitiveOrdered, encodeI32Ordered, encodeI64Ordered, hlen, hmonths, hdays, hnanoseconds,
      ofNat_ofBe_flipSign (show 2 ^ 32 = 256 ^ 4 by norm_num), ofNat_ofBe_flipSign (show 2 ^ 64 = 256 ^ 8 by norm_num)]
    rfl
  · -- uuid
    rename_i value
    cases h
    rw [decodePrimitiveOrdered, dif_pos value.size]
  · -- vector
    rename_i vectorType values
    rw [decodePrimitiveOrdered, decodeVectorOrdered_of_encode h, ok_bind]
  · cases h
  · cases h

/-! ## All values -/

theorem markComponent_eq_ok {payload : Checked Bytes} :
    markComponent value payload = .ok encoded ↔
      (value.isNull = true ∧ encoded = [0]) ∨
      (value.isNull = false ∧ ∃ bytes, payload = .ok bytes ∧ bytes.length + 1 ≤ maxOrderedScalarBytes ∧
        encoded = 1 :: bytes) := by
  have hmax := maxOrderedScalarBytes_lt
  cases hnull : value.isNull with
  | true => simp [markComponent, hnull, eq_comm]
  | false =>
    simp only [markComponent, hnull, Bool.false_eq_true, if_false, bind_eq_ok, okOr_eq_ok,
      checkedAdd_eq_some, failIf_eq_ok, ok.injEq, false_and, false_or, true_and]
    constructor
    · rintro ⟨bytes, hbytes, _, ⟨-, rfl⟩, -, hlen, rfl⟩
      exact ⟨bytes, hbytes, by omega, rfl⟩
    · rintro ⟨bytes, hbytes, hlen, rfl⟩
      exact ⟨bytes, hbytes, _, ⟨by omega, rfl⟩, (), by omega, rfl⟩

theorem ne_nil_of_markComponent {payload : Checked Bytes} (h : markComponent value payload = .ok encoded) :
    encoded ≠ [] := by
  rcases markComponent_eq_ok.mp h with ⟨-, rfl⟩ | ⟨-, bytes, -, -, rfl⟩ <;> simp

theorem unmarkComponent_null (decodePayload : Bytes → Checked ScalarValue) :
    unmarkComponent [0] decodePayload = .ok .null := by
  simp [unmarkComponent, maxOrderedScalarBytes]

theorem unmarkComponent_payload (h : payload.length + 1 ≤ maxOrderedScalarBytes)
    (decodePayload : Bytes → Checked ScalarValue) :
    unmarkComponent (1 :: payload) decodePayload = decodePayload payload := by
  simp [unmarkComponent, Nat.not_lt.mpr h]

theorem ScalarValue.eq_null (h : value.isNull = true) : value = .null := by
  cases value <;> first | rfl | cases h

/-- Decoding the parts gives the values back exactly if every value meets the condition. -/
theorem forall₂_iff_forall {β : Type} {R : α → β → Prop} {S : β → α → Prop} {P : α → Prop} {xs : List α} {ys : List β}
    (h : List.Forall₂ R xs ys) (hiff : ∀ x y, R x y → (S y x ↔ P x)) : List.Forall₂ S ys xs ↔ ∀ x ∈ xs, P x := by
  induction h with
  | nil => simp
  | @cons x y xs ys hxy _ ih => rw [forall₂_cons, ih, hiff x y hxy, forall_mem_cons]

/-- The length of a part is at most that of the whole. -/
theorem length_le_flatMap {f : α → Bytes} {a : α} (h : a ∈ items) : (f a).length ≤ (items.flatMap f).length := by
  rw [length_flatMap]
  exact single_le_sum (by simp) _ (mem_map_of_mem h)

/-- A marked component decodes to its value exactly if it is null or its payload does. -/
theorem unmarkComponent_iff {encodePayload : Checked Bytes}
    {decodePayload : Bytes → Checked ScalarValue} (P : ScalarValue → Prop) (hnull : P .null)
    (hpayload : ∀ payload, encodePayload = .ok payload → (decodePayload payload = .ok value ↔ P value))
    (h : markComponent value encodePayload = .ok encoded) :
    unmarkComponent encoded decodePayload = .ok value ↔ P value := by
  rcases markComponent_eq_ok.mp h with ⟨hvalue, rfl⟩ | ⟨-, payload, hencode, hlen, rfl⟩
  · rw [unmarkComponent_null, ScalarValue.eq_null hvalue]
    exact iff_of_true rfl hnull
  · rw [unmarkComponent_payload hlen, hpayload payload hencode]

section Nested

variable {encode : ScalarValue → Checked Bytes} {decode : Bytes → Checked ScalarValue}
  {encodeKey encodeValue : ScalarValue → Checked Bytes}
  {decodeKey decodeValue : Bytes → Checked ScalarValue} {P Q : ScalarValue → Prop}

/-- An array decodes to its values exactly if it is short enough and every element decodes to itself. -/
theorem decodeArrayOrdered_iff (hne : ∀ value encoded, encode value = .ok encoded → encoded ≠ [])
    (hiff : ∀ value encoded, encode value = .ok encoded → (decode encoded = .ok value ↔ P value))
    (h : encodeArrayOrdered encode values = .ok payload) :
    decodeArrayOrdered decode payload = .ok values ↔ values.length ≤ maxDecodedCount ∧ ∀ v ∈ values, P v := by
  simp only [encodeArrayOrdered, bind_eq_ok, ensureScalarLength_eq_ok, ok.injEq] at h
  obtain ⟨bytes, hbytes, -, hlen, rfl⟩ := h
  obtain ⟨components, hall, rfl⟩ := encodeArrayComponents_eq_ok hbytes
  have hcomponents : ∀ c ∈ components, c ≠ [] ∧ c.length ≤ maxScalarBytes := by
    have hnonempty : ∀ c ∈ components, c ≠ [] :=
      ((forall₂_and_left _ _).mp (hall.flip.imp fun c v hv => ⟨hne v c hv, hv⟩)).1
    intro c hc
    refine ⟨hnonempty c hc, ?_⟩
    have hpart := length_le_flatMap (f := escaped) hc
    have := length_le_escaped c
    rw [length_append] at hlen
    omega
  rw [decodeArrayOrdered, decodeArrayFrom_eq_ok (fun c hc => (hcomponents c hc).1) (fun c hc => (hcomponents c hc).2),
    forall₂_iff_forall hall hiff, hall.length_eq, room_zero]

/-- A map decodes to its entries exactly if it is short enough and every key and value decodes to itself. -/
theorem decodeMapOrdered_iff (hne : ∀ key encoded, encodeKey key = .ok encoded → encoded ≠ [])
    (hkey : ∀ key encoded, encodeKey key = .ok encoded → (decodeKey encoded = .ok key ↔ P key))
    (hvalue : ∀ value encoded, encodeValue value = .ok encoded → (decodeValue encoded = .ok value ↔ Q value))
    (h : encodeMapOrdered encodeKey encodeValue entries = .ok payload) :
    decodeMapOrdered decodeKey decodeValue payload = .ok entries ↔
      entries.length ≤ maxDecodedCount ∧ ∀ e ∈ entries, P e.1 ∧ Q e.2 := by
  simp only [encodeMapOrdered, bind_eq_ok, ensureScalarLength_eq_ok, ok.injEq] at h
  obtain ⟨bytes, hbytes, -, hlen, rfl⟩ := h
  obtain ⟨components, hall, hascends, rfl⟩ := encodeMapComponents_eq_ok hbytes
  have hcomponents : ∀ c ∈ components, c.1 ≠ [] ∧ c.1.length ≤ maxScalarBytes ∧ c.2.length ≤ maxScalarBytes := by
    have hnonempty : ∀ c ∈ components, c.1 ≠ [] :=
      ((forall₂_and_left _ _).mp (hall.flip.imp fun c e he => ⟨hne e.1 c.1 he.2.1, he⟩)).1
    intro c hc
    have hpart := length_le_flatMap (f := escapedEntry) hc
    have hfirst := length_le_escaped c.1
    have hsecond := length_le_escaped c.2
    rw [escapedEntry, length_append] at hpart
    rw [length_append] at hlen
    exact ⟨hnonempty c hc, by omega, by omega⟩
  have hentries : ∀ (e : ScalarValue × ScalarValue) (c : Bytes × Bytes),
      (e.1.isNull = false ∧ encodeKey e.1 = .ok c.1 ∧ encodeValue e.2 = .ok c.2) →
      ((decodeKey c.1 = .ok e.1 ∧ e.1.isNull = false ∧ decodeValue c.2 = .ok e.2) ↔ (P e.1 ∧ Q e.2)) := by
    intro e c he
    rw [hkey e.1 c.1 he.2.1, hvalue e.2 c.2 he.2.2]
    exact ⟨fun h => ⟨h.1, h.2.2⟩, fun h => ⟨h.1, he.1, h.2⟩⟩
  rw [decodeMapOrdered, decodeMapFrom_eq_ok (fun c hc => (hcomponents c hc).1) (fun c hc => (hcomponents c hc).2),
    forall₂_iff_forall hall hentries, hall.length_eq, room_zero]
  exact and_congr_right fun _ => and_iff_right hascends

end Nested

theorem encodeOrderedComponent_ne_nil (h : encodeOrderedComponent logicalType value = .ok encoded) : encoded ≠ [] := by
  cases logicalType <;> exact ne_nil_of_markComponent h

/-- The ordered decoder gives back exactly the values whose nested counts are within its bound. -/
theorem decodeOrderedComponent_iff (logicalType : LogicalType) :
    ∀ value encoded, encodeOrderedComponent logicalType value = .ok encoded →
      (decodeOrderedComponent logicalType encoded = .ok value ↔ CountsWithin logicalType value) := by
  induction logicalType with
  | array element ih =>
    intro value encoded
    refine unmarkComponent_iff (CountsWithin (.array element)) trivial fun payload hpayload => ?_
    split at hpayload
    · have hdecode := decodeArrayOrdered_iff (fun _ _ he => encodeOrderedComponent_ne_nil he) ih hpayload
      rw [CountsWithin, ← hdecode]
      simp [bind_eq_ok]
    · cases hpayload
  | map keyType valueType ihKey ihValue =>
    intro value encoded
    refine unmarkComponent_iff (CountsWithin (.map keyType valueType)) trivial fun payload hpayload => ?_
    split at hpayload
    · have hdecode := decodeMapOrdered_iff (fun _ _ he => encodeOrderedComponent_ne_nil he) ihKey ihValue hpayload
      rw [CountsWithin, ← hdecode]
      simp [bind_eq_ok]
    · cases hpayload
  | _ =>
    intro value encoded
    refine unmarkComponent_iff (CountsWithin _) trivial fun payload hpayload => ?_
    exact iff_of_true (decodePrimitiveOrdered_of_encode hpayload) trivial

end Hyphae.Types
