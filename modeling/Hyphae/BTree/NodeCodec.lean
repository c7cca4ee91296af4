import Hyphae.BTree.Node

/-!
# The node codec

What the bytes of a node are, and that the encoder and the decoder accept exactly
the well-formed nodes: a page decodes to a node if and only if its payload is that
node's bytes.
-/

namespace Hyphae.BTree

open Lib Except List

open Node

variable {entries : List KeyValue} {keys : List Bytes} {cursor rest payload : Bytes} {count : Nat} {node : Node}

variable {n : Nat} {u : Unit} {children : List PageId}

/-! ## Well-formed nodes and their bytes -/

/-- Bytes one entry takes in a leaf. -/
def entrySize (entry : KeyValue) : Nat := 8 + entry.1.length + entry.2.length

/-- Bytes the entries of a leaf take. -/
def leafBody (entries : List KeyValue) : Nat := (entries.map entrySize).sum

/-- Bytes one separator and its child take in an internal node. -/
def separatorSize (key : Bytes) : Nat := 12 + key.length

def internalBody (keys : List Bytes) : Nat := (keys.map separatorSize).sum

/-- A node that fits one page and passes the shape checks. -/
def Node.Wf : Node → Prop
  | .leaf entries =>
    entries ≠ [] ∧ KeyAscending entries ∧ (∀ entry ∈ entries, entry.1.length ≤ maxKeySize) ∧
      leafHeaderSize + leafBody entries ≤ pagePayloadSize
  | .internal keys children =>
    keys ≠ [] ∧ children.length = keys.length + 1 ∧ Ascending keys ∧
      (∀ key ∈ keys, key.length ≤ maxKeySize) ∧ internalHeaderSize + internalBody keys ≤ pagePayloadSize

def preambleBytes (magic : Bytes) (count : Nat) : Bytes :=
  magic ++ leBytes 2 formatVersion ++ leBytes 2 count ++ leBytes 4 0

def leafEntryBytes (entry : KeyValue) : Bytes :=
  leBytes 4 entry.1.length ++ leBytes 4 entry.2.length ++ entry.1 ++ entry.2

def separatorBytes (separator : Bytes × PageId) : Bytes :=
  leBytes 4 separator.1.length ++ separator.1 ++ leBytes 8 separator.2.get

/-- The payload of a node. -/
def Node.bytes : Node → Bytes
  | .leaf entries => preambleBytes leafMagic entries.length ++ entries.flatMap leafEntryBytes
  | .internal keys children =>
    preambleBytes internalMagic keys.length ++ (children.take 1).flatMap (fun child => leBytes 8 child.get) ++
      (keys.zip children.tail).flatMap separatorBytes

@[simp] theorem leafBody_nil : leafBody [] = 0 := rfl

@[simp] theorem leafBody_cons (entry : KeyValue) (entries : List KeyValue) :
    leafBody (entry :: entries) = entrySize entry + leafBody entries := by simp [leafBody]

theorem eight_mul_length_le_leafBody (entries : List KeyValue) : 8 * entries.length ≤ leafBody entries := by
  have h := card_nsmul_le_sum (entries.map entrySize) 8 (forall_mem_map.mpr fun entry _ => by unfold entrySize; omega)
  rwa [length_map, smul_eq_mul, Nat.mul_comm] at h

theorem twelve_mul_length_le_internalBody (keys : List Bytes) : 12 * keys.length ≤ internalBody keys := by
  have h := card_nsmul_le_sum (keys.map separatorSize) 12 (forall_mem_map.mpr fun key _ => Nat.le_add_right 12 _)
  rwa [length_map, smul_eq_mul, Nat.mul_comm] at h

theorem entrySize_le_leafBody {entry : KeyValue} (h : entry ∈ entries) : entrySize entry ≤ leafBody entries :=
  single_le_sum (by simp) _ (mem_map_of_mem h)

/-- Within one page every length fits its field. -/
theorem lengths_lt_of_leafBody_le (h : leafHeaderSize + leafBody entries ≤ pagePayloadSize) :
    ∀ entry ∈ entries, entry.1.length < 2 ^ 32 ∧ entry.2.length < 2 ^ 32 := by
  intro entry hmem
  have hsize : pagePayloadSize < 2 ^ 16 := by decide
  have hle := entrySize_le_leafBody hmem
  simp only [entrySize] at hle
  omega

@[simp] theorem checkU32_eq_ok : checkU32 n = .ok u ↔ n < 2 ^ 32 := by
  simp [checkU32]

theorem checkU32_ok (h : n < 2 ^ 32) : checkU32 n = .ok () := checkU32_eq_ok.mpr h

/-- The running total of a length fold is the start plus the sizes, while it fits a `usize`. -/
theorem foldl_encodedLength {α : Type} {add : Nat → α → TreeM Nat} (size : α → Nat) {ok : α → Prop}
    (hadd : ∀ {total a n}, add total a = .ok n ↔ ok a ∧ total + size a < 2 ^ 64 ∧ n = total + size a) {items : List α}
    {total : Nat} (ht : total < 2 ^ 64) :
    items.foldlM add total = .ok n ↔
      (∀ a ∈ items, ok a) ∧ total + (items.map size).sum < 2 ^ 64 ∧ n = total + (items.map size).sum := by
  induction items generalizing total with
  | nil =>
    simp only [foldlM_nil, pure_eq_ok, Except.ok.injEq, map_nil, sum_nil, Nat.add_zero]
    constructor
    · rintro rfl
      exact ⟨by simp, ht, rfl⟩
    · rintro ⟨-, -, rfl⟩
      rfl
  | cons a items ih =>
    simp only [foldlM_cons, bind_eq_ok, hadd, forall_mem_cons, map_cons, sum_cons, ← Nat.add_assoc]
    constructor
    · rintro ⟨m, ⟨ha, hm, rfl⟩, hrest⟩
      obtain ⟨hitems, hlt, rfl⟩ := (ih hm).mp hrest
      exact ⟨⟨ha, hitems⟩, hlt, rfl⟩
    · rintro ⟨⟨ha, hitems⟩, hlt, rfl⟩
      have hm : total + size a < 2 ^ 64 := by omega
      exact ⟨_, ⟨ha, hm, rfl⟩, (ih hm).mpr ⟨hitems, hlt, rfl⟩⟩

theorem leafEncodedLength_eq_ok :
    leafEncodedLength entries = .ok n ↔
      (∀ entry ∈ entries, entry.1.length < 2 ^ 32 ∧ entry.2.length < 2 ^ 32) ∧
        leafHeaderSize + leafBody entries < 2 ^ 64 ∧ n = leafHeaderSize + leafBody entries := by
  refine foldl_encodedLength entrySize ?_ (by decide)
  intro total entry n
  simp only [bind_eq_ok, checkU32_eq_ok, okOr_eq_ok, Option.bind_eq_bind,
    Option.bind_eq_some_iff, checkedAdd_eq_some, entrySize]
  constructor
  · rintro ⟨-, hk, -, hv, _, ⟨hb, rfl⟩, _, ⟨ha, rfl⟩, hn, rfl⟩
    exact ⟨⟨hk, hv⟩, by omega, by omega⟩
  · rintro ⟨⟨hk, hv⟩, hn, rfl⟩
    exact ⟨⟨⟩, hk, ⟨⟩, hv, _, ⟨by omega, rfl⟩, _, ⟨by omega, rfl⟩, by omega, by omega⟩

theorem internalEncodedLength_eq_ok :
    internalEncodedLength keys = .ok n ↔
      (∀ key ∈ keys, key.length < 2 ^ 32) ∧
        internalHeaderSize + internalBody keys < 2 ^ 64 ∧ n = internalHeaderSize + internalBody keys := by
  refine foldl_encodedLength separatorSize ?_ (by decide)
  intro total key n
  simp only [bind_eq_ok, checkU32_eq_ok, okOr_eq_ok, Option.bind_eq_bind,
    Option.bind_eq_some_iff, checkedAdd_eq_some, separatorSize]
  constructor
  · rintro ⟨-, hk, a, ⟨ha, rfl⟩, hn, rfl⟩
    exact ⟨hk, by omega, by omega⟩
  · rintro ⟨hk, hn, rfl⟩
    exact ⟨⟨⟩, hk, _, ⟨by omega, rfl⟩, by omega, by omega⟩

theorem validateLeafEntries_eq_ok :
    validateLeafEntries entries = .ok u ↔
      entries ≠ [] ∧ KeyAscending entries ∧
        ∀ entry ∈ entries, entry.1.length ≤ maxKeySize ∧ entry.2.length < 2 ^ 32 := by
  have hkey : maxKeySize < 2 ^ 32 := by decide
  simp only [validateLeafEntries, bind_eq_ok, failIf_eq_ok, forM_eq_ok, checkU32_eq_ok, not_not, not_lt]
  constructor
  · rintro ⟨-, hne, -, hasc, hall⟩
    refine ⟨hne, hasc, fun entry hmem => ?_⟩
    obtain ⟨-, hk, -, -, hv⟩ := hall entry hmem
    exact ⟨hk, hv⟩
  · rintro ⟨hne, hasc, hall⟩
    refine ⟨⟨⟩, hne, ⟨⟩, hasc, fun entry hmem => ?_⟩
    obtain ⟨hk, hv⟩ := hall entry hmem
    exact ⟨⟨⟩, hk, ⟨⟩, by omega, hv⟩

theorem validateInternalShape_eq_ok :
    validateInternalShape keys children = .ok u ↔
      keys ≠ [] ∧ children.length = keys.length + 1 ∧ Ascending keys ∧ ∀ key ∈ keys, key.length ≤ maxKeySize := by
  have hkey : maxKeySize < 2 ^ 32 := by decide
  simp only [validateInternalShape, bind_eq_ok, failIf_eq_ok, forM_eq_ok, checkU32_eq_ok, not_or, not_not, not_lt]
  constructor
  · rintro ⟨-, ⟨hne, hlen⟩, -, hasc, hall⟩
    refine ⟨hne, hlen, hasc, fun key hmem => ?_⟩
    obtain ⟨-, hk, -⟩ := hall key hmem
    exact hk
  · rintro ⟨hne, hlen, hasc, hall⟩
    refine ⟨⟨⟩, ⟨hne, hlen⟩, ⟨⟩, hasc, fun key hmem => ?_⟩
    have hk := hall key hmem
    exact ⟨⟨⟩, hk, by omega⟩

/-! ## The cursor -/

theorem cursorTake_eq_ok {taken : Bytes} :
    cursorTake n cursor = .ok (taken, rest) ↔ taken.length = n ∧ cursor = taken ++ rest := by
  simp only [cursorTake, bind_eq_ok, failIf_eq_ok, not_lt, pure_eq_ok, ok.injEq, Prod.mk.injEq]
  constructor
  · rintro ⟨-, hlen, rfl, rfl⟩
    exact ⟨by simp [hlen], by simp⟩
  · rintro ⟨rfl, rfl⟩
    exact ⟨⟨⟩, by simp, by simp, by simp⟩

/-- Reading a little-endian field of `w` bytes. -/
theorem cursorField_eq_ok {w : Nat} :
    (do let (taken, rest) ← cursorTake w cursor; return (ofLe taken, rest)) = Except.ok (n, rest) ↔
      n < 256 ^ w ∧ cursor = leBytes w n ++ rest := by
  simp only [bind_eq_ok, Prod.exists, cursorTake_eq_ok, pure_eq_ok, ok.injEq, Prod.mk.injEq]
  constructor
  · rintro ⟨taken, _, ⟨hlen, rfl⟩, hn, rfl⟩
    obtain ⟨hlt, rfl⟩ := (eq_leBytes_iff hlen).mp hn
    exact ⟨hlt, rfl⟩
  · rintro ⟨hlt, rfl⟩
    exact ⟨_, _, ⟨length_leBytes w n, rfl⟩, ofLe_leBytes hlt, rfl⟩

theorem cursorLength_eq_ok : cursorLength cursor = .ok (n, rest) ↔ n < 2 ^ 32 ∧ cursor = leBytes 4 n ++ rest :=
  cursorField_eq_ok

theorem cursorU64_eq_ok : cursorU64 cursor = .ok (n, rest) ↔ n < 2 ^ 64 ∧ cursor = leBytes 8 n ++ rest :=
  cursorField_eq_ok

theorem decodeLeafEntries_eq_ok :
    decodeLeafEntries count cursor = .ok (entries, rest) ↔
      entries.length = count ∧ (∀ entry ∈ entries, entry.1.length < 2 ^ 32 ∧ entry.2.length < 2 ^ 32) ∧
        cursor = entries.flatMap leafEntryBytes ++ rest := by
  induction count generalizing cursor entries rest with
  | zero =>
    simp only [decodeLeafEntries, pure_eq_ok, ok.injEq, Prod.mk.injEq, length_eq_zero_iff]
    constructor
    · rintro ⟨rfl, rfl⟩
      simp
    · rintro ⟨rfl, -, rfl⟩
      simp
  | succ count ih =>
    simp only [decodeLeafEntries, bind_eq_ok, Prod.exists, cursorLength_eq_ok, cursorTake_eq_ok, ih,
      pure_eq_ok, ok.injEq, Prod.mk.injEq]
    constructor
    · rintro ⟨_, _, ⟨hk, rfl⟩, _, _, ⟨hv, rfl⟩, key, _, ⟨rfl, rfl⟩, value, _, ⟨rfl, rfl⟩,
        tail, _, ⟨rfl, hall, rfl⟩, rfl, rfl⟩
      refine ⟨rfl, ?_, by simp [leafEntryBytes]⟩
      exact forall_mem_cons.mpr ⟨⟨hk, hv⟩, hall⟩
    · rintro ⟨hlen, hall, rfl⟩
      cases entries with
      | nil => simp at hlen
      | cons entry tail =>
        obtain ⟨⟨hk, hv⟩, htail⟩ := forall_mem_cons.mp hall
        exact ⟨_, _, ⟨hk, by simp [leafEntryBytes]⟩, _, _, ⟨hv, rfl⟩, _, _, ⟨rfl, rfl⟩, _, _, ⟨rfl, rfl⟩,
          tail, _, ⟨by simpa using hlen, htail, rfl⟩, rfl, rfl⟩

theorem decodeSeparators_eq_ok {separators : List (Bytes × PageId)} :
    decodeSeparators count cursor = .ok (separators, rest) ↔
      separators.length = count ∧ (∀ separator ∈ separators, separator.1.length < 2 ^ 32) ∧
        cursor = separators.flatMap separatorBytes ++ rest := by
  induction count generalizing cursor separators rest with
  | zero =>
    simp only [decodeSeparators, pure_eq_ok, ok.injEq, Prod.mk.injEq, length_eq_zero_iff]
    constructor
    · rintro ⟨rfl, rfl⟩
      simp
    · rintro ⟨rfl, -, rfl⟩
      simp
  | succ count ih =>
    simp only [decodeSeparators, bind_eq_ok, Prod.exists, cursorLength_eq_ok, cursorTake_eq_ok,
      cursorU64_eq_ok, okOr_eq_ok, NonZeroUInt.new_eq_some, ih, pure_eq_ok, ok.injEq,
      Prod.mk.injEq]
    constructor
    · rintro ⟨_, _, ⟨hk, rfl⟩, key, _, ⟨rfl, rfl⟩, _, _, ⟨hc, rfl⟩, child, rfl, tail, _, ⟨rfl, hall, rfl⟩, rfl, rfl⟩
      refine ⟨rfl, ?_, by simp [separatorBytes]⟩
      exact forall_mem_cons.mpr ⟨hk, hall⟩
    · rintro ⟨hlen, hall, rfl⟩
      cases separators with
      | nil => simp at hlen
      | cons separator tail =>
        obtain ⟨hk, htail⟩ := forall_mem_cons.mp hall
        exact ⟨_, _, ⟨hk, by simp [separatorBytes]⟩, _, _, ⟨rfl, rfl⟩, _, _, ⟨separator.2.lt, rfl⟩,
          separator.2, rfl, tail, _, ⟨by simpa using hlen, htail, rfl⟩, rfl, rfl⟩

/-! ## Encoder and decoder accept the well-formed nodes -/

@[simp] theorem length_preambleBytes (magic : Bytes) (count : Nat) :
    (preambleBytes magic count).length = magic.length + 8 := by
  simp [preambleBytes]

theorem decodePreamble_eq_ok {magic : Bytes} {headerSize : Nat} (hmagic : magic.length = 8) (hsize : 16 ≤ headerSize) :
    decodePreamble magic headerSize payload = .ok count ↔
      headerSize ≤ payload.length ∧ count < 2 ^ 16 ∧ ∃ rest, payload = preambleBytes magic count ++ rest := by
  have hzero : leBytes 4 0 = [0, 0, 0, 0] := rfl
  have hversion : formatVersion < 256 ^ 2 := by decide
  simp only [decodePreamble, bind_eq_ok, failIf_eq_ok, not_lt, not_or, not_not, pure_eq_ok, ok.injEq]
  constructor
  · rintro ⟨-, hlen, -, ⟨h0, h8, h12⟩, h10⟩
    obtain ⟨-, h8⟩ := (eq_leBytes_iff (length_slice (by omega))).mp h8
    obtain ⟨hcount, h10⟩ := (eq_leBytes_iff (length_slice (by omega))).mp h10
    refine ⟨hlen, by simpa using hcount, payload.drop 16, ?_⟩
    calc payload = slice payload 0 8 ++ (slice payload 8 10 ++ (slice payload 10 12 ++
            (slice payload 12 16 ++ payload.drop 16))) := by
          simp only [slice_append_drop payload (show 12 ≤ 16 by norm_num),
            slice_append_drop payload (show 10 ≤ 12 by norm_num),
            slice_append_drop payload (show 8 ≤ 10 by norm_num),
            slice_append_drop payload (show 0 ≤ 8 by norm_num), drop_zero]
      _ = preambleBytes magic count ++ payload.drop 16 := by
          rw [h0, h8, h10, h12, ← hzero]
          simp [preambleBytes]
  · rintro ⟨hlen, hcount, rest, rfl⟩
    have hcount : count < 256 ^ 2 := by simpa using hcount
    have hlayout : preambleBytes magic count ++ rest =
        magic ++ (leBytes 2 formatVersion ++ (leBytes 2 count ++ (leBytes 4 0 ++ rest))) := by
      simp [preambleBytes]
    rw [hlayout]
    refine ⟨⟨⟩, hlayout ▸ hlen, ⟨⟩, ⟨?_, ?_, ?_⟩, ?_⟩
    · rw [slice_field _ hmagic]
    · simp [slice_skip, slice_field, hmagic, ofLe_leBytes hversion]
    · rw [← hzero]
      simp [slice_skip, slice_field, hmagic]
    · simp [slice_skip, slice_field, hmagic, ofLe_leBytes hcount]

theorem length_leafEntry (entry : KeyValue) : (leafEntryBytes entry).length = entrySize entry := by
  simp only [leafEntryBytes, length_append, length_leBytes, entrySize]

theorem length_leafEntryBytes (entries : List KeyValue) :
    (entries.flatMap leafEntryBytes).length = leafBody entries := by
  simp only [length_flatMap, length_leafEntry, leafBody]

theorem length_separatorBytes (separators : List (Bytes × PageId)) :
    (separators.flatMap separatorBytes).length = internalBody (separators.map Prod.fst) := by
  have hsize (separator : Bytes × PageId) : (separatorBytes separator).length = separatorSize separator.1 := by
    simp only [separatorBytes, length_append, length_leBytes, separatorSize]
    omega
  simp only [length_flatMap, hsize, internalBody, map_map, Function.comp_def]

theorem length_leaf_bytes (entries : List KeyValue) :
    (leaf entries).bytes.length = leafHeaderSize + leafBody entries := by
  rw [bytes, length_append, length_preambleBytes, length_leafEntryBytes]
  rfl

theorem length_internal_bytes (hlen : children.length = keys.length + 1) :
    (internal keys children).bytes.length = internalHeaderSize + internalBody keys := by
  have hmagic : internalMagic.length = 8 := rfl
  have hheader : internalHeaderSize = 24 := rfl
  cases children with
  | nil => simp at hlen
  | cons first rest =>
    have hfst : (keys.zip rest).map Prod.fst = keys := map_fst_zip (by simpa using hlen.ge)
    simp only [bytes, tail_cons, length_append, length_preambleBytes, length_separatorBytes, hfst, hmagic,
      take_succ_cons, take_zero, flatMap_cons, flatMap_nil, length_leBytes, length_nil]
    omega

/-- A well-formed node fits one page. -/
theorem Node.Wf.fits (h : node.Wf) : node.bytes.length ≤ pagePayloadSize := by
  cases node with
  | leaf entries => exact length_leaf_bytes entries ▸ h.2.2.2
  | internal keys children => exact length_internal_bytes h.2.1 ▸ h.2.2.2.2

variable {bytes : Bytes}

theorem encodeLeaf_eq_ok : encodeLeaf entries = .ok bytes ↔ (leaf entries).Wf ∧ bytes = (leaf entries).bytes := by
  have hsize : pagePayloadSize < 2 ^ 16 := by decide
  have hcount := eight_mul_length_le_leafBody entries
  have hbody (hall : ∀ entry ∈ entries, entry.1.length < 2 ^ 32 ∧ entry.2.length < 2 ^ 32) :
      entries.mapM encodeLeafEntry = .ok (entries.map leafEntryBytes) := by
    refine mapM_eq_ok fun entry hmem => ?_
    obtain ⟨hk, hv⟩ := hall entry hmem
    simp [encodeLeafEntry, putLength, checkU32_ok hk, checkU32_ok hv, leafEntryBytes]
  simp only [encodeLeaf, bind_eq_ok, validateLeafEntries_eq_ok, leafEncodedLength_eq_ok,
    failIf_eq_ok, not_lt, not_le, pure_eq_ok, ok.injEq]
  constructor
  · rintro ⟨-, ⟨hne, hasc, hkeys⟩, _, ⟨hall, -, rfl⟩, -, htotal, -, -, body, hmap, rfl⟩
    rw [hbody hall, ok.injEq] at hmap
    subst hmap
    exact ⟨⟨hne, hasc, fun entry hmem => (hkeys entry hmem).1, htotal⟩, by
      simp [bytes, preambleBytes, flatMap_def]⟩
  · rintro ⟨⟨hne, hasc, hkeys, htotal⟩, rfl⟩
    have hall := lengths_lt_of_leafBody_le htotal
    exact ⟨⟨⟩, ⟨hne, hasc, fun entry hmem => ⟨hkeys entry hmem, (hall entry hmem).2⟩⟩, _,
      ⟨hall, by omega, rfl⟩, ⟨⟩, htotal, ⟨⟩, by omega, _, hbody hall, by
        simp [bytes, preambleBytes, flatMap_def]⟩

theorem encodeInternal_eq_ok :
    encodeInternal keys children = .ok bytes ↔
      (internal keys children).Wf ∧ bytes = (internal keys children).bytes := by
  have hkey : maxKeySize < 2 ^ 32 := by decide
  have hsize : pagePayloadSize < 2 ^ 16 := by decide
  have hcount := twelve_mul_length_le_internalBody keys
  have hbody (hall : ∀ key ∈ keys, key.length < 2 ^ 32) :
      (keys.zip children.tail).mapM encodeSeparator = .ok ((keys.zip children.tail).map separatorBytes) := by
    refine mapM_eq_ok fun separator hmem => ?_
    have hk := hall separator.1 (of_mem_zip hmem).1
    simp [encodeSeparator, putLength, checkU32_ok hk, separatorBytes]
  simp only [encodeInternal, bind_eq_ok, validateInternalShape_eq_ok, internalEncodedLength_eq_ok,
    failIf_eq_ok, not_lt, not_le, okOr_eq_ok, pure_eq_ok, ok.injEq]
  constructor
  · rintro ⟨-, ⟨hne, hlen, hasc, hkeys⟩, _, ⟨hall, -, rfl⟩, -, htotal, -, -, first, hfirst, body, hmap, rfl⟩
    rw [hbody hall, ok.injEq] at hmap
    subst hmap
    obtain ⟨rest, rfl⟩ : ∃ rest, children = first :: rest := by
      cases children with
      | nil => cases hfirst
      | cons c cs => exact ⟨cs, by simpa using hfirst⟩
    exact ⟨⟨hne, hlen, hasc, hkeys, htotal⟩, by
      simp [bytes, preambleBytes, flatMap_def]⟩
  · rintro ⟨⟨hne, hlen, hasc, hkeys, htotal⟩, rfl⟩
    have hall : ∀ key ∈ keys, key.length < 2 ^ 32 := fun key hmem => (hkeys key hmem).trans_lt hkey
    cases children with
    | nil => simp at hlen
    | cons first rest =>
      exact ⟨⟨⟩, ⟨hne, hlen, hasc, hkeys⟩, _, ⟨hall, by omega, rfl⟩, ⟨⟩, htotal, ⟨⟩, by omega, first, rfl,
        _, hbody hall, by simp [bytes, preambleBytes, flatMap_def]⟩

theorem Node.encode_eq_ok : node.encode = .ok bytes ↔ node.Wf ∧ bytes = node.bytes := by
  cases node with
  | leaf entries => exact encodeLeaf_eq_ok
  | internal keys children => exact encodeInternal_eq_ok

/-! ## What the decoders accept -/

/-- A leaf payload, taken apart. -/
structure LeafPayload (payload : Bytes) (entries : List KeyValue) : Prop where
  count : decodePreamble leafMagic leafHeaderSize payload = .ok entries.length
  countFits : ¬(entries.length = 0 ∨ (payload.length - leafHeaderSize) / 8 < entries.length)
  header : leafHeaderSize ≤ payload.length
  body : payload.drop leafHeaderSize = entries.flatMap leafEntryBytes
  keys : ∀ e ∈ entries, e.1.length ≤ maxKeySize
  sizes : ∀ e ∈ entries, e.1.length < 2 ^ 32 ∧ e.2.length < 2 ^ 32
  ascending : KeyAscending entries
  ne_nil : entries ≠ []

theorem decodeLeaf_iff_leafPayload :
    decodeLeaf payload = .ok node ↔ ∃ entries, node = .leaf entries ∧ LeafPayload payload entries := by
  simp only [decodeLeaf, bind_eq_ok, failIf_eq_ok, Prod.exists, decodeLeafEntries_eq_ok, cursorFinish,
    not_not, validateLeafEntries_eq_ok, pure_eq_ok, ok.injEq]
  constructor
  · rintro ⟨count, hcount, -, hfits, entries, cursor, ⟨rfl, hsizes, hbody⟩, -, rfl, -, ⟨hne, hasc, hkeys⟩, rfl⟩
    have hheader := ((decodePreamble_eq_ok rfl (by decide)).mp hcount).1
    rw [append_nil] at hbody
    exact ⟨entries, rfl, hcount, hfits, hheader, hbody, fun e he => (hkeys e he).1, hsizes, hasc, hne⟩
  · rintro ⟨entries, rfl, h⟩
    exact ⟨_, h.count, ⟨⟩, h.countFits, entries, [], ⟨rfl, h.sizes, by rw [h.body, append_nil]⟩, ⟨⟩, rfl, ⟨⟩,
      ⟨h.ne_nil, h.ascending, fun e he => ⟨h.keys e he, (h.sizes e he).2⟩⟩, rfl⟩

theorem decodeLeaf_leaf : decodeLeaf payload = .ok (.leaf entries) ↔ LeafPayload payload entries := by
  simp [decodeLeaf_iff_leafPayload]

theorem decodeLeaf_eq_ok (hfits : payload.length ≤ pagePayloadSize) :
    decodeLeaf payload = .ok node ↔ ∃ entries, node = .leaf entries ∧ node.Wf ∧ payload = node.bytes := by
  have hsize : pagePayloadSize < 2 ^ 16 := by decide
  have hdrop (count : Nat) (rest : Bytes) :
      (preambleBytes leafMagic count ++ rest).drop leafHeaderSize = rest := drop_left' rfl
  rw [decodeLeaf_iff_leafPayload]
  refine exists_congr fun entries => and_congr_right ?_
  rintro rfl
  constructor
  · intro h
    obtain ⟨-, -, rest, rfl⟩ := (decodePreamble_eq_ok rfl (by decide)).mp h.count
    obtain rfl : rest = entries.flatMap leafEntryBytes := (hdrop _ _).symm.trans h.body
    rw [length_append, length_preambleBytes, length_leafEntryBytes] at hfits
    exact ⟨⟨h.ne_nil, h.ascending, h.keys, hfits⟩, rfl⟩
  · rintro ⟨⟨hne, hasc, hkeys, htotal⟩, rfl⟩
    have hcount := eight_mul_length_le_leafBody entries
    have hpos : 0 < entries.length := length_pos_iff.mpr hne
    have hlength := length_leaf_bytes entries
    exact ⟨(decodePreamble_eq_ok rfl (by decide)).mpr ⟨by omega, by omega, _, rfl⟩, by omega, by omega, hdrop _ _,
      hkeys, lengths_lt_of_leafBody_le htotal, hasc, hne⟩

/-- An internal payload, taken apart. -/
structure InternalPayload (payload : Bytes) (first : PageId) (separators : List (Bytes × PageId)) : Prop where
  count : decodePreamble internalMagic internalHeaderSize payload = .ok separators.length
  countFits : ¬(separators.length = 0 ∨ (payload.length - internalHeaderSize) / 12 + 1 < separators.length)
  firstChild : NonZeroUInt.new 64 (ofLe (slice payload 16 24)) = some first
  body : payload.drop internalHeaderSize = separators.flatMap separatorBytes
  keys : ∀ s ∈ separators, s.1.length ≤ maxKeySize
  ascending : KeyAscending separators

variable {first : PageId} {separators : List (Bytes × PageId)}

theorem InternalPayload.ne_nil (h : InternalPayload payload first separators) : separators.map Prod.fst ≠ [] :=
  fun hnil => h.countFits (.inl (by simpa using hnil))

theorem decodeInternal_iff_internalPayload :
    decodeInternal payload = .ok node ↔ ∃ first separators, InternalPayload payload first separators ∧
      node = .internal (separators.map Prod.fst) (first :: separators.map Prod.snd) := by
  simp only [decodeInternal, bind_eq_ok, failIf_eq_ok, okOr_eq_ok, Prod.exists, decodeSeparators_eq_ok, cursorFinish,
    not_not, validateInternalShape_eq_ok, pure_eq_ok, ok.injEq]
  constructor
  · rintro ⟨count, hcount, -, hfits, first, hfirst, separators, cursor, ⟨rfl, -, hbody⟩, -, rfl, -,
      ⟨-, -, hasc, hkeys⟩, rfl⟩
    rw [append_nil] at hbody
    exact ⟨first, separators, ⟨hcount, hfits, hfirst, hbody, forall_mem_map.mp hkeys, hasc⟩, rfl⟩
  · rintro ⟨first, separators, h, rfl⟩
    exact ⟨_, h.count, ⟨⟩, h.countFits, first, h.firstChild, separators, [],
      ⟨rfl, fun s hs => (h.keys s hs).trans_lt (by decide), by rw [h.body, append_nil]⟩, ⟨⟩, rfl, ⟨⟩,
      ⟨h.ne_nil, by simp, h.ascending, forall_mem_map.mpr h.keys⟩, rfl⟩

theorem internal_bytes (first : PageId) (separators : List (Bytes × PageId)) :
    (internal (separators.map Prod.fst) (first :: separators.map Prod.snd)).bytes =
      preambleBytes internalMagic separators.length ++ (leBytes 8 first.get ++ separators.flatMap separatorBytes) := by
  simp [bytes, zip_map']

theorem decodeInternal_eq_ok (hfits : payload.length ≤ pagePayloadSize) :
    decodeInternal payload = .ok node ↔
      ∃ keys children, node = .internal keys children ∧ node.Wf ∧ payload = node.bytes := by
  have hsize : pagePayloadSize < 2 ^ 16 := by decide
  have hmagic : internalMagic.length = 8 := rfl
  have hheader : internalHeaderSize = 24 := rfl
  have hdrop (count : Nat) (rest : Bytes) :
      (preambleBytes internalMagic count ++ rest).drop internalHeaderSize = rest.drop 8 := by
    rw [drop_append, length_preambleBytes, drop_eq_nil_of_le (by simp [hmagic, hheader])]
    rfl
  have hslice (count : Nat) (rest : Bytes) :
      slice (preambleBytes internalMagic count ++ rest) 16 24 = slice rest 0 8 := slice_skip _ (by simp [hmagic])
  rw [decodeInternal_iff_internalPayload]
  constructor
  · rintro ⟨first, separators, h, rfl⟩
    obtain ⟨hlen, -, rest, rfl⟩ := (decodePreamble_eq_ok hmagic (by decide)).mp h.count
    have hfirst := NonZeroUInt.new_eq_some.mp h.firstChild
    have hbody := h.body
    rw [length_append, length_preambleBytes, hmagic, hheader] at hlen
    rw [hslice] at hfirst
    rw [hdrop] at hbody
    obtain ⟨-, hfield⟩ := (eq_leBytes_iff (length_slice (by omega))).mp hfirst
    have hlayout : rest = leBytes 8 first.get ++ separators.flatMap separatorBytes := by
      rw [← hbody, ← drop_zero (l := rest), ← slice_append_drop rest (Nat.zero_le 8), hfield, drop_left' (by simp)]
    have hbytes := internal_bytes first separators
    rw [← hlayout] at hbytes
    have hchildren : (first :: separators.map Prod.snd).length = (separators.map Prod.fst).length + 1 := by simp
    refine ⟨_, _, rfl, ⟨h.ne_nil, hchildren, h.ascending, forall_mem_map.mpr h.keys, ?_⟩, hbytes.symm⟩
    rwa [← length_internal_bytes hchildren, hbytes]
  · rintro ⟨keys, children, rfl, ⟨hne, hlen, hasc, hkeys, htotal⟩, rfl⟩
    have hcount := twelve_mul_length_le_internalBody keys
    have hpos : 0 < keys.length := length_pos_iff.mpr hne
    have hlength := length_internal_bytes hlen
    cases children with
    | nil => simp at hlen
    | cons first rest =>
      have hrest : rest.length = keys.length := by simpa using hlen
      obtain ⟨separators, rfl, rfl⟩ : ∃ separators : List (Bytes × PageId),
          separators.map Prod.fst = keys ∧ separators.map Prod.snd = rest :=
        ⟨keys.zip rest, map_fst_zip (by omega), map_snd_zip (by omega)⟩
      rw [length_map] at hcount hpos
      have hbytes := internal_bytes first separators
      refine ⟨first, separators, ⟨(decodePreamble_eq_ok hmagic (by decide)).mpr ⟨by omega, by omega, _, hbytes⟩,
        by omega, NonZeroUInt.new_eq_some.mpr ?_, ?_, forall_mem_map.mp hkeys, hasc⟩, rfl⟩
      · rw [hbytes, hslice, slice_field _ (by simp)]
        exact ofLe_leBytes first.lt
      · rw [hbytes, hdrop, drop_left' (by simp)]

/-- A page decodes to a node exactly when it is the encoding of that well-formed node. -/
theorem decodePage_eq_ok {page : Page} :
    decodePage page = .ok node ↔ page.kind = node.pageKind ∧ node.Wf ∧ page.payload = node.bytes := by
  unfold decodePage
  cases hkind : page.kind with
  | bTreeLeaf =>
    rw [decodeLeaf_eq_ok page.fits]
    cases node <;> simp [pageKind]
  | bTreeInternal =>
    rw [decodeInternal_eq_ok page.fits]
    cases node <;> simp [pageKind]
  | _ => cases node <;> simp [pageKind]

end Hyphae.BTree
