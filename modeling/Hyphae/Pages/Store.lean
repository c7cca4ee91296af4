import Hyphae.Lib.Bytes
import Hyphae.Lib.Effect
import Hyphae.Types.Identity

/-!
# The append-only page store

A page file is a sequence of fixed-size slots, slot `i` holding page `i + 1`.
The model keeps for every slot what decoding its bytes gives: the page, or the
error the codec reports for it.
-/

namespace Hyphae

open Lib List

/-- Bytes of one page. -/
def pageSize : Nat := 16384

/-- Bytes of a page left for its payload. -/
def pagePayloadSize : Nat := 16288

/-- Native page role. -/
inductive PageKind
  | catalogRoot | heapLeaf | versionChain | bTreeInternal | bTreeLeaf | hashDirectory | hashBucket
  | structureNode | bitmap | searchDelta | vectorMetadata | overflow
  deriving DecidableEq, Repr

/-- Native page codec failure. -/
inductive PageError
  | invalidLength (actual : Nat)
  | invalidMagic
  | unsupportedFormat (version headerLength : Nat)
  | unknownKind (kind : UInt8)
  | reservedNonzero
  | pageIdMismatch (expected found : Nat)
  | payloadTooLarge (actual : Nat)
  | nonzeroPadding
  | checksumMismatch
  | digestMismatch
  deriving DecidableEq, Repr

/-- Native append-only page-file failure. -/
inductive PageStoreError
  | io
  | page (error : PageError)
  | poisoned
  | pageIdExhausted
  | pageOutsideBoundary (id : PageId)
  deriving DecidableEq, Repr

/-- Verified immutable native page. -/
structure Page where
  id : PageId
  kind : PageKind
  creatingCsn : Option Csn
  next : Option PageId
  payload : Bytes
  fits : payload.length ≤ pagePayloadSize
  deriving DecidableEq

/-- Construct a checked page. -/
def Page.new (id : PageId) (kind : PageKind) (creatingCsn : Option Csn) (next : Option PageId)
    (payload : Bytes) : Except PageError Page :=
  if fits : payload.length ≤ pagePayloadSize then .ok { id, kind, creatingCsn, next, payload, fits }
  else .error (.payloadTooLarge payload.length)

/-- The page file of one generation. The next page identity is a `u64`. -/
structure PageStore where
  generation : PageGeneration
  slots : List (Except PageStoreError Page)
  poisoned : Bool
  bounded : slots.length + 1 < 2 ^ 64

namespace PageStore

variable {s t : PageStore} {page : Page} {id : PageId}

/-- A newly created page file. -/
def create (generation : PageGeneration) : PageStore :=
  { generation, slots := [], poisoned := false, bounded := by norm_num }

def pageCount (s : PageStore) : Nat := s.slots.length

/-- The identity the next append takes. -/
def nextPageId (s : PageStore) : PageId := ⟨s.slots.length + 1, by omega, s.bounded⟩

/-- Read and verify one page by physical identity. -/
def read (s : PageStore) (id : PageId) : Except PageStoreError Page :=
  if s.nextPageId.get ≤ id.get then .error (.pageOutsideBoundary id)
  else if 2 ^ 64 ≤ (id.get - 1) * pageSize then .error .pageIdExhausted
  else s.slots.getD (id.get - 1) (.error .io)

/-- Append one copy-on-write page. When the identity after the new page does not fit a
`u64`, the writer stays poisoned and the page lies outside its boundary. -/
def append (kind : PageKind) (creatingCsn : Option Csn) (next : Option PageId) (payload : Bytes) :
    EStateM PageStoreError PageStore PageId := fun s =>
  if s.poisoned then .error .poisoned s
  else
    match Page.new s.nextPageId kind creatingCsn next payload with
    | .error e => .error (.page e) s
    | .ok page =>
      if h : s.slots.length + 2 < 2 ^ 64 then
        .ok s.nextPageId { s with slots := s.slots ++ [.ok page], bounded := by simpa using h }
      else .error .pageIdExhausted { s with poisoned := true }

/-- Every page inside the boundary reads back. -/
def ReadsSucceed (s : PageStore) : Prop :=
  ∀ id : PageId, id.get ≤ s.pageCount → ∃ page, s.read id = .ok page

/-- `t` keeps every slot of `s` and may have appended more. -/
structure Extends (s t : PageStore) : Prop where
  generation : t.generation = s.generation
  slots : s.slots <+: t.slots

theorem Extends.refl (s : PageStore) : Extends s s := ⟨rfl, prefix_rfl⟩

theorem Extends.trans {u : PageStore} (h : Extends s t) (h' : Extends t u) : Extends s u :=
  ⟨h'.generation.trans h.generation, h.slots.trans h'.slots⟩

instance : IsPreorder PageStore Extends where
  refl := Extends.refl
  trans _ _ _ := Extends.trans

theorem Extends.pageCount_le (h : Extends s t) : s.pageCount ≤ t.pageCount :=
  h.slots.length_le

theorem read_eq_ok :
    s.read id = .ok page ↔ (id.get - 1) * pageSize < 2 ^ 64 ∧ s.slots[id.get - 1]? = some (.ok page) := by
  have hpos := id.pos
  have hnext : s.nextPageId.get = s.slots.length + 1 := rfl
  unfold read
  constructor
  · intro h
    split at h
    · cases h
    · split at h
      · cases h
      · refine ⟨by omega, ?_⟩
        rw [getD_eq_getElem?_getD, getElem?_eq_getElem (by omega)] at h
        rw [getElem?_eq_getElem (by omega)]
        simpa using h
  · rintro ⟨hlt, hget⟩
    have hlen := (List.getElem?_eq_some_iff.mp hget).1
    rw [if_neg (by omega), if_neg (by omega), getD_eq_getElem?_getD, hget]
    rfl

theorem Extends.read (h : Extends s t) (hr : s.read id = .ok page) : t.read id = .ok page := by
  rw [read_eq_ok] at hr ⊢
  obtain ⟨appended, happended⟩ := h.slots
  have hlen := (List.getElem?_eq_some_iff.mp hr.2).1
  exact ⟨hr.1, by rw [← happended, getElem?_append_left hlen, hr.2]⟩

theorem id_le_pageCount (hr : s.read id = .ok page) : id.get ≤ s.pageCount := by
  have hlen := (List.getElem?_eq_some_iff.mp (read_eq_ok.mp hr).2).1
  have hpos := id.pos
  simp only [pageCount]
  omega

/-- Pages are never rewritten: an append, failed or not, only extends the file. -/
theorem append_moves (kind : PageKind) (csn : Option Csn) (next : Option PageId) (payload : Bytes) :
    EStateM.Moves Extends (append kind csn next payload) := by
  intro s
  unfold append
  split
  · exact .refl s
  · split
    · exact .refl s
    · split
      · exact ⟨rfl, prefix_append _ _⟩
      · exact ⟨rfl, prefix_rfl⟩

theorem append_eq_ok {kind : PageKind} {csn : Option Csn} {next : Option PageId} {payload : Bytes}
    (h : append kind csn next payload s = .ok id t) :
    id = s.nextPageId ∧ t.poisoned = s.poisoned ∧
      ∃ page : Page, page.kind = kind ∧ page.payload = payload ∧ page.creatingCsn = csn ∧
        t.slots = s.slots ++ [.ok page] := by
  unfold append at h
  split at h
  · cases h
  · split at h
    · cases h
    · rename_i page hpage
      split at h
      · cases h
        refine ⟨rfl, rfl, page, ?_⟩
        unfold Page.new at hpage
        split at hpage
        · cases hpage
          exact ⟨rfl, rfl, rfl, rfl⟩
        · cases hpage
      · cases h

end PageStore

end Hyphae
