import Hyphae.Lib.OrderedMap
import Hyphae.Wal.Record

/-!
# Root sets

A root set is what one commit makes visible: the page each engine partition starts
at, the catalog version, the log record it is anchored to, and the page storage it
lives in. There are two ways to build one, and both leave the retention floor at or
below the visible commit.
-/

namespace Hyphae.Mvcc

open Lib

open List NonZeroUInt

open Wal (EngineKind Hashes Digest zeros)

/-- Immutable catalog snapshot identity. -/
abbrev CatalogVersion := NonZeroUInt 64

/-- The identity `FIRST`. -/
def first : NonZeroUInt 64 := ⟨1, Nat.one_pos, by norm_num⟩

/-- The next identity before overflow. -/
def checkedNext (a : NonZeroUInt 64) : Option (NonZeroUInt 64) := (checkedAdd a.get 1).bind (NonZeroUInt.new 64)

theorem checkedNext_eq_some {a b : NonZeroUInt 64} : checkedNext a = some b ↔ b.get = a.get + 1 := by
  unfold checkedNext
  simp only [Option.bind_eq_some_iff, checkedAdd_eq_some, new_eq_some]
  constructor
  · rintro ⟨n, ⟨-, rfl⟩, h⟩
    exact h.symm
  · intro h
    exact ⟨b.get, ⟨h ▸ b.lt, h⟩, rfl⟩

/-- A commit sequence as a number; zero stands for no commit. -/
def csnValue (csn : Option Csn) : Nat := (csn.map NonZeroUInt.get).getD 0

@[simp] theorem csnValue_none : csnValue none = 0 := rfl

@[simp] theorem csnValue_some (csn : Csn) : csnValue (some csn) = csn.get := rfl

theorem csnValue_pos {csn : Option Csn} : 0 < csnValue csn ↔ csn.isSome := by
  cases csn with
  | none => simp
  | some csn => simpa using csn.pos

/-- An identity is read back from its bytes. -/
theorem new_ofLe {w k : Nat} (h : 2 ^ w = 256 ^ k) (id : NonZeroUInt w) :
    new w (ofLe (leBytes k id.get)) = some id := by
  rw [ofLe_leBytes (h ▸ id.lt), new_get]

theorem new_ofLe_csnValue (csn : Option Csn) : new 64 (ofLe (leBytes 8 (csnValue csn))) = csn := by
  cases csn with
  | none => rfl
  | some csn => exact new_ofLe (by norm_num) csn

/-- Coordinator or publication failure. -/
inductive MvccError
  | poisoned
  | csnExhausted
  | invalidWalAnchor
  | uncommittedRootSet
  | invalidStorageTransition
  | emptyGroup
  deriving DecidableEq, Repr

abbrev MvccM := Except MvccError

/-- The log record a root set is published for. -/
structure WalAnchor where
  lsn : Lsn
  digest : Digest
  deriving DecidableEq

def WalAnchor.new (lsn : Lsn) (digest : Digest) : MvccM WalAnchor := do
  .failIf (digest = .zero) .invalidWalAnchor
  .ok { lsn, digest }

/-- One engine-partition root slot. -/
structure RootSlot where
  engine : EngineKind
  partition : UInt16
  deriving DecidableEq

/-- Slots are ordered by engine, then by partition. -/
def RootSlot.rank (slot : RootSlot) : Nat ×ₗ Nat := toLex (slot.engine.code.toNat, slot.partition.toNat)

theorem RootSlot.rank_injective : Function.Injective RootSlot.rank := by
  rintro ⟨engine, partition⟩ ⟨engine', partition'⟩ h
  simp only [rank, EmbeddingLike.apply_eq_iff_eq, Prod.mk.injEq] at h
  have hengine : engine = engine' := by
    cases engine <;> cases engine' <;> first | rfl | exact absurd h.1 (by decide)
  rw [hengine, UInt16.toNat_inj.mp h.2]

instance : LinearOrder RootSlot := LinearOrder.lift' RootSlot.rank RootSlot.rank_injective

/-- The anchor, or zeros in its place. -/
def anchorBytes (walAnchor : Option WalAnchor) : Bytes :=
  match walAnchor with
  | some anchor => leBytes 8 anchor.lsn.get ++ anchor.digest.bytes
  | none => leBytes 8 0 ++ zeros 32

/-- One slot of the root list. -/
def slotBytes (entry : RootSlot × PageId) : Bytes :=
  [entry.1.engine.code] ++ leBytes 2 entry.1.partition.toNat ++ leBytes 8 entry.2.get

/-- The bytes behind the root list, if the page storage is not the first. -/
def storageBytes (pageGeneration : PageGeneration) (floor : Option Csn) : Bytes :=
  if pageGeneration ≠ first ∨ ∃ csn ∈ floor, csn ≠ first then
    "hyphae-native-page-storage-v1".toUTF8.toList ++ leBytes 8 pageGeneration.get ++ leBytes 8 (csnValue floor)
  else []

/-- The bytes the digest of a root set is taken of. -/
def rootSetBytes (visible : Option Csn) (catalogVersion : CatalogVersion) (walAnchor : Option WalAnchor)
    (roots : OrderedMap RootSlot PageId) (blobGeneration : BitVec 64) (pageGeneration : PageGeneration)
    (floor : Option Csn) : Bytes :=
  "hyphae-native-root-set-v1".toUTF8.toList ++ leBytes 8 (csnValue visible) ++ leBytes 8 catalogVersion.get ++
    anchorBytes walAnchor ++ leBytes 8 blobGeneration.toNat ++ roots.entries.flatMap slotBytes ++
      storageBytes pageGeneration floor

/-- Immutable root set visible to one snapshot. A set without a commit is the one before the first. -/
structure RootSet (hashes : Hashes) where
  visibleCsn : Option Csn
  catalogVersion : CatalogVersion
  walAnchor : Option WalAnchor
  roots : OrderedMap RootSlot PageId
  blobGeneration : BitVec 64
  pageGeneration : PageGeneration
  retentionFloorCsn : Option Csn
  digest : Digest
  floor_le : csnValue retentionFloorCsn ≤ csnValue visibleCsn
  floor_isSome : retentionFloorCsn.isSome = visibleCsn.isSome
  anchored : walAnchor.isSome = visibleCsn.isSome
  generation_first : visibleCsn = none → pageGeneration = first
  digest_eq : digest = hashes.blake3 (rootSetBytes visibleCsn catalogVersion walAnchor roots blobGeneration
    pageGeneration retentionFloorCsn)

namespace RootSet

variable {hashes : Hashes} {retentionFloorCsn visibleCsn : Csn} {walAnchor : WalAnchor}

/-- The empty root set before the first commit. -/
def genesis (hashes : Hashes) (catalogVersion : CatalogVersion) : RootSet hashes where
  visibleCsn := none
  catalogVersion
  walAnchor := none
  roots := OrderedMap.empty
  blobGeneration := 0
  pageGeneration := first
  retentionFloorCsn := none
  digest := hashes.blake3 (rootSetBytes none catalogVersion none OrderedMap.empty 0 first none)
  floor_le := Nat.le_refl 0
  floor_isSome := rfl
  anchored := rfl
  generation_first := fun _ => rfl
  digest_eq := rfl

/-- The root set a commit publishes. -/
def committedWithStorage (hashes : Hashes) (visibleCsn : Csn) (catalogVersion : CatalogVersion) (walAnchor : WalAnchor)
    (roots : OrderedMap RootSlot PageId) (blobGeneration : BitVec 64) (pageGeneration : PageGeneration)
    (retentionFloorCsn : Csn) : MvccM (RootSet hashes) :=
  if walAnchor.digest = .zero then .error .invalidWalAnchor
  else if h : retentionFloorCsn.get ≤ visibleCsn.get then
    .ok {
      visibleCsn := some visibleCsn
      catalogVersion
      walAnchor := some walAnchor
      roots
      blobGeneration
      pageGeneration
      retentionFloorCsn := some retentionFloorCsn
      digest := hashes.blake3 (rootSetBytes (some visibleCsn) catalogVersion (some walAnchor) roots blobGeneration
        pageGeneration (some retentionFloorCsn))
      floor_le := h
      floor_isSome := rfl
      anchored := rfl
      generation_first := by simp
      digest_eq := rfl }
  else .error .invalidStorageTransition

/-- What a published root set shows of the arguments it was built from. -/
theorem committedWithStorage_eq_ok {catalogVersion : CatalogVersion} {roots : OrderedMap RootSlot PageId}
    {blobGeneration : BitVec 64} {pageGeneration : PageGeneration} {root : RootSet hashes}
    (h : committedWithStorage hashes visibleCsn catalogVersion walAnchor roots blobGeneration pageGeneration
      retentionFloorCsn = .ok root) :
    root.visibleCsn = some visibleCsn ∧ root.pageGeneration = pageGeneration ∧
      root.retentionFloorCsn = some retentionFloorCsn := by
  unfold committedWithStorage at h
  split at h
  · cases h
  · split at h
    · cases h
      exact ⟨rfl, rfl, rfl⟩
    · cases h

/-- What `compute_digest` feeds to the hasher. -/
def preimage (root : RootSet hashes) : Bytes :=
  rootSetBytes root.visibleCsn root.catalogVersion root.walAnchor root.roots root.blobGeneration root.pageGeneration
    root.retentionFloorCsn

theorem leBytes_csnValue_inj {csn csn' : Option Csn} (h : leBytes 8 (csnValue csn) = leBytes 8 (csnValue csn')) :
    csn = csn' := by
  rw [← new_ofLe_csnValue csn, h, new_ofLe_csnValue]

@[simp] theorem length_anchorBytes (walAnchor : Option WalAnchor) : (anchorBytes walAnchor).length = 40 := by
  cases walAnchor with
  | none => rfl
  | some anchor => simp [anchorBytes, anchor.digest.size]

/-- A log sequence number is not zero, so an anchor is not taken for the absent one. -/
theorem anchorBytes_inj {anchor anchor' : Option WalAnchor} (h : anchorBytes anchor = anchorBytes anchor') :
    anchor = anchor' := by
  have hbytes (anchor : Option WalAnchor) : (anchorBytes anchor).take 8 =
    leBytes 8 (csnValue (anchor.map (·.lsn))) := by
    cases anchor <;> exact take_left' (length_leBytes _ _)
  have hlsn : anchor.map (·.lsn) = anchor'.map (·.lsn) := leBytes_csnValue_inj (by rw [← hbytes, h, hbytes])
  cases anchor with
  | none =>
    cases anchor' with
    | none => rfl
    | some anchor' => cases hlsn
  | some anchor =>
    cases anchor' with
    | none => cases hlsn
    | some anchor' =>
      obtain ⟨-, hdigest⟩ := append_inj h (by simp)
      obtain ⟨lsn, digest, _⟩ := anchor
      obtain ⟨lsn', digest', _⟩ := anchor'
      obtain rfl : lsn = lsn' := Option.some.inj hlsn
      obtain rfl : digest = digest' := hdigest
      rfl

theorem slotBytes_inj {entry entry' : RootSlot × PageId} (h : slotBytes entry = slotBytes entry') : entry = entry' := by
  obtain ⟨⟨engine, partition⟩, page⟩ := entry
  obtain ⟨⟨engine', partition'⟩, page'⟩ := entry'
  simp only [slotBytes, cons_append, cons.injEq] at h
  obtain ⟨hengine, hrest⟩ := h
  obtain ⟨hpartition, hpage⟩ := append_inj hrest (by simp)
  have hengine : engine = engine' := by
    have hdecode := congrArg Wal.decodeEngineKind hengine
    simpa using hdecode
  have hpartition : partition = partition' :=
    UInt16.toNat_inj.mp (leBytes_inj partition.toNat_lt partition'.toNat_lt hpartition)
  rw [hengine, hpartition, ext (leBytes_inj page.lt page'.lt hpage)]

theorem length_storageBytes (pageGeneration : PageGeneration) (floor : Option Csn) :
    (storageBytes pageGeneration floor).length = 0 ∨ (storageBytes pageGeneration floor).length = 45 := by
  have hdomain : "hyphae-native-page-storage-v1".toUTF8.toList.length = 29 := by decide +kernel
  unfold storageBytes
  split
  · right
    simp only [length_append, hdomain, length_leBytes]
  · exact .inl rfl

/-- Without the suffix the generation is the first, and so is the floor, if there is one. -/
theorem storageBytes_inj {generation generation' : PageGeneration} {floor floor' : Option Csn}
    (hsome : floor.isSome = floor'.isSome) (h : storageBytes generation floor = storageBytes generation' floor') :
    generation = generation' ∧ floor = floor' := by
  unfold storageBytes at h
  split at h
  · split at h
    · obtain ⟨hleft, hfloor⟩ := append_inj h (by simp)
      obtain ⟨-, hgeneration⟩ := append_inj hleft rfl
      exact ⟨ext (leBytes_inj generation.lt generation'.lt hgeneration), leBytes_csnValue_inj hfloor⟩
    · exact absurd (congrArg length h) (by simp)
  · split at h
    · exact absurd (congrArg length h) (by simp)
    · next hdefault hdefault' =>
      simp only [not_or, not_exists, not_and, not_not] at hdefault hdefault'
      refine ⟨hdefault.1.trans hdefault'.1.symm, ?_⟩
      cases floor with
      | none => exact (Option.not_isSome_iff_eq_none.mp (by simp [← hsome])).symm
      | some csn =>
        obtain ⟨csn', rfl⟩ := Option.isSome_iff_exists.mp (hsome.symm.trans rfl)
        rw [hdefault.2 csn rfl, hdefault'.2 csn' rfl]

/-- The digest preimage tells everything about a root set. -/
theorem preimage_unambiguous {root root' : RootSet hashes} (h : root.preimage = root'.preimage) : root = root' := by
  have hdigest : root.digest = root'.digest := by
    rw [root.digest_eq, root'.digest_eq]
    exact congrArg hashes.blake3 h
  simp only [preimage, rootSetBytes, List.append_assoc] at h
  -- the fields in front of the list have fixed lengths
  obtain ⟨hvisible, h⟩ := List.append_inj (List.append_cancel_left h) (by simp)
  obtain ⟨hversion, h⟩ := List.append_inj h (by simp)
  obtain ⟨hanchor, h⟩ := List.append_inj h (by simp)
  obtain ⟨hblobs, h⟩ := List.append_inj h (by simp)
  -- eleven bytes a slot and none or forty-five behind them: the length tells both
  have hslots : ∀ root : RootSet hashes, (root.roots.entries.flatMap slotBytes).length =
    11 * root.roots.entries.length := by
    intro root
    simp [List.length_flatMap, slotBytes, Nat.mul_comm]
  have hlength := congrArg List.length h
  rw [List.length_append, List.length_append, hslots, hslots] at hlength
  have hsame : root.roots.entries.length = root'.roots.entries.length := by
    have hsuffix := length_storageBytes root.pageGeneration root.retentionFloorCsn
    have hsuffix' := length_storageBytes root'.pageGeneration root'.retentionFloorCsn
    omega
  obtain ⟨hroots, hstorage⟩ := List.append_inj h (by rw [hslots, hslots, hsame])
  have hvisible := leBytes_csnValue_inj hvisible
  obtain ⟨hgeneration, hfloor⟩ := storageBytes_inj (by rw [root.floor_isSome, root'.floor_isSome, hvisible]) hstorage
  have hroots := OrderedMap.ext_entries
    (flatMap_inj (w := 11) (by norm_num) (fun entry => by simp [slotBytes]) slotBytes_inj hroots)
  have hversion := NonZeroUInt.ext (leBytes_inj root.catalogVersion.lt root'.catalogVersion.lt hversion)
  have hblobs := BitVec.eq_of_toNat_eq (leBytes_inj root.blobGeneration.isLt root'.blobGeneration.isLt hblobs)
  cases root
  cases root'
  rw [mk.injEq]
  exact ⟨hvisible, hversion, anchorBytes_inj hanchor, hroots, hblobs, hgeneration, hfloor, hdigest⟩

/-- The root set of a commit that keeps no earlier snapshot. -/
def lone (hashes : Hashes) (visibleCsn : Csn) (pageGeneration : PageGeneration) (roots : OrderedMap RootSlot PageId) :
    RootSet hashes where
  visibleCsn := some visibleCsn
  catalogVersion := first
  walAnchor := some ⟨first, ⟨replicate 32 2, length_replicate⟩⟩
  roots
  blobGeneration := 0
  pageGeneration
  retentionFloorCsn := some visibleCsn
  digest := _
  floor_le := Nat.le_refl _
  floor_isSome := rfl
  anchored := rfl
  generation_first := nofun
  digest_eq := rfl

/-- Two slots filled in either order, and behind them the page storage. -/
theorem preimage_unambiguous_lone :
    let catalog : RootSlot × PageId := (⟨.kernel, 0⟩, ofSucc 2)
    let rows : RootSlot × PageId := (⟨.relational, 1⟩, ofSucc 4)
    let root := lone ⟨fun _ _ => 0, fun _ => .zero⟩ (ofSucc 1) (ofSucc 1)
      ((OrderedMap.empty.insert catalog.1 catalog.2).insert rows.1 rows.2)
    storageBytes root.pageGeneration root.retentionFloorCsn ≠ [] ∧ root.roots.entries = [catalog, rows] ∧
      root = lone _ (ofSucc 1) (ofSucc 1) ((OrderedMap.empty.insert rows.1 rows.2).insert catalog.1 catalog.2) := by
  refine ⟨by decide +kernel, by decide, preimage_unambiguous ?_⟩
  decide +kernel

end RootSet

end Hyphae.Mvcc
