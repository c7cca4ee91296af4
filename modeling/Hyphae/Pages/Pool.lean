import Hyphae.Pages.Store

/-!
# The buffer pool

A bounded cache of verified pages, split into partitions. A frame handed out stays in
its partition until the last handle to it is dropped: `handles` lists the frames that
somebody outside the pool still holds. The model runs one thread, so no mutex is ever
poisoned.
-/

namespace Hyphae

open List Option

/-- Partitioned buffer-pool failure. -/
inductive BufferPoolError
  | store (error : PageStoreError)
  | invalidCapacity (capacity partitions : Nat)
  | partitionExhausted
  deriving DecidableEq, Repr

/-- Shared immutable page frame. -/
structure PageFrame where
  page : Page
  lastUsed : Nat

abbrev FrameKey := PageGeneration × PageId

/-- The frames of one partition; no key has two. -/
structure PoolPartition where
  capacity : Nat
  frames : List (FrameKey × PageFrame)
  nodup : (frames.map Prod.fst).Nodup

namespace PoolPartition

variable (partition : PoolPartition)

def get (key : FrameKey) : Option PageFrame :=
  (partition.frames.find? fun entry => entry.1 = key).map Prod.snd

/-- Stamp the frame of `key` as used. -/
def touch (key : FrameKey) (stamp : Nat) : PoolPartition :=
  { partition with
    frames := partition.frames.map fun entry =>
      (entry.1, if entry.1 = key then { entry.2 with lastUsed := stamp } else entry.2)
    nodup := by simpa [Function.comp_def] using partition.nodup }

def remove (key : FrameKey) : PoolPartition :=
  { partition with
    frames := partition.frames.filter fun entry => entry.1 ≠ key
    nodup := partition.nodup.sublist (filter_sublist.map Prod.fst) }

def insert (key : FrameKey) (frame : PageFrame) : PoolPartition :=
  { partition with
    frames := (key, frame) :: (partition.remove key).frames
    nodup := by
      rw [map_cons, nodup_cons]
      refine ⟨?_, (partition.remove key).nodup⟩
      simp [remove] }

/-- The least recently used frame that nobody holds. -/
def victim (handles : List FrameKey) : Option FrameKey :=
  ((partition.frames.filter fun entry => entry.1 ∉ handles).argmin fun entry => entry.2.lastUsed).map Prod.fst

/-- Evict one frame if the partition is full. -/
def makeRoom (handles : List FrameKey) : Option PoolPartition :=
  if partition.frames.length < partition.capacity then some partition
  else (partition.victim handles).map partition.remove

end PoolPartition

/-- Bounded partitioned cache for verified immutable pages. -/
structure BufferPool where
  partitions : List PoolPartition
  clock : Nat
  handles : List FrameKey
  nonempty : partitions ≠ []

namespace BufferPool

variable (pool : BufferPool)

/-- Construct an empty pool; the first partitions take the remainder of the capacity. -/
def new (capacity partitionCount : Nat) : Except BufferPoolError BufferPool :=
  if h : partitionCount = 0 ∨ capacity < partitionCount then .error (.invalidCapacity capacity partitionCount)
  else
    let base := capacity / partitionCount
    let remainder := capacity % partitionCount
    .ok {
      partitions := (List.range partitionCount).map fun index =>
        { capacity := base + if index < remainder then 1 else 0, frames := [], nodup := nodup_nil }
      clock := 1
      handles := []
      nonempty := by
        rw [ne_eq, map_eq_nil_iff, range_eq_nil]
        exact fun hzero => h (.inl hzero) }

def partitionIndex (key : FrameKey) : Nat :=
  ((key.1.get * 0x9e3779b97f4a7c15 % 2 ^ 64) ^^^ key.2.get) % pool.partitions.length

theorem partitionIndex_lt (key : FrameKey) : pool.partitionIndex key < pool.partitions.length :=
  Nat.mod_lt _ (length_pos_iff.mpr pool.nonempty)

/-- The partition a key belongs to. -/
def partition (key : FrameKey) : PoolPartition :=
  pool.partitions.get ⟨pool.partitionIndex key, pool.partitionIndex_lt key⟩

/-- Replace the partition of `key` and hand out its frame. -/
def handOut (key : FrameKey) (partition : PoolPartition) : BufferPool :=
  { pool with
    partitions := pool.partitions.set (pool.partitionIndex key) partition
    handles := key :: pool.handles
    nonempty := by simpa using pool.nonempty }

/-- Store a page just read, unless its frame is there by now. -/
def admitFrame (key : FrameKey) (page : Page) (stamp : Nat) : EStateM.Result BufferPoolError BufferPool Page :=
  match (pool.partition key).get key with
  | some frame => .ok frame.page (pool.handOut key ((pool.partition key).touch key stamp))
  | none =>
    match (pool.partition key).makeRoom pool.handles with
    | none => .error .partitionExhausted pool
    | some partition => .ok page (pool.handOut key (partition.insert key ⟨page, stamp⟩))

/-- Count one use; the clock is a `u64`. -/
def tick : BufferPool := { pool with clock := (pool.clock + 1) % 2 ^ 64 }

/-- Return or load one verified page frame. -/
def getOrLoad (store : PageStore) (pageId : PageId) : EStateM BufferPoolError BufferPool Page := fun pool =>
  match (pool.partition (store.generation, pageId)).get (store.generation, pageId) with
  | some frame =>
    .ok frame.page (pool.tick.handOut (store.generation, pageId)
      ((pool.partition (store.generation, pageId)).touch (store.generation, pageId) pool.clock))
  | none =>
    match store.read pageId with
    | .error error => .error (.store error) pool.tick
    | .ok page => pool.tick.admitFrame (store.generation, pageId) page pool.clock

/-- Drop one handle to a frame. -/
def release (key : FrameKey) : BufferPool := { pool with handles := pool.handles.erase key }

/-- Run `body` on a page while holding its frame. -/
def withFrame {ε α : Type} (ofPool : BufferPoolError → ε) (store : PageStore) (pageId : PageId)
    (body : Page → EStateM ε BufferPool α) : EStateM ε BufferPool α := fun pool =>
  match getOrLoad store pageId pool with
  | .error error pool => .error (ofPool error) pool
  | .ok page pool =>
    match body page pool with
    | .ok result pool => .ok result (pool.release (store.generation, pageId))
    | .error error pool => .error error (pool.release (store.generation, pageId))

end BufferPool

/-! ## Coherence and room -/

namespace PoolPartition

variable {partition partition' : PoolPartition} {store : PageStore} {key : FrameKey} {handles : List FrameKey}

/-- Every frame of the store's generation holds the page the store reads. -/
def Coherent (partition : PoolPartition) (store : PageStore) : Prop :=
  ∀ entry ∈ partition.frames, entry.1.1 = store.generation → store.read entry.1.2 = .ok entry.2.page

section

variable (h : partition.Coherent store)
include h

theorem Coherent.get {frame : PageFrame} (hget : partition.get key = some frame) (hkey : key.1 = store.generation) :
    store.read key.2 = .ok frame.page := by
  obtain ⟨entry, hfind, rfl⟩ := map_eq_some_iff.mp hget
  obtain rfl : entry.1 = key := by simpa using find?_some hfind
  exact h entry (mem_of_find?_eq_some hfind) hkey

theorem Coherent.touch (key : FrameKey) (stamp : Nat) : (partition.touch key stamp).Coherent store := by
  intro entry hentry hgeneration
  obtain ⟨old, hold, rfl⟩ := mem_map.mp hentry
  dsimp only
  split <;> exact h old hold hgeneration

theorem Coherent.remove (key : FrameKey) : (partition.remove key).Coherent store :=
  fun entry hentry => h entry (mem_of_mem_filter hentry)

theorem Coherent.insert {page : Page} {stamp : Nat} (hread : store.read key.2 = .ok page) :
    (partition.insert key ⟨page, stamp⟩).Coherent store := by
  intro entry hentry hgeneration
  rcases mem_cons.mp hentry with rfl | hentry
  · exact hread
  · exact h.remove key entry hentry hgeneration

theorem Coherent.makeRoom (hroom : partition.makeRoom handles = some partition') : partition'.Coherent store := by
  unfold PoolPartition.makeRoom at hroom
  split at hroom
  · cases hroom
    exact h
  · obtain ⟨key, -, rfl⟩ := map_eq_some_iff.mp hroom
    exact h.remove key

end

theorem capacity_of_makeRoom (hroom : partition.makeRoom handles = some partition') :
    partition'.capacity = partition.capacity := by
  unfold PoolPartition.makeRoom at hroom
  split at hroom
  · cases hroom
    rfl
  · obtain ⟨key, -, rfl⟩ := map_eq_some_iff.mp hroom
    rfl

/-- No frame can be evicted only when somebody holds every frame of a full partition. -/
theorem capacity_le_of_makeRoom_eq_none (hroom : partition.makeRoom handles = none) :
    partition.capacity ≤ handles.length := by
  unfold PoolPartition.makeRoom at hroom
  split at hroom
  · cases hroom
  · rename_i hfull
    have hheld : ∀ key ∈ partition.frames.map Prod.fst, key ∈ handles := by
      intro key hkey
      obtain ⟨entry, hentry, rfl⟩ := mem_map.mp hkey
      rw [map_eq_none_iff, PoolPartition.victim, map_eq_none_iff, argmin_eq_none, filter_eq_nil_iff] at hroom
      simpa using hroom entry hentry
    have hlength := (partition.nodup.subperm hheld).length_le
    rw [length_map] at hlength
    omega

end PoolPartition

namespace BufferPool

variable {pool pool' : BufferPool} {store : PageStore} {n : Nat}

/-- Every resident frame holds the page the store reads. -/
def Coherent (pool : BufferPool) (store : PageStore) : Prop := ∀ partition ∈ pool.partitions, partition.Coherent store

/-- Every partition has `n` frames more than there are handles. -/
def Room (pool : BufferPool) (n : Nat) : Prop :=
  ∀ partition ∈ pool.partitions, pool.handles.length + n ≤ partition.capacity

def capacities (pool : BufferPool) : List Nat := pool.partitions.map PoolPartition.capacity

theorem room_iff : pool.Room n ↔ ∀ capacity ∈ pool.capacities, pool.handles.length + n ≤ capacity := by
  simp [Room, capacities]

theorem partition_mem (pool : BufferPool) (key : FrameKey) : pool.partition key ∈ pool.partitions :=
  get_mem _ _

theorem Coherent.handOut {partition : PoolPartition} (h : pool.Coherent store) (hpartition : partition.Coherent store)
    (key : FrameKey) : (pool.handOut key partition).Coherent store := by
  intro other hother
  rcases mem_or_eq_of_mem_set hother with hother | rfl
  · exact h other hother
  · exact hpartition

theorem capacities_handOut {partition : PoolPartition} {key : FrameKey}
    (h : partition.capacity = (pool.partition key).capacity) :
    (pool.handOut key partition).capacities = pool.capacities := by
  have hlt : pool.partitionIndex key < (pool.partitions.map PoolPartition.capacity).length := by
    simpa using pool.partitionIndex_lt key
  have hget : (pool.partition key).capacity =
      (pool.partitions.map PoolPartition.capacity)[pool.partitionIndex key] := by
    simp [BufferPool.partition]
  unfold capacities BufferPool.handOut
  rw [map_set, h, hget]
  exact set_getElem_self hlt

/-- A frame handed out holds the stored page; the only failure of the pool is that handles
hold every frame of the partition. -/
theorem getOrLoad_spec {pageId : PageId} {page : Page} (h : pool.Coherent store)
    (hread : store.read pageId = .ok page) :
    (∃ pool', getOrLoad store pageId pool = .ok page pool' ∧ pool'.Coherent store ∧
      pool'.handles = (store.generation, pageId) :: pool.handles ∧ pool'.capacities = pool.capacities) ∨
    (∃ pool', getOrLoad store pageId pool = .error .partitionExhausted pool' ∧ pool'.Coherent store ∧
      pool'.handles = pool.handles ∧ pool'.capacities = pool.capacities ∧ ¬pool.Room 1) := by
  have hpartition := h _ (pool.partition_mem (store.generation, pageId))
  have hticked : pool.tick.Coherent store := h
  unfold getOrLoad
  cases hget : (pool.partition (store.generation, pageId)).get (store.generation, pageId) with
  | some frame =>
    have hframe := hpartition.get hget rfl
    rw [hread, Except.ok.injEq] at hframe
    subst hframe
    left
    refine ⟨_, rfl, ?_, rfl, capacities_handOut rfl⟩
    exact hticked.handOut (hpartition.touch _ _) _
  | none =>
    have htick : pool.tick.partition (store.generation, pageId) = pool.partition (store.generation, pageId) := rfl
    simp only [hread, admitFrame, htick, hget]
    cases hroom : (pool.partition (store.generation, pageId)).makeRoom pool.tick.handles with
    | none =>
      right
      refine ⟨pool.tick, rfl, h, rfl, rfl, fun hroom' => ?_⟩
      have hcapacity := PoolPartition.capacity_le_of_makeRoom_eq_none hroom
      have hmore := hroom' _ (pool.partition_mem (store.generation, pageId))
      have hhandles : pool.tick.handles.length = pool.handles.length := rfl
      omega
    | some partition =>
      left
      have hcapacity := PoolPartition.capacity_of_makeRoom hroom
      rw [← htick] at hcapacity
      exact ⟨_, rfl, hticked.handOut ((hpartition.makeRoom hroom).insert hread) _, rfl, capacities_handOut hcapacity⟩

end BufferPool

end Hyphae
