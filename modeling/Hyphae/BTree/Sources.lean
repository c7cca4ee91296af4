import Hyphae.BTree.Readers
import Hyphae.BTree.Holds

/-!
# Page sources are faithful

A source is faithful to a store when a program over it agrees with the same program over
the pages the store reads. The direct source agrees exactly. The buffer pool agrees from
every coherent state, except that it may run out of frames when handles hold them all.
-/

namespace Hyphae.BTree

open Lib

variable {α : Type} {store : PageStore} {pool pool' : BufferPool} {n : Nat} {pageId : PageId} {page : Page}

/-- What proofs about a reader need from its source. `Agrees n x y` relates a program over
the source to its outcome when it holds at most `n` frames at a time. -/
structure Faithful {m : Type → Type} [Monad m] [MonadExcept BTreeError m] (source : PageSource m)
    (store : PageStore) where
  Agrees : {α : Type} → Nat → m α → TreeM α → Prop
  ofExcept : ∀ {α : Type} (n : Nat) (y : TreeM α), Agrees n (MonadExcept.ofExcept y) y
  bind : ∀ {α β : Type} {n : Nat} {x : m α} {y : TreeM α} {f : α → m β} {g : α → TreeM β},
    Agrees n x y → (∀ a, y = .ok a → Agrees n (f a) (g a)) → Agrees n (x >>= f) (y >>= g)
  withPage : ∀ {α : Type} {n : Nat} {pageId : PageId} {page : Page} {body : Page → m α} {y : TreeM α},
    store.read pageId = .ok page → Agrees n (body page) y → Agrees (n + 1) (source.withPage pageId body) y

namespace Faithful

variable {m : Type → Type} [Monad m] [MonadExcept BTreeError m]
  {source : PageSource m} (faithful : Faithful source store) {β : Type}

variable {f : α → m β} {y : TreeM β}

theorem pure (n : Nat) (a : α) : faithful.Agrees n (Pure.pure a) (.ok a) := faithful.ofExcept n (.ok a)

theorem bind_error {x : m α} {e : BTreeError} (hx : faithful.Agrees n x (.error e)) :
    faithful.Agrees n (x >>= f) (.error e) :=
  faithful.bind (g := fun _ => .error e) hx (by rintro a ⟨⟩)

theorem bind_ok {x : m α} {a : α} (hx : faithful.Agrees n x (.ok a)) (hrest : faithful.Agrees n (f a) y) :
    faithful.Agrees n (x >>= f) y :=
  faithful.bind (g := fun _ => y) hx (by rintro b ⟨⟩; exact hrest)

/-- A pure step that succeeds. -/
theorem ofExcept_bind {z : TreeM α} {a : α} (hz : z = .ok a) (hrest : faithful.Agrees n (f a) y) :
    faithful.Agrees n (MonadExcept.ofExcept z >>= f) y :=
  faithful.bind_ok (hz ▸ faithful.ofExcept n z) hrest

/-- One page, read for a pure computation. -/
theorem withPage_ofExcept (hread : store.read pageId = .ok page) (f : Page → TreeM α) :
    faithful.Agrees 1 (source.withPage pageId fun page => MonadExcept.ofExcept (f page)) (f page) :=
  faithful.withPage hread (faithful.ofExcept 0 (f page))

end Faithful

/-! ## The store itself -/

theorem ofExcept_except (y : TreeM α) :
    (MonadExcept.ofExcept y : TreeM α) = y := by cases y <;> rfl

def directFaithful (store : PageStore) : Faithful (direct store) store where
  Agrees _ x y := x = y
  ofExcept _ y := ofExcept_except y
  bind := by
    rintro α β n x y f g rfl hrest
    cases x with
    | error e => rfl
    | ok a => exact hrest a rfl
  withPage := by
    rintro α n pageId page body y hread rfl
    simp [direct, readPage_eq_ok.mpr hread]

/-! ## The buffer pool -/

/-- The outcome of a pure computation, ending in `pool`. -/
def resultOf {α : Type} (y : TreeM α) (pool : BufferPool) : EStateM.Result BTreeError BufferPool α :=
  match y with
  | .ok a => .ok a pool
  | .error e => .error e pool

/-- Two states of a pool between which only frames moved. -/
structure SamePool (store : PageStore) (pool pool' : BufferPool) : Prop where
  coherent : pool'.Coherent store
  handles : pool'.handles = pool.handles
  capacities : pool'.capacities = pool.capacities

theorem SamePool.room (h : SamePool store pool pool') : pool'.Room n ↔ pool.Room n := by
  rw [BufferPool.room_iff, BufferPool.room_iff, h.handles, h.capacities]

theorem SamePool.trans {pool₁ pool₂ : BufferPool} (h : SamePool store pool pool₁) (h' : SamePool store pool₁ pool₂) :
    SamePool store pool pool₂ :=
  ⟨h'.coherent, h'.handles.trans h.handles, h'.capacities.trans h.capacities⟩

/-- From every coherent pool the program ends as `y`, or has no frame left to use. -/
def PoolAgrees (store : PageStore) {α : Type} (n : Nat) (x : Cached α) (y : TreeM α) : Prop :=
  ∀ pool, pool.Coherent store → ∃ pool', SamePool store pool pool' ∧
    (x pool = resultOf y pool' ∨ x pool = .error (.bufferPool .partitionExhausted) pool' ∧ ¬pool.Room n)

theorem PoolAgrees.bind {β : Type} {x : Cached α} {y : TreeM α} {f : α → Cached β}
    {g : α → TreeM β} (hx : PoolAgrees store n x y)
    (hrest : ∀ a, y = .ok a → PoolAgrees store n (f a) (g a)) : PoolAgrees store n (x >>= f) (y >>= g) := by
  intro pool hcoherent
  obtain ⟨pool₁, hsame, hrun | ⟨hrun, hroom⟩⟩ := hx pool hcoherent
  · cases y with
    | error e => exact ⟨pool₁, hsame, .inl (by rw [EStateM.bind_apply, hrun]; rfl)⟩
    | ok a =>
      obtain ⟨pool₂, hsame', hrun'⟩ := hrest a rfl pool₁ hsame.coherent
      refine ⟨pool₂, hsame.trans hsame', ?_⟩
      rw [hsame.room] at hrun'
      rw [EStateM.bind_apply, hrun]
      exact hrun'
  · exact ⟨pool₁, hsame, .inr ⟨by rw [EStateM.bind_apply, hrun], hroom⟩⟩

theorem room_of_handOut {key : FrameKey} (hhandles : pool'.handles = key :: pool.handles)
    (hcapacities : pool'.capacities = pool.capacities) (h : pool.Room (n + 1)) : pool'.Room n := by
  rw [BufferPool.room_iff] at h ⊢
  intro capacity hcapacity
  have hroom := h capacity (hcapacities ▸ hcapacity)
  rw [hhandles, List.length_cons]
  omega

theorem PoolAgrees.withFrame {body : Page → Cached α} {y : TreeM α} (hread : store.read pageId = .ok page)
    (hbody : PoolAgrees store n (body page) y) :
    PoolAgrees store (n + 1) (BufferPool.withFrame .bufferPool store pageId body) y := by
  intro pool hcoherent
  unfold BufferPool.withFrame
  rcases BufferPool.getOrLoad_spec hcoherent hread with
    ⟨pool₁, hget, hcoherent₁, hhandles, hcapacities⟩ | ⟨pool₁, hget, hcoherent₁, hhandles, hcapacities, hroom⟩
  · obtain ⟨pool₂, hsame, hrun⟩ := hbody pool₁ hcoherent₁
    refine ⟨pool₂.release (store.generation, pageId), ⟨hsame.coherent, ?_, hsame.capacities.trans hcapacities⟩, ?_⟩
    · simp [BufferPool.release, hsame.handles, hhandles]
    · rw [hget]
      rcases hrun with hrun | ⟨hrun, hroom⟩
      · left
        simp only [hrun]
        cases y <;> rfl
      · right
        simp only [hrun, true_and]
        exact fun h => hroom (room_of_handOut hhandles hcapacities h)
  · refine ⟨pool₁, ⟨hcoherent₁, hhandles, hcapacities⟩, .inr
      ⟨by rw [hget], fun h => hroom fun partition hpartition => ?_⟩⟩
    have := h partition hpartition
    omega

def cachedFaithful (store : PageStore) : Faithful (cached store) store where
  Agrees := PoolAgrees store
  ofExcept n y pool hcoherent := by
    refine ⟨pool, ⟨hcoherent, rfl, rfl⟩, .inl ?_⟩
    cases y <;> rfl
  bind := PoolAgrees.bind
  withPage := PoolAgrees.withFrame

end Hyphae.BTree
