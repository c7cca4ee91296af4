import Hyphae.BTree.Holds

/-!
# Writing nodes

Appending a node extends the store by one page that reads back as the node. Subtrees
built from new and old pages keep their pages distinct because every new page has an
identity above all old ones (`Grown`).
-/

namespace Hyphae

open Lib EStateM List PageStore

/-- Every page of the store has a file offset, so its reads are not refused. -/
def PageStore.Addressable (store : PageStore) : Prop := store.pageCount ≤ 2 ^ 50

theorem PageStore.ReadsSucceed.addressable {store : PageStore} (h : store.ReadsSucceed) : store.Addressable := by
  unfold PageStore.Addressable
  by_contra hlt
  have hpos : 0 < store.pageCount := by omega
  have hbound := store.bounded
  obtain ⟨page, hread⟩ := h ⟨store.pageCount, hpos, by unfold pageCount; omega⟩ le_rfl
  have hoffset := (read_eq_ok.mp hread).1
  unfold pageSize at hoffset
  simp only at hoffset
  omega

theorem PageStore.Extends.addressable {store store' : PageStore} (h : store.Extends store')
    (ha : store'.Addressable) : store.Addressable := h.pageCount_le.trans ha

namespace BTree

/-! ## Writers only extend the store -/

section Moves

open EStateM (Moves)

theorem loadNode_moves (page : PageId) : Moves PageStore.Extends (loadNode page) :=
  .bind .get fun _ => .ofExcept _

theorem appendNode_moves (csn : Csn) (node : Node) : Moves PageStore.Extends (appendNode csn node) := by
  refine .bind (.ofExcept _) fun payload s => ?_
  have happend := append_moves node.pageKind (some csn) none payload s
  unfold adaptExcept
  cases h : append node.pageKind (some csn) none payload s with
  | ok id t | error e t => rwa [h] at happend

end Moves

@[simp] theorem loadNode_eq_ok {page : PageId} {s t : PageStore} {node : Node} :
    loadNode page s = .ok node t ↔ readNode s page = .ok node ∧ s = t := by
  unfold loadNode
  simp only [bind_eq_ok, get_apply, EStateM.Result.ok.injEq, ofExcept_eq_ok]
  constructor
  · rintro ⟨_, _, ⟨rfl, rfl⟩, h⟩
    exact h
  · intro h
    exact ⟨_, _, ⟨rfl, rfl⟩, h⟩

/-- A writer that loads a page goes on with the node it reads. -/
theorem loadNode_bind {α : Type} {page : PageId} {s : PageStore} {node : Node} (h : readNode s page = .ok node)
    (f : Node → Write α) : (loadNode page >>= f) s = f node s := by
  rw [bind_apply, loadNode_eq_ok.mpr ⟨h, rfl⟩]

/-- An appended node takes the next page identity and reads back. -/
theorem appendNode_eq_ok {csn : Csn} {node : Node} {s t : PageStore} {id : PageId}
    (h : appendNode csn node s = .ok id t) (ht : t.Addressable) :
    node.Wf ∧ id.get = s.pageCount + 1 ∧ t.pageCount = s.pageCount + 1 ∧ readNode t id = .ok node := by
  simp only [appendNode, bind_eq_ok, ofExcept_eq_ok, Node.encode_eq_ok] at h
  obtain ⟨payload, s', ⟨⟨hwf, rfl⟩, hs⟩, happend⟩ := h
  rw [← hs] at happend
  unfold adaptExcept at happend
  cases hstore : append node.pageKind (some csn) none node.bytes s with
  | error e t' =>
    rw [hstore] at happend
    cases happend
  | ok id' t' =>
    rw [hstore] at happend
    cases happend
    obtain ⟨rfl, -, page, hkind, hpayload, -, hslots⟩ := append_eq_ok hstore
    have hcount : t.pageCount = s.pageCount + 1 := by
      unfold pageCount
      rw [hslots]
      simp
    refine ⟨hwf, rfl, hcount, readNode_eq_ok.mpr ⟨page, ?_, hkind, hwf, hpayload⟩⟩
    rw [read_eq_ok]
    unfold PageStore.Addressable at ht
    unfold pageCount at hcount ht
    refine ⟨?_, ?_⟩
    · simp only [nextPageId, pageSize]
      omega
    · simp [hslots, nextPageId]

/-! ## Pages of rewritten subtrees -/

/-- The pages of subtrees a store holds are inside its boundary. -/
theorem pages_le {s : PageStore} {h : Nat} {subs : List Subtree} (hsubs : ∀ sub ∈ subs, Holds s h sub) :
    ∀ p ∈ subs.flatMap Subtree.pages, p.get ≤ s.pageCount := by
  intro p hp
  obtain ⟨sub, hsub, hp⟩ := mem_flatMap.mp hp
  exact ((hsubs sub hsub).page_bounds hp).1

/-- The pages `new` are distinct, each kept from `old` or appended between `s` and `t`. -/
structure Grown (s t : PageStore) (old new : List PageId) : Prop where
  nodup : new.Nodup
  origin : ∀ p ∈ new, p ∈ old ∨ s.pageCount < p.get ∧ p.get ≤ t.pageCount

namespace Grown

variable {s t u : PageStore} {a b c d : List PageId}

theorem refl (h : a.Nodup) : Grown s s a a := ⟨h, fun _ hp => .inl hp⟩

theorem trans (hst : s.Extends t) (htu : t.Extends u) (h : Grown s t a b) (h' : Grown t u b c) : Grown s u a c := by
  have hle := hst.pageCount_le
  have hle' := htu.pageCount_le
  refine ⟨h'.nodup, fun p hp => ?_⟩
  rcases h'.origin p hp with hp | ⟨hlow, hhigh⟩
  · rcases h.origin p hp with hp | ⟨hlow, hhigh⟩
    · exact .inl hp
    · exact .inr ⟨hlow, by omega⟩
  · exact .inr ⟨by omega, hhigh⟩

theorem weaken (h : Grown s t a b) (hsub : a ⊆ c) : Grown s t c b :=
  ⟨h.nodup, fun p hp => (h.origin p hp).imp_left (hsub ·)⟩

/-- Two groups of old pages rewritten one after the other stay apart. -/
theorem append (hst : s.Extends t) (htu : t.Extends u) (h : Grown s t a b) (h' : Grown t u c d)
    (hnodup : (a ++ c).Nodup) (hold : ∀ p ∈ a ++ c, p.get ≤ s.pageCount) : Grown s u (a ++ c) (b ++ d) := by
  have hle := hst.pageCount_le
  have hle' := htu.pageCount_le
  rw [nodup_append'] at hnodup
  simp only [mem_append] at hold
  refine ⟨nodup_append'.mpr ⟨h.nodup, h'.nodup, fun p hp hp' => ?_⟩, fun p hp => ?_⟩
  · rcases h.origin p hp with hpa | hpa
    · rcases h'.origin p hp' with hpc | hpc
      · exact hnodup.2.2 hpa hpc
      · have := hold p (.inl hpa)
        omega
    · rcases h'.origin p hp' with hpc | hpc
      · have := hold p (.inr hpc)
        omega
      · omega
  · rcases mem_append.mp hp with hp | hp
    · rcases h.origin p hp with hp | hp
      · exact .inl (mem_append_left _ hp)
      · exact .inr ⟨hp.1, by omega⟩
    · rcases h'.origin p hp with hp | hp
      · exact .inl (mem_append_right _ hp)
      · exact .inr ⟨by omega, hp.2⟩

/-- Put a page appended last in front. -/
theorem cons {id : PageId} (h : Grown s t a b) (hold : ∀ p ∈ a, p.get ≤ s.pageCount) (hst : s.Extends t)
    (hid : id.get = t.pageCount + 1) (hu : u.pageCount = t.pageCount + 1) : Grown s u a (id :: b) := by
  have hle := hst.pageCount_le
  refine ⟨nodup_cons.mpr ⟨fun hmem => ?_, h.nodup⟩, fun p hp => ?_⟩
  · rcases h.origin id hmem with hp | hp
    · have := hold id hp
      omega
    · omega
  · rcases mem_cons.mp hp with rfl | hp
    · exact .inr (by omega)
    · rcases h.origin p hp with hp | hp
      · exact .inl hp
      · exact .inr ⟨hp.1, by omega⟩

end Grown

end BTree

end Hyphae
