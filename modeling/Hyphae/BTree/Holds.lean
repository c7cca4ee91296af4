import Hyphae.Lib.OrderedMap
import Hyphae.BTree.NodeCodec
import Hyphae.BTree.Tree

/-!
# What a store holds

`Holds store h t` says that the page `t.page` is the root of a subtree of height `h`
whose leaves hold `t.entries` from left to right and whose pages are `t.pages`, with
every separator the least key of the child on its right. A subtree is `Sound` when
moreover its keys ascend and no page is reached twice; the second follows from the first.
-/

namespace Hyphae.BTree

open Lib List

variable {store : PageStore} {id : PageId} {node : Node}

/-- A subtree: its root page, its entries from left to right, and all its pages. -/
structure Subtree where
  page : PageId
  entries : List KeyValue
  pages : List PageId

variable {t : Subtree}

/-- The least key. -/
def Subtree.minimum (t : Subtree) : Bytes := (t.entries.head?.map Prod.fst).getD []

/-- The greatest key. -/
def Subtree.maximum (t : Subtree) : Bytes := (t.entries.getLast?.map Prod.fst).getD []

def Holds (store : PageStore) : (height : Nat) → Subtree → Prop
  | 0, t => readNode store t.page = .ok (.leaf t.entries) ∧ t.pages = [t.page]
  | height + 1, t => ∃ subs : List Subtree,
    readNode store t.page = .ok (.internal (subs.tail.map Subtree.minimum) (subs.map Subtree.page)) ∧
      (∀ sub ∈ subs, Holds store height sub) ∧
      t.entries = subs.flatMap Subtree.entries ∧ t.pages = t.page :: subs.flatMap Subtree.pages

structure Sound (store : PageStore) (height : Nat) (t : Subtree) : Prop where
  holds : Holds store height t
  ascending : KeyAscending t.entries
  nodup : t.pages.Nodup

/-! ## Reading nodes -/

theorem readPage_eq_ok {page : Page} : readPage store id = .ok page ↔ store.read id = .ok page := by
  unfold readPage
  cases store.read id <;> simp [Except.mapError]

theorem readNode_eq_ok :
    readNode store id = .ok node ↔
      ∃ page, store.read id = .ok page ∧ page.kind = node.pageKind ∧ node.Wf ∧ page.payload = node.bytes := by
  unfold readNode
  simp only [Except.bind_eq_ok, readPage_eq_ok, decodePage_eq_ok]

theorem readNode_wf (h : readNode store id = .ok node) : node.Wf := by
  obtain ⟨_, _, _, hwf, _⟩ := readNode_eq_ok.mp h
  exact hwf

theorem readNode_mono {store' : PageStore} (hext : store.Extends store') (h : readNode store id = .ok node) :
    readNode store' id = .ok node := by
  obtain ⟨page, hread, hrest⟩ := readNode_eq_ok.mp h
  exact readNode_eq_ok.mpr ⟨page, hext.read hread, hrest⟩

/-- A page that reads back is inside the boundary and addressable by a file offset. -/
theorem readNode_bounds (h : readNode store id = .ok node) : id.get ≤ store.pageCount ∧ id.get ≤ 2 ^ 50 := by
  obtain ⟨page, hread, -⟩ := readNode_eq_ok.mp h
  refine ⟨PageStore.id_le_pageCount hread, ?_⟩
  have hoffset := (PageStore.read_eq_ok.mp hread).1
  unfold pageSize at hoffset
  omega

/-! ## Subtrees -/

namespace Holds

variable {store' : PageStore} {h : Nat}

theorem mono (hext : store.Extends store') (ht : Holds store h t) : Holds store' h t := by
  induction h generalizing t with
  | zero => exact ⟨readNode_mono hext ht.1, ht.2⟩
  | succ h ih =>
    obtain ⟨subs, hread, hsubs, hrest⟩ := ht
    exact ⟨subs, readNode_mono hext hread, fun sub hsub => ih (hsubs sub hsub), hrest⟩

theorem two_le_subs {subs : List Subtree} {keys : List Bytes}
    (hread : readNode store t.page = .ok (.internal keys (subs.map Subtree.page))) : 2 ≤ subs.length := by
  obtain ⟨hne, hlen, -⟩ := readNode_wf hread
  have hpos := length_pos_iff.mpr hne
  rw [length_map] at hlen
  omega

theorem entries_ne_nil (ht : Holds store h t) : t.entries ≠ [] := by
  induction h generalizing t with
  | zero => exact (readNode_wf ht.1).1
  | succ h ih =>
    obtain ⟨subs, hread, hsubs, hentries, -⟩ := ht
    have hlen := two_le_subs hread
    cases subs with
    | nil => simp at hlen
    | cons sub subs =>
      rw [hentries, flatMap_cons]
      exact append_ne_nil_of_left_ne_nil (ih (hsubs sub mem_cons_self)) _

theorem page_bounds (ht : Holds store h t) {p : PageId} (hp : p ∈ t.pages) :
    p.get ≤ store.pageCount ∧ p.get ≤ 2 ^ 50 := by
  induction h generalizing t with
  | zero =>
    obtain rfl : p = t.page := by simpa [ht.2] using hp
    exact readNode_bounds ht.1
  | succ h ih =>
    obtain ⟨subs, hread, hsubs, -, hpages⟩ := ht
    rw [hpages] at hp
    rcases mem_cons.mp hp with rfl | hp
    · exact readNode_bounds hread
    · obtain ⟨sub, hsub, hp⟩ := mem_flatMap.mp hp
      exact ih (hsubs sub hsub) hp

/-- A leaf page holds at most 2034 entries. -/
theorem entries_length_le (ht : Holds store h t) : t.entries.length ≤ 2034 * t.pages.length := by
  induction h generalizing t with
  | zero =>
    obtain ⟨-, -, -, hfits⟩ := readNode_wf ht.1
    have hcount := eight_mul_length_le_leafBody t.entries
    simp only [leafHeaderSize, pagePayloadSize] at hfits
    simp only [ht.2, length_singleton]
    omega
  | succ h ih =>
    obtain ⟨subs, -, hsubs, hentries, hpages⟩ := ht
    have hsum : (subs.flatMap Subtree.entries).length ≤ 2034 * (subs.flatMap Subtree.pages).length := by
      rw [length_flatMap, length_flatMap, ← sum_map_mul_left]
      exact sum_le_sum fun sub hsub => ih (hsubs sub hsub)
    rw [hentries, hpages, length_cons]
    omega

/-- A subtree branches at least in two at every level. -/
theorem two_pow_le (ht : Holds store h t) : 2 ^ h ≤ t.pages.length := by
  induction h generalizing t with
  | zero => simp [ht.2]
  | succ h ih =>
    obtain ⟨subs, hread, hsubs, -, hpages⟩ := ht
    have hlen := two_le_subs hread
    have hsum : subs.length * 2 ^ h ≤ (subs.flatMap Subtree.pages).length := by
      have hle := card_nsmul_le_sum _ _ (forall_mem_map.mpr fun sub hsub => ih (hsubs sub hsub))
      rwa [length_map, smul_eq_mul, ← length_flatMap] at hle
    have hmul : 2 * 2 ^ h ≤ subs.length * 2 ^ h := Nat.mul_le_mul_right _ hlen
    rw [hpages, length_cons, pow_succ]
    omega

end Holds

/-! ## Distinct pages -/

attribute [ext] Subtree

section Distinct

variable {h h' : Nat} {t' : Subtree} {subs subs' : List Subtree} {p : PageId}

theorem eq_of_map_page (heq : ∀ sub ∈ subs, ∀ sub' ∈ subs', sub.page = sub'.page → sub = sub')
    (hmap : subs.map Subtree.page = subs'.map Subtree.page) : subs = subs' := by
  induction subs generalizing subs' with
  | nil => exact (map_eq_nil_iff.mp hmap.symm).symm
  | cons sub subs ih =>
    cases subs' with
    | nil => simp at hmap
    | cons sub' subs' =>
      rw [map_cons, map_cons, cons.injEq] at hmap
      rw [heq sub mem_cons_self sub' mem_cons_self hmap.1,
        ih (fun a ha b hb => heq a (mem_cons_of_mem _ ha) b (mem_cons_of_mem _ hb)) hmap.2]

/-- What a store holds below a page is determined by the page. -/
theorem Holds.eq (ht : Holds store h t) (ht' : Holds store h' t') (hpage : t.page = t'.page) : h = h' ∧ t = t' := by
  induction h generalizing h' t t' with
  | zero =>
    obtain ⟨hread, hpages⟩ := ht
    rw [hpage] at hread hpages
    cases h' with
    | zero =>
      have hentries : t.entries = t'.entries := by simpa [ht'.1] using hread.symm
      exact ⟨rfl, Subtree.ext hpage hentries (hpages.trans ht'.2.symm)⟩
    | succ h' =>
      obtain ⟨_, hread', -⟩ := ht'
      simp [hread'] at hread
  | succ h ih =>
    obtain ⟨subs, hread, hsubs, hentries, hpages⟩ := ht
    have hne : subs ≠ [] := length_pos_iff.mp (by have := Holds.two_le_subs hread; omega)
    rw [hpage] at hread hpages
    cases h' with
    | zero => simp [ht'.1] at hread
    | succ h' =>
      obtain ⟨subs', hread', hsubs', hentries', hpages'⟩ := ht'
      rw [hread'] at hread
      injection hread with hread
      injection hread with _ hchildren
      obtain rfl := eq_of_map_page (fun a ha b hb hab => (ih (hsubs a ha) (hsubs' b hb) hab).2) hchildren.symm
      obtain ⟨sub, hsub⟩ := exists_mem_of_ne_nil _ hne
      obtain ⟨rfl, -⟩ := ih (hsubs sub hsub) (hsubs' sub hsub) rfl
      exact ⟨rfl, Subtree.ext hpage (hentries.trans hentries'.symm) (hpages.trans hpages'.symm)⟩

/-- Below every page of a subtree the store holds a part of it. -/
theorem Holds.below (ht : Holds store h t) (hp : p ∈ t.pages) :
    ∃ h' ≤ h, ∃ u, u.page = p ∧ Holds store h' u ∧ u.entries ⊆ t.entries := by
  induction h generalizing t with
  | zero => exact ⟨0, le_rfl, t, by simpa [ht.2, eq_comm] using hp, ht, Subset.refl _⟩
  | succ h ih =>
    obtain ⟨subs, -, hsubs, hentries, hpages⟩ := id ht
    rw [hpages] at hp
    rcases mem_cons.mp hp with rfl | hp
    · exact ⟨h + 1, le_rfl, t, rfl, ht, Subset.refl _⟩
    · obtain ⟨sub, hsub, hp⟩ := mem_flatMap.mp hp
      obtain ⟨h', hle, u, hu, hholds, hsubset⟩ := ih (hsubs sub hsub) hp
      refine ⟨h', by omega, u, hu, hholds, fun e he => ?_⟩
      rw [hentries]
      exact mem_flatMap.mpr ⟨sub, hsub, hsubset he⟩

/-- In a subtree whose keys ascend no page is reached twice. -/
theorem Holds.sound (ht : Holds store h t) (hasc : KeyAscending t.entries) : Sound store h t := by
  refine ⟨ht, hasc, ?_⟩
  induction h generalizing t with
  | zero => simp [ht.2]
  | succ h ih =>
    obtain ⟨subs, -, hsubs, hentries, hpages⟩ := id ht
    rw [hentries, keyAscending_iff_pairwise, pairwise_flatMap] at hasc
    rw [hpages, nodup_cons, nodup_flatMap]
    refine ⟨fun hmem => ?_, fun sub hsub => ?_, ?_⟩
    · -- A page on the path down to itself would be the root of subtrees of two heights.
      obtain ⟨sub, hsub, hp⟩ := mem_flatMap.mp hmem
      obtain ⟨h', hle, u, hu, hholds, -⟩ := (hsubs sub hsub).below hp
      obtain ⟨rfl, -⟩ := hholds.eq ht hu
      omega
    · exact ih (hsubs sub hsub) (keyAscending_iff_pairwise.mpr (hasc.1 sub hsub))
    · -- A page below two children would bring one entry into both.
      refine hasc.2.imp_of_mem fun {a b} ha hb hlt p hpa hpb => ?_
      obtain ⟨_, -, u, hu, hholds, hsubset⟩ := (hsubs a ha).below hpa
      obtain ⟨_, -, u', hu', hholds', hsubset'⟩ := (hsubs b hb).below hpb
      obtain ⟨-, rfl⟩ := hholds.eq hholds' (hu.trans hu'.symm)
      obtain ⟨e, he⟩ := exists_mem_of_ne_nil _ hholds.entries_ne_nil
      exact lt_irrefl _ (hlt e (hsubset he) e (hsubset' he))

end Distinct

/-- Distinct readable pages are at most `2 ^ 50`. -/
theorem Sound.pages_length_le {h : Nat} (ht : Sound store h t) : t.pages.length ≤ 2 ^ 50 := by
  have hinj : (t.pages.map NonZeroUInt.get).Nodup := ht.nodup.map fun a b hab => NonZeroUInt.ext hab
  have hsub : (t.pages.map NonZeroUInt.get).toFinset ⊆ Finset.Icc 1 (2 ^ 50) := by
    intro n hn
    obtain ⟨p, hp, rfl⟩ := mem_map.mp (mem_toFinset.mp hn)
    exact Finset.mem_Icc.mpr ⟨p.pos, (ht.holds.page_bounds hp).2⟩
  have hcard := Finset.card_le_card hsub
  rw [toFinset_card_of_nodup hinj, length_map, Nat.card_Icc] at hcard
  omega

/-- Every sound tree is far below the supported height. -/
theorem Sound.height_le {h : Nat} (ht : Sound store h t) : h ≤ 50 :=
  (Nat.pow_le_pow_iff_right (by norm_num)).mp (ht.holds.two_pow_le.trans ht.pages_length_le)

theorem Sound.height_lt {h : Nat} (ht : Sound store h t) : h < maxTreeHeight := ht.height_le.trans_lt (by decide)

theorem Sound.count_lt {h : Nat} (ht : Sound store h t) : t.entries.length < 2 ^ 64 := by
  have hpages := ht.pages_length_le
  have hentries := ht.holds.entries_length_le
  omega

end Hyphae.BTree
