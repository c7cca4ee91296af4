import Hyphae.BTree.Batch
import Hyphae.BTree.MutateTree

/-!
# Whole-tree mutation by an ordered batch

Leaves reached by the batch are divided into as many pages as they need, and the levels
above are rebuilt from references that carry the least key of each child. A successful
batch returns a tree that represents the map with all its entries inserted.
-/

namespace Hyphae.BTree

open Lib List EStateM

variable {entries updates pageEntries : List KeyValue} {csn : Csn} {s t s' : PageStore}
  {references parents : List ChildReference} {subs : List Subtree}
  {rewrite : PageId → List KeyValue → Bytes → Write (List ChildReference)} {levels : Nat} {tree : BTree}
  {map : OrderedMap Bytes Bytes}

/-- The reference a parent keeps to a subtree. -/
def Subtree.reference (t : Subtree) : ChildReference := ⟨t.minimum, t.page⟩

/-! ## Merging updates into a leaf -/

theorem overlay_mergeLeafUpdates (hentries : KeyAscending entries) (hupdates : KeyAscending updates) :
    Overlay updates entries (mergeLeafUpdates entries updates) := by
  induction updates generalizing entries with
  | nil => exact .nil hentries
  | cons update updates ih =>
    obtain ⟨hlt, hupdates⟩ := keyAscending_cons.mp hupdates
    have hbefore : ∀ x ∈ entries.takeWhile (·.1 < update.1), x.1 < update.1 := fun _ => lt_of_mem_takeWhile
    have hrest : ∀ y ∈ entries.dropWhile (·.1 < update.1), update.1 ≤ y.1 := fun _ => le_of_mem_dropWhile hentries
    have hsplit : entries.takeWhile (·.1 < update.1) ++ entries.dropWhile (·.1 < update.1) = entries :=
      takeWhile_append_dropWhile
    unfold mergeLeafUpdates
    simp only
    generalize entries.takeWhile (·.1 < update.1) = before at hbefore hsplit ⊢
    generalize entries.dropWhile (·.1 < update.1) = rest at hrest hsplit ⊢
    subst hsplit
    obtain ⟨hascBefore, hascRest, hsep⟩ := keyAscending_append.mp hentries
    -- The entry with the update's key, if there is one, leads the rest and is dropped.
    generalize hkept : (if rest.head?.map Prod.fst = some update.1 then rest.tail else rest) = kept
    have hkeptMem : ∀ e, e ∈ kept ↔ e ∈ rest ∧ e.1 ≠ update.1 := by
      intro e
      cases rest with
      | nil => simp [← hkept]
      | cons y rest =>
        have habove : ∀ z ∈ rest, z.1 ≠ update.1 := fun z hz =>
          ((hrest y mem_cons_self).trans_lt ((keyAscending_cons.mp hascRest).1 z hz)).ne'
        by_cases hkey : y.1 = update.1
        · simp only [head?_cons, Option.map_some, hkey, if_true, tail_cons] at hkept
          subst hkept
          constructor
          · intro he
            exact ⟨mem_cons_of_mem _ he, habove e he⟩
          · rintro ⟨he, hne⟩
            rcases mem_cons.mp he with rfl | he
            · exact absurd hkey hne
            · exact he
        · simp only [head?_cons, Option.map_some, Option.some.injEq, hkey, if_false] at hkept
          subst hkept
          constructor
          · intro he
            refine ⟨he, ?_⟩
            rcases mem_cons.mp he with rfl | he
            · exact hkey
            · exact habove e he
          · exact fun he => he.1
    have hkeptAsc : KeyAscending kept := by
      refine hascRest.sublist ?_
      rw [← hkept]
      split
      · exact tail_sublist _
      · exact List.Sublist.refl _
    have hkeptAbove : ∀ e ∈ kept, update.1 < e.1 := fun e he =>
      lt_of_le_of_ne (hrest e ((hkeptMem e).mp he).1) (Ne.symm ((hkeptMem e).mp he).2)
    have hright := (ih hkeptAsc hupdates).cons_update hlt hkeptAbove hkeptMem
    refine (Overlay.nil hascBefore).append hright ?_
    intro x hx y hy
    rw [nil_append] at hx
    rcases mem_append.mp hy with hy | hy
    · rcases mem_cons.mp hy with rfl | hy
      · exact hbefore x hx
      · exact (hbefore x hx).trans (hlt y hy)
    · exact hsep x hx y hy

/-! ## Writing levels -/

theorem appendLeafReference_moves (csn : Csn) (entries : List KeyValue) :
    EStateM.Moves PageStore.Extends (appendLeafReference csn entries) :=
  .bind (.ofExcept _) fun _ => .bind (appendNode_moves _ _) fun _ => .pure _

theorem appendLeafReference_eq_ok {reference : ChildReference}
    (hok : appendLeafReference csn entries s = .ok reference t) (ht : t.Addressable) :
    ∃ r : Subtree, reference = r.reference ∧ Holds t 0 r ∧ r.entries = entries ∧ Grown s t [] r.pages := by
  simp only [appendLeafReference, bind_eq_ok, ofExcept_eq_ok, Except.okOr_eq_ok] at hok
  obtain ⟨first, _, ⟨hfirst, rfl⟩, id, _, hid, hpure⟩ := hok
  cases hpure
  obtain ⟨hholds, hgrown⟩ := leaf_written hid ht
  exact ⟨⟨id, entries, [id]⟩, by simp [Subtree.reference, Subtree.minimum, hfirst], hholds, rfl, hgrown⟩

/-- Leaves appended between `s` and `t` that hold the entries from left to right. -/
structure LeavesWritten (s t : PageStore) (entries : List KeyValue) (references : List ChildReference)
    (rs : List Subtree) : Prop where
  references : references = rs.map Subtree.reference
  holds : ∀ r ∈ rs, Holds t 0 r
  entries : rs.flatMap Subtree.entries = entries
  grown : Grown s t [] (rs.flatMap Subtree.pages)

theorem LeavesWritten.cons {u : PageStore} {xs ys : List KeyValue} {rs : List Subtree} {r : Subtree} (hst : s.Extends t)
    (htu : t.Extends u) (hr : Holds t 0 r) (hentries : r.entries = xs) (hgrown : Grown s t [] r.pages)
    (h : LeavesWritten t u ys references rs) : LeavesWritten s u (xs ++ ys) (r.reference :: references) (r :: rs) where
  references := by rw [h.references, map_cons]
  holds := forall_mem_cons.mpr ⟨hr.mono htu, h.holds⟩
  entries := by rw [flatMap_cons, hentries, h.entries]
  grown := hgrown.append hst htu h.grown (by simp) (by simp)

/-- A computation that appends leaves with these entries. -/
structure WritesLeaves (level : Write (List ChildReference)) (entries : List KeyValue) : Prop where
  moves : EStateM.Moves PageStore.Extends level
  ok {s t : PageStore} {references : List ChildReference} (hok : level s = .ok references t) (ht : t.Addressable) :
    ∃ rs, LeavesWritten s t entries references rs

theorem WritesLeaves.bind_ofExcept {α : Type} {x : TreeM α} {level : α → Write (List ChildReference)}
    (h : ∀ a, WritesLeaves (level a) entries) : WritesLeaves (do level (← .ofExcept x)) entries where
  moves := .bind (.ofExcept _) fun a => (h a).moves
  ok hok ht := by
    simp only [bind_eq_ok, ofExcept_eq_ok] at hok
    obtain ⟨a, _, ⟨-, rfl⟩, hok⟩ := hok
    exact (h a).ok hok ht

theorem writesLeaves_nil : WritesLeaves (pure []) [] where
  moves := .pure _
  ok hok _ := by
    cases hok
    exact ⟨[], rfl, by simp, by simp, by simp, by simp⟩

/-- A full leaf is written before the leaves of the entries behind it. -/
theorem WritesLeaves.cons {level : Write (List ChildReference)} (h : WritesLeaves level entries) (csn : Csn)
    (pageEntries : List KeyValue) :
    WritesLeaves (do
      let reference ← appendLeafReference csn pageEntries
      return reference :: (← level)) (pageEntries ++ entries) where
  moves := .bind (appendLeafReference_moves _ _) fun _ => .bind h.moves fun _ => .pure _
  ok hok ht := by
    simp only [bind_eq_ok] at hok
    obtain ⟨reference, s₁, href, rest, _, hrest, hpure⟩ := hok
    cases hpure
    have hext := h.moves.ok hrest
    obtain ⟨rs, hrs⟩ := h.ok hrest ht
    obtain ⟨r, rfl, hholds, hentries, hgrown⟩ := appendLeafReference_eq_ok href (hext.addressable ht)
    exact ⟨r :: rs, hrs.cons ((appendLeafReference_moves _ _).ok href) hext hholds hentries hgrown⟩

theorem singleLeaf_writes (csn : Csn) (entries : List KeyValue) :
    WritesLeaves (do return [← appendLeafReference csn entries]) entries := by
  simpa using writesLeaves_nil.cons csn entries

theorem lastLeaf_writes (csn : Csn) (pageEntries : List KeyValue) :
    WritesLeaves (if pageEntries = [] then pure [] else do return [← appendLeafReference csn pageEntries])
      pageEntries := by
  split
  · rename_i hnil
    exact hnil ▸ writesLeaves_nil
  · exact singleLeaf_writes _ _

theorem fillLeaves_writes (csn : Csn) (entries pageEntries : List KeyValue) (encodedLength : Nat) :
    WritesLeaves (fillLeaves csn entries pageEntries encodedLength) (pageEntries ++ entries) := by
  induction entries generalizing pageEntries encodedLength with
  | nil =>
    rw [append_nil]
    exact lastLeaf_writes _ _
  | cons entry entries ih =>
    refine .bind_ofExcept fun _ => .bind_ofExcept fun _ => ?_
    split
    · exact (ih _ _).cons _ _
    · simpa using ih (pageEntries ++ [entry]) _

theorem fillBalanced_writes (csn : Csn) (capacity leaves target : Nat) (entries : List KeyValue) (written : Nat)
    (pageEntries : List KeyValue) (used : Nat) :
    WritesLeaves (fillBalanced csn capacity leaves target entries written pageEntries used)
      (pageEntries ++ entries) := by
  induction entries generalizing written pageEntries used with
  | nil =>
    rw [append_nil]
    exact lastLeaf_writes _ _
  | cons entry entries ih =>
    refine .bind_ofExcept fun _ => .bind_ofExcept fun _ => ?_
    simp only
    split
    · exact (ih _ _ _).cons _ _
    · simpa using ih _ (pageEntries ++ [entry]) _

theorem appendLeafLevel_writes (csn : Csn) (entries : List KeyValue) :
    WritesLeaves (appendLeafLevel csn entries) entries :=
  .bind_ofExcept fun _ => fillLeaves_writes _ _ _ _

theorem appendLeafLevelBalanced_writes (csn : Csn) (entries : List KeyValue) :
    WritesLeaves (appendLeafLevelBalanced csn entries) entries := by
  refine .bind_ofExcept fun _ => .bind_ofExcept fun _ => .bind_ofExcept fun _ => ?_
  simp only
  split
  · exact singleLeaf_writes _ _
  · exact fillBalanced_writes _ _ _ _ _ _ _ _

/-- Subtrees of height `h` built between `s` and `t` over the pages `old`. -/
structure Built (s t : PageStore) (h : Nat) (old : List PageId) (references : List ChildReference)
    (rs : List Subtree) : Prop where
  references : references = rs.map Subtree.reference
  holds : ∀ r ∈ rs, Holds t h r
  grown : Grown s t old (rs.flatMap Subtree.pages)

theorem appendGroup_moves (csn : Csn) (group : List ChildReference) :
    EStateM.Moves PageStore.Extends (appendGroup csn group) :=
  .bind (.ofExcept _) fun _ => .bind (appendNode_moves _ _) fun _ => .pure _

theorem appendGroup_eq_ok {h : Nat} {parent : ChildReference}
    (hok : appendGroup csn (subs.map Subtree.reference) s = .ok parent t) (ht : t.Addressable)
    (hsubs : ∀ sub ∈ subs, Holds s h sub) (hnodup : (subs.flatMap Subtree.pages).Nodup) :
    ∃ r : Subtree, parent = r.reference ∧ Holds t (h + 1) r ∧ r.entries = subs.flatMap Subtree.entries ∧
      Grown s t (subs.flatMap Subtree.pages) r.pages := by
  simp only [appendGroup, bind_eq_ok, ofExcept_eq_ok, Except.okOr_eq_ok, head?_map,
    Option.map_eq_some_iff, ← map_tail, map_map] at hok
  obtain ⟨_, _, ⟨⟨first, hfirst, rfl⟩, rfl⟩, id, _, hid, hpure⟩ := hok
  cases hpure
  have hholds := group_written _ hid ht hsubs
  obtain ⟨-, hnext, hcount, -⟩ := appendNode_eq_ok hid ht
  have hgrown : Grown s t (subs.flatMap Subtree.pages) (Subtree.over id subs).pages :=
    (Grown.refl hnodup).cons (pages_le hsubs) (.refl s) hnext hcount
  have hmin : (Subtree.over id subs).minimum = first.minimum :=
    minimum_of_subs (fun sub hsub => (hsubs sub hsub).entries_ne_nil) rfl hfirst
  have href : (Subtree.over id subs).reference = ⟨first.minimum, id⟩ := congrArg (ChildReference.mk · id) hmin
  exact ⟨.over id subs, href.symm, hholds, rfl, hgrown⟩

theorem appendGroups_moves (csn : Csn) (sizes : List Nat) (references : List ChildReference) :
    EStateM.Moves PageStore.Extends (appendGroups csn sizes references) := by
  induction sizes generalizing references with
  | nil => exact .bind (.ofExcept _) fun _ => .pure _
  | cons size sizes ih =>
    exact .bind (.ofExcept _) fun _ => .bind (appendGroup_moves _ _) fun _ =>
      .bind (ih _) fun _ => .pure _

theorem appendGroups_eq_ok {sizes : List Nat} {h : Nat}
    (hok : appendGroups csn sizes (subs.map Subtree.reference) s = .ok parents t) (ht : t.Addressable)
    (hsubs : ∀ sub ∈ subs, Holds s h sub) (hnodup : (subs.flatMap Subtree.pages).Nodup) :
    ∃ rs, Built s t (h + 1) (subs.flatMap Subtree.pages) parents rs ∧
      rs.flatMap Subtree.entries = subs.flatMap Subtree.entries := by
  induction sizes generalizing subs s parents with
  | nil =>
    simp only [appendGroups, bind_eq_ok, ofExcept_eq_ok, Except.failIf_eq_ok, not_not, map_eq_nil_iff] at hok
    obtain ⟨-, _, ⟨rfl, rfl⟩, hpure⟩ := hok
    cases hpure
    exact ⟨[], ⟨rfl, by simp, by simp, by simp⟩, rfl⟩
  | cons size sizes ih =>
    simp only [appendGroups, bind_eq_ok, ofExcept_eq_ok, ← map_take, ← map_drop] at hok
    obtain ⟨-, _, ⟨-, rfl⟩, parent, s₁, hparent, rest, _, hrest, hpure⟩ := hok
    cases hpure
    have hext := (appendGroup_moves _ _).ok hparent
    have hextRest := (appendGroups_moves _ _ _).ok hrest
    have hold := pages_le hsubs
    have hpages : (subs.take size).flatMap Subtree.pages ++ (subs.drop size).flatMap Subtree.pages =
        subs.flatMap Subtree.pages := by
      rw [← flatMap_append, take_append_drop]
    rw [← hpages] at hnodup hold
    obtain ⟨hnodupTake, hnodupDrop, -⟩ := nodup_append'.mp hnodup
    obtain ⟨r, rfl, hr, hentries, hgrown⟩ := appendGroup_eq_ok hparent (hextRest.addressable ht)
      (fun sub hsub => hsubs sub (mem_of_mem_take hsub)) hnodupTake
    obtain ⟨rs, hbuilt, hentries'⟩ := ih hrest
      (fun sub hsub => (hsubs sub (mem_of_mem_drop hsub)).mono hext) hnodupDrop
    refine ⟨r :: rs, ⟨by rw [hbuilt.references, map_cons], ?_, ?_⟩, ?_⟩
    · exact forall_mem_cons.mpr ⟨hr.mono hextRest, hbuilt.holds⟩
    · rw [← hpages, flatMap_cons]
      exact hgrown.append hext hextRest hbuilt.grown hnodup hold
    · rw [flatMap_cons, hentries, hentries', ← flatMap_append, take_append_drop]

theorem appendInternalLevel_moves (csn : Csn) (references : List ChildReference) :
    EStateM.Moves PageStore.Extends (appendInternalLevel csn references) :=
  .bind (.ofExcept _) fun _ => appendGroups_moves _ _ _

theorem appendInternalLevel_eq_ok (subs : List Subtree) {h : Nat}
    (hok : appendInternalLevel csn (subs.map Subtree.reference) s = .ok parents t) (ht : t.Addressable)
    (hsubs : ∀ sub ∈ subs, Holds s h sub) (hnodup : (subs.flatMap Subtree.pages).Nodup) :
    ∃ rs, Built s t (h + 1) (subs.flatMap Subtree.pages) parents rs ∧
      rs.flatMap Subtree.entries = subs.flatMap Subtree.entries := by
  simp only [appendInternalLevel, bind_eq_ok, ofExcept_eq_ok] at hok
  obtain ⟨sizes, _, ⟨-, rfl⟩, hok⟩ := hok
  exact appendGroups_eq_ok hok ht hsubs hnodup

/-! ## Rewriting by a batch -/

theorem rewriteChild_moves (hrewrite : ∀ page own minimum, EStateM.Moves PageStore.Extends (rewrite page own minimum))
    (child : PageId) (minimum : Bytes) (own : List KeyValue) :
    EStateM.Moves PageStore.Extends (rewriteChild rewrite child minimum own) := by
  unfold rewriteChild
  split
  · exact .pure _
  · exact hrewrite _ _ _

theorem rewriteChildren_moves
    (hrewrite : ∀ page own minimum, EStateM.Moves PageStore.Extends (rewrite page own minimum)) (children : List PageId)
    (keys : List Bytes) (minimum : Bytes) (updates : List KeyValue) :
    EStateM.Moves PageStore.Extends (rewriteChildren rewrite children keys minimum updates) := by
  induction children generalizing keys minimum updates with
  | nil => exact .pure _
  | cons child children ih => exact .bind (rewriteChild_moves hrewrite _ _ _) fun _ => .bind (ih _ _ _) fun _ => .pure _

theorem rewriteNodeBatch_moves (csn : Csn) (levels : Nat) (page : PageId) (updates : List KeyValue)
    (knownMinimum : Bytes) :
    EStateM.Moves PageStore.Extends (rewriteNodeBatch csn levels page updates knownMinimum) := by
  induction levels generalizing page updates knownMinimum with
  | zero => exact .throw _
  | succ levels ih =>
    refine .bind (loadNode_moves page) fun node => ?_
    cases node with
    | leaf entries => exact (appendLeafLevelBalanced_writes _ _).moves
    | internal keys children =>
      exact .bind (rewriteChildren_moves ih _ _ _ _) fun _ => .bind (.ofExcept _) fun _ =>
        appendInternalLevel_moves _ _

/-- What rewriting the subtree `t` by `updates` has to build. -/
def BatchRewritten (s s' : PageStore) (h : Nat) (old : List PageId) (entries updates : List KeyValue)
    (references : List ChildReference) : Prop :=
  ∃ rs, Built s s' h old references rs ∧ Overlay updates entries (rs.flatMap Subtree.entries)

/-- Updates fall to a child exactly when they are below the next child's least key. -/
theorem splitUpdates_spec (subs : List Subtree) (hupdates : KeyAscending updates) :
    let parts := splitUpdates (subs.map Subtree.minimum).head? updates
    parts.1 ++ parts.2 = updates ∧ KeyAscending parts.1 ∧ KeyAscending parts.2 ∧
      (subs = [] → parts.2 = []) ∧
      ∀ next ∈ subs.head?, (∀ e ∈ parts.1, e.1 < next.minimum) ∧ ∀ e ∈ parts.2, next.minimum ≤ e.1 := by
  cases subs with
  | nil => exact ⟨by simp [splitUpdates], hupdates, keyAscending_nil, fun _ => rfl, by simp⟩
  | cons next subs =>
    refine ⟨takeWhile_append_dropWhile, hupdates.sublist (takeWhile_sublist _),
      hupdates.sublist (dropWhile_sublist _), by simp, ?_⟩
    intro next' hnext
    obtain rfl : next = next' := by simpa using hnext
    exact ⟨fun _ => lt_of_mem_takeWhile, fun _ => le_of_mem_dropWhile hupdates⟩

theorem rewriteChildren_eq_ok {h : Nat}
    (hmoves : ∀ page own minimum, EStateM.Moves PageStore.Extends (rewrite page own minimum))
    (hrewrite : ∀ {sub : Subtree} {own : List KeyValue} {s t : PageStore} {references : List ChildReference},
      Sound s h sub → KeyAscending own → rewrite sub.page own sub.minimum s = .ok references t → t.Addressable →
        BatchRewritten s t h sub.pages sub.entries own references)
    {minimum : Bytes} {left : List KeyValue} (hminimum : ∀ sub ∈ subs.head?, minimum = sub.minimum)
    (hok : rewriteChildren rewrite (subs.map Subtree.page) (subs.tail.map Subtree.minimum) minimum updates s =
      .ok (references, left) t)
    (ht : t.Addressable) (hsubs : ∀ sub ∈ subs, Holds s h sub) (hasc : KeyAscending (subs.flatMap Subtree.entries))
    (hnodup : (subs.flatMap Subtree.pages).Nodup) (hupdates : KeyAscending updates) (hnone : subs = [] → updates = []) :
    BatchRewritten s t h (subs.flatMap Subtree.pages) (subs.flatMap Subtree.entries) updates references := by
  induction subs generalizing minimum updates references s with
  | nil =>
    simp only [map_nil, rewriteChildren, pure_apply, EStateM.Result.ok.injEq, Prod.mk.injEq] at hok
    obtain ⟨⟨rfl, rfl⟩, rfl⟩ := hok
    rw [hnone rfl]
    exact ⟨[], ⟨rfl, by simp, by simp, by simp⟩, .nil keyAscending_nil⟩
  | cons sub subs ih =>
    -- the updates below the next child's least key go to this child, the rest to those behind it
    obtain ⟨hparts, hascOwn, hascLater, hlast, hbounds⟩ := splitUpdates_spec subs hupdates
    simp only [map_cons, tail_cons, rewriteChildren] at hok
    generalize (splitUpdates (subs.map Subtree.minimum).head? updates).1 = own at *
    generalize (splitUpdates (subs.map Subtree.minimum).head? updates).2 = later at *
    simp only [bind_eq_ok, Prod.exists] at hok
    obtain ⟨refs, s₁, hchild, rest, left', _, hrest, hpure⟩ := hok
    cases hpure
    have hext := (rewriteChild_moves hmoves _ _ _).ok hchild
    have hextRest := (rewriteChildren_moves hmoves _ _ _ _).ok hrest
    have hold := pages_le hsubs
    have hsound := sound_subs hsubs hasc sub mem_cons_self
    rw [flatMap_cons] at hasc hnodup hold ⊢
    rw [flatMap_cons]
    obtain ⟨-, hascRest, hsep⟩ := keyAscending_append.mp hasc
    obtain ⟨hnodupSub, hnodupRest, -⟩ := nodup_append'.mp hnodup
    have hmin : minimum = sub.minimum := hminimum sub rfl
    have hfirst : BatchRewritten s s₁ h sub.pages sub.entries own refs := by
      unfold rewriteChild at hchild
      split at hchild
      · -- a child without updates keeps its page
        rename_i hnil
        cases hchild
        subst hnil
        exact ⟨[sub], ⟨by rw [hmin]; rfl, by simpa using hsound.holds, by simpa using Grown.refl hnodupSub⟩,
          by simpa using Overlay.nil hsound.ascending⟩
      · rw [hmin] at hchild
        exact hrewrite hsound hascOwn hchild (hextRest.addressable ht)
    have hnext : ∀ next ∈ subs.head?, ((subs.map Subtree.minimum).head?.getD minimum) = next.minimum := by
      intro next hnext
      rw [head?_map, hnext]
      rfl
    rw [← map_tail] at hrest
    obtain ⟨rs', hbuilt', hover'⟩ := ih hnext hrest (fun x hx => (hsubs x (mem_cons_of_mem _ hx)).mono hext)
      hascRest hnodupRest hascLater hlast
    obtain ⟨rs, hbuilt, hover⟩ := hfirst
    refine ⟨rs ++ rs', ⟨?_, ?_, ?_⟩, ?_⟩
    · rw [hbuilt.references, hbuilt'.references, map_append]
    · intro r hr
      rcases mem_append.mp hr with hr | hr
      · exact (hbuilt.holds r hr).mono hextRest
      · exact hbuilt'.holds r hr
    · rw [flatMap_append]
      exact hbuilt.grown.append hext hextRest hbuilt'.grown hnodup hold
    · rw [flatMap_append, ← hparts]
      refine hover.append hover' fun x hx y hy => ?_
      cases subs with
      | nil => simp [hlast rfl] at hy
      | cons next subs =>
        -- the least key of the next child lies between the two parts
        obtain ⟨hownLt, hlaterGe⟩ := hbounds next rfl
        have hnextNe := (hsubs next (by simp)).entries_ne_nil
        have hrestGe := minimum_le_of_subs hnextNe hascRest
        obtain ⟨e, he, hmin⟩ := exists_minimum hnextNe
        have hxlt : x.1 < next.minimum := by
          rcases mem_append.mp hx with hx | hx
          · exact hownLt x hx
          · exact hmin ▸ hsep x hx e (by simp [he])
        rcases mem_append.mp hy with hy | hy
        · exact hxlt.trans_le (hlaterGe y hy)
        · exact hxlt.trans_le (hrestGe y hy)

theorem rewriteNodeBatch_eq_ok {h : Nat} {t : Subtree} (ht : Sound s h t) (hupdates : KeyAscending updates)
    (hok : rewriteNodeBatch csn levels t.page updates t.minimum s = .ok references s') (hs' : s'.Addressable) :
    BatchRewritten s s' h t.pages t.entries updates references := by
  induction levels generalizing h t updates s s' references with
  | zero => cases hok
  | succ levels ih =>
    cases h with
    | zero =>
      obtain ⟨hread, hpages⟩ := ht.holds
      rw [rewriteNodeBatch, loadNode_bind hread] at hok
      obtain ⟨rs, hwritten⟩ := (appendLeafLevelBalanced_writes _ _).ok hok hs'
      refine ⟨rs, ⟨hwritten.references, hwritten.holds, hwritten.grown.weaken (by simp)⟩, ?_⟩
      rw [hwritten.entries]
      exact overlay_mergeLeafUpdates ht.ascending hupdates
    | succ h =>
      obtain ⟨subs, hread, hsubs, hentries, hpages⟩ := ht.holds
      have hasc := hentries ▸ ht.ascending
      have hnodup := (nodup_cons.mp (hpages ▸ ht.nodup)).2
      rw [rewriteNodeBatch, loadNode_bind hread] at hok
      simp only [bind_eq_ok, Prod.exists, ofExcept_eq_ok] at hok
      obtain ⟨refs, left, s₁, hchildren, -, _, ⟨-, rfl⟩, hlevel⟩ := hok
      have hext := (rewriteChildren_moves (rewriteNodeBatch_moves csn levels) _ _ _ _).ok hchildren
      have hextLevel := (appendInternalLevel_moves _ _).ok hlevel
      have hne : subs = [] → updates = [] := by
        rintro rfl
        exact absurd (Holds.two_le_subs hread) (by simp)
      obtain ⟨rs, hbuilt, hover⟩ := rewriteChildren_eq_ok (rewriteNodeBatch_moves csn levels)
        (fun hsound hown hrewrite hadr => ih hsound hown hrewrite hadr)
        (fun sub hsub => minimum_of_subs (fun x hx => (hsubs x hx).entries_ne_nil) hentries hsub)
        hchildren (hextLevel.addressable hs') hsubs hasc hnodup hupdates hne
      rw [hbuilt.references] at hlevel
      obtain ⟨rs', hbuilt', hentries'⟩ := appendInternalLevel_eq_ok _ hlevel hs' hbuilt.holds hbuilt.grown.nodup
      refine ⟨rs', ⟨hbuilt'.references, hbuilt'.holds, ?_⟩, ?_⟩
      · rw [hpages]
        exact (hbuilt.grown.trans hext hextLevel hbuilt'.grown).weaken (subset_cons_self _ _)
      · rw [hentries, hentries']
        exact hover

/-! ## The root -/

/-- The leftmost leaf of a sound subtree starts with its least key. -/
theorem leftmostKeyFrom_eq_ok {h : Nat} {t : Subtree} {visited : List PageId} (ht : Sound s h t) (hlevels : h < levels)
    (hnew : ∀ p ∈ t.pages, p ∉ visited) : leftmostKeyFrom s levels visited t.page = .ok t.minimum := by
  induction ht, hlevels using Sound.climb generalizing visited with
  | leaf levels t ht =>
    obtain ⟨hread, hpages⟩ := ht.holds
    have hpage : t.page ∉ visited := hnew _ (by simp [hpages])
    have hfirst := head?_eq_some_head ht.holds.entries_ne_nil
    simp [leftmostKeyFrom, Except.failIf, hpage, hread, hfirst, Except.okOr, Subtree.minimum]
  | node h levels t ht hlt ih =>
    obtain ⟨subs, hread, hsound, hne, hentries, -, hpages, hroot, -⟩ := ht.opens
    have hpage : t.page ∉ visited := hnew _ (by simp [hpages])
    have htwo := Holds.two_le_subs hread
    cases subs with
    | nil => simp at htwo
    | cons first rest =>
      have hmin : t.minimum = first.minimum := minimum_of_subs hne hentries rfl
      have hfirst := ih (hsound first mem_cons_self) (new_child hpages hroot hnew mem_cons_self)
      simp [leftmostKeyFrom, Except.failIf, hpage, hread, Except.okOr, hfirst, hmin]

theorem assembleBatchRoot_moves (csn : Csn) (levels : Nat) (references : List ChildReference) :
    EStateM.Moves PageStore.Extends (assembleBatchRoot csn levels references) := by
  induction levels generalizing references with
  | zero => exact .throw _
  | succ levels ih =>
    match references with
    | [] => exact .throw _
    | [root] => exact .pure _
    | first :: second :: rest => exact .bind (appendInternalLevel_moves _ _) fun _ => ih _

theorem assembleBatchRoot_eq_ok {h : Nat} {rs : List Subtree}
    (hok : assembleBatchRoot csn levels (rs.map Subtree.reference) s = .ok tree s') (hs' : s'.Addressable)
    (hrs : ∀ r ∈ rs, Holds s h r) (hnodup : (rs.flatMap Subtree.pages).Nodup)
    (hmap : map.entries = rs.flatMap Subtree.entries) : Represents s' tree map := by
  induction levels generalizing rs h s with
  | zero => cases hok
  | succ levels ih =>
    match rs with
    | [] => cases hok
    | [r] =>
      cases hok
      simp only [flatMap_singleton] at hnodup hmap
      exact ⟨h, r.pages, hmap ▸ hrs r (by simp), map.ascending, hnodup⟩
    | first :: second :: rest =>
      simp only [map_cons, assembleBatchRoot, bind_eq_ok] at hok
      obtain ⟨parents, s₁, hlevel, hok⟩ := hok
      have hext := (assembleBatchRoot_moves _ _ _).ok hok
      obtain ⟨rs', hbuilt, hentries⟩ := appendInternalLevel_eq_ok (first :: second :: rest) hlevel
        (hext.addressable hs') hrs hnodup
      rw [hbuilt.references] at hok
      exact ih hok hbuilt.holds hbuilt.grown.nodup (hmap.trans hentries.symm)

theorem batchReferences_moves (csn : Csn) (tree : BTree) (entries : List KeyValue) :
    EStateM.Moves PageStore.Extends (batchReferences tree csn entries) := by
  unfold batchReferences
  cases tree.root with
  | none => exact (appendLeafLevel_writes _ _).moves
  | some root => exact .bind .get fun _ => .bind (.ofExcept _) fun _ => rewriteNodeBatch_moves _ _ _ _ _

theorem upsertSortedBatch_moves (csn : Csn) (tree : BTree) (entries : List KeyValue) :
    EStateM.Moves PageStore.Extends (tree.upsertSortedBatch csn entries) := by
  unfold upsertSortedBatch
  split
  · exact .pure _
  · exact .bind (.ofExcept _) fun _ => .bind (.ofExcept _) fun _ => .bind .get fun _ =>
      .bind (batchReferences_moves _ _ _) fun _ => .bind (assembleBatchRoot_moves _ _ _) fun _ =>
      .bind .get fun _ => .pure _

theorem batchReferences_eq_ok (hmap : Represents s tree map) (hentries : KeyAscending entries)
    (hok : batchReferences tree csn entries s = .ok references s') (hs' : s'.Addressable) :
    ∃ (h : Nat) (rs : List Subtree), references = rs.map Subtree.reference ∧ (∀ r ∈ rs, Holds s' h r) ∧
      Overlay entries map.entries (rs.flatMap Subtree.entries) ∧ (rs.flatMap Subtree.pages).Nodup := by
  unfold batchReferences at hok
  obtain ⟨rfl, hempty⟩ | ⟨root, h, pages, rfl, hsound⟩ := hmap.cases
  · obtain ⟨rs, hwritten⟩ := (appendLeafLevel_writes _ _).ok hok hs'
    refine ⟨0, rs, hwritten.references, hwritten.holds, ?_, hwritten.grown.nodup⟩
    rw [hempty, hwritten.entries]
    exact .onto_nil hentries
  · have hleft := leftmostKeyFrom_eq_ok hsound hsound.height_lt fun p _ => not_mem_nil
    simp only [ofRoot, bind_eq_ok, get_apply, EStateM.Result.ok.injEq, ofExcept_eq_ok] at hok
    obtain ⟨_, _, ⟨rfl, rfl⟩, minimum, _, ⟨hminimum, rfl⟩, hok⟩ := hok
    rw [leftmostKey, hleft] at hminimum
    cases hminimum
    obtain ⟨rs, hbuilt, hover⟩ := rewriteNodeBatch_eq_ok hsound hentries hok hs'
    exact ⟨h, rs, hbuilt.references, hbuilt.holds, hover, hbuilt.grown.nodup⟩

theorem upsertSortedBatch_eq_ok {result : BatchMutationResult} (hmap : Represents s tree map)
    (hok : tree.upsertSortedBatch csn entries s = .ok result s') (hs' : s'.Addressable) :
    Represents s' result.tree (map.insertAll entries) := by
  unfold upsertSortedBatch at hok
  split at hok
  · rename_i hnil
    cases hok
    subst hnil
    exact hmap
  · simp only [bind_eq_ok, ofExcept_eq_ok, Except.failIf_eq_ok, not_not, get_apply, EStateM.Result.ok.injEq] at hok
    obtain ⟨-, _, ⟨hasc, rfl⟩, -, _, ⟨-, rfl⟩, _, _, ⟨rfl, rfl⟩, references, s₁, hrefs, tree', _, htree,
      _, _, ⟨rfl, rfl⟩, hpure⟩ := hok
    cases hpure
    have hext := (assembleBatchRoot_moves _ _ _).ok htree
    obtain ⟨h, rs, rfl, hrs, hover, hnodup⟩ := batchReferences_eq_ok hmap hasc hrefs (hext.addressable hs')
    exact assembleBatchRoot_eq_ok htree hs' hrs hnodup ((map.overlay_insertAll hasc).unique hover)

end Hyphae.BTree
