import Hyphae.BTree.Mutate

/-!
# Whole-tree mutation of one key

A successful mutation returns a tree that represents the map with the key inserted,
and the value it replaces. `insertUnique` fails with `duplicateKey` exactly when the
entry fits a page and its key is present.
-/

namespace Hyphae.BTree

open Lib Except EStateM

variable {csn : Csn} {key value : Bytes} {mode : MutationMode} {tree : BTree} {map : OrderedMap Bytes Bytes}
  {s s' : PageStore} {rewrite : Rewrite} {t : Subtree}

theorem rewriteRoot_moves (csn : Csn) (tree : BTree) (key value : Bytes) (mode : MutationMode) :
    EStateM.Moves PageStore.Extends (rewriteRoot tree csn key value mode) := by
  unfold rewriteRoot
  cases tree.root with
  | none => exact .bind (appendNode_moves _ _) fun _ => .pure _
  | some root => exact rewriteNode_moves _ _ _ _ _ _

theorem growRoot_moves (csn : Csn) (rewrite : Rewrite) : EStateM.Moves PageStore.Extends (growRoot csn rewrite) := by
  cases rewrite with
  | one root => exact .pure _
  | split left separator right => exact appendNode_moves _ _

theorem mutate_moves (csn : Csn) (tree : BTree) (key value : Bytes) (mode : MutationMode) :
    EStateM.Moves PageStore.Extends (tree.mutate csn key value mode) :=
  .bind (.ofExcept _) fun _ => .bind .get fun _ =>
    .bind (rewriteRoot_moves _ _ _ _ _) fun _ => .bind (growRoot_moves _ _) fun _ =>
    .bind .get fun _ => .pure _

/-- What a rewritten root stands for: one subtree, or two to be put under a new internal node. -/
theorem rewriteRoot_eq_ok {previous : Option Bytes} (hmap : Represents s tree map)
    (hok : rewriteRoot tree csn key value mode s = .ok (rewrite, previous) s') (hs' : s'.Addressable) :
    previous = map.get key ∧ ∃ h rs, rewrite.Of rs ∧ (∀ r ∈ rs, Holds s' h r) ∧
      Overlay [(key, value)] map.entries (rs.flatMap Subtree.entries) := by
  unfold rewriteRoot at hok
  obtain ⟨rfl, hempty⟩ | ⟨root, h, pages, rfl, hsound⟩ := hmap.cases
  · simp only [empty, EStateM.bind_eq_ok] at hok
    obtain ⟨id, s₁, happend, hpure⟩ := hok
    cases hpure
    obtain ⟨hholds, -⟩ := leaf_written happend hs'
    refine ⟨by simp [OrderedMap.get, hempty, lookupKey], 0, [⟨id, [(key, value)], [id]⟩],
      ⟨_, rfl, rfl⟩, by simpa using hholds, ?_⟩
    rw [hempty]
    exact .onto_nil (keyAscending_singleton _)
  · obtain ⟨hprevious, rs, hof, hrs, hover⟩ := rewriteNode_eq_ok hsound hok hs'
    exact ⟨hprevious, h, rs, hof, hrs, hover⟩

theorem growRoot_eq_ok {rs : List Subtree} {h : Nat} {root : PageId} (hof : rewrite.Of rs) (hrs : ∀ r ∈ rs, Holds s h r)
    (hmap : map.entries = rs.flatMap Subtree.entries) (hok : growRoot csn rewrite s = .ok root s')
    (hs' : s'.Addressable) : Represents s' (ofRoot root) map := by
  cases rewrite with
  | one page =>
    cases hok
    obtain ⟨r, rfl, rfl⟩ := hof
    rw [List.flatMap_singleton] at hmap
    exact ⟨h, r.pages, Holds.sound (hmap ▸ hrs r (by simp)) map.ascending⟩
  | split left separator right =>
    obtain ⟨a, b, rfl, rfl, rfl, rfl⟩ := hof
    refine ⟨h + 1, (Subtree.over root [a, b]).pages, Holds.sound ?_ map.ascending⟩
    rw [hmap]
    exact group_written [a, b] hok hs' hrs

theorem mutate_eq_ok {result : MutationResult} (hmap : Represents s tree map)
    (hok : tree.mutate csn key value mode s = .ok result s') (hs' : s'.Addressable) :
    Represents s' result.tree (map.insert key value) ∧ result.previous = map.get key := by
  simp only [mutate, EStateM.bind_eq_ok, ofExcept_eq_ok, get_apply, EStateM.Result.ok.injEq, Prod.exists] at hok
  obtain ⟨-, _, ⟨-, rfl⟩, _, _, ⟨rfl, rfl⟩, rewrite, previous, s₁, hrewrite, root, s₂, hroot, _, _, ⟨rfl, rfl⟩,
    hpure⟩ := hok
  cases hpure
  have hext := (growRoot_moves csn rewrite).ok hroot
  obtain ⟨hprevious, h, rs, hof, hrs, hover⟩ := rewriteRoot_eq_ok hmap hrewrite (hext.addressable hs')
  exact ⟨growRoot_eq_ok hof hrs ((map.overlay_insert key value).unique hover) hroot hs', hprevious⟩

/-! ## Duplicate keys -/

/-- Inserting a key that is present fails at its leaf, before any page is appended. -/
theorem rewriteNode_duplicate {h levels : Nat} (ht : Sound s h t) (hlevels : h < levels)
    (hkey : key ∈ t.entries.map Prod.fst) :
    rewriteNode csn key value .insert levels t.page s = .error .duplicateKey s := by
  induction ht, hlevels using Sound.climb with
  | leaf levels t ht =>
    rw [rewriteNode, loadNode_bind ht.holds.1]
    simp [bind_apply, putLeafEntry_eq ht.ascending, hkey, EStateM.ofExcept]
  | node h levels t ht hlt ih =>
    obtain ⟨before, sub, after, hroute⟩ := ht.route key
    have hchild := ih hroute.sound ((hroute.mem_keys_iff ht.ascending).mp hkey)
    rw [rewriteNode, loadNode_bind hroute.read]
    simp only [bind_apply, hroute.index, hroute.getElem?, okOr, EStateM.ofExcept, pure_apply, hchild]

theorem checkU32_ne_duplicate (n : Nat) : checkU32 n ≠ .error .duplicateKey := failIf_ne_error (by simp)

theorem leafEncodedLength_ne_duplicate (entries : List KeyValue) : leafEncodedLength entries ≠ .error .duplicateKey :=
  foldlM_ne_error (fun _ _ => bind_ne_error (checkU32_ne_duplicate _) fun _ =>
    bind_ne_error (checkU32_ne_duplicate _) fun _ => okOr_ne_error (by simp)) _ _

theorem internalEncodedLength_ne_duplicate (keys : List Bytes) : internalEncodedLength keys ≠ .error .duplicateKey :=
  foldlM_ne_error (fun _ _ => bind_ne_error (checkU32_ne_duplicate _) fun _ =>
    okOr_ne_error (by simp)) _ _

theorem chooseSplit_ne_duplicate {candidates : List Nat} {lengths : Nat → TreeM (Nat × Nat)}
    (h : ∀ c, lengths c ≠ .error .duplicateKey) : chooseSplit candidates lengths ≠ .error .duplicateKey :=
  bind_ne_error (foldlM_ne_error (fun _ c => bind_ne_error (h c) fun _ => by simp) _ _)
    fun _ => okOr_ne_error (by simp)

theorem putLength_ne_duplicate (n : Nat) : putLength n ≠ .error .duplicateKey :=
  bind_ne_error (checkU32_ne_duplicate n) fun _ => by simp

theorem encodeLeaf_ne_duplicate (entries : List KeyValue) : encodeLeaf entries ≠ .error .duplicateKey := by
  refine bind_ne_error ?_ fun _ => bind_ne_error (leafEncodedLength_ne_duplicate _) fun _ =>
    bind_ne_error (failIf_ne_error (by simp)) fun _ =>
    bind_ne_error (failIf_ne_error (by simp)) fun _ =>
    bind_ne_error (mapM_ne_error (fun _ => ?_) _) fun _ => by simp
  · refine bind_ne_error (failIf_ne_error (by simp)) fun _ =>
      bind_ne_error (failIf_ne_error (by simp)) fun _ => forM_ne_error (fun _ => ?_) _
    exact bind_ne_error (failIf_ne_error (by simp)) fun _ =>
      bind_ne_error (checkU32_ne_duplicate _) fun _ => checkU32_ne_duplicate _
  · exact bind_ne_error (putLength_ne_duplicate _) fun _ =>
      bind_ne_error (putLength_ne_duplicate _) fun _ => by simp

theorem encodeInternal_ne_duplicate (keys : List Bytes) (children : List PageId) :
    encodeInternal keys children ≠ .error .duplicateKey := by
  refine bind_ne_error ?_ fun _ => bind_ne_error (internalEncodedLength_ne_duplicate _) fun _ =>
    bind_ne_error (failIf_ne_error (by simp)) fun _ =>
    bind_ne_error (failIf_ne_error (by simp)) fun _ =>
    bind_ne_error (okOr_ne_error (by simp)) fun _ =>
    bind_ne_error (mapM_ne_error (fun _ => ?_) _) fun _ => by simp
  · refine bind_ne_error (failIf_ne_error (by simp)) fun _ =>
      bind_ne_error (failIf_ne_error (by simp)) fun _ => forM_ne_error (fun _ => ?_) _
    exact bind_ne_error (failIf_ne_error (by simp)) fun _ => checkU32_ne_duplicate _
  · exact bind_ne_error (putLength_ne_duplicate _) fun _ => by simp

open EStateM (Avoids)

theorem appendNode_avoids (csn : Csn) (node : Node) : Avoids .duplicateKey (appendNode csn node) := by
  refine .bind (.ofExcept ?_) fun payload s s' => ?_
  · cases node with
    | leaf entries => exact encodeLeaf_ne_duplicate entries
    | internal keys children => exact encodeInternal_ne_duplicate keys children
  · unfold adaptExcept
    cases PageStore.append node.pageKind (some csn) none payload s <;> simp

theorem writeLeaf_avoids (csn : Csn) (entries : List KeyValue) : Avoids .duplicateKey (writeLeaf csn entries) := by
  refine .bind (.ofExcept (leafEncodedLength_ne_duplicate _)) fun _ => ?_
  split
  · exact .bind (appendNode_avoids _ _) fun _ => .pure _ _
  · refine .bind (.ofExcept (chooseSplit_ne_duplicate fun _ => ?_)) fun _ =>
      .bind (.ofExcept (okOr_ne_error (by simp))) fun _ =>
      .bind (appendNode_avoids _ _) fun _ => .bind (appendNode_avoids _ _) fun _ => .pure _ _
    exact bind_ne_error (leafEncodedLength_ne_duplicate _) fun _ =>
      bind_ne_error (leafEncodedLength_ne_duplicate _) fun _ => by simp

theorem writeInternal_avoids (csn : Csn) (keys : List Bytes) (children : List PageId) :
    Avoids .duplicateKey (writeInternal csn keys children) := by
  refine .bind (.ofExcept (internalEncodedLength_ne_duplicate _)) fun _ => ?_
  split
  · exact .bind (appendNode_avoids _ _) fun _ => .pure _ _
  · refine .bind (.ofExcept (bind_ne_error (failIf_ne_error (by simp)) fun _ =>
        chooseSplit_ne_duplicate fun _ => ?_)) fun _ =>
      .bind (.ofExcept (okOr_ne_error (by simp))) fun _ =>
      .bind (appendNode_avoids _ _) fun _ => .bind (appendNode_avoids _ _) fun _ => .pure _ _
    exact bind_ne_error (internalEncodedLength_ne_duplicate _) fun _ =>
      bind_ne_error (internalEncodedLength_ne_duplicate _) fun _ => by simp

/-- A reported duplicate is a key that is present, met in insert mode. -/
theorem of_rewriteNode_duplicate {h levels : Nat} (ht : Sound s h t)
    (herr : rewriteNode csn key value mode levels t.page s = .error .duplicateKey s') :
    mode = .insert ∧ key ∈ t.entries.map Prod.fst := by
  induction levels generalizing h t s' with
  | zero => cases herr
  | succ levels ih =>
    cases h with
    | zero =>
      rw [rewriteNode, loadNode_bind ht.holds.1] at herr
      rcases bind_eq_error.mp herr with hput | ⟨put, s₂, -, herr⟩
      · rw [ofExcept_eq_error, putLeafEntry_eq ht.ascending] at hput
        by_cases hdup : mode = .insert ∧ key ∈ t.entries.map Prod.fst
        · exact hdup
        · rw [if_neg hdup] at hput
          cases hput.1
      · exact absurd herr (Avoids.bind (writeLeaf_avoids _ _) (fun _ => .pure _ _) _ _)
    | succ h =>
      obtain ⟨before, sub, after, hroute⟩ := ht.route key
      rw [rewriteNode, loadNode_bind hroute.read] at herr
      simp only [hroute.index, hroute.getElem?] at herr
      rcases bind_eq_error.mp herr with hchild | ⟨child, s₂, hchild, herr⟩
      · simp at hchild
      · obtain ⟨hpage, rfl⟩ := ofExcept_eq_ok.mp hchild
        cases hpage
        rcases bind_eq_error.mp herr with hrewrite | ⟨rewritten, s₃, -, herr⟩
        · obtain ⟨hmode, hkey⟩ := ih hroute.sound hrewrite
          exact ⟨hmode, (hroute.mem_keys_iff ht.ascending).mpr hkey⟩
        · exact absurd herr (Avoids.bind (writeInternal_avoids _ _ _) (fun _ => .pure _ _) _ _)

theorem ensureLeafEntryFits_ne_duplicate (key value : Bytes) : ensureLeafEntryFits key value ≠ .error .duplicateKey :=
  bind_ne_error (failIf_ne_error (by simp)) fun _ =>
    bind_ne_error (leafEncodedLength_ne_duplicate _) fun _ => failIf_ne_error (by simp)

theorem growRoot_avoids (csn : Csn) (rewrite : Rewrite) : Avoids .duplicateKey (growRoot csn rewrite) := by
  cases rewrite with
  | one root => exact .pure _ _
  | split left separator right => exact appendNode_avoids _ _

theorem rewriteRoot_duplicate_iff (csn : Csn) (value : Bytes) (hmap : Represents s tree map) :
    (∃ s', rewriteRoot tree csn key value .insert s = .error .duplicateKey s') ↔ (map.get key).isSome := by
  have hsome : (map.get key).isSome ↔ key ∈ map.entries.map Prod.fst := by
    rw [Option.isSome_iff_ne_none, OrderedMap.get, ne_eq, lookupKey_eq_none, not_not]
  rw [hsome]
  obtain ⟨rfl, hempty⟩ | ⟨root, h, pages, rfl, hsound⟩ := hmap.cases
  · rw [hempty]
    constructor
    · rintro ⟨s', herr⟩
      exact absurd herr (Avoids.bind (appendNode_avoids _ _) (fun _ => .pure _ _) _ _)
    · intro hkey
      cases hkey
  · constructor
    · rintro ⟨s', herr⟩
      exact (of_rewriteNode_duplicate hsound herr).2
    · intro hkey
      exact ⟨s, rewriteNode_duplicate hsound hsound.height_lt hkey⟩

/-- `insertUnique` reports a duplicate exactly when the entry fits and its key is present. -/
theorem insertUnique_duplicate_iff (hmap : Represents s tree map) :
    (∃ s', tree.insertUnique csn key value s = .error .duplicateKey s') ↔
      ensureLeafEntryFits key value = .ok () ∧ (map.get key).isSome := by
  rw [← rewriteRoot_duplicate_iff csn value hmap]
  unfold insertUnique mutate
  cases hfits : ensureLeafEntryFits key value with
  | error e =>
    have hne := hfits ▸ ensureLeafEntryFits_ne_duplicate key value
    simp only [bind_apply, EStateM.ofExcept, throw_apply, EStateM.Result.error.injEq, reduceCtorEq,
      false_and, iff_false]
    rintro ⟨s', rfl, -⟩
    exact hne rfl
  | ok u =>
    simp only [bind_apply, EStateM.ofExcept, pure_apply, get_apply, true_and]
    cases rewriteRoot tree csn key value .insert s with
    | error e s₁ => simp
    | ok x s₁ =>
      refine iff_of_false ?_ (by simp)
      rintro ⟨s', hgrow⟩
      cases hroot : growRoot csn x.1 s₁ with
      | ok root s₂ => simp [hroot] at hgrow
      | error e s₂ =>
        simp only [hroot, EStateM.Result.error.injEq] at hgrow
        obtain ⟨rfl, rfl⟩ := hgrow
        exact growRoot_avoids csn x.1 s₁ s₂ hroot

theorem ensureLeafEntryFits_eq_entryTooLarge (hkey : key.length ≤ maxKeySize) (hvalue : value.length < 2 ^ 32)
    (hsize : pagePayloadSize < leafHeaderSize + entrySize (key, value)) :
    ensureLeafEntryFits key value = .error .entryTooLarge := by
  have hlength : leafEncodedLength [(key, value)] = .ok (leafHeaderSize + leafBody [(key, value)]) := by
    refine leafEncodedLength_eq_ok.mpr ⟨?_, ?_, rfl⟩
    all_goals simp only [List.mem_singleton, forall_eq, leafBody_cons, leafBody_nil, entrySize]
    all_goals unfold maxKeySize at hkey
    · exact ⟨by omega, hvalue⟩
    · unfold leafHeaderSize
      omega
  simp [ensureLeafEntryFits, Except.bind_eq_error, hlength, hkey, hsize]

/-- An entry no leaf can hold is refused before the tree is read. -/
theorem insertUnique_eq_error {e : BTreeError} (hfits : ensureLeafEntryFits key value = .error e) :
    tree.insertUnique csn key value s = .error e s := by
  simp [insertUnique, mutate, bind_apply, EStateM.ofExcept, hfits]

end Hyphae.BTree
