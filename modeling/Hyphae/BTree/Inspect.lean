import Hyphae.BTree.Validate

/-!
# The planner's walk over a tree

Before it replaces prefixes, the planner walks the whole tree. Unlike `validate` it keeps
no set of visited pages, only the path above the current one, the depth of the leaves and
the greatest key so far. It still accepts exactly the trees that `validate` accepts: a page
reached twice brings the same entries twice, and the order of the keys excludes that.
-/

namespace Hyphae.BTree

open Lib List Except

variable {ancestry : List PageId} {entries : List KeyValue} {minimum : Bytes} {levels : Nat}

/-! ## The walk -/

structure TreeStructuralStats where
  leafCount : Nat := 0
  reachablePageCount : Nat := 0
  maximumStackDepth : Nat := 0
  leafBoundaryKeyBytes : Nat := 0
  maximumKeyLength : Nat := 0

/-- Addition of two 64-bit numbers that stops at the greatest one. -/
def saturatingAdd (a b : Nat) : Nat := min (a + b) (2 ^ 64 - 1)

/-- What the walk carries from one page to the next. -/
structure Inspection where
  leafDepth : Option Nat := none
  previousMaximum : Option Bytes := none
  stats : TreeStructuralStats := {}

/-- A page is reached; `ancestry` is the path down to it. -/
def Inspection.enter (i : Inspection) (ancestry : List PageId) : Inspection :=
  { i with stats := { i.stats with
      reachablePageCount := saturatingAdd i.stats.reachablePageCount 1
      maximumStackDepth := max i.stats.maximumStackDepth ancestry.length } }

def walkLeaf (entries : List KeyValue) (expectedMinimum : Option Bytes) (depth : Nat) (i : Inspection) :
    TreeM (Bytes × Inspection) := do
  .failIf (∃ known ∈ i.leafDepth, known ≠ depth) .unbalanced
  let (minimum, _) ← .okOr entries.head? .invalidCount
  let (maximum, _) ← .okOr entries.getLast? .invalidCount
  .failIf (∃ expected ∈ expectedMinimum, minimum ≠ expected) .invalidSeparator
  .failIf (∃ previous ∈ i.previousMaximum, minimum ≤ previous) .noncanonicalKeyOrder
  return (minimum,
    { leafDepth := some depth
      previousMaximum := some maximum
      stats := { i.stats with
        leafCount := saturatingAdd i.stats.leafCount 1
        leafBoundaryKeyBytes :=
          saturatingAdd (saturatingAdd i.stats.leafBoundaryKeyBytes minimum.length) maximum.length
        maximumKeyLength := max (max i.stats.maximumKeyLength minimum.length) maximum.length } })

/-- Walk the children in order: the first is expected to start where the node does, each
other one at the separator on its left. -/
def walkReferences (walk : PageId → Option Bytes → Inspection → TreeM (Bytes × Inspection)) :
    List PageId → (expectedMinimum : Option Bytes) → (keys : List Bytes) → Inspection →
    TreeM (List Bytes × Inspection)
  | [], _, _, i => return ([], i)
  | child :: children, expectedMinimum, keys, i => do
    let (minimum, i) ← walk child expectedMinimum i
    let (minimums, i) ← walkReferences walk children keys.head? keys.tail i
    return (minimum :: minimums, i)

/-- The least key below a page. The path is an argument here: the source pushes the page on
the way down and pops it on the way up. -/
def walkLeafReferencesNode (store : PageStore) : (levels : Nat) → (depth : Nat) → (ancestry : List PageId) →
    PageId → (expectedMinimum : Option Bytes) → Inspection → TreeM (Bytes × Inspection)
  | 0, _, _, _, _, _ => .error .heightExceeded
  | levels + 1, depth, ancestry, page, expectedMinimum, i => do
    .failIf (page ∈ ancestry) .cycle
    let ancestry := page :: ancestry
    let i := i.enter ancestry
    match ← readNode store page with
    | .leaf entries => walkLeaf entries expectedMinimum depth i
    | .internal keys children =>
      let (minimums, i) ← walkReferences (walkLeafReferencesNode store levels (depth + 1) ancestry) children
        expectedMinimum keys i
      let minimum ← .okOr minimums.head? .invalidCount
      .failIf (∃ expected ∈ expectedMinimum, minimum ≠ expected) .invalidSeparator
      return (minimum, i)

/-- The walk under a control that never cancels it. -/
def inspectTreeStructure (tree : BTree) (store : PageStore) : TreeM TreeStructuralStats :=
  match tree.root with
  | none => return {}
  | some root => do
    let (_, i) ← walkLeafReferencesNode store maxTreeHeight 0 [] root none {}
    return i.stats

/-- The pages that validating the tree visits. -/
def validatedPages (tree : BTree) (store : PageStore) : TreeM (Finset PageId) :=
  match tree.root with
  | none => return ∅
  | some root => do
    let (_, visited) ← validateNode store none maxTreeHeight root ∅
    return visited

def isLeaf (store : PageStore) (page : PageId) : Bool :=
  match readNode store page with
  | .ok (.leaf _) => true
  | _ => false

variable {store : PageStore} {h h' depth : Nat} {t t' : Subtree} {subs subs' : List Subtree}
  {expected : Option Bytes} {i i₁ i' : Inspection} {p page : PageId}

/-! ## What a completed walk has found -/

theorem saturatingAdd_assoc (a b c : Nat) : saturatingAdd (saturatingAdd a b) c = saturatingAdd a (b + c) := by
  unfold saturatingAdd
  omega

/-- A subtree of height `h` at a depth is what the walk expects next. -/
structure Expects (expected : Option Bytes) (depth : Nat) (i : Inspection) (h : Nat) (t : Subtree) : Prop where
  minimum : ∀ key ∈ expected, t.minimum = key
  above : ∀ previous ∈ i.previousMaximum, previous < t.minimum
  level : ∀ known ∈ i.leafDepth, known = depth + h

/-- The walk has passed a subtree. -/
structure Passed (store : PageStore) (expected : Option Bytes) (depth : Nat) (i i' : Inspection) (h : Nat)
    (t : Subtree) : Prop extends Expects expected depth i h t where
  ascending : KeyAscending t.entries
  maximum : i'.previousMaximum = some t.maximum
  leafDepth : i'.leafDepth = some (depth + h)
  pages : i'.stats.reachablePageCount = saturatingAdd i.stats.reachablePageCount t.pages.length
  leaves : i'.stats.leafCount = saturatingAdd i.stats.leafCount (t.pages.countP (isLeaf store))

theorem isLeaf_leaf (hread : readNode store page = .ok (.leaf entries)) : isLeaf store page = true := by
  simp [isLeaf, hread]

/-- A leaf passes exactly when it is expected. -/
theorem walkLeaf_succeeds (hne : t.entries ≠ []) (hexpects : Expects expected depth i 0 t) :
    ∃ i', walkLeaf t.entries expected depth i = .ok (t.minimum, i') := by
  have hfirst := head?_eq_some_head hne
  have hlast := getLast?_eq_some_getLast hne
  have hmin : t.minimum = (t.entries.head hne).1 := by simp [Subtree.minimum, hfirst]
  obtain ⟨hminimum, habove, hlevel⟩ := hexpects
  simp only [hmin] at hminimum habove ⊢
  simp only [walkLeaf, bind_eq_ok, failIf_eq_ok, okOr_eq_ok, pure_eq_ok]
  refine ⟨_, (), ?_, _, hfirst, _, hlast, (), ?_, (), ?_, rfl⟩
  · exact fun ⟨known, hknown, hne⟩ => hne (hlevel known hknown)
  · exact fun ⟨key, hkey, hne⟩ => hne (hminimum key hkey)
  · exact fun ⟨previous, hprevious, hle⟩ => hle.not_gt (habove previous hprevious)

theorem of_walkLeaf (hread : readNode store page = .ok (.leaf entries))
    (hok : walkLeaf entries expected depth (i.enter ancestry) = .ok (minimum, i')) :
    minimum = Subtree.minimum ⟨page, entries, [page]⟩ ∧ Passed store expected depth i i' 0 ⟨page, entries, [page]⟩ := by
  simp only [walkLeaf, bind_eq_ok, failIf_eq_ok, okOr_eq_ok, pure_eq_ok, ok.injEq, Prod.mk.injEq] at hok
  obtain ⟨-, hlevel, first, hfirst, last, hlast, -, hminimum, -, habove, rfl, rfl⟩ := hok
  have hmin : Subtree.minimum ⟨page, entries, [page]⟩ = first.1 := by simp [Subtree.minimum, hfirst]
  refine ⟨hmin.symm, ⟨?_, ?_, ?_⟩, (readNode_wf hread).2.1, ?_, rfl, rfl, ?_⟩
  · exact fun key hkey => by_contra fun hne => hminimum ⟨key, hkey, hmin ▸ hne⟩
  · exact fun previous hprevious => not_le.mp fun hle => habove ⟨previous, hprevious, hmin ▸ hle⟩
  · exact fun known hknown => by_contra fun hne => hlevel ⟨known, hknown, hne⟩
  · simp [Subtree.maximum, hlast]
  · simp [isLeaf_leaf hread, Inspection.enter]

/-- Two neighbours at one depth pass as one. -/
theorem Passed.append {expected' : Option Bytes} (ha : Passed store expected depth i i₁ h t)
    (hb : Passed store expected' depth i₁ i' h' t') (hne : t.entries ≠ []) (hne' : t'.entries ≠ []) :
    h = h' ∧ Passed store expected depth i i' h ⟨page, t.entries ++ t'.entries, t.pages ++ t'.pages⟩ := by
  have hheight : depth + h = depth + h' := hb.level _ ha.leafDepth
  obtain rfl : h = h' := by omega
  have hmin : Subtree.minimum ⟨page, t.entries ++ t'.entries, t.pages ++ t'.pages⟩ = t.minimum := by
    simp only [Subtree.minimum, head?_append_of_ne_nil _ hne]
  have hmax : Subtree.maximum ⟨page, t.entries ++ t'.entries, t.pages ++ t'.pages⟩ = t'.maximum := by
    simp only [Subtree.maximum, getLast?_append_of_ne_nil _ hne']
  have hasc : KeyAscending ([t, t'].flatMap Subtree.entries) := (keyAscending_flatMap (by simp [hne, hne'])).mpr
    ⟨by simp [ha.ascending, hb.ascending], by simpa using hb.above _ ha.maximum⟩
  refine ⟨rfl, ⟨?_, ?_, ha.level⟩, by simpa using hasc, ?_, hb.leafDepth, ?_, ?_⟩
  · rw [hmin]
    exact ha.minimum
  · rw [hmin]
    exact ha.above
  · rw [hmax, hb.maximum]
  · rw [hb.pages, ha.pages, saturatingAdd_assoc, length_append]
  · rw [hb.leaves, ha.leaves, saturatingAdd_assoc, countP_append]

/-- A node passes as its children do. -/
theorem Passed.node (hleaf : isLeaf store page = false)
    (hpassed : Passed store expected (depth + 1) (i.enter ancestry) i' h t) :
    Passed store expected depth i i' (h + 1) ⟨page, t.entries, page :: t.pages⟩ := by
  obtain ⟨⟨hminimum, habove, hlevel⟩, hasc, hmaximum, hdepth, hpages, hleaves⟩ := hpassed
  have hdepths : depth + 1 + h = depth + (h + 1) := by omega
  rw [hdepths] at hlevel hdepth
  refine ⟨⟨hminimum, habove, hlevel⟩, hasc, hmaximum, hdepth, ?_, ?_⟩
  · rw [hpages, Inspection.enter, saturatingAdd_assoc, length_cons, Nat.add_comm]
  · rw [hleaves, countP_cons_of_neg (by simp [hleaf])]
    rfl

section References

variable {walk : PageId → Option Bytes → Inspection → TreeM (Bytes × Inspection)}

/-- The children of a completed walk have one height, are in order and have the separators between them. -/
theorem of_walkReferences (hwalk : ∀ {child expected i minimum i'}, walk child expected i = .ok (minimum, i') →
      ∃ h t, t.page = child ∧ minimum = t.minimum ∧ Holds store h t ∧ Passed store expected depth i i' h t)
    {child : PageId} {children : List PageId} {keys minimums : List Bytes} (hlen : keys.length = children.length)
    (hok : walkReferences walk (child :: children) expected keys i = .ok (minimums, i')) :
    ∃ (h : Nat) (subs : List Subtree), subs.map Subtree.page = child :: children ∧
      subs.tail.map Subtree.minimum = keys ∧ subs.map Subtree.minimum = minimums ∧ (∀ sub ∈ subs, Holds store h sub) ∧
      Passed store expected depth i i' h ⟨child, subs.flatMap Subtree.entries, subs.flatMap Subtree.pages⟩ := by
  induction children generalizing child expected keys i minimums with
  | nil =>
    simp only [walkReferences, bind_eq_ok, Prod.exists, pure_eq_ok, ok.injEq, Prod.mk.injEq] at hok
    obtain ⟨minimum, i, hchild, _, _, ⟨rfl, rfl⟩, rfl, rfl⟩ := hok
    obtain ⟨h, t, rfl, rfl, hholds, hpassed⟩ := hwalk hchild
    refine ⟨h, [t], rfl, (length_eq_zero_iff.mp hlen).symm, rfl, by simpa using hholds, ?_⟩
    simpa only [flatMap_singleton] using hpassed
  | cons next children ih =>
    rw [walkReferences] at hok
    simp only [bind_eq_ok, Prod.exists, pure_eq_ok, ok.injEq, Prod.mk.injEq] at hok
    obtain ⟨minimum, i₁, hchild, rest, _, hrest, rfl, rfl⟩ := hok
    obtain ⟨h, t, rfl, rfl, hholds, hpassed⟩ := hwalk hchild
    obtain ⟨key, keys, rfl⟩ := exists_cons_of_length_eq_add_one hlen
    obtain ⟨h', subs, hpages, rfl, rfl, hsubs, hpasseds⟩ := ih (by simpa using hlen) hrest
    obtain ⟨first, more, rfl, -, -⟩ := map_eq_cons_iff.mp hpages
    have hne : ∀ sub ∈ first :: more, sub.entries ≠ [] := fun s hs => (hsubs s hs).entries_ne_nil
    obtain ⟨rfl, happend⟩ := hpassed.append hpasseds hholds.entries_ne_nil
      (by simpa using fun h => absurd h (hne first mem_cons_self))
    have hkey : first.minimum = key := (minimum_of_subs hne rfl rfl).symm.trans (hpasseds.minimum key rfl)
    refine ⟨h, t :: first :: more, by rw [map_cons, hpages], by simp [hkey], rfl, ?_, happend⟩
    exact forall_mem_cons.mpr ⟨hholds, hsubs⟩

/-- Children in order are walked to the end if each of them is, whenever it is expected. -/
theorem walkReferences_succeeds (hwalk : ∀ sub ∈ subs, ∀ {expected i}, Expects expected depth i h sub →
      ∃ i', walk sub.page expected i = .ok (sub.minimum, i') ∧ Passed store expected depth i i' h sub)
    (hchain : subs.IsChain fun left right => left.maximum < right.minimum)
    (hfirst : ∀ first ∈ subs.head?, Expects expected depth i h first) :
    ∃ i', walkReferences walk (subs.map Subtree.page) expected (subs.tail.map Subtree.minimum) i =
      .ok (subs.map Subtree.minimum, i') := by
  induction subs generalizing expected i with
  | nil => exact ⟨i, rfl⟩
  | cons sub subs ih =>
    obtain ⟨i₁, hok, hpassed⟩ := hwalk sub mem_cons_self (hfirst sub rfl)
    have hnext : ∀ next ∈ subs.head?, Expects (subs.map Subtree.minimum).head? depth i₁ h next := by
      cases subs with
      | nil => simp
      | cons next more =>
        rintro _ ⟨⟩
        refine ⟨by simp, ?_, by simp [hpassed.leafDepth]⟩
        simpa [hpassed.maximum] using (isChain_cons_cons.mp hchain).1
    obtain ⟨i', hrest⟩ := ih (fun s hs => hwalk s (mem_cons_of_mem _ hs)) hchain.of_cons hnext
    refine ⟨i', ?_⟩
    simp only [map_cons, walkReferences, hok, ok_bind, tail_cons, ← map_tail, hrest, pure_eq_ok]

end References

/-- A completed walk has passed a subtree that the store holds. -/
theorem of_walkNode (hok : walkLeafReferencesNode store levels depth ancestry page expected i = .ok (minimum, i')) :
    ∃ h t, t.page = page ∧ minimum = t.minimum ∧ Holds store h t ∧ Passed store expected depth i i' h t := by
  induction levels generalizing depth ancestry page expected i minimum i' with
  | zero => cases hok
  | succ levels ih =>
    simp only [walkLeafReferencesNode, bind_eq_ok] at hok
    obtain ⟨-, -, node, hread, hnode⟩ := hok
    cases node with
    | leaf entries =>
      obtain ⟨hminimum, hpassed⟩ := of_walkLeaf hread hnode
      exact ⟨0, _, rfl, hminimum, ⟨hread, rfl⟩, hpassed⟩
    | internal keys children =>
      simp only [bind_eq_ok, Prod.exists, okOr_eq_ok, pure_eq_ok, ok.injEq, Prod.mk.injEq] at hnode
      obtain ⟨minimums, _, hrefs, _, hhead, -, -, rfl, rfl⟩ := hnode
      obtain ⟨-, hlen, -⟩ := readNode_wf hread
      obtain ⟨child, children, rfl⟩ := exists_cons_of_length_eq_add_one hlen
      obtain ⟨h, subs, hpages, rfl, rfl, hsubs, hpassed⟩ := of_walkReferences ih (by simpa using hlen.symm) hrefs
      rw [head?_map, Option.map_eq_some_iff] at hhead
      obtain ⟨first, hfirst, rfl⟩ := hhead
      have hne : ∀ sub ∈ subs, sub.entries ≠ [] := fun s hs => (hsubs s hs).entries_ne_nil
      refine ⟨h + 1, _, rfl, (minimum_of_subs hne rfl hfirst).symm, ⟨subs, ?_, hsubs, rfl, rfl⟩, hpassed.node ?_⟩
      · rw [hread, hpages]
      · simp [isLeaf, hread]

theorem Expects.enter (hexpects : Expects expected depth i h t) (ancestry : List PageId) :
    Expects expected depth (i.enter ancestry) h t := { hexpects with }

/-- The walk gets through a sound subtree that it expects. -/
theorem walkNode_succeeds (ht : Sound store h t) (hlevels : h < levels) (hnew : ∀ p ∈ t.pages, p ∉ ancestry)
    (hexpects : Expects expected depth i h t) :
    ∃ i', walkLeafReferencesNode store levels depth ancestry t.page expected i = .ok (t.minimum, i') := by
  induction ht, hlevels using Sound.climb generalizing depth ancestry expected i with
  | leaf levels t ht =>
    obtain ⟨hread, hpages⟩ := ht.holds
    have hpage : t.page ∉ ancestry := hnew _ (by simp [hpages])
    obtain ⟨i', hok⟩ := walkLeaf_succeeds ht.holds.entries_ne_nil (hexpects.enter (t.page :: ancestry))
    exact ⟨i', by simp only [walkLeafReferencesNode, failIf, hpage, if_false, ok_bind, hread, hok]⟩
  | node h levels t ht hlt ih =>
    obtain ⟨subs, hread, hsound, hne, hentries, hasc, hpages, hroot, -⟩ := ht.opens
    have hpage : t.page ∉ ancestry := hnew _ (by simp [hpages])
    have hwalk : ∀ sub ∈ subs, ∀ {expected i}, Expects expected (depth + 1) i h sub → ∃ i',
        walkLeafReferencesNode store levels (depth + 1) (t.page :: ancestry) sub.page expected i =
          .ok (sub.minimum, i') ∧ Passed store expected (depth + 1) i i' h sub := by
      intro sub hsub expected i hsubExpects
      obtain ⟨i', hok⟩ := ih (hsound sub hsub) (new_child hpages hroot hnew hsub) hsubExpects
      -- The subtree that the walk has passed is the one the store holds below the page.
      obtain ⟨_, _, hsame, -, hholds, hpassed⟩ := of_walkNode hok
      obtain ⟨rfl, rfl⟩ := hholds.eq (hsound sub hsub).holds hsame
      exact ⟨i', hok, hpassed⟩
    have hminimum : ∀ first ∈ subs.head?, t.minimum = first.minimum := fun _ => minimum_of_subs hne hentries
    have hfirst : ∀ first ∈ subs.head?, Expects expected (depth + 1) (i.enter (t.page :: ancestry)) h first := by
      intro first hfirst
      obtain ⟨hmin, habove, hlevel⟩ := hexpects
      rw [hminimum first hfirst] at hmin habove
      exact ⟨hmin, habove, fun known hknown => by rw [hlevel known hknown]; omega⟩
    obtain ⟨i', hrefs⟩ := walkReferences_succeeds hwalk ((keyAscending_flatMap hne).mp hasc).2 hfirst
    obtain ⟨first, more, rfl⟩ : ∃ first more, subs = first :: more :=
      exists_cons_of_ne_nil (length_pos_iff.mp (by have := Holds.two_le_subs hread; omega))
    have hkey : ¬∃ key ∈ expected, first.minimum ≠ key := by
      rintro ⟨key, hkey, hne⟩
      exact hne ((hminimum first rfl).symm.trans (hexpects.minimum key hkey))
    simp only [walkLeafReferencesNode, bind_eq_ok, failIf_eq_ok, hread, ok.injEq, exists_eq_left', hrefs,
      okOr_eq_ok, pure_eq_ok, Prod.mk.injEq]
    exact ⟨i', (), hpage, _, rfl, (), hkey, (hminimum first rfl).symm, rfl⟩

/-! ## Agreement with validation -/

/-- What the walk of a whole tree reports. -/
theorem inspect_root {root : PageId} {stats : TreeStructuralStats} :
    (ofRoot root).inspectTreeStructure store = .ok stats → ∃ h t, t.page = root ∧ Sound store h t ∧
      stats.reachablePageCount = t.pages.length ∧ stats.leafCount = t.pages.countP (isLeaf store) := by
  simp only [inspectTreeStructure, ofRoot, bind_eq_ok, Prod.exists, pure_eq_ok, ok.injEq]
  rintro ⟨minimum, i, hok, rfl⟩
  obtain ⟨h, t, hpage, -, hholds, hpassed⟩ := of_walkNode hok
  have hsound := hholds.sound hpassed.ascending
  -- The counters are far from their greatest value.
  have hlength := hsound.pages_length_le
  have hleaves := countP_le_length (p := isLeaf store) (l := t.pages)
  refine ⟨h, t, hpage, hsound, ?_, ?_⟩
  · rw [hpassed.pages, saturatingAdd]
    simp only
    omega
  · rw [hpassed.leaves, saturatingAdd]
    simp only
    omega

/-- The planner's walk accepts exactly the trees that `validate` accepts, and counts the pages and leaves
that `validate` visits. -/
theorem inspection_agrees_with_validate (store : PageStore) (tree : BTree) :
    ((∃ stats, tree.inspectTreeStructure store = .ok stats) ↔ ∃ n, tree.validate store = .ok n) ∧
      ∀ stats, tree.inspectTreeStructure store = .ok stats → ∃ visited, tree.validatedPages store = .ok visited ∧
        stats.reachablePageCount = visited.card ∧
        stats.leafCount = (visited.filter fun page => isLeaf store page).card := by
  obtain ⟨_ | root⟩ := tree
  · refine ⟨⟨fun _ => ⟨0, rfl⟩, fun _ => ⟨{}, rfl⟩⟩, ?_⟩
    rintro _ ⟨⟩
    exact ⟨∅, rfl, rfl, rfl⟩
  have hvalid {h : Nat} {t : Subtree} (ht : Sound store h t) :
      validateNode store none maxTreeHeight t.page ∅ = .ok (t.summary h, ∅ ∪ t.pages.toFinset) :=
    validateNode_eq_ok ht ht.height_lt fun p _ => Finset.notMem_empty p
  refine ⟨⟨?_, ?_⟩, fun stats hstats => ?_⟩
  · rintro ⟨stats, hstats⟩
    obtain ⟨h, t, rfl, ht, -⟩ := inspect_root hstats
    exact ⟨_, validate_eq_ok.mpr ⟨⟨t.entries, ht.ascending⟩, ⟨h, t.pages, ht⟩, rfl⟩⟩
  · rintro ⟨n, hn⟩
    obtain ⟨map, ⟨h, pages, ht⟩, -⟩ := validate_eq_ok.mp hn
    obtain ⟨i, hok⟩ : ∃ i, walkLeafReferencesNode store maxTreeHeight 0 [] root none {} = .ok (_, i) :=
      walkNode_succeeds ht ht.height_lt (by simp) ⟨by simp, by simp, by simp⟩
    exact ⟨i.stats, by simp only [inspectTreeStructure, hok, ok_bind, pure_eq_ok]⟩
  · obtain ⟨h, t, rfl, ht, hpages, hleaves⟩ := inspect_root hstats
    refine ⟨t.pages.toFinset, ?_, ?_, ?_⟩
    · simp only [validatedPages, hvalid ht, ok_bind, pure_eq_ok, Finset.empty_union]
    · rw [hpages, toFinset_card_of_nodup ht.nodup]
    · rw [hleaves, countP_eq_length_filter, ← toFinset_filter, toFinset_card_of_nodup (ht.nodup.filter _)]

end Hyphae.BTree
