import Hyphae.BTree.Holds

/-!
# Scanning and validating what a store holds

`scan` returns the entries of a sound tree, and `validate` succeeds on exactly the
sound trees.
-/

namespace Hyphae.BTree

open Lib List Except Finset

open Subtree
open ValidationSummary (count)

variable {subs : List Subtree} {visited visited' : Finset PageId} {t first : Subtree} {store store' : PageStore}
  {levels : Nat} {tree : BTree} {map : OrderedMap Bytes Bytes} {summaries : List ValidationSummary} {keys : List Bytes}

/-! ## Visiting children -/

section VisitChildren

variable {α : Type} {visit : PageId → Finset PageId → TreeM (α × Finset PageId)}

/-- If every child visits its own pages and no page is reached twice, all children are visited. -/
theorem visitChildren_eq_ok (result : Subtree → α) (hvisit : ∀ sub ∈ subs, ∀ seen, (∀ p ∈ sub.pages, p ∉ seen) →
      visit sub.page seen = .ok (result sub, seen ∪ sub.pages.toFinset))
    (hnodup : (subs.flatMap pages).Nodup) (hnew : ∀ p ∈ subs.flatMap pages, p ∉ visited) :
    visitChildren visit (subs.map page) visited =
      .ok (subs.map result, visited ∪ (subs.flatMap pages).toFinset) := by
  induction subs generalizing visited with
  | nil => simp [visitChildren]
  | cons sub subs ih =>
    rw [flatMap_cons, nodup_append'] at hnodup
    obtain ⟨-, hrest, hdisj⟩ := hnodup
    simp only [flatMap_cons, mem_append] at hnew
    have hsub := hvisit sub List.mem_cons_self visited fun p hp => hnew p (.inl hp)
    have hnewRest : ∀ p ∈ subs.flatMap pages, p ∉ visited ∪ sub.pages.toFinset := by
      intro p hp hmem
      rcases mem_union.mp hmem with hmem | hmem
      · exact hnew p (.inr hp) hmem
      · exact hdisj (List.mem_toFinset.mp hmem) hp
    have hsubs := ih (fun s hs => hvisit s (List.mem_cons_of_mem _ hs)) hrest hnewRest
    simp only [List.map_cons, visitChildren, hsub, ok_bind, hsubs, pure_eq_ok, union_assoc,
      flatMap_cons, toFinset_append]

/-- A completed visit found a subtree under every child. -/
theorem of_visitChildren_eq_ok {P : Subtree → α → Prop} {children : List PageId} {results : List α}
    (hvisit : ∀ child seen result seen', visit child seen = .ok (result, seen') →
      ∃ sub : Subtree, sub.page = child ∧ P sub result)
    (h : visitChildren visit children visited = .ok (results, visited')) :
    ∃ subs : List Subtree, subs.map page = children ∧ List.Forall₂ P subs results := by
  induction children generalizing visited results with
  | nil =>
    simp only [visitChildren, pure_eq_ok, ok.injEq, Prod.mk.injEq] at h
    obtain ⟨rfl, rfl⟩ := h
    exact ⟨[], by simp⟩
  | cons child children ih =>
    simp only [visitChildren, bind_eq_ok, Prod.exists, pure_eq_ok, ok.injEq, Prod.mk.injEq] at h
    obtain ⟨result, seen, hchild, results', seen', hchildren, rfl, rfl⟩ := h
    obtain ⟨sub, rfl, hP⟩ := hvisit _ _ _ _ hchild
    obtain ⟨subs, rfl, hPs⟩ := ih hchildren
    exact ⟨sub :: subs, rfl, .cons hP hPs⟩

end VisitChildren

/-! ## Order across children -/

theorem Subtree.minimum_eq {e : KeyValue} {es : List KeyValue} (h : t.entries = e :: es) : t.minimum = e.1 := by
  simp [minimum, h]

theorem exists_minimum (hne : t.entries ≠ []) : ∃ e ∈ t.entries, e.1 = t.minimum := by
  obtain ⟨e, es, hes⟩ := exists_cons_of_ne_nil hne
  exact ⟨e, by simp [hes], (t.minimum_eq hes).symm⟩

theorem minimum_le (hasc : KeyAscending t.entries) : ∀ e ∈ t.entries, t.minimum ≤ e.1 := by
  cases hes : t.entries with
  | nil => simp
  | cons e es =>
    rw [t.minimum_eq hes]
    rw [hes] at hasc
    intro e' he'
    rcases mem_cons.mp he' with rfl | he'
    · exact le_rfl
    · exact ((keyAscending_cons.mp hasc).1 e' he').le

theorem exists_maximum (hne : t.entries ≠ []) : ∃ e ∈ t.entries, e.1 = t.maximum := by
  refine ⟨t.entries.getLast hne, getLast_mem hne, ?_⟩
  simp [Subtree.maximum, getLast?_eq_some_getLast hne]

theorem le_maximum (hasc : KeyAscending t.entries) : ∀ e ∈ t.entries, e.1 ≤ t.maximum := by
  rcases eq_nil_or_concat' t.entries with hes | ⟨es, last, hes⟩
  · simp [hes]
  · have hmax : t.maximum = last.1 := by simp [Subtree.maximum, hes]
    rw [hmax, hes]
    rw [hes] at hasc
    intro e he
    rcases mem_append.mp he with he | he
    · exact ((keyAscending_append.mp hasc).2.2 e he last (by simp)).le
    · rw [List.mem_singleton.mp he]

/-- No entry is below the least key of the first child. -/
theorem minimum_le_of_subs {rest : List Subtree} (hne : first.entries ≠ [])
    (hasc : KeyAscending ((first :: rest).flatMap entries)) :
    ∀ e ∈ (first :: rest).flatMap entries, first.minimum ≤ e.1 := by
  cases hes : first.entries with
  | nil => exact absurd hes hne
  | cons x xs =>
    rw [flatMap_cons, hes, cons_append] at hasc ⊢
    rw [first.minimum_eq hes]
    intro e he
    rcases mem_cons.mp he with rfl | he
    · exact le_rfl
    · exact ((keyAscending_cons.mp hasc).1 e he).le

/-- The entries of adjacent children ascend exactly when each child ends below the next one. -/
theorem keyAscending_flatMap (hne : ∀ sub ∈ subs, sub.entries ≠ []) :
    KeyAscending (subs.flatMap entries) ↔
      (∀ sub ∈ subs, KeyAscending sub.entries) ∧ subs.IsChain fun left right => left.maximum < right.minimum := by
  induction subs with
  | nil => simp [keyAscending_nil]
  | cons sub subs ih =>
    have hnes : ∀ s ∈ subs, s.entries ≠ [] := fun s hs => hne s (List.mem_cons_of_mem _ hs)
    rw [flatMap_cons, keyAscending_append, ih hnes, List.forall_mem_cons]
    cases subs with
    | nil => simp
    | cons next subs =>
      rw [isChain_cons_cons]
      have hsub := hne sub List.mem_cons_self
      have hnext := hnes next List.mem_cons_self
      constructor
      · rintro ⟨hasc, ⟨hascs, hchain⟩, hlt⟩
        refine ⟨⟨hasc, hascs⟩, ?_, hchain⟩
        obtain ⟨e, he, hmax⟩ := exists_maximum hsub
        obtain ⟨e', he', hmin⟩ := exists_minimum hnext
        rw [← hmax, ← hmin]
        exact hlt e he e' (mem_flatMap.mpr ⟨next, List.mem_cons_self, he'⟩)
      · rintro ⟨⟨hasc, hascs⟩, hlt, hchain⟩
        refine ⟨hasc, ⟨hascs, hchain⟩, fun e he e' he' => ?_⟩
        have hmin := minimum_le_of_subs hnext ((ih hnes).mpr ⟨hascs, hchain⟩)
        exact (le_maximum hasc e he).trans_lt (hlt.trans_le (hmin e' he'))

/-- The keys of a subtree lie below the least key of the next one. -/
theorem lt_next_minimum {sub : Subtree} {e : KeyValue} (hne : ∀ s ∈ subs, s.entries ≠ [])
    (hasc : KeyAscending ((sub :: subs).flatMap entries)) (he : e ∈ sub.entries) :
    ∀ bound ∈ subs.head?.map Subtree.minimum, e.1 < bound := by
  intro bound hbound
  cases subs with
  | nil => simp at hbound
  | cons next rest =>
    obtain rfl : next.minimum = bound := by simpa using hbound
    obtain ⟨first, hfirst, hmin⟩ := exists_minimum (hne next List.mem_cons_self)
    rw [← hmin]
    exact (keyAscending_append.mp (flatMap_cons ▸ hasc)).2.2 e he first
      (mem_flatMap.mpr ⟨next, List.mem_cons_self, hfirst⟩)

/-! ## Parts of a sound tree -/

theorem Sound.mono {h : Nat} (hext : store.Extends store') (ht : Sound store h t) :
    Sound store' h t := ⟨ht.holds.mono hext, ht.ascending, ht.nodup⟩

/-- The children of a sound internal node are sound. -/
theorem sound_subs {h : Nat} (hholds : ∀ sub ∈ subs, Holds store h sub)
    (hasc : KeyAscending (subs.flatMap entries)) : ∀ sub ∈ subs, Sound store h sub := by
  intro sub hsub
  have hne : ∀ s ∈ subs, s.entries ≠ [] := fun s hs => (hholds s hs).entries_ne_nil
  exact (hholds sub hsub).sound (((keyAscending_flatMap hne).mp hasc).1 sub hsub)

/-- What a walk finds at a sound internal node. -/
theorem Sound.opens {h : Nat} (ht : Sound store (h + 1) t) :
    ∃ subs : List Subtree,
      readNode store t.page = .ok (.internal (subs.tail.map Subtree.minimum) (subs.map Subtree.page)) ∧
      (∀ sub ∈ subs, Sound store h sub) ∧ (∀ sub ∈ subs, sub.entries ≠ []) ∧ t.entries = subs.flatMap entries ∧
      KeyAscending (subs.flatMap entries) ∧ t.pages = t.page :: subs.flatMap pages ∧
      t.page ∉ subs.flatMap pages ∧ (subs.flatMap pages).Nodup := by
  obtain ⟨subs, hread, hsubs, hentries, hpages⟩ := ht.holds
  have hasc := ht.ascending
  rw [hentries] at hasc
  have hnodup := ht.nodup
  rw [hpages, nodup_cons] at hnodup
  exact ⟨subs, hread, sound_subs hsubs hasc, fun s hs => (hsubs s hs).entries_ne_nil, hentries, hasc, hpages, hnodup⟩

/-- Induction on a sound subtree, with levels enough to walk it. -/
theorem Sound.climb {motive : ∀ (h levels : Nat) (t : Subtree), Sound store h t → h < levels → Prop}
    (leaf : ∀ levels t (ht : Sound store 0 t), motive 0 (levels + 1) t ht levels.succ_pos)
    (node : ∀ h levels t (ht : Sound store (h + 1) t) (hlt : h < levels),
      (∀ {sub} (hsub : Sound store h sub), motive h levels sub hsub hlt) →
        motive (h + 1) (levels + 1) t ht (Nat.succ_lt_succ hlt))
    {h levels : Nat} {t : Subtree} (ht : Sound store h t) (hlevels : h < levels) : motive h levels t ht hlevels := by
  induction levels generalizing h t with
  | zero => cases hlevels
  | succ levels ih =>
    cases h with
    | zero => exact leaf levels t ht
    | succ h => exact node h levels t ht (Nat.lt_of_succ_lt_succ hlevels) fun hsub => ih hsub _

/-! ## Scan -/

theorem new_below (hpages : t.pages = t.page :: subs.flatMap pages)
    (hpage : t.page ∉ subs.flatMap pages) (hnew : ∀ p ∈ t.pages, p ∉ visited) :
    ∀ p ∈ subs.flatMap pages, p ∉ insert t.page visited := by
  intro p hp hmem
  rcases mem_insert.mp hmem with rfl | hmem
  · exact hpage hp
  · exact hnew p (by simp [hpages, hp]) hmem

/-- The same for the path down to one child. -/
theorem new_child {path : List PageId} {sub : Subtree} (hpages : t.pages = t.page :: subs.flatMap pages)
    (hpage : t.page ∉ subs.flatMap pages) (hnew : ∀ p ∈ t.pages, p ∉ path) (hsub : sub ∈ subs) :
    ∀ p ∈ sub.pages, p ∉ t.page :: path := by
  intro p hp
  have hmem := mem_flatMap.mpr ⟨sub, hsub, hp⟩
  rw [List.mem_cons, not_or]
  exact ⟨ne_of_mem_of_not_mem hmem hpage, hnew p (hpages ▸ mem_cons_of_mem _ hmem)⟩

theorem scanNode_eq_ok {h : Nat} (ht : Sound store h t) (hlevels : h < levels) (hnew : ∀ p ∈ t.pages, p ∉ visited) :
    scanNode store levels t.page visited = .ok (t.entries, visited ∪ t.pages.toFinset) := by
  induction ht, hlevels using Sound.climb generalizing visited with
  | leaf levels t ht =>
    obtain ⟨hread, hpages⟩ := ht.holds
    have hpage : t.page ∉ visited := hnew _ (by simp [hpages])
    simp [scanNode, failIf, hpage, hread, hpages, union_comm visited, singleton_union]
  | node h levels t ht hlt ih =>
    obtain ⟨subs, hread, hsound, -, hentries, -, hpages, hroot, hnodup⟩ := ht.opens
    have hpage : t.page ∉ visited := hnew _ (by simp [hpages])
    have hvisit := visitChildren_eq_ok entries (fun sub hsub seen hseen => ih (hsound sub hsub) hseen) hnodup
      (new_below hpages hroot hnew)
    simp only [scanNode, failIf, hpage, if_false, ok_bind, hread, hvisit, pure_eq_ok,
      hentries, hpages, flatMap_def, toFinset_cons, insert_union, union_insert]

/-- What a tree value stands for in a store: a map of keys to values. -/
def Represents (store : PageStore) (tree : BTree) (map : OrderedMap Bytes Bytes) : Prop :=
  match tree.root with
  | none => map.entries = []
  | some root => ∃ h pages, Sound store h ⟨root, map.entries, pages⟩

/-- A tree that represents a map is empty or has the root of a sound subtree. -/
theorem Represents.cases (h : Represents store tree map) :
    (tree = empty ∧ map.entries = []) ∨
      ∃ root height pages, tree = ofRoot root ∧ Sound store height ⟨root, map.entries, pages⟩ := by
  obtain ⟨_ | root⟩ := tree
  · exact .inl ⟨rfl, h⟩
  · obtain ⟨height, pages, ht⟩ := h
    exact .inr ⟨root, height, pages, rfl, ht⟩

theorem Represents.mono (hext : store.Extends store') (h : Represents store tree map) : Represents store' tree map := by
  obtain ⟨rfl, hempty⟩ | ⟨root, height, pages, rfl, ht⟩ := h.cases
  · exact hempty
  · exact ⟨height, pages, ht.mono hext⟩

theorem scan_eq_ok (h : Represents store tree map) : tree.scan store = .ok map.entries := by
  obtain ⟨rfl, hempty⟩ | ⟨root, height, pages, rfl, ht⟩ := h.cases
  · rw [hempty]
    rfl
  · have hscan := scanNode_eq_ok ht ht.height_lt fun p _ => notMem_empty p
    simp only at hscan
    simp [scan, ofRoot, hscan, failIf, map.ascending]

/-! ## Validation -/

/-- What validating a subtree of height `h` reports. -/
def Subtree.summary (h : Nat) (t : Subtree) : ValidationSummary :=
  { minimum := t.minimum, maximum := t.maximum, count := t.entries.length, height := h + 1 }

theorem countFold_eq_ok {total n : Nat} (ht : total < 2 ^ 64) :
    summaries.foldlM (fun total summary => okOr (checkedAdd total summary.count) BTreeError.lengthOverflow)
        total = .ok n ↔
      total + (summaries.map count).sum < 2 ^ 64 ∧
        n = total + (summaries.map count).sum := by
  have hadd : ∀ {total : Nat} {summary : ValidationSummary} {n : Nat},
      okOr (checkedAdd total summary.count) BTreeError.lengthOverflow = .ok n ↔
        True ∧ total + summary.count < 2 ^ 64 ∧ n = total + summary.count := by simp
  rw [foldl_encodedLength count hadd ht]
  simp

theorem sum_counts (h : Nat) (subs : List Subtree) :
    ((subs.map (summary h)).map count).sum = (subs.flatMap entries).length := by
  rw [List.map_map, length_flatMap]
  rfl

theorem separators_eq_iff {h : Nat} (hlen : keys.length = subs.length) :
    (∀ pair ∈ keys.zip (subs.map (summary h)), pair.1 = pair.2.minimum) ↔
      keys = subs.map minimum := by
  induction keys generalizing subs with
  | nil => simp [length_eq_zero_iff.mp hlen.symm]
  | cons key keys ih =>
    cases subs with
    | nil => simp at hlen
    | cons sub subs =>
      have hrest := ih (Nat.succ.inj hlen)
      rw [List.map_cons, List.map_cons, zip_cons_cons, List.cons.injEq, ← hrest]
      simp [summary]

variable {summary : ValidationSummary}

/-- The checks over children of one height: separators are minimums, and the children are in order. -/
theorem summarizeChildren_eq_ok {h : Nat} (hlen : subs.length = keys.length + 1) (hh : h + 2 < 2 ^ 64) :
    summarizeChildren keys (subs.map (Subtree.summary h)) = .ok summary ↔
      keys = subs.tail.map Subtree.minimum ∧ (subs.IsChain fun left right => left.maximum < right.minimum) ∧
        (subs.flatMap Subtree.entries).length < 2 ^ 64 ∧
        ∃ first ∈ subs.head?, ∃ last ∈ subs.getLast?,
          summary = { minimum := first.minimum, maximum := last.maximum,
                      count := (subs.flatMap Subtree.entries).length, height := h + 2 } := by
  have hkeys : (¬∃ pair ∈ keys.zip (subs.map (Subtree.summary h)).tail, pair.1 ≠ pair.2.minimum) ↔
      keys = subs.tail.map Subtree.minimum := by
    rw [← separators_eq_iff (h := h) (by rw [length_tail]; omega), map_tail]
    push Not
    rfl
  have hchain (R : ValidationSummary → ValidationSummary → Prop) :
      (subs.map (Subtree.summary h)).IsChain R ↔ subs.IsChain fun a b => R (a.summary h) (b.summary h) :=
    isChain_map _
  have hheights : subs.IsChain fun left right : Subtree => (left.summary h).height = (right.summary h).height :=
    List.Pairwise.isChain (pairwise_of_forall fun _ _ => rfl)
  simp only [summarizeChildren, bind_eq_ok, failIf_eq_ok, hkeys, not_not, hchain, okOr_eq_ok,
    countFold_eq_ok (show 0 < 2 ^ 64 by norm_num), sum_counts, Nat.zero_add, checkedAdd_eq_some, pure_eq_ok,
    ok.injEq, head?_map, getLast?_map, Option.map_eq_some_iff, Option.mem_def]
  constructor
  · rintro ⟨-, hk, -, hord, -, -, _, ⟨first, hfirst, rfl⟩, _, ⟨last, hlast, rfl⟩, _, ⟨hcount, rfl⟩, _, ⟨-, rfl⟩, rfl⟩
    exact ⟨hk, hord, hcount, first, hfirst, last, hlast, rfl⟩
  · rintro ⟨hk, hord, hcount, first, hfirst, last, hlast, rfl⟩
    exact ⟨⟨⟩, hk, ⟨⟩, hord, ⟨⟩, hheights, _, ⟨first, hfirst, rfl⟩, _, ⟨last, hlast, rfl⟩, _, ⟨hcount, rfl⟩,
      _, ⟨by simpa [Subtree.summary] using hh, rfl⟩, rfl⟩

/-- The least key of a node is that of its first child. -/
theorem minimum_of_subs (hne : ∀ sub ∈ subs, sub.entries ≠ []) (ht : t.entries = subs.flatMap Subtree.entries)
    (hfirst : first ∈ subs.head?) : t.minimum = first.minimum := by
  cases subs with
  | nil => simp at hfirst
  | cons sub rest =>
    obtain rfl : sub = first := by simpa using hfirst
    unfold Subtree.minimum
    rw [ht, flatMap_cons, head?_append_of_ne_nil _ (hne sub mem_cons_self)]

/-- The least and greatest keys of a node are those of its outer children. -/
theorem summary_of_subs {h : Nat} (hne : ∀ sub ∈ subs, sub.entries ≠ []) (ht : t.entries = subs.flatMap Subtree.entries)
    {last : Subtree} (hfirst : first ∈ subs.head?) (hlast : last ∈ subs.getLast?) :
    t.summary (h + 1) = { minimum := first.minimum, maximum := last.maximum,
                          count := (subs.flatMap Subtree.entries).length, height := h + 2 } := by
  have hmin : t.minimum = first.minimum := minimum_of_subs hne ht hfirst
  have hmax : t.maximum = last.maximum := by
    obtain ⟨rest, rfl⟩ : ∃ rest, subs = rest ++ [last] := getLast?_eq_some_iff.mp hlast
    have := hne last (by simp)
    unfold Subtree.maximum
    rw [ht, flatMap_append, flatMap_singleton, getLast?_append_of_ne_nil _ this]
  simp only [Subtree.summary, hmin, hmax, ht]

theorem validateNode_eq_ok {h : Nat} (ht : Sound store h t) (hlevels : h < levels) (hnew : ∀ p ∈ t.pages, p ∉ visited) :
    validateNode store none levels t.page visited = .ok (t.summary h, visited ∪ t.pages.toFinset) := by
  induction ht, hlevels using Sound.climb generalizing visited with
  | leaf levels t ht =>
    obtain ⟨hread, hpages⟩ := ht.holds
    obtain ⟨page, hpage, hdecode⟩ := bind_eq_ok.mp hread
    have hnot : t.page ∉ visited := hnew _ (by simp [hpages])
    have hfirst := head?_eq_some_head ht.holds.entries_ne_nil
    have hlast := getLast?_eq_some_getLast ht.holds.entries_ne_nil
    simp [validateNode, failIf, hnot, hpage, hdecode, hfirst, hlast, okOr, Subtree.summary,
      Subtree.minimum, Subtree.maximum, hpages, union_comm visited, singleton_union]
  | node h levels t ht hlt ih =>
    obtain ⟨subs, hread, hsound, hne, hentries, hasc, hpages, hroot, hnodup⟩ := ht.opens
    obtain ⟨page, hpage, hdecode⟩ := bind_eq_ok.mp hread
    have hnot : t.page ∉ visited := hnew _ (by simp [hpages])
    have hvisit := visitChildren_eq_ok (Subtree.summary h) (fun sub hsub seen hseen => ih (hsound sub hsub) hseen)
      hnodup (new_below hpages hroot hnew)
    have htwo := Holds.two_le_subs hread
    have hsome : subs ≠ [] := by
      rintro rfl
      simp at htwo
    have hheight := ht.height_le
    have hsummary : summarizeChildren (subs.tail.map Subtree.minimum) (subs.map (Subtree.summary h)) =
        .ok (t.summary (h + 1)) := by
      refine (summarizeChildren_eq_ok (by rw [length_map, length_tail]; omega) (by omega)).mpr
        ⟨rfl, ((keyAscending_flatMap hne).mp hasc).2, hentries ▸ ht.count_lt, subs.head hsome,
          head?_eq_some_head hsome, subs.getLast hsome, getLast?_eq_some_getLast hsome, ?_⟩
      exact summary_of_subs hne hentries (head?_eq_some_head hsome) (getLast?_eq_some_getLast hsome)
    simp only [validateNode, failIf, hnot, if_false, ok_bind, hpage, Option.mem_def, hdecode, hvisit,
      hsummary, pure_eq_ok, hpages, toFinset_cons, insert_union, union_insert]
    simp

/-- Children whose heights agree pairwise all have one height. -/
theorem common_height
    (hsubs : List.Forall₂ (fun sub summary => ∃ h, Sound store h sub ∧ summary = Subtree.summary h sub) subs summaries)
    (hchain : summaries.IsChain fun left right => left.height = right.height) (hne : subs ≠ []) :
    ∃ h, (∀ sub ∈ subs, Sound store h sub) ∧ summaries = subs.map (Subtree.summary h) := by
  induction hsubs with
  | nil => exact absurd rfl hne
  | @cons sub summary subs summaries hsub hsubs ih =>
    obtain ⟨h, hsound, rfl⟩ := hsub
    cases hsubs with
    | nil => exact ⟨h, by simpa using hsound, rfl⟩
    | @cons next summary' subs' summaries' hnext hsubs =>
      rw [isChain_cons_cons] at hchain
      obtain ⟨h', hsound', hmap⟩ := ih hchain.2 (by simp)
      obtain rfl : h = h' := by
        have hhead := (List.cons.inj hmap).1
        have hheight := hchain.1
        rw [hhead] at hheight
        simpa [Subtree.summary] using hheight
      exact ⟨h, List.forall_mem_cons.mpr ⟨hsound, hsound'⟩, by rw [List.map_cons, hmap]⟩

theorem of_validateNode_eq_ok {visible : Option Csn} {page : PageId}
    (hok : validateNode store visible levels page visited = .ok (summary, visited')) :
    ∃ t : Subtree, t.page = page ∧ ∃ h, Sound store h t ∧ summary = t.summary h := by
  induction levels generalizing page visited visited' summary with
  | zero => cases hok
  | succ levels ih =>
    simp only [validateNode, bind_eq_ok, failIf_eq_ok] at hok
    obtain ⟨-, -, loaded, hread, -, -, node, hdecode, hnode⟩ := hok
    have hreadNode : readNode store page = .ok node := bind_eq_ok.mpr ⟨loaded, hread, hdecode⟩
    have hwf := readNode_wf hreadNode
    cases node with
    | leaf entries =>
      simp only [bind_eq_ok, okOr_eq_ok, pure_eq_ok, ok.injEq, Prod.mk.injEq] at hnode
      obtain ⟨first, hfirst, last, hlast, rfl, rfl⟩ := hnode
      refine ⟨⟨page, entries, [page]⟩, rfl, 0, Holds.sound ⟨hreadNode, rfl⟩ hwf.2.1, ?_⟩
      simp [Subtree.summary, Subtree.minimum, Subtree.maximum, hfirst, hlast]
    | internal keys children =>
      simp only [bind_eq_ok, Prod.exists, pure_eq_ok, ok.injEq, Prod.mk.injEq] at hnode
      obtain ⟨summaries, seen, hvisit, _, hsummary, rfl, rfl⟩ := hnode
      obtain ⟨subs, rfl, hsubs⟩ := of_visitChildren_eq_ok (fun _ _ _ _ => ih) hvisit
      obtain ⟨hkeysne, hlen, -⟩ := hwf
      rw [length_map] at hlen
      have hne : subs ≠ [] := by
        rintro rfl
        simp at hlen
      have hchain : summaries.IsChain fun left right => left.height = right.height := by
        simp only [summarizeChildren, bind_eq_ok, failIf_eq_ok, not_not] at hsummary
        obtain ⟨-, -, -, -, -, hchain, -⟩ := hsummary
        exact hchain
      obtain ⟨h, hsound, rfl⟩ := common_height hsubs hchain hne
      have hheight : h ≤ 50 := (hsound _ (head_mem hne)).height_le
      obtain ⟨rfl, hord, -, first, hfirst, last, hlast, rfl⟩ := (summarizeChildren_eq_ok hlen (by omega)).mp hsummary
      have hnes : ∀ sub ∈ subs, sub.entries ≠ [] := fun s hs => (hsound s hs).holds.entries_ne_nil
      refine ⟨⟨page, subs.flatMap Subtree.entries, page :: subs.flatMap Subtree.pages⟩, rfl, h + 1,
        Holds.sound ?_ ?_, ?_⟩
      · exact ⟨subs, hreadNode, fun s hs => (hsound s hs).holds, rfl, rfl⟩
      · exact (keyAscending_flatMap hnes).mpr ⟨fun s hs => (hsound s hs).ascending, hord⟩
      · exact (summary_of_subs hnes rfl hfirst hlast).symm

/-- `validate` succeeds on exactly the trees that represent a map, and counts its entries. -/
theorem validate_eq_ok {n : Nat} :
    tree.validate store = .ok n ↔ ∃ map, Represents store tree map ∧ n = map.entries.length := by
  unfold validate validateAt Represents
  cases tree.root with
  | none =>
    constructor
    · intro h
      exact ⟨.empty, rfl, by simpa [OrderedMap.empty] using h.symm⟩
    · rintro ⟨map, hmap, rfl⟩
      simp only at hmap
      simp [hmap]
  | some root =>
    simp only [bind_eq_ok, Prod.exists, pure_eq_ok, ok.injEq]
    constructor
    · rintro ⟨summary, visited, hnode, rfl⟩
      obtain ⟨t, rfl, h, hsound, rfl⟩ := of_validateNode_eq_ok hnode
      exact ⟨⟨t.entries, hsound.ascending⟩, ⟨h, t.pages, hsound⟩, rfl⟩
    · rintro ⟨map, ⟨h, pages, hsound⟩, rfl⟩
      exact ⟨_, _, validateNode_eq_ok hsound hsound.height_lt fun p _ => notMem_empty p, rfl⟩

end Hyphae.BTree
