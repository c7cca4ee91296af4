import Hyphae.BTree.Sources
import Hyphae.BTree.Validate

/-!
# Walks over a sound tree

One induction serves every range reader. A reader is described by a relation `P` between
the entries a walk covers, the state it starts from and its outcome. It suffices that `P`
composes along the entries, that a leaf meets it, and that a skipped child has nothing to
add.
-/

namespace Hyphae.BTree

open Lib List Finset

open Subtree

variable {subs : List Subtree}

/-! ## The separators around a child -/

/-- The separators on the two sides of a child enclose its entries. -/
structure Encloses (child : ChildRange) (sub : Subtree) : Prop where
  page : child.page = sub.page
  lower : ∀ bound ∈ child.lower, ∀ e ∈ sub.entries, bound ≤ e.1
  upper : ∀ bound ∈ child.upper, ∀ e ∈ sub.entries, e.1 < bound

/-- The children with their separators, from the one whose left separator is `lower`. -/
def rangesFrom (lower : Option Bytes) : List Subtree → List ChildRange
  | [] => []
  | sub :: subs => ⟨sub.page, lower, subs.head?.map Subtree.minimum⟩ :: rangesFrom (subs.head?.map Subtree.minimum) subs

theorem childRanges_from {keys : List Bytes} {k : Nat} (hkeys : keys.drop k = subs.tail.map minimum) :
    ((subs.map page).zipIdx k).map (fun (child, index) =>
        (⟨child, if index = 0 then none else keys[index - 1]?, keys[index]?⟩ : ChildRange)) =
      rangesFrom (if k = 0 then none else keys[k - 1]?) subs := by
  induction subs generalizing k with
  | nil => rfl
  | cons sub subs ih =>
    have hhead : keys[k]? = subs.head?.map minimum := by simpa using congrArg List.head? hkeys
    have htail : keys.drop (k + 1) = subs.tail.map minimum := by simpa using congrArg List.tail hkeys
    have hrest := ih htail
    simp only [Nat.add_one_ne_zero, if_false, Nat.add_sub_cancel] at hrest
    simp only [List.map_cons, zipIdx_cons, rangesFrom, hrest, hhead]

theorem childRanges_subs (subs : List Subtree) :
    childRanges (subs.tail.map minimum) (subs.map page) = rangesFrom none subs :=
  childRanges_from (k := 0) drop_zero

theorem encloses_rangesFrom {lower : Option Bytes} (hne : ∀ sub ∈ subs, sub.entries ≠ [])
    (hasc : KeyAscending (subs.flatMap entries)) (hlower : ∀ bound ∈ lower, ∀ e ∈ subs.flatMap entries, bound ≤ e.1) :
    List.Forall₂ Encloses (rangesFrom lower subs) subs := by
  induction subs generalizing lower with
  | nil => exact .nil
  | cons sub subs ih =>
    have hnes : ∀ s ∈ subs, s.entries ≠ [] := fun s hs => hne s (mem_cons_of_mem _ hs)
    have hascs := (keyAscending_append.mp (flatMap_cons ▸ hasc)).2.1
    rw [flatMap_cons] at hlower
    refine .cons ⟨rfl, fun bound hbound e he => ?_, fun bound hbound e he => ?_⟩ (ih hnes hascs ?_)
    · exact hlower bound hbound e (mem_append_left _ he)
    · exact lt_next_minimum hnes hasc he bound hbound
    · intro bound hbound
      cases subs with
      | nil => simp at hbound
      | cons next rest =>
        obtain rfl : next.minimum = bound := by simpa using hbound
        exact minimum_le_of_subs (hnes next mem_cons_self) hascs

/-! ## The walk rule -/

section Walk

variable {ℓ τ : Type} {walk : Walk ℓ τ} {store : PageStore} {children : List ChildRange}

/-- The outcome of a walk without its set of visited pages. -/
def outcome (y : TreeM (ControlFlow Unit × Finset PageId × τ)) : TreeM (ControlFlow Unit × τ) :=
  y.map fun result => (result.1, result.2.2)

/-- What a relation must satisfy to describe a walk. -/
structure Describes (walk : Walk ℓ τ) (store : PageStore)
    (P : List KeyValue → τ → TreeM (ControlFlow Unit × τ) → Prop) : Prop where
  nil : ∀ state, P [] state (.ok (.cont, state))
  append : ∀ {xs ys state state' result}, P xs state (.ok (.cont, state')) → P ys state' result →
    P (xs ++ ys) state result
  stop : ∀ {xs ys state result}, P xs state result → (∀ state', result ≠ .ok (.cont, state')) →
    P (xs ++ ys) state result
  leaf : ∀ {pageId page entries}, store.read pageId = .ok page → decodePage page = .ok (.leaf entries) →
    ∃ leaf, walk.view page = .ok (.leaf leaf) ∧ ∀ state, P (walk.order entries) state (walk.leaf pageId leaf state)
  internal : ∀ {page keys children}, decodePage page = .ok (.internal keys children) →
    walk.view page = .ok (.internal keys children)
  skip : ∀ {child sub} state, Encloses child sub → walk.enters child = false →
    P (walk.order sub.entries) state (.ok (.cont, state))

variable {m : Type → Type} [Monad m] [MonadExcept BTreeError m] {source : PageSource m}
  {P : List KeyValue → τ → TreeM (ControlFlow Unit × τ) → Prop}

/-- A walk of a subtree, from a set of visited pages that meets none of its own, ends as `P` says. -/
def WalksTo (faithful : Faithful source store) (P : List KeyValue → τ → TreeM (ControlFlow Unit × τ) → Prop)
    (n : Nat) (entries : List KeyValue) (pages : List PageId)
    (visitNode : Finset PageId → τ → m (ControlFlow Unit × Finset PageId × τ)) : Prop :=
  ∀ visited state, (∀ p ∈ pages, p ∉ visited) → ∃ y, faithful.Agrees n (visitNode visited state) y ∧
    P entries state (outcome y) ∧ ∀ result, y = .ok result → result.2.1 ⊆ visited ∪ pages.toFinset

theorem walkChildren_walksTo (hwalk : Describes walk store P) (faithful : Faithful source store) {n : Nat}
    {visitNode : PageId → Finset PageId → τ → m (ControlFlow Unit × Finset PageId × τ)}
    (hchildren : List.Forall₂ Encloses children subs) (hnodup : (subs.flatMap pages).Nodup)
    (hvisit : ∀ sub ∈ subs, WalksTo faithful P n (walk.order sub.entries) sub.pages (visitNode sub.page)) :
    WalksTo faithful P n (subs.flatMap fun sub => walk.order sub.entries) (subs.flatMap pages)
      (walkChildren visitNode walk.enters children) := by
  induction hchildren with
  | nil =>
    intro visited state _
    refine ⟨.ok (.cont, visited, state), faithful.pure n _, hwalk.nil state, fun result hresult => ?_⟩
    cases hresult
    simp
  | @cons child sub children subs hchild hrest ih =>
    intro visited state hnew
    simp only [flatMap_cons, nodup_append'] at hnodup
    obtain ⟨-, hnodups, hdisjoint⟩ := hnodup
    simp only [flatMap_cons, mem_append] at hnew
    have hsubs : ∀ s ∈ subs, WalksTo faithful P n (walk.order s.entries) s.pages (visitNode s.page) :=
      fun s hs => hvisit s (mem_cons_of_mem _ hs)
    unfold walkChildren
    by_cases henters : walk.enters child
    · obtain ⟨y, hagrees, hP, hvisited⟩ := hvisit sub mem_cons_self visited state fun p hp => hnew p (.inl hp)
      simp only [henters, if_true, hchild.page, flatMap_cons, toFinset_append]
      rcases y with e | ⟨⟨⟩ | ⟨⟨⟩⟩, visited', state'⟩
      · refine ⟨.error e, faithful.bind_error hagrees, hwalk.stop hP (by simp [outcome, Except.map]), ?_⟩
        exact fun result h => by cases h
      · -- the child ended without a break: go on with what it has visited
        have hsub := hvisited _ rfl
        obtain ⟨y, hagrees', hP', hvisited'⟩ := ih hnodups hsubs visited' state' fun p hp hmem => by
          rcases mem_union.mp (hsub hmem) with hmem | hmem
          · exact hnew p (.inr hp) hmem
          · exact hdisjoint (mem_toFinset.mp hmem) hp
        refine ⟨y, faithful.bind_ok hagrees hagrees', hwalk.append hP hP', fun result hresult p hp => ?_⟩
        have hp' := hvisited' result hresult hp
        have hp'' := @hsub p
        simp only [mem_union] at hp' hp'' ⊢
        tauto
      · refine ⟨.ok (.brk (), visited', state'), faithful.bind_ok hagrees (faithful.pure n _),
          hwalk.stop hP (by simp [outcome, Except.map]), fun result hresult p hp => ?_⟩
        cases hresult
        have hp' := hvisited _ rfl hp
        simp only [mem_union] at hp' ⊢
        tauto
    · obtain ⟨y, hagrees, hP, hvisited⟩ := ih hnodups hsubs visited state fun p hp => hnew p (.inr hp)
      have hskip := hwalk.skip state hchild (Bool.not_eq_true _ ▸ henters)
      refine ⟨y, by simpa [henters] using hagrees, hwalk.append hskip hP, fun result hresult p hp => ?_⟩
      have hp' := hvisited result hresult hp
      simp only [flatMap_cons, toFinset_append, mem_union] at hp' ⊢
      tauto

theorem order_flatMap (walk : Walk ℓ τ) (subs : List Subtree) :
    walk.order (subs.flatMap entries) = (walk.order subs).flatMap fun sub => walk.order sub.entries := by
  unfold Walk.order
  cases walk.backward
  · rfl
  · simp [reverse_flatMap, Function.comp_def]

theorem order_perm {α : Type} (walk : Walk ℓ τ) (items : List α) : (walk.order items).Perm items := by
  unfold Walk.order
  cases walk.backward
  · exact .refl _
  · exact reverse_perm items

theorem forall₂_order (walk : Walk ℓ τ) (h : List.Forall₂ Encloses children subs) :
    List.Forall₂ Encloses (walk.order children) (walk.order subs) := by
  unfold Walk.order
  cases walk.backward
  · exact h
  · exact rel_reverse h

/-- A walk of a sound subtree ends as `P` says, and holds at most one frame a level. -/
theorem walkNode_walksTo (hwalk : Describes walk store P) (faithful : Faithful source store) {h levels : Nat}
    {t : Subtree} (ht : Sound store h t) (hlevels : h < levels) :
    WalksTo faithful P levels (walk.order t.entries) t.pages (walkNode source walk levels t.page) := by
  induction ht, hlevels using Sound.climb with
  | leaf levels t ht =>
    obtain ⟨hread, hpages⟩ := ht.holds
    obtain ⟨page, hpage, hdecode⟩ := Except.bind_eq_ok.mp hread
    obtain ⟨leaf, hview, hleaf⟩ := hwalk.leaf (readPage_eq_ok.mp hpage) hdecode
    intro visited state hnew
    have hnot : t.page ∉ visited := hnew _ (by simp [hpages])
    refine ⟨(walk.leaf t.page leaf state).map fun result => (result.1, insert t.page visited, result.2), ?_, ?_, ?_⟩
    · refine faithful.ofExcept_bind (Except.failIf_of_not hnot) ?_
      refine faithful.withPage (readPage_eq_ok.mp hpage) (faithful.ofExcept_bind hview ?_)
      cases hresult : walk.leaf t.page leaf state with
      | error e => exact faithful.bind_error (hresult ▸ faithful.ofExcept _ _)
      | ok result => exact faithful.bind_ok (hresult ▸ faithful.ofExcept _ _) (faithful.pure _ _)
    · convert hleaf state using 1
      cases walk.leaf t.page leaf state <;> rfl
    · intro result hresult
      cases hleaf' : walk.leaf t.page leaf state with
      | error e => simp [hleaf', Except.map] at hresult
      | ok outcome =>
        simp only [hleaf', Except.map, Except.ok.injEq] at hresult
        simp [← hresult, hpages]
  | node h levels t ht hlt ih =>
    obtain ⟨subs, hread, hsound, hne, hentries, hasc, hpages, hroot, hnodup⟩ := ht.opens
    obtain ⟨page, hpage, hdecode⟩ := Except.bind_eq_ok.mp hread
    have hranges : List.Forall₂ Encloses (rangesFrom none subs) subs := encloses_rangesFrom hne hasc (by simp)
    have hperm := (order_perm walk subs).flatMap_right pages
    have hchildren := walkChildren_walksTo hwalk faithful (forall₂_order walk hranges) (hperm.nodup_iff.mpr hnodup)
      fun sub hsub => ih (hsound sub ((order_perm walk subs).mem_iff.mp hsub))
    intro visited state hnew
    have hnot : t.page ∉ visited := hnew _ (by simp [hpages])
    have hbelow := new_below hpages hroot hnew
    obtain ⟨y, hagrees, hP, hvisited⟩ := hchildren (insert t.page visited) state
      fun p hp => hbelow p (hperm.mem_iff.mp hp)
    refine ⟨y, ?_, by rw [hentries, order_flatMap]; exact hP, fun result hresult p hp => ?_⟩
    · refine faithful.ofExcept_bind (Except.failIf_of_not hnot) ?_
      refine faithful.withPage (readPage_eq_ok.mp hpage) (faithful.ofExcept_bind (hwalk.internal hdecode) ?_)
      simpa only [childRanges_subs] using hagrees
    · have hp' := hvisited result hresult hp
      simp only [mem_union, mem_insert, mem_toFinset, hperm.mem_iff] at hp'
      simp only [mem_union, mem_toFinset, hpages, List.mem_cons]
      tauto

/-- A walk of a tree ends as `P` says for its entries. -/
theorem walkTree_agrees (hwalk : Describes walk store P) (faithful : Faithful source store) {tree : BTree}
    {map : OrderedMap Bytes Bytes} (htree : Represents store tree map) (state : τ) :
    ∃ y, faithful.Agrees maxTreeHeight (walkTree source walk tree state) y ∧ P (walk.order map.entries) state y := by
  obtain ⟨rfl, hempty⟩ | ⟨root, h, pages, rfl, ht⟩ := htree.cases
  · refine ⟨.ok (.cont, state), faithful.pure _ _, ?_⟩
    have hnil : walk.order ([] : List KeyValue) = [] := by simp [Walk.order]
    rw [hempty, hnil]
    exact hwalk.nil state
  · obtain ⟨y, hagrees, hP, -⟩ := walkNode_walksTo hwalk faithful ht ht.height_lt ∅ state fun p _ => notMem_empty p
    refine ⟨outcome y, ?_, hP⟩
    cases y with
    | error e => exact faithful.bind_error hagrees
    | ok result => exact faithful.bind_ok hagrees (faithful.pure _ _)

end Walk

end Hyphae.BTree
