import Hyphae.BTree.NodeReads
import Hyphae.BTree.Walks

/-!
# Readers of a valid tree

On a tree that represents a map, point lookups return the map's value, prefix scans and
bounded visits cover the entries of the map in their range, and the planned segments of a
range partition its entries.
-/

namespace Hyphae.BTree

open Lib List Except Option

variable {m : Type → Type} [Monad m] [MonadExcept BTreeError m] {source : PageSource m} {store : PageStore}
  {tree : BTree} {map : OrderedMap Bytes Bytes}

variable {page : Page} {entries : List KeyValue} {keys : List Bytes} {children : List PageId} {pre key : Bytes}
  {segment : BTreeSegment}

/-! ## Views of a page that decodes -/

theorem leafPayload_of_decodePage (h : decodePage page = .ok (.leaf entries)) :
    page.kind = .bTreeLeaf ∧ LeafPayload page.payload entries := by
  have hkind : page.kind = .bTreeLeaf := (decodePage_eq_ok.mp h).1
  rw [decodePage, hkind] at h
  exact ⟨hkind, decodeLeaf_leaf.mp h⟩

theorem internalPayload_of_decodePage (h : decodePage page = .ok (.internal keys children)) :
    page.kind = .bTreeInternal ∧ ∃ first separators, InternalPayload page.payload first separators ∧
      keys = separators.map Prod.fst ∧ children = first :: separators.map Prod.snd := by
  have hkind : page.kind = .bTreeInternal := (decodePage_eq_ok.mp h).1
  rw [decodePage, hkind] at h
  obtain ⟨first, separators, hpayload, ⟨⟩⟩ := decodeInternal_iff_internalPayload.mp h
  exact ⟨hkind, first, separators, hpayload, rfl, rfl⟩

theorem decodedView_leaf (h : decodePage page = .ok (.leaf entries)) :
    decodedView page = .ok (.leaf entries) := by simp [decodedView, h]

theorem decodedView_internal (h : decodePage page = .ok (.internal keys children)) :
    decodedView page = .ok (.internal keys children) := by
  simp [decodedView, h]

theorem borrowedView_leaf (h : decodePage page = .ok (.leaf entries)) :
    ∃ leaf, borrowedView page = .ok (.leaf leaf) ∧ leaf.entries = entries ∧ leaf.count = entries.length ∧
      entries.head?.map Prod.fst = some leaf.minimum ∧ entries.getLast?.map Prod.fst = some leaf.maximum := by
  obtain ⟨hkind, hpayload⟩ := leafPayload_of_decodePage h
  obtain ⟨leaf, hdecode, hleaf⟩ := borrowedLeaf_decode hpayload
  exact ⟨leaf, by simp [borrowedView, hkind, hdecode], hleaf⟩

theorem borrowedView_internal (h : decodePage page = .ok (.internal keys children)) :
    borrowedView page = .ok (.internal keys children) := by
  obtain ⟨hkind, -⟩ := internalPayload_of_decodePage h
  simp [borrowedView, hkind, h]

/-! ## Point lookup -/

theorem lookupStep_leaf (h : decodePage page = .ok (.leaf entries)) (key : Bytes) :
    lookupStep key page = .ok (.inl (lookupKey entries key)) := by
  obtain ⟨hkind, hpayload⟩ := leafPayload_of_decodePage h
  obtain ⟨range, hlookup, hvalue⟩ := lookupLeaf_eq hpayload key
  simp [lookupStep, lookupPage, hkind, hlookup, hvalue]

theorem lookupStep_internal (h : decodePage page = .ok (.internal keys children)) {child : PageId}
    (hchild : children[childIndex keys key]? = some child) : lookupStep key page = .ok (.inr child) := by
  obtain ⟨hkind, first, separators, hpayload, rfl, rfl⟩ := internalPayload_of_decodePage h
  obtain ⟨found, hlookup, hfound⟩ := lookupInternal_eq hpayload key
  rw [hchild, some.injEq] at hfound
  simp [lookupStep, lookupPage, hkind, hlookup, hfound]

/-- A lookup holds one frame at a time and finds what the subtree holds. -/
theorem getFrom_agrees (faithful : Faithful source store) {h levels : Nat} {t : Subtree} {visited : List PageId}
    (key : Bytes) (ht : Sound store h t) (hlevels : h < levels) (hnew : ∀ p ∈ t.pages, p ∉ visited) :
    faithful.Agrees 1 (getFrom source key levels visited t.page) (.ok (lookupKey t.entries key)) := by
  induction ht, hlevels using Sound.climb generalizing visited with
  | leaf levels t ht =>
    obtain ⟨hread, hpages⟩ := ht.holds
    obtain ⟨page, hpage, hdecode⟩ := bind_eq_ok.mp hread
    have hnot : t.page ∉ visited := hnew _ (by simp [hpages])
    have hstep := faithful.withPage_ofExcept (readPage_eq_ok.mp hpage) (lookupStep key)
    rw [lookupStep_leaf hdecode] at hstep
    exact faithful.ofExcept_bind (failIf_of_not hnot) (faithful.bind_ok hstep (faithful.pure _ _))
  | node h levels t ht hlt ih =>
    obtain ⟨before, sub, after, hroute⟩ := ht.route key
    obtain ⟨page, hpage, hdecode⟩ := bind_eq_ok.mp hroute.read
    have hnot : t.page ∉ visited := hnew _ (by simp [hroute.pages])
    have hnodup := nodup_cons.mp (hroute.pages ▸ ht.nodup)
    have hnew' := new_child hroute.pages hnodup.1 hnew mem_append_cons_self
    have hchild : ((before ++ sub :: after).map Subtree.page)[childIndex
        ((before ++ sub :: after).tail.map Subtree.minimum) key]? = some sub.page := by
      rw [hroute.index]
      exact hroute.getElem?
    have hstep := faithful.withPage_ofExcept (readPage_eq_ok.mp hpage) (lookupStep key)
    rw [lookupStep_internal hdecode hchild] at hstep
    rw [hroute.lookupKey_eq ht.ascending]
    exact faithful.ofExcept_bind (failIf_of_not hnot) (faithful.bind_ok hstep (ih hroute.sound hnew'))

theorem getBy_agrees (faithful : Faithful source store) (htree : Represents store tree map) (key : Bytes) :
    faithful.Agrees 1 (getBy source tree key) (.ok (map.get key)) := by
  obtain ⟨rfl, hempty⟩ | ⟨root, h, pages, rfl, ht⟩ := htree.cases
  · have hnone : map.get key = none := by simp [OrderedMap.get, hempty, lookupKey]
    rw [hnone]
    exact faithful.pure _ _
  · exact getFrom_agrees faithful key ht ht.height_lt fun p _ => not_mem_nil

/-! ## Prefix scans -/

/-- Cutting the ordered entries of a leaf around a prefix keeps the entries that start with it. -/
theorem cut_eq_filter (hasc : KeyAscending entries) :
    ((entries.dropWhile fun e => e.1 < pre).takeWhile fun e => pre.isPrefixOf e.1) =
      entries.filter fun e => pre.isPrefixOf e.1 := by
  have hpairs := keyAscending_iff_pairwise.mp hasc
  have hdrop : (entries.dropWhile fun e => e.1 < pre) = entries.filter fun e => !decide (e.1 < pre) := by
    refine dropWhile_eq_filter (hpairs.imp fun {a b} hab hb => ?_)
    exact decide_eq_true (hab.trans (of_decide_eq_true hb))
  rw [hdrop, takeWhile_eq_filter, List.filter_filter]
  · refine filter_congr fun e _ => ?_
    by_cases hpre : pre.isPrefixOf e.1
    · simp [hpre, le_of_isPrefixOf hpre]
    · simp [hpre]
  · refine List.Pairwise.imp_of_mem (fun {a b} ha _ hab hb => ?_) (hpairs.filter _)
    have hle : pre ≤ a.1 := by simpa using (mem_filter.mp ha).2
    exact isPrefixOf_of_le hle hab.le hb

theorem describes_scanPrefix (store : PageStore) (pre : Bytes) :
    Describes (scanPrefixWalk pre) store fun entries output result =>
      result = .ok (.cont, output ++ entries.filter fun e => pre.isPrefixOf e.1) where
  nil output := by simp
  append := by
    rintro xs ys output output' result hxs rfl
    simp only [ok.injEq, Prod.mk.injEq, true_and] at hxs
    simp [hxs]
  stop := by
    rintro xs ys output result rfl hstop
    exact absurd rfl (hstop _)
  leaf := by
    intro pageId page entries _ hdecode
    obtain ⟨-, hpayload⟩ := leafPayload_of_decodePage hdecode
    exact ⟨entries, decodedView_leaf hdecode, fun output => by simp [scanPrefixWalk, cut_eq_filter hpayload.ascending,
      Walk.order]⟩
  internal := decodedView_internal
  skip := by
    intro child sub output hencloses henters
    have hnone : ∀ e ∈ sub.entries, ¬pre.isPrefixOf e.1 := by
      intro e he hpre
      have hmeets := childIntersectsPrefix_of_isPrefixOf (fun b hb => hencloses.lower b hb e he)
        (fun b hb => hencloses.upper b hb e he) hpre
      simp [scanPrefixWalk, hmeets] at henters
    simp [scanPrefixWalk, Walk.order, filter_eq_nil_iff.mpr hnone]

theorem scanPrefixBy_agrees (faithful : Faithful source store) (htree : Represents store tree map) (pre : Bytes) :
    faithful.Agrees maxTreeHeight (scanPrefixBy source tree pre)
      (.ok (map.entries.filter fun e => pre.isPrefixOf e.1)) := by
  obtain ⟨y, hagrees, rfl⟩ := walkTree_agrees (describes_scanPrefix store pre) faithful htree []
  have hasc : KeyAscending (map.entries.filter fun e => pre.isPrefixOf e.1) := map.ascending.sublist filter_sublist
  have horder : (scanPrefixWalk pre).order map.entries = map.entries := rfl
  rw [horder, nil_append] at hagrees
  refine faithful.bind_ok hagrees (faithful.ofExcept_bind (failIf_of_not (not_not.mpr hasc)) (faithful.pure _ _))

/-! ## Bounded visits -/

/-- Whether a key starts with `pre` and lies inside both bounds. -/
def inRange (pre : Bytes) (lower upper : Bound) (key : Bytes) : Bool := pre.isPrefixOf key && inBounds lower upper key

theorem inRange_iff {lower upper : Bound} :
    inRange pre lower upper key ↔ pre.isPrefixOf key ∧ keySatisfiesLower key lower ∧ keySatisfiesUpper key upper := by
  rw [inRange, inBounds, Bool.and_eq_true, Bool.and_eq_true]

theorem enters_of_inRange {child : ChildRange} {sub : Subtree} (hencloses : Encloses child sub) {lower upper : Bound}
    {e : KeyValue} (he : e ∈ sub.entries) (h : inRange pre lower upper e.1) :
    (childIntersectsPrefix child.lower child.upper pre (prefixUpperBound pre) &&
      childIntersectsBounds child.lower child.upper lower upper) = true := by
  obtain ⟨hpre, hin⟩ : pre.isPrefixOf e.1 ∧ inBounds lower upper e.1 := by simpa [inRange] using h
  have hlow : ∀ bound ∈ child.lower, bound ≤ e.1 := fun b hb => hencloses.lower b hb e he
  have hhigh : ∀ bound ∈ child.upper, e.1 < bound := fun b hb => hencloses.upper b hb e he
  rw [childIntersectsPrefix_of_isPrefixOf hlow hhigh hpre, childIntersectsBounds_of_inBounds hlow hhigh hin]
  rfl

theorem cut_eq_filter_inRange {lower upper : Bound} (hasc : KeyAscending entries) :
    ((((entries.dropWhile fun e => e.1 < pre).takeWhile fun e => pre.isPrefixOf e.1).dropWhile
      fun e => !keySatisfiesLower e.1 lower).takeWhile fun e => keySatisfiesUpper e.1 upper) =
      entries.filter fun e => inRange pre lower upper e.1 := by
  rw [cut_eq_filter hasc]
  have hpairs := (keyAscending_iff_pairwise.mp hasc).filter fun e => pre.isPrefixOf e.1
  rw [dropWhile_eq_filter, takeWhile_eq_filter, List.filter_filter, List.filter_filter]
  · refine filter_congr fun e _ => ?_
    simp only [inRange, inBounds, Bool.not_not]
    ac_rfl
  · refine (hpairs.filter _).imp fun {a b} hab hb => ?_
    exact keySatisfiesUpper_anti hab.le hb
  · refine hpairs.imp fun {a b} hab hb => ?_
    by_contra ha
    have hmono := keySatisfiesLower_mono hab.le (by simpa using ha)
    simp [hmono] at hb

section Visits

variable {σ : Type} (visitor : KeyValue → σ → ControlFlow Unit × σ) {es : List KeyValue}

theorem visitEntries_append (follows : Bytes → Bytes → Bool) (xs ys : List KeyValue) (state : Option Bytes × σ) :
    visitEntries visitor follows (xs ++ ys) state =
      match visitEntries visitor follows xs state with
      | .ok (.cont, state) => visitEntries visitor follows ys state
      | result => result := by
  induction xs generalizing state with
  | nil => rfl
  | cons x xs ih =>
    obtain ⟨last, state⟩ := state
    rw [cons_append, visitEntries, visitEntries]
    by_cases hfollows : ∃ previous ∈ last, ¬follows previous x.1
    · rw [failIf_of hfollows]
      rfl
    · rw [failIf_of_not hfollows, ok_bind, ok_bind]
      rcases visitor x state with ⟨_ | _, state⟩
      · exact ih _
      · rfl

/-- In the right order no key is refused: the entries are simply visited. -/
theorem visitEntries_eq_visit (follows : Bytes → Bytes → Bool) (last : Option Bytes) (state : σ)
    (hpairs : es.Pairwise fun a b => follows a.1 b.1) (hlast : ∀ p ∈ last, ∀ e ∈ es, follows p e.1) :
    ∃ last', visitEntries visitor follows es (last, state) =
      .ok ((visit visitor es state).1, last', (visit visitor es state).2) := by
  induction es generalizing last state with
  | nil => exact ⟨last, rfl⟩
  | cons e es ih =>
    obtain ⟨hnext, hpairs'⟩ := pairwise_cons.mp hpairs
    have hfollows : ¬∃ previous ∈ last, ¬follows previous e.1 := by
      rintro ⟨p, hp, hnot⟩
      exact hnot (hlast p hp e mem_cons_self)
    rw [visitEntries, visit, failIf_bind hfollows]
    rcases visitor e state with ⟨_ | _, state'⟩
    · refine ih (some e.1) state' hpairs' fun p hp e' he' => ?_
      cases hp
      exact hnext e' he'
    · exact ⟨_, rfl⟩

/-- A relation that hands the wanted entries over in order composes. -/
theorem describes_visit {ℓ : Type} {walk : Walk ℓ (Option Bytes × σ)} (follows : Bytes → Bytes → Bool)
    (wanted : KeyValue → Bool)
    (hleaf : ∀ {pageId page entries}, store.read pageId = .ok page → decodePage page = .ok (.leaf entries) →
      ∃ leaf, walk.view page = .ok (.leaf leaf) ∧
        ∀ state, walk.leaf pageId leaf state = visitEntries visitor follows ((walk.order entries).filter wanted) state)
    (hinternal : ∀ {page keys children}, decodePage page = .ok (.internal keys children) →
      walk.view page = .ok (.internal keys children))
    (hskip : ∀ {child sub e}, Encloses child sub → e ∈ sub.entries → wanted e → walk.enters child) :
    Describes walk store fun entries state result =>
      result = visitEntries visitor follows (entries.filter wanted) state where
  nil _ := rfl
  append := by
    intro xs ys state state' result hxs hys
    rw [filter_append, visitEntries_append, ← hxs]
    exact hys
  stop := by
    rintro xs ys state result rfl hstop
    rw [filter_append, visitEntries_append]
    split
    · rename_i state' hcont
      exact absurd hcont (hstop state')
    · rfl
  leaf := hleaf
  internal := hinternal
  skip := by
    intro child sub state hencloses henters
    have hnone : ∀ e ∈ walk.order sub.entries, ¬wanted e := by
      intro e he hwanted
      rw [hskip hencloses ((order_perm walk _).mem_iff.mp he) hwanted] at henters
      cases henters
    rw [filter_eq_nil_iff.mpr hnone]
    rfl

/-- Going down the entries of a leaf visits those in the range, from the last to the first. -/
theorem visitLeafReverse_eq {lower upper : Bound} (state : Option Bytes × σ)
    (hpairs : es.Pairwise fun a b => b.1 < a.1) :
    visitLeafReverse visitor pre lower upper es state =
      visitEntries visitor (fun previous key => key < previous)
        (es.filter fun e => inRange pre lower upper e.1) state := by
  induction es generalizing state with
  | nil => rfl
  | cons e es ih =>
    obtain ⟨hnext, hpairs'⟩ := pairwise_cons.mp hpairs
    obtain ⟨last, state⟩ := state
    rw [visitLeafReverse]
    -- below the prefix, and below the lower bound, nothing is left to visit
    have hnone (hout : ∀ e' ∈ e :: es, ¬inRange pre lower upper e'.1) :
        (.ok (.cont, last, state) : TreeM (ControlFlow Unit × Option Bytes × σ)) =
          visitEntries visitor (fun previous key => key < previous)
            ((e :: es).filter fun e => inRange pre lower upper e.1) (last, state) := by
      rw [filter_eq_nil_iff.mpr hout]
      rfl
    by_cases hbelow : e.1 < pre
    · rw [if_pos hbelow]
      refine hnone fun e' he' hin => ?_
      have hle : pre ≤ e'.1 := le_of_isPrefixOf (inRange_iff.mp hin).1
      rcases mem_cons.mp he' with rfl | he'
      · exact absurd hbelow hle.not_gt
      · exact absurd ((hnext e' he').trans hbelow) hle.not_gt
    · rw [if_neg hbelow]
      have hskip : (!pre.isPrefixOf e.1 || !keySatisfiesUpper e.1 upper) = true ↔
          ¬(pre.isPrefixOf e.1 = true ∧ keySatisfiesUpper e.1 upper = true) := by
        rw [Bool.or_eq_true, Bool.not_eq_true', Bool.not_eq_true', not_and_or, Bool.not_eq_true, Bool.not_eq_true]
      by_cases hwanted : pre.isPrefixOf e.1 = true ∧ keySatisfiesUpper e.1 upper = true
      · rw [if_neg (fun h => hskip.mp h hwanted)]
        by_cases hlower : keySatisfiesLower e.1 lower
        · have hin : inRange pre lower upper e.1 := inRange_iff.mpr ⟨hwanted.1, hlower, hwanted.2⟩
          have hfilter : (e :: es).filter (fun e => inRange pre lower upper e.1) =
              e :: es.filter fun e => inRange pre lower upper e.1 := filter_cons_of_pos hin
          rw [hfilter, visitEntries]
          simp only [hlower, Bool.not_true, Bool.false_eq_true, if_false, decide_eq_true_eq, not_lt]
          congr 1
          funext _
          rcases visitor e state with ⟨_ | _, state'⟩
          · exact ih _ hpairs'
          · rfl
        · simp only [hlower, Bool.not_false, if_true]
          refine hnone fun e' he' hin => ?_
          have hlow : keySatisfiesLower e'.1 lower := (inRange_iff.mp hin).2.1
          rcases mem_cons.mp he' with rfl | he'
          · exact hlower hlow
          · exact hlower (keySatisfiesLower_mono (hnext e' he').le hlow)
      · have hout : ¬inRange pre lower upper e.1 := fun hin =>
          hwanted ⟨(inRange_iff.mp hin).1, (inRange_iff.mp hin).2.2⟩
        have hfilter : (e :: es).filter (fun e => inRange pre lower upper e.1) =
            es.filter fun e => inRange pre lower upper e.1 := filter_cons_of_neg hout
        rw [if_pos (hskip.mpr hwanted), ih _ hpairs', hfilter]

theorem describes_visitPrefixRange (store : PageStore) (pre : Bytes) (lower upper : Bound) :
    Describes (visitPrefixRangeWalk visitor pre lower upper) store fun entries state result =>
      result = visitEntries visitor (fun previous key => previous < key)
        (entries.filter fun e => inRange pre lower upper e.1) state := by
  refine describes_visit visitor _ _ (fun {pageId page entries} _ hdecode => ?_) borrowedView_internal
    fun hencloses he hin => enters_of_inRange hencloses he hin
  obtain ⟨leaf, hview, rfl, -⟩ := borrowedView_leaf hdecode
  obtain ⟨-, hpayload⟩ := leafPayload_of_decodePage hdecode
  refine ⟨leaf, hview, fun state => ?_⟩
  simp only [visitPrefixRangeWalk, Walk.order, cut_eq_filter_inRange hpayload.ascending, Bool.false_eq_true, if_false]

theorem describes_visitPrefixRangeReverse (store : PageStore) (pre : Bytes) (lower upper : Bound) :
    Describes (visitPrefixRangeReverseWalk visitor pre lower upper) store fun entries state result =>
      result = visitEntries visitor (fun previous key => key < previous)
        (entries.filter fun e => inRange pre lower upper e.1) state := by
  refine describes_visit visitor _ _ (fun {pageId page entries} _ hdecode => ?_) decodedView_internal
    fun hencloses he hin => enters_of_inRange hencloses he hin
  obtain ⟨-, hpayload⟩ := leafPayload_of_decodePage hdecode
  refine ⟨entries, decodedView_leaf hdecode, fun state => ?_⟩
  have hpairs : entries.reverse.Pairwise fun a b => b.1 < a.1 :=
    pairwise_reverse.mpr (keyAscending_iff_pairwise.mp hpayload.ascending)
  simp only [visitPrefixRangeReverseWalk, Walk.order, visitLeafReverse_eq visitor state hpairs, if_true]

/-- A visit hands over the entries of the range in key order. -/
theorem visitPrefixRangeCached_agrees (htree : Represents store tree map) (pre : Bytes) (lower upper : Bound)
    (state : σ) : PoolAgrees store maxTreeHeight (visitPrefixRangeCached visitor tree store pre lower upper state)
      (.ok (visit visitor (map.entries.filter fun e => inRange pre lower upper e.1) state)) := by
  obtain ⟨y, hagrees, rfl⟩ := walkTree_agrees (describes_visitPrefixRange visitor store pre lower upper)
    (cachedFaithful store) htree (none, state)
  have hpairs : (map.entries.filter fun e => inRange pre lower upper e.1).Pairwise fun a b => decide (a.1 < b.1) :=
    ((keyAscending_iff_pairwise.mp map.ascending).filter _).imp decide_eq_true
  obtain ⟨last, hvisit⟩ := visitEntries_eq_visit visitor (fun previous key => previous < key) none state hpairs
    (by simp)
  have horder : (visitPrefixRangeWalk visitor pre lower upper).order map.entries = map.entries := rfl
  rw [horder, hvisit] at hagrees
  exact (cachedFaithful store).bind_ok hagrees ((cachedFaithful store).pure _ _)

/-- The reverse visit hands over the same entries in reverse. -/
theorem visitPrefixRangeCachedReverse_agrees (htree : Represents store tree map) (pre : Bytes) (lower upper : Bound)
    (state : σ) :
    PoolAgrees store maxTreeHeight (visitPrefixRangeCachedReverse visitor tree store pre lower upper state)
      (.ok (visit visitor (map.entries.filter fun e => inRange pre lower upper e.1).reverse state)) := by
  obtain ⟨y, hagrees, rfl⟩ := walkTree_agrees (describes_visitPrefixRangeReverse visitor store pre lower upper)
    (cachedFaithful store) htree (none, state)
  have hpairs : (map.entries.filter fun e => inRange pre lower upper e.1).reverse.Pairwise
      fun a b => decide (b.1 < a.1) :=
    pairwise_reverse.mpr (((keyAscending_iff_pairwise.mp map.ascending).filter _).imp decide_eq_true)
  obtain ⟨last, hvisit⟩ := visitEntries_eq_visit visitor (fun previous key => key < previous) none state hpairs
    (by simp)
  have horder : (visitPrefixRangeReverseWalk visitor pre lower upper).order map.entries = map.entries.reverse := rfl
  rw [horder, filter_reverse, hvisit] at hagrees
  exact (cachedFaithful store).bind_ok hagrees ((cachedFaithful store).pure _ _)

end Visits

/-! ## Planned segments -/

/-- A segment describes the leaf that holds `entries`. -/
structure Planned (store : PageStore) (root : PageId) (lower upper : Bound) (segment : BTreeSegment)
    (entries : List KeyValue) : Prop where
  root : segment.root = root
  lower : segment.lower = lower
  upper : segment.upper = upper
  leaf : ∃ page, store.read segment.page = .ok page ∧ decodePage page = .ok (.leaf entries)
  minimum : entries.head?.map Prod.fst = some segment.minimum
  maximum : entries.getLast?.map Prod.fst = some segment.maximum
  count : entries.length = segment.entryCount

/-- A plan of the leaves over `entries`: each segment with its leaf, and nothing in the range left out. -/
structure PlanOf (store : PageStore) (root : PageId) (lower upper : Bound) (entries : List KeyValue)
    (leaves : List (BTreeSegment × List KeyValue)) : Prop where
  planned : ∀ leaf ∈ leaves, Planned store root lower upper leaf.1 leaf.2
  covers : (leaves.flatMap fun leaf => leaf.2.filter fun e => inBounds lower upper e.1) =
    entries.filter fun e => inBounds lower upper e.1

/-- What both planners do to their output over `entries`. -/
def Plans (store : PageStore) (root : PageId) (lower upper : Bound) (entries : List KeyValue)
    (output : List BTreeSegment) (result : TreeM (ControlFlow Unit × List BTreeSegment)) : Prop :=
  ∃ leaves, result = .ok (.cont, output ++ leaves.map Prod.fst) ∧ PlanOf store root lower upper entries leaves

variable {root : PageId} {lower upper : Bound}

theorem plans_of_none (output : List BTreeSegment) (hnone : ∀ e ∈ entries, ¬inBounds lower upper e.1) :
    Plans store root lower upper entries output (.ok (.cont, output)) :=
  ⟨[], by simp, by simp, by rw [filter_eq_nil_iff.mpr hnone]; rfl⟩

/-- One leaf is planned when it meets the range; otherwise it holds nothing of it. -/
theorem plans_leaf (output : List BTreeSegment) (hasc : KeyAscending entries)
    (hplanned : Planned store root lower upper segment entries) :
    Plans store root lower upper entries output
      (.ok (.cont, if segmentIntersectsBounds segment.minimum segment.maximum lower upper then output ++ [segment]
        else output)) := by
  by_cases hmeets : segmentIntersectsBounds segment.minimum segment.maximum lower upper
  · exact ⟨[(segment, entries)], by simp [hmeets], by simpa using hplanned, by simp⟩
  · rw [if_neg hmeets]
    refine plans_of_none output fun e he hin => hmeets ?_
    obtain ⟨first, hfirst, hmin⟩ := map_eq_some_iff.mp hplanned.minimum
    obtain ⟨last, hlast, hmax⟩ := map_eq_some_iff.mp hplanned.maximum
    let t : Subtree := ⟨root, entries, []⟩
    have htmin : t.minimum = segment.minimum := by simp [Subtree.minimum, t, hfirst, hmin]
    have htmax : t.maximum = segment.maximum := by simp [Subtree.maximum, t, hlast, hmax]
    rw [← htmin, ← htmax]
    exact segmentIntersectsBounds_of_inBounds (minimum_le hasc e he) (le_maximum hasc e he) hin

theorem describes_plan {ℓ : Type} {walk : Walk ℓ (List BTreeSegment)}
    (hleaf : ∀ {pageId page entries}, store.read pageId = .ok page → decodePage page = .ok (.leaf entries) →
      ∃ leaf, walk.view page = .ok (.leaf leaf) ∧
        ∀ output, Plans store root lower upper (walk.order entries) output (walk.leaf pageId leaf output))
    (hinternal : ∀ {page keys children}, decodePage page = .ok (.internal keys children) →
      walk.view page = .ok (.internal keys children))
    (henters : ∀ child, walk.enters child = childIntersectsBounds child.lower child.upper lower upper) :
    Describes walk store (Plans store root lower upper) where
  nil output := plans_of_none output (by simp)
  append := by
    rintro xs ys output output' result ⟨leaves, hout, hplan⟩ ⟨leaves', rfl, hplan'⟩
    simp only [ok.injEq, Prod.mk.injEq, true_and] at hout
    refine ⟨leaves ++ leaves', by simp [hout], ?_, ?_⟩
    · intro leaf hmem
      rcases mem_append.mp hmem with hmem | hmem
      · exact hplan.planned leaf hmem
      · exact hplan'.planned leaf hmem
    · rw [flatMap_append, hplan.covers, hplan'.covers, filter_append]
  stop := by
    rintro xs ys output result ⟨leaves, rfl, -⟩ hstop
    exact absurd rfl (hstop _)
  leaf := hleaf
  internal := hinternal
  skip := by
    intro child sub output hencloses hskip
    refine plans_of_none output fun e he hin => ?_
    have he' := (order_perm walk _).mem_iff.mp he
    rw [henters, childIntersectsBounds_of_inBounds (fun b hb => hencloses.lower b hb e he')
      (fun b hb => hencloses.upper b hb e he') hin] at hskip
    cases hskip

theorem describes_planRangeSegments (store : PageStore) (root : PageId) (lower upper : Bound) :
    Describes (planRangeSegmentsWalk root lower upper) store (Plans store root lower upper) := by
  refine describes_plan (fun {pageId page entries} hread hdecode => ?_) decodedView_internal fun _ => rfl
  obtain ⟨-, hpayload⟩ := leafPayload_of_decodePage hdecode
  have hfirst := head?_eq_some_head hpayload.ne_nil
  have hlast := getLast?_eq_some_getLast hpayload.ne_nil
  refine ⟨entries, decodedView_leaf hdecode, fun output => ?_⟩
  have hplanned : Planned store root lower upper
      ⟨root, pageId, (entries.head hpayload.ne_nil).1, (entries.getLast hpayload.ne_nil).1, entries.length, lower,
        upper⟩
      entries :=
    ⟨rfl, rfl, rfl, ⟨page, hread, hdecode⟩, by simp [hfirst], by simp [hlast], rfl⟩
  have hplans := plans_leaf output hpayload.ascending hplanned
  simpa [planRangeSegmentsWalk, Walk.order, hfirst, hlast, okOr] using hplans

theorem describes_planRangeSegmentsCached (store : PageStore) (root : PageId) (lower upper : Bound) :
    Describes (planRangeSegmentsCachedWalk root lower upper) store (Plans store root lower upper) := by
  refine describes_plan (fun {pageId page entries} hread hdecode => ?_) borrowedView_internal fun _ => rfl
  obtain ⟨leaf, hview, -, hcount, hmin, hmax⟩ := borrowedView_leaf hdecode
  obtain ⟨-, hpayload⟩ := leafPayload_of_decodePage hdecode
  refine ⟨leaf, hview, fun output => ?_⟩
  have hplanned : Planned store root lower upper
      ⟨root, pageId, leaf.minimum, leaf.maximum, leaf.count, lower, upper⟩ entries :=
    ⟨rfl, rfl, rfl, ⟨page, hread, hdecode⟩, hmin, hmax, hcount.symm⟩
  exact plans_leaf output hpayload.ascending hplanned

/-- A plan for a tree: of its root, over all its entries. -/
def TreePlan (store : PageStore) (tree : BTree) (lower upper : Bound) (map : OrderedMap Bytes Bytes)
    (leaves : List (BTreeSegment × List KeyValue)) : Prop :=
  match tree.root with
  | none => leaves = [] ∧ map.entries = []
  | some root => PlanOf store root lower upper map.entries leaves

/-- Without a key in the range there is nothing to plan. -/
theorem treePlan_nil (htree : Represents store tree map)
    (hnone : tree.root.isSome → ∀ e ∈ map.entries, ¬inBounds lower upper e.1) :
      TreePlan store tree lower upper map [] := by
  obtain ⟨rfl, hempty⟩ | ⟨root, h, pages, rfl, ht⟩ := htree.cases
  · exact ⟨rfl, hempty⟩
  · exact ⟨by simp, by rw [filter_eq_nil_iff.mpr (hnone rfl)]; rfl⟩

theorem planRangeSegments_eq_ok (htree : Represents store tree map) (lower upper : Bound) :
    ∃ leaves, tree.planRangeSegments store lower upper = .ok (leaves.map Prod.fst) ∧
      TreePlan store tree lower upper map leaves := by
  unfold planRangeSegments
  cases hroot : tree.root with
  | none => exact ⟨[], rfl, treePlan_nil htree (by simp [hroot])⟩
  | some root =>
    by_cases hempty : rangeIsEmpty lower upper
    · refine ⟨[], by simp [hempty], treePlan_nil htree fun _ e _ => not_inBounds_of_rangeIsEmpty hempty e.1⟩
    · obtain ⟨y, hagrees, leaves, rfl, hplan⟩ := walkTree_agrees (describes_planRangeSegments store root lower upper)
        (directFaithful store) htree []
      refine ⟨leaves, ?_, by unfold TreePlan; rw [hroot]; exact hplan⟩
      have hwalk : walkTree (direct store) (planRangeSegmentsWalk root lower upper) tree [] =
        .ok (.cont, [] ++ leaves.map Prod.fst) := hagrees
      simp [hempty, hwalk]

theorem planRangeSegmentsCached_agrees (htree : Represents store tree map) (lower upper : Bound) :
    ∃ leaves, PoolAgrees store maxTreeHeight (tree.planRangeSegmentsCached store lower upper)
        (.ok (leaves.map Prod.fst)) ∧ TreePlan store tree lower upper map leaves := by
  unfold planRangeSegmentsCached
  cases hroot : tree.root with
  | none => exact ⟨[], (cachedFaithful store).pure _ _, treePlan_nil htree (by simp [hroot])⟩
  | some root =>
    by_cases hempty : rangeIsEmpty lower upper
    · refine ⟨[], ?_, treePlan_nil htree fun _ e _ => not_inBounds_of_rangeIsEmpty hempty e.1⟩
      simp only [hempty, if_true]
      exact (cachedFaithful store).pure _ _
    · obtain ⟨y, hagrees, leaves, rfl, hplan⟩ := walkTree_agrees
        (describes_planRangeSegmentsCached store root lower upper)
        (cachedFaithful store) htree []
      refine ⟨leaves, ?_, by unfold TreePlan; rw [hroot]; exact hplan⟩
      simp only [hempty, Bool.false_eq_true, if_false]
      exact (cachedFaithful store).bind_ok hagrees ((cachedFaithful store).pure _ _)

/-! ## Executing a plan -/

theorem segmentEntries_eq (hplanned : Planned store root lower upper segment entries)
    (hdecode : decodePage page = .ok (.leaf entries)) :
    segmentEntries segment page = .ok (entries.filter fun e => inBounds lower upper e.1) := by
  obtain ⟨first, hfirst, hmin⟩ := map_eq_some_iff.mp hplanned.minimum
  obtain ⟨last, hlast, hmax⟩ := map_eq_some_iff.mp hplanned.maximum
  simp [segmentEntries, hdecode, hfirst, hlast, okOr, hmin, hmax, hplanned.count, hplanned.lower,
    hplanned.upper, failIf]

theorem borrowedSegmentEntries_eq (hplanned : Planned store root lower upper segment entries)
    (hdecode : decodePage page = .ok (.leaf entries)) :
    borrowedSegmentEntries segment page = .ok (entries.filter fun e => inBounds lower upper e.1) := by
  obtain ⟨hkind, hpayload⟩ := leafPayload_of_decodePage hdecode
  obtain ⟨leaf, hleaf, hentries, hcount, hmin, hmax⟩ := borrowedLeaf_decode hpayload
  rw [hplanned.minimum, some.injEq] at hmin
  rw [hplanned.maximum, some.injEq] at hmax
  simp [borrowedSegmentEntries, hkind, hleaf, failIf, hmin, hmax, hcount, hplanned.count, hentries,
    hplanned.lower, hplanned.upper]

theorem withSegment_agrees (faithful : Faithful source store) {α : Type} {body : Page → TreeM α}
    {y : TreeM α} (hroot : tree.root = some root)
    (hplanned : Planned store root lower upper segment entries)
    (hbody : ∀ page, decodePage page = .ok (.leaf entries) → body page = y) :
    faithful.Agrees 1 (withSegment source tree segment body) y := by
  obtain ⟨page, hread, hdecode⟩ := hplanned.leaf
  have hown : ¬tree.root ≠ some segment.root := by rw [hplanned.root, hroot]; simp
  have hpage := faithful.withPage_ofExcept hread body
  rw [hbody page hdecode] at hpage
  exact faithful.ofExcept_bind (failIf_of_not hown) hpage

section Execute

variable {ε σ : Type} (visitor : KeyValue → σ → ControlFlow ε × σ) {leaves : List (BTreeSegment × List KeyValue)}

/-- Execute segments one after another and put their entries together. -/
def scanSegments (scan : BTreeSegment → m (List KeyValue)) : List BTreeSegment → m (List KeyValue)
  | [] => return []
  | segment :: segments => do
    let entries ← scan segment
    let rest ← scanSegments scan segments
    return entries ++ rest

/-- Visit segments one after another, up to the first break. -/
def visitSegmentsCached (tree : BTree) (store : PageStore) : List BTreeSegment → σ → Cached (ControlFlow ε × σ)
  | [], state => return (.cont, state)
  | segment :: segments, state => do
    match ← visitPlannedSegmentCached visitor tree store segment state with
    | (.brk value, state) => return (.brk value, state)
    | (.cont, state) => visitSegmentsCached tree store segments state

theorem scanSegments_agrees (faithful : Faithful source store) (hroot : tree.root = some root)
    (hplanned : ∀ leaf ∈ leaves, Planned store root lower upper leaf.1 leaf.2) :
    faithful.Agrees 1
      (scanSegments (fun segment => withSegment source tree segment (segmentEntries segment)) (leaves.map Prod.fst))
      (.ok (leaves.flatMap fun leaf => leaf.2.filter fun e => inBounds lower upper e.1)) := by
  induction leaves with
  | nil => exact faithful.pure _ _
  | cons leaf leaves ih =>
    obtain ⟨hleaf, hleaves⟩ := forall_mem_cons.mp hplanned
    exact faithful.bind_ok (withSegment_agrees faithful hroot hleaf fun page h => segmentEntries_eq hleaf h)
      (faithful.bind_ok (ih hleaves) (faithful.pure _ _))

theorem visitPlannedSegmentCached_agrees (hroot : tree.root = some root)
    (hplanned : Planned store root lower upper segment entries) (state : σ) :
    PoolAgrees store 1 (visitPlannedSegmentCached visitor tree store segment state)
      (.ok (visit visitor (entries.filter fun e => inBounds lower upper e.1) state)) := by
  refine withSegment_agrees (cachedFaithful store) hroot hplanned fun page hdecode => ?_
  simp [borrowedSegmentEntries_eq hplanned hdecode]

theorem visitSegmentsCached_agrees (hroot : tree.root = some root)
    (hplanned : ∀ leaf ∈ leaves, Planned store root lower upper leaf.1 leaf.2) (state : σ) :
    PoolAgrees store 1 (visitSegmentsCached visitor tree store (leaves.map Prod.fst) state)
      (.ok (visit visitor (leaves.flatMap fun leaf => leaf.2.filter fun e => inBounds lower upper e.1) state)) := by
  induction leaves generalizing state with
  | nil => exact (cachedFaithful store).pure _ _
  | cons leaf leaves ih =>
    obtain ⟨hleaf, hleaves⟩ := forall_mem_cons.mp hplanned
    have hfirst := visitPlannedSegmentCached_agrees visitor hroot hleaf state
    rw [flatMap_cons, visit_append]
    rcases hvisit : visit visitor (leaf.2.filter fun e => inBounds lower upper e.1) state with ⟨_ | value, state'⟩
    · rw [hvisit] at hfirst
      exact (cachedFaithful store).bind_ok hfirst (ih hleaves state')
    · rw [hvisit] at hfirst
      exact (cachedFaithful store).bind_ok hfirst ((cachedFaithful store).pure _ _)

end Execute

end Hyphae.BTree
