import Hyphae.BTree.BorrowedVisit

/-!
# Every reader agrees with the scan

What the readers of a tree return, in terms of the list of entries a full scan returns.
-/

namespace Hyphae.BTree

open Lib List

open BorrowedRangeVisitor

variable {map : OrderedMap Bytes Bytes} {store : PageStore} {tree : BTree}

/-- The entries inside two bounds. -/
def between (lower upper : Bound) (entries : List KeyValue) : List KeyValue :=
  entries.filter fun e => inBounds lower upper e.1

/-- The entries under a prefix and inside two bounds. -/
def betweenUnder (pre : Bytes) (lower upper : Bound) (entries : List KeyValue) : List KeyValue :=
  entries.filter fun e => inRange pre lower upper e.1

/-- Executing the segments one after another covers `wanted`. -/
structure SegmentsAgree (store : PageStore) (tree : BTree) (segments : List BTreeSegment) (wanted : List KeyValue) :
    Prop where
  scan : scanSegments (tree.scanPlannedSegment store) segments = .ok wanted
  scanCached : PoolAgrees store 1 (scanSegments (tree.scanPlannedSegmentCached store) segments) (.ok wanted)
  visitCached : ∀ {ε σ : Type} (visitor : KeyValue → σ → ControlFlow ε × σ) s,
    ∃ result, HandsOver visitor s wanted result ∧
      PoolAgrees store 1 (visitSegmentsCached visitor tree store segments s) (.ok result)

/-- The readers of a tree agree with filtering `entries`. A reader through the buffer pool does so from every
coherent pool unless handles hold all frames of a partition, which cannot happen while every partition has room
for one frame a level of the tree. -/
structure ReadersAgree (store : PageStore) (tree : BTree) (entries : List KeyValue) : Prop where
  get : ∀ key, tree.get store key = .ok (lookupKey entries key)
  getCached : ∀ key, PoolAgrees store 1 (tree.getCached store key) (.ok (lookupKey entries key))
  scanPrefix : ∀ pre, tree.scanPrefix store pre = .ok (entries.filter fun e => pre.isPrefixOf e.1)
  scanPrefixCached : ∀ pre, PoolAgrees store maxTreeHeight (tree.scanPrefixCached store pre)
    (.ok (entries.filter fun e => pre.isPrefixOf e.1))
  visitPrefixRange : ∀ {σ : Type} (visitor : KeyValue → σ → ControlFlow Unit × σ) pre lower upper s,
    ∃ result, HandsOver visitor s (betweenUnder pre lower upper entries) result ∧
      PoolAgrees store maxTreeHeight (tree.visitPrefixRangeCached visitor store pre lower upper s) (.ok result)
  visitPrefixRangeReverse : ∀ {σ : Type} (visitor : KeyValue → σ → ControlFlow Unit × σ) pre lower upper s,
    ∃ result, HandsOver visitor s (betweenUnder pre lower upper entries).reverse result ∧
      PoolAgrees store maxTreeHeight (tree.visitPrefixRangeCachedReverse visitor store pre lower upper s) (.ok result)
  visitRangeBorrowed : ∀ {σ : Type} (v : BorrowedRangeVisitor σ) user, v.store = store →
    ∃ delivered ending p, v.Served ⟨0, 0, user⟩ delivered ending p ∧
      delivered ++ ending.pending <+: between v.lower v.upper entries ∧
      (ending = .exhausted → delivered = between v.lower v.upper entries) ∧
      ((∀ user, (v.control user).1 = .cont) →
        (between v.lower v.upper entries).length ≤ v.limits.maximumEntries →
        BorrowedRangeVisitor.deliveredBytes (between v.lower v.upper entries) ≤ v.limits.maximumBytes →
        ending = .exhausted ∨ ending = .stopped) ∧
      tree.visitRangeBorrowedWithControl store v.lower v.upper v.limits v.control v.visitor user =
        BorrowedRangeVisitor.Ending.report p ending
  planned : ∀ lower upper, ∃ segments, tree.planRangeSegments store lower upper = .ok segments ∧
    SegmentsAgree store tree segments (between lower upper entries)
  plannedCached : ∀ lower upper, ∃ segments,
    PoolAgrees store maxTreeHeight (tree.planRangeSegmentsCached store lower upper) (.ok segments) ∧
    SegmentsAgree store tree segments (between lower upper entries)

theorem segmentsAgree_of_treePlan {lower upper : Bound} {leaves : List (BTreeSegment × List KeyValue)}
    (hplan : TreePlan store tree lower upper map leaves) :
    SegmentsAgree store tree (leaves.map Prod.fst) (between lower upper map.entries) := by
  unfold TreePlan at hplan
  cases hroot : tree.root with
  | none =>
    rw [hroot] at hplan
    obtain ⟨rfl, hempty⟩ := hplan
    rw [hempty]
    exact ⟨rfl, (cachedFaithful store).pure _ _, fun visitor s =>
      ⟨_, visit_handsOver visitor [] s, (cachedFaithful store).pure _ _⟩⟩
  | some root =>
    rw [hroot] at hplan
    obtain ⟨hplanned, hcovers⟩ := hplan
    refine ⟨?_, ?_, fun visitor s => ⟨_, visit_handsOver visitor _ s, ?_⟩⟩
    all_goals rw [between, ← hcovers]
    · exact scanSegments_agrees (directFaithful store) hroot hplanned
    · exact scanSegments_agrees (cachedFaithful store) hroot hplanned
    · exact visitSegmentsCached_agrees visitor hroot hplanned s

/-- A visit the control never cancels and whose limits hold all entries of the range is not cut short. -/
theorem ending_of_admitted {σ : Type} {v : BorrowedRangeVisitor σ} {user : σ} {delivered wanted : List KeyValue}
    {ending : Ending} {p : Progress σ} (hserved : v.Served ⟨0, 0, user⟩ delivered ending p)
    (hpre : delivered ++ ending.pending <+: wanted) (hcontrol : ∀ user, (v.control user).1 = .cont)
    (hentries : wanted.length ≤ v.limits.maximumEntries)
    (hbytes : deliveredBytes wanted ≤ v.limits.maximumBytes) :
    ending = .exhausted ∨ ending = .stopped := by
  cases ending with
  | exhausted => exact .inl rfl
  | stopped => exact .inr rfl
  | cancelled => exact absurd hserved (Served.not_cancelled hcontrol)
  | refused e =>
    obtain ⟨rest, rfl⟩ := hpre
    have hexceeds := hserved.exceeds
    simp only [deliveredBytes, Ending.pending, length_append, length_cons,
      length_nil, map_append, sum_append, map_cons, map_nil, sum_cons,
      sum_nil] at hentries hbytes hexceeds
    omega

theorem readersAgree_of_represents (htree : Represents store tree map) : ReadersAgree store tree map.entries where
  get key := getBy_agrees (directFaithful store) htree key
  getCached key := getBy_agrees (cachedFaithful store) htree key
  scanPrefix pre := scanPrefixBy_agrees (directFaithful store) htree pre
  scanPrefixCached pre := scanPrefixBy_agrees (cachedFaithful store) htree pre
  visitPrefixRange visitor pre lower upper s :=
    ⟨_, visit_handsOver visitor _ s, visitPrefixRangeCached_agrees visitor htree pre lower upper s⟩
  visitPrefixRangeReverse visitor pre lower upper s :=
    ⟨_, visit_handsOver visitor _ s, visitPrefixRangeCachedReverse_agrees visitor htree pre lower upper s⟩
  visitRangeBorrowed v user hstore := by
    subst hstore
    obtain ⟨delivered, ending, p, hserved, hpre, hall, hreport⟩ := visitRangeBorrowedWithControl_serves htree user
    exact ⟨delivered, ending, p, hserved, hpre, hall, ending_of_admitted hserved hpre, hreport⟩
  planned lower upper := by
    obtain ⟨leaves, hsegments, hplan⟩ := planRangeSegments_eq_ok htree lower upper
    exact ⟨_, hsegments, segmentsAgree_of_treePlan hplan⟩
  plannedCached lower upper := by
    obtain ⟨leaves, hsegments, hplan⟩ := planRangeSegmentsCached_agrees htree lower upper
    exact ⟨_, hsegments, segmentsAgree_of_treePlan hplan⟩

/-- On every tree that validates, every reader agrees with filtering the full scan. -/
theorem readers_agree_with_scan {store : PageStore} {tree : BTree} {n : Nat} (hvalid : tree.validate store = .ok n) :
    ∃ entries, tree.scan store = .ok entries ∧ KeyAscending entries ∧ ReadersAgree store tree entries := by
  obtain ⟨map, htree, -⟩ := validate_eq_ok.mp hvalid
  exact ⟨map.entries, scan_eq_ok htree, map.ascending, readersAgree_of_represents htree⟩

/-- A store of two leaves with one entry each, under one internal node. -/
def twoLeavesStore : PageStore :=
  ((do
    let left ← appendNode ⟨1, by decide, by decide⟩ (.leaf [([1], [1])])
    let right ← appendNode ⟨1, by decide, by decide⟩ (.leaf [([2], [2])])
    appendNode ⟨1, by decide, by decide⟩ (.internal [[2]] [left, right]) : Write PageId)
    (PageStore.create ⟨1, by decide, by decide⟩)).state

def twoLeavesTree : BTree := .ofRoot ⟨3, by decide, by decide⟩

theorem readers_agree_with_scan_twoLeaves :
    twoLeavesTree.validate twoLeavesStore = .ok 2 ∧
      ∃ entries, twoLeavesTree.scan twoLeavesStore = .ok entries ∧ KeyAscending entries ∧
        ReadersAgree twoLeavesStore twoLeavesTree entries := by
  have hvalid : twoLeavesTree.validate twoLeavesStore = .ok 2 := rfl
  exact ⟨hvalid, readers_agree_with_scan hvalid⟩

/-- A walk holds a frame for every level it is on, so a pool of one frame cannot serve a tree of two levels;
and the borrowed visitor hands nothing over that its limits do not admit. -/
theorem readers_of_valid_tree_fail :
    twoLeavesTree.validate twoLeavesStore = .ok 2 ∧
    (∃ pool pool', BufferPool.new 1 1 = .ok pool ∧ pool.Coherent twoLeavesStore ∧
      twoLeavesTree.scanPrefixCached twoLeavesStore [] pool =
        .error (.bufferPool .partitionExhausted) pool') ∧
    twoLeavesTree.visitRangeBorrowedWithControl twoLeavesStore .unbounded .unbounded
        ⟨1, 1, by decide, by decide⟩ (fun calls => (.cont, calls)) (fun entry calls => (.cont, calls ++ [entry])) [] =
      .error .limitExceeded ([] : List KeyValue) := by
  refine ⟨rfl, ⟨_, _, rfl, ?_, rfl⟩, rfl⟩
  intro partition hpartition entry hentry
  obtain rfl : partition = ⟨1, [], nodup_nil⟩ := by simpa using hpartition
  cases hentry

end Hyphae.BTree
