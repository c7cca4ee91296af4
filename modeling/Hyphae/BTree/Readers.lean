import Hyphae.BTree.Range
import Hyphae.BTree.Tree

/-!
# Readers

Point lookups, prefix scans, bounded visits in both directions and planned segments.
Each reads its pages straight from the store or through the buffer pool; the range
readers walk the tree with one recursion and differ in the children they enter, in how
they decode a leaf and in what they do with it.
-/

namespace Hyphae.BTree

open Lib

/-- Where a reader gets its pages. -/
structure PageSource (m : Type → Type) where
  withPage {α : Type} : PageId → (Page → m α) → m α

/-- Code that reads pages through the buffer pool. -/
abbrev Cached := EStateM BTreeError BufferPool

/-- Pages read and verified one by one. -/
def direct (store : PageStore) : PageSource (TreeM) where
  withPage pageId body := do body (← readPage store pageId)

/-- Pages kept in the buffer pool; the frame is held while `body` runs. -/
def cached (store : PageStore) : PageSource Cached where
  withPage pageId body := BufferPool.withFrame .bufferPool store pageId body

/-! ## Point lookup -/

inductive LookupStep
  | descend (child : PageId)
  | value (range : Option (Nat × Nat))

/-- The ascending walk over the entries of a leaf; `body` is the payload after the header. -/
def lookupLeafEntries (target body : Bytes) : (count : Nat) → (previousKey : Option Bytes) → (cursor : Bytes) →
    TreeM LookupStep
  | 0, _, cursor => do
    cursorFinish cursor
    return .value none
  | count + 1, previousKey, cursor => do
    let (keyLength, cursor) ← cursorLength cursor
    let (valueLength, cursor) ← cursorLength cursor
    .failIf (maxKeySize < keyLength) .keyTooLarge
    let (key, cursor) ← cursorTake keyLength cursor
    .failIf (∃ previous ∈ previousKey, key ≤ previous) .noncanonicalKeyOrder
    if target < key then return .value none
    else
      let valueStart := body.length - cursor.length
      let (_, cursor) ← cursorTake valueLength cursor
      if key = target then
        return .value (some (leafHeaderSize + valueStart, leafHeaderSize + valueStart + valueLength))
      else lookupLeafEntries target body count (some key) cursor

def lookupLeaf (payload target : Bytes) : TreeM LookupStep := do
  let count ← decodePreamble leafMagic leafHeaderSize payload
  .failIf (count = 0 ∨ (payload.length - leafHeaderSize) / 8 < count) .invalidCount
  lookupLeafEntries target (payload.drop leafHeaderSize) count none (payload.drop leafHeaderSize)

def lookupSeparators (target : Bytes) : (count : Nat) → (previousKey : Option Bytes) → (selected : PageId) →
    (cursor : Bytes) → TreeM LookupStep
  | 0, _, selected, cursor => do
    cursorFinish cursor
    return .descend selected
  | count + 1, previousKey, selected, cursor => do
    let (keyLength, cursor) ← cursorLength cursor
    .failIf (maxKeySize < keyLength) .keyTooLarge
    let (key, cursor) ← cursorTake keyLength cursor
    .failIf (∃ previous ∈ previousKey, key ≤ previous) .noncanonicalKeyOrder
    if target < key then return .descend selected
    else
      let (child, cursor) ← cursorU64 cursor
      let child ← .okOr (NonZeroUInt.new 64 child) .zeroChild
      lookupSeparators target count (some key) child cursor

def lookupInternal (payload target : Bytes) : TreeM LookupStep := do
  let count ← decodePreamble internalMagic internalHeaderSize payload
  .failIf (count = 0 ∨ (payload.length - internalHeaderSize) / 12 + 1 < count) .invalidCount
  let firstChild ← .okOr (NonZeroUInt.new 64 (ofLe (slice payload 16 24))) .zeroChild
  lookupSeparators target count none firstChild (payload.drop internalHeaderSize)

def lookupPage (page : Page) (target : Bytes) : TreeM LookupStep :=
  match page.kind with
  | .bTreeLeaf => lookupLeaf page.payload target
  | .bTreeInternal => lookupInternal page.payload target
  | _ => .error .wrongPageKind

/-- One page of a lookup: the value the page settles, or the child to go on with. -/
def lookupStep (key : Bytes) (page : Page) : TreeM (Option Bytes ⊕ PageId) := do
  match ← lookupPage page key with
  | .value range => return .inl (range.map fun range => slice page.payload range.1 range.2)
  | .descend child => return .inr child

section Generic

variable {m : Type → Type} [Monad m] [MonadExcept BTreeError m]

/-- The loop of a point lookup. A frame is held for one page only. -/
def getFrom (source : PageSource m) (key : Bytes) : (levels : Nat) → (visited : List PageId) → PageId → m (Option Bytes)
  | 0, _, _ => throw .heightExceeded
  | levels + 1, visited, page => do
    MonadExcept.ofExcept (.failIf (page ∈ visited) .cycle)
    match ← source.withPage page fun frame => MonadExcept.ofExcept (lookupStep key frame) with
    | .inl value => return value
    | .inr child => getFrom source key levels (page :: visited) child

def getBy (source : PageSource m) (tree : BTree) (key : Bytes) : m (Option Bytes) :=
  match tree.root with
  | none => return none
  | some root => getFrom source key maxTreeHeight [] root

end Generic

/-- Binary point lookup. -/
def get (tree : BTree) (store : PageStore) (key : Bytes) : TreeM (Option Bytes) :=
  getBy (direct store) tree key

/-- Binary point lookup through the buffer pool. -/
def getCached (tree : BTree) (store : PageStore) (key : Bytes) : Cached (Option Bytes) := getBy (cached store) tree key

/-! ## Leaves read in place -/

/-- One verified leaf payload whose entries are borrowed. -/
structure BorrowedLeaf where
  body : Bytes
  count : Nat
  minimum : Bytes
  maximum : Bytes

/-- The verification loop: the least key, the last key and what is left of the payload. -/
def verifyLeafEntries : (count : Nat) → (previous : Option Bytes) → (minimum : Bytes) → (cursor : Bytes) →
    TreeM (Bytes × Option Bytes × Bytes)
  | 0, previous, minimum, cursor => return (minimum, previous, cursor)
  | count + 1, previous, minimum, cursor => do
    let (keyLength, cursor) ← cursorLength cursor
    let (valueLength, cursor) ← cursorLength cursor
    let (key, cursor) ← cursorTake keyLength cursor
    let (_, cursor) ← cursorTake valueLength cursor
    .failIf (maxKeySize < key.length) .keyTooLarge
    checkU32 keyLength
    checkU32 valueLength
    .failIf (∃ before ∈ previous, key ≤ before) .noncanonicalKeyOrder
    verifyLeafEntries count (some key) (if previous.isNone then key else minimum) cursor

def BorrowedLeaf.decode (payload : Bytes) : TreeM BorrowedLeaf := do
  let count ← decodePreamble leafMagic leafHeaderSize payload
  .failIf (count = 0 ∨ (payload.length - leafHeaderSize) / 8 < count) .invalidCount
  let body := payload.drop leafHeaderSize
  let (minimum, previous, cursor) ← verifyLeafEntries count none [] body
  cursorFinish cursor
  let maximum ← .okOr previous .invalidCount
  return { body, count, minimum, maximum }

/-- Read entries that are known to be there; a failed read gives an empty piece. -/
def borrowEntries : (count : Nat) → (cursor : Bytes) → List KeyValue
  | 0, _ => []
  | count + 1, cursor =>
    let (keyLength, cursor) := (cursorLength cursor).toOption.getD (0, cursor)
    let (valueLength, cursor) := (cursorLength cursor).toOption.getD (0, cursor)
    let (key, cursor) := (cursorTake keyLength cursor).toOption.getD ([], cursor)
    let (value, cursor) := (cursorTake valueLength cursor).toOption.getD ([], cursor)
    (key, value) :: borrowEntries count cursor

def BorrowedLeaf.entries (leaf : BorrowedLeaf) : List KeyValue := borrowEntries leaf.count leaf.body

/-! ## The walk -/

/-- A node as a walk sees it. -/
inductive View (ℓ : Type)
  | leaf (leaf : ℓ)
  | internal (keys : List Bytes) (children : List PageId)

/-- Decode the whole node. -/
def decodedView (page : Page) : TreeM (View (List KeyValue)) := do
  match ← decodePage page with
  | .leaf entries => return .leaf entries
  | .internal keys children => return .internal keys children

/-- Borrow a leaf, decode an internal node. -/
def borrowedView (page : Page) : TreeM (View BorrowedLeaf) :=
  if page.kind = .bTreeLeaf then do
    let leaf ← BorrowedLeaf.decode page.payload
    return .leaf leaf
  else do
    match ← decodePage page with
    | .leaf _ => .error .wrongPageKind
    | .internal keys children => return .internal keys children

/-- A child with the separators on its two sides. -/
structure ChildRange where
  page : PageId
  lower : Option Bytes
  upper : Option Bytes

def childRanges (keys : List Bytes) (children : List PageId) : List ChildRange :=
  children.zipIdx.map fun (child, index) =>
    { page := child, lower := if index = 0 then none else keys[index - 1]?, upper := keys[index]? }

/-- What tells one range reader from another. -/
structure Walk (ℓ τ : Type) where
  view : Page → TreeM (View ℓ)
  leaf : PageId → ℓ → τ → TreeM (ControlFlow Unit × τ)
  enters : ChildRange → Bool
  backward : Bool

/-- The order in which a walk takes a list that is stored in key order. -/
def Walk.order {ℓ τ α : Type} (walk : Walk ℓ τ) (items : List α) : List α :=
  if walk.backward then items.reverse else items

section Walk

variable {m : Type → Type} [Monad m] [MonadExcept BTreeError m] {ℓ τ : Type}

/-- Visit the children a walk enters, up to the first break. -/
def walkChildren (visitNode : PageId → Finset PageId → τ → m (ControlFlow Unit × Finset PageId × τ))
    (enters : ChildRange → Bool) : List ChildRange → Finset PageId → τ → m (ControlFlow Unit × Finset PageId × τ)
  | [], visited, state => return (.cont, visited, state)
  | child :: children, visited, state =>
    if enters child then do
      match ← visitNode child.page visited state with
      | (.brk (), visited, state) => return (.brk (), visited, state)
      | (.cont, visited, state) => walkChildren visitNode enters children visited state
    else walkChildren visitNode enters children visited state

def walkNode (source : PageSource m) (walk : Walk ℓ τ) : (levels : Nat) → PageId → Finset PageId → τ →
    m (ControlFlow Unit × Finset PageId × τ)
  | 0, _, _, _ => throw .heightExceeded
  | levels + 1, page, visited, state => do
    MonadExcept.ofExcept (.failIf (page ∈ visited) .cycle)
    source.withPage page fun frame => do
      match ← MonadExcept.ofExcept (walk.view frame) with
      | .leaf leaf =>
        let (flow, state) ← MonadExcept.ofExcept (walk.leaf page leaf state)
        return (flow, insert page visited, state)
      | .internal keys children =>
        walkChildren (walkNode source walk levels) walk.enters (walk.order (childRanges keys children))
          (insert page visited) state

/-- A walk over a whole tree. -/
def walkTree (source : PageSource m) (walk : Walk ℓ τ) (tree : BTree) (state : τ) : m (ControlFlow Unit × τ) :=
  match tree.root with
  | none => return (.cont, state)
  | some root => do
    let (flow, _, state) ← walkNode source walk maxTreeHeight root ∅ state
    return (flow, state)

end Walk

/-! ## Prefix scans -/

/-- Collect the entries of every leaf that start with `pre`. -/
def scanPrefixWalk (pre : Bytes) : Walk (List KeyValue) (List KeyValue) where
  view := decodedView
  leaf _ entries output := .ok (.cont, output ++
    (entries.dropWhile fun entry => entry.1 < pre).takeWhile fun entry => pre.isPrefixOf entry.1)
  enters child := childIntersectsPrefix child.lower child.upper pre (prefixUpperBound pre)
  backward := false

section Generic

variable {m : Type → Type} [Monad m] [MonadExcept BTreeError m]

def scanPrefixBy (source : PageSource m) (tree : BTree) (pre : Bytes) : m (List KeyValue) := do
  let (_, output) ← walkTree source (scanPrefixWalk pre) tree []
  MonadExcept.ofExcept (.failIf (¬KeyAscending output) .noncanonicalKeyOrder)
  return output

end Generic

/-- Materialize only the entries whose keys begin with `pre`. -/
def scanPrefix (tree : BTree) (store : PageStore) (pre : Bytes) : TreeM (List KeyValue) :=
  scanPrefixBy (direct store) tree pre

def scanPrefixCached (tree : BTree) (store : PageStore) (pre : Bytes) : Cached (List KeyValue) :=
  scanPrefixBy (cached store) tree pre

/-! ## Bounded visits -/

section Visits

variable {σ : Type} (visitor : KeyValue → σ → ControlFlow Unit × σ)

/-- Hand the entries over one by one. `last` is the key handed over before; `follows`
says which keys may come after it. -/
def visitEntries (follows : Bytes → Bytes → Bool) : List KeyValue → Option Bytes × σ →
    TreeM (ControlFlow Unit × Option Bytes × σ)
  | [], state => .ok (.cont, state)
  | entry :: entries, (last, state) => do
    .failIf (∃ previous ∈ last, ¬follows previous entry.1) .noncanonicalKeyOrder
    match visitor entry state with
    | (.brk (), state) => return (.brk (), some entry.1, state)
    | (.cont, state) => visitEntries follows entries (some entry.1, state)

/-- Visit the entries under `pre` inside the bounds, in key order. -/
def visitPrefixRangeWalk (pre : Bytes) (lower upper : Bound) : Walk BorrowedLeaf (Option Bytes × σ) where
  view := borrowedView
  leaf _ leaf := visitEntries visitor (fun previous key => previous < key)
    ((((leaf.entries.dropWhile fun entry => entry.1 < pre).takeWhile fun entry => pre.isPrefixOf entry.1).dropWhile
      fun entry => !keySatisfiesLower entry.1 lower).takeWhile fun entry => keySatisfiesUpper entry.1 upper)
  enters child := childIntersectsPrefix child.lower child.upper pre (prefixUpperBound pre) &&
    childIntersectsBounds child.lower child.upper lower upper
  backward := false

/-- The loop over the entries of a leaf from the last to the first. -/
def visitLeafReverse (pre : Bytes) (lower upper : Bound) : List KeyValue → Option Bytes × σ →
    TreeM (ControlFlow Unit × Option Bytes × σ)
  | [], state => .ok (.cont, state)
  | entry :: entries, (last, state) =>
    if entry.1 < pre then .ok (.cont, last, state)
    else if !pre.isPrefixOf entry.1 || !keySatisfiesUpper entry.1 upper then
      visitLeafReverse pre lower upper entries (last, state)
    else if !keySatisfiesLower entry.1 lower then .ok (.cont, last, state)
    else do
      .failIf (∃ previous ∈ last, previous ≤ entry.1) .noncanonicalKeyOrder
      match visitor entry state with
      | (.brk (), state) => return (.brk (), some entry.1, state)
      | (.cont, state) => visitLeafReverse pre lower upper entries (some entry.1, state)

/-- Visit the entries under `pre` inside the bounds, in reverse key order. -/
def visitPrefixRangeReverseWalk (pre : Bytes) (lower upper : Bound) : Walk (List KeyValue) (Option Bytes × σ) where
  view := decodedView
  leaf _ entries := visitLeafReverse visitor pre lower upper entries.reverse
  enters child := childIntersectsPrefix child.lower child.upper pre (prefixUpperBound pre) &&
    childIntersectsBounds child.lower child.upper lower upper
  backward := true

/-- Visit one bounded prefix range in canonical key order. -/
def visitPrefixRangeCached (tree : BTree) (store : PageStore) (pre : Bytes) (lower upper : Bound) (state : σ) :
    Cached (ControlFlow Unit × σ) := do
  let (flow, _, state) ← walkTree (cached store) (visitPrefixRangeWalk visitor pre lower upper) tree (none, state)
  return (flow, state)

/-- Visit one bounded prefix range in reverse canonical key order. -/
def visitPrefixRangeCachedReverse (tree : BTree) (store : PageStore) (pre : Bytes) (lower upper : Bound) (state : σ) :
    Cached (ControlFlow Unit × σ) := do
  let (flow, _, state) ← walkTree (cached store) (visitPrefixRangeReverseWalk visitor pre lower upper) tree
    (none, state)
  return (flow, state)

end Visits

/-! ## Planned segments -/

/-- One leaf of a planned range, with the bounds it was planned for. -/
structure BTreeSegment where
  root : PageId
  page : PageId
  minimum : Bytes
  maximum : Bytes
  entryCount : Nat
  lower : Bound
  upper : Bound

/-- Plan one leaf, decoded. -/
def planRangeSegmentsWalk (root : PageId) (lower upper : Bound) : Walk (List KeyValue) (List BTreeSegment) where
  view := decodedView
  leaf page entries output := do
    let minimum ← .okOr entries.head? .invalidCount
    let maximum ← .okOr entries.getLast? .invalidCount
    return (.cont, if segmentIntersectsBounds minimum.1 maximum.1 lower upper then
      output ++ [{ root, page, minimum := minimum.1, maximum := maximum.1, entryCount := entries.length, lower, upper }]
      else output)
  enters child := childIntersectsBounds child.lower child.upper lower upper
  backward := false

/-- Plan one leaf, borrowed: only its boundary keys and its count are needed. -/
def planRangeSegmentsCachedWalk (root : PageId) (lower upper : Bound) : Walk BorrowedLeaf (List BTreeSegment) where
  view := borrowedView
  leaf page leaf output := .ok (.cont, if segmentIntersectsBounds leaf.minimum leaf.maximum lower upper then
    output ++ [{ root, page, minimum := leaf.minimum, maximum := leaf.maximum, entryCount := leaf.count, lower, upper }]
    else output)
  enters child := childIntersectsBounds child.lower child.upper lower upper
  backward := false

/-- Plan the leaf segments that intersect one key range. -/
def planRangeSegments (tree : BTree) (store : PageStore) (lower upper : Bound) : TreeM (List BTreeSegment) :=
  match tree.root with
  | none => return []
  | some root =>
    if rangeIsEmpty lower upper then return []
    else do
      let (_, segments) ← walkTree (direct store) (planRangeSegmentsWalk root lower upper) tree []
      return segments

def planRangeSegmentsCached (tree : BTree) (store : PageStore) (lower upper : Bound) : Cached (List BTreeSegment) :=
  match tree.root with
  | none => return []
  | some root =>
    if rangeIsEmpty lower upper then return []
    else do
      let (_, segments) ← walkTree (cached store) (planRangeSegmentsCachedWalk root lower upper) tree []
      return segments

/-- The entries of a planned leaf inside the bounds, once the page matches the plan. -/
def segmentEntries (segment : BTreeSegment) (page : Page) : TreeM (List KeyValue) := do
  match ← decodePage page with
  | .internal _ _ => .error .wrongPageKind
  | .leaf entries =>
    let minimum ← .okOr entries.head? .invalidCount
    let maximum ← .okOr entries.getLast? .invalidCount
    .failIf (minimum.1 ≠ segment.minimum ∨ maximum.1 ≠ segment.maximum ∨ entries.length ≠ segment.entryCount)
      .invalidSeparator
    return entries.filter fun entry => inBounds segment.lower segment.upper entry.1

/-- The borrowed entries of a planned leaf inside the bounds. -/
def borrowedSegmentEntries (segment : BTreeSegment) (page : Page) : TreeM (List KeyValue) := do
  .failIf (page.kind ≠ .bTreeLeaf) .wrongPageKind
  let leaf ← BorrowedLeaf.decode page.payload
  .failIf (leaf.minimum ≠ segment.minimum ∨ leaf.maximum ≠ segment.maximum ∨ leaf.count ≠ segment.entryCount)
    .invalidSeparator
  return leaf.entries.filter fun entry => inBounds segment.lower segment.upper entry.1

/-- Run `body` on the page of a segment planned for this tree. -/
def withSegment {m : Type → Type} [Monad m] [MonadExcept BTreeError m] {α : Type} (source : PageSource m) (tree : BTree)
    (segment : BTreeSegment) (body : Page → TreeM α) : m α := do
  MonadExcept.ofExcept (.failIf (tree.root ≠ some segment.root) .foreignSegment)
  source.withPage segment.page fun page => MonadExcept.ofExcept (body page)

/-- Execute one planned leaf segment. -/
def scanPlannedSegment (tree : BTree) (store : PageStore) (segment : BTreeSegment) :
    TreeM (List KeyValue) := withSegment (direct store) tree segment (segmentEntries segment)

def scanPlannedSegmentCached (tree : BTree) (store : PageStore) (segment : BTreeSegment) : Cached (List KeyValue) :=
  withSegment (cached store) tree segment (segmentEntries segment)

/-- Visit the entries of one planned segment in place. An error of the visitor is the break
value; an error of the tree is the error of the run. -/
def visitPlannedSegmentCached {ε σ : Type} (visitor : KeyValue → σ → ControlFlow ε × σ) (tree : BTree)
    (store : PageStore) (segment : BTreeSegment) (state : σ) : Cached (ControlFlow ε × σ) :=
  withSegment (cached store) tree segment fun page => do
    let entries ← borrowedSegmentEntries segment page
    return visit visitor entries state

end Hyphae.BTree
