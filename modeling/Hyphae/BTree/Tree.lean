import Hyphae.BTree.Node

/-!
# The copy-on-write B+tree

A tree is the page of its root node. A mutation never rewrites a page: it appends
a new version of every node on the path to the changed leaf, splitting the ones
that no longer fit, and returns the new root.

Recursion depth is bounded by `maxTreeHeight`; the `levels` argument is what is
left of it.
-/

namespace Hyphae

open Lib

/-- A tree, by the page of its root node. -/
structure BTree where
  root : Option PageId
  deriving DecidableEq

namespace BTree

def maxTreeHeight : Nat := 64

/-- Code that appends pages to a store. -/
abbrev Write := EStateM BTreeError PageStore

/-- The tree without entries. -/
def empty : BTree := ⟨none⟩

def ofRoot (page : PageId) : BTree := ⟨some page⟩

def readPage (store : PageStore) (page : PageId) : TreeM Page :=
  (store.read page).mapError .store

def readNode (store : PageStore) (page : PageId) : TreeM Node := do
  decodePage (← readPage store page)

/-- `readNode` of the store being written. -/
def loadNode (page : PageId) : Write Node := do
  .ofExcept (readNode (← get) page)

def appendNode (csn : Csn) (node : Node) : Write PageId := do
  let payload ← .ofExcept node.encode
  EStateM.adaptExcept .store (PageStore.append node.pageKind (some csn) none payload)

/-! ## Scanning and validation -/

/-- Visit the children in order, threading the set of pages already reached. -/
def visitChildren {α : Type} (visit : PageId → Finset PageId → TreeM (α × Finset PageId)) :
    List PageId → Finset PageId → TreeM (List α × Finset PageId)
  | [], visited => return ([], visited)
  | child :: children, visited => do
    let (result, visited) ← visit child visited
    let (results, visited) ← visitChildren visit children visited
    return (result :: results, visited)

def scanNode (store : PageStore) : (levels : Nat) → PageId → Finset PageId →
    TreeM (List KeyValue × Finset PageId)
  | 0, _, _ => .error .heightExceeded
  | levels + 1, page, visited => do
    .failIf (page ∈ visited) .cycle
    let visited := insert page visited
    match ← readNode store page with
    | .leaf entries => return (entries, visited)
    | .internal _ children =>
      let (outputs, visited) ← visitChildren (scanNode store levels) children visited
      return (outputs.flatten, visited)

/-- Materialize every entry in canonical key order. -/
def scan (tree : BTree) (store : PageStore) : TreeM (List KeyValue) :=
  match tree.root with
  | none => return []
  | some root => do
    let (output, _) ← scanNode store maxTreeHeight root ∅
    .failIf (¬KeyAscending output) .noncanonicalKeyOrder
    return output

structure ValidationSummary where
  minimum : Bytes
  maximum : Bytes
  count : Nat
  height : Nat

/-- The checks an internal node makes over the summaries of its children. -/
def summarizeChildren (keys : List Bytes) (summaries : List ValidationSummary) : TreeM ValidationSummary := do
  .failIf (∃ pair ∈ keys.zip summaries.tail, pair.1 ≠ pair.2.minimum) .invalidSeparator
  .failIf (¬summaries.IsChain fun left right => left.maximum < right.minimum) .noncanonicalKeyOrder
  .failIf (¬summaries.IsChain fun left right => left.height = right.height) .unbalanced
  let first ← .okOr summaries.head? .invalidCount
  let last ← .okOr summaries.getLast? .invalidCount
  let count ← summaries.foldlM (fun total summary => .okOr (checkedAdd total summary.count) .lengthOverflow) 0
  let height ← .okOr (checkedAdd first.height 1) .heightExceeded
  return { minimum := first.minimum, maximum := last.maximum, count, height }

def validateNode (store : PageStore) (visibleCsn : Option Csn) : (levels : Nat) → PageId → Finset PageId →
    TreeM (ValidationSummary × Finset PageId)
  | 0, _, _ => .error .heightExceeded
  | levels + 1, pageId, visited => do
    .failIf (pageId ∈ visited) .cycle
    let visited := insert pageId visited
    let page ← readPage store pageId
    .failIf (∃ visible ∈ visibleCsn, ∀ creating ∈ page.creatingCsn, visible.get < creating.get) .futurePage
    match ← decodePage page with
    | .leaf entries =>
      let minimum ← .okOr entries.head? .invalidCount
      let maximum ← .okOr entries.getLast? .invalidCount
      return ({ minimum := minimum.1, maximum := maximum.1, count := entries.length, height := 1 }, visited)
    | .internal keys children =>
      let (summaries, visited) ← visitChildren (validateNode store visibleCsn levels) children visited
      return (← summarizeChildren keys summaries, visited)

def validateAt (tree : BTree) (store : PageStore) (visibleCsn : Option Csn) : TreeM Nat :=
  match tree.root with
  | none => return 0
  | some root => do
    let (summary, _) ← validateNode store visibleCsn maxTreeHeight root ∅
    return summary.count

/-- Verify the complete tree; the number of its entries on success. -/
def validate (tree : BTree) (store : PageStore) : TreeM Nat := tree.validateAt store none

/-! ## Mutation of one key -/

inductive MutationMode
  | insert
  | upsert
  deriving DecidableEq

/-- What replaces a rewritten node in its parent. -/
inductive Rewrite
  | one (page : PageId)
  | split (left : PageId) (separator : Bytes) (right : PageId)

structure MutationResult where
  tree : BTree
  previous : Option Bytes
  pagesWritten : Nat

def ensureLeafEntryFits (key value : Bytes) : TreeM Unit := do
  .failIf (maxKeySize < key.length) .keyTooLarge
  let length ← leafEncodedLength [(key, value)]
  .failIf (pagePayloadSize < length) .entryTooLarge

/-- Keep the first candidate of least imbalance. -/
def betterSplit (best : Option (Nat × Nat)) (candidate imbalance : Nat) : Option (Nat × Nat) :=
  match best with
  | none => some (candidate, imbalance)
  | some (_, bestImbalance) => if imbalance < bestImbalance then some (candidate, imbalance) else best

/-- The scan of the split candidates; `lengths` gives the encoded lengths left and right of one. -/
def chooseSplit (candidates : List Nat) (lengths : Nat → TreeM (Nat × Nat)) : TreeM Nat := do
  let best ← candidates.foldlM (fun best candidate => do
    let (left, right) ← lengths candidate
    return if left ≤ pagePayloadSize ∧ right ≤ pagePayloadSize then
      betterSplit best candidate (max left right - min left right) else best) none
  .okOr (best.map Prod.fst) .noValidSplit

def chooseLeafSplit (entries : List KeyValue) : TreeM Nat :=
  chooseSplit (List.range' 1 (entries.length - 1)) fun split => do
    let left ← leafEncodedLength (entries.take split)
    let right ← leafEncodedLength (entries.drop split)
    return (left, right)

def chooseInternalSplit (keys : List Bytes) : TreeM Nat := do
  .failIf (keys.length < 3) .noValidSplit
  chooseSplit (List.range' 1 (keys.length - 2)) fun promote => do
    let left ← internalEncodedLength (keys.take promote)
    let right ← internalEncodedLength (keys.drop (promote + 1))
    return (left, right)

/-- The child a key belongs to: the separators at or below the key. -/
def childIndex (keys : List Bytes) (key : Bytes) : Nat := (keys.takeWhile (· ≤ key)).length

/-- Put an entry into the ordered entries of a leaf; the value it replaces. -/
def putLeafEntry (entries : List KeyValue) (key value : Bytes) (mode : MutationMode) :
    TreeM (List KeyValue × Option Bytes) :=
  let index := (entries.takeWhile (·.1 < key)).length
  match entries[index]? with
  | some entry =>
    if entry.1 = key then
      match mode with
      | .insert => .error .duplicateKey
      | .upsert => .ok (entries.set index (key, value), some entry.2)
    else .ok (entries.insertIdx index (key, value), none)
  | none => .ok (entries.insertIdx index (key, value), none)

def writeLeaf (csn : Csn) (entries : List KeyValue) : Write Rewrite := do
  if (← .ofExcept (leafEncodedLength entries)) ≤ pagePayloadSize then
    return .one (← appendNode csn (.leaf entries))
  else
    let split ← .ofExcept (chooseLeafSplit entries)
    let separator ← .ofExcept (.okOr (entries.drop split).head? .noValidSplit)
    let left ← appendNode csn (.leaf (entries.take split))
    let right ← appendNode csn (.leaf (entries.drop split))
    return .split left separator.1 right

def writeInternal (csn : Csn) (keys : List Bytes) (children : List PageId) : Write Rewrite := do
  if (← .ofExcept (internalEncodedLength keys)) ≤ pagePayloadSize then
    return .one (← appendNode csn (.internal keys children))
  else
    let promote ← .ofExcept (chooseInternalSplit keys)
    let separator ← .ofExcept (.okOr keys[promote]? .noValidSplit)
    let left ← appendNode csn (.internal (keys.take promote) (children.take (promote + 1)))
    let right ← appendNode csn (.internal (keys.drop (promote + 1)) (children.drop (promote + 1)))
    return .split left separator right

/-- The separators and children of a node whose child at `index` was rewritten. -/
def spliceRewrite (keys : List Bytes) (children : List PageId) (index : Nat) :
    Rewrite → List Bytes × List PageId
  | .one child => (keys, children.set index child)
  | .split left separator right =>
    (keys.insertIdx index separator, (children.set index left).insertIdx (index + 1) right)

def rewriteNode (csn : Csn) (key value : Bytes) (mode : MutationMode) : (levels : Nat) → PageId →
    Write (Rewrite × Option Bytes)
  | 0, _ => throw .heightExceeded
  | levels + 1, page => do
    match ← loadNode page with
    | .leaf entries =>
      let (entries, previous) ← .ofExcept (putLeafEntry entries key value mode)
      return (← writeLeaf csn entries, previous)
    | .internal keys children =>
      let index := childIndex keys key
      let child ← .ofExcept (.okOr children[index]? .invalidCount)
      let (childRewrite, previous) ← rewriteNode csn key value mode levels child
      let (keys, children) := spliceRewrite keys children index childRewrite
      return (← writeInternal csn keys children, previous)

/-- Rewrite from the root down; an empty tree gets its first leaf. -/
def rewriteRoot (tree : BTree) (csn : Csn) (key value : Bytes) (mode : MutationMode) : Write (Rewrite × Option Bytes) :=
  match tree.root with
  | some root => rewriteNode csn key value mode maxTreeHeight root
  | none => do
    let root ← appendNode csn (.leaf [(key, value)])
    return (.one root, none)

/-- The root page after a rewrite; a split root gets a new internal node above it. -/
def growRoot (csn : Csn) : Rewrite → Write PageId
  | .one root => pure root
  | .split left separator right => appendNode csn (.internal [separator] [left, right])

def mutate (tree : BTree) (csn : Csn) (key value : Bytes) (mode : MutationMode) : Write MutationResult := do
  .ofExcept (ensureLeafEntryFits key value)
  let startingPages := (← get).pageCount
  let (rewrite, previous) ← rewriteRoot tree csn key value mode
  let root ← growRoot csn rewrite
  return { tree := ofRoot root, previous, pagesWritten := (← get).pageCount - startingPages }

/-- Insert a key only when it does not already exist. -/
def insertUnique (tree : BTree) (csn : Csn) (key value : Bytes) : Write MutationResult :=
  tree.mutate csn key value .insert

/-- Insert or replace one key and return its previous value. -/
def upsert (tree : BTree) (csn : Csn) (key value : Bytes) : Write MutationResult :=
  tree.mutate csn key value .upsert

end BTree

end Hyphae
