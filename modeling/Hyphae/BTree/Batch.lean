import Hyphae.BTree.Tree

/-!
# Ordered batches

`upsertSortedBatch` merges a strictly ordered batch into the tree, rewriting every
node that several keys of the batch reach once. An overflowing leaf is divided into
several pages, and the levels above are rebuilt from references to their children.
-/

namespace Hyphae.BTree

open Lib

/-- A child page with the least key below it. -/
structure ChildReference where
  minimum : Bytes
  page : PageId
  deriving DecidableEq

structure BatchMutationResult where
  tree : BTree
  pagesWritten : Nat

/-- The least key of a subtree, by its leftmost leaf. -/
def leftmostKeyFrom (store : PageStore) : (levels : Nat) → (visited : List PageId) → PageId → TreeM Bytes
  | 0, _, _ => .error .heightExceeded
  | levels + 1, visited, page => do
    .failIf (page ∈ visited) .cycle
    match ← readNode store page with
    | .leaf entries =>
      let entry ← .okOr entries.head? .invalidCount
      return entry.1
    | .internal _ children =>
      let child ← .okOr children.head? .invalidCount
      leftmostKeyFrom store levels (page :: visited) child

def leftmostKey (store : PageStore) (page : PageId) : TreeM Bytes :=
  leftmostKeyFrom store maxTreeHeight [] page

/-- Merge ordered updates over the ordered entries of a leaf. -/
def mergeLeafUpdates : List KeyValue → List KeyValue → List KeyValue
  | existing, [] => existing
  | existing, update :: updates =>
    let before := existing.takeWhile (·.1 < update.1)
    let rest := existing.dropWhile (·.1 < update.1)
    let rest := if rest.head?.map Prod.fst = some update.1 then rest.tail else rest
    before ++ update :: mergeLeafUpdates rest updates

def appendLeafReference (csn : Csn) (entries : List KeyValue) : Write ChildReference := do
  let first ← .ofExcept (.okOr entries.head? .invalidCount)
  let page ← appendNode csn (.leaf entries)
  return { minimum := first.1, page }

/-- Fill pages to capacity with the entries, `pageEntries` being the page under construction. -/
def fillLeaves (csn : Csn) : List KeyValue → (pageEntries : List KeyValue) → (encodedLength : Nat) →
    Write (List ChildReference)
  | [], pageEntries, _ => if pageEntries = [] then return [] else return [← appendLeafReference csn pageEntries]
  | entry :: entries, pageEntries, encodedLength => do
    let entryLength ← .ofExcept (leafEntryEncodedLength entry)
    let next ← .ofExcept (.okOr (checkedAdd encodedLength entryLength) .lengthOverflow)
    if pageEntries ≠ [] ∧ pagePayloadSize < next then
      let reference ← appendLeafReference csn pageEntries
      return reference :: (← fillLeaves csn entries [entry] (leafHeaderSize + entryLength))
    else fillLeaves csn entries (pageEntries ++ [entry]) next

/-- Bulk-load a fresh level of leaves. -/
def appendLeafLevel (csn : Csn) (entries : List KeyValue) : Write (List ChildReference) := do
  .ofExcept (.failIf (entries = []) .invalidCount)
  fillLeaves csn entries [] leafHeaderSize

/-- Divide the entries into `leaves` pages of about `target` bytes, `written` of them already appended. -/
def fillBalanced (csn : Csn) (capacity leaves target : Nat) : List KeyValue → (written : Nat) →
    (pageEntries : List KeyValue) → (used : Nat) → Write (List ChildReference)
  | [], _, pageEntries, _ => if pageEntries = [] then return [] else return [← appendLeafReference csn pageEntries]
  | entry :: entries, written, pageEntries, used => do
    let length ← .ofExcept (leafEntryEncodedLength entry)
    let next ← .ofExcept (.okOr (checkedAdd used length) .lengthOverflow)
    let lastLeaf := leaves ≤ written + 1
    if pageEntries ≠ [] ∧ (capacity < next ∨ ¬lastLeaf ∧ target < next) then
      let reference ← appendLeafReference csn pageEntries
      return reference :: (← fillBalanced csn capacity leaves target entries (written + 1) [entry] length)
    else fillBalanced csn capacity leaves target entries written (pageEntries ++ [entry]) next

/-- Rewrite one existing leaf's merged entries: one page while they fit, else the least
number of pages with the bytes shared evenly among them. -/
def appendLeafLevelBalanced (csn : Csn) (entries : List KeyValue) : Write (List ChildReference) := do
  .ofExcept (.failIf (entries = []) .invalidCount)
  let lengths ← .ofExcept (entries.mapM leafEntryEncodedLength)
  let body ← .ofExcept (.okOr (lengths.foldlM checkedAdd 0) .lengthOverflow)
  let capacity := pagePayloadSize - leafHeaderSize
  if body ≤ capacity then return [← appendLeafReference csn entries]
  else
    let leaves := max ((body + capacity - 1) / capacity) 2
    let target := (body + leaves - 1) / leaves
    fillBalanced csn capacity leaves target entries 0 [] 0

/-- Extend a group of `groupSize` references while the next separator still fits the page. -/
def extendGroup : List ChildReference → (groupSize encodedLength : Nat) → TreeM Nat
  | [], groupSize, _ => return groupSize
  | reference :: references, groupSize, encodedLength => do
    let nextLength ← internalSeparatorEncodedLength reference.minimum
    let next ← .okOr (checkedAdd encodedLength nextLength) .lengthOverflow
    if pagePayloadSize < next then return groupSize
    else extendGroup references (groupSize + 1) next

/-- The size of the first group; never leaves a single reference behind it. -/
def firstGroupSize (second : ChildReference) (rest : List ChildReference) : TreeM Nat := do
  let separatorLength ← internalSeparatorEncodedLength second.minimum
  let encodedLength ← .okOr (checkedAdd internalHeaderSize separatorLength) .lengthOverflow
  let groupSize ← extendGroup rest 2 encodedLength
  if rest.length + 2 - groupSize = 1 then
    .failIf (groupSize = 2) .noValidSplit
    return groupSize - 1
  else return groupSize

/-- The groups of a list of references; each round takes at least two of them. -/
def groupSizes : (rounds : Nat) → List ChildReference → TreeM (List Nat)
  | _, [] => return []
  | _, [_] => .error .noValidSplit
  | 0, _ => .error .noValidSplit
  | rounds + 1, first :: second :: rest => do
    let groupSize ← firstGroupSize second rest
    let sizes ← groupSizes rounds ((first :: second :: rest).drop groupSize)
    return groupSize :: sizes

def internalGroupSizes (references : List ChildReference) : TreeM (List Nat) := do
  .failIf (references.length < 2) .invalidCount
  groupSizes references.length references

/-- One internal node over a group of references. -/
def appendGroup (csn : Csn) (group : List ChildReference) : Write ChildReference := do
  let first ← .ofExcept (.okOr group.head? .invalidCount)
  let page ← appendNode csn (.internal (group.tail.map ChildReference.minimum) (group.map ChildReference.page))
  return { minimum := first.minimum, page }

def appendGroups (csn : Csn) : List Nat → List ChildReference → Write (List ChildReference)
  | [], references => do
    .ofExcept (.failIf (references ≠ []) .invalidCount)
    return []
  | groupSize :: sizes, references => do
    .ofExcept (.failIf ((references.take groupSize).length ≠ groupSize) .invalidCount)
    let parent ← appendGroup csn (references.take groupSize)
    return parent :: (← appendGroups csn sizes (references.drop groupSize))

def appendInternalLevel (csn : Csn) (references : List ChildReference) : Write (List ChildReference) := do
  let sizes ← .ofExcept (internalGroupSizes references)
  appendGroups csn sizes references

/-- The updates below a child's upper separator, and those for the children behind it. -/
def splitUpdates (upper : Option Bytes) (updates : List KeyValue) : List KeyValue × List KeyValue :=
  match upper with
  | some upper => (updates.takeWhile (·.1 < upper), updates.dropWhile (·.1 < upper))
  | none => (updates, [])

/-- The references that replace one child: itself when no update falls to it. -/
def rewriteChild (rewrite : PageId → List KeyValue → Bytes → Write (List ChildReference)) (child : PageId)
    (minimum : Bytes) (own : List KeyValue) : Write (List ChildReference) :=
  if own = [] then pure [{ minimum, page := child }] else rewrite child own minimum

/-- Rewrite the children that updates fall to; `minimum` is the least key below the first child.
The updates left over are those at or above every separator of an exhausted child list. -/
def rewriteChildren (rewrite : PageId → List KeyValue → Bytes → Write (List ChildReference)) :
    List PageId → List Bytes → (minimum : Bytes) → List KeyValue → Write (List ChildReference × List KeyValue)
  | [], _, _, updates => return ([], updates)
  | child :: children, keys, minimum, updates => do
    let (own, later) := splitUpdates keys.head? updates
    let references ← rewriteChild rewrite child minimum own
    let (rest, left) ← rewriteChildren rewrite children keys.tail (keys.head?.getD minimum) later
    return (references ++ rest, left)

def rewriteNodeBatch (csn : Csn) : (levels : Nat) → PageId → List KeyValue → (knownMinimum : Bytes) →
    Write (List ChildReference)
  | 0, _, _, _ => throw .heightExceeded
  | levels + 1, page, updates, knownMinimum => do
    match ← loadNode page with
    | .leaf entries => appendLeafLevelBalanced csn (mergeLeafUpdates entries updates)
    | .internal keys children =>
      let (references, left) ← rewriteChildren (rewriteNodeBatch csn levels) children keys knownMinimum updates
      .ofExcept (.failIf (left ≠ []) .noncanonicalKeyOrder)
      appendInternalLevel csn references

/-- Add internal levels until one reference is left. -/
def assembleBatchRoot (csn : Csn) : (levels : Nat) → List ChildReference → Write BTree
  | 0, _ => throw .heightExceeded
  | levels + 1, references =>
    match references with
    | [] => throw .invalidCount
    | [root] => return ofRoot root.page
    | references => do assembleBatchRoot csn levels (← appendInternalLevel csn references)

/-- The references that replace the root. -/
def batchReferences (tree : BTree) (csn : Csn) (entries : List KeyValue) : Write (List ChildReference) :=
  match tree.root with
  | some root => do
    let minimum ← .ofExcept (leftmostKey (← get) root)
    rewriteNodeBatch csn maxTreeHeight root entries minimum
  | none => appendLeafLevel csn entries

/-- Insert or replace one strictly ordered, duplicate-free key batch. -/
def upsertSortedBatch (tree : BTree) (csn : Csn) (entries : List KeyValue) : Write BatchMutationResult := do
  if entries = [] then return { tree, pagesWritten := 0 }
  else
    .ofExcept (.failIf (¬KeyAscending entries) .noncanonicalKeyOrder)
    .ofExcept (entries.forM fun entry => ensureLeafEntryFits entry.1 entry.2)
    let startingPages := (← get).pageCount
    let references ← batchReferences tree csn entries
    let tree ← assembleBatchRoot csn maxTreeHeight references
    return { tree, pagesWritten := (← get).pageCount - startingPages }

end Hyphae.BTree
