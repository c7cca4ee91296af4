import Hyphae.BTree.BatchTree

/-!
# Sequences of tree mutations

Tree values are immutable: a mutation of any tree value returned so far appends to the
shared store and returns a new tree value. A session keeps every tree value next to the
map the same calls give in a plain model.
-/

namespace Hyphae.BTree

open Lib

/-- One mutation, with its arguments. -/
inductive Mutation
  | insertUnique (key value : Bytes)
  | upsert (key value : Bytes)
  | upsertSortedBatch (entries : List KeyValue)

/-- The new tree and, for a single key, the value it replaced. -/
def Mutation.run (tree : BTree) (csn : Csn) : Mutation → Write (BTree × Option Bytes)
  | .insertUnique key value => do
    let result ← tree.insertUnique csn key value
    return (result.tree, result.previous)
  | .upsert key value => do
    let result ← tree.upsert csn key value
    return (result.tree, result.previous)
  | .upsertSortedBatch entries => do
    let result ← tree.upsertSortedBatch csn entries
    return (result.tree, none)

/-- The same mutation of a map. -/
def Mutation.model (map : OrderedMap Bytes Bytes) : Mutation → OrderedMap Bytes Bytes
  | .insertUnique key value => map.insert key value
  | .upsert key value => map.insert key value
  | .upsertSortedBatch entries => map.insertAll entries

/-- The value the model holds under the key of a single-key mutation. -/
def Mutation.old (map : OrderedMap Bytes Bytes) : Mutation → Option Bytes
  | .insertUnique key _ => map.get key
  | .upsert key _ => map.get key
  | .upsertSortedBatch _ => none

/-- A mutation applied to the tree value at position `source`. -/
structure Call where
  source : Nat
  csn : Csn
  mutation : Mutation

/-- The store and every tree value returned so far, each with its model. -/
structure Session where
  store : PageStore
  trees : List (BTree × OrderedMap Bytes Bytes)

namespace Session

def start (store : PageStore) : Session := ⟨store, [(BTree.empty, .empty)]⟩

/-- A failed call returns no tree; the pages it appended stay in the store. -/
def step (session : Session) (call : Call) : Session :=
  match session.trees[call.source]? with
  | none => session
  | some (tree, map) =>
    match call.mutation.run tree call.csn session.store with
    | .ok (tree', _) store => ⟨store, session.trees ++ [(tree', call.mutation.model map)]⟩
    | .error _ store => ⟨store, session.trees⟩

def run (store : PageStore) (calls : List Call) : Session := calls.foldl step (start store)

/-- Every tree value represents its model. -/
def Inv (session : Session) : Prop := ∀ tree map, (tree, map) ∈ session.trees → Represents session.store tree map

end Session

theorem Mutation.run_moves (tree : BTree) (csn : Csn) (mutation : Mutation) :
    EStateM.Moves PageStore.Extends (mutation.run tree csn) := by
  cases mutation with
  | insertUnique key value | upsert key value => exact .bind (mutate_moves _ _ _ _ _) fun _ => .pure _
  | upsertSortedBatch entries => exact .bind (upsertSortedBatch_moves _ _ _) fun _ => .pure _

theorem Mutation.run_eq_ok {tree tree' : BTree} {csn : Csn} {mutation : Mutation} {previous : Option Bytes}
    {s s' : PageStore} {map : OrderedMap Bytes Bytes} (hmap : Represents s tree map)
    (hok : mutation.run tree csn s = .ok (tree', previous) s') (hs' : s'.Addressable) :
    Represents s' tree' (mutation.model map) ∧ previous = mutation.old map := by
  cases mutation with
  | insertUnique key value | upsert key value =>
    obtain ⟨result, _, hresult, hpure⟩ := EStateM.bind_eq_ok.mp hok
    cases hpure
    exact mutate_eq_ok hmap hresult hs'
  | upsertSortedBatch entries =>
    obtain ⟨result, _, hresult, hpure⟩ := EStateM.bind_eq_ok.mp hok
    cases hpure
    exact ⟨upsertSortedBatch_eq_ok hmap hresult hs', rfl⟩

namespace Session

variable {session : Session}

theorem step_extends (session : Session) (call : Call) : session.store.Extends (session.step call).store := by
  unfold step
  split
  · exact .refl _
  · rename_i tree map _
    have hmoves := call.mutation.run_moves tree call.csn session.store
    split
    · rename_i hrun
      rwa [hrun] at hmoves
    · rename_i hrun
      rwa [hrun] at hmoves

theorem foldl_extends (calls : List Call) (session : Session) :
    session.store.Extends (calls.foldl step session).store := by
  induction calls generalizing session with
  | nil => exact .refl _
  | cons call calls ih => exact (session.step_extends call).trans (ih _)

theorem inv_start (store : PageStore) : (start store).Inv := by
  intro tree map hmem
  simp only [start, List.mem_singleton, Prod.mk.injEq] at hmem
  obtain ⟨rfl, rfl⟩ := hmem
  exact rfl

/-- One call keeps every earlier tree value and adds one that represents its model. -/
theorem inv_step {call : Call} (hinv : session.Inv) (hadr : (session.step call).store.Addressable) :
    (session.step call).Inv := by
  have hext := session.step_extends call
  unfold step at hadr hext ⊢
  split
  · exact hinv
  · rename_i tree map hsource
    simp only [hsource] at hadr hext
    split
    · rename_i tree' previous store hrun
      simp only [hrun] at hadr hext
      intro t m hmem
      rcases List.mem_append.mp hmem with hmem | hmem
      · exact (hinv t m hmem).mono hext
      · obtain ⟨rfl, rfl⟩ : t = tree' ∧ m = call.mutation.model map := by simpa using hmem
        exact (Mutation.run_eq_ok (hinv tree map (List.mem_of_getElem? hsource)) hrun hadr).1
    · rename_i store hrun
      simp only [hrun] at hadr hext
      exact fun t m hmem => (hinv t m hmem).mono hext

theorem inv_foldl {calls : List Call} (hinv : session.Inv) (hadr : (calls.foldl step session).store.Addressable) :
    (calls.foldl step session).Inv := by
  induction calls generalizing session with
  | nil => exact hinv
  | cons call calls ih =>
    have hstep : (session.step call).store.Addressable := (foldl_extends calls _).addressable hadr
    exact ih (inv_step hinv hstep) hadr

/-- After any calls, the next one refines the model: an accepted mutation returns a valid tree
with the model's entries and reports the old value, a unique insert of an entry that fits is
refused as a duplicate exactly for a present key and one that does not fit for its size, and no
earlier tree value changes. -/
theorem calls_refine_model (store : PageStore) (calls : List Call) (call : Call) {tree : BTree}
    {map : OrderedMap Bytes Bytes}
    (hsource : (run store calls).trees[call.source]? = some (tree, map))
    (hreads : ((run store calls).step call).store.ReadsSucceed) :
    (∀ tree' previous store', call.mutation.run tree call.csn (run store calls).store =
        .ok (tree', previous) store' →
      tree'.validate store' = .ok (call.mutation.model map).entries.length ∧
      tree'.scan store' = .ok (call.mutation.model map).entries ∧
      previous = call.mutation.old map) ∧
    (∀ csn key value, (∃ store', tree.insertUnique csn key value (run store calls).store =
        .error .duplicateKey store') ↔ ensureLeafEntryFits key value = .ok () ∧ (map.get key).isSome) ∧
    (∀ csn key value error, ensureLeafEntryFits key value = .error error →
      tree.insertUnique csn key value (run store calls).store = .error error (run store calls).store) ∧
    ∀ t m, (t, m) ∈ (run store calls).trees →
      t.scan (run store calls).store = .ok m.entries ∧
      t.scan ((run store calls).step call).store = .ok m.entries := by
  have hadr := hreads.addressable
  have hext := (run store calls).step_extends call
  have hinv : (run store calls).Inv := inv_foldl (inv_start store) (hext.addressable hadr)
  have hmap : Represents (run store calls).store tree map := hinv tree map (List.mem_of_getElem? hsource)
  refine ⟨?_, fun csn key value => insertUnique_duplicate_iff hmap, fun _ _ _ _ => insertUnique_eq_error, ?_⟩
  · intro tree' previous store' hrun
    have hstore : ((run store calls).step call).store = store' := by
      simp only [step, hsource, hrun]
    rw [hstore] at hadr
    obtain ⟨hnew, hold⟩ := Mutation.run_eq_ok hmap hrun hadr
    exact ⟨validate_eq_ok.mpr ⟨_, hnew, rfl⟩, scan_eq_ok hnew, hold⟩
  · intro t m hmem
    have hrep := hinv t m hmem
    exact ⟨scan_eq_ok hrep, scan_eq_ok (hrep.mono hext)⟩

/-- A store without pages. -/
def newStore : PageStore := .create (.ofSucc 0)

def largeValue : Bytes := List.replicate 9000 0

/-- Two entries that have no room on one leaf. -/
def twoLeaves : List Call :=
  [⟨0, .ofSucc 0, .insertUnique [1] largeValue⟩, ⟨1, .ofSucc 1, .insertUnique [2] largeValue⟩]

theorem readsSucceed_of_slots {store : PageStore} (hslots : store.slots.all (·.toBool) = true)
    (hcount : store.pageCount < 2 ^ 50) : store.ReadsSucceed := by
  intro id hid
  have hlt : id.get - 1 < store.slots.length := Nat.sub_one_lt_of_le id.pos hid
  have hslot := List.all_eq_true.mp hslots _ (List.getElem_mem hlt)
  cases hpage : store.slots[id.get - 1] with
  | error e => rw [hpage] at hslot; cases hslot
  | ok page =>
    refine ⟨page, PageStore.read_eq_ok.mpr ⟨?_, hpage ▸ List.getElem?_eq_getElem hlt⟩⟩
    unfold pageSize
    omega

set_option maxRecDepth 20000 in
/-- The first leaf is split, and the upsert goes through the new root. -/
theorem calls_refine_model_upsert :
    ∃ tree map, (run newStore twoLeaves).trees[2]? = some (tree, map) ∧ (run newStore twoLeaves).store.pageCount = 4 ∧
      ∃ result store', tree.upsert (.ofSucc 2) [1] [3] (run newStore twoLeaves).store = .ok result store' ∧
        result.previous = some largeValue ∧ result.tree.scan store' = .ok [([1], [3]), ([2], largeValue)] := by
  have hrun : ((run newStore twoLeaves).trees[2]?.any fun (tree, map) =>
      decide ((map.insert [1] [3]).entries = [([1], [3]), ([2], largeValue)] ∧
        (run newStore twoLeaves).store.pageCount = 4) &&
        match tree.upsert (.ofSucc 2) [1] [3] (run newStore twoLeaves).store with
        | .ok result store' =>
          decide (result.previous = some largeValue ∧ store'.pageCount = 6) && store'.slots.all (·.toBool)
        | .error .. => false) = true := by
    decide +kernel
  obtain ⟨⟨tree, map⟩, hsource, hchecked⟩ := (Option.any_eq_true _ _).mp hrun
  obtain ⟨hbefore, hupserted⟩ := Bool.and_eq_true_iff.mp hchecked
  obtain ⟨hentries, hpages⟩ := of_decide_eq_true hbefore
  cases hupsert : tree.upsert (.ofSucc 2) [1] [3] (run newStore twoLeaves).store with
  | error e store' => simp only [hupsert] at hupserted; cases hupserted
  | ok result store' =>
    simp only [hupsert] at hupserted
    obtain ⟨hafter, hslots⟩ := Bool.and_eq_true_iff.mp hupserted
    obtain ⟨hprevious, hcount⟩ := of_decide_eq_true hafter
    let call : Call := ⟨2, .ofSucc 2, .upsert [1] [3]⟩
    have hmutation : call.mutation.run tree call.csn (run newStore twoLeaves).store =
        .ok (result.tree, result.previous) store' := by
      simp only [call, Mutation.run, EStateM.bind_apply, hupsert]
      rfl
    have hstore : ((run newStore twoLeaves).step call).store = store' := by
      simp only [step, show (run newStore twoLeaves).trees[call.source]? = some (tree, map) from hsource, hmutation]
    have hreads : ((run newStore twoLeaves).step call).store.ReadsSucceed := by
      rw [hstore]
      exact readsSucceed_of_slots hslots (hcount.trans_lt (by decide))
    obtain ⟨-, hscan, -⟩ := (calls_refine_model newStore twoLeaves call hsource hreads).1 _ _ _ hmutation
    exact ⟨tree, map, hsource, hpages, result, store', hupsert, hprevious, hscan.trans (congrArg _ hentries)⟩

/-- One key inserted into the empty tree. -/
def firstInsert : List Call := [⟨0, .ofSucc 0, .insertUnique [1] [2]⟩]

/-- The size check comes before the lookup: a present key with a value that no leaf can hold is
refused for its size. -/
theorem insertUnique_entryTooLarge_of_present :
    ∃ tree map, (run newStore firstInsert).trees[1]? = some (tree, map) ∧
      (map.get [1]).isSome ∧
      tree.insertUnique ⟨2, by decide, by decide⟩ [1] (List.replicate 16384 0)
          (run newStore firstInsert).store =
        .error .entryTooLarge (run newStore firstInsert).store := by
  refine ⟨_, _, rfl, rfl, ?_⟩
  apply insertUnique_eq_error
  apply ensureLeafEntryFits_eq_entryTooLarge
  · decide
  · rw [List.length_replicate]
    decide
  · rw [entrySize, List.length_replicate]
    decide

end Session

end Hyphae.BTree
