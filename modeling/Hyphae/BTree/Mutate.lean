import Hyphae.BTree.Validate
import Hyphae.BTree.Writes

/-!
# Mutating one key

A rewritten node is replaced by one subtree, or by two with a separator between them.
Its leaves hold the old entries with the new one put over them, and the parent's
separators are again the least keys of the children on their right.
-/

namespace Hyphae.BTree

open Lib List EStateM

variable {entries : List KeyValue} {csn : Csn} {s t store s' : PageStore} {rewrite : Rewrite}
  {before after rs subs : List Subtree} {sub : Subtree} {key value : Bytes} {id : PageId}

/-! ## Putting an entry into a leaf -/

theorem insertIdx_length_append {α : Type} (xs ys : List α) (a : α) :
    (xs ++ ys).insertIdx xs.length a = xs ++ a :: ys := by
  induction xs with
  | nil => simp
  | cons x xs ih => simp [ih]

theorem putLeafEntry_eq (hasc : KeyAscending entries) (key value : Bytes) (mode : MutationMode) :
    putLeafEntry entries key value mode =
      if mode = .insert ∧ key ∈ entries.map Prod.fst then .error .duplicateKey
      else .ok (insertEntry key value entries, lookupKey entries key) := by
  obtain ⟨xs, ys, rfl, hindex, hxs, hys⟩ : ∃ xs ys, entries = xs ++ ys ∧
      (entries.takeWhile (·.1 < key)).length = xs.length ∧ (∀ x ∈ xs, x.1 < key) ∧ ∀ y ∈ ys, key ≤ y.1 :=
    ⟨_, _, takeWhile_append_dropWhile.symm, rfl, fun _ => lt_of_mem_takeWhile, fun _ => le_of_mem_dropWhile hasc⟩
  have hlookup : lookupKey (xs ++ ys) key = lookupKey ys key := lookupKey_append_of_forall_ne fun x hx => (hxs x hx).ne
  have hmem : key ∈ (xs ++ ys).map Prod.fst ↔ key ∈ ys.map Prod.fst := by
    rw [map_append, mem_append, or_iff_right]
    intro hk
    obtain ⟨x, hx, heq⟩ := mem_map.mp hk
    exact absurd heq (hxs x hx).ne
  have hyasc : KeyAscending ys := (keyAscending_append.mp hasc).2.1
  simp only [putLeafEntry, hindex, getElem?_append_right le_rfl, Nat.sub_self, hlookup, insertEntry_append hxs, hmem]
  cases ys with
  | nil => simp [insertEntry, lookupKey]
  | cons y ys =>
    have hky := hys y mem_cons_self
    by_cases hkey : y.1 = key
    · subst hkey
      cases mode <;> simp [insertEntry, lookupKey]
    · have hlt : key < y.1 := lt_of_le_of_ne hky (Ne.symm hkey)
      have hnot : key ∉ (y :: ys).map Prod.fst := by
        intro hk
        obtain ⟨z, hz, heq⟩ := mem_map.mp hk
        rcases mem_cons.mp hz with rfl | hz
        · exact hkey heq
        · exact absurd heq (hlt.trans ((keyAscending_cons.mp hyasc).1 z hz)).ne'
      rw [lookupKey_eq_none.mpr hnot, if_neg (fun h => hnot h.2), getElem?_cons_zero]
      simp [insertEntry, hlt, hkey, insertIdx_length_append]

/-! ## Writing leaves and internal nodes -/

/-- An appended leaf is a subtree of height 0. -/
theorem leaf_written (h : appendNode csn (.leaf entries) s = .ok id t) (ht : t.Addressable) :
    Holds t 0 ⟨id, entries, [id]⟩ ∧ Grown s t [] [id] := by
  obtain ⟨-, hid, hcount, hread⟩ := appendNode_eq_ok h ht
  exact ⟨⟨hread, rfl⟩, ⟨by simp, fun p hp => .inr (by simp at hp; subst hp; omega)⟩⟩

/-- The subtree of an internal node over its children. -/
def Subtree.over (page : PageId) (subs : List Subtree) : Subtree :=
  ⟨page, subs.flatMap Subtree.entries, page :: subs.flatMap Subtree.pages⟩

/-- An internal node appended over a group of subtrees is the subtree of their entries. -/
theorem group_written (subs : List Subtree) {h : Nat}
    (hok : appendNode csn (.internal (subs.tail.map Subtree.minimum) (subs.map Subtree.page)) s = .ok id t)
    (ht : t.Addressable) (hsubs : ∀ sub ∈ subs, Holds s h sub) : Holds t (h + 1) (.over id subs) := by
  have hext := (appendNode_moves csn _).ok hok
  obtain ⟨-, -, -, hread⟩ := appendNode_eq_ok hok ht
  exact ⟨subs, hread, fun sub hsub => (hsubs sub hsub).mono hext, rfl, rfl⟩

/-- The subtrees a rewrite stands for. -/
def Rewrite.Of : Rewrite → List Subtree → Prop
  | .one page, rs => ∃ r, rs = [r] ∧ r.page = page
  | .split left separator right, rs => ∃ a b, rs = [a, b] ∧ a.page = left ∧ b.page = right ∧ b.minimum = separator

theorem writeLeaf_moves (csn : Csn) (entries : List KeyValue) :
    EStateM.Moves PageStore.Extends (writeLeaf csn entries) := by
  refine .bind (.ofExcept _) fun length => ?_
  split
  · exact .bind (appendNode_moves _ _) fun _ => .pure _
  · refine .bind (.ofExcept _) fun _ => .bind (.ofExcept _) fun _ => ?_
    exact .bind (appendNode_moves _ _) fun _ => .bind (appendNode_moves _ _) fun _ => .pure _

theorem writeLeaf_eq_ok (hok : writeLeaf csn entries s = .ok rewrite t) (ht : t.Addressable) :
    ∃ rs, rewrite.Of rs ∧ (∀ r ∈ rs, Holds t 0 r) ∧ rs.flatMap Subtree.entries = entries := by
  simp only [writeLeaf, bind_eq_ok, ofExcept_eq_ok] at hok
  obtain ⟨length, s', ⟨-, rfl⟩, hok⟩ := hok
  split at hok
  · obtain ⟨id, t', hid, hpure⟩ := bind_eq_ok.mp hok
    cases hpure
    exact ⟨[⟨id, entries, [id]⟩], ⟨_, rfl, rfl⟩, by simpa using (leaf_written hid ht).1, by simp⟩
  · simp only [bind_eq_ok, ofExcept_eq_ok, Except.okOr_eq_ok] at hok
    obtain ⟨split, _, ⟨-, rfl⟩, first, _, ⟨hfirst, rfl⟩, left, t₁, hleft, right, t₂, hright, hpure⟩ := hok
    cases hpure
    have hext := (appendNode_moves csn _).ok hright
    obtain ⟨hholdsl, -⟩ := leaf_written hleft (hext.addressable ht)
    obtain ⟨hholdsr, -⟩ := leaf_written hright ht
    refine ⟨[⟨left, entries.take split, [left]⟩, ⟨right, entries.drop split, [right]⟩], ⟨_, _, rfl, rfl, rfl, ?_⟩,
      ?_, ?_⟩
    · simp [Subtree.minimum, hfirst]
    · simpa using ⟨hholdsl.mono hext, hholdsr⟩
    · simp

theorem writeInternal_moves (csn : Csn) (keys : List Bytes) (children : List PageId) :
    EStateM.Moves PageStore.Extends (writeInternal csn keys children) := by
  refine .bind (.ofExcept _) fun length => ?_
  split
  · exact .bind (appendNode_moves _ _) fun _ => .pure _
  · refine .bind (.ofExcept _) fun _ => .bind (.ofExcept _) fun _ => ?_
    exact .bind (appendNode_moves _ _) fun _ => .bind (appendNode_moves _ _) fun _ => .pure _

theorem writeInternal_eq_ok {h : Nat}
    (hok : writeInternal csn (subs.tail.map Subtree.minimum) (subs.map Subtree.page) s = .ok rewrite t)
    (ht : t.Addressable) (hsubs : ∀ sub ∈ subs, Holds s h sub) :
    ∃ rs, rewrite.Of rs ∧ (∀ r ∈ rs, Holds t (h + 1) r) ∧
      rs.flatMap Subtree.entries = subs.flatMap Subtree.entries := by
  simp only [writeInternal, bind_eq_ok, ofExcept_eq_ok] at hok
  obtain ⟨length, s', ⟨-, rfl⟩, hok⟩ := hok
  split at hok
  · obtain ⟨id, t', hid, hpure⟩ := bind_eq_ok.mp hok
    cases hpure
    exact ⟨[.over id subs], ⟨_, rfl, rfl⟩, by simpa using group_written _ hid ht hsubs, by simp [Subtree.over]⟩
  · simp only [bind_eq_ok, ofExcept_eq_ok, Except.okOr_eq_ok] at hok
    obtain ⟨promote, _, ⟨-, rfl⟩, separator, _, ⟨hseparator, rfl⟩, left, t₁, hleft, right, t₂, hright, hpure⟩ := hok
    cases hpure
    -- The separators left and right of the promoted one belong to the children on the same side.
    have hleftKeys : (subs.tail.map Subtree.minimum).take promote =
        (subs.take (promote + 1)).tail.map Subtree.minimum := by
      rw [← map_take]
      cases subs <;> simp
    have hrightKeys : (subs.tail.map Subtree.minimum).drop (promote + 1) =
        (subs.drop (promote + 1)).tail.map Subtree.minimum := by
      rw [← map_drop, tail_drop, drop_tail]
    rw [hleftKeys, ← map_take] at hleft
    rw [hrightKeys, ← map_drop] at hright
    have hsplit := take_append_drop (promote + 1) subs
    have hextl := (appendNode_moves csn _).ok hleft
    have hextr := (appendNode_moves csn _).ok hright
    have hholdsl := group_written _ hleft (hextr.addressable ht) fun sub hsub => hsubs sub (mem_of_mem_take hsub)
    have hholdsr := group_written _ hright ht fun sub hsub => (hsubs sub (mem_of_mem_drop hsub)).mono hextl
    refine ⟨[.over left (subs.take (promote + 1)), .over right (subs.drop (promote + 1))],
      ⟨_, _, rfl, rfl, rfl, ?_⟩, ?_, ?_⟩
    · have hhead : (subs.drop (promote + 1)).head?.map Subtree.minimum = some separator := by
        rw [head?_drop, ← hseparator, getElem?_map, getElem?_tail]
      obtain ⟨first, hfirst, rfl⟩ := Option.map_eq_some_iff.mp hhead
      exact minimum_of_subs (fun sub hsub => (hsubs sub (mem_of_mem_drop hsub)).entries_ne_nil) rfl hfirst
    · simpa using ⟨hholdsl.mono hextr, hholdsr⟩
    · rw [flatMap_cons, flatMap_singleton, Subtree.over, Subtree.over, ← flatMap_append, hsplit]

/-! ## Routing a key to a child -/

/-- The child a key is routed to: everything left of it is below the key, everything right of it above. -/
theorem childIndex_split {h : Nat} (key : Bytes) (hne : subs ≠ []) (hsubs : ∀ sub ∈ subs, Holds store h sub)
    (hasc : KeyAscending (subs.flatMap Subtree.entries)) :
    ∃ before sub after, subs = before ++ sub :: after ∧
      childIndex (subs.tail.map Subtree.minimum) key = before.length ∧ (before ≠ [] → sub.minimum ≤ key) ∧
      ∀ e ∈ after.flatMap Subtree.entries, key < e.1 := by
  cases subs with
  | nil => exact absurd rfl hne
  | cons first rest =>
    induction rest generalizing first with
    | nil => exact ⟨[], first, [], rfl, by simp [childIndex], by simp, by simp⟩
    | cons next rest ih =>
      have hasc' : KeyAscending ((next :: rest).flatMap Subtree.entries) :=
        (keyAscending_append.mp (flatMap_cons ▸ hasc)).2.1
      have hsubs' : ∀ sub ∈ next :: rest, Holds store h sub := fun sub hsub => hsubs sub (mem_cons_of_mem _ hsub)
      by_cases hkey : next.minimum ≤ key
      · obtain ⟨before, sub, after, heq, hindex, hmin, hafter⟩ := ih next (by simp) hsubs' hasc'
        refine ⟨first :: before, sub, after, by rw [heq, cons_append], ?_, ?_, hafter⟩
        · unfold childIndex at hindex ⊢
          rw [tail_cons] at hindex
          rw [tail_cons, map_cons, takeWhile_cons, if_pos (by simpa using hkey), length_cons, hindex, length_cons]
        · intro _
          cases before with
          | nil => exact (cons.inj heq).1 ▸ hkey
          | cons b before => exact hmin (by simp)
      · refine ⟨[], first, next :: rest, rfl, ?_, by simp, ?_⟩
        · unfold childIndex
          rw [tail_cons, map_cons, takeWhile_cons, if_neg (by simpa using hkey)]
          rfl
        · intro e he
          have hnext := (hsubs' next mem_cons_self).entries_ne_nil
          exact (not_le.mp hkey).trans_le (minimum_le_of_subs hnext hasc' e he)

/-- Entries before the child are below its least key, hence below a key routed to it. -/
theorem before_below (hne : sub.entries ≠ []) (hasc : KeyAscending ((before ++ sub :: after).flatMap Subtree.entries))
    (hmin : before ≠ [] → sub.minimum ≤ key) : ∀ x ∈ before.flatMap Subtree.entries, x.1 < key := by
  intro x hx
  have hbefore : before ≠ [] := by
    rintro rfl
    simp at hx
  simp only [flatMap_append, flatMap_cons] at hasc
  obtain ⟨-, -, hlt⟩ := keyAscending_append.mp hasc
  obtain ⟨e, he, heq⟩ := exists_minimum hne
  exact (hlt x hx e (mem_append_left _ he)).trans_le (heq ▸ hmin hbefore)

/-- The children of a sound internal node around the one a key is routed to. -/
structure Route (store : PageStore) (h : Nat) (t : Subtree) (key : Bytes) (before : List Subtree) (sub : Subtree)
    (after : List Subtree) : Prop where
  read : readNode store t.page = .ok (.internal ((before ++ sub :: after).tail.map Subtree.minimum)
    ((before ++ sub :: after).map Subtree.page))
  holds : ∀ x ∈ before ++ sub :: after, Holds store h x
  entries : t.entries = (before ++ sub :: after).flatMap Subtree.entries
  pages : t.pages = t.page :: (before ++ sub :: after).flatMap Subtree.pages
  index : childIndex ((before ++ sub :: after).tail.map Subtree.minimum) key = before.length
  minimum_le : before ≠ [] → sub.minimum ≤ key
  after_above : ∀ e ∈ after.flatMap Subtree.entries, key < e.1
  sound : Sound store h sub

theorem Sound.route {h : Nat} {t : Subtree} (ht : Sound store (h + 1) t) (key : Bytes) :
    ∃ before sub after, Route store h t key before sub after := by
  obtain ⟨subs, hread, hsubs, hentries, hpages⟩ := ht.holds
  have hasc := hentries ▸ ht.ascending
  have hne : subs ≠ [] := by
    rintro rfl
    exact absurd (Holds.two_le_subs hread) (by simp)
  obtain ⟨before, sub, after, rfl, hindex, hmin, hafter⟩ := childIndex_split key hne hsubs hasc
  exact ⟨before, sub, after, hread, hsubs, hentries, hpages, hindex, hmin, hafter, sound_subs hsubs hasc sub (by simp)⟩

section Route

variable {h : Nat} {t : Subtree}

theorem Route.getElem? (_ : Route store h t key before sub after) :
    ((before ++ sub :: after).map Subtree.page)[before.length]? = some sub.page := by simp

/-- A key is present in a node exactly as it is in the child it is routed to. -/
theorem Route.lookupKey_eq (r : Route store h t key before sub after) (hasc : KeyAscending t.entries) :
    lookupKey t.entries key = lookupKey sub.entries key := by
  rw [r.entries] at hasc ⊢
  have hbelow := before_below r.sound.holds.entries_ne_nil hasc r.minimum_le
  rw [flatMap_append, flatMap_cons, lookupKey_append_of_forall_ne fun x hx => (hbelow x hx).ne,
    lookupKey_append_right_of_forall_ne fun y hy => (r.after_above y hy).ne']

theorem Route.mem_keys_iff (r : Route store h t key before sub after) (hasc : KeyAscending t.entries) :
    key ∈ t.entries.map Prod.fst ↔ key ∈ sub.entries.map Prod.fst := by
  rw [← not_iff_not, ← lookupKey_eq_none, ← lookupKey_eq_none, r.lookupKey_eq hasc]

end Route

/-- Splicing the subtrees of a rewrite in the place of a child keeps separators and children in step. -/
theorem spliceRewrite_eq (hof : rewrite.Of rs) (hmin : before ≠ [] → ∀ r ∈ rs.head?, r.minimum = sub.minimum) :
    spliceRewrite ((before ++ sub :: after).tail.map Subtree.minimum) ((before ++ sub :: after).map Subtree.page)
        before.length rewrite =
      ((before ++ (rs ++ after)).tail.map Subtree.minimum, (before ++ (rs ++ after)).map Subtree.page) := by
  have hset (page : PageId) : ((before ++ sub :: after).map Subtree.page).set before.length page =
      before.map Subtree.page ++ page :: after.map Subtree.page := by simp
  cases rewrite with
  | one page =>
    obtain ⟨r, rfl, rfl⟩ := hof
    simp only [spliceRewrite, hset]
    cases before with
    | nil => simp
    | cons b before => simp [hmin (by simp) r (by simp)]
  | split left separator right =>
    obtain ⟨a, b, rfl, rfl, rfl, rfl⟩ := hof
    simp only [spliceRewrite, hset]
    have hchildren : (before.map Subtree.page ++ a.page :: after.map Subtree.page).insertIdx
        (before.length + 1) b.page = before.map Subtree.page ++ a.page :: b.page :: after.map Subtree.page := by
      have := insertIdx_length_append (before.map Subtree.page ++ [a.page]) (after.map Subtree.page) b.page
      simpa using this
    rw [hchildren]
    cases before with
    | nil => simp
    | cons c before =>
      have hkeys := insertIdx_length_append (before.map Subtree.minimum ++ [sub.minimum])
        (after.map Subtree.minimum) b.minimum
      simp only [length_append, length_map, length_singleton, append_assoc, singleton_append]
        at hkeys
      simp [hkeys, hmin (by simp) a (by simp)]

/-! ## Rewriting a subtree -/

theorem rewriteNode_moves (csn : Csn) (key value : Bytes) (mode : MutationMode) (levels : Nat) (page : PageId) :
    EStateM.Moves PageStore.Extends (rewriteNode csn key value mode levels page) := by
  induction levels generalizing page with
  | zero => exact .throw _
  | succ levels ih =>
    refine .bind (loadNode_moves page) fun node => ?_
    cases node with
    | leaf entries => exact .bind (.ofExcept _) fun _ => .bind (writeLeaf_moves _ _) fun _ => .pure _
    | internal keys children =>
      exact .bind (.ofExcept _) fun _ => .bind (ih _) fun _ =>
        .bind (writeInternal_moves _ _ _) fun _ => .pure _

/-- Updates at or above the least key of a subtree keep the least key of what replaces it. -/
theorem minimum_of_overlay {h : Nat} {us : List KeyValue} (hne : sub.entries ≠ []) (hasc : KeyAscending sub.entries)
    (hrs : ∀ r ∈ rs, Holds store h r) (hover : Overlay us sub.entries (rs.flatMap Subtree.entries))
    (hus : ∀ u ∈ us, sub.minimum ≤ u.1) : ∀ r ∈ rs.head?, r.minimum = sub.minimum := by
  intro r hr
  cases hes : sub.entries with
  | nil => exact absurd hes hne
  | cons e es =>
    rw [sub.minimum_eq hes] at hus ⊢
    rw [hes] at hover hasc
    have hhead := hover.head_key hasc hus
    have hmin := minimum_of_subs (t := ⟨r.page, rs.flatMap Subtree.entries, []⟩)
      (fun r hr => (hrs r hr).entries_ne_nil) rfl hr
    rw [← hmin]
    simp [Subtree.minimum, hhead]

/-- One child replaced by what it was rewritten to, its siblings kept. -/
theorem child_replaced {h : Nat} (hsubs : ∀ x ∈ before ++ sub :: after, Holds s h x)
    (hasc : KeyAscending ((before ++ sub :: after).flatMap Subtree.entries)) (hext : s.Extends s')
    (hmin : before ≠ [] → sub.minimum ≤ key) (hafter : ∀ e ∈ after.flatMap Subtree.entries, key < e.1)
    (hrs : ∀ r ∈ rs, Holds s' h r) (hover : Overlay [(key, value)] sub.entries (rs.flatMap Subtree.entries)) :
    (∀ x ∈ before ++ (rs ++ after), Holds s' h x) ∧
      Overlay [(key, value)] ((before ++ sub :: after).flatMap Subtree.entries)
        ((before ++ (rs ++ after)).flatMap Subtree.entries) := by
  have hbelow := before_below (hsubs sub (by simp)).entries_ne_nil hasc hmin
  simp only [flatMap_append, flatMap_cons] at hasc ⊢
  obtain ⟨hascBefore, hascRest, hlt⟩ := keyAscending_append.mp hasc
  obtain ⟨-, hascAfter, hltAfter⟩ := keyAscending_append.mp hascRest
  refine ⟨?_, ?_⟩
  · intro x hx
    simp only [mem_append] at hx
    rcases hx with hx | hx | hx
    · exact (hsubs x (by simp [hx])).mono hext
    · exact hrs x hx
    · exact (hsubs x (by simp [hx])).mono hext
  · have hnil : Overlay [] (after.flatMap Subtree.entries) (after.flatMap Subtree.entries) := .nil hascAfter
    have hright := hover.append hnil (by
      intro x hx y hy
      rw [nil_append] at hy
      rcases mem_append.mp hx with hx | hx
      · rw [mem_singleton.mp hx]
        exact hafter y hy
      · exact hltAfter x hx y hy)
    have hall := (Overlay.nil hascBefore).append hright (by
      intro x hx y hy
      rw [nil_append] at hx
      rcases mem_append.mp hy with hy | hy
      · rw [append_nil, mem_singleton] at hy
        rw [hy]
        exact hbelow x hx
      · exact hlt x hx y hy)
    simpa using hall

theorem rewriteNode_eq_ok {mode : MutationMode} {levels h : Nat} {t : Subtree} {previous : Option Bytes}
    (ht : Sound s h t) (hok : rewriteNode csn key value mode levels t.page s = .ok (rewrite, previous) s')
    (hs' : s'.Addressable) :
    previous = lookupKey t.entries key ∧ ∃ rs, rewrite.Of rs ∧ (∀ r ∈ rs, Holds s' h r) ∧
      Overlay [(key, value)] t.entries (rs.flatMap Subtree.entries) := by
  induction levels generalizing h t s' rewrite previous with
  | zero => cases hok
  | succ levels ih =>
    cases h with
    | zero =>
      obtain ⟨hread, hpages⟩ := ht.holds
      rw [rewriteNode, loadNode_bind hread] at hok
      simp only [bind_eq_ok, ofExcept_eq_ok, Prod.exists, putLeafEntry_eq ht.ascending] at hok
      obtain ⟨entries, _, _, ⟨hput, rfl⟩, _, _, hwrite, hpure⟩ := hok
      cases hpure
      split at hput
      · cases hput
      · cases hput
        obtain ⟨rs, hof, hholds, hentries⟩ := writeLeaf_eq_ok hwrite hs'
        refine ⟨rfl, rs, hof, hholds, ?_⟩
        rw [hentries]
        exact overlay_insertEntry key value ht.ascending
    | succ h =>
      obtain ⟨before, sub, after, hroute⟩ := ht.route key
      have hasc := hroute.entries ▸ ht.ascending
      rw [rewriteNode, loadNode_bind hroute.read] at hok
      simp only [bind_eq_ok, ofExcept_eq_ok, Except.okOr_eq_ok, Prod.exists, hroute.index, hroute.getElem?] at hok
      obtain ⟨_, _, ⟨hchild, rfl⟩, childRewrite, _, s₁, hrewrite, _, _, hwrite, hpure⟩ := hok
      cases hchild
      cases hpure
      have hext := (rewriteNode_moves _ _ _ _ _ _).ok hrewrite
      have hextWrite := (writeInternal_moves _ _ _).ok hwrite
      obtain ⟨hprevious, rs, hof, hrs, hover⟩ := ih hroute.sound hrewrite (hextWrite.addressable hs')
      have hhead : before ≠ [] → ∀ r ∈ rs.head?, r.minimum = sub.minimum := fun hbefore =>
        minimum_of_overlay hroute.sound.holds.entries_ne_nil hroute.sound.ascending hrs hover
          (by simpa using hroute.minimum_le hbefore)
      rw [spliceRewrite_eq hof hhead] at hwrite
      obtain ⟨hholds', hover'⟩ := child_replaced hroute.holds hasc hext hroute.minimum_le hroute.after_above hrs hover
      obtain ⟨rs', hof', hrs', hentries'⟩ := writeInternal_eq_ok hwrite hs' hholds'
      refine ⟨?_, rs', hof', hrs', ?_⟩
      · rw [hroute.lookupKey_eq ht.ascending, hprevious]
      · rw [hroute.entries, hentries']
        exact hover'

end Hyphae.BTree
