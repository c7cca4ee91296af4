import Hyphae.Lib.Ascending

/-!
# Ordered maps

A finite map over a linear order is the list of its entries in strictly ascending
key order. Two such lists with the same entries are equal, so an operation is
specified by the entries it leaves: `Overlay` says that a list is another one with
some updates put over it.
-/

namespace Lib

open List
open Prod (fst)

variable {κ ν : Type} [LinearOrder κ]

variable {es xs ys : List (κ × ν)} {e : κ × ν}

variable {k : κ}

/-! ## Lists of entries -/

theorem keyAscending_nil : KeyAscending ([] : List (κ × ν)) := ascending_nil

theorem keyAscending_iff_pairwise : KeyAscending es ↔ es.Pairwise fun a b => a.1 < b.1 :=
  ascending_iff_pairwise.trans pairwise_map

theorem keyAscending_singleton (e : κ × ν) : KeyAscending [e] := ascending_singleton e.1

theorem keyAscending_cons : KeyAscending (e :: es) ↔ (∀ e' ∈ es, e.1 < e'.1) ∧ KeyAscending es := by
  simp only [KeyAscending, map_cons, ascending_cons, forall_mem_map]

theorem keyAscending_append :
    KeyAscending (xs ++ ys) ↔ KeyAscending xs ∧ KeyAscending ys ∧ ∀ x ∈ xs, ∀ y ∈ ys, x.1 < y.1 := by
  simp only [KeyAscending, map_append, ascending_append, forall_mem_map]

theorem KeyAscending.sublist (h : KeyAscending ys) (hs : xs.Sublist ys) : KeyAscending xs :=
  Ascending.sublist h (hs.map _)

theorem KeyAscending.nodup_keys (h : KeyAscending es) : (es.map fst).Nodup :=
  (ascending_iff_pairwise.mp h).imp ne_of_lt

theorem KeyAscending.nodup (h : KeyAscending es) : es.Nodup := h.nodup_keys.of_map _

/-- A key occurs once. -/
theorem KeyAscending.value_unique (h : KeyAscending es) {v v' : ν} (hv : (k, v) ∈ es) (hv' : (k, v') ∈ es) :
    v = v' := by
  have hsame := inj_on_of_nodup_map h.nodup_keys hv hv' rfl
  exact (Prod.mk.inj hsame).2

theorem KeyAscending.eq_of_mem_iff (hx : KeyAscending xs) (hy : KeyAscending ys) (h : ∀ e, e ∈ xs ↔ e ∈ ys) :
    xs = ys := by
  have hperm := (perm_ext_iff_of_nodup hx.nodup hy.nodup).mpr h
  exact hperm.eq_of_pairwise (fun a b _ _ hab hba => absurd hab hba.asymm) (keyAscending_iff_pairwise.mp hx)
    (keyAscending_iff_pairwise.mp hy)

omit [LinearOrder κ] in
/-- A key apart from those of the entries. -/
theorem not_mem_keys (h : ∀ e ∈ es, e.1 ≠ k) : k ∉ es.map fst := by
  intro hk
  obtain ⟨e, he, heq⟩ := mem_map.mp hk
  exact h e he heq

/-- The entries before the place of a key are below it. -/
theorem lt_of_mem_takeWhile [DecidablePred fun e : κ × ν => e.1 < k] (h : e ∈ es.takeWhile (·.1 < k)) : e.1 < k := by
  simpa using mem_takeWhile_imp h

/-- The entries from the place of a key on are not below it. -/
theorem le_of_mem_dropWhile (hasc : KeyAscending es) [DecidablePred fun e : κ × ν => e.1 < k]
    (h : e ∈ es.dropWhile (·.1 < k)) : k ≤ e.1 := by
  cases hdrop : es.dropWhile (·.1 < k) with
  | nil =>
    rw [hdrop] at h
    cases h
  | cons z zs =>
    have hz : k ≤ z.1 := by
      have hhead := head?_dropWhile_not (fun e : κ × ν => decide (e.1 < k)) es
      rw [hdrop] at hhead
      simpa using hhead
    have hsub : KeyAscending (z :: zs) := hdrop ▸ hasc.sublist (dropWhile_sublist _)
    rw [hdrop] at h
    rcases mem_cons.mp h with rfl | h
    · exact hz
    · exact hz.trans ((keyAscending_cons.mp hsub).1 e h).le

/-- The value stored under a key. -/
def lookupKey (es : List (κ × ν)) (k : κ) : Option ν := (es.find? (·.1 = k)).map Prod.snd

theorem lookupKey_eq_some (h : KeyAscending es) {v : ν} : lookupKey es k = some v ↔ (k, v) ∈ es := by
  constructor
  · intro hl
    obtain ⟨e, he, rfl⟩ := Option.map_eq_some_iff.mp hl
    have hk : e.1 = k := by simpa using find?_some he
    exact hk ▸ mem_of_find?_eq_some he
  · intro hmem
    cases hf : es.find? (·.1 = k) with
    | none => simpa using find?_eq_none.mp hf _ hmem
    | some e =>
      have hk : e.1 = k := by simpa using find?_some hf
      have he : (k, e.2) ∈ es := hk ▸ mem_of_find?_eq_some hf
      simp only [lookupKey, hf, Option.map_some, h.value_unique hmem he]

theorem lookupKey_eq_none : lookupKey es k = none ↔ k ∉ es.map fst := by
  simp only [lookupKey, Option.map_eq_none_iff, find?_eq_none, decide_eq_true_eq, mem_map, not_exists, not_and]

theorem lookupKey_append_of_forall_ne (h : ∀ x ∈ xs, x.1 ≠ k) : lookupKey (xs ++ ys) k = lookupKey ys k := by
  have hnone : xs.find? (·.1 = k) = none := by simpa using h
  rw [lookupKey, lookupKey, find?_append, hnone, Option.none_or]

theorem lookupKey_append_right_of_forall_ne (h : ∀ y ∈ ys, y.1 ≠ k) : lookupKey (xs ++ ys) k = lookupKey xs k := by
  have hnone : ys.find? (·.1 = k) = none := by simpa using h
  rw [lookupKey, lookupKey, find?_append, hnone, Option.or_none]

/-! ## Updates put over entries -/

/-- `result` holds the updates, and the entries no update replaces. -/
structure Overlay (updates entries result : List (κ × ν)) : Prop where
  ascending : KeyAscending result
  mem : ∀ e, e ∈ result ↔ e ∈ updates ∨ e ∈ entries ∧ e.1 ∉ updates.map Prod.fst

namespace Overlay

variable {us rs rs' us' es' : List (κ × ν)}

theorem unique (h : Overlay us es rs) (h' : Overlay us es rs') : rs = rs' :=
  h.ascending.eq_of_mem_iff h'.ascending fun e => (h.mem e).trans (h'.mem e).symm

theorem nil (h : KeyAscending es) : Overlay [] es es := ⟨h, by simp⟩

theorem onto_nil (h : KeyAscending us) : Overlay us [] us := ⟨h, by simp⟩

theorem mem_or (h : Overlay us es rs) (he : e ∈ rs) : e ∈ us ∨ e ∈ es := ((h.mem e).mp he).imp_right And.left

/-- The keys are those of the updates and those of the entries. -/
theorem mem_keys (h : Overlay us es rs) : k ∈ rs.map fst ↔ k ∈ us.map fst ∨ k ∈ es.map fst := by
  constructor
  · intro hk
    obtain ⟨e, he, rfl⟩ := mem_map.mp hk
    exact (h.mem_or he).imp mem_map_of_mem mem_map_of_mem
  · intro hk
    by_cases hu : k ∈ us.map fst
    · obtain ⟨e, he, rfl⟩ := mem_map.mp hu
      exact mem_map_of_mem ((h.mem e).mpr (.inl he))
    · obtain ⟨e, he, rfl⟩ := mem_map.mp (hk.resolve_left hu)
      exact mem_map_of_mem ((h.mem e).mpr (.inr ⟨he, hu⟩))

/-- Overlays on two key ranges, one below the other, combine. -/
theorem append (h : Overlay us es rs) (h' : Overlay us' es' rs')
    (hlt : ∀ x ∈ us ++ es, ∀ y ∈ us' ++ es', x.1 < y.1) : Overlay (us ++ us') (es ++ es') (rs ++ rs') := by
  have hapart : ∀ x ∈ rs, ∀ y ∈ rs', x.1 < y.1 := fun x hx y hy =>
    hlt x (mem_append.mpr (h.mem_or hx)) y (mem_append.mpr (h'.mem_or hy))
  refine ⟨keyAscending_append.mpr ⟨h.ascending, h'.ascending, hapart⟩, ?_⟩
  intro e
  have hnot : e ∈ es → e.1 ∉ us'.map fst := fun he =>
    not_mem_keys fun u hu => (hlt e (mem_append_right _ he) u (mem_append_left _ hu)).ne'
  have hnot' : e ∈ es' → e.1 ∉ us.map fst := fun he =>
    not_mem_keys fun u hu => (hlt u (mem_append_left _ hu) e (mem_append_right _ he)).ne
  simp only [mem_append, h.mem, h'.mem, map_append]
  tauto

/-- An entry below everything stays in front. -/
theorem cons {e : κ × ν} (h : Overlay us es rs) (hus : ∀ u ∈ us, e.1 < u.1) (hes : ∀ e' ∈ es, e.1 < e'.1) :
    Overlay us (e :: es) (e :: rs) := by
  refine ⟨keyAscending_cons.mpr ⟨?_, h.ascending⟩, fun x => ?_⟩
  · intro r hr
    exact (h.mem_or hr).elim (hus r) (hes r)
  · have hnot : x = e → x.1 ∉ us.map fst := by
      rintro rfl
      exact not_mem_keys fun u hu => (hus u hu).ne'
    simp only [mem_cons, h.mem]
    tauto

/-- A first update below the others goes in front and replaces its key. -/
theorem cons_update {u : κ × ν} (h : Overlay us es' rs) (hus : ∀ u' ∈ us, u.1 < u'.1) (hes' : ∀ e ∈ es', u.1 < e.1)
    (hes : ∀ e, e ∈ es' ↔ e ∈ es ∧ e.1 ≠ u.1) : Overlay (u :: us) es (u :: rs) := by
  refine ⟨keyAscending_cons.mpr ⟨?_, h.ascending⟩, fun x => ?_⟩
  · intro r hr
    exact (h.mem_or hr).elim (hus r) (hes' r)
  · simp only [mem_cons, h.mem, hes, map_cons]
    tauto

/-- Updates at or above the least key leave the least key in place. -/
theorem head_key {e : κ × ν} (h : Overlay us (e :: es) rs) (hes : KeyAscending (e :: es))
    (hus : ∀ u ∈ us, e.1 ≤ u.1) : rs.head?.map fst = some e.1 := by
  have hmin : ∀ r ∈ rs, e.1 ≤ r.1 := by
    intro r hr
    rcases h.mem_or hr with hr | hr
    · exact hus r hr
    · rcases mem_cons.mp hr with rfl | hr
      · exact le_rfl
      · exact ((keyAscending_cons.mp hes).1 r hr).le
  obtain ⟨r, hr, hkey⟩ := mem_map.mp (h.mem_keys.mpr (.inr (by simp : e.1 ∈ (e :: es).map fst)))
  cases rs with
  | nil => cases hr
  | cons r' rs =>
    have hle : r'.1 ≤ e.1 := by
      rcases mem_cons.mp hr with rfl | hr
      · exact hkey.le
      · exact hkey ▸ ((keyAscending_cons.mp h.ascending).1 r hr).le
    simpa using le_antisymm hle (hmin r' mem_cons_self)

theorem lookupKey_eq (h : Overlay us es rs) (hus : KeyAscending us) (hes : KeyAscending es) (k : κ) :
    lookupKey rs k = (lookupKey us k).or (lookupKey es k) := by
  cases hu : lookupKey us k with
  | some v =>
    rw [lookupKey_eq_some hus] at hu
    rw [Option.some_or, lookupKey_eq_some h.ascending, h.mem]
    exact .inl hu
  | none =>
    rw [Option.none_or]
    rw [lookupKey_eq_none] at hu
    cases he : lookupKey es k with
    | some v =>
      rw [lookupKey_eq_some hes] at he
      rw [lookupKey_eq_some h.ascending, h.mem]
      exact .inr ⟨he, hu⟩
    | none =>
      rw [lookupKey_eq_none] at he ⊢
      rw [h.mem_keys]
      tauto

end Overlay

/-! ## The map -/

/-- Put an entry into an ascending list. -/
def insertEntry (k : κ) (v : ν) : List (κ × ν) → List (κ × ν)
  | [] => [(k, v)]
  | e :: es =>
    if k < e.1 then (k, v) :: e :: es
    else if k = e.1 then (k, v) :: es
    else e :: insertEntry k v es

theorem insertEntry_append (h : ∀ x ∈ xs, x.1 < k) (v : ν) (ys : List (κ × ν)) :
    insertEntry k v (xs ++ ys) = xs ++ insertEntry k v ys := by
  induction xs with
  | nil => rfl
  | cons x xs ih =>
    obtain ⟨hx, hxs⟩ := forall_mem_cons.mp h
    rw [cons_append, insertEntry, if_neg hx.asymm, if_neg hx.ne', ih hxs, cons_append]

theorem overlay_insertEntry (k : κ) (v : ν) (h : KeyAscending es) : Overlay [(k, v)] es (insertEntry k v es) := by
  induction es with
  | nil => exact .onto_nil (keyAscending_singleton _)
  | cons e es ih =>
    obtain ⟨hlt, hes⟩ := keyAscending_cons.mp h
    unfold insertEntry
    split
    · rename_i hke
      refine ⟨keyAscending_cons.mpr ⟨?_, h⟩, fun x => ?_⟩
      · intro x hx
        rcases mem_cons.mp hx with rfl | hx
        · exact hke
        · exact hke.trans (hlt x hx)
      · have hne : x ∈ e :: es → x.1 ≠ k := by
          intro hx
          rcases mem_cons.mp hx with rfl | hx
          · exact hke.ne'
          · exact (hke.trans (hlt x hx)).ne'
        simp only [mem_cons, not_mem_nil, or_false, map_cons, map_nil] at hne ⊢
        tauto
    · split
      · rename_i hke
        subst hke
        refine ⟨keyAscending_cons.mpr ⟨hlt, hes⟩, fun x => ?_⟩
        have hne : x ∈ es → x.1 ≠ e.1 := fun hx => (hlt x hx).ne'
        simp only [mem_cons, not_mem_nil, or_false, map_cons, map_nil] at hne ⊢
        constructor
        · rintro (hx | hx)
          · exact .inl hx
          · exact .inr ⟨.inr hx, hne hx⟩
        · rintro (hx | ⟨rfl | hx, hk⟩)
          · exact .inl hx
          · exact absurd rfl hk
          · exact .inr hx
      · rename_i hnlt hneq
        have hek : e.1 < k := lt_of_le_of_ne (not_lt.mp hnlt) (Ne.symm hneq)
        exact (ih hes).cons (by simpa using hek) hlt

/-- A finite map, by its entries in ascending key order. -/
structure OrderedMap (κ ν : Type) [LinearOrder κ] where
  entries : List (κ × ν)
  ascending : KeyAscending entries

namespace OrderedMap

variable {k' : κ}

variable {m m' : OrderedMap κ ν} {v : ν}

@[ext] theorem ext_entries (h : m.entries = m'.entries) : m = m' := by
  cases m
  cases m'
  simpa using h

def empty : OrderedMap κ ν := ⟨[], keyAscending_nil⟩

def get (m : OrderedMap κ ν) (k : κ) : Option ν := lookupKey m.entries k

def insert (m : OrderedMap κ ν) (k : κ) (v : ν) : OrderedMap κ ν :=
  ⟨insertEntry k v m.entries, (overlay_insertEntry k v m.ascending).ascending⟩

/-- Insert the entries in turn. -/
def insertAll (m : OrderedMap κ ν) (us : List (κ × ν)) : OrderedMap κ ν :=
  us.foldl (fun m u => m.insert u.1 u.2) m

theorem overlay_insert (m : OrderedMap κ ν) (k : κ) (v : ν) :
    Overlay [(k, v)] m.entries (m.insert k v).entries := overlay_insertEntry k v m.ascending

theorem overlay_insertAll (m : OrderedMap κ ν) {us : List (κ × ν)} (h : KeyAscending us) :
    Overlay us m.entries (m.insertAll us).entries := by
  induction us generalizing m with
  | nil => exact .nil m.ascending
  | cons u us ih =>
    obtain ⟨hlt, hus⟩ := keyAscending_cons.mp h
    have hrest := ih (m.insert u.1 u.2) hus
    refine ⟨hrest.ascending, fun e => ?_⟩
    have hnot : e = u → e.1 ∉ us.map fst := by
      rintro rfl
      exact not_mem_keys fun u' hu' => (hlt u' hu').ne'
    change e ∈ ((m.insert u.1 u.2).insertAll us).entries ↔ _
    rw [hrest.mem, (m.overlay_insert u.1 u.2).mem]
    simp only [mem_cons, not_mem_nil, or_false, map_cons, map_nil]
    tauto

theorem get_insert (m : OrderedMap κ ν) (k k' : κ) (v : ν) :
    (m.insert k v).get k' = if k' = k then some v else m.get k' := by
  rw [get, (m.overlay_insert k v).lookupKey_eq (keyAscending_singleton _) m.ascending]
  split
  · rename_i h
    simp [lookupKey, h]
  · rename_i h
    simp [lookupKey, get, Ne.symm h]

theorem get_insert_self (m : OrderedMap κ ν) (k : κ) (v : ν) : (m.insert k v).get k = some v := by
  rw [get_insert, if_pos rfl]

theorem get_insert_of_ne (m : OrderedMap κ ν) (v : ν) (h : k' ≠ k) : (m.insert k v).get k' = m.get k' := by
  rw [get_insert, if_neg h]

theorem get_insert_eq_some {v' : ν} :
    (m.insert k v).get k' = some v' ↔ k' = k ∧ v' = v ∨ k' ≠ k ∧ m.get k' = some v' := by
  rw [get_insert]
  split
  · rename_i h
    simp [h, eq_comm]
  · rename_i h
    simp [h]

/-- What holds of the new entry and of the old ones holds of every entry. -/
theorem forall_get_insert {P : κ → ν → Prop} (hnew : P k v) (hold : ∀ k' v', m.get k' = some v' → P k' v') :
    ∀ k' v', (m.insert k v).get k' = some v' → P k' v' := by
  intro k' v' hget
  rcases get_insert_eq_some.mp hget with ⟨rfl, rfl⟩ | ⟨-, hget⟩
  · exact hnew
  · exact hold k' v' hget

theorem ne_of_get (h : m.get k = some v) (h' : m.get k' = none) : k ≠ k' := by
  rintro rfl
  rw [h] at h'
  cases h'

/-- Remove the key. -/
def erase (m : OrderedMap κ ν) (k : κ) : OrderedMap κ ν :=
  ⟨m.entries.filter (·.1 ≠ k), m.ascending.sublist List.filter_sublist⟩

def values (m : OrderedMap κ ν) : List ν := m.entries.map Prod.snd

theorem mem_entries : (k, v) ∈ m.entries ↔ m.get k = some v :=
  (lookupKey_eq_some m.ascending).symm

theorem mem_values : v ∈ m.values ↔ ∃ k, m.get k = some v := by
  simp only [values, mem_map, Prod.exists, exists_eq_right, mem_entries]

theorem forall_mem_values {P : ν → Prop} : (∀ v ∈ m.values, P v) ↔ ∀ k v, m.get k = some v → P v := by
  simp only [mem_values, forall_exists_index]
  exact forall_comm

theorem forall_mem_keys {P : κ → Prop} : (∀ k ∈ m.entries.map fst, P k) ↔ ∀ k v, m.get k = some v → P k := by
  simp only [forall_mem_map, Prod.forall, mem_entries]

@[simp] theorem get_empty (k : κ) : (empty : OrderedMap κ ν).get k = none := rfl

theorem get_erase (m : OrderedMap κ ν) (k k' : κ) : (m.erase k).get k' = if k' = k then none else m.get k' := by
  refine Option.ext fun v => ?_
  rw [← mem_entries]
  split
  · rename_i h
    simp [erase, h]
  · rename_i h
    rw [← mem_entries]
    simp [erase, h]

theorem get_erase_eq_some : (m.erase k).get k' = some v ↔ k' ≠ k ∧ m.get k' = some v := by
  rw [get_erase]
  split <;> simp [*]

/-- Two maps with the same values are the same. -/
theorem ext_get (h : ∀ k, m.get k = m'.get k) : m = m' := by
  refine ext_entries (m.ascending.eq_of_mem_iff m'.ascending ?_)
  rintro ⟨k, v⟩
  rw [mem_entries, mem_entries, h]

end OrderedMap

end Lib
