import Hyphae.Lib.OrderedMap

/-!
# How many values of a map satisfy a test

A map is its entry under a key next to the map without that key, in some order. So
inserting, replacing and erasing change the number of values that pass a test by what
the values involved say.
-/

namespace Lib

namespace OrderedMap

open List

variable {κ ν : Type} [LinearOrder κ]

variable {m : OrderedMap κ ν} {k : κ} {v : ν} {p : ν → Bool}

theorem perm_erase (h : m.get k = some v) : m.entries.Perm ((k, v) :: (m.erase k).entries) := by
  have hfresh : (k, v) ∉ (m.erase k).entries := by simp [mem_entries, get_erase]
  refine (perm_ext_iff_of_nodup m.ascending.nodup (nodup_cons.mpr ⟨hfresh, (m.erase k).ascending.nodup⟩)).mpr ?_
  rintro ⟨k', v'⟩
  rw [mem_cons, mem_entries, mem_entries, get_erase]
  by_cases hk : k' = k
  · subst hk
    simp [h, eq_comm]
  · simp [hk]

theorem perm_insert (m : OrderedMap κ ν) (k : κ) (v : ν) :
    (m.insert k v).entries.Perm ((k, v) :: (m.erase k).entries) := by
  have herase : (m.insert k v).erase k = m.erase k := by
    refine ext_get fun k' => ?_
    simp only [get_erase, get_insert]
    split <;> rfl
  have hperm := perm_erase (m := m.insert k v) (k := k) (v := v) (by simp [get_insert])
  rwa [herase] at hperm

theorem erase_of_get_none (h : m.get k = none) : m.erase k = m := by
  refine ext_get fun k' => ?_
  rw [get_erase]
  split
  · rename_i hk
    rw [hk, h]
  · rfl

/-! ## Counting -/

/-- The number of values that pass the test. -/
def count (m : OrderedMap κ ν) (p : ν → Bool) : Nat := (m.values.filter p).length

theorem count_of_perm {rest : OrderedMap κ ν} (h : m.entries.Perm ((k, v) :: rest.entries)) (p : ν → Bool) :
    m.count p = rest.count p + if p v then 1 else 0 := by
  have hvalues : m.values.Perm (v :: rest.values) := h.map Prod.snd
  rw [count, (hvalues.filter p).length_eq, filter_cons]
  split <;> rfl

theorem count_erase (h : m.get k = some v) (p : ν → Bool) :
    m.count p = (m.erase k).count p + if p v then 1 else 0 := count_of_perm (perm_erase h) p

theorem count_insert_new (h : m.get k = none) (v : ν) (p : ν → Bool) :
    (m.insert k v).count p = m.count p + if p v then 1 else 0 := by
  have hperm := perm_insert m k v
  rw [erase_of_get_none h] at hperm
  exact count_of_perm hperm p

/-- Replacing a value by one that the test does not tell apart. -/
theorem count_insert_of_eq {v' : ν} (h : m.get k = some v) (hp : p v' = p v) : (m.insert k v').count p = m.count p := by
  rw [count_of_perm (perm_insert m k v') p, count_erase h p, hp]

theorem count_insert_of_get (h : m.get k = some v) (v' : ν) (p : ν → Bool) :
    ((m.insert k v').count p + if p v then 1 else 0) = m.count p + if p v' then 1 else 0 := by
  rw [count_of_perm (perm_insert m k v') p, count_erase h p]
  omega

/-- Maps that agree on the values that pass the test. -/
theorem count_congr {m' : OrderedMap κ ν} (h : ∀ k v, p v = true → (m.get k = some v ↔ m'.get k = some v)) :
    m.count p = m'.count p := by
  have hfilter : m.entries.filter (fun entry => p entry.2) = m'.entries.filter fun entry => p entry.2 := by
    refine KeyAscending.eq_of_mem_iff (m.ascending.sublist filter_sublist) (m'.ascending.sublist filter_sublist)
      ?_
    rintro ⟨k, v⟩
    simp only [mem_filter, mem_entries]
    exact and_congr_left fun hp => h k v hp
  have hlength := congrArg length hfilter
  simpa [count, values, filter_map, Function.comp_def] using hlength

theorem length_entries_eq_count (m : OrderedMap κ ν) : m.entries.length = m.count fun _ => true := by
  simp [count, values]

theorem length_insert_new (h : m.get k = none) (v : ν) : (m.insert k v).entries.length = m.entries.length + 1 := by
  rw [length_entries_eq_count, length_entries_eq_count, count_insert_new h]
  simp

theorem length_insert_of_get (h : m.get k = some v) (v' : ν) : (m.insert k v').entries.length = m.entries.length := by
  rw [length_entries_eq_count, length_entries_eq_count]
  exact count_insert_of_eq h rfl

theorem count_eq_zero : m.count p = 0 ↔ ∀ k v, m.get k = some v → p v = false := by
  simp only [count, length_eq_zero_iff, filter_eq_nil_iff, forall_mem_values, Bool.not_eq_true]

theorem entries_eq_nil : m.entries = [] ↔ ∀ k, m.get k = none := by
  constructor
  · intro h k
    simp [get, h, lookupKey]
  · intro h
    refine eq_nil_iff_forall_not_mem.mpr ?_
    rintro ⟨k, v⟩ hmem
    rw [mem_entries, h] at hmem
    cases hmem

theorem entries_ne_nil_of_isSome (h : (m.get k).isSome) : m.entries ≠ [] := by
  intro hnil
  rw [entries_eq_nil.mp hnil] at h
  cases h

/-! ## Erasing many keys -/

/-- Remove the keys in turn. -/
def eraseAll (m : OrderedMap κ ν) (ks : List κ) : OrderedMap κ ν := ks.foldl erase m

theorem get_eraseAll (m : OrderedMap κ ν) (ks : List κ) (k : κ) :
    (m.eraseAll ks).get k = if k ∈ ks then none else m.get k := by
  induction ks generalizing m with
  | nil => simp [eraseAll]
  | cons k' ks ih =>
    change ((m.erase k').eraseAll ks).get k = _
    rw [ih, get_erase]
    by_cases hk : k = k'
    · simp [hk]
    · simp [hk]

theorem get_eraseAll_of_none (h : m.get k = none) (ks : List κ) : (m.eraseAll ks).get k = none := by
  rw [get_eraseAll, h, ite_self]

/-- Distinct keys whose values pass the test are counted out. -/
theorem count_eraseAll {ks : List κ} (hnodup : ks.Nodup) (h : ∀ k ∈ ks, ∃ v, m.get k = some v ∧ p v = true) :
    (m.eraseAll ks).count p + ks.length = m.count p := by
  induction ks generalizing m with
  | nil => simp [eraseAll]
  | cons k ks ih =>
    obtain ⟨hk, hnodup⟩ := nodup_cons.mp hnodup
    obtain ⟨⟨v, hget, hv⟩, hks⟩ := forall_mem_cons.mp h
    have hrest : ∀ k' ∈ ks, ∃ v, (m.erase k).get k' = some v ∧ p v = true := by
      intro k' hk'
      have hne : k' ≠ k := fun heq => hk (heq ▸ hk')
      simpa [get_erase, hne] using hks k' hk'
    have hcount := count_erase hget p
    rw [if_pos hv] at hcount
    have hih := ih hnodup hrest
    change ((m.erase k).eraseAll ks).count p + (ks.length + 1) = m.count p
    omega

theorem count_eraseAll_le (m : OrderedMap κ ν) (ks : List κ) (p : ν → Bool) : (m.eraseAll ks).count p ≤ m.count p := by
  induction ks generalizing m with
  | nil => exact le_refl _
  | cons k ks ih =>
    refine (ih (m.erase k)).trans ?_
    cases hget : m.get k with
    | none => rw [erase_of_get_none hget]
    | some v =>
      have hcount := count_erase hget p
      omega

end OrderedMap

end Lib
