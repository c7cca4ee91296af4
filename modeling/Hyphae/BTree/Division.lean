import Hyphae.BTree.Batch
import Hyphae.BTree.NodeCodec

/-!
# How levels are divided into pages

A level is cut into runs of neighbours, one page each. The runs of a rewritten leaf fit
their pages. As the pages share the bytes evenly, no division has fewer of them exactly if
one with the fewest does so too.
-/

namespace Hyphae.BTree

open Lib Except List

/-! ## Leaf levels -/

variable {entry : KeyValue} {entries page run : List KeyValue} {runs : List (List KeyValue)}
  {leaves target written : Nat} {csn : Csn}

/-- Bytes a leaf page has for entries. -/
def leafCapacity : Nat := pagePayloadSize - leafHeaderSize

/-- The runs of entries that `fillBalanced` writes, `page` being the run under construction. -/
def balancedRuns (leaves target : Nat) : List KeyValue → (written : Nat) → (page : List KeyValue) → List (List KeyValue)
  | [], _, page => if page = [] then [] else [page]
  | entry :: entries, written, page =>
    if page ≠ [] ∧ (leafCapacity < leafBody page + entrySize entry ∨
        ¬leaves ≤ written + 1 ∧ target < leafBody page + entrySize entry) then
      page :: balancedRuns leaves target entries (written + 1) [entry]
    else balancedRuns leaves target entries written (page ++ [entry])

theorem leafBody_concat (page : List KeyValue) (entry : KeyValue) :
    leafBody (page ++ [entry]) = leafBody page + entrySize entry := by
  simp [leafBody]

/-- A page stays within its capacity as long as it is not flushed. -/
theorem leafBody_concat_le {p : Prop} (hentry : entrySize entry ≤ leafCapacity)
    (h : ¬(page ≠ [] ∧ (leafCapacity < leafBody page + entrySize entry ∨ p))) :
    leafBody (page ++ [entry]) ≤ leafCapacity := by
  rw [leafBody_concat]
  by_cases hpage : page = []
  · simpa [hpage] using hentry
  · exact Nat.le_of_not_lt fun hfull => h ⟨hpage, .inl hfull⟩

theorem leafEntryEncodedLength_of_le (h : entrySize entry ≤ leafCapacity) :
    leafEntryEncodedLength entry = .ok (entrySize entry) := by
  have hcapacity : leafCapacity < 2 ^ 32 := by decide
  unfold entrySize at h
  simp only [leafEntryEncodedLength, bind_eq_ok, checkU32_eq_ok, okOr_eq_ok, Option.bind_eq_bind,
    Option.bind_eq_some_iff, checkedAdd_eq_some]
  exact ⟨(), by omega, (), by omega, _, ⟨by omega, rfl⟩, by omega, rfl⟩

theorem balancedRuns_flatten (leaves target : Nat) (entries : List KeyValue) (written : Nat) (page : List KeyValue) :
    (balancedRuns leaves target entries written page).flatten = page ++ entries := by
  fun_induction balancedRuns leaves target entries written page with
  | case1 => rfl
  | case2 => simp
  | case3 entry entries written page hflush ih | case4 entry entries written page hflush ih => simp [ih]

section Fits

variable (hentries : ∀ entry ∈ entries, entrySize entry ≤ leafCapacity) (hpage : leafBody page ≤ leafCapacity)
include hentries hpage

theorem fillBalanced_eq_mapM :
    fillBalanced csn leafCapacity leaves target entries written page (leafBody page) =
      (balancedRuns leaves target entries written page).mapM (appendLeafReference csn) := by
  have hcapacity : 2 * leafCapacity < 2 ^ 64 := by decide
  induction entries generalizing written page with
  | nil =>
    unfold fillBalanced balancedRuns
    split <;> simp
  | cons entry entries ih =>
    obtain ⟨hentry, hentries⟩ := forall_mem_cons.mp hentries
    have hnext : checkedAdd (leafBody page) (entrySize entry) = some (leafBody page + entrySize entry) :=
      checkedAdd_eq_some.mpr ⟨by omega, rfl⟩
    have hone : leafBody [entry] = entrySize entry := rfl
    simp only [fillBalanced, balancedRuns, leafEntryEncodedLength_of_le hentry, EStateM.ofExcept, pure_bind, hnext,
      okOr]
    split
    · rw [mapM_cons, ← ih hentries (hone.trans_le hentry)]
      rfl
    · rename_i hflush
      rw [← leafBody_concat, ih hentries (leafBody_concat_le hentry hflush)]

/-- Runs are not empty, and fit a page if the entries do. -/
theorem balancedRuns_fit :
    ∀ run ∈ balancedRuns leaves target entries written page, run ≠ [] ∧ leafBody run ≤ leafCapacity := by
  fun_induction balancedRuns leaves target entries written page with
  | case1 => simp
  | case2 written page hne => simpa using ⟨hne, hpage⟩
  | case3 entry entries written page hflush ih =>
    obtain ⟨hentry, hentries⟩ := forall_mem_cons.mp hentries
    exact forall_mem_cons.mpr ⟨⟨hflush.1, hpage⟩, ih hentries hentry⟩
  | case4 entry entries written page hflush ih =>
    obtain ⟨hentry, hentries⟩ := forall_mem_cons.mp hentries
    exact ih hentries (leafBody_concat_le hentry hflush)

end Fits

section Even

variable {after : Nat} (hafter : leaves - (written + 1) = after)
include hafter

/-- The pages before the last leaf keep to the target, unless they hold one entry. -/
theorem balancedRuns_even (hpage : after ≠ 0 → leafBody page ≤ target ∨ page.length ≤ 1) :
    ∀ run ∈ (balancedRuns leaves target entries written page).take after, leafBody run ≤ target ∨ run.length ≤ 1 := by
  fun_induction balancedRuns leaves target entries written page generalizing after with
  | case1 => simp
  | case2 written page hne =>
    intro run hrun
    obtain rfl := mem_singleton.mp (mem_of_mem_take hrun)
    refine hpage ?_
    rintro rfl
    cases hrun
  | case3 entry entries written page hflush ih =>
    cases after with
    | zero => simp
    | succ after =>
      rw [take_succ_cons]
      exact forall_mem_cons.mpr ⟨hpage (Nat.succ_ne_zero _), ih (by omega) fun _ => .inr (Nat.le_refl 1)⟩
  | case4 entry entries written page hflush ih =>
    refine ih hafter fun hmore => ?_
    by_cases hnil : page = []
    · exact .inr (by simp [hnil])
    · rw [leafBody_concat]
      exact .inl (Nat.le_of_not_lt fun hover => hflush ⟨hnil, .inr ⟨by omega, hover⟩⟩)

/-- The loop is never behind runs that keep to the target like its own: it begins each page where they begin theirs, or
later. -/
theorem length_balancedRuns_le (hfits : ∀ run ∈ runs, leafBody run ≤ leafCapacity)
    (heven : ∀ run ∈ runs.take after, leafBody run ≤ target ∨ run.length ≤ 1)
    (hsuffix : page ++ entries <:+ runs.flatten) :
    (balancedRuns leaves target entries written page).length ≤ runs.length := by
  fun_induction balancedRuns leaves target entries written page generalizing runs after with
  | case1 => simp
  | case2 written page hne =>
    rw [append_nil] at hsuffix
    refine length_pos_of_ne_nil ?_
    rintro rfl
    exact hne (suffix_nil.mp hsuffix)
  | case3 entry entries written page hflush ih =>
    obtain ⟨hne, hfull⟩ := hflush
    cases runs with
    | nil => simp at hsuffix
    | cons run runs =>
      obtain ⟨hrun, hfits⟩ := forall_mem_cons.mp hfits
      have hrest : ∀ other ∈ runs.take (after - 1), leafBody other ≤ target ∨ other.length ≤ 1 := by
        cases after with
        | zero => simp
        | succ after => exact fun other hother => heven other (mem_cons_of_mem _ hother)
      refine Nat.succ_le_succ (ih (by omega) hfits hrest ?_)
      rw [flatten_cons] at hsuffix
      obtain h | ⟨part, hpart⟩ := suffix_or_suffix_of_suffix ((suffix_append page _).trans hsuffix)
        (suffix_append run _)
      · exact h
      · cases part with
        | nil => exact ⟨[], hpart.symm⟩
        | cons first part =>
          -- the run has room for the page and the entry, so the page was not full
          exfalso
          obtain ⟨rfl, rfl⟩ := cons.inj hpart
          obtain ⟨before, hbefore⟩ := hsuffix
          obtain rfl : before ++ (page ++ first :: part) = run := append_cancel_right (by simpa using hbefore)
          have hroom : leafBody page + entrySize first ≤ leafBody (before ++ (page ++ first :: part)) := by
            simp only [leafBody, map_append, sum_append, map_cons, sum_cons]
            omega
          obtain hcapacity | ⟨hlast, htarget⟩ := hfull
          · omega
          · obtain ⟨_, rfl⟩ := Nat.exists_eq_succ_of_ne_zero (show after ≠ 0 by omega)
            have hone := (heven _ mem_cons_self).resolve_left (by omega)
            have htwo := length_pos_of_ne_nil hne
            simp only [length_append, length_cons] at hone
            omega
  | case4 entry entries written page hflush ih => exact ih hafter hfits heven (by simpa using hsuffix)

end Even

/-- The entries cut into runs of neighbours that have a page each. -/
def Divides (runs : List (List KeyValue)) (entries : List KeyValue) : Prop :=
  runs.flatten = entries ∧ ∀ run ∈ runs, (Node.leaf run).Wf

theorem foldlM_checkedAdd {sizes : List Nat} {total : Nat} (h : total + sizes.sum < 2 ^ 64) :
    sizes.foldlM checkedAdd total = some (total + sizes.sum) := by
  induction sizes generalizing total with
  | nil => rfl
  | cons size sizes ih =>
    rw [sum_cons, ← Nat.add_assoc] at h ⊢
    rw [foldlM_cons, checkedAdd_eq_some.mpr ⟨by omega, rfl⟩]
    exact ih h

/-- A part of entries in order is a leaf if it has room on a page. -/
theorem Node.Wf.of_sublist (hasc : KeyAscending entries) (hkeys : ∀ entry ∈ entries, entry.1.length ≤ maxKeySize)
    (hsub : run.Sublist entries) (hne : run ≠ []) (hbody : leafBody run ≤ leafCapacity) : (Node.leaf run).Wf :=
  ⟨hne, Ascending.sublist hasc (hsub.map _), fun entry h => hkeys entry (hsub.subset h),
    Nat.add_le_of_le_sub' (by decide) hbody⟩

theorem Node.Wf.leafBody_le (h : (Node.leaf entries).Wf) : leafBody entries ≤ leafCapacity :=
  Nat.le_sub_of_add_le' h.2.2.2

/-- No division has fewer pages. -/
def Fewest (runs : List (List KeyValue)) (entries : List KeyValue) : Prop :=
  Divides runs entries ∧ ∀ other, Divides other entries → runs.length ≤ other.length

/-- Of the pages that the bytes need, those before the last hold at most an even share of the bytes, or one entry. -/
def EvenlyFilled (runs : List (List KeyValue)) (entries : List KeyValue) : Prop :=
  ∀ run ∈ runs.take (leafBody entries ⌈/⌉ leafCapacity - 1),
    leafBody run ≤ leafBody entries ⌈/⌉ (leafBody entries ⌈/⌉ leafCapacity) ∨ run.length ≤ 1

/-- The runs of a rewritten leaf. -/
def leafRuns (entries : List KeyValue) : List (List KeyValue) :=
  if leafBody entries ≤ leafCapacity then [entries]
  else
    let leaves := max (leafBody entries ⌈/⌉ leafCapacity) 2
    balancedRuns leaves (leafBody entries ⌈/⌉ leaves) entries 0 []

theorem appendLeafLevelBalanced_eq_mapM (hne : entries ≠ []) (hsize : ∀ entry ∈ entries, entrySize entry ≤ leafCapacity)
    (hbody : leafBody entries < 2 ^ 64) (csn : Csn) :
    appendLeafLevelBalanced csn entries = (leafRuns entries).mapM (appendLeafReference csn) := by
  have hlengths : entries.mapM leafEntryEncodedLength = .ok (entries.map entrySize) :=
    mapM_eq_ok fun entry h => leafEntryEncodedLength_of_le (hsize entry h)
  have hsum : (entries.map entrySize).foldlM checkedAdd 0 = some (leafBody entries) := by
    rw [foldlM_checkedAdd (by rwa [Nat.zero_add]), Nat.zero_add]
    rfl
  simp only [appendLeafLevelBalanced, failIf_of_not hne, hlengths, EStateM.ofExcept, hsum, okOr, pure_bind]
  by_cases hone : leafBody entries ≤ leafCapacity
  · refine (if_pos hone).trans ?_
    simp [leafRuns, hone]
  · rw [leafRuns, if_neg hone]
    exact (if_neg hone).trans (fillBalanced_eq_mapM hsize (Nat.zero_le _))

/-- A rewritten leaf is divided into runs that fit. Their number is the least exactly if some division with the least
number is evenly filled. -/
theorem appendLeafLevelBalanced_divides (hne : entries ≠ []) (hasc : KeyAscending entries)
    (hfits : ∀ entry ∈ entries, (Node.leaf [entry]).Wf) (hbody : leafBody entries < 2 ^ 64) :
    ∃ runs, (∀ csn, appendLeafLevelBalanced csn entries = runs.mapM (appendLeafReference csn)) ∧ Divides runs entries ∧
      (Fewest runs entries ↔ ∃ even, Fewest even entries ∧ EvenlyFilled even entries) := by
  have hsize : ∀ entry ∈ entries, entrySize entry ≤ leafCapacity := fun entry h => (hfits entry h).leafBody_le
  have hdivides {runs : List (List KeyValue)} (hflatten : runs.flatten = entries)
      (hruns : ∀ run ∈ runs, run ≠ [] ∧ leafBody run ≤ leafCapacity) : Divides runs entries := by
    refine ⟨hflatten, fun run hrun => ?_⟩
    obtain ⟨hnil, hle⟩ := hruns run hrun
    exact .of_sublist hasc (fun entry h => (hfits entry h).2.2.1 entry mem_cons_self)
      (hflatten ▸ sublist_flatten_of_mem hrun) hnil hle
  refine ⟨leafRuns entries, appendLeafLevelBalanced_eq_mapM hne hsize hbody, ?_⟩
  have hcapacity : 0 < leafCapacity := by decide
  by_cases hone : leafBody entries ≤ leafCapacity
  · have hpages : leafBody entries ⌈/⌉ leafCapacity ≤ 1 := by rwa [ceilDiv_le_iff_le_mul hcapacity, Nat.mul_one]
    rw [leafRuns, if_pos hone]
    have hwhole : Divides [entries] entries := hdivides (by simp) (by simpa using ⟨hne, hone⟩)
    refine ⟨hwhole, fun h => ⟨_, h, ?_⟩, fun _ => ⟨hwhole, fun other hother => length_pos_of_ne_nil ?_⟩⟩
    · simp [EvenlyFilled, Nat.sub_eq_zero_of_le hpages]
    · rintro rfl
      exact hne hother.1.symm
  · have hpages : max (leafBody entries ⌈/⌉ leafCapacity) 2 = leafBody entries ⌈/⌉ leafCapacity := by
      rw [max_eq_left_iff]
      by_contra hless
      exact hone (by simpa using (ceilDiv_le_iff_le_mul hcapacity).mp (Nat.le_of_lt_succ (Nat.lt_of_not_le hless)))
    simp only [leafRuns, if_neg hone, hpages]
    have hruns := hdivides (balancedRuns_flatten (leafBody entries ⌈/⌉ leafCapacity)
      (leafBody entries ⌈/⌉ (leafBody entries ⌈/⌉ leafCapacity)) entries 0 []) (balancedRuns_fit hsize (Nat.zero_le _))
    refine ⟨hruns, fun h => ⟨_, h, balancedRuns_even rfl fun _ => .inr (length_nil.trans_le (Nat.zero_le 1))⟩, ?_⟩
    rintro ⟨even, ⟨⟨hflatten, hwf⟩, hleast⟩, heven⟩
    refine ⟨hruns, fun other hother => le_trans ?_ (hleast other hother)⟩
    exact length_balancedRuns_le rfl (fun run hrun => (hwf run hrun).leafBody_le) heven (hflatten ▸ suffix_refl _)

/-- Entries of 4000, 9000 and 9000 bytes. -/
def skewedEntries : List KeyValue := [([1], replicate 3991 0), ([2], replicate 8991 0), ([3], replicate 8991 0)]

theorem skewedEntries_sizes : skewedEntries.map entrySize = [4000, 9000, 9000] := by
  simp only [skewedEntries, map_cons, map_nil, entrySize, length_replicate, length_singleton]

theorem skewedEntries_fit : ∀ entry ∈ skewedEntries, (Node.leaf [entry]).Wf := by
  intro entry hentry
  have hsizes : ∀ size ∈ skewedEntries.map entrySize, size ≤ leafCapacity := by
    rw [skewedEntries_sizes]
    decide
  exact .of_sublist (by decide) (by decide) (singleton_sublist.mpr hentry) (cons_ne_nil _ _)
    (hsizes _ (mem_map_of_mem hentry))

theorem leafBody_skewedEntries : leafBody skewedEntries = 22000 := congrArg sum skewedEntries_sizes

/-- The second entry passes the target, the third the capacity. -/
theorem leafRuns_of_sizes {x y z : KeyValue} (h : [x, y, z].map entrySize = [4000, 9000, 9000]) :
    leafRuns [x, y, z] = [[x], [y], [z]] := by
  have hbody : leafBody [x, y, z] = 22000 := congrArg sum h
  have hcapacity : leafCapacity = 16272 := rfl
  have htarget : 22000 ⌈/⌉ 2 = 11000 := rfl
  simp only [map_cons, map_nil, cons.injEq] at h
  simp [leafRuns, balancedRuns, h, hbody, hcapacity, htarget]

/-- Each entry has a page of its own, though the first two have room on one. -/
theorem appendLeafLevelBalanced_extra_page :
    KeyAscending skewedEntries ∧ (∀ entry ∈ skewedEntries, (Node.leaf [entry]).Wf) ∧
      (∀ csn, appendLeafLevelBalanced csn skewedEntries =
        (skewedEntries.map fun entry => [entry]).mapM (appendLeafReference csn)) ∧
      Divides [skewedEntries.take 2, skewedEntries.drop 2] skewedEntries := by
  have hne : skewedEntries ≠ [] := cons_ne_nil _ _
  refine ⟨by decide, skewedEntries_fit, fun csn => ?_, take_append_drop _ _, ?_⟩
  · rw [appendLeafLevelBalanced_eq_mapM hne (fun entry h => (skewedEntries_fit entry h).leafBody_le)
      (by rw [leafBody_skewedEntries]; decide)]
    exact congrArg (mapM _) (leafRuns_of_sizes skewedEntries_sizes)
  · refine forall_mem_cons.mpr ⟨.of_sublist (by decide) (by decide) (take_sublist _ _) (cons_ne_nil _ _) ?_,
      forall_mem_singleton.mpr (skewedEntries_fit _ (getLast_mem hne))⟩
    rw [leafBody, map_take, skewedEntries_sizes]
    decide

/-- The last two entries fill a page each, as any division has it. -/
theorem appendLeafLevelBalanced_divides_skewed :
    ∃ runs, (∀ csn, appendLeafLevelBalanced csn (skewedEntries.drop 1) = runs.mapM (appendLeafReference csn)) ∧
      Fewest runs (skewedEntries.drop 1) ∧ 2 ≤ runs.length := by
  have hbody : leafBody (skewedEntries.drop 1) = 18000 := by rw [leafBody, map_drop, skewedEntries_sizes]; rfl
  have hfits : ∀ entry ∈ skewedEntries.drop 1, (Node.leaf [entry]).Wf :=
    fun entry h => skewedEntries_fit entry (mem_of_mem_drop h)
  have htwo : ∀ other, Divides other (skewedEntries.drop 1) → 2 ≤ other.length := by
    rintro (_ | ⟨run, _ | ⟨_, _⟩⟩) hother
    · cases hother.1
    · have hrun : run = skewedEntries.drop 1 := by simpa using hother.1
      have := (hother.2 run mem_cons_self).leafBody_le
      rw [hrun, hbody] at this
      exact absurd this (by decide)
    · simp
  have hne : skewedEntries.drop 1 ≠ [] := cons_ne_nil _ _
  obtain ⟨runs, hruns, hdivides, hiff⟩ := appendLeafLevelBalanced_divides hne (by decide) hfits
    (hbody.trans_lt (by decide))
  refine ⟨runs, hruns, hiff.mpr ⟨(skewedEntries.drop 1).map fun entry => [entry], ⟨⟨rfl, ?_⟩, htwo⟩, ?_⟩,
    htwo _ hdivides⟩
  · exact forall_mem_map.mpr hfits
  · intro run hrun
    obtain ⟨entry, -, rfl⟩ := mem_map.mp (mem_of_mem_take hrun)
    exact .inr (Nat.le_refl 1)

end Hyphae.BTree
