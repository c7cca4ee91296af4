import Hyphae.BTree.Mutate
import Hyphae.BTree.Readers

/-!
# Reading nodes in place

Lookups and borrowed leaves parse a payload without building the node. On the payload of
a node that decodes they find what the decoded node holds.
-/

namespace Hyphae.BTree

open Lib List Except Option

variable {payload : Bytes} {entries es : List KeyValue}

variable {first : PageId} {separators : List (Bytes × PageId)} {previous : Option Bytes}

/-! ## The cursor over encoded items -/

theorem cursorLength_append {n : Nat} (h : n < 2 ^ 32) (rest : Bytes) :
    cursorLength (leBytes 4 n ++ rest) = .ok (n, rest) := cursorLength_eq_ok.mpr ⟨h, rfl⟩

theorem cursorTake_append (taken rest : Bytes) : cursorTake taken.length (taken ++ rest) = .ok (taken, rest) :=
  cursorTake_eq_ok.mpr ⟨rfl, rfl⟩

theorem cursorU64_append (child : PageId) (rest : Bytes) :
    cursorU64 (leBytes 8 child.get ++ rest) = .ok (child.get, rest) := cursorU64_eq_ok.mpr ⟨child.lt, rfl⟩

theorem cursorFinish_nil : cursorFinish [] = .ok () := rfl

theorem leafEntries_cons (e : KeyValue) (es : List KeyValue) :
    (e :: es).flatMap leafEntryBytes =
      leBytes 4 e.1.length ++ (leBytes 4 e.2.length ++ (e.1 ++ (e.2 ++ es.flatMap leafEntryBytes))) := by
  simp [leafEntryBytes]

theorem separators_cons (s : Bytes × PageId) (ss : List (Bytes × PageId)) :
    (s :: ss).flatMap separatorBytes =
      leBytes 4 s.1.length ++ (s.1 ++ (leBytes 8 s.2.get ++ ss.flatMap separatorBytes)) := by
  simp [separatorBytes]

/-- What every parsing loop asks of the items that are left, behind the key before them. -/
structure KeyRun {ν : Type} (previous : Option Bytes) (items : List (Bytes × ν)) : Prop where
  ascending : KeyAscending items
  above : ∀ p ∈ previous, ∀ item ∈ items, p < item.1
  keys : ∀ item ∈ items, item.1.length ≤ maxKeySize

theorem keyRun_nil {ν : Type} (previous : Option Bytes) : KeyRun previous ([] : List (Bytes × ν)) :=
  ⟨.nil, by simp, by simp⟩

/-- A loop checks one key against the one before it. -/
theorem keyRun_cons {ν : Type} {item : Bytes × ν} {items : List (Bytes × ν)} :
    KeyRun previous (item :: items) ↔
      ¬maxKeySize < item.1.length ∧ (¬∃ p ∈ previous, item.1 ≤ p) ∧ KeyRun (some item.1) items := by
  constructor
  · intro h
    obtain ⟨habove, hasc⟩ := keyAscending_cons.mp h.ascending
    obtain ⟨hkey, hkeys⟩ := forall_mem_cons.mp h.keys
    refine ⟨not_lt.mpr hkey, ?_, hasc, fun p hp => ?_, hkeys⟩
    · rintro ⟨p, hp, hle⟩
      exact absurd (h.above p hp item mem_cons_self) hle.not_gt
    · cases hp
      exact habove
  · rintro ⟨hkey, hstep, h⟩
    have habove : ∀ i ∈ items, item.1 < i.1 := h.above item.1 rfl
    refine ⟨keyAscending_cons.mpr ⟨habove, h.ascending⟩, fun p hp => ?_, forall_mem_cons.mpr ⟨not_lt.mp hkey, h.keys⟩⟩
    have hbelow : p < item.1 := not_le.mp fun hle => hstep ⟨p, hp, hle⟩
    exact forall_mem_cons.mpr ⟨hbelow, fun i hi => hbelow.trans (habove i hi)⟩

theorem LeafPayload.run (h : LeafPayload payload entries) : KeyRun none entries := ⟨h.ascending, by simp, h.keys⟩

theorem InternalPayload.run (h : InternalPayload payload first separators) : KeyRun none separators :=
  ⟨h.ascending, by simp, h.keys⟩

/-! ## Lookup in a leaf -/

theorem slice_middle (before field after : Bytes) :
    slice (before ++ (field ++ after)) before.length (before.length + field.length) = field := by
  rw [slice_skip _ le_rfl, Nat.sub_self, Nat.add_sub_cancel_left, slice_field _ rfl]

/-- Where the value stored under `target` lies, when the entries start at `start`. -/
def valueRange (start : Nat) (target : Bytes) : List KeyValue → Option (Nat × Nat)
  | [] => none
  | e :: es =>
    let valueStart := start + 8 + e.1.length
    if e.1 = target then some (valueStart, valueStart + e.2.length)
    else valueRange (start + entrySize e) target es

theorem valueRange_eq_none {start : Nat} {target : Bytes} (h : ∀ e ∈ es, e.1 ≠ target) :
    valueRange start target es = none := by
  induction es generalizing start with
  | nil => rfl
  | cons e es ih =>
    obtain ⟨he, hes⟩ := forall_mem_cons.mp h
    rw [valueRange, if_neg he, ih hes]

/-- The range holds the value. -/
theorem slice_valueRange (before target : Bytes) (es : List KeyValue) :
    (valueRange before.length target es).map (fun r => slice (before ++ es.flatMap leafEntryBytes) r.1 r.2) =
      lookupKey es target := by
  induction es generalizing before with
  | nil => rfl
  | cons e es ih =>
    by_cases hfound : e.1 = target
    · have hslice := slice_middle (before ++ (leBytes 4 e.1.length ++ (leBytes 4 e.2.length ++ e.1))) e.2
        (es.flatMap leafEntryBytes)
      have hstart : (before ++ (leBytes 4 e.1.length ++ (leBytes 4 e.2.length ++ e.1))).length =
          before.length + 8 + e.1.length := by
        simp only [length_append, length_leBytes]
        omega
      rw [hstart] at hslice
      simp only [append_assoc] at hslice
      rw [valueRange, if_pos hfound, map_some, leafEntries_cons, hslice]
      simp [lookupKey, hfound]
    · have hrest := ih (before ++ leafEntryBytes e)
      rw [length_append, length_leafEntry, append_assoc] at hrest
      rw [valueRange, if_neg hfound, flatMap_cons, hrest]
      simp [lookupKey, hfound]

/-- The walk over `es`, behind the entries `done` that it has passed. -/
theorem lookupLeafEntries_eq (target done : Bytes) (hrun : KeyRun previous es)
    (hsizes : ∀ e ∈ es, e.1.length < 2 ^ 32 ∧ e.2.length < 2 ^ 32) :
    lookupLeafEntries target (done ++ es.flatMap leafEntryBytes) es.length previous (es.flatMap leafEntryBytes) =
      .ok (.value (valueRange (leafHeaderSize + done.length) target es)) := by
  induction es generalizing done previous with
  | nil => simp [lookupLeafEntries, cursorFinish_nil, valueRange]
  | cons e es ih =>
    obtain ⟨⟨hk, hv⟩, hsizes'⟩ := forall_mem_cons.mp hsizes
    obtain ⟨hkey, hstep, hrun'⟩ := keyRun_cons.mp hrun
    rw [length_cons, lookupLeafEntries, leafEntries_cons]
    simp only [cursorLength_append hk, cursorLength_append hv, cursorTake_append, ok_bind,
      failIf_of_not hkey, failIf_of_not hstep]
    by_cases htarget : target < e.1
    · -- every later key is above the target as well
      have hnone : valueRange (leafHeaderSize + done.length) target (e :: es) = none := by
        refine valueRange_eq_none (forall_mem_cons.mpr ⟨htarget.ne', fun e' he' => ?_⟩)
        exact (htarget.trans (hrun'.above e.1 rfl e' he')).ne'
      rw [if_pos htarget, hnone]
      rfl
    · rw [if_neg htarget, valueRange]
      by_cases hfound : e.1 = target
      · simp only [hfound, if_true, pure_eq_ok, length_append, length_leBytes]
        congr 4 <;> omega
      · have hrest := ih (done ++ leafEntryBytes e) hrun' hsizes'
        have hbytes : done ++ leafEntryBytes e ++ es.flatMap leafEntryBytes =
            done ++ (leBytes 4 e.1.length ++ (leBytes 4 e.2.length ++ (e.1 ++ (e.2 ++ es.flatMap
              leafEntryBytes)))) := by
          simp [leafEntryBytes]
        rw [hbytes, length_append, length_leafEntry, ← Nat.add_assoc] at hrest
        simp only [hfound, if_false, hrest]

/-- A lookup points at the value of the matching entry. -/
theorem lookupLeaf_range (h : LeafPayload payload entries) (target : Bytes) :
    lookupLeaf payload target = .ok (.value (valueRange leafHeaderSize target entries)) := by
  have hrange := lookupLeafEntries_eq target [] h.run h.sizes
  rw [nil_append] at hrange
  simp only [lookupLeaf, h.count, ok_bind, failIf_of_not h.countFits, h.body, hrange]
  rfl

theorem LeafPayload.slice_valueRange (h : LeafPayload payload entries) (target : Bytes) :
    (valueRange leafHeaderSize target entries).map (fun r => slice payload r.1 r.2) = lookupKey entries target := by
  have hvalue := BTree.slice_valueRange (payload.take leafHeaderSize) target entries
  rwa [length_take, min_eq_left h.header, ← h.body, take_append_drop] at hvalue

theorem lookupLeaf_eq (h : LeafPayload payload entries) (target : Bytes) :
    ∃ range, lookupLeaf payload target = .ok (.value range) ∧
      range.map (fun r => slice payload r.1 r.2) = lookupKey entries target :=
  ⟨_, lookupLeaf_range h target, h.slice_valueRange target⟩

/-! ## Lookup in an internal node -/

theorem lookupSeparators_eq (target : Bytes) (selected : PageId) {ss : List (Bytes × PageId)}
    (hrun : KeyRun previous ss) :
    ∃ child, lookupSeparators target ss.length previous selected (ss.flatMap separatorBytes) = .ok (.descend child) ∧
      (selected :: ss.map Prod.snd)[childIndex (ss.map Prod.fst) target]? = some child := by
  induction ss generalizing previous selected with
  | nil => exact ⟨selected, by simp [lookupSeparators, cursorFinish_nil], by simp [childIndex]⟩
  | cons s ss ih =>
    obtain ⟨hkey, hstep, hrun'⟩ := keyRun_cons.mp hrun
    have hk : s.1.length < 2 ^ 32 := (not_lt.mp hkey).trans_lt (by decide)
    rw [length_cons, lookupSeparators, separators_cons]
    simp only [cursorLength_append hk, cursorTake_append, ok_bind, failIf_of_not hkey, failIf_of_not hstep]
    by_cases htarget : target < s.1
    · refine ⟨selected, by simp [htarget], ?_⟩
      simp [childIndex, htarget]
    · have hle : s.1 ≤ target := not_lt.mp htarget
      obtain ⟨child, hchild, hindex⟩ := ih s.2 hrun'
      refine ⟨child, by simp [htarget, cursorU64_append, okOr, hchild], ?_⟩
      simpa [childIndex, takeWhile_cons, hle] using hindex

theorem lookupInternal_eq (h : InternalPayload payload first separators) (target : Bytes) :
    ∃ child, lookupInternal payload target = .ok (.descend child) ∧
      (first :: separators.map Prod.snd)[childIndex (separators.map Prod.fst) target]? = some child := by
  obtain ⟨child, hchild, hindex⟩ := lookupSeparators_eq target first h.run
  refine ⟨child, ?_, hindex⟩
  simp only [lookupInternal, h.count, ok_bind, failIf_of_not h.countFits, h.firstChild, okOr, h.body, hchild]

/-! ## Borrowed leaves -/

theorem verifyLeafEntries_eq (minimum : Bytes) (hrun : KeyRun previous es)
    (hsizes : ∀ e ∈ es, e.1.length < 2 ^ 32 ∧ e.2.length < 2 ^ 32) :
    verifyLeafEntries es.length previous minimum (es.flatMap leafEntryBytes) =
      .ok (if previous.isNone then (es.head?.map Prod.fst).getD minimum else minimum,
        (es.getLast?.map Prod.fst).or previous, []) := by
  induction es generalizing previous minimum with
  | nil => simp [verifyLeafEntries]
  | cons e es ih =>
    obtain ⟨⟨hk, hv⟩, hsizes'⟩ := forall_mem_cons.mp hsizes
    obtain ⟨hkey, hstep, hrun'⟩ := keyRun_cons.mp hrun
    have hrest := ih (if previous.isNone then e.1 else minimum) hrun' hsizes'
    rw [length_cons, verifyLeafEntries, leafEntries_cons]
    simp only [cursorLength_append hk, cursorLength_append hv, cursorTake_append, ok_bind,
      failIf_of_not hkey, failIf_of_not hstep, checkU32_ok hk, checkU32_ok hv, hrest]
    cases es with
    | nil => simp
    | cons e' es =>
      simp [getLast?_eq_some_getLast (cons_ne_nil e' es)]

/-- The bytes the verification loop accepts are entries in ascending order. -/
theorem verifyLeafEntries_accepts {count : Nat} {last : Option Bytes} {minimum least cursor rest : Bytes}
    (h : verifyLeafEntries count previous minimum cursor = .ok (least, last, rest)) :
    ∃ es : List KeyValue, es.length = count ∧ cursor = es.flatMap leafEntryBytes ++ rest ∧ KeyRun previous es ∧
      ∀ e ∈ es, e.1.length < 2 ^ 32 ∧ e.2.length < 2 ^ 32 := by
  induction count generalizing previous minimum cursor with
  | zero =>
    simp only [verifyLeafEntries, pure_eq_ok, ok.injEq, Prod.mk.injEq] at h
    obtain ⟨-, -, rfl⟩ := h
    exact ⟨[], rfl, rfl, keyRun_nil _, by simp⟩
  | succ count ih =>
    simp only [verifyLeafEntries, bind_eq_ok, Prod.exists, cursorLength_eq_ok, cursorTake_eq_ok, failIf_eq_ok,
      checkU32_eq_ok] at h
    obtain ⟨_, _, ⟨hk, rfl⟩, _, _, ⟨hv, rfl⟩, key, _, ⟨rfl, rfl⟩, value, _, ⟨rfl, rfl⟩, -, hkey, -, -, -, -, -, hstep,
      h⟩ := h
    obtain ⟨es, rfl, rfl, hrun, hsizes⟩ := ih h
    exact ⟨(key, value) :: es, rfl, by simp [leafEntryBytes], keyRun_cons.mpr ⟨hkey, hstep, hrun⟩,
      forall_mem_cons.mpr ⟨⟨hk, hv⟩, hsizes⟩⟩

theorem leafPayload_of_borrowedLeaf {leaf : BorrowedLeaf} (h : BorrowedLeaf.decode payload = .ok leaf) :
    ∃ entries, LeafPayload payload entries := by
  simp only [BorrowedLeaf.decode, bind_eq_ok, failIf_eq_ok, Prod.exists, cursorFinish, not_not] at h
  obtain ⟨count, hcount, -, hfits, least, last, cursor, hverify, -, rfl, -⟩ := h
  obtain ⟨entries, rfl, hbody, hrun, hsizes⟩ := verifyLeafEntries_accepts hverify
  have hheader := ((decodePreamble_eq_ok rfl (by decide)).mp hcount).1
  have hne : entries ≠ [] := fun hnil => hfits (.inl (by simp [hnil]))
  rw [append_nil] at hbody
  exact ⟨entries, hcount, hfits, hheader, hbody, hrun.keys, hsizes, hrun.ascending, hne⟩

theorem borrowEntries_eq (hsizes : ∀ e ∈ es, e.1.length < 2 ^ 32 ∧ e.2.length < 2 ^ 32) :
    borrowEntries es.length (es.flatMap leafEntryBytes) = es := by
  induction es with
  | nil => rfl
  | cons e es ih =>
    obtain ⟨⟨hk, hv⟩, hsizes'⟩ := forall_mem_cons.mp hsizes
    have hrest := ih hsizes'
    rw [length_cons, borrowEntries, leafEntries_cons]
    simp only [cursorLength_append hk, cursorLength_append hv, cursorTake_append, Except.toOption, getD_some, hrest]

/-- A borrowed leaf offers the entries, boundary keys and count of the decoded one. -/
theorem borrowedLeaf_decode (h : LeafPayload payload entries) :
    ∃ leaf, BorrowedLeaf.decode payload = .ok leaf ∧ leaf.entries = entries ∧ leaf.count = entries.length ∧
      entries.head?.map Prod.fst = some leaf.minimum ∧ entries.getLast?.map Prod.fst = some leaf.maximum := by
  have hverify := verifyLeafEntries_eq [] h.run h.sizes
  have hfirst := head?_eq_some_head h.ne_nil
  have hlast := getLast?_eq_some_getLast h.ne_nil
  refine ⟨⟨entries.flatMap leafEntryBytes, entries.length, _, _⟩, ?_, borrowEntries_eq h.sizes, rfl,
    by rw [hfirst]; rfl, by rw [hlast]; rfl⟩
  simp only [BorrowedLeaf.decode, h.count, ok_bind, failIf_of_not h.countFits, h.body, hverify, hfirst,
    hlast, cursorFinish_nil]
  rfl

end Hyphae.BTree
