import Hyphae.BTree.BorrowedVisit

/-!
# The parsers of one node agree

A payload is decoded into a node, borrowed in place by a range reader, or searched for one
key. `LeafPayload` and `InternalPayload` say what all of them accept: each parser is
characterised by them, so any two give the same answers.
-/

namespace Hyphae.BTree

open Lib List Except

variable {payload : Bytes} {node : Node}

/-! ## Leaves -/

theorem borrowedLeaf_iff_decodeLeaf :
    decodeLeaf payload = .ok node ↔ ∃ leaf, BorrowedLeaf.decode payload = .ok leaf ∧ node = .leaf leaf.entries := by
  constructor
  · intro h
    obtain ⟨entries, rfl, hpayload⟩ := decodeLeaf_iff_leafPayload.mp h
    obtain ⟨leaf, hleaf, hentries, -⟩ := borrowedLeaf_decode hpayload
    exact ⟨leaf, hleaf, by rw [hentries]⟩
  · rintro ⟨leaf, hleaf, rfl⟩
    obtain ⟨entries, hpayload⟩ := leafPayload_of_borrowedLeaf hleaf
    obtain ⟨leaf', hleaf', hentries, -⟩ := borrowedLeaf_decode hpayload
    cases hleaf.symm.trans hleaf'
    rw [hentries]
    exact decodeLeaf_leaf.mpr hpayload

/-- The count and the boundary keys a borrowed leaf carries are those of its entries. -/
theorem borrowedLeaf_bounds {leaf : BorrowedLeaf} (h : BorrowedLeaf.decode payload = .ok leaf) :
    leaf.count = leaf.entries.length ∧ leaf.entries.head?.map Prod.fst = some leaf.minimum ∧
      leaf.entries.getLast?.map Prod.fst = some leaf.maximum := by
  obtain ⟨entries, hpayload⟩ := leafPayload_of_borrowedLeaf h
  obtain ⟨leaf', hleaf', hentries, hcount, hminimum, hmaximum⟩ := borrowedLeaf_decode hpayload
  cases h.symm.trans hleaf'
  rw [hentries]
  exact ⟨hcount, hminimum, hmaximum⟩

/-! ## Internal nodes -/

theorem borrowedInternal_iff_decodeInternal :
    decodeInternal payload = .ok node ↔ ∃ internal separators, BorrowedInternal.decode payload = .ok internal ∧
      internal.entries = .ok separators ∧
      node = .internal (separators.map Prod.fst) (internal.firstChild :: separators.map Prod.snd) := by
  constructor
  · intro h
    obtain ⟨first, separators, hpayload, rfl⟩ := decodeInternal_iff_internalPayload.mp h
    obtain ⟨internal, hinternal, rfl, hentries⟩ := borrowedInternal_decode hpayload
    exact ⟨internal, separators, hinternal, hentries, rfl⟩
  · rintro ⟨internal, separators, hinternal, hentries, rfl⟩
    obtain ⟨first, separators', hpayload⟩ := internalPayload_of_borrowedInternal hinternal
    obtain ⟨internal', hinternal', rfl, hentries'⟩ := borrowedInternal_decode hpayload
    cases hinternal.symm.trans hinternal'
    cases hentries.symm.trans hentries'
    exact decodeInternal_iff_internalPayload.mpr ⟨_, _, hpayload, rfl⟩

/-- The separators of a borrowed internal node can always be read. -/
theorem borrowedInternal_entries {internal : BorrowedInternal} (h : BorrowedInternal.decode payload = .ok internal) :
    ∃ separators, internal.entries = .ok separators := by
  obtain ⟨first, separators, hpayload⟩ := internalPayload_of_borrowedInternal h
  obtain ⟨internal', hinternal', -, hentries⟩ := borrowedInternal_decode hpayload
  cases h.symm.trans hinternal'
  exact ⟨separators, hentries⟩

/-! ## Encoding -/

theorem decode_encodeLeaf {entries : List KeyValue} (h : encodeLeaf entries = .ok payload) :
    decodeLeaf payload = .ok (.leaf entries) := by
  obtain ⟨hwf, rfl⟩ := encodeLeaf_eq_ok.mp h
  exact (decodeLeaf_eq_ok hwf.fits).mpr ⟨entries, rfl, hwf, rfl⟩

theorem decode_encodeInternal {keys : List Bytes} {children : List PageId}
    (h : encodeInternal keys children = .ok payload) : decodeInternal payload = .ok (.internal keys children) := by
  obtain ⟨hwf, rfl⟩ := encodeInternal_eq_ok.mp h
  exact (decodeInternal_eq_ok hwf.fits).mpr ⟨keys, children, rfl, hwf, rfl⟩

theorem encode_decoded (hfits : payload.length ≤ pagePayloadSize)
    (h : decodeLeaf payload = .ok node ∨ decodeInternal payload = .ok node) : node.encode = .ok payload := by
  rw [Node.encode_eq_ok]
  rcases h with h | h
  · obtain ⟨entries, rfl, hwf, hbytes⟩ := (decodeLeaf_eq_ok hfits).mp h
    exact ⟨hwf, hbytes⟩
  · obtain ⟨keys, children, rfl, hwf, hbytes⟩ := (decodeInternal_eq_ok hfits).mp h
    exact ⟨hwf, hbytes⟩

/-- All parsers of a payload agree, a lookup finds what the decoded node holds, and
encoding and decoding are inverse to each other. -/
theorem node_parsers_agree (payload : Bytes) :
    ((∀ node, decodeLeaf payload = .ok node ↔
        ∃ leaf, BorrowedLeaf.decode payload = .ok leaf ∧ node = .leaf leaf.entries) ∧
      ∀ leaf, BorrowedLeaf.decode payload = .ok leaf →
        leaf.count = leaf.entries.length ∧ leaf.entries.head?.map Prod.fst = some leaf.minimum ∧
          leaf.entries.getLast?.map Prod.fst = some leaf.maximum) ∧
    ((∀ node, decodeInternal payload = .ok node ↔
        ∃ internal separators, BorrowedInternal.decode payload = .ok internal ∧ internal.entries = .ok separators ∧
          node = .internal (separators.map Prod.fst) (internal.firstChild :: separators.map Prod.snd)) ∧
      ∀ internal, BorrowedInternal.decode payload = .ok internal → ∃ separators, internal.entries = .ok separators) ∧
    (∀ entries target, decodeLeaf payload = .ok (.leaf entries) →
      lookupLeaf payload target = .ok (.value (valueRange leafHeaderSize target entries)) ∧
        (valueRange leafHeaderSize target entries).map (fun r => slice payload r.1 r.2) = lookupKey entries target) ∧
    (∀ keys children target, decodeInternal payload = .ok (.internal keys children) →
      ∃ child, lookupInternal payload target = .ok (.descend child) ∧
        children[childIndex keys target]? = some child) ∧
    ((∀ entries, encodeLeaf entries = .ok payload → decodeLeaf payload = .ok (.leaf entries)) ∧
      ∀ keys children, encodeInternal keys children = .ok payload →
        decodeInternal payload = .ok (.internal keys children)) ∧
    (payload.length ≤ pagePayloadSize →
      ∀ node, decodeLeaf payload = .ok node ∨ decodeInternal payload = .ok node → node.encode = .ok payload) := by
  refine ⟨⟨fun node => borrowedLeaf_iff_decodeLeaf, fun leaf => borrowedLeaf_bounds⟩,
    ⟨fun node => borrowedInternal_iff_decodeInternal, fun internal => borrowedInternal_entries⟩, ?_, ?_,
    ⟨fun entries => decode_encodeLeaf, fun keys children => decode_encodeInternal⟩,
      fun hfits node => encode_decoded hfits⟩
  · intro entries target h
    have hpayload := decodeLeaf_leaf.mp h
    exact ⟨lookupLeaf_range hpayload target, hpayload.slice_valueRange target⟩
  · intro keys children target h
    obtain ⟨first, separators, hpayload, ⟨⟩⟩ := decodeInternal_iff_internalPayload.mp h
    exact lookupInternal_eq hpayload target

end Hyphae.BTree
