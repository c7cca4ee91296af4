import Mathlib

/-!
# Byte strings

Byte strings are lists of `UInt8`, ordered lexicographically by unsigned byte:
the order in which slices of bytes are compared. Fixed-width numbers are written
into them little-endian (`leBytes`) and read back (`ofLe`).
-/

namespace Lib

open List

variable {w start stop n : Nat}

/-- A byte string. -/
abbrev Bytes := List UInt8

variable {bs field : Bytes}

instance instLinearOrderUInt8 : LinearOrder UInt8 where
  le_refl := UInt8.le_refl
  le_trans _ _ _ := UInt8.le_trans
  lt_iff_le_not_ge a b := by
    simp only [UInt8.lt_iff_toNat_lt, UInt8.le_iff_toNat_le]
    omega
  le_antisymm _ _ := UInt8.le_antisymm
  le_total := UInt8.le_total
  toDecidableLE := inferInstance
  toDecidableEq := inferInstance
  toDecidableLT := inferInstance
  min_def _ _ := rfl
  max_def _ _ := rfl
  compare_eq_compareOfLessAndEq _ _ := rfl

instance : LawfulBEq Bytes := inferInstance

/-! ## Little-endian numbers -/

/-- The `w` low bytes of `n`, least significant first. -/
def leBytes : Nat → Nat → Bytes
  | 0, _ => []
  | w + 1, n => UInt8.ofNat n :: leBytes w (n / 256)

/-- The number a little-endian byte string denotes. -/
def ofLe : Bytes → Nat
  | [] => 0
  | b :: bs => b.toNat + 256 * ofLe bs

@[simp] theorem length_leBytes (w n : Nat) : (leBytes w n).length = w := by
  induction w generalizing n with
  | zero => rfl
  | succ w ih => simp [leBytes, ih]

theorem ofLe_lt (bs : Bytes) : ofLe bs < 256 ^ bs.length := by
  induction bs with
  | nil => simp [ofLe]
  | cons b bs ih =>
    have hb := UInt8.toNat_lt b
    simp only [ofLe, length_cons, pow_succ]
    omega

theorem ofLe_leBytes_mod (w n : Nat) : ofLe (leBytes w n) = n % 256 ^ w := by
  induction w generalizing n with
  | zero => simp [leBytes, ofLe, Nat.mod_one]
  | succ w ih =>
    rw [pow_succ', Nat.mod_mul, leBytes, ofLe, ih, UInt8.toNat_ofNat']

theorem ofLe_leBytes (h : n < 256 ^ w) : ofLe (leBytes w n) = n := by
  rw [ofLe_leBytes_mod, Nat.mod_eq_of_lt h]

/-- A machine number is read back from its little-endian bytes. -/
theorem ofNat_ofLe_leBytes {k : Nat} (h : 2 ^ w = 256 ^ k) (value : BitVec w) :
    BitVec.ofNat w (ofLe (leBytes k value.toNat)) = value := by
  rw [ofLe_leBytes (h ▸ value.isLt), BitVec.ofNat_toNat, BitVec.setWidth_eq]

theorem leBytes_ofLe (bs : Bytes) : leBytes bs.length (ofLe bs) = bs := by
  induction bs with
  | nil => rfl
  | cons b bs ih =>
    have hb := UInt8.toNat_lt b
    have hdiv : (b.toNat + 256 * ofLe bs) / 256 = ofLe bs := by omega
    have hmod : UInt8.ofNat (b.toNat + 256 * ofLe bs) = b := by
      apply UInt8.toNat_inj.mp
      simp only [UInt8.toNat_ofNat']
      omega
    simp only [ofLe, length_cons, leBytes, hdiv, hmod, ih]

/-- A field of `w` bytes holds exactly the numbers below `256 ^ w`. -/
theorem eq_leBytes_iff (hlen : bs.length = w) : ofLe bs = n ↔ n < 256 ^ w ∧ bs = leBytes w n := by
  constructor
  · rintro rfl
    exact ⟨hlen ▸ ofLe_lt bs, by rw [← hlen, leBytes_ofLe]⟩
  · rintro ⟨hn, rfl⟩
    exact ofLe_leBytes hn

theorem leBytes_inj {m : Nat} (hn : n < 256 ^ w) (hm : m < 256 ^ w) (h : leBytes w n = leBytes w m) : n = m := by
  rw [← ofLe_leBytes hn, h, ofLe_leBytes hm]

/-- Pieces of one width, put end to end, can be told apart. -/
theorem flatMap_inj {α : Type} {f : α → Bytes} (hw : 0 < w) (hlen : ∀ a, (f a).length = w)
    (hinj : ∀ {a b}, f a = f b → a = b) {xs ys : List α} (h : xs.flatMap f = ys.flatMap f) : xs = ys := by
  have hsome : ∀ y ys, (y :: ys).flatMap f ≠ [] := by
    intro y ys hnil
    have hzero := congrArg length hnil
    simp only [length_nil, flatMap_cons, length_append, hlen] at hzero
    omega
  induction xs generalizing ys with
  | nil =>
    cases ys with
    | nil => rfl
    | cons y ys => exact absurd h.symm (hsome y ys)
  | cons x xs ih =>
    cases ys with
    | nil => exact absurd h (hsome x xs)
    | cons y ys =>
      obtain ⟨hfirst, hrest⟩ := append_inj h ((hlen x).trans (hlen y).symm)
      rw [hinj hfirst, ih hrest]

/-! ## Big-endian numbers -/

/-- The `w` low bytes of `n`, most significant first. -/
def beBytes (w n : Nat) : Bytes := (leBytes w n).reverse

/-- The number a big-endian byte string denotes. -/
def ofBe (bs : Bytes) : Nat := ofLe bs.reverse

@[simp] theorem length_beBytes (w n : Nat) : (beBytes w n).length = w := by simp [beBytes]

theorem ofBe_beBytes (h : n < 256 ^ w) : ofBe (beBytes w n) = n := by
  rw [ofBe, beBytes, reverse_reverse, ofLe_leBytes h]

theorem ofBe_beBytes_mod (w n : Nat) : ofBe (beBytes w n) = n % 256 ^ w := by
  rw [ofBe, beBytes, reverse_reverse, ofLe_leBytes_mod]

/-! ## Slices -/

/-- The bytes `bs[start..stop]`. -/
def slice (bs : Bytes) (start stop : Nat) : Bytes := (bs.take stop).drop start

theorem length_slice (h : stop ≤ bs.length) : (slice bs start stop).length = stop - start := by
  simp [slice, h]

theorem slice_append_drop (bs : Bytes) (h : start ≤ stop) : slice bs start stop ++ bs.drop stop = bs.drop start := by
  have hdrop : bs.drop stop = (bs.drop start).drop (stop - start) := by
    rw [drop_drop, Nat.add_sub_cancel' h]
  rw [slice, drop_take, hdrop, take_append_drop]

/-- The field at the front is read back by its slice. -/
theorem slice_field (rest : Bytes) (h : field.length = stop) : slice (field ++ rest) 0 stop = field := by
  subst h
  simp [slice]

/-- A slice behind a field does not depend on it. -/
theorem slice_skip (rest : Bytes) (h : field.length ≤ start) :
    slice (field ++ rest) start stop = slice rest (start - field.length) (stop - field.length) := by
  simp only [slice, drop_take, drop_append, drop_eq_nil_of_le h, nil_append]
  congr 1
  omega

/-- A slice of one byte is the byte at that place. -/
theorem getD_of_slice {b : UInt8} (h : slice bs n (n + 1) = [b]) : bs.getD n 0 = b := by
  have hdrop : bs.drop n = b :: bs.drop (n + 1) := by
    rw [← slice_append_drop bs (Nat.le_succ n), h, singleton_append]
  have hget : bs[n]? = some b := by rw [← head?_drop, hdrop, head?_cons]
  simp [getD, hget]

/-! ## Consecutive fields

A record with a fixed layout is the concatenation of its fields. Field `i` starts
where the fields in front of it end, so the slice up to the next such offset is the field. -/

/-- `bs[start..start + field.len()].copy_from_slice(field)`. -/
def overwrite (bs : Bytes) (start : Nat) (field : Bytes) : Bytes :=
  bs.take start ++ field ++ bs.drop (start + field.length)

section Fields

variable {fields : List Bytes} {i : Nat}

theorem flatten_split (fields : List Bytes) (i : Nat) :
    fields.flatten = (fields.take i).flatten ++ (fields.drop i).flatten := by
  rw [← flatten_append, take_append_drop]

theorem take_flatten (h : (fields.take i).flatten.length = start) :
    fields.flatten.take start = (fields.take i).flatten := by
  rw [flatten_split fields i, ← h, take_left]

theorem drop_flatten (h : (fields.take i).flatten.length = start) :
    fields.flatten.drop start = (fields.drop i).flatten := by
  rw [flatten_split fields i, ← h, drop_left]

/-- The fields stand between these offsets, one behind the other. -/
def FieldsAt (encoded : Bytes) : List Nat → List Bytes → Prop
  | start :: stop :: offsets, field :: fields =>
    slice encoded start stop = field ∧ FieldsAt encoded (stop :: offsets) fields
  | _, _ => True

theorem fieldsAt_behind {front : Bytes} {offsets : List Nat} (hfront : front.length = start)
    (h : offsets <+: (fields.map length).scanl (· + ·) start) : FieldsAt (front ++ fields.flatten) offsets fields := by
  induction fields generalizing front start offsets with
  | nil => rcases offsets with _ | ⟨_, _ | _⟩ <;> trivial
  | cons field fields ih =>
    rcases offsets with _ | ⟨start', _ | ⟨stop, offsets⟩⟩
    · trivial
    · trivial
    · rw [map_cons, scanl_cons, cons_prefix_cons] at h
      obtain ⟨rfl, hrest⟩ := h
      have hstop : stop = start' + field.length := by
        cases fields <;> simp_all
      rw [flatten_cons]
      constructor
      · rw [slice_skip _ hfront.le, hfront, Nat.sub_self, slice_field _ (by omega)]
      · rw [← append_assoc]
        exact ih (by simp [hfront]) hrest

/-- The offsets follow from the lengths of the fields. -/
theorem fieldsAt {encoded : Bytes} (hencoded : encoded = fields.flatten) (offsets : List Nat)
    (h : offsets <+: (fields.map length).scanl (· + ·) 0) : FieldsAt encoded offsets fields := by
  have hbehind := fieldsAt_behind (length_nil : ([] : Bytes).length = 0) h
  rwa [hencoded]

theorem overwrite_fieldAt {old new : Bytes} (hfield : fields[i]? = some old)
    (hi : (fields.take i).flatten.length = start) (hlen : new.length = old.length) :
    overwrite fields.flatten start new = (fields.set i new).flatten := by
  obtain ⟨hlt, hold⟩ := List.getElem?_eq_some_iff.mp hfield
  have htake : fields.take (i + 1) = fields.take i ++ [old] := by rw [List.take_add_one, hfield]; rfl
  have hj : (fields.take (i + 1)).flatten.length = start + new.length := by
    rw [htake, List.flatten_append, List.length_append, hi, hlen]
    simp
  rw [overwrite, take_flatten hi, drop_flatten hj, List.set_eq_take_append_cons_drop, if_pos hlt]
  simp

end Fields

end Lib
