import Hyphae.Lib.Bytes

/-!
# Order-preserving codes

A code orders its values when comparing two encodings byte by byte, whatever
follows them, compares the values first and then what follows. The suffixes make
the notion closed under concatenation, and they are also what forbids one
encoding from being the beginning of another.
-/

namespace Lib

open List Ordering
open List (flatten_nil nil_append flatten_cons append_assoc)

/-! ## Comparing byte strings -/

/-- Lexicographic comparison by unsigned byte. -/
def compareBytes (x y : Bytes) : Ordering := List.compareLex (fun a b => compare a.toNat b.toNat) x y

@[simp] theorem compareBytes_nil : compareBytes [] [] = .eq := rfl

@[simp] theorem compareBytes_nil_cons (b : UInt8) (y : Bytes) : compareBytes [] (b :: y) = .lt := rfl

@[simp] theorem compareBytes_cons_nil (a : UInt8) (x : Bytes) : compareBytes (a :: x) [] = .gt := rfl

theorem compareBytes_cons (a b : UInt8) (x y : Bytes) :
    compareBytes (a :: x) (b :: y) = (compare a.toNat b.toNat).then (compareBytes x y) :=
  List.compareLex_cons_cons

theorem compareBytes_cons_self (a : UInt8) (x y : Bytes) : compareBytes (a :: x) (a :: y) = compareBytes x y := by
  rw [compareBytes_cons, Nat.compare_eq_eq.mpr rfl]
  rfl

theorem compareBytes_cons_of_lt {a b : UInt8} (h : a < b) (x y : Bytes) : compareBytes (a :: x) (b :: y) = .lt := by
  rw [compareBytes_cons, Nat.compare_eq_lt.mpr (UInt8.lt_iff_toNat_lt.mp h)]
  rfl

theorem compareBytes_append_left (z x y : Bytes) : compareBytes (z ++ x) (z ++ y) = compareBytes x y := by
  induction z with
  | nil => rfl
  | cons a z ih => rw [cons_append, cons_append, compareBytes_cons_self, ih]

theorem compareBytes_self (x : Bytes) : compareBytes x x = .eq := by
  have happend := compareBytes_append_left x [] []
  rwa [append_nil] at happend

theorem compareBytes_swap (x y : Bytes) : (compareBytes x y).swap = compareBytes y x := by
  induction x generalizing y with
  | nil => cases y <;> rfl
  | cons a x ih =>
    cases y with
    | nil => rfl
    | cons b y => rw [compareBytes_cons, compareBytes_cons, swap_then, ih, Nat.compare_swap]

/-- The high part decides first. -/
theorem compare_div_mod (m n d : Nat) : compare m n = (compare (m / d) (n / d)).then (compare (m % d) (n % d)) := by
  have hm := Nat.div_add_mod m d
  have hn := Nat.div_add_mod n d
  rcases lt_trichotomy (m / d) (n / d) with hlt | heq | hgt
  · rw [Nat.compare_eq_lt.mpr (Nat.lt_of_div_lt_div hlt), Nat.compare_eq_lt.mpr hlt]
    rfl
  · have hlow := cmp_add_left (d * (n / d)) (m % d) (n % d)
    rw [hn, ← heq, hm, cmp_eq_compare, cmp_eq_compare] at hlow
    rw [heq, Nat.compare_eq_eq.mpr rfl]
    exact hlow
  · rw [Nat.compare_eq_gt.mpr (Nat.lt_of_div_lt_div hgt), Nat.compare_eq_gt.mpr hgt]
    rfl

/-! ## Codes -/

section Codes

variable {α β τ : Type} {cmp cmp' : α → α → Ordering} {R R' : α → Bytes → Prop} {cmpB : β → β → Ordering}
  {S : β → Bytes → Prop}

/-- The encodings `R` gives compare as the values do, and then as what follows them. -/
def Orders (cmp : α → α → Ordering) (R : α → Bytes → Prop) : Prop :=
  ∀ a b x y, R a x → R b y → ∀ s t, compareBytes (x ++ s) (y ++ t) = (cmp a b).then (compareBytes s t)

theorem Orders.compare_eq (h : Orders cmp R) {a b : α} {x y : Bytes} (hx : R a x) (hy : R b y) :
    compareBytes x y = cmp a b := by
  have hnil := h a b x y hx hy [] []
  rwa [append_nil, append_nil, compareBytes_nil, then_eq] at hnil

/-- No encoding is a proper beginning of another. -/
theorem Orders.eq_of_isPrefix (h : Orders cmp R) {a b : α} {x y : Bytes} (hx : R a x) (hy : R b y) (hpre : x <+: y) :
    x = y := by
  obtain ⟨rest, rfl⟩ := hpre
  -- what is left of the longer one follows the shorter one, nothing follows the longer one
  have hsame := h a b x (x ++ rest) hx hy rest []
  rw [append_nil, compareBytes_self] at hsame
  cases rest with
  | nil => rw [append_nil]
  | cons c rest =>
    rw [compareBytes_cons_nil] at hsame
    cases hcmp : cmp a b <;> rw [hcmp] at hsame <;> cases hsame

theorem Orders.mono (h : Orders cmp R) (himp : ∀ a x, R' a x → R a x) : Orders cmp R' := by
  intro a b x y hx hy
  exact h a b x y (himp a x hx) (himp b y hy)

/-- Values are compared through what they are encoded by. -/
theorem Orders.comap (h : Orders cmp R) (f : β → α) : Orders (fun a b => cmp (f a) (f b)) (fun a => R (f a)) := by
  intro a b x y hx hy
  exact h (f a) (f b) x y hx hy

/-- A code whose values all have one shape orders them as their content is ordered. -/
theorem Orders.of_shape (hS : Orders cmpB S) (shape : β → α) (hshape : ∀ a x, R a x → ∃ b, a = shape b ∧ S b x)
    (hcmp : ∀ b b', cmp (shape b) (shape b') = cmpB b b') :
    Orders cmp R := by
  intro a b x y hx hy s t
  obtain ⟨a, rfl, hax⟩ := hshape a x hx
  obtain ⟨b, rfl, hby⟩ := hshape b y hy
  rw [hcmp, hS a b x y hax hby]

/-- Numbers of a fixed width, most significant byte first. -/
theorem orders_beBytes (w : Nat) : Orders compare (fun n x => n < 256 ^ w ∧ x = beBytes w n) := by
  rintro m n _ _ ⟨hm, rfl⟩ ⟨hn, rfl⟩
  induction w generalizing m n with
  | zero =>
    intro s t
    rw [pow_zero, Nat.lt_one_iff] at hm hn
    subst hm hn
    rfl
  | succ w ih =>
    intro s t
    -- the last byte is the remainder, the bytes before it are the quotient
    have hdiv : ∀ k, k < 256 ^ (w + 1) → k / 256 < 256 ^ w := by
      intro k hk
      rw [pow_succ] at hk
      exact Nat.div_lt_of_lt_mul (by rwa [mul_comm])
    have hsplit : ∀ k, beBytes (w + 1) k = beBytes w (k / 256) ++ [UInt8.ofNat k] := by
      intro k
      simp [beBytes, leBytes]
    rw [hsplit, hsplit, append_assoc, append_assoc, ih _ _ (hdiv m hm) (hdiv n hn), singleton_append,
      singleton_append, compareBytes_cons, UInt8.toNat_ofNat', UInt8.toNat_ofNat', ← then_assoc]
    congr 1
    exact (compare_div_mod m n 256).symm

/-- Integers between `-half` and `half`, shifted to start at zero. -/
theorem orders_shifted {w half : Nat} (hwidth : 2 * half = 256 ^ w) :
    Orders compare (fun (i : Int) x => -half ≤ i ∧ i < half ∧ x = beBytes w (i + half).toNat) := by
  rintro i j _ _ ⟨hi, hi', rfl⟩ ⟨hj, hj', rfl⟩ s t
  have hshift : compare (i + half).toNat (j + half).toNat = compare i j := by
    rcases lt_trichotomy i j with h | rfl | h
    · rw [compare_lt_iff_lt.mpr h, compare_lt_iff_lt.mpr (by omega)]
    · rw [compare_eq_iff_eq.mpr rfl, compare_eq_iff_eq.mpr rfl]
    · rw [compare_gt_iff_gt.mpr h, compare_gt_iff_gt.mpr (by omega)]
  rw [← hshift]
  exact orders_beBytes w _ _ _ _ ⟨by omega, rfl⟩ ⟨by omega, rfl⟩ s t

/-- A pair is compared by its first part, then by its second. -/
theorem Orders.pair (h : Orders cmp R) (hS : Orders cmpB S) :
    Orders (fun a b : α × β => (cmp a.1 b.1).then (cmpB a.2 b.2))
      (fun a z => ∃ x y, R a.1 x ∧ S a.2 y ∧ z = x ++ y) := by
  rintro a b _ _ ⟨x, y, hx, hy, rfl⟩ ⟨x', y', hx', hy', rfl⟩ s t
  rw [append_assoc, append_assoc, h a.1 b.1 x x' hx hx', hS a.2 b.2 y y' hy hy', then_assoc]

/-- A list behind whose items stands a terminator that sorts before every item. -/
theorem Orders.terminated (h : Orders cmp R) (terminator : Bytes)
    (hbefore : ∀ a z, R a z → ∀ s t, compareBytes (terminator ++ s) (z ++ t) = .lt) :
    Orders (List.compareLex cmp)
      (fun items z => ∃ parts, List.Forall₂ R items parts ∧ z = parts.flatten ++ terminator) := by
  rintro as bs _ _ ⟨xs, hxs, rfl⟩ ⟨ys, hys, rfl⟩
  induction hxs generalizing bs ys with
  | nil =>
    intro s t
    cases hys with
    | nil =>
      rw [flatten_nil, nil_append]
      exact compareBytes_append_left terminator s t
    | cons hy _ =>
      rw [flatten_nil, nil_append, flatten_cons, append_assoc, append_assoc, hbefore _ _ hy]
      rfl
  | cons hx _ ih =>
    intro s t
    cases hys with
    | nil =>
      rw [flatten_nil, nil_append, flatten_cons, append_assoc, append_assoc, ← compareBytes_swap, hbefore _ _ hx]
      rfl
    | cons hy hys =>
      have hrest := ih _ _ hys s t
      rw [flatten_cons, flatten_cons, append_assoc, append_assoc, append_assoc,
        append_assoc, h _ _ _ _ hx hy, List.compareLex_cons_cons, then_assoc, ← hrest,
        append_assoc, append_assoc]

/-- A list whose length is known needs no terminator. -/
theorem Orders.sized (h : Orders cmp R) (size : Nat) :
    Orders (List.compareLex cmp)
      (fun items z => items.length = size ∧ ∃ parts, List.Forall₂ R items parts ∧ z = parts.flatten) := by
  rintro as bs _ _ ⟨ha, xs, hxs, rfl⟩ ⟨hb, ys, hys, rfl⟩
  rw [← ha] at hb
  clear ha
  induction hxs generalizing bs ys with
  | nil =>
    intro s t
    obtain rfl := List.length_eq_zero_iff.mp hb
    cases hys
    rfl
  | cons hx _ ih =>
    intro s t
    cases hys with
    | nil => cases hb
    | cons hy hys =>
      have hrest := ih _ (Nat.succ.inj hb) _ hys s t
      rw [flatten_cons, flatten_cons, append_assoc, append_assoc, h _ _ _ _ hx hy,
        List.compareLex_cons_cons, then_assoc, hrest]

/-- Byte strings of one length, as they are. -/
theorem orders_bytes (size : Nat) : Orders compareBytes (fun a x => a.length = size ∧ x = a) := by
  have hbyte : Orders (fun a b : UInt8 => compare a.toNat b.toNat) (fun a x => x = [a]) := by
    rintro a b _ _ rfl rfl s t
    exact compareBytes_cons a b s t
  refine (hbyte.sized size).mono ?_
  rintro a x ⟨hsize, hx⟩
  refine ⟨hsize, a.map fun b => [b], ?_, ?_⟩
  · rw [List.forall₂_map_right_iff]
    exact List.forall₂_same.mpr fun _ _ => rfl
  · rw [hx, ← List.flatMap_def, List.flatMap_singleton']

/-- Compare tuples column by column. -/
def compareColumns (cmps : τ → α → α → Ordering) : List τ → List α → List α → Ordering
  | column :: columns, a :: as, b :: bs => (cmps column a b).then (compareColumns cmps columns as bs)
  | _, _, _ => .eq

/-- The parts that encode a tuple, each by the code of its column. -/
def EncodesColumns (codes : τ → α → Bytes → Prop) : List τ → List α → List Bytes → Prop
  | [], [], [] => True
  | column :: columns, a :: as, x :: xs => codes column a x ∧ EncodesColumns codes columns as xs
  | _, _, _ => False

theorem Orders.columns {cmps : τ → α → α → Ordering} {codes : τ → α → Bytes → Prop}
    (h : ∀ column, Orders (cmps column) (codes column)) (columns : List τ) :
    Orders (compareColumns cmps columns)
      (fun as z => ∃ parts, EncodesColumns codes columns as parts ∧ z = parts.flatten) := by
  rintro as bs _ _ ⟨xs, hxs, rfl⟩ ⟨ys, hys, rfl⟩ s t
  induction columns generalizing as bs xs ys with
  | nil =>
    match as, xs, bs, ys, hxs, hys with
    | [], [], [], [], _, _ => rfl
  | cons column columns ih =>
    match as, xs, bs, ys, hxs, hys with
    | a :: as, x :: xs, b :: bs, y :: ys, ⟨hx, hxs⟩, ⟨hy, hys⟩ =>
      rw [flatten_cons, flatten_cons, append_assoc, append_assoc, h column a b x y hx hy,
        ih as bs xs hxs ys hys, compareColumns, then_assoc]

end Codes

end Lib
