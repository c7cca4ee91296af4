import Mathlib

/-!
# Fallible computations

`Except ε` is the monad of pure code that may return an error. `EStateM ε σ` is the
monad of code that mutates a store in place and may return an error: the error path
hands back the store as it was when the error occurred.
The rules here take a run apart at a bind, and carry a relation between the
store before and after through every run, failed ones included.
-/

/-- A member of a related list has a counterpart. -/
theorem Lib.exists_of_forall₂ {α β : Type} {R : α → β → Prop} {as : List α} {bs : List β} (h : List.Forall₂ R as bs)
    {a : α} (ha : a ∈ as) : ∃ b ∈ bs, R a b := by
  induction h with
  | nil => cases ha
  | @cons a' b as bs hab _ ih =>
    rcases List.mem_cons.mp ha with rfl | ha
    · exact ⟨b, List.mem_cons_self, hab⟩
    · obtain ⟨b', hb', hr⟩ := ih ha
      exact ⟨b', List.mem_cons_of_mem _ hb', hr⟩

namespace Except

open List

variable {ε α β : Type}

variable {e e' : ε} {c : Prop} {o : Option α} {items : List α}

variable {x : Except ε α} {f : α → Except ε β} {b : β} {results : List β}

theorem bind_eq_ok : (x >>= f) = .ok b ↔ ∃ a, x = .ok a ∧ f a = .ok b := by
  cases x <;> simp [bind, Except.bind]

theorem bind_eq_error : (x >>= f) = .error e ↔ x = .error e ∨ ∃ a, x = .ok a ∧ f a = .error e := by
  cases x <;> simp [bind, Except.bind]

@[simp] theorem ok_bind (a : α) (f : α → Except ε β) : ((.ok a : Except ε α) >>= f) = f a := rfl

@[simp] theorem error_bind (e : ε) (f : α → Except ε β) : ((.error e : Except ε α) >>= f) = .error e := rfl

@[simp] theorem pure_eq_ok (a : α) : (pure a : Except ε α) = .ok a := rfl

/-- Return the error `e` when `c` holds. -/
def failIf (c : Prop) [Decidable c] (e : ε) : Except ε Unit := if c then .error e else .ok ()

@[simp] theorem failIf_eq_ok [Decidable c] {u : Unit} : failIf c e = .ok u ↔ ¬c := by
  unfold failIf
  split <;> simp_all

theorem failIf_of [Decidable c] (h : c) : failIf c e = .error e := if_pos h

@[simp] theorem failIf_false (e : ε) : failIf False e = .ok () := if_neg not_false

theorem failIf_of_not [Decidable c] (h : ¬c) : failIf c e = .ok () := failIf_eq_ok.mpr h

theorem failIf_bind [Decidable c] {next : Unit → Except ε α} (h : ¬c) : (failIf c e >>= next) = next () := by
  rw [failIf_of_not h, ok_bind]

@[simp] theorem failIf_eq_error [Decidable c] : failIf c e = .error e' ↔ c ∧ e = e' := by
  unfold failIf
  split <;> simp_all

/-- The value of an option, or the error `e`. -/
def okOr (o : Option α) (e : ε) : Except ε α :=
  match o with
  | some a => .ok a
  | none => .error e

@[simp] theorem okOr_eq_ok {a : α} : okOr o e = .ok a ↔ o = some a := by
  cases o <;> simp [okOr]

@[simp] theorem okOr_eq_error : okOr o e = .error e' ↔ o = none ∧ e = e' := by
  cases o <;> simp [okOr]

@[simp] theorem mapError_eq_ok {ε' : Type} {f : ε → ε'} {a : α} : x.mapError f = .ok a ↔ x = .ok a := by
  cases x <;> simp [Except.mapError]

@[simp] theorem map_eq_ok {f : α → β} : x.map f = .ok b ↔ ∃ a, x = .ok a ∧ f a = b := by
  cases x <;> simp [Except.map]

theorem forM_eq_ok {check : α → Except ε Unit} {u : Unit} :
    items.forM check = .ok u ↔ ∀ a ∈ items, check a = .ok () := by
  induction items with
  | nil => simp
  | cons a items ih =>
    simp only [forM_eq_forM, forM_cons, Except.bind_eq_ok, forall_mem_cons] at ih ⊢
    rw [← ih]
    exact ⟨fun ⟨_, ha, hi⟩ => ⟨ha, hi⟩, fun ⟨ha, hi⟩ => ⟨_, ha, hi⟩⟩

theorem mapM_eq_ok {g : α → β} (h : ∀ a ∈ items, f a = .ok (g a)) : items.mapM f = .ok (items.map g) := by
  induction items with
  | nil => rfl
  | cons a items ih =>
    obtain ⟨ha, hitems⟩ := forall_mem_cons.mp h
    simp [ha, ih hitems]

theorem forall₂_of_mapM_eq_ok (h : items.mapM f = .ok results) :
    List.Forall₂ (fun a b => f a = .ok b) items results := by
  induction items generalizing results with
  | nil =>
    cases h
    exact .nil
  | cons a items ih =>
    simp only [mapM_cons, bind_eq_ok, pure_eq_ok, Except.ok.injEq] at h
    obtain ⟨b, hb, rest, hrest, rfl⟩ := h
    exact .cons hb (ih hrest)

/-- The results are those of the items. -/
theorem mem_of_mapM_eq_ok (h : items.mapM f = .ok results) :
    (∀ a ∈ items, ∃ b ∈ results, f a = .ok b) ∧ ∀ b ∈ results, ∃ a ∈ items, f a = .ok b := by
  have hall := forall₂_of_mapM_eq_ok h
  have hflip : List.Forall₂ (flip fun a b => f a = .ok b) results items := hall.flip
  exact ⟨fun a => Lib.exists_of_forall₂ hall, fun b => Lib.exists_of_forall₂ hflip⟩

/-- A fold that succeeds has a step at each of its items. -/
theorem step_of_foldlM_eq_ok {f : β → α → Except ε β} {r : β} (h : items.foldlM f b = .ok r) :
    ∀ a ∈ items, ∃ b' b'', f b' a = .ok b'' := by
  induction items generalizing b with
  | nil => simp
  | cons a items ih =>
    rw [foldlM_cons, bind_eq_ok] at h
    obtain ⟨next, hstep, hrest⟩ := h
    intro a' ha'
    rcases mem_cons.mp ha' with rfl | ha'
    · exact ⟨b, next, hstep⟩
    · exact ih hrest a' ha'

/-- What holds of an outcome, by evaluating it. -/
theorem of_all (p : α → Bool) (h : x.toOption.all p = true) (a : α) (ha : x = .ok a) : p a = true := by
  subst ha
  exact h

theorem exists_of_any (p : α → Bool) (h : x.toOption.any p = true) : ∃ a, x = .ok a ∧ p a = true := by
  cases x with
  | error error => cases h
  | ok a => exact ⟨a, rfl, h⟩

/-! ### Errors a computation never returns -/

theorem bind_ne_error (hx : x ≠ .error e) (hf : ∀ a, f a ≠ .error e) : (x >>= f) ≠ .error e := by
  intro h
  rcases bind_eq_error.mp h with h | ⟨a, -, h⟩
  · exact hx h
  · exact hf a h

theorem failIf_ne_error [Decidable c] (h : e ≠ e') : failIf c e ≠ .error e' := by
  simp [h]

theorem okOr_ne_error (h : e ≠ e') : okOr o e ≠ .error e' := by
  simp [h]

theorem foldlM_ne_error {f : β → α → Except ε β} (hf : ∀ b a, f b a ≠ .error e) (items : List α) (b : β) :
    items.foldlM f b ≠ .error e := by
  induction items generalizing b with
  | nil => simp
  | cons a items ih => exact bind_ne_error (hf b a) ih

theorem mapM_ne_error (hf : ∀ a, f a ≠ .error e) (items : List α) : items.mapM f ≠ .error e := by
  induction items with
  | nil => simp
  | cons a items ih =>
    rw [mapM_cons]
    exact bind_ne_error (hf a) fun _ => bind_ne_error ih fun _ => by simp

theorem forM_ne_error {f : α → Except ε Unit} (hf : ∀ a, f a ≠ .error e) (items : List α) :
    items.forM f ≠ .error e := by
  induction items with
  | nil => simp
  | cons a items ih => exact bind_ne_error (hf a) fun _ => ih

end Except

namespace EStateM

variable {ε σ α β : Type}

variable {s s' : σ} {e : ε}

variable {x : EStateM ε σ α} {f : α → EStateM ε σ β} {a : α}

/-- The state a run ends in, on success and on failure. -/
def Result.state : Result ε σ α → σ
  | .ok _ s => s
  | .error _ s => s

@[simp] theorem Result.state_ok (a : α) (s : σ) : (Result.ok a s : Result ε σ α).state = s := rfl

@[simp] theorem Result.state_error (e : ε) (s : σ) : (Result.error e s : Result ε σ α).state = s := rfl

theorem bind_apply (x : EStateM ε σ α) (f : α → EStateM ε σ β) (s : σ) :
    (x >>= f) s = match x s with
      | .ok a s' => f a s'
      | .error e s' => .error e s' := rfl

@[simp] theorem pure_apply (a : α) (s : σ) : (pure a : EStateM ε σ α) s = .ok a s := rfl

@[simp] theorem throw_apply (e : ε) (s : σ) : (throw e : EStateM ε σ α) s = .error e s := rfl

@[simp] theorem get_apply (s : σ) : (get : EStateM ε σ σ) s = .ok s s := rfl

@[simp] theorem set_apply (s s' : σ) : (set s' : EStateM ε σ PUnit) s = .ok ⟨⟩ s' := rfl

@[simp] theorem modify_apply (f : σ → σ) (s : σ) : (modify f : EStateM ε σ PUnit) s = .ok ⟨⟩ (f s) := rfl

theorem bind_eq_ok {s'' : σ} {b : β} : (x >>= f) s = .ok b s'' ↔ ∃ a s', x s = .ok a s' ∧ f a s' = .ok b s'' := by
  rw [bind_apply]
  cases x s <;> simp

theorem bind_eq_error {s'' : σ} :
    (x >>= f) s = .error e s'' ↔
      x s = .error e s'' ∨ ∃ a s', x s = .ok a s' ∧ f a s' = .error e s'' := by
  rw [bind_apply]
  cases x s <;> simp

/-- A pure fallible computation run inside the monad. -/
def ofExcept : Except ε α → EStateM ε σ α
  | .ok a => pure a
  | .error e => throw e

@[simp] theorem ofExcept_eq_ok {x : Except ε α} : (ofExcept x : EStateM ε σ α) s = .ok a s' ↔ x = .ok a ∧ s = s' := by
  cases x <;> simp [ofExcept]

@[simp] theorem ofExcept_eq_error {x : Except ε α} :
    (ofExcept x : EStateM ε σ α) s = .error e s' ↔ x = .error e ∧ s = s' := by
  cases x <;> simp [ofExcept]

/-- `x` never fails with the error `e`. -/
def Avoids (e : ε) (x : EStateM ε σ α) : Prop := ∀ s s', x s ≠ .error e s'

theorem Avoids.pure (e : ε) (a : α) : Avoids e (Pure.pure a : EStateM ε σ α) := by
  intro s s'
  simp

theorem Avoids.ofExcept {y : Except ε α} (h : y ≠ .error e) : Avoids e (ofExcept y : EStateM ε σ α) := by
  intro s s'
  simp [h]

theorem Avoids.bind (hx : Avoids e x) (hf : ∀ a, Avoids e (f a)) : Avoids e (x >>= f) := by
  intro s s' h
  rcases bind_eq_error.mp h with h | ⟨a, s'', -, h⟩
  · exact hx s s' h
  · exact hf a s'' s' h

/-- `x` moves the state only along `R`, whatever its outcome. -/
def Moves (R : σ → σ → Prop) (x : EStateM ε σ α) : Prop := ∀ s, R s (x s).state

section Moves

variable {R : σ → σ → Prop}

theorem Moves.ok (h : Moves R x) (hx : x s = .ok a s') : R s s' := by
  have := h s
  rwa [hx] at this

theorem Moves.error (h : Moves R x) (hx : x s = .error e s') : R s s' := by
  have := h s
  rwa [hx] at this

section Preorder

variable [IsPreorder σ R]

theorem Moves.pure (a : α) : Moves R (Pure.pure a : EStateM ε σ α) := fun s => Std.Refl.refl s

theorem Moves.get : Moves R (MonadState.get : EStateM ε σ σ) := fun s => Std.Refl.refl s

theorem Moves.throw (e : ε) : Moves R (throw e : EStateM ε σ α) := fun s => Std.Refl.refl s

theorem Moves.ofExcept (y : Except ε α) : Moves R (ofExcept y : EStateM ε σ α) := by
  intro s
  cases y <;> exact Std.Refl.refl s

theorem Moves.bind (hx : Moves R x) (hf : ∀ a, Moves R (f a)) : Moves R (x >>= f) := by
  intro s
  rw [bind_apply]
  cases h : x s with
  | ok a s' => exact IsTrans.trans _ _ _ (hx.ok h) (hf a s')
  | error e s' => exact hx.error h

end Preorder

/-- Whenever `x` fails, `R` holds between the state before and the state after. -/
def FailsWithin (R : σ → σ → Prop) (x : EStateM ε σ α) : Prop := ∀ s e s', x s = .error e s' → R s s'

theorem Moves.failsWithin (h : Moves R x) : FailsWithin R x := fun _ _ _ hx => h.error hx

/-- A failure of `x >>= f` is one of `x`, or one of `f` behind what `x` did. -/
theorem Moves.bind_failsWithin [IsTrans σ R] {f : α → EStateM ε σ β} (hx : Moves R x) (hf : ∀ a, FailsWithin R (f a)) :
    FailsWithin R (x >>= f) := by
  intro s e s'' h
  rcases bind_eq_error.mp h with hfail | ⟨a, s', hok, hfail⟩
  · exact hx.error hfail
  · exact IsTrans.trans s s' s'' (hx.ok hok) (hf a s' e s'' hfail)

end Moves

/-- From every state with `P`, `x` ends with its result in `Q` or with its error in `E`. -/
def Ensures (P : σ → Prop) (x : EStateM ε σ α) (Q : α → σ → Prop) (E : ε → σ → Prop) : Prop :=
  ∀ s, P s → match x s with
    | .ok a s' => Q a s'
    | .error e s' => E e s'

section Ensures

variable {P P' : σ → Prop} {Q : α → σ → Prop} {E : ε → σ → Prop}

theorem Ensures.ok (h : Ensures P x Q E) (hs : P s) (hx : x s = .ok a s') : Q a s' := by
  have := h s hs
  rwa [hx] at this

theorem Ensures.error (h : Ensures P x Q E) (hs : P s) (hx : x s = .error e s') : E e s' := by
  have := h s hs
  rwa [hx] at this

theorem Ensures.bind {R : β → σ → Prop} (hx : Ensures P x Q E) (hf : ∀ a, Ensures (Q a) (f a) R E) :
    Ensures P (x >>= f) R E := by
  intro s hs
  rw [bind_apply]
  cases h : x s with
  | ok a s' => exact hf a s' (hx.ok hs h)
  | error e s' => exact hx.error hs h

theorem Ensures.imp {Q' : α → σ → Prop} {E' : ε → σ → Prop} (h : Ensures P x Q E) (hP : ∀ s, P' s → P s)
    (hQ : ∀ a s, Q a s → Q' a s) (hE : ∀ e s, E e s → E' e s) : Ensures P' x Q' E' := by
  intro s hs
  cases hx : x s with
  | ok a s' => exact hQ a s' (h.ok (hP s hs) hx)
  | error e s' => exact hE e s' (h.error (hP s hs) hx)

/-- A loop keeps what every round keeps, with the rest of the items in view. -/
theorem Ensures.foldlM {f : β → α → EStateM ε σ β} (I : List α → β → σ → Prop)
    (hstep : ∀ a rest b, Ensures (I (a :: rest) b) (f b a) (fun b' => I rest b') E) (items : List α) (b : β) :
    Ensures (I items b) (items.foldlM f b) (fun b' => I [] b') E := by
  induction items generalizing b with
  | nil => exact fun s hs => hs
  | cons a items ih =>
    rw [List.foldlM_cons]
    exact (hstep a items b).bind fun b' => ih b'

end Ensures

end EStateM
