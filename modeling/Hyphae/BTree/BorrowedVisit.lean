import Hyphae.BTree.ReadersTree

/-!
# The borrowed range visitor

Visits a key range straight over the pages of the store, under hard limits on the entries
and bytes it may hand over and under a control that can cancel it. On the way down it
checks every node against the interval its ancestors leave for it.
-/

namespace Hyphae.BTree

open Lib List Except Finset EStateM

open Subtree (entries pages)

variable {subs rest : List Subtree} {node : ChildRange} {separators : List (Bytes × PageId)} {e : KeyValue}
  {previous : Option Bytes} {payload key : Bytes} {first : PageId}

/-- Hard entry and byte limits for one visit; a `usize` and a `u64`. -/
structure BorrowedVisitLimits where
  maximumEntries : Nat
  maximumBytes : Nat
  entriesFit : maximumEntries < 2 ^ 64
  bytesFit : maximumBytes < 2 ^ 64

/-- Completed work observed by one visit. -/
structure BorrowedVisitStats where
  entries : Nat
  bytes : Nat
  complete : Bool
  deriving DecidableEq

/-- Bounded borrowed-visitor failure. -/
inductive BorrowedVisitError
  | tree (error : BTreeError)
  | cancelled
  | limitExceeded
  deriving DecidableEq

/-! ## Internal nodes read in place -/

structure BorrowedInternal where
  firstChild : PageId
  body : Bytes
  count : Nat

/-- The verification loop; what is left of the payload. -/
def verifySeparators : (count : Nat) → (previous : Option Bytes) → (cursor : Bytes) → TreeM Bytes
  | 0, _, cursor => return cursor
  | count + 1, previous, cursor => do
    let (keyLength, cursor) ← cursorLength cursor
    let (key, cursor) ← cursorTake keyLength cursor
    .failIf (maxKeySize < key.length) .keyTooLarge
    .failIf (∃ before ∈ previous, key ≤ before) .noncanonicalKeyOrder
    let (child, cursor) ← cursorU64 cursor
    let _ ← .okOr (NonZeroUInt.new 64 child) .zeroChild
    verifySeparators count (some key) cursor

def BorrowedInternal.decode (payload : Bytes) : TreeM BorrowedInternal := do
  let count ← decodePreamble internalMagic internalHeaderSize payload
  .failIf (count = 0 ∨ (payload.length - internalHeaderSize) / 12 + 1 < count) .invalidCount
  let firstChild ← .okOr (NonZeroUInt.new 64 (ofLe (slice payload 16 24))) .zeroChild
  let body := payload.drop internalHeaderSize
  let cursor ← verifySeparators count none body
  cursorFinish cursor
  return { firstChild, body, count }

/-- The separators with the child on their right. -/
def BorrowedInternal.entries (internal : BorrowedInternal) : TreeM (List (Bytes × PageId)) := do
  let (separators, _) ← decodeSeparators internal.count internal.body
  return separators

/-- Every separator must lie strictly inside the inherited interval. -/
def validateEnvelope (separators : List (Bytes × PageId)) (inheritedLower inheritedUpper : Option Bytes) : TreeM Unit :=
  separators.forM fun separator =>
    .failIf ((∃ lower ∈ inheritedLower, separator.1 ≤ lower) ∨ ∃ upper ∈ inheritedUpper, upper ≤ separator.1)
      .invalidSeparator

def tighterLower : Option Bytes → Option Bytes → Option Bytes
  | some inherited, some child => some (max inherited child)
  | some inherited, none => some inherited
  | none, some child => some child
  | none, none => none

def tighterUpper : Option Bytes → Option Bytes → Option Bytes
  | some inherited, some child => some (min inherited child)
  | some inherited, none => some inherited
  | none, some child => some child
  | none, none => none

/-- The children right of the separators, each with the interval left for it. -/
def separatedRanges (expectedMinimum expectedUpper : Option Bytes) : List (Bytes × PageId) → List ChildRange
  | [] => []
  | (minimum, child) :: rest =>
    { page := child
      lower := tighterLower expectedMinimum (some minimum)
      upper := tighterUpper expectedUpper (rest.head?.map Prod.fst) } ::
      separatedRanges expectedMinimum expectedUpper rest

/-- All children of an internal node, each with the interval left for it. -/
def borrowedRanges (expectedMinimum expectedUpper : Option Bytes) (firstChild : PageId)
    (separators : List (Bytes × PageId)) : List ChildRange :=
  { page := firstChild
    lower := expectedMinimum
    upper := tighterUpper expectedUpper (separators.head?.map Prod.fst) } ::
    separatedRanges expectedMinimum expectedUpper separators

/-! ## The visitor -/

/-- What the two closures have done so far: the entries and bytes handed over, and their own state. -/
structure Progress (σ : Type) where
  entries : Nat
  bytes : Nat
  user : σ

/-- The mutable part of the visitor. -/
structure VisitState (σ : Type) extends Progress σ where
  visited : Finset PageId
  leafDepth : Option Nat

/-- The fixed part of the visitor: the range, the limits and the closures, which may share state. -/
structure BorrowedRangeVisitor (σ : Type) where
  store : PageStore
  lower : Bound
  upper : Bound
  limits : BorrowedVisitLimits
  control : σ → ControlFlow Unit × σ
  visitor : KeyValue → σ → ControlFlow Unit × σ

namespace BorrowedRangeVisitor

variable {σ : Type} (v : BorrowedRangeVisitor σ)

abbrev Visit (σ : Type) := EStateM BorrowedVisitError (VisitState σ)

/-- Raise an error of the tree. -/
def ofTree {α : Type} (x : TreeM α) : Visit σ α := EStateM.ofExcept (x.mapError .tree)

/-- Ask the control; a break cancels the visit. -/
def callControl : Visit σ Unit := fun s =>
  match v.control s.user with
  | (.brk (), user) => .error .cancelled { s with user }
  | (.cont, user) => .ok () { s with user }

/-- The progress with one more entry, if the limits admit it. -/
def admits (progress : Progress σ) (entry : KeyValue) : Option (Progress σ) := do
  let entries ← checkedAdd progress.entries 1
  let bytes ← checkedAdd progress.bytes (min (entry.1.length + entry.2.length) (2 ^ 64 - 1))
  if v.limits.maximumEntries < entries ∨ v.limits.maximumBytes < bytes then none
  else some { progress with entries, bytes }

/-- Hand one entry over. -/
def deliver (entry : KeyValue) : Visit σ (ControlFlow Unit) := fun s =>
  match v.admits s.toProgress entry with
  | none => .error .limitExceeded s
  | some progress =>
    match v.visitor entry progress.user with
    | (flow, user) => .ok flow { s with toProgress := { progress with user } }

/-- Go on with `rest` unless `first` breaks. -/
def unlessBreak (first rest : Visit σ (ControlFlow Unit)) : Visit σ (ControlFlow Unit) := do
  match ← first with
  | .brk () => return .brk ()
  | .cont => rest

def visitLeaf : List KeyValue → Visit σ (ControlFlow Unit)
  | [] => return .cont
  | entry :: entries =>
    if !keySatisfiesLower entry.1 v.lower || !keySatisfiesUpper entry.1 v.upper then visitLeaf entries
    else do
      v.callControl
      unlessBreak (v.deliver entry) (visitLeaf entries)

/-- All leaves must lie at one depth. -/
def enterLeaf (depth : Nat) : Visit σ Unit := fun s =>
  if ∃ found ∈ s.leafDepth, found ≠ depth then .error (.tree .unbalanced) { s with leafDepth := some depth }
  else .ok () { s with leafDepth := some depth }

def enterPage (page : PageId) : Visit σ Unit := fun s =>
  if page ∈ s.visited then .error (.tree .cycle) s else .ok () { s with visited := insert page s.visited }

/-- Visit the children that can meet the range, up to the first break. -/
def visitChildren (visitNode : ChildRange → Visit σ (ControlFlow Unit)) : List ChildRange → Visit σ (ControlFlow Unit)
  | [] => return .cont
  | child :: children =>
    if rangeIntersects child.lower child.upper v.lower v.upper then
      unlessBreak (visitNode child) (visitChildren visitNode children)
    else visitChildren visitNode children

/-- Visit one node, which its ancestors expect to start at `node.lower` and end before `node.upper`. -/
def visitNode : (levels : Nat) → (node : ChildRange) → Visit σ (ControlFlow Unit)
  | 0, _ => do
    v.callControl
    throw (.tree .heightExceeded)
  | levels + 1, node => do
    v.callControl
    enterPage node.page
    let page ← ofTree (readPage v.store node.page)
    match page.kind with
    | .bTreeLeaf =>
      let leaf ← ofTree (BorrowedLeaf.decode page.payload)
      ofTree (.failIf ((∃ minimum ∈ node.lower, leaf.minimum ≠ minimum) ∨ ∃ upper ∈ node.upper, upper ≤ leaf.maximum)
        .invalidSeparator)
      enterLeaf (maxTreeHeight - (levels + 1))
      v.visitLeaf leaf.entries
    | .bTreeInternal =>
      let internal ← ofTree (BorrowedInternal.decode page.payload)
      let separators ← ofTree internal.entries
      ofTree (validateEnvelope separators node.lower node.upper)
      v.visitChildren (visitNode levels) (borrowedRanges node.lower node.upper internal.firstChild separators)
    | _ => throw (.tree .wrongPageKind)

end BorrowedRangeVisitor

/-- Visit one bounded key range with borrowed keys and values. -/
def visitRangeBorrowedWithControl {σ : Type} (tree : BTree) (store : PageStore) (lower upper : Bound)
    (limits : BorrowedVisitLimits) (control : σ → ControlFlow Unit × σ)
    (visitor : KeyValue → σ → ControlFlow Unit × σ) : EStateM BorrowedVisitError σ BorrowedVisitStats := fun user =>
  if rangeIsEmpty lower upper then .ok ⟨0, 0, true⟩ user
  else
    match tree.root with
    | none => .ok ⟨0, 0, true⟩ user
    | some root =>
      let v : BorrowedRangeVisitor σ := { store, lower, upper, limits, control, visitor }
      let start : VisitState σ := { entries := 0, bytes := 0, user, visited := ∅, leafDepth := none }
      match v.visitNode maxTreeHeight ⟨root, none, none⟩ start with
      | .ok flow s => .ok ⟨s.entries, s.bytes, flow = .cont⟩ s.user
      | .error e s => .error e s.user

/-! ## What a visit hands over -/

/-- How a visit of a valid range can end. -/
inductive Ending
  | exhausted
  | stopped
  | cancelled
  | refused (entry : KeyValue)

/-- The entry a visit was about to hand over when a limit stopped it. -/
def Ending.pending : Ending → List KeyValue
  | .refused entry => [entry]
  | _ => []

namespace BorrowedRangeVisitor

variable {σ : Type} {v : BorrowedRangeVisitor σ}

variable {s : VisitState σ} {frame frame' : VisitState σ → Prop} {wanted : List KeyValue}

/-- The calls of the two closures during a visit that hands over the listed entries. -/
inductive Served (v : BorrowedRangeVisitor σ) : Progress σ → List KeyValue → Ending → Progress σ → Prop
  | exhausted (p : Progress σ) : Served v p [] .exhausted p
  | control {p p' : Progress σ} {items : List KeyValue} {ending : Ending} {user : σ}
      (hcontrol : v.control p.user = (.cont, user)) (hrest : Served v { p with user } items ending p') :
      Served v p items ending p'
  | cancelled {p : Progress σ} {user : σ} (hcontrol : v.control p.user = (.brk (), user)) :
      Served v p [] .cancelled { p with user }
  | refused {p : Progress σ} {entry : KeyValue} (hadmits : v.admits p entry = none) : Served v p [] (.refused entry) p
  | stopped {p q : Progress σ} {entry : KeyValue} {user : σ} (hadmits : v.admits p entry = some q)
      (hcall : v.visitor entry q.user = (.brk (), user)) : Served v p [entry] .stopped { q with user }
  | delivered {p q p' : Progress σ} {entry : KeyValue} {items : List KeyValue} {ending : Ending} {user : σ}
      (hadmits : v.admits p entry = some q) (hcall : v.visitor entry q.user = (.cont, user))
      (hrest : Served v { q with user } items ending p') : Served v p (entry :: items) ending p'

theorem Served.append {p q r : Progress σ} {xs ys : List KeyValue} {ending : Ending}
    (hxs : Served v p xs .exhausted q) (hys : Served v q ys ending r) : Served v p (xs ++ ys) ending r := by
  generalize hend : Ending.exhausted = first at hxs
  induction hxs with
  | exhausted p => exact hys
  | control hcontrol _ ih => exact .control hcontrol (ih hys hend)
  | cancelled | refused | stopped => cases hend
  | delivered hadmits hcall _ ih => exact .delivered hadmits hcall (ih hys hend)

/-- The result an ending stands for. -/
def Ending.result (s : VisitState σ) : Ending → EStateM.Result BorrowedVisitError (VisitState σ) (ControlFlow Unit)
  | .exhausted => .ok .cont s
  | .stopped => .ok (.brk ()) s
  | .cancelled => .error .cancelled s
  | .refused _ => .error .limitExceeded s

/-- A visit over entries of which `wanted` are to be handed over, seen from the store side: `frame` is what it
does to the visited pages and to the leaf depth. -/
def Serves (v : BorrowedRangeVisitor σ) (wanted : List KeyValue) (s : VisitState σ)
    (frame : VisitState σ → Prop) (result : EStateM.Result BorrowedVisitError (VisitState σ) (ControlFlow Unit)) :
      Prop :=
  ∃ delivered ending s', result = Ending.result s' ending ∧ Served v s.toProgress delivered ending s'.toProgress ∧
    delivered ++ ending.pending <+: wanted ∧ (ending = .exhausted → delivered = wanted) ∧ frame s'

theorem Serves.weaken {result : EStateM.Result BorrowedVisitError (VisitState σ) (ControlFlow Unit)}
    (h : Serves v wanted s frame result) (hframe : ∀ s', frame s' → frame' s') : Serves v wanted s frame' result := by
  obtain ⟨delivered, ending, s', hresult, hserved, hpre, hall, hs'⟩ := h
  exact ⟨delivered, ending, s', hresult, hserved, hpre, hall, hframe s' hs'⟩

theorem serves_nil (hframe : frame s) : Serves v [] s frame (.ok .cont s) :=
  ⟨[], .exhausted, s, rfl, .exhausted _, prefix_rfl, fun _ => rfl, hframe⟩

/-- Asking the control first changes nothing but the closures' own state. -/
theorem serves_control {x : Visit σ (ControlFlow Unit)} (hframe : ∀ user, frame { s with user })
    (h : ∀ user, Serves v wanted { s with user } frame (x { s with user })) :
    Serves v wanted s frame ((do v.callControl; x) s) := by
  have hbind : (do v.callControl; x : Visit σ (ControlFlow Unit)) s =
      match v.control s.user with
      | (.brk (), user) => .error .cancelled { s with user }
      | (.cont, user) => x { s with user } := by
    rw [bind_apply, callControl]
    rcases v.control s.user with ⟨_ | _, user⟩ <;> rfl
  rw [hbind]
  rcases hcontrol : v.control s.user with ⟨_ | ⟨⟨⟩⟩, user⟩
  · obtain ⟨delivered, ending, s', hresult, hserved, hrest⟩ := h user
    exact ⟨delivered, ending, s', hresult, .control hcontrol hserved, hrest⟩
  · exact ⟨[], .cancelled, { s with user }, rfl, .cancelled hcontrol, nil_prefix, by simp, hframe user⟩

/-- Visiting two stretches of entries, the second only if the first is exhausted. -/
theorem serves_append {xs ys : List KeyValue} {x y : Visit σ (ControlFlow Unit)} (hframe : ∀ s', frame s' → frame' s')
    (hx : Serves v xs s frame (x s)) (hy : ∀ s', frame s' → Serves v ys s' frame' (y s')) :
    Serves v (xs ++ ys) s frame' (unlessBreak x y s) := by
  obtain ⟨delivered, ending, s₁, hresult, hserved, hpre, hall, hs₁⟩ := hx
  rw [unlessBreak, bind_apply, hresult]
  have hkeep : delivered ++ ending.pending <+: xs ++ ys := hpre.trans (prefix_append xs ys)
  cases ending with
  | exhausted =>
    obtain ⟨delivered', ending', s₂, hresult', hserved', hpre', hall', hs₂⟩ := hy s₁ hs₁
    rw [hall rfl] at hserved
    refine ⟨xs ++ delivered', ending', s₂, hresult', hserved.append hserved', ?_, fun h => by rw [hall' h], hs₂⟩
    rw [append_assoc]
    exact (prefix_append_right_inj xs).mpr hpre'
  | stopped | cancelled | refused entry => exact ⟨delivered, _, s₁, rfl, hserved, hkeep, by simp, hframe s₁ hs₁⟩

/-- The part of the state only the traversal changes. -/
def SameFrame (s s' : VisitState σ) : Prop := s'.visited = s.visited ∧ s'.leafDepth = s.leafDepth

theorem visitLeaf_serves (es : List KeyValue) (s : VisitState σ) :
    Serves v (es.filter fun e => inBounds v.lower v.upper e.1) s (SameFrame s) (v.visitLeaf es s) := by
  induction es generalizing s with
  | nil => exact serves_nil ⟨rfl, rfl⟩
  | cons e es ih =>
    unfold visitLeaf
    have hskip : (!keySatisfiesLower e.1 v.lower || !keySatisfiesUpper e.1 v.upper) =
      !inBounds v.lower v.upper e.1 := by
      rw [inBounds, Bool.not_and]
    rw [hskip]
    by_cases hin : inBounds v.lower v.upper e.1
    · have hfilter : (e :: es).filter (fun e => inBounds v.lower v.upper e.1) =
          [e] ++ es.filter fun e => inBounds v.lower v.upper e.1 := filter_cons_of_pos hin
      simp only [hin, Bool.not_true, Bool.false_eq_true, if_false]
      rw [hfilter]
      refine serves_control (fun user => ⟨rfl, rfl⟩) fun user => ?_
      refine serves_append (fun _ (h : SameFrame s _) => h) ?_ fun s' hs' => ?_
      · unfold deliver
        cases hadmits : v.admits { s.toProgress with user } e with
        | none => exact ⟨[], .refused e, _, rfl, .refused hadmits, by simp [Ending.pending], by simp, rfl, rfl⟩
        | some q =>
          rcases hcall : v.visitor e q.user with ⟨_ | ⟨⟨⟩⟩, user'⟩
          · refine ⟨[e], .exhausted, { s with toProgress := { q with user := user' } }, ?_, ?_⟩
            · simp only [hcall]
              rfl
            · exact ⟨.delivered hadmits hcall (.exhausted _), by simp [Ending.pending], fun _ => rfl, rfl, rfl⟩
          · refine ⟨[e], .stopped, { s with toProgress := { q with user := user' } }, ?_, ?_⟩
            · simp only [hcall]
              rfl
            · exact ⟨.stopped hadmits hcall, by simp [Ending.pending], by simp, rfl, rfl⟩
      · exact (ih s').weaken fun s'' h => ⟨h.1.trans hs'.1, h.2.trans hs'.2⟩
    · have hfilter : (e :: es).filter (fun e => inBounds v.lower v.upper e.1) =
          es.filter fun e => inBounds v.lower v.upper e.1 := filter_cons_of_neg hin
      simp only [hin, Bool.not_false, if_true]
      rw [hfilter]
      exact ih s

end BorrowedRangeVisitor

/-! ## Internal nodes of a valid tree -/

theorem verifySeparators_eq {ss : List (Bytes × PageId)} (hrun : KeyRun previous ss) :
    verifySeparators ss.length previous (ss.flatMap separatorBytes) = .ok [] := by
  induction ss generalizing previous with
  | nil => rfl
  | cons s ss ih =>
    obtain ⟨hkey, hstep, hrun'⟩ := keyRun_cons.mp hrun
    have hk : s.1.length < 2 ^ 32 := (not_lt.mp hkey).trans_lt (by decide)
    rw [length_cons, verifySeparators, separators_cons]
    simp only [cursorLength_append hk, cursorTake_append, ok_bind, failIf_of_not hkey,
      failIf_of_not hstep, cursorU64_append, NonZeroUInt.new_get, okOr, ih hrun']

theorem borrowedInternal_decode (h : InternalPayload payload first separators) :
    ∃ internal, BorrowedInternal.decode payload = .ok internal ∧ internal.firstChild = first ∧
      internal.entries = .ok separators := by
  have hverify := verifySeparators_eq h.run
  have hdecode : decodeSeparators separators.length (separators.flatMap separatorBytes) = .ok (separators, []) := by
    refine decodeSeparators_eq_ok.mpr ⟨rfl, fun s hs => (h.keys s hs).trans_lt (by decide), ?_⟩
    rw [append_nil]
  refine ⟨⟨first, separators.flatMap separatorBytes, separators.length⟩, ?_, rfl, ?_⟩
  · simp only [BorrowedInternal.decode, h.count, ok_bind, failIf_of_not h.countFits, h.firstChild,
      okOr, h.body, hverify, cursorFinish_nil]
    rfl
  · simp [BorrowedInternal.entries, hdecode]

/-- The bytes the verification loop accepts are separators in ascending order. -/
theorem verifySeparators_accepts {count : Nat} {cursor rest : Bytes}
    (h : verifySeparators count previous cursor = .ok rest) :
    ∃ ss : List (Bytes × PageId), ss.length = count ∧ cursor = ss.flatMap separatorBytes ++ rest ∧
      KeyRun previous ss := by
  induction count generalizing previous cursor with
  | zero =>
    simp only [verifySeparators, pure_eq_ok, Except.ok.injEq] at h
    exact ⟨[], rfl, h, keyRun_nil _⟩
  | succ count ih =>
    simp only [verifySeparators, Except.bind_eq_ok, Prod.exists, cursorLength_eq_ok, cursorTake_eq_ok, cursorU64_eq_ok,
      failIf_eq_ok, okOr_eq_ok, NonZeroUInt.new_eq_some] at h
    obtain ⟨_, _, ⟨hk, rfl⟩, key, _, ⟨rfl, rfl⟩, -, hkey, -, hstep, _, _, ⟨-, rfl⟩, child, rfl, h⟩ := h
    obtain ⟨ss, rfl, rfl, hrun⟩ := ih h
    exact ⟨(key, child) :: ss, rfl, by simp [separatorBytes], keyRun_cons.mpr ⟨hkey, hstep, hrun⟩⟩

theorem internalPayload_of_borrowedInternal {internal : BorrowedInternal}
    (h : BorrowedInternal.decode payload = .ok internal) :
    ∃ first separators, InternalPayload payload first separators := by
  simp only [BorrowedInternal.decode, Except.bind_eq_ok, failIf_eq_ok, okOr_eq_ok, cursorFinish, not_not] at h
  obtain ⟨count, hcount, -, hfits, first, hfirst, cursor, hverify, -, rfl, -⟩ := h
  obtain ⟨separators, rfl, hbody, hrun⟩ := verifySeparators_accepts hverify
  rw [append_nil] at hbody
  exact ⟨first, separators, hcount, hfits, hfirst, hbody, hrun.keys, hrun.ascending⟩

/-- The interval its ancestors leave for a subtree: it starts at the least key, if it is known. -/
structure Envelope (node : ChildRange) (sub : Subtree) : Prop extends Encloses node sub where
  minimum : ∀ bound ∈ node.lower, sub.minimum = bound

theorem mem_tighterUpper {inherited child : Option Bytes} (h : ∀ bound ∈ inherited, key < bound)
    (h' : ∀ bound ∈ child, key < bound) : ∀ bound ∈ tighterUpper inherited child, key < bound := by
  intro bound hbound
  cases inherited <;> cases child <;> simp_all [tighterUpper]
  subst hbound
  exact lt_min h h'

theorem tighterLower_eq {inherited : Option Bytes} (h : ∀ bound ∈ inherited, bound ≤ key) :
    tighterLower inherited (some key) = some key := by
  cases inherited with
  | none => rfl
  | some bound => simp [tighterLower, h bound rfl]

/-- The keys of a child lie below the end of the interval left for it. -/
theorem lt_tighterUpper {sub : Subtree} {expectedUpper : Option Bytes} (hne : ∀ s ∈ subs, s.entries ≠ [])
    (hasc : KeyAscending ((sub :: subs).flatMap entries))
    (hhigh : ∀ bound ∈ expectedUpper, ∀ e ∈ (sub :: subs).flatMap entries, e.1 < bound) :
    ∀ bound ∈ tighterUpper expectedUpper ((subs.map fun sub => (sub.minimum, sub.page)).head?.map Prod.fst),
      ∀ e ∈ sub.entries, e.1 < bound := by
  intro bound hbound e he
  have hhead : (subs.map fun sub => (sub.minimum, sub.page)).head?.map Prod.fst = subs.head?.map Subtree.minimum := by
    cases subs <;> rfl
  rw [hhead] at hbound
  exact mem_tighterUpper (fun b hb => hhigh b hb e (by simp [he])) (lt_next_minimum hne hasc he) bound hbound

theorem envelope_separatedRanges {expectedMinimum expectedUpper : Option Bytes} (hne : ∀ sub ∈ subs, sub.entries ≠ [])
    (hasc : KeyAscending (subs.flatMap entries))
    (hlow : ∀ bound ∈ expectedMinimum, ∀ sub ∈ subs, bound ≤ sub.minimum)
    (hhigh : ∀ bound ∈ expectedUpper, ∀ e ∈ subs.flatMap entries, e.1 < bound) :
    List.Forall₂ Envelope
      (separatedRanges expectedMinimum expectedUpper (subs.map fun sub => (sub.minimum, sub.page))) subs := by
  induction subs with
  | nil => exact .nil
  | cons sub subs ih =>
    have hnes : ∀ s ∈ subs, s.entries ≠ [] := fun s hs => hne s (mem_cons_of_mem _ hs)
    obtain ⟨hsub, hascs, -⟩ := keyAscending_append.mp (flatMap_cons ▸ hasc)
    have htighter := tighterLower_eq fun bound hbound => hlow bound hbound sub mem_cons_self
    refine .cons ⟨⟨rfl, ?_, lt_tighterUpper hnes hasc hhigh⟩, ?_⟩ (ih hnes hascs ?_ ?_)
    · intro bound hbound
      rw [htighter] at hbound
      cases hbound
      exact minimum_le hsub
    · intro bound hbound
      rw [htighter] at hbound
      cases hbound
      rfl
    · exact fun bound hbound s hs => hlow bound hbound s (mem_cons_of_mem _ hs)
    · exact fun bound hbound e he => hhigh bound hbound e (by rw [flatMap_cons]; exact mem_append_right _ he)

section Children

variable {t first : Subtree} (henvelope : Envelope node t) (hne : ∀ sub ∈ first :: rest, sub.entries ≠ [])
  (hasc : KeyAscending ((first :: rest).flatMap entries)) (hentries : t.entries = (first :: rest).flatMap entries)
include henvelope hne hasc hentries

/-- The intervals left for the children of a node that fills its own. -/
theorem envelope_borrowedRanges :
    List.Forall₂ Envelope
      (borrowedRanges node.lower node.upper first.page (rest.map fun sub => (sub.minimum, sub.page)))
        (first :: rest) := by
  have hmin : t.minimum = first.minimum := minimum_of_subs hne hentries rfl
  have hupper : ∀ bound ∈ node.upper, ∀ e ∈ (first :: rest).flatMap entries, e.1 < bound := by
    rw [← hentries]
    exact henvelope.upper
  have hrest := fun sub hsub => hne sub (mem_cons_of_mem first hsub)
  refine .cons ⟨⟨rfl, ?_, lt_tighterUpper hrest hasc hupper⟩, ?_⟩
    (envelope_separatedRanges hrest (keyAscending_append.mp (flatMap_cons ▸ hasc)).2.1 ?_ ?_)
  · intro bound hbound e he
    exact henvelope.lower bound hbound e (by rw [hentries]; simp [he])
  · exact fun bound hbound => hmin ▸ henvelope.minimum bound hbound
  · intro bound hbound sub hsub
    obtain ⟨e, he, hkey⟩ := exists_minimum (hrest sub hsub)
    rw [← hkey]
    refine henvelope.lower bound hbound e ?_
    rw [hentries]
    exact mem_flatMap.mpr ⟨sub, mem_cons_of_mem _ hsub, he⟩
  · exact fun bound hbound e he => hupper bound hbound e (by rw [flatMap_cons]; exact mem_append_right _ he)

/-- Separators of a node lie strictly inside the interval left for the node. -/
theorem validateEnvelope_eq_ok :
    validateEnvelope (rest.map fun sub => (sub.minimum, sub.page)) node.lower node.upper = .ok () := by
  unfold validateEnvelope
  rw [forM_eq_ok]
  intro separator hmem
  obtain ⟨sub, hsub, rfl⟩ := mem_map.mp hmem
  obtain ⟨e, he, hkey⟩ := exists_minimum (hne sub (mem_cons_of_mem _ hsub))
  obtain ⟨e₀, he₀, hkey₀⟩ := exists_minimum (hne first mem_cons_self)
  have hmem : e ∈ rest.flatMap entries := mem_flatMap.mpr ⟨sub, hsub, he⟩
  rw [failIf_eq_ok]
  rintro (⟨lower, hlower, hle⟩ | ⟨upper, hupper, hle⟩)
  · have hlt : first.minimum < sub.minimum := by
      rw [← hkey, ← hkey₀]
      exact (keyAscending_append.mp (flatMap_cons ▸ hasc)).2.2 e₀ he₀ e hmem
    have hmin : t.minimum = first.minimum := minimum_of_subs hne hentries rfl
    rw [← henvelope.minimum lower hlower, hmin] at hle
    exact absurd hlt hle.not_gt
  · have hlt := henvelope.upper upper hupper e (by rw [hentries, flatMap_cons]; exact mem_append_right _ hmem)
    rw [hkey] at hlt
    exact absurd hlt hle.not_gt

end Children

theorem separators_of_subs (hkeys : subs.tail.map Subtree.minimum = separators.map Prod.fst)
    (hchildren : subs.map Subtree.page = first :: separators.map Prod.snd) :
    ∃ sub rest, subs = sub :: rest ∧ sub.page = first ∧ separators = rest.map fun sub => (sub.minimum, sub.page) := by
  cases subs with
  | nil => cases hchildren
  | cons sub rest =>
    simp only [List.map_cons, List.cons.injEq] at hchildren
    simp only [tail_cons] at hkeys
    refine ⟨sub, rest, rfl, hchildren.1, ?_⟩
    have hzip : separators = (separators.map Prod.fst).zip (separators.map Prod.snd) := by simp [zip_map']
    rw [hzip, ← hkeys, ← hchildren.2, zip_map']

namespace BorrowedRangeVisitor

variable {σ : Type} {v : BorrowedRangeVisitor σ}

variable {p p' : Progress σ} {items : List KeyValue} {depth : Nat}

/-- What a visit of a subtree may leave behind: only its own pages visited, and its leaves at depth `depth`. -/
structure Framed (visited : Finset PageId) (depth : Nat) (s : VisitState σ) : Prop where
  visited : s.visited ⊆ visited
  leafDepth : ∀ found ∈ s.leafDepth, found = depth

theorem visitChildren_serves {visitNode : ChildRange → Visit σ (ControlFlow Unit)} {nodes : List ChildRange}
    {subs : List Subtree} (hnodes : List.Forall₂ Envelope nodes subs) (hnodup : (subs.flatMap pages).Nodup)
    (hvisit : ∀ sub ∈ subs, ∀ node s, Envelope node sub → (∀ p ∈ sub.pages, p ∉ s.visited) →
      (∀ found ∈ s.leafDepth, found = depth) →
      Serves v (sub.entries.filter fun e => inBounds v.lower v.upper e.1) s
        (Framed (s.visited ∪ sub.pages.toFinset) depth) (visitNode node s))
    (s : VisitState σ) (hnew : ∀ p ∈ subs.flatMap pages, p ∉ s.visited)
    (hdepth : ∀ found ∈ s.leafDepth, found = depth) :
    Serves v ((subs.flatMap entries).filter fun e => inBounds v.lower v.upper e.1) s
      (Framed (s.visited ∪ (subs.flatMap pages).toFinset) depth) (v.visitChildren visitNode nodes s) := by
  induction hnodes generalizing s with
  | nil => exact serves_nil ⟨by simp, hdepth⟩
  | @cons node sub nodes subs hnode hrest ih =>
    simp only [flatMap_cons, nodup_append'] at hnodup
    obtain ⟨-, hnodups, hdisjoint⟩ := hnodup
    simp only [flatMap_cons, mem_append] at hnew
    have hvisits := fun s' hs' => hvisit s' (mem_cons_of_mem _ hs')
    unfold visitChildren
    rw [flatMap_cons, filter_append, flatMap_cons, toFinset_append, ← union_assoc]
    by_cases hmeets : rangeIntersects node.lower node.upper v.lower v.upper
    · rw [if_pos hmeets]
      have hsub := hvisit sub mem_cons_self node s hnode (fun p hp => hnew p (.inl hp)) hdepth
      refine serves_append (fun s' hs' => ⟨hs'.visited.trans subset_union_left, hs'.leafDepth⟩) hsub
        fun s' hs' => ?_
      have hnew' : ∀ p ∈ subs.flatMap pages, p ∉ s'.visited := by
        intro p hp hmem
        rcases mem_union.mp (hs'.visited hmem) with hmem | hmem
        · exact hnew p (.inr hp) hmem
        · exact hdisjoint (mem_toFinset.mp hmem) hp
      refine (ih hnodups hvisits s' hnew' hs'.leafDepth).weaken fun s'' hs'' => ⟨hs''.visited.trans ?_, hs''.leafDepth⟩
      exact union_subset_union_left hs'.visited
    · -- a child that cannot meet the range has nothing to hand over
      have hnone : ∀ e ∈ sub.entries, ¬inBounds v.lower v.upper e.1 := fun e he hin =>
        hmeets (childIntersectsBounds_of_inBounds (fun b hb => hnode.lower b hb e he)
          (fun b hb => hnode.upper b hb e he) hin)
      rw [if_neg hmeets, filter_eq_nil_iff.mpr hnone, nil_append]
      refine (ih hnodups hvisits s (fun p hp => hnew p (.inr hp)) hdepth).weaken fun s' hs' =>
        ⟨hs'.visited.trans ?_, hs'.leafDepth⟩
      exact union_subset_union_left subset_union_left

theorem ofTree_apply {α : Type} {x : TreeM α} {a : α} (h : x = .ok a) (s : VisitState σ) :
    (ofTree x : Visit σ α) s = .ok a s := by
  rw [h]
  rfl

theorem enterPage_apply {page : PageId} {s : VisitState σ} (h : page ∉ s.visited) :
    (enterPage page : Visit σ Unit) s = .ok () { s with visited := insert page s.visited } := by
  simp [enterPage, h]

theorem enterLeaf_apply {s : VisitState σ} (h : ∀ found ∈ s.leafDepth, found = depth) :
    (enterLeaf depth : Visit σ Unit) s = .ok () { s with leafDepth := some depth } := by
  have hnot : ¬∃ found ∈ s.leafDepth, found ≠ depth := by
    rintro ⟨found, hfound, hne⟩
    exact hne (h found hfound)
  rw [enterLeaf, if_neg hnot]

/-- A visit of a sound subtree in the interval left for it. -/
theorem visitNode_serves {h levels : Nat} {t : Subtree} (ht : Sound v.store h t) (henvelope : Envelope node t)
    (hlevels : h < levels) (s : VisitState σ) (hnew : ∀ p ∈ t.pages, p ∉ s.visited)
    (hdepth : ∀ found ∈ s.leafDepth, found = maxTreeHeight - (levels - h)) :
    Serves v (t.entries.filter fun e => inBounds v.lower v.upper e.1) s
      (Framed (s.visited ∪ t.pages.toFinset) (maxTreeHeight - (levels - h))) (v.visitNode levels node s) := by
  induction ht, hlevels using Sound.climb generalizing node s with
  | leaf levels t ht =>
    obtain ⟨hread, hpages⟩ := ht.holds
    obtain ⟨page, hpage, hdecode⟩ := bind_eq_ok.mp hread
    obtain ⟨hkind, hpayload⟩ := leafPayload_of_decodePage hdecode
    obtain ⟨leaf, hleaf, hentries, -, hmin, hmax⟩ := borrowedLeaf_decode hpayload
    have hnot : node.page ∉ s.visited := henvelope.page ▸ hnew _ (by simp [hpages])
    have hminimum : leaf.minimum = t.minimum := by simp [Subtree.minimum, hmin]
    have hmaximum : leaf.maximum = t.maximum := by simp [Subtree.maximum, hmax]
    -- the leaf lies in the envelope its parent gave, so its check passes
    have hcheck : ¬((∃ minimum ∈ node.lower, leaf.minimum ≠ minimum) ∨ ∃ upper ∈ node.upper, upper ≤ leaf.maximum) := by
      rintro (⟨minimum, hmem, hne⟩ | ⟨upper, hmem, hle⟩)
      · exact hne (hminimum.trans (henvelope.minimum minimum hmem))
      · obtain ⟨e, he, hkey⟩ := exists_maximum ht.holds.entries_ne_nil
        have hlt := henvelope.upper upper hmem e he
        rw [hkey, ← hmaximum] at hlt
        exact absurd hlt hle.not_gt
    refine serves_control (fun user => ⟨subset_union_left, hdepth⟩) fun user => ?_
    have hsame : SameFrame s { s with user } := ⟨rfl, rfl⟩
    generalize ({ s with user } : VisitState σ) = s₁ at hsame ⊢
    rw [← hsame.1] at hnot
    rw [← hsame.2] at hdepth
    have hentered := enterLeaf_apply (s := { s₁ with visited := insert node.page s₁.visited }) hdepth
    rw [Nat.sub_zero] at hentered
    simp only [bind_apply, enterPage_apply hnot, henvelope.page ▸ ofTree_apply hpage, hkind, ofTree_apply hleaf,
      ofTree_apply (failIf_of_not hcheck), hentries, hentered]
    have hserves := visitLeaf_serves (v := v) t.entries
      { s₁ with visited := insert node.page s₁.visited, leafDepth := some (maxTreeHeight - (levels + 1)) }
    refine Serves.weaken hserves fun s' hs' => ⟨?_, ?_⟩
    · rw [hs'.1, hpages, hsame.1, henvelope.page]
      intro p hp
      simpa [or_comm] using hp
    · rw [hs'.2]
      simp
  | node h levels t ht hlt ih =>
    obtain ⟨subs, hread, hsound, hne, hentries, hasc, hpages, hroot, hnodup⟩ := ht.opens
    obtain ⟨page, hpage, hdecode⟩ := bind_eq_ok.mp hread
    obtain ⟨hkind, first, separators, hpayload, hkeys, hchildren⟩ := internalPayload_of_decodePage hdecode
    obtain ⟨internal, hinternal, hfirst, hseparators⟩ := borrowedInternal_decode hpayload
    obtain ⟨sub, rest, rfl, rfl, rfl⟩ := separators_of_subs hkeys hchildren
    have hnot : node.page ∉ s.visited := henvelope.page ▸ hnew _ (by simp [hpages])
    have hbelow := new_below hpages hroot hnew
    rw [Nat.add_sub_add_right] at hdepth ⊢
    refine serves_control (fun user => ⟨subset_union_left, hdepth⟩) fun user => ?_
    have hsame : SameFrame s { s with user } := ⟨rfl, rfl⟩
    generalize ({ s with user } : VisitState σ) = s₁ at hsame ⊢
    rw [← hsame.1] at hnot
    rw [← hsame.1, ← henvelope.page] at hbelow
    rw [← hsame.2] at hdepth
    simp only [bind_apply, enterPage_apply hnot, henvelope.page ▸ ofTree_apply hpage, hkind,
      ofTree_apply hinternal, ofTree_apply hseparators,
      ofTree_apply (validateEnvelope_eq_ok henvelope hne hasc hentries), hfirst]
    have hserves := visitChildren_serves (envelope_borrowedRanges henvelope hne hasc hentries) hnodup
      (fun sub hsub node s hnode hnew hdepth => ih (hsound sub hsub) hnode s hnew hdepth)
      { s₁ with visited := insert node.page s₁.visited } hbelow hdepth
    rw [hentries]
    refine Serves.weaken hserves fun s' hs' => ⟨hs'.visited.trans ?_, hs'.leafDepth⟩
    intro p hp
    simp only [mem_union, mem_insert, mem_toFinset, hpages, List.mem_cons, hsame.1, henvelope.page] at hp ⊢
    tauto

/-! ## The whole visit -/

/-- What the caller is told. -/
def Ending.report (p : Progress σ) : Ending → EStateM.Result BorrowedVisitError σ BorrowedVisitStats
  | .exhausted => .ok ⟨p.entries, p.bytes, true⟩ p.user
  | .stopped => .ok ⟨p.entries, p.bytes, false⟩ p.user
  | .cancelled => .error .cancelled p.user
  | .refused _ => .error .limitExceeded p.user

/-- Bytes a delivered entry counts for. -/
def deliveredBytes (items : List KeyValue) : Nat :=
  (items.map fun e => min (e.1.length + e.2.length) (2 ^ 64 - 1)).sum

theorem admits_eq_some {q : Progress σ} :
    v.admits p e = some q ↔ p.entries + 1 ≤ v.limits.maximumEntries ∧
      p.bytes + deliveredBytes [e] ≤ v.limits.maximumBytes ∧
        q = { p with entries := p.entries + 1, bytes := p.bytes + deliveredBytes [e] } := by
  have hentries := v.limits.entriesFit
  have hbytes := v.limits.bytesFit
  simp only [admits, deliveredBytes, List.map_cons, map_nil, List.sum_cons, sum_nil, Nat.add_zero,
    Option.bind_eq_bind, Option.bind_eq_some_iff, checkedAdd_eq_some]
  constructor
  · rintro ⟨_, ⟨-, rfl⟩, _, ⟨-, rfl⟩, hq⟩
    split at hq
    · cases hq
    · cases hq
      exact ⟨by omega, by omega, rfl⟩
  · rintro ⟨he, hb, rfl⟩
    refine ⟨_, ⟨by omega, rfl⟩, _, ⟨by omega, rfl⟩, ?_⟩
    rw [if_neg (by omega)]

/-- A limit ends a visit only when the entries handed over and the next one exceed it. -/
theorem Served.exceeds (h : Served v p items (.refused e) p') :
    v.limits.maximumEntries < p.entries + (items.length + 1) ∨
      v.limits.maximumBytes < p.bytes + (deliveredBytes items + deliveredBytes [e]) := by
  generalize hend : Ending.refused e = ending at h
  induction h with
  | exhausted | cancelled | stopped => cases hend
  | control _ _ ih => exact ih hend
  | @refused p entry hadmits =>
    cases hend
    have hnil : deliveredBytes [] = 0 := rfl
    by_contra hfits
    have hsome : v.admits p e = some { p with entries := p.entries + 1, bytes := p.bytes + deliveredBytes [e] } := by
      exact admits_eq_some.mpr ⟨by omega, by omega, rfl⟩
    rw [hadmits] at hsome
    cases hsome
  | @delivered p q p' entry items ending user hadmits _ _ ih =>
    obtain ⟨-, -, rfl⟩ := admits_eq_some.mp hadmits
    have hrest := ih hend
    simp only [deliveredBytes, length_cons, List.map_cons, List.sum_cons, map_nil, sum_nil] at hrest ⊢
    omega

theorem Served.not_cancelled (hcontrol : ∀ user, (v.control user).1 = .cont) : ¬Served v p items .cancelled p' := by
  intro h
  generalize hend : Ending.cancelled = ending at h
  induction h with
  | exhausted | refused | stopped => cases hend
  | control _ _ ih | delivered _ _ _ ih => exact ih hend
  | @cancelled p user hbreak =>
    have hcont := hcontrol p.user
    rw [hbreak] at hcont
    cases hcont

/-- The visitor gets a prefix of the entries in the range, in order, and all of them unless it
breaks, the control cancels, or a limit refuses the next one. -/
theorem visitRangeBorrowedWithControl_serves {tree : BTree} {map : OrderedMap Bytes Bytes}
    (htree : Represents v.store tree map) (user : σ) :
    ∃ delivered ending p, Served v ⟨0, 0, user⟩ delivered ending p ∧
      delivered ++ ending.pending <+: (map.entries.filter fun e => inBounds v.lower v.upper e.1) ∧
      (ending = .exhausted → delivered = map.entries.filter fun e => inBounds v.lower v.upper e.1) ∧
      visitRangeBorrowedWithControl tree v.store v.lower v.upper v.limits v.control v.visitor user =
        Ending.report p ending := by
  unfold visitRangeBorrowedWithControl
  by_cases hempty : rangeIsEmpty v.lower v.upper
  · have hnone : (map.entries.filter fun e => inBounds v.lower v.upper e.1) = [] :=
      filter_eq_nil_iff.mpr fun e _ => not_inBounds_of_rangeIsEmpty hempty e.1
    rw [hnone, if_pos hempty]
    exact ⟨[], .exhausted, _, .exhausted _, prefix_rfl, fun _ => rfl, rfl⟩
  · rw [if_neg hempty]
    obtain ⟨rfl, hnil⟩ | ⟨root, h, pages, rfl, ht⟩ := htree.cases
    · rw [hnil]
      exact ⟨[], .exhausted, _, .exhausted _, prefix_rfl, fun _ => rfl, rfl⟩
    · have henvelope : Envelope ⟨root, none, none⟩ ⟨root, map.entries, pages⟩ := ⟨⟨rfl, by simp, by simp⟩, by simp⟩
      obtain ⟨delivered, ending, s', hresult, hserved, hpre, hall, -⟩ := visitNode_serves ht henvelope ht.height_lt
        { entries := 0, bytes := 0, user, visited := ∅, leafDepth := none } (by simp) (by simp)
      refine ⟨delivered, ending, s'.toProgress, hserved, hpre, hall, ?_⟩
      simp only [ofRoot, hresult]
      cases ending <;> rfl

end BorrowedRangeVisitor

end Hyphae.BTree
