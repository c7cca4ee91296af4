import Hyphae.Governor.Model

/-!
# What the governor keeps

The counters are the sums of the permits that are out. A ticket waits in the queue of
its class, and nowhere else. Nobody takes resources while a ticket is selected but its
own waiter, so the selected request still fits; and whenever nothing is selected, the
last selection found nothing that fits.
-/

namespace Hyphae.Governor

open Lib List Option OrderedMap Except

open NestedPermit

variable {usage request : GovernorRequest} {workload : WorkloadClass} {ticket index : Nat}
  {after : NativeResourceGovernor} {allocation : Allocation} {record : QueuedRequest}

/-! ## Counters -/

theorem reserve_eq_some {value requested limit next : Nat} (hvalue : value ≤ limit) (hlimit : limit < 2 ^ 64) :
    reserve value requested limit = some next ↔ value + requested ≤ limit ∧ next = value + requested := by
  unfold reserve
  split
  · next hzero =>
    subst hzero
    simp only [some.injEq, Nat.add_zero, hvalue, true_and]
    exact eq_comm
  · simp only [bind_eq_some_iff, checkedAdd_eq_some, ite_none_left_eq_some, some.injEq]
    constructor
    · rintro ⟨_, ⟨-, rfl⟩, hle, rfl⟩
      exact ⟨by omega, rfl⟩
    · rintro ⟨hle, rfl⟩
      exact ⟨_, ⟨by omega, rfl⟩, by omega, rfl⟩

theorem release_of_le {value released : Nat} (h : released ≤ value) (hvalue : value < 2 ^ 64) :
    release value released = value - released := by
  unfold release
  split
  · exact wrappingSub_of_le h hvalue
  · omega

namespace GovernorRequest

variable {a b c : GovernorRequest}

theorem le_trans' (h : a ≤ b) (h' : b ≤ c) : a ≤ c :=
  ⟨h.1.trans h'.1, h.2.1.trans h'.2.1, h.2.2.trans h'.2.2⟩

theorem le_add_left' (a b : GovernorRequest) : a ≤ b + a :=
  ⟨Nat.le_add_left _ _, Nat.le_add_left _ _, Nat.le_add_left _ _⟩

theorem add_le_add_right' (h : a ≤ b) (c : GovernorRequest) : a + c ≤ b + c :=
  ⟨Nat.add_le_add_right h.1 _, Nat.add_le_add_right h.2.1 _, Nat.add_le_add_right h.2.2 _⟩

theorem Word.of_le (hb : b.Word) (h : a ≤ b) : a.Word :=
  ⟨h.1.trans_lt hb.1, h.2.1.trans_lt hb.2.1, h.2.2.trans_lt hb.2.2⟩

end GovernorRequest

open GovernorRequest

theorem reserveUsage_eq_some {limit next : GovernorRequest} (h : usage ≤ limit) (hlimit : limit.Word) :
    reserveUsage usage request limit = some next ↔ usage + request ≤ limit ∧ next = usage + request := by
  simp only [reserveUsage, bind_eq_bind, bind_eq_some_iff, reserve_eq_some h.1 hlimit.1,
    reserve_eq_some h.2.1 hlimit.2.1, reserve_eq_some h.2.2 hlimit.2.2, some.injEq]
  constructor
  · rintro ⟨_, ⟨hcompute, rfl⟩, _, ⟨hio, rfl⟩, _, ⟨hmemory, rfl⟩, rfl⟩
    exact ⟨⟨hcompute, hio, hmemory⟩, rfl⟩
  · rintro ⟨⟨hcompute, hio, hmemory⟩, rfl⟩
    exact ⟨_, ⟨hcompute, rfl⟩, _, ⟨hio, rfl⟩, _, ⟨hmemory, rfl⟩, rfl⟩

theorem usageFits_iff {limit : GovernorRequest} (hlimit : limit.Word) :
    usageFits usage request limit = true ↔ usage + request ≤ limit := by
  obtain ⟨hcompute, hio, hmemory⟩ := hlimit
  simp only [usageFits, Bool.and_eq_true, Option.any_eq_true, checkedAdd_eq_some, decide_eq_true_eq, le_def,
    add_computeThreads, add_ioSlots, add_memoryBytes]
  constructor
  · rintro ⟨⟨⟨_, ⟨-, rfl⟩, h₁⟩, ⟨_, ⟨-, rfl⟩, h₂⟩⟩, ⟨_, ⟨-, rfl⟩, h₃⟩⟩
    exact ⟨h₁, h₂, h₃⟩
  · rintro ⟨h₁, h₂, h₃⟩
    exact ⟨⟨⟨_, ⟨by omega, rfl⟩, h₁⟩, ⟨_, ⟨by omega, rfl⟩, h₂⟩⟩, ⟨_, ⟨by omega, rfl⟩, h₃⟩⟩

/-- What was added is taken away again. -/
theorem releaseUsage_add (h : (request + usage).Word) : releaseUsage (request + usage) request = usage := by
  obtain ⟨hcompute, hio, hmemory⟩ := h
  ext
  · exact (release_of_le (Nat.le_add_right _ _) hcompute).trans (Nat.add_sub_cancel_left ..)
  · exact (release_of_le (Nat.le_add_right _ _) hio).trans (Nat.add_sub_cancel_left ..)
  · exact (release_of_le (Nat.le_add_right _ _) hmemory).trans (Nat.add_sub_cancel_left ..)

/-! ## Sums over the permits -/

/-- The resources of the permits among those that are out. -/
def outstanding (among : Allocation → Bool) (permits : List Allocation) : GovernorRequest :=
  ((permits.filter among).map (·.request)).sum

/-- The permits of one class. -/
def ofClass (workload : WorkloadClass) (allocation : Allocation) : Bool := allocation.workload = workload

section Sums

variable {among : Allocation → Bool} {permits : List Allocation} {replacement : Allocation}

theorem outstanding_cons (allocation : Allocation) (permits : List Allocation) :
    outstanding among (allocation :: permits) =
      (if among allocation then allocation.request else 0) + outstanding among permits := by
  unfold outstanding
  cases hin : among allocation with
  | true => simp [hin]
  | false => simp [hin]

theorem outstanding_perm {permits' : List Allocation} (h : permits.Perm permits') :
    outstanding among permits = outstanding among permits' :=
  ((h.filter among).map _).sum_eq

/-- A permit, and the rest. -/
theorem outstanding_split (among : Allocation → Bool) (h : permits[index]? = some allocation) :
    outstanding among permits =
      (if among allocation then allocation.request else 0) + outstanding among (permits.eraseIdx index) := by
  obtain ⟨hlt, rfl⟩ := List.getElem?_eq_some_iff.mp h
  rw [← outstanding_cons, outstanding_perm (getElem_cons_eraseIdx_perm hlt)]

theorem outstanding_set (among : Allocation → Bool) (h : permits[index]? = some allocation) (replacement : Allocation) :
    outstanding among (permits.set index replacement) =
      (if among replacement then replacement.request else 0) + outstanding among (permits.eraseIdx index) := by
  obtain ⟨hlt, rfl⟩ := List.getElem?_eq_some_iff.mp h
  rw [← outstanding_cons, outstanding_perm (set_perm_cons_eraseIdx hlt replacement)]

/-- Nothing changes for the sums when the amount and the class stay. -/
theorem outstanding_set_of_eq (h : permits[index]? = some allocation)
    (hrequest : replacement.request = allocation.request) (hamong : among replacement = among allocation) :
    outstanding among (permits.set index replacement) = outstanding among permits := by
  rw [outstanding_set among h, outstanding_split among h, hrequest, hamong]

end Sums

/-! ## Nested workers -/

/-- What a nested worker has added to the counters so far. -/
def NestedPermit.claim (nested : NestedPermit) : GovernorRequest where
  computeThreads := nested.request.computeThreads
  ioSlots :=
    match nested.stage with
    | .reservedIo | .held | .releasingIo => nested.request.ioSlots
    | .reservedCompute | .releasingCompute => 0
  memoryBytes :=
    match nested.stage with
    | .held => nested.request.memoryBytes
    | _ => 0

/-- The permits that nested workers hold. -/
def Allocation.heldNested (allocation : Allocation) : List NestedPermit :=
  allocation.nested.filter (·.stage = .held)

/-- The nested counters add up, within the permit. -/
structure Nesting (allocation : Allocation) : Prop where
  usage : allocation.nestedUsage = (allocation.nested.map NestedPermit.claim).sum
  le : allocation.nestedUsage ≤ allocation.request

section Nesting

variable {nested : NestedPermit} {workers : List NestedPermit}

theorem claims_split (h : workers[index]? = some nested) :
    (workers.map claim).sum = nested.claim + ((workers.eraseIdx index).map claim).sum := by
  obtain ⟨hlt, rfl⟩ := List.getElem?_eq_some_iff.mp h
  rw [← sum_cons, ← map_cons, ((getElem_cons_eraseIdx_perm hlt).map _).sum_eq]

theorem claims_set (h : workers[index]? = some nested) (replacement : NestedPermit) :
    ((workers.set index replacement).map claim).sum =
      replacement.claim + ((workers.eraseIdx index).map claim).sum := by
  obtain ⟨hlt, rfl⟩ := List.getElem?_eq_some_iff.mp h
  rw [← sum_cons, ← map_cons, ((set_perm_cons_eraseIdx hlt replacement).map _).sum_eq]

theorem Nesting.subdivide (h : Nesting allocation) (hword : allocation.request.Word) (request : GovernorRequest) :
    Nesting (allocation.subdivide request) := by
  unfold Allocation.subdivide
  split
  · exact h
  · next computeThreads hreserve =>
    obtain ⟨hle, rfl⟩ := (reserve_eq_some h.le.1 hword.1).mp hreserve
    refine ⟨?_, ⟨hle, h.le.2⟩⟩
    simp only [map_cons, sum_cons, ← h.usage]
    ext <;> simp [claim, Nat.add_comm]

/-- One worker moves, and the counters move with what it has added. -/
theorem Nesting.set (h : Nesting allocation) (hnested : allocation.nested[index]? = some nested)
    {replacement : NestedPermit} {usage : ResourceUsage}
    (hmoves : nested.claim + usage = allocation.nestedUsage + replacement.claim) (hle : usage ≤ allocation.request) :
    Nesting { allocation with nestedUsage := usage, nested := allocation.nested.set index replacement } := by
  refine ⟨?_, hle⟩
  rw [h.usage, claims_split hnested] at hmoves
  simp only [claims_set hnested]
  have hcompute := congrArg computeThreads hmoves
  have hio := congrArg ioSlots hmoves
  have hmemory := congrArg memoryBytes hmoves
  simp only [add_computeThreads, add_ioSlots, add_memoryBytes] at hcompute hio hmemory
  ext <;> simp only [add_computeThreads, add_ioSlots, add_memoryBytes] <;> omega

theorem Nesting.advance (h : Nesting allocation) (hword : allocation.request.Word)
    (hnested : allocation.nested[index]? = some nested) : Nesting (allocation.advance index nested) := by
  obtain ⟨hcompute, hio, hmemory⟩ := hword
  obtain ⟨hleCompute, hleIo, hleMemory⟩ := h.le
  have hclaim : nested.claim ≤ allocation.nestedUsage := by
    rw [h.usage, claims_split hnested, add_comm]
    exact le_add_left' _ _
  cases hstage : nested.stage with
  | reservedCompute =>
    simp only [Allocation.advance, hstage]
    cases hreserve : reserve allocation.nestedUsage.ioSlots nested.request.ioSlots allocation.request.ioSlots with
    | none =>
      refine h.set hnested ?_ h.le
      ext <;> simp [claim, hstage, Nat.add_comm]
    | some ioSlots =>
      obtain ⟨hle, rfl⟩ := (reserve_eq_some hleIo hio).mp hreserve
      refine h.set hnested ?_ ⟨hleCompute, hle, hleMemory⟩
      ext <;> simp [claim, hstage, Nat.add_comm]
  | reservedIo =>
    simp only [Allocation.advance, hstage]
    cases hreserve : reserve allocation.nestedUsage.memoryBytes nested.request.memoryBytes
        allocation.request.memoryBytes with
    | none =>
      refine h.set hnested ?_ h.le
      ext <;> simp [claim, hstage, Nat.add_comm]
    | some memoryBytes =>
      obtain ⟨hle, rfl⟩ := (reserve_eq_some hleMemory hmemory).mp hreserve
      refine h.set hnested ?_ ⟨hleCompute, hleIo, hle⟩
      ext <;> simp [claim, hstage, Nat.add_comm]
  | held =>
    have hpart : nested.request.memoryBytes ≤ allocation.nestedUsage.memoryBytes := by
      simpa [claim, hstage] using hclaim.2.2
    simp only [Allocation.advance, hstage, release_of_le hpart (hleMemory.trans_lt hmemory)]
    refine h.set hnested ?_ ⟨hleCompute, hleIo, (Nat.sub_le _ _).trans hleMemory⟩
    ext <;> simp [claim, hstage, Nat.add_comm, Nat.add_sub_of_le hpart]
  | releasingIo =>
    have hpart : nested.request.ioSlots ≤ allocation.nestedUsage.ioSlots := by
      simpa [claim, hstage] using hclaim.2.1
    simp only [Allocation.advance, hstage, release_of_le hpart (hleIo.trans_lt hio)]
    refine h.set hnested ?_ ⟨hleCompute, (Nat.sub_le _ _).trans hleIo, hleMemory⟩
    ext <;> simp [claim, hstage, Nat.add_comm, Nat.add_sub_of_le hpart]
  | releasingCompute =>
    have hpart : nested.request.computeThreads ≤ allocation.nestedUsage.computeThreads := hclaim.1
    simp only [Allocation.advance, hstage, release_of_le hpart (hleCompute.trans_lt hcompute)]
    refine ⟨?_, ⟨(Nat.sub_le _ _).trans hleCompute, hleIo, hleMemory⟩⟩
    rw [h.usage, claims_split hnested]
    ext <;> simp [claim, hstage]

theorem Allocation.subdivide_request (allocation : Allocation) (request : GovernorRequest) :
    (allocation.subdivide request).request = allocation.request ∧
      (allocation.subdivide request).workload = allocation.workload := by
  unfold Allocation.subdivide
  split <;> exact ⟨rfl, rfl⟩

theorem Allocation.advance_request (allocation : Allocation) (index : Nat) (nested : NestedPermit) :
    (allocation.advance index nested).request = allocation.request ∧
      (allocation.advance index nested).workload = allocation.workload := by
  unfold Allocation.advance
  cases nested.stage with
  | reservedCompute | reservedIo => dsimp only; split <;> exact ⟨rfl, rfl⟩
  | held | releasingIo | releasingCompute => exact ⟨rfl, rfl⟩

/-- What the workers hold is part of what they have added. -/
theorem heldNested_le (workers : List NestedPermit) :
    ((workers.filter (·.stage = .held)).map (·.request)).sum ≤ (workers.map claim).sum := by
  induction workers with
  | nil => exact ⟨Nat.le_refl _, Nat.le_refl _, Nat.le_refl _⟩
  | cons nested workers ih =>
    by_cases hheld : nested.stage = .held
    · have hclaim : nested.claim = nested.request := by
        ext <;> simp [claim, hheld]
      rw [filter_cons_of_pos (by simpa using hheld), map_cons, map_cons, sum_cons, sum_cons,
        hclaim, add_comm, add_comm nested.request]
      exact add_le_add_right' ih _
    · rw [filter_cons_of_neg (by simpa using hheld), map_cons, sum_cons]
      exact le_trans' ih (le_add_left' _ _)

end Nesting

/-! ## The invariant -/

open NativeResourceGovernor

/-- The counters are the sums of the permits, within the limits. -/
structure Usage (policy : NativeGovernorPolicy) (governor : NativeResourceGovernor) : Prop where
  global : governor.global = outstanding (fun _ => true) governor.permits
  classes : ∀ workload, governor.classes workload = outstanding (ofClass workload) governor.permits
  global_le : governor.global ≤ policy.capacity
  class_le : ∀ workload, governor.classes workload ≤ policy.limit workload
  request_le : ∀ allocation ∈ governor.permits, allocation.request ≤ policy.limit allocation.workload
  nesting : ∀ allocation ∈ governor.permits, Nesting allocation

/-- A queue holds the tickets of its classes, each of them once. -/
structure Queued (queue : AdmissionQueueState) : Prop where
  mem_iff : ∀ priority ticket, ticket ∈ queue.queues priority ↔
    ∃ record, queue.records.get ticket = some record ∧ record.workload.priority = priority
  nodup : ∀ priority, (queue.queues priority).Nodup
  fresh : ∀ ticket record, queue.records.get ticket = some record → ticket < queue.nextTicket

/-- The selected ticket waits, and its request fits. -/
def SelectedFits (policy : NativeGovernorPolicy) (governor : NativeResourceGovernor) : Prop :=
  ∀ ticket, governor.queue.selected = some ticket → governor.admissible policy ticket = true

/-- Nothing that waits fits, unless a ticket is selected. -/
def NothingMissed (policy : NativeGovernorPolicy) (governor : NativeResourceGovernor) : Prop :=
  governor.queue.selected = none → ∀ ticket, governor.admissible policy ticket = false

structure Inv (policy : NativeGovernorPolicy) (governor : NativeResourceGovernor) : Prop where
  usage : Usage policy governor
  queued : Queued governor.queue
  selected : SelectedFits policy governor
  missed : NothingMissed policy governor

section Steps

variable {policy : NativeGovernorPolicy} {governor : NativeResourceGovernor} {released : GovernorRequest}

theorem Inv.new : Inv policy .new where
  usage :=
    { global := rfl
      classes := fun _ => rfl
      global_le := ⟨Nat.zero_le _, Nat.zero_le _, Nat.zero_le _⟩
      class_le := fun _ => ⟨Nat.zero_le _, Nat.zero_le _, Nat.zero_le _⟩
      request_le := by
        intro allocation hmem
        cases hmem
      nesting := by
        intro allocation hmem
        cases hmem }
  queued :=
    { mem_iff := by
        intro priority ticket
        simp [NativeResourceGovernor.new]
      nodup := fun _ => nodup_nil
      fresh := by
        intro ticket record h
        cases h }
  selected := by
    intro ticket h
    cases h
  missed := fun _ _ => rfl

/-- What fits, in terms of the amounts. -/
theorem canReserveAdmission_iff :
    governor.canReserveAdmission policy workload request = true ↔
      governor.global + request ≤ policy.capacity ∧ governor.classes workload + request ≤ policy.limit workload := by
  rw [canReserveAdmission, Bool.and_eq_true, usageFits_iff policy.capacity_word,
    usageFits_iff (policy.limit_word workload)]

theorem admissible_iff :
    governor.admissible policy ticket = true ↔ ∃ record, governor.queue.records.get ticket = some record ∧
      governor.canReserveAdmission policy record.workload record.request = true := by
  rw [admissible, Option.any_eq_true]

/-- With less in use, what fitted still fits. -/
theorem admissible_mono (hglobal : after.global ≤ governor.global)
    (hclasses : ∀ workload, after.classes workload ≤ governor.classes workload)
    (hrecord : after.queue.records.get ticket = governor.queue.records.get ticket)
    (h : governor.admissible policy ticket = true) : after.admissible policy ticket = true := by
  obtain ⟨record, hget, hfits⟩ := admissible_iff.mp h
  obtain ⟨hcapacity, hlimit⟩ := canReserveAdmission_iff.mp hfits
  refine admissible_iff.mpr ⟨record, hrecord.trans hget, canReserveAdmission_iff.mpr ⟨?_, ?_⟩⟩
  · exact le_trans' (add_le_add_right' hglobal _) hcapacity
  · exact le_trans' (add_le_add_right' (hclasses _) _) hlimit

/-! ### Selection -/

/-- The ticket that is selected afterwards. -/
def nextSelected (policy : NativeGovernorPolicy) (governor : NativeResourceGovernor) : Option Nat :=
  (governor.selectNext policy).queue.selected

/-- A selection changes nothing else. -/
theorem selectNext_eq : governor.selectNext policy =
    { governor with queue := { governor.queue with selected := nextSelected policy governor } } := by
  unfold nextSelected selectNext
  split <;> rfl

theorem selectNext_admissible (ticket : Nat) :
    (governor.selectNext policy).admissible policy ticket = governor.admissible policy ticket := by
  rw [selectNext_eq]
  rfl

/-- A selection that is made anew: the first that fits, in the order of the queues. -/
theorem selectNext_of_none (h : governor.queue.selected = none) :
    (governor.selectNext policy).queue.selected =
      (governor.selectionOrder policy).findSome? fun priority =>
        (governor.queue.queues priority).find? (governor.admissible policy) := by
  rw [selectNext, h]
  rfl

theorem mem_selectionOrder (priority : Priority) : priority ∈ governor.selectionOrder policy := by
  unfold selectionOrder
  split <;> cases priority <;> decide

/-- Selection restores the two halves about what fits. -/
theorem Inv.of_selectNext (husage : Usage policy governor) (hqueued : Queued governor.queue)
    (hselected : SelectedFits policy governor) : Inv policy (governor.selectNext policy) where
  usage := by
    rw [selectNext_eq]
    exact { husage with }
  queued := by
    rw [selectNext_eq]
    exact { hqueued with }
  selected := by
    intro ticket hticket
    rw [selectNext_admissible]
    cases hbefore : governor.queue.selected with
    | some selected =>
      rw [selectNext, hbefore] at hticket
      exact hselected ticket hticket
    | none =>
      rw [selectNext_of_none hbefore] at hticket
      obtain ⟨priority, -, hfind⟩ := exists_of_findSome?_eq_some hticket
      exact find?_some hfind
  missed := by
    intro hnone ticket
    rw [selectNext_admissible]
    cases hbefore : governor.queue.selected with
    | some selected =>
      rw [selectNext, hbefore] at hnone
      rw [isSome_some, if_pos rfl, hbefore] at hnone
      cases hnone
    | none =>
      rw [selectNext_of_none hbefore, findSome?_eq_none_iff] at hnone
      by_contra hfits
      have hfits : governor.admissible policy ticket = true := by simpa using hfits
      obtain ⟨record, hget, -⟩ := admissible_iff.mp hfits
      -- the ticket waits in the queue of its class, which was searched
      have hmem := (hqueued.mem_iff record.workload.priority ticket).mpr ⟨record, hget, rfl⟩
      have hnot := find?_eq_none.mp (hnone _ (mem_selectionOrder record.workload.priority)) ticket hmem
      exact hnot hfits

/-! ### Counters and permits -/

theorem Usage.reserveAdmission (h : Usage policy governor) {reserved : NativeResourceGovernor}
    (hok : governor.reserveAdmission policy workload request = .ok reserved) :
    Usage policy (reserved.grant workload request) ∧ reserved.queue = governor.queue := by
  simp only [NativeResourceGovernor.reserveAdmission, bind_eq_ok, failIf_eq_ok, okOr_eq_ok,
    ok.injEq, reserveUsage_eq_some h.global_le policy.capacity_word,
    reserveUsage_eq_some (h.class_le workload) (policy.limit_word workload)] at hok
  obtain ⟨_, hexceeds, _, ⟨hcapacity, rfl⟩, _, ⟨hlimit, rfl⟩, rfl⟩ := hok
  simp only [exceeds, not_or, Nat.not_lt] at hexceeds
  refine ⟨⟨?_, ?_, hcapacity, ?_, ?_, ?_⟩, rfl⟩
  · simp only [grant, outstanding_cons, if_true]
    rw [h.global, add_comm]
  · intro workload'
    simp only [grant, outstanding_cons, ofClass]
    by_cases hsame : workload' = workload
    · subst hsame
      rw [Function.update_self, h.classes, add_comm]
      simp
    · rw [Function.update_of_ne hsame, h.classes]
      simp [Ne.symm hsame]
  · intro workload'
    simp only [grant]
    by_cases hsame : workload' = workload
    · subst hsame
      rw [Function.update_self]
      exact hlimit
    · rw [Function.update_of_ne hsame]
      exact h.class_le workload'
  · intro allocation hmem
    rcases mem_cons.mp hmem with rfl | hmem
    · exact hexceeds
    · exact h.request_le allocation hmem
  · intro allocation hmem
    rcases mem_cons.mp hmem with rfl | hmem
    · exact ⟨rfl, ⟨Nat.zero_le _, Nat.zero_le _, Nat.zero_le _⟩⟩
    · exact h.nesting allocation hmem

/-- The permits left when a class gives `released` back. -/
structure Returns (policy : NativeGovernorPolicy) (governor : NativeResourceGovernor) (workload : WorkloadClass)
    (released : GovernorRequest) (permits : List Allocation) : Prop where
  global : outstanding (fun _ => true) governor.permits = released + outstanding (fun _ => true) permits
  sameClass : outstanding (ofClass workload) governor.permits = released + outstanding (ofClass workload) permits
  others : ∀ other, other ≠ workload →
    outstanding (ofClass other) governor.permits = outstanding (ofClass other) permits
  request_le : ∀ allocation ∈ permits, allocation.request ≤ policy.limit allocation.workload
  nesting : ∀ allocation ∈ permits, Nesting allocation

/-- Resources of a class are given back, and less is in use everywhere. -/
theorem Usage.giveBack (h : Usage policy governor) {permits : List Allocation}
    (hreturns : Returns policy governor workload released permits) :
    Usage policy ({ governor with permits }.giveBack workload released) ∧
      ({ governor with permits }.giveBack workload released).global ≤ governor.global ∧
      ∀ other, ({ governor with permits }.giveBack workload released).classes other ≤ governor.classes other := by
  obtain ⟨hglobal, hclass, hothers, hrequest, hnesting⟩ := hreturns
  have hglobalWord : (released + outstanding (fun _ => true) permits).Word := by
    rw [← hglobal, ← h.global]
    exact policy.capacity_word.of_le h.global_le
  have hclassWord : (released + outstanding (ofClass workload) permits).Word := by
    rw [← hclass, ← h.classes]
    exact (policy.limit_word workload).of_le (h.class_le workload)
  have hglobal' : releaseUsage governor.global released = outstanding (fun _ => true) permits := by
    rw [h.global, hglobal, releaseUsage_add hglobalWord]
  have hclass' : releaseUsage (governor.classes workload) released = outstanding (ofClass workload) permits := by
    rw [h.classes, hclass, releaseUsage_add hclassWord]
  have hclasses' : ∀ other, ({ governor with permits }.giveBack workload released).classes other =
      outstanding (ofClass other) permits := by
    intro other
    simp only [NativeResourceGovernor.giveBack]
    by_cases hsame : other = workload
    · subst hsame
      rw [Function.update_self, hclass']
    · rw [Function.update_of_ne hsame, h.classes, hothers other hsame]
  have hle : ({ governor with permits }.giveBack workload released).global ≤ governor.global := by
    simp only [NativeResourceGovernor.giveBack, hglobal']
    rw [h.global, hglobal]
    exact le_add_left' _ _
  have hclassLe : ∀ other, ({ governor with permits }.giveBack workload released).classes other ≤
      governor.classes other := by
    intro other
    rw [hclasses', h.classes]
    by_cases hsame : other = workload
    · subst hsame
      rw [hclass]
      exact le_add_left' _ _
    · rw [hothers other hsame]
      exact ⟨Nat.le_refl _, Nat.le_refl _, Nat.le_refl _⟩
  refine ⟨⟨hglobal', hclasses', le_trans' hle h.global_le, ?_, hrequest, hnesting⟩, hle, hclassLe⟩
  intro other
  exact le_trans' (hclassLe other) (h.class_le other)

/-- A permit is replaced by one of the same class and amount. -/
theorem Usage.setPermit (h : Usage policy governor) {replacement : Allocation}
    (hget : governor.permits[index]? = some allocation) (hworkload : replacement.workload = allocation.workload)
    (hrequest : replacement.request = allocation.request) (hnesting : Nesting replacement) :
    Usage policy (governor.setPermit index replacement) := by
  have hmem := mem_of_getElem? hget
  refine ⟨?_, ?_, h.global_le, h.class_le, ?_, ?_⟩
  · exact h.global.trans (outstanding_set_of_eq hget hrequest rfl).symm
  · intro workload
    refine (h.classes workload).trans (outstanding_set_of_eq hget hrequest ?_).symm
    simp only [ofClass, hworkload]
  · intro other hother
    rcases mem_or_eq_of_mem_set hother with hother | rfl
    · exact h.request_le other hother
    · rw [hworkload, hrequest]
      exact h.request_le allocation hmem
  · intro other hother
    rcases mem_or_eq_of_mem_set hother with hother | rfl
    · exact h.nesting other hother
    · exact hnesting

/-! ### Tickets -/

theorem Queued.enqueue (h : Queued governor.queue) (record : QueuedRequest) :
    Queued (governor.enqueue governor.queue.nextTicket record).queue := by
  have hnew : governor.queue.records.get governor.queue.nextTicket = none := by
    by_contra hsome
    obtain ⟨found, hfound⟩ := ne_none_iff_exists'.mp hsome
    exact absurd (h.fresh _ _ hfound) (Nat.lt_irrefl _)
  have hnotMem : ∀ priority, governor.queue.nextTicket ∉ governor.queue.queues priority := by
    intro priority hmem
    obtain ⟨found, hfound, -⟩ := (h.mem_iff priority _).mp hmem
    rw [hnew] at hfound
    cases hfound
  refine ⟨?_, ?_, ?_⟩
  · intro priority ticket
    simp only [NativeResourceGovernor.enqueue, get_insert]
    by_cases hticket : ticket = governor.queue.nextTicket
    · subst hticket
      by_cases hsame : priority = record.workload.priority
      · subst hsame
        simp
      · simp [Function.update_of_ne hsame, hnotMem, Ne.symm hsame]
    · rw [if_neg hticket, ← h.mem_iff]
      by_cases hsame : priority = record.workload.priority
      · subst hsame
        simp [hticket]
      · rw [Function.update_of_ne hsame]
  · intro priority
    simp only [NativeResourceGovernor.enqueue]
    by_cases hsame : priority = record.workload.priority
    · subst hsame
      rw [Function.update_self, nodup_append]
      refine ⟨h.nodup _, nodup_singleton _, ?_⟩
      rintro ticket hmem other hother rfl
      obtain rfl := mem_singleton.mp hother
      exact hnotMem _ hmem
    · rw [Function.update_of_ne hsame]
      exact h.nodup priority
  · intro ticket found hfound
    simp only [NativeResourceGovernor.enqueue, get_insert] at hfound ⊢
    split at hfound
    · next heq =>
      rw [heq]
      exact Nat.lt_succ_self _
    · exact Nat.lt_succ_of_lt (h.fresh ticket found hfound)

theorem Queued.removeTicket (h : Queued governor.queue) (hget : governor.queue.records.get ticket = some record) :
    Queued (governor.removeTicket ticket record.workload).queue := by
  refine ⟨?_, ?_, ?_⟩
  · intro priority other
    simp only [NativeResourceGovernor.removeTicket, get_erase]
    by_cases hother : other = ticket
    · subst hother
      -- the ticket was in the queue of its class only
      by_cases hsame : priority = record.workload.priority
      · subst hsame
        simp
      · rw [Function.update_of_ne hsame, h.mem_iff, hget]
        simp [Ne.symm hsame]
    · rw [if_neg hother, ← h.mem_iff]
      by_cases hsame : priority = record.workload.priority
      · subst hsame
        simp [hother]
      · rw [Function.update_of_ne hsame]
  · intro priority
    simp only [NativeResourceGovernor.removeTicket]
    by_cases hsame : priority = record.workload.priority
    · subst hsame
      rw [Function.update_self]
      exact (h.nodup _).filter _
    · rw [Function.update_of_ne hsame]
      exact h.nodup priority
  · intro other found hfound
    simp only [NativeResourceGovernor.removeTicket, get_erase] at hfound ⊢
    split at hfound
    · cases hfound
    · exact h.fresh other found hfound

theorem SelectedFits.removeTicket (h : SelectedFits policy governor) (ticket : Nat) (workload : WorkloadClass) :
    SelectedFits policy (governor.removeTicket ticket workload) := by
  intro selected hselected
  simp only [NativeResourceGovernor.removeTicket] at hselected
  split at hselected
  · cases hselected
  · next hother =>
    have hne : selected ≠ ticket := by
      rintro rfl
      exact hother hselected
    obtain ⟨record, hget, hfits⟩ := admissible_iff.mp (h selected hselected)
    refine admissible_iff.mpr ⟨record, ?_, hfits⟩
    simp only [NativeResourceGovernor.removeTicket, get_erase, if_neg hne, hget]

/-! ### Actions -/

theorem Inv.tryAdmit (inv : Inv policy governor) (h : governor.tryAdmit policy workload request = .ok after) :
    Inv policy after := by
  simp only [NativeResourceGovernor.tryAdmit, bind_eq_ok, failIf_eq_ok, ok.injEq, not_not] at h
  obtain ⟨_, hempty, reserved, hreserved, rfl⟩ := h
  obtain ⟨husage, hqueue⟩ := inv.usage.reserveAdmission hreserved
  have hnobody : ∀ ticket, (reserved.grant workload request).admissible policy ticket = false := by
    intro ticket
    have hget : reserved.queue.records.get ticket = none := by
      rw [hqueue, OrderedMap.get, hempty]
      rfl
    simp only [admissible, grant, hget, any_none]
  have hselected : SelectedFits policy (reserved.grant workload request) := by
    intro ticket hticket
    -- a selected ticket would be waiting
    simp only [grant, hqueue] at hticket
    obtain ⟨record, hget, -⟩ := admissible_iff.mp (inv.selected ticket hticket)
    rw [OrderedMap.get, hempty] at hget
    cases hget
  refine ⟨husage, ?_, hselected, fun _ => hnobody⟩
  simp only [grant, hqueue]
  exact inv.queued

/-- Permits play no part in the selection. -/
theorem selectNext_grant (workload : WorkloadClass) (request : GovernorRequest) :
    (governor.selectNext policy).grant workload request = (governor.grant workload request).selectNext policy := by
  unfold selectNext grant
  split <;> rfl

section

variable (inv : Inv policy governor)
include inv

theorem Inv.removeTicket (hget : governor.queue.records.get ticket = some record) :
    Inv policy ((governor.removeTicket ticket record.workload).selectNext policy) :=
  .of_selectNext { inv.usage with } (inv.queued.removeTicket hget)
    (inv.selected.removeTicket ticket record.workload)

theorem Inv.awaitOnce (hget : governor.queue.records.get ticket = some record) (seen : Seen) :
    Inv policy (governor.awaitOnce policy ticket record seen).1 := by
  unfold NativeResourceGovernor.awaitOnce
  split
  · exact inv.removeTicket hget
  · split
    · next hselected =>
      split
      · exact inv
      · next reserved hreserved =>
        obtain ⟨husage, hqueue⟩ := inv.usage.reserveAdmission hreserved
        rw [selectNext_grant]
        refine .of_selectNext { husage with } ?_ ?_
        · have hget' : reserved.queue.records.get ticket = some record := by rw [hqueue, hget]
          have hqueued : Queued reserved.queue := by rw [hqueue]; exact inv.queued
          exact { hqueued.removeTicket hget' with }
        · -- the ticket that was selected is gone
          intro other hother
          simp [grant, recordDispatch, NativeResourceGovernor.removeTicket, hqueue, hselected.1] at hother
    · split
      · exact inv.removeTicket hget
      · exact inv

/-- A new ticket, and the selection after it. -/
theorem Inv.enqueue (record : QueuedRequest) :
    Inv policy ((governor.enqueue governor.queue.nextTicket record).selectNext policy) := by
  refine .of_selectNext { inv.usage with } (inv.queued.enqueue record) ?_
  intro ticket hticket
  obtain ⟨found, hget, hfits⟩ := admissible_iff.mp (inv.selected ticket hticket)
  refine admissible_iff.mpr ⟨found, ?_, hfits⟩
  have hne : ticket ≠ governor.queue.nextTicket := (inv.queued.fresh ticket found hget).ne
  simp only [NativeResourceGovernor.enqueue, get_insert, if_neg hne, hget]

theorem Inv.admitQueuedOwned {cancellation : Cancellation} {seen : Seen}
    {outcome : NativeResourceGovernor × AwaitResult}
    (h : governor.admitQueuedOwned policy workload request cancellation seen = .ok outcome) : Inv policy outcome.1 := by
  simp only [NativeResourceGovernor.admitQueuedOwned, bind_eq_ok, ok.injEq] at h
  obtain ⟨_, -, _, -, _, -, _, -, _, -, rfl⟩ := h
  refine (inv.enqueue _).awaitOnce ?_ seen
  rw [selectNext_eq]
  simp only [NativeResourceGovernor.enqueue, get_insert, if_true]

/-- After resources are given back, the selected ticket fits all the more. -/
theorem Inv.of_giveBack {permits : List Allocation} (hreturns : Returns policy governor workload released permits) :
    Inv policy (({ governor with permits }.giveBack workload released).selectNext policy) := by
  obtain ⟨husage, hle, hclassLe⟩ := inv.usage.giveBack hreturns
  refine .of_selectNext husage { inv.queued with } ?_
  intro ticket hticket
  exact admissible_mono hle hclassLe rfl (inv.selected ticket hticket)

theorem Inv.releaseAdmission (hget : governor.permits[index]? = some allocation) :
    Inv policy (governor.releaseAdmission policy index allocation) := by
  have hsplit := fun among => outstanding_split among hget
  refine inv.of_giveBack ⟨?_, ?_, ?_, ?_, ?_⟩
  · rw [hsplit]
    simp
  · rw [hsplit]
    simp [ofClass]
  · intro other hother
    rw [hsplit]
    simp [ofClass, Ne.symm hother]
  · intro other hmem
    exact inv.usage.request_le other (mem_of_mem_eraseIdx hmem)
  · intro other hmem
    exact inv.usage.nesting other (mem_of_mem_eraseIdx hmem)

theorem Inv.setPermit {replacement : Allocation} (hget : governor.permits[index]? = some allocation)
    (hworkload : replacement.workload = allocation.workload) (hrequest : replacement.request = allocation.request)
    (hnesting : Nesting replacement) : Inv policy (governor.setPermit index replacement) :=
  { inv with usage := inv.usage.setPermit hget hworkload hrequest hnesting }

theorem Inv.shrinkTo (hget : governor.permits[index]? = some allocation) (request : GovernorRequest) :
    Inv policy (governor.shrinkTo policy index allocation request).1 := by
  have hmem := mem_of_getElem? hget
  have hnesting := inv.usage.nesting allocation hmem
  -- the owner that asked is gone
  have hfailed : Inv policy (governor.setPermit index { allocation with handles := allocation.handles - 1 }) :=
    inv.setPermit hget rfl rfl ⟨hnesting.usage, hnesting.le⟩
  unfold NativeResourceGovernor.shrinkTo
  dsimp only
  split
  · exact hfailed
  split
  · exact hfailed
  split
  · exact hfailed
  next hsmaller =>
  simp only [not_or, not_not] at hsmaller
  obtain ⟨hle, hnestedLe⟩ := hsmaller
  have hsum : allocation.request = ⟨allocation.request.computeThreads - request.computeThreads,
      allocation.request.ioSlots - request.ioSlots,
      allocation.request.memoryBytes - request.memoryBytes⟩ + request := by
    ext
    · exact (Nat.sub_add_cancel hle.1).symm
    · exact (Nat.sub_add_cancel hle.2.1).symm
    · exact (Nat.sub_add_cancel hle.2.2).symm
  have hsplit := fun among => outstanding_split among hget
  have hset := fun among => outstanding_set among hget { allocation with request }
  refine inv.of_giveBack ⟨?_, ?_, ?_, ?_, ?_⟩
  · rw [hsplit, hset, ← add_assoc]
    simp only [if_true]
    rw [← hsum]
  · rw [hsplit, hset, ← add_assoc]
    simp only [ofClass, decide_true, if_true]
    rw [← hsum]
  · intro other hother
    rw [hsplit, hset]
    simp [ofClass, Ne.symm hother]
  · intro other hmem'
    rcases mem_or_eq_of_mem_set hmem' with hmem' | rfl
    · exact inv.usage.request_le other hmem'
    · exact le_trans' hle (inv.usage.request_le allocation hmem)
  · intro other hmem'
    rcases mem_or_eq_of_mem_set hmem' with hmem' | rfl
    · exact inv.usage.nesting other hmem'
    · exact ⟨hnesting.usage, hnestedLe⟩

theorem Inv.step {action : Action} (h : Governor.step policy governor action = some after) : Inv policy after := by
  cases action with
  | tryAdmit workload request =>
    simp only [Governor.step] at h
    split at h
    · cases h
      exact inv
    · next admitted hadmitted =>
      cases h
      exact inv.tryAdmit hadmitted
  | admitQueued workload request cancellation seen =>
    simp only [Governor.step] at h
    split at h
    · cases h
      exact inv
    · next outcome houtcome =>
      cases h
      exact inv.admitQueuedOwned houtcome
  | wake ticket seen =>
    simp only [Governor.step, bind_eq_bind, bind_eq_some_iff, some.injEq] at h
    obtain ⟨record, hget, rfl⟩ := h
    exact inv.awaitOnce hget seen
  | clone permit | dropHandle permit =>
    simp only [Governor.step, bind_eq_bind, bind_eq_some_iff, ite_none_left_eq_some, some.injEq] at h
    obtain ⟨allocation, hget, -, rfl⟩ := h
    have hnesting := inv.usage.nesting allocation (mem_of_getElem? hget)
    exact inv.setPermit hget rfl rfl ⟨hnesting.usage, hnesting.le⟩
  | release permit =>
    simp only [Governor.step, bind_eq_bind, bind_eq_some_iff, ite_none_right_eq_some, some.injEq] at h
    obtain ⟨allocation, hget, -, rfl⟩ := h
    exact inv.releaseAdmission hget
  | shrink permit request =>
    simp only [Governor.step, bind_eq_bind, bind_eq_some_iff, ite_none_left_eq_some, some.injEq] at h
    obtain ⟨allocation, hget, -, rfl⟩ := h
    exact inv.shrinkTo hget request
  | subdivide permit request =>
    simp only [Governor.step, bind_eq_bind, bind_eq_some_iff, ite_none_left_eq_some, some.injEq] at h
    obtain ⟨allocation, hget, -, rfl⟩ := h
    have hmem := mem_of_getElem? hget
    have hword := (policy.limit_word allocation.workload).of_le (inv.usage.request_le allocation hmem)
    have hsame := allocation.subdivide_request request
    exact inv.setPermit hget hsame.2 hsame.1 ((inv.usage.nesting allocation hmem).subdivide hword request)
  | advance permit nested =>
    simp only [Governor.step, bind_eq_bind, bind_eq_some_iff, some.injEq] at h
    obtain ⟨allocation, hget, worker, hworker, rfl⟩ := h
    have hmem := mem_of_getElem? hget
    have hword := (policy.limit_word allocation.workload).of_le (inv.usage.request_le allocation hmem)
    have hsame := allocation.advance_request nested worker
    exact inv.setPermit hget hsame.2 hsame.1 ((inv.usage.nesting allocation hmem).advance hword hworker)

end

end Steps

end Hyphae.Governor
