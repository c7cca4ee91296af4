import Hyphae.Governor.Invariant
import Hyphae.Lib.Steps

/-!
# Background work is not starved

A foreground dispatch passes over a background request when that request was waiting and
fitted at the moment the foreground ticket was selected, and still waits at the dispatch.
Between two background dispatches this happens to a request at most as often as the burst
limit says. Over its whole wait it can happen more often: every background request that
is served first starts a new burst.
-/

namespace Hyphae.Governor

open Lib Option OrderedMap List

open NativeResourceGovernor

variable (policy : NativeGovernorPolicy)

variable {ticket other count : Nat} {workload : WorkloadClass} {record : QueuedRequest} {x : NativeResourceGovernor}
  {background : List Nat} {action : Action}

/-! ## Counting -/

/-- The ticket waits in the background queue. -/
def isBackground (governor : NativeResourceGovernor) (ticket : Nat) : Bool :=
  (governor.queue.records.get ticket).any (·.workload.priority = .background)

/-- A foreground ticket is selected although this background request waits and fits. -/
def overlooks (ticket : Nat) (governor : NativeResourceGovernor) : Bool :=
  isBackground governor ticket && governor.admissible policy ticket &&
    governor.queue.selected.any fun selected => !isBackground governor selected

/-- The class of the request that an action dispatches from the queue. -/
def dispatched (governor : NativeResourceGovernor) : Action → Option WorkloadClass
  | .wake ticket seen => do
    let record ← governor.queue.records.get ticket
    match (governor.awaitOnce policy ticket record seen).2 with
    | .admitted _ => some record.workload
    | _ => none
  | .admitQueued workload request cancellation seen =>
    match governor.admitQueuedOwned policy workload request cancellation seen with
    | .ok (_, .admitted _) => some workload
    | _ => none
  | _ => none

/-- How often foreground dispatches passed over one request: in all, and since the last background dispatch. The mark
says that the ticket selected now was chosen over it. -/
structure Tally where
  marked : Bool
  total : Nat
  sinceBackground : Nat
  deriving DecidableEq

/-- This dispatch passes over the request. -/
def passesOver (ticket : Nat) (governor : NativeResourceGovernor) (tally : Tally) (workload : WorkloadClass) : Bool :=
  workload.priority ≠ .background && tally.marked && isBackground governor ticket

def Tally.next (ticket : Nat) (governor after : NativeResourceGovernor) (action : Action) (tally : Tally) : Tally :=
  let marked := if after.queue.selected = governor.queue.selected then tally.marked else overlooks policy ticket after
  match dispatched policy governor action with
  | none => { tally with marked }
  | some workload =>
    let passed := (passesOver ticket governor tally workload).toNat
    { marked
      total := tally.total + passed
      sinceBackground := if workload.priority = .background then 0 else tally.sinceBackground + passed }

/-- A step of the governor, with the count for one ticket. -/
def watch (ticket : Nat) (state : NativeResourceGovernor × Tally) (action : Action) :
    Option (NativeResourceGovernor × Tally) :=
  (step policy state.1 action).map fun after => (after, state.2.next policy ticket state.1 after action)

/-- Nothing has happened. -/
def start : NativeResourceGovernor × Tally := (.new, { marked := false, total := 0, sinceBackground := 0 })

variable {policy} {governor after : NativeResourceGovernor}

/-! ## What a step does to the selection and to the burst -/

theorem isBackground_iff (hqueued : Queued governor.queue) :
    isBackground governor ticket = true ↔ ticket ∈ governor.queue.queues .background := by
  rw [isBackground, Option.any_eq_true, hqueued.mem_iff]
  simp

theorem isBackground_selectNext : isBackground (x.selectNext policy) ticket = isBackground x ticket := by
  rw [selectNext_eq]
  rfl

/-- A new selection passes over a background request that fits only while the burst lasts. -/
theorem burst_of_overlooks (hqueued : Queued governor.queue) (hnone : governor.queue.selected = none)
    (h : overlooks policy ticket (governor.selectNext policy) = true) :
    governor.queue.foregroundDispatchesSinceBackground < policy.foregroundBurstLimit := by
  simp only [overlooks, Bool.and_eq_true, selectNext_admissible] at h
  obtain ⟨⟨hbackground, hfits⟩, hselected⟩ := h
  rw [isBackground_selectNext, isBackground_iff hqueued] at hbackground
  by_contra hover
  have horder : governor.selectionOrder policy = [.background, .high, .normal] := by
    rw [selectionOrder, if_pos ⟨ne_nil_of_mem hbackground, Nat.le_of_not_lt hover⟩]
  -- background goes first, and something there fits
  obtain ⟨found, hfound⟩ : ∃ found, (governor.queue.queues .background).find? (governor.admissible policy) =
    some found := by
    apply isSome_iff_exists.mp
    rw [find?_isSome]
    exact ⟨ticket, hbackground, hfits⟩
  rw [selectNext_of_none hnone, horder] at hselected
  simp only [findSome?_cons, hfound, any_some, Bool.not_eq_true', isBackground_selectNext] at hselected
  have hmem := (isBackground_iff hqueued).mpr (mem_of_find?_eq_some hfound)
  rw [hmem] at hselected
  cases hselected

/-- The count of dispatches after one more. -/
def countDispatch (policy : NativeGovernorPolicy) (workload : WorkloadClass) (background : List Nat) (count : Nat) :
    Nat :=
  if workload.priority ≠ .background ∧ background ≠ [] then min (saturatingAdd count 1) policy.foregroundBurstLimit
    else 0

/-- What a step does, as far as the burst is concerned. -/
structure Effect (policy : NativeGovernorPolicy) (governor after : NativeResourceGovernor)
    (workload : Option WorkloadClass) : Prop where
  selection : after.queue.selected = governor.queue.selected ∨ ∀ ticket, overlooks policy ticket after = true →
    after.queue.foregroundDispatchesSinceBackground < policy.foregroundBurstLimit
  count : after.queue.foregroundDispatchesSinceBackground =
    match workload with
    | none => governor.queue.foregroundDispatchesSinceBackground
    | some workload => countDispatch policy workload (after.queue.queues .background)
        governor.queue.foregroundDispatchesSinceBackground
  background : ∀ ticket, isBackground after ticket = true →
    isBackground governor ticket = true ∨ governor.queue.nextTicket ≤ ticket
  nextTicket : governor.queue.nextTicket ≤ after.queue.nextTicket
  unselected : workload ≠ none → after.queue.selected = governor.queue.selected → governor.queue.selected = none

theorem Effect.of_queue_eq (h : after.queue = governor.queue) : Effect policy governor after none where
  selection := .inl (by rw [h])
  count := by rw [h]
  background := by
    intro ticket hticket
    rw [isBackground, h] at hticket
    exact .inl hticket
  nextTicket := by rw [h]
  unselected := fun hsome => absurd rfl hsome

/-- The selection of `x` is kept, or made anew. -/
theorem selection_selectNext (hqueued : Queued x.queue) :
    (x.selectNext policy).queue.selected = x.queue.selected ∨ ∀ ticket,
      overlooks policy ticket (x.selectNext policy) = true →
        (x.selectNext policy).queue.foregroundDispatchesSinceBackground < policy.foregroundBurstLimit := by
  cases hselected : x.queue.selected with
  | some selected =>
    left
    rw [selectNext, hselected]
    exact hselected
  | none =>
    right
    intro ticket h
    have hburst := burst_of_overlooks hqueued hselected h
    rw [selectNext_eq]
    exact hburst

theorem overlooks_of_none (h : after.queue.selected = none) : overlooks policy ticket after = false := by
  rw [overlooks, h, any_none, Bool.and_false]

/-- A step that only gives resources back. -/
theorem Effect.of_selectNext (hqueued : Queued governor.queue) (hqueue : x.queue = governor.queue) :
    Effect policy governor (x.selectNext policy) none where
  selection := by
    rw [← hqueue]
    exact selection_selectNext (hqueue ▸ hqueued)
  count := by rw [selectNext_eq, ← hqueue]
  background := by
    intro ticket hticket
    rw [isBackground_selectNext, isBackground, hqueue] at hticket
    exact .inl hticket
  nextTicket := by rw [selectNext_eq, ← hqueue]
  unselected := fun hsome => absurd rfl hsome

theorem isBackground_removeTicket (h : isBackground (governor.removeTicket ticket workload) other = true) :
    isBackground governor other = true := by
  simp only [isBackground, removeTicket, get_erase] at h
  split at h
  · cases h
  · exact h

/-- A ticket that gives up. -/
theorem Effect.removeTicket (hqueued : Queued governor.queue) (hget : governor.queue.records.get ticket = some record) :
    Effect policy governor ((governor.removeTicket ticket record.workload).selectNext policy) none where
  selection := by
    have hafter := hqueued.removeTicket hget
    by_cases hself : governor.queue.selected = some ticket
    · -- the selection was its own, so a new one is made
      have hnone : (governor.removeTicket ticket record.workload).queue.selected = none := by
        simp only [NativeResourceGovernor.removeTicket, hself, if_true]
      right
      intro other h
      have hburst := burst_of_overlooks hafter hnone h
      rw [selectNext_eq]
      exact hburst
    · have hkept : (governor.removeTicket ticket record.workload).queue.selected = governor.queue.selected := by
        simp only [NativeResourceGovernor.removeTicket, if_neg hself]
      rw [← hkept]
      exact selection_selectNext hafter
  count := by rw [selectNext_eq]; rfl
  background := by
    intro other hother
    rw [isBackground_selectNext] at hother
    exact .inl (isBackground_removeTicket hother)
  nextTicket := by rw [selectNext_eq]; exact Nat.le_refl _
  unselected := fun hsome => absurd rfl hsome

/-- The dispatch of the selected ticket. -/
theorem Effect.dispatch (hqueued : Queued governor.queue) (hget : governor.queue.records.get ticket = some record)
    (hselected : governor.queue.selected = some ticket) {reserved : NativeResourceGovernor}
    (hqueue : reserved.queue = governor.queue) :
    Effect policy governor
      ((((reserved.removeTicket ticket record.workload).recordDispatch policy record.workload).selectNext policy).grant
        record.workload record.request) (some record.workload) := by
  have hget' : reserved.queue.records.get ticket = some record := by rw [hqueue, hget]
  have hqueued' : Queued reserved.queue := by rw [hqueue]; exact hqueued
  have hafter : Queued ((reserved.removeTicket ticket record.workload).recordDispatch policy
    record.workload).queue := by
    exact { hqueued'.removeTicket hget' with }
  have hnone : ((reserved.removeTicket ticket record.workload).recordDispatch policy record.workload).queue.selected =
      none := by
    simp only [recordDispatch, NativeResourceGovernor.removeTicket, hqueue, hselected, if_true]
  refine ⟨.inr ?_, ?_, ?_, ?_, ?_⟩
  · intro other h
    have h : overlooks policy other (((reserved.removeTicket ticket record.workload).recordDispatch policy
        record.workload).selectNext policy) = true := h
    have hburst := burst_of_overlooks hafter hnone h
    simp only [grant, selectNext_eq]
    exact hburst
  · simp only [grant, selectNext_eq]
    simp only [recordDispatch, countDispatch, NativeResourceGovernor.removeTicket, hqueue]
  · intro other h
    have h : isBackground (reserved.removeTicket ticket record.workload) other = true := by
      rw [selectNext_eq] at h
      exact h
    left
    have hother := isBackground_removeTicket h
    rw [isBackground, hqueue] at hother
    exact hother
  · simp only [grant, selectNext_eq]
    simp [recordDispatch, NativeResourceGovernor.removeTicket, hqueue]
  · intro _ hsame
    -- the dispatched ticket is not selected again
    exfalso
    simp only [grant] at hsame
    rw [hselected, selectNext_of_none hnone] at hsame
    obtain ⟨priority, -, hfind⟩ := exists_of_findSome?_eq_some hsame
    obtain ⟨found, hfound, -⟩ := (hafter.mem_iff priority ticket).mp (mem_of_find?_eq_some hfind)
    simp only [recordDispatch, NativeResourceGovernor.removeTicket, get_erase, if_true] at hfound
    cases hfound

/-- The class that a round of the waiting loop dispatches. -/
def AwaitResult.dispatched (workload : WorkloadClass) : AwaitResult → Option WorkloadClass
  | .admitted _ => some workload
  | _ => none

theorem Effect.awaitOnce (inv : Inv policy governor) (hget : governor.queue.records.get ticket = some record)
    (seen : Seen) :
    Effect policy governor (governor.awaitOnce policy ticket record seen).1
      (AwaitResult.dispatched record.workload (governor.awaitOnce policy ticket record seen).2) := by
  unfold NativeResourceGovernor.awaitOnce
  split
  · exact .removeTicket inv.queued hget
  · split
    · next hselected =>
      split
      · exact .of_queue_eq rfl
      · next reserved hreserved =>
        exact .dispatch inv.queued hget hselected.1 (inv.usage.reserveAdmission hreserved).2
    · split
      · exact .removeTicket inv.queued hget
      · exact .of_queue_eq rfl

theorem Effect.enqueue (hqueued : Queued governor.queue) (record : QueuedRequest) :
    Effect policy governor ((governor.enqueue governor.queue.nextTicket record).selectNext policy) none where
  selection := selection_selectNext (hqueued.enqueue record)
  count := by rw [selectNext_eq]; rfl
  background := by
    intro ticket hticket
    simp only [isBackground, selectNext_eq, NativeResourceGovernor.enqueue, get_insert] at hticket
    split at hticket
    · next heq => exact .inr (Nat.le_of_eq heq.symm)
    · exact .inl hticket
  nextTicket := by
    rw [selectNext_eq]
    exact Nat.le_succ _
  unselected := fun hsome => absurd rfl hsome

/-- What is overlooked after a ticket gave up was overlooked before, if the selection is still the same. -/
theorem overlooks_of_removeTicket
    (hsame : ((governor.removeTicket ticket workload).selectNext policy).queue.selected = governor.queue.selected)
    (hfits : SelectedFits policy ((governor.removeTicket ticket workload).selectNext policy))
    (h : overlooks policy other ((governor.removeTicket ticket workload).selectNext policy) = true) :
    overlooks policy other governor = true := by
  have hrecords : ∀ t, t ≠ ticket → ((governor.removeTicket ticket workload).selectNext policy).queue.records.get t =
      governor.queue.records.get t := by
    intro t hne
    rw [selectNext_eq]
    simp only [removeTicket, get_erase, if_neg hne]
  have hgone : ((governor.removeTicket ticket workload).selectNext policy).queue.records.get ticket = none := by
    rw [selectNext_eq]
    simp only [removeTicket, get_erase, if_true]
  simp only [overlooks, Bool.and_eq_true, Option.any_eq_true] at h ⊢
  obtain ⟨⟨hbackground, hadmissible⟩, selected, hselected, hforeground⟩ := h
  have hother : other ≠ ticket := by
    rintro rfl
    simp [isBackground, hgone] at hbackground
  have hne : selected ≠ ticket := by
    rintro rfl
    obtain ⟨record, hget, -⟩ := admissible_iff.mp (hfits selected hselected)
    rw [hgone] at hget
    cases hget
  refine ⟨⟨?_, ?_⟩, selected, hsame.symm.trans hselected, ?_⟩
  · rw [isBackground, hrecords other hother] at hbackground
    exact hbackground
  · obtain ⟨record, hget, hreserve⟩ := admissible_iff.mp hadmissible
    refine admissible_iff.mpr ⟨record, (hrecords other hother).symm.trans hget, ?_⟩
    rw [selectNext_eq] at hreserve
    exact hreserve
  · rw [isBackground, hrecords selected hne] at hforeground
    exact hforeground

/-- A ticket that gives up in the critical section in which it came. -/
theorem Effect.trans_removeTicket (heffect : Effect policy governor x none) (inv : Inv policy x)
    (hget : x.queue.records.get ticket = some record) :
    Effect policy governor ((x.removeTicket ticket record.workload).selectNext policy) none := by
  have hremove : Effect policy x ((x.removeTicket ticket record.workload).selectNext policy) none :=
    .removeTicket inv.queued hget
  have hcount := hremove.count
  refine ⟨?_, hcount.trans heffect.count, ?_, heffect.nextTicket.trans hremove.nextTicket,
    fun hsome => absurd rfl hsome⟩
  · rcases hremove.selection with hsame | hfresh
    · rcases heffect.selection with hold | hburst
      · exact .inl (hsame.trans hold)
      · right
        intro other h
        rw [hcount]
        exact hburst other (overlooks_of_removeTicket hsame (inv.removeTicket hget).selected h)
    · exact .inr hfresh
  · intro other hother
    rcases hremove.background other hother with hother | hlate
    · exact heffect.background other hother
    · exact .inr (heffect.nextTicket.trans hlate)

/-- The dispatch of a ticket in the critical section in which it came. -/
theorem Effect.trans_dispatch (heffect : Effect policy governor x none) (hqueued : Queued governor.queue)
    {selected : Nat} (hselected : x.queue.selected = some selected) (hnew : governor.queue.nextTicket ≤ selected)
    (hkept : governor.queue.selected ≠ none → x.queue.selected = governor.queue.selected)
    (hfits : SelectedFits policy governor) (hdispatch : Effect policy x after (some workload)) :
    Effect policy governor after (some workload) := by
  have hnone : governor.queue.selected = none := by
    by_contra hsome
    have hold := hkept hsome
    rw [hselected] at hold
    obtain ⟨record, hget, -⟩ := admissible_iff.mp (hfits selected hold.symm)
    exact absurd (hqueued.fresh selected record hget) (Nat.not_lt.mpr hnew)
  refine ⟨?_, ?_, ?_, heffect.nextTicket.trans hdispatch.nextTicket, fun _ _ => hnone⟩
  · rcases hdispatch.selection with hsame | hfresh
    · have hgone := hdispatch.unselected (some_ne_none _) hsame
      rw [hselected] at hgone
      cases hgone
    · exact .inr hfresh
  · rw [hdispatch.count, heffect.count]
  · intro other hother
    rcases hdispatch.background other hother with hother | hlate
    · exact heffect.background other hother
    · exact .inr (heffect.nextTicket.trans hlate)

theorem Effect.admitQueuedOwned (inv : Inv policy governor) {request : GovernorRequest} {cancellation : Cancellation}
    {seen : Seen} {outcome : NativeResourceGovernor × AwaitResult}
    (h : governor.admitQueuedOwned policy workload request cancellation seen = .ok outcome) :
    Effect policy governor outcome.1 (AwaitResult.dispatched workload outcome.2) := by
  simp only [NativeResourceGovernor.admitQueuedOwned, Except.bind_eq_ok, Except.ok.injEq] at h
  obtain ⟨_, -, _, -, _, -, _, -, _, -, rfl⟩ := h
  generalize hrecord : QueuedRequest.mk workload request governor.queue.records.entries.length = record
  have hworkload : workload = record.workload := by rw [← hrecord]
  rw [hworkload]
  have heffect : Effect policy governor ((governor.enqueue governor.queue.nextTicket record).selectNext policy) none :=
    .enqueue inv.queued record
  have hinv := inv.enqueue record
  have hget : ((governor.enqueue governor.queue.nextTicket record).selectNext policy).queue.records.get
      governor.queue.nextTicket = some record := by
    rw [selectNext_eq]
    simp only [NativeResourceGovernor.enqueue, get_insert, if_true]
  have hkept : governor.queue.selected ≠ none →
      ((governor.enqueue governor.queue.nextTicket record).selectNext policy).queue.selected =
        governor.queue.selected := by
    intro hsome
    obtain ⟨selected, hselected⟩ := ne_none_iff_exists'.mp hsome
    rw [selectNext, if_pos]
    · rfl
    · rw [show (governor.enqueue governor.queue.nextTicket record).queue.selected = governor.queue.selected from rfl,
        hselected, isSome_some]
  generalize (governor.enqueue governor.queue.nextTicket record).selectNext policy = x at heffect hinv hget hkept ⊢
  unfold NativeResourceGovernor.awaitOnce
  split
  · exact heffect.trans_removeTicket hinv hget
  · split
    · next hselected =>
      split
      · exact heffect
      · next reserved hreserved =>
        exact heffect.trans_dispatch inv.queued hselected.1 (Nat.le_refl _) hkept inv.selected
          (.dispatch hinv.queued hget hselected.1 (hinv.usage.reserveAdmission hreserved).2)
    · split
      · exact heffect.trans_removeTicket hinv hget
      · exact heffect

theorem step_effect (inv : Inv policy governor) (h : step policy governor action = some after) :
    Effect policy governor after (dispatched policy governor action) := by
  cases action with
  | tryAdmit workload request =>
    simp only [step] at h
    split at h
    · cases h
      exact .of_queue_eq rfl
    · next admitted hadmitted =>
      cases h
      simp only [tryAdmit, Except.bind_eq_ok, Except.ok.injEq] at hadmitted
      obtain ⟨_, -, reserved, hreserved, rfl⟩ := hadmitted
      exact .of_queue_eq (inv.usage.reserveAdmission hreserved).2
  | admitQueued workload request cancellation seen =>
    simp only [step] at h
    split at h
    · next error herror =>
      cases h
      simp only [dispatched, herror]
      exact .of_queue_eq rfl
    · next outcome houtcome =>
      cases h
      have heffect := Effect.admitQueuedOwned inv houtcome
      obtain ⟨x, result⟩ := outcome
      simp only [dispatched, houtcome]
      cases result <;> exact heffect
  | wake ticket seen =>
    simp only [step, bind_eq_bind, bind_eq_some_iff, some.injEq] at h
    obtain ⟨record, hget, rfl⟩ := h
    have heffect := Effect.awaitOnce inv hget seen
    have hsame : dispatched policy governor (.wake ticket seen) =
        AwaitResult.dispatched record.workload (governor.awaitOnce policy ticket record seen).2 := by
      simp only [dispatched, hget, bind_eq_bind, bind_some]
      cases (governor.awaitOnce policy ticket record seen).2 <;> rfl
    rw [hsame]
    exact heffect
  | clone permit | dropHandle permit | subdivide permit request =>
    simp only [step, bind_eq_bind, bind_eq_some_iff, ite_none_left_eq_some, some.injEq] at h
    obtain ⟨allocation, -, -, rfl⟩ := h
    exact .of_queue_eq rfl
  | release permit =>
    simp only [step, bind_eq_bind, bind_eq_some_iff, ite_none_right_eq_some, some.injEq] at h
    obtain ⟨allocation, -, -, rfl⟩ := h
    exact .of_selectNext inv.queued rfl
  | shrink permit request =>
    simp only [step, bind_eq_bind, bind_eq_some_iff, ite_none_left_eq_some, some.injEq] at h
    obtain ⟨allocation, -, -, rfl⟩ := h
    unfold shrinkTo
    dsimp only
    split
    · exact .of_queue_eq rfl
    split
    · exact .of_queue_eq rfl
    split
    · exact .of_queue_eq rfl
    · exact .of_selectNext inv.queued rfl
  | advance permit nested =>
    simp only [step, bind_eq_bind, bind_eq_some_iff, some.injEq] at h
    obtain ⟨allocation, -, worker, -, rfl⟩ := h
    exact .of_queue_eq rfl

/-! ## The bound -/

structure TallyInv (policy : NativeGovernorPolicy) (ticket : Nat) (governor : NativeResourceGovernor) (tally : Tally) :
    Prop where
  count_le : governor.queue.foregroundDispatchesSinceBackground ≤ policy.foregroundBurstLimit
  marked : tally.marked = true → governor.queue.selected ≠ none ∧
    governor.queue.foregroundDispatchesSinceBackground < policy.foregroundBurstLimit
  /-- While the request waits, what passed over it is part of the burst. -/
  waiting : isBackground governor ticket = true →
    tally.sinceBackground ≤ governor.queue.foregroundDispatchesSinceBackground
  bound : tally.sinceBackground ≤ policy.foregroundBurstLimit
  early : governor.queue.nextTicket ≤ ticket → tally.sinceBackground = 0

theorem countDispatch_le : countDispatch policy workload background count ≤ policy.foregroundBurstLimit := by
  unfold countDispatch
  split
  · exact Nat.min_le_right _ _
  · exact Nat.zero_le _

/-- A foreground dispatch while background work waits extends the burst. -/
theorem countDispatch_foreground (hforeground : workload.priority ≠ .background) (hbackground : background ≠ [])
    (hcount : count ≤ policy.foregroundBurstLimit) :
    countDispatch policy workload background count = min (count + 1) policy.foregroundBurstLimit := by
  have hword := policy.burst_word
  rw [countDispatch, if_pos ⟨hforeground, hbackground⟩, saturatingAdd]
  omega

theorem TallyInv.next (inv : Inv policy governor) {tally : Tally} (h : TallyInv policy ticket governor tally)
    (hqueued : Queued after.queue) (heffect : Effect policy governor after (dispatched policy governor action)) :
    TallyInv policy ticket after (tally.next policy ticket governor after action) := by
  have hfresh : isBackground governor ticket = true → ticket < governor.queue.nextTicket := by
    intro hticket
    rw [isBackground, Option.any_eq_true] at hticket
    obtain ⟨record, hget, -⟩ := hticket
    exact inv.queued.fresh ticket record hget
  have hmarked : (tally.next policy ticket governor after action).marked = true → after.queue.selected ≠ none ∧
      after.queue.foregroundDispatchesSinceBackground < policy.foregroundBurstLimit := by
    have hmark : (tally.next policy ticket governor after action).marked =
        if after.queue.selected = governor.queue.selected then tally.marked else overlooks policy ticket after := by
      unfold Tally.next
      dsimp only
      cases dispatched policy governor action <;> rfl
    rw [hmark]
    split
    · -- the selection is kept, which a dispatch of it would not do
      next hsame =>
      intro hmarked
      obtain ⟨hselected, hburst⟩ := h.marked hmarked
      cases hdispatched : dispatched policy governor action with
      | none =>
        rw [hdispatched] at heffect
        exact ⟨by rw [hsame]; exact hselected, by rw [heffect.count]; exact hburst⟩
      | some workload =>
        rw [hdispatched] at heffect
        exact absurd (heffect.unselected (some_ne_none _) hsame) hselected
    · next hother =>
      intro hoverlooks
      refine ⟨?_, (heffect.selection.resolve_left hother) ticket hoverlooks⟩
      intro hnone
      rw [overlooks_of_none hnone] at hoverlooks
      cases hoverlooks
  cases hdispatched : dispatched policy governor action with
  | none =>
    rw [hdispatched] at heffect
    have hcount := heffect.count
    have hnext : (tally.next policy ticket governor after action).sinceBackground = tally.sinceBackground := by
      simp only [Tally.next, hdispatched]
    refine ⟨by rw [hcount]; exact h.count_le, hmarked, ?_, by rw [hnext]; exact h.bound, ?_⟩
    · intro hticket
      rw [hnext, hcount]
      rcases heffect.background ticket hticket with hticket | hlate
      · exact h.waiting hticket
      · rw [h.early hlate]
        exact Nat.zero_le _
    · intro hlate
      rw [hnext]
      exact h.early (heffect.nextTicket.trans hlate)
  | some workload =>
    rw [hdispatched] at heffect
    have hcount := heffect.count
    dsimp only at hcount
    by_cases hbackground : workload.priority = .background
    · -- a background dispatch ends the burst
      have hnext : (tally.next policy ticket governor after action).sinceBackground = 0 := by
        simp only [Tally.next, hdispatched, hbackground, if_true]
      refine ⟨by rw [hcount]; exact countDispatch_le, hmarked, ?_, by rw [hnext]; exact Nat.zero_le _, fun _ => hnext⟩
      intro _
      rw [hnext]
      exact Nat.zero_le _
    · have hnext : (tally.next policy ticket governor after action).sinceBackground =
          tally.sinceBackground + (passesOver ticket governor tally workload).toNat := by
        simp only [Tally.next, hdispatched, hbackground, if_false]
      -- a request that is passed over was waiting, in a burst that goes on
      have hpassed : (passesOver ticket governor tally workload).toNat = 0 ∨
          ((passesOver ticket governor tally workload).toNat = 1 ∧ isBackground governor ticket = true ∧
            governor.queue.foregroundDispatchesSinceBackground < policy.foregroundBurstLimit) := by
        cases hpasses : passesOver ticket governor tally workload with
        | false => exact .inl rfl
        | true =>
          simp only [passesOver, Bool.and_eq_true] at hpasses
          exact .inr ⟨rfl, hpasses.2, (h.marked hpasses.1.2).2⟩
      refine ⟨by rw [hcount]; exact countDispatch_le, hmarked, ?_, ?_, ?_⟩
      · intro hticket
        have hne : after.queue.queues .background ≠ [] := ne_nil_of_mem ((isBackground_iff hqueued).mp hticket)
        rw [hnext, hcount, countDispatch_foreground hbackground hne h.count_le]
        have hle := h.count_le
        rcases heffect.background ticket hticket with hbefore | hlate
        · have hwaiting := h.waiting hbefore
          rcases hpassed with hzero | ⟨hone, -, hburst⟩ <;> omega
        · -- a ticket that is only handed out now has not been passed over
          have hearly := h.early hlate
          rcases hpassed with hzero | ⟨-, hbefore, -⟩
          · omega
          · exact absurd (hfresh hbefore) (Nat.not_lt.mpr hlate)
      · rw [hnext]
        rcases hpassed with hzero | ⟨hone, hbefore, hburst⟩
        · rw [hzero]
          exact h.bound
        · have hwaiting := h.waiting hbefore
          omega
      · intro hlate
        have hlate := heffect.nextTicket.trans hlate
        rw [hnext, h.early hlate]
        rcases hpassed with hzero | ⟨-, hbefore, -⟩
        · rw [hzero]
        · exact absurd (hfresh hbefore) (Nat.not_lt.mpr hlate)

theorem TallyInv.start (ticket : Nat) : TallyInv policy ticket start.1 start.2 where
  count_le := Nat.zero_le _
  marked := by
    intro h
    cases h
  waiting := fun _ => Nat.le_refl _
  bound := Nat.zero_le _
  early := fun _ => rfl

theorem run_watch {actions : List Action} {state : NativeResourceGovernor × Tally}
    (h : run (watch policy ticket) start actions = some state) :
    Inv policy state.1 ∧ TallyInv policy ticket state.1 state.2 := by
  refine run_invariant (I := fun state => Inv policy state.1 ∧ TallyInv policy ticket state.1 state.2) ?_ h
    ⟨.new, .start ticket⟩
  rintro ⟨governor, tally⟩ action ⟨after, tally'⟩ ⟨hinv, htally⟩ hstep
  simp only [watch, map_eq_some_iff, Prod.mk.injEq] at hstep
  obtain ⟨_, hstep, rfl, rfl⟩ := hstep
  have hafter := hinv.step hstep
  exact ⟨hafter, htally.next hinv hafter.queued (step_effect hinv hstep)⟩

/-! ## Every interleaving -/

/-- What holds between the counters, the permits and the queues. -/
structure Governed (policy : NativeGovernorPolicy) (governor : NativeResourceGovernor) : Prop where
  global_eq : governor.global = (governor.permits.map (·.request)).sum
  class_eq : ∀ workload, governor.classes workload =
    ((governor.permits.filter (·.workload = workload)).map (·.request)).sum
  global_le : governor.global ≤ policy.capacity
  class_le : ∀ workload, governor.classes workload ≤ policy.limit workload
  nested_le : ∀ allocation ∈ governor.permits, (allocation.heldNested.map (·.request)).sum ≤ allocation.request
  /-- A waiting ticket is in the queue of its class, once, and in no other. -/
  queued : ∀ ticket record, governor.queue.records.get ticket = some record → ∀ priority,
    (governor.queue.queues priority).count ticket = if priority = record.workload.priority then 1 else 0
  waiting : ∀ priority, ∀ ticket ∈ governor.queue.queues priority, (governor.queue.records.get ticket).isSome
  selected_fits : ∀ ticket, governor.queue.selected = some ticket → ∃ record,
    governor.queue.records.get ticket = some record ∧
      governor.canReserveAdmission policy record.workload record.request = true
  nothing_fits : governor.queue.selected = none → ∀ ticket record, governor.queue.records.get ticket = some record →
    governor.canReserveAdmission policy record.workload record.request = false

theorem Inv.governed (inv : Inv policy governor) : Governed policy governor where
  global_eq := by
    rw [inv.usage.global, outstanding, filter_eq_self.mpr (fun _ _ => rfl)]
  class_eq := inv.usage.classes
  global_le := inv.usage.global_le
  class_le := inv.usage.class_le
  nested_le := by
    intro allocation hmem
    have hnesting := inv.usage.nesting allocation hmem
    refine GovernorRequest.le_trans' (heldNested_le allocation.nested) ?_
    rw [← hnesting.usage]
    exact hnesting.le
  queued := by
    intro ticket record hget priority
    split
    · next hsame =>
      subst hsame
      exact count_eq_one_of_mem (inv.queued.nodup _) ((inv.queued.mem_iff _ ticket).mpr ⟨record, hget, rfl⟩)
    · next hother =>
      rw [List.count_eq_zero]
      intro hmem
      obtain ⟨found, hfound, hpriority⟩ := (inv.queued.mem_iff priority ticket).mp hmem
      rw [hget] at hfound
      cases hfound
      exact hother hpriority.symm
  waiting := by
    intro priority ticket hmem
    obtain ⟨record, hget, -⟩ := (inv.queued.mem_iff priority ticket).mp hmem
    rw [hget, isSome_some]
  selected_fits := fun ticket hselected => admissible_iff.mp (inv.selected ticket hselected)
  nothing_fits := by
    intro hnone ticket record hget
    have hmissed := inv.missed hnone ticket
    rw [admissible, hget, any_some] at hmissed
    exact hmissed

theorem governor_keeps_limits_and_bursts (policy : NativeGovernorPolicy) (ticket : Nat) (actions : List Action)
    (state : NativeResourceGovernor × Tally) (h : run (watch policy ticket) start actions = some state) :
    Governed policy state.1 ∧ state.2.sinceBackground ≤ policy.foregroundBurstLimit := by
  obtain ⟨hinv, htally⟩ := run_watch h
  exact ⟨hinv.governed, htally.bound⟩

/-! ## Two background requests -/

/-- Twenty threads, for all work and for every class. -/
def twentyThreads : NativeGovernorPolicy where
  capacity := ⟨20, 0, 0⟩
  admissionQueueCapacity := 64
  foregroundBurstLimit := 16
  limit := fun _ => ⟨20, 0, 0⟩
  capacity_word := by decide
  limit_word := fun _ => by decide
  burst_word := by decide

def stays : Seen := { cancelled := false, timedOut := false }

/-- While all threads are taken, seventeen point reads and then two bulk jobs begin to wait. When the threads are free
again, a burst of point reads runs, then the first bulk job, then the next point read. -/
def twoBursts : List Action :=
  [Action.tryAdmit .administrative ⟨20, 0, 0⟩] ++
    List.replicate 17 (Action.admitQueued .foregroundPoint ⟨1, 0, 0⟩ .live stays) ++
    List.replicate 2 (Action.admitQueued .bulk ⟨1, 0, 0⟩ .live stays) ++ [Action.dropHandle 0, Action.release 0] ++
    (List.range 16).map (fun ticket => Action.wake ticket stays) ++ [Action.wake 17 stays, Action.wake 16 stays]

/-- The second bulk job fits all the time and is passed over seventeen times. -/
theorem run_twoBursts :
    ((run (watch twentyThreads 18) start twoBursts).any fun state => decide (16 < state.2.total)) = true := by
  decide +kernel

theorem governor_keeps_limits_and_bursts_twoBursts :
    ∃ state, run (watch twentyThreads 18) start twoBursts = some state ∧ Governed twentyThreads state.1 ∧
      state.2.sinceBackground ≤ 16 := by
  obtain ⟨state, hrun, -⟩ := Option.any_eq_true _ _ |>.mp run_twoBursts
  exact ⟨state, hrun, governor_keeps_limits_and_bursts twentyThreads 18 twoBursts state hrun⟩

theorem background_passed_over_twice :
    ∃ state, run (watch twentyThreads 18) start twoBursts = some state ∧
      twentyThreads.foregroundBurstLimit < state.2.total := by
  obtain ⟨state, hrun, htotal⟩ := Option.any_eq_true _ _ |>.mp run_twoBursts
  exact ⟨state, hrun, of_decide_eq_true htotal⟩

end Hyphae.Governor
