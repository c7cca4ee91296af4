import Hyphae.Lib.Checked
import Hyphae.Lib.Effect
import Hyphae.Lib.OrderedMap

/-!
# The resource governor

One authority hands out compute threads, I/O slots and memory. Work that does not fit
waits in one of three queues; the ticket that may go next is selected under the lock,
and its waiter claims the resources when it runs. A permit can be shrunk, or subdivided
among nested workers without the lock, one atomic counter at a time.
-/

namespace Hyphae.Governor

open Lib

/-! ## Classes and amounts -/

inductive WorkloadClass
  | foregroundPoint | foregroundBounded | mutation | bulk | maintenance | recovery | administrative
  deriving DecidableEq, Repr

/-- The queue a class waits in. -/
inductive Priority
  | high | normal | background
  deriving DecidableEq, Repr

def WorkloadClass.priority : WorkloadClass → Priority
  | .foregroundPoint | .mutation => .high
  | .foregroundBounded => .normal
  | .bulk | .maintenance | .recovery | .administrative => .background

/-- Resources of one unit of work. -/
@[ext] structure GovernorRequest where
  computeThreads : Nat
  ioSlots : Nat
  memoryBytes : Nat
  deriving DecidableEq, Repr

/-- Counters of the resources in use. -/
abbrev ResourceUsage := GovernorRequest

namespace GovernorRequest

instance : Zero GovernorRequest := ⟨⟨0, 0, 0⟩⟩

instance : Add GovernorRequest :=
  ⟨fun a b => ⟨a.computeThreads + b.computeThreads, a.ioSlots + b.ioSlots, a.memoryBytes + b.memoryBytes⟩⟩

instance : LE GovernorRequest :=
  ⟨fun a b => a.computeThreads ≤ b.computeThreads ∧ a.ioSlots ≤ b.ioSlots ∧ a.memoryBytes ≤ b.memoryBytes⟩

instance (a b : GovernorRequest) : Decidable (a ≤ b) := inferInstanceAs (Decidable (_ ∧ _))

theorem le_def {a b : GovernorRequest} :
    a ≤ b ↔ a.computeThreads ≤ b.computeThreads ∧ a.ioSlots ≤ b.ioSlots ∧ a.memoryBytes ≤ b.memoryBytes := Iff.rfl

@[simp] theorem add_computeThreads (a b : GovernorRequest) :
    (a + b).computeThreads = a.computeThreads + b.computeThreads := rfl

@[simp] theorem add_ioSlots (a b : GovernorRequest) : (a + b).ioSlots = a.ioSlots + b.ioSlots := rfl

@[simp] theorem add_memoryBytes (a b : GovernorRequest) : (a + b).memoryBytes = a.memoryBytes + b.memoryBytes := rfl

@[simp] theorem zero_computeThreads : (0 : GovernorRequest).computeThreads = 0 := rfl

@[simp] theorem zero_ioSlots : (0 : GovernorRequest).ioSlots = 0 := rfl

@[simp] theorem zero_memoryBytes : (0 : GovernorRequest).memoryBytes = 0 := rfl

instance : AddCommMonoid GovernorRequest where
  add_assoc a b c := by ext <;> simp only [add_computeThreads, add_ioSlots, add_memoryBytes, Nat.add_assoc]
  zero_add a := by ext <;> simp
  add_zero a := by ext <;> simp
  add_comm a b := by ext <;> simp only [add_computeThreads, add_ioSlots, add_memoryBytes, Nat.add_comm]
  nsmul := nsmulRec

/-- Every amount is a 64-bit number. -/
def Word (a : GovernorRequest) : Prop :=
  a.computeThreads < 2 ^ 64 ∧ a.ioSlots < 2 ^ 64 ∧ a.memoryBytes < 2 ^ 64

instance (a : GovernorRequest) : Decidable a.Word := inferInstanceAs (Decidable (_ ∧ _))

/-- Nothing is requested. -/
def isEmpty (a : GovernorRequest) : Prop := a.computeThreads = 0 ∧ a.ioSlots = 0 ∧ a.memoryBytes = 0

instance (a : GovernorRequest) : Decidable a.isEmpty := inferInstanceAs (Decidable (_ ∧ _))

end GovernorRequest

/-- The limits, for all work and for each class. -/
structure NativeGovernorPolicy where
  /-- `schedulable_compute_threads`, `io_slots` and `memory_bytes`. -/
  capacity : GovernorRequest
  admissionQueueCapacity : Nat
  foregroundBurstLimit : Nat
  limit : WorkloadClass → GovernorRequest
  capacity_word : capacity.Word
  limit_word : ∀ workload, (limit workload).Word
  burst_word : foregroundBurstLimit < 2 ^ 64

/-! ## Counters -/

/-- Add to a counter unless the limit is passed; nothing is always granted. -/
def reserve (value requested limit : Nat) : Option Nat :=
  if requested = 0 then some value
  else (checkedAdd value requested).bind fun next => if limit < next then none else some next

def release (value released : Nat) : Nat := if 0 < released then wrappingSub value released else value

/-- Reserve all three amounts or none of them. -/
def reserveUsage (usage : ResourceUsage) (request limit : GovernorRequest) : Option ResourceUsage := do
  let computeThreads ← reserve usage.computeThreads request.computeThreads limit.computeThreads
  let ioSlots ← reserve usage.ioSlots request.ioSlots limit.ioSlots
  let memoryBytes ← reserve usage.memoryBytes request.memoryBytes limit.memoryBytes
  some { computeThreads, ioSlots, memoryBytes }

def releaseUsage (usage : ResourceUsage) (request : GovernorRequest) : ResourceUsage where
  computeThreads := release usage.computeThreads request.computeThreads
  ioSlots := release usage.ioSlots request.ioSlots
  memoryBytes := release usage.memoryBytes request.memoryBytes

def usageFits (usage : ResourceUsage) (request limit : GovernorRequest) : Bool :=
  (checkedAdd usage.computeThreads request.computeThreads).any (· ≤ limit.computeThreads) &&
    (checkedAdd usage.ioSlots request.ioSlots).any (· ≤ limit.ioSlots) &&
    (checkedAdd usage.memoryBytes request.memoryBytes).any (· ≤ limit.memoryBytes)

def exceeds (request limit : GovernorRequest) : Prop :=
  limit.computeThreads < request.computeThreads ∨ limit.ioSlots < request.ioSlots ∨
    limit.memoryBytes < request.memoryBytes

instance (request limit : GovernorRequest) : Decidable (exceeds request limit) := inferInstanceAs (Decidable (_ ∨ _))

/-! ## The state -/

/-- How far a nested worker is with the parent's counters: it adds to one after the other, and gives back in the
opposite order, when it is done or when an addition failed. -/
inductive NestedStage
  | reservedCompute | reservedIo | held | releasingIo | releasingCompute
  deriving DecidableEq, Repr

structure NestedPermit where
  stage : NestedStage
  request : GovernorRequest
  deriving DecidableEq, Repr

/-- A permit with its owners, and the nested workers with the counters they share. -/
structure Allocation where
  workload : WorkloadClass
  request : GovernorRequest
  handles : Nat
  nestedUsage : ResourceUsage
  nested : List NestedPermit
  deriving DecidableEq

structure QueuedRequest where
  workload : WorkloadClass
  request : GovernorRequest
  initialQueueDepth : Nat
  deriving DecidableEq

structure AdmissionQueueState where
  nextTicket : Nat
  selected : Option Nat
  foregroundDispatchesSinceBackground : Nat
  records : OrderedMap Nat QueuedRequest
  queues : Priority → List Nat

structure NativeResourceGovernor where
  global : ResourceUsage
  classes : WorkloadClass → ResourceUsage
  queue : AdmissionQueueState
  permits : List Allocation

def NativeResourceGovernor.new : NativeResourceGovernor where
  global := 0
  classes := fun _ => 0
  queue := { nextTicket := 0, selected := none, foregroundDispatchesSinceBackground := 0, records := .empty,
             queues := fun _ => [] }
  permits := []

inductive GovernorAdmissionError
  | emptyRequest | classLimit | globalCapacity | classCapacity | parentCapacity
  deriving DecidableEq, Repr

inductive GovernorQueueError
  | admission (error : GovernorAdmissionError)
  | full | cancelled | timedOut | ticketExhausted | foreignCancellation
  deriving DecidableEq, Repr

namespace NativeResourceGovernor

variable (policy : NativeGovernorPolicy) (governor : NativeResourceGovernor)

/-! ## Admission -/

def canReserveAdmission (workload : WorkloadClass) (request : GovernorRequest) : Bool :=
  usageFits governor.global request policy.capacity && usageFits (governor.classes workload) request
    (policy.limit workload)

/-- Reserve for all work and for the class. What was reserved for all work is given back when the class is full. -/
def reserveAdmission (workload : WorkloadClass) (request : GovernorRequest) :
    Except GovernorAdmissionError NativeResourceGovernor := do
  .failIf (exceeds request (policy.limit workload)) .classLimit
  let global ← .okOr (reserveUsage governor.global request policy.capacity) .globalCapacity
  let inClass ← .okOr (reserveUsage (governor.classes workload) request (policy.limit workload)) .classCapacity
  .ok { governor with global, classes := Function.update governor.classes workload inClass }

/-- A permit with one owner and no nested work. -/
def grant (workload : WorkloadClass) (request : GovernorRequest) : NativeResourceGovernor :=
  { governor with
    permits := { workload, request, handles := 1, nestedUsage := 0, nested := [] } :: governor.permits }

/-- `try_admit` and `try_admit_owned`: nobody may be waiting. -/
def tryAdmit (workload : WorkloadClass) (request : GovernorRequest) :
    Except GovernorAdmissionError NativeResourceGovernor := do
  .failIf (governor.queue.records.entries ≠ []) .globalCapacity
  let reserved ← governor.reserveAdmission policy workload request
  .ok (reserved.grant workload request)

def validateRequest (workload : WorkloadClass) (request : GovernorRequest) : Except GovernorAdmissionError Unit := do
  .failIf request.isEmpty .emptyRequest
  .failIf (exceeds request (policy.limit workload)) .classLimit

/-! ## The queues -/

/-- The request of a ticket fits now. -/
def admissible (ticket : Nat) : Bool :=
  (governor.queue.records.get ticket).any fun record => governor.canReserveAdmission policy record.workload
    record.request

/-- Foreground first, unless the burst is over and background work waits. -/
def selectionOrder : List Priority :=
  if governor.queue.queues .background ≠ [] ∧
      policy.foregroundBurstLimit ≤ governor.queue.foregroundDispatchesSinceBackground then
    [.background, .high, .normal]
  else [.high, .normal, .background]

/-- `select_next_locked`. -/
def selectNext : NativeResourceGovernor :=
  if governor.queue.selected.isSome then governor
  else
    { governor with
      queue := { governor.queue with
        selected := (governor.selectionOrder policy).findSome? fun priority =>
          (governor.queue.queues priority).find? (governor.admissible policy) } }

/-- `remove_ticket_locked`. -/
def removeTicket (ticket : Nat) (workload : WorkloadClass) : NativeResourceGovernor :=
  { governor with
    queue := { governor.queue with
      records := governor.queue.records.erase ticket
      queues := Function.update governor.queue.queues workload.priority
        ((governor.queue.queues workload.priority).filter (· ≠ ticket))
      selected := if governor.queue.selected = some ticket then none else governor.queue.selected } }

/-- Count a foreground dispatch while background work waits; any other dispatch starts over. -/
def recordDispatch (workload : WorkloadClass) : NativeResourceGovernor :=
  { governor with
    queue := { governor.queue with
      foregroundDispatchesSinceBackground :=
        if workload.priority ≠ .background ∧ governor.queue.queues .background ≠ [] then
          min (saturatingAdd governor.queue.foregroundDispatchesSinceBackground 1) policy.foregroundBurstLimit
        else 0 } }

/-- What a waiter sees besides the queue when it looks. -/
structure Seen where
  cancelled : Bool
  timedOut : Bool
  deriving DecidableEq, Repr

inductive AwaitResult
  | admitted (initialQueueDepth : Nat)
  | waiting
  | failed (error : GovernorQueueError)
  deriving DecidableEq, Repr

/-- One round of the loop in which a ticket waits. -/
def awaitOnce (ticket : Nat) (record : QueuedRequest) (seen : Seen) : NativeResourceGovernor × AwaitResult :=
  if seen.cancelled then
    ((governor.removeTicket ticket record.workload).selectNext policy, .failed .cancelled)
  else if governor.queue.selected = some ticket ∧
      governor.canReserveAdmission policy record.workload record.request then
    match governor.reserveAdmission policy record.workload record.request with
    | .error error => (governor, .failed (.admission error))
    | .ok reserved =>
      ((((reserved.removeTicket ticket record.workload).recordDispatch policy record.workload).selectNext policy).grant
        record.workload record.request, .admitted record.initialQueueDepth)
  else if seen.timedOut then
    ((governor.removeTicket ticket record.workload).selectNext policy, .failed .timedOut)
  else (governor, .waiting)

/-- The token that comes with a request to wait. -/
inductive Cancellation
  | foreign | cancelled | live
  deriving DecidableEq, Repr

/-- A ticket at the end of its queue. -/
def enqueue (ticket : Nat) (record : QueuedRequest) : NativeResourceGovernor :=
  { governor with
    queue := { governor.queue with
      nextTicket := ticket + 1
      records := governor.queue.records.insert ticket record
      queues := Function.update governor.queue.queues record.workload.priority
        (governor.queue.queues record.workload.priority ++ [ticket]) } }

/-- `admit_queued_owned` up to its first wait. -/
def admitQueuedOwned (workload : WorkloadClass) (request : GovernorRequest) (cancellation : Cancellation)
    (seen : Seen) : Except GovernorQueueError (NativeResourceGovernor × AwaitResult) := do
  (validateRequest policy workload request).mapError .admission
  .failIf (cancellation = .foreign) .foreignCancellation
  .failIf (cancellation = .cancelled) .cancelled
  .failIf (policy.admissionQueueCapacity ≤ governor.queue.records.entries.length) .full
  let ticket := governor.queue.nextTicket
  let _ ← .okOr (checkedAdd ticket 1) .ticketExhausted
  let record := { workload, request, initialQueueDepth := governor.queue.records.entries.length }
  .ok (((governor.enqueue ticket record).selectNext policy).awaitOnce policy ticket record seen)

/-! ## Permits -/

/-- Replace a permit. -/
def setPermit (index : Nat) (allocation : Allocation) : NativeResourceGovernor :=
  { governor with permits := governor.permits.set index allocation }

/-- Give resources of a class back. -/
def giveBack (workload : WorkloadClass) (released : GovernorRequest) : NativeResourceGovernor :=
  { governor with
    classes := Function.update governor.classes workload (releaseUsage (governor.classes workload) released)
    global := releaseUsage governor.global released }

/-- `release_admission`, when the last owner of the permit is gone. -/
def releaseAdmission (index : Nat) (allocation : Allocation) : NativeResourceGovernor :=
  let dropped := { governor with permits := governor.permits.eraseIdx index }
  (dropped.giveBack allocation.workload allocation.request).selectNext policy

/-- `shrink_to` consumes one owner, which is gone when it fails. It needs to be the only one. -/
def shrinkTo (index : Nat) (allocation : Allocation) (request : GovernorRequest) :
    NativeResourceGovernor × Except GovernorAdmissionError Unit :=
  let failed := governor.setPermit index { allocation with handles := allocation.handles - 1 }
  if request.isEmpty then (failed, .error .emptyRequest)
  else if allocation.handles ≠ 1 ∨ allocation.nested ≠ [] then (failed, .error .parentCapacity)
  else if ¬request ≤ allocation.request ∨ ¬allocation.nestedUsage ≤ request then (failed, .error .parentCapacity)
  else
    let released : GovernorRequest := {
      computeThreads := allocation.request.computeThreads - request.computeThreads
      ioSlots := allocation.request.ioSlots - request.ioSlots
      memoryBytes := allocation.request.memoryBytes - request.memoryBytes }
    (((governor.setPermit index { allocation with request }).giveBack allocation.workload released).selectNext policy,
      .ok ())

end NativeResourceGovernor

namespace Allocation

/-- `try_subdivide` begins with the first of the three counters. -/
def subdivide (allocation : Allocation) (request : GovernorRequest) : Allocation :=
  match reserve allocation.nestedUsage.computeThreads request.computeThreads allocation.request.computeThreads with
  | none => allocation
  | some computeThreads =>
    { allocation with
      nestedUsage := { allocation.nestedUsage with computeThreads }
      nested := { stage := .reservedCompute, request } :: allocation.nested }

/-- The next counter of a nested worker. -/
def advance (allocation : Allocation) (index : Nat) (nested : NestedPermit) : Allocation :=
  let usage := allocation.nestedUsage
  match nested.stage with
  | .reservedCompute =>
    match reserve usage.ioSlots nested.request.ioSlots allocation.request.ioSlots with
    | some ioSlots =>
      { allocation with
        nestedUsage := { usage with ioSlots }
        nested := allocation.nested.set index { nested with stage := .reservedIo } }
    | none => { allocation with nested := allocation.nested.set index { nested with stage := .releasingCompute } }
  | .reservedIo =>
    match reserve usage.memoryBytes nested.request.memoryBytes allocation.request.memoryBytes with
    | some memoryBytes =>
      { allocation with
        nestedUsage := { usage with memoryBytes }
        nested := allocation.nested.set index { nested with stage := .held } }
    | none => { allocation with nested := allocation.nested.set index { nested with stage := .releasingIo } }
  | .held =>
    -- the permit is dropped
    { allocation with
      nestedUsage := { usage with memoryBytes := release usage.memoryBytes nested.request.memoryBytes }
      nested := allocation.nested.set index { nested with stage := .releasingIo } }
  | .releasingIo =>
    { allocation with
      nestedUsage := { usage with ioSlots := release usage.ioSlots nested.request.ioSlots }
      nested := allocation.nested.set index { nested with stage := .releasingCompute } }
  | .releasingCompute =>
    { allocation with
      nestedUsage := { usage with computeThreads := release usage.computeThreads nested.request.computeThreads }
      nested := allocation.nested.eraseIdx index }

end Allocation

/-! ## Interleavings -/

open NativeResourceGovernor

/-- One critical section, or one atomic operation outside of the lock. Permits and nested workers are named by their
place in the list. -/
inductive Action
  | tryAdmit (workload : WorkloadClass) (request : GovernorRequest)
  | admitQueued (workload : WorkloadClass) (request : GovernorRequest) (cancellation : Cancellation) (seen : Seen)
  | wake (ticket : Nat) (seen : Seen)
  | clone (permit : Nat)
  | dropHandle (permit : Nat)
  | release (permit : Nat)
  | shrink (permit : Nat) (request : GovernorRequest)
  | subdivide (permit : Nat) (request : GovernorRequest)
  | advance (permit nested : Nat)
  deriving DecidableEq, Repr

/-- A refused call leaves everything as it was. -/
def step (policy : NativeGovernorPolicy) (governor : NativeResourceGovernor) : Action → Option NativeResourceGovernor
  | .tryAdmit workload request =>
    match governor.tryAdmit policy workload request with
    | .error _ => some governor
    | .ok admitted => some admitted
  | .admitQueued workload request cancellation seen =>
    match governor.admitQueuedOwned policy workload request cancellation seen with
    | .error _ => some governor
    | .ok outcome => some outcome.1
  | .wake ticket seen => do
    let record ← governor.queue.records.get ticket
    some (governor.awaitOnce policy ticket record seen).1
  | .clone permit => do
    let allocation ← governor.permits[permit]?
    if allocation.handles = 0 then none
    else some (governor.setPermit permit { allocation with handles := allocation.handles + 1 })
  | .dropHandle permit => do
    let allocation ← governor.permits[permit]?
    if allocation.handles = 0 then none
    else some (governor.setPermit permit { allocation with handles := allocation.handles - 1 })
  | .release permit => do
    let allocation ← governor.permits[permit]?
    if allocation.handles = 0 ∧ allocation.nested = [] then some (governor.releaseAdmission policy permit allocation)
    else none
  | .shrink permit request => do
    let allocation ← governor.permits[permit]?
    if allocation.handles = 0 then none
    else some (governor.shrinkTo policy permit allocation request).1
  | .subdivide permit request => do
    let allocation ← governor.permits[permit]?
    if allocation.handles = 0 then none
    else some (governor.setPermit permit (allocation.subdivide request))
  | .advance permit nested => do
    let allocation ← governor.permits[permit]?
    let worker ← allocation.nested[nested]?
    some (governor.setPermit permit (allocation.advance nested worker))

end Hyphae.Governor
