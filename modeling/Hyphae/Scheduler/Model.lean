import Hyphae.Lib.Steps
import Hyphae.Runtime.GroupCommit
import Hyphae.Scheduler.Requests

/-!
# The commit scheduler

Callers put commands into one bounded channel, under a gate that counts the slots of
the queued requests. One worker takes the commands in order: it releases their slots,
gathers group commits into a cohort, claims the requests that are still queued, hands
them to the database and answers them. Every action here is one access to what the
threads share: a compare-and-swap on a control word, a send, a receive, or what is
done under the lock of the gate. Clocks are free: a deadline may pass at any time.
-/

namespace Hyphae.Scheduler

open Lib (run Reaches)

def maxGroupCommitQueueCapacity : Nat := 4096

/-- Validated bounds of one scheduler; the foreground budget is that of active expiry, if it is on. -/
structure GroupCommitConfig where
  maxBatchSize : Nat
  queueCapacity : Nat
  foregroundBudget : Option Nat
  batch_pos : 0 < maxBatchSize
  batch_le : maxBatchSize ≤ Runtime.maxGroupCommitBatchSize
  capacity_ge : maxBatchSize ≤ queueCapacity
  capacity_le : queueCapacity ≤ maxGroupCommitQueueCapacity
  budget_pos : ∀ budget ∈ foregroundBudget, 0 < budget

inductive SchedulerCommand
  | commit (request : RequestId)
  | cohort (requests : List RequestId)
  | shutdown (returnDatabase : Bool)
  deriving DecidableEq

/-- The requests of a command, one slot each. -/
def SchedulerCommand.requests : SchedulerCommand → List RequestId
  | .commit request => [request]
  | .cohort requests => requests
  | .shutdown _ => []

def pendingRequests (pending : Option SchedulerCommand) : List RequestId :=
  (pending.map SchedulerCommand.requests).getD []

inductive SchedulerTermination
  | running | shutdown | returnDatabase | failed
  deriving DecidableEq

def requestShutdown (returnDatabase : Bool) : SchedulerTermination :=
  if returnDatabase then .returnDatabase else .shutdown

/-- What is left to do behind an execution: a command taken too early, how the loop ends, and the requests taken on. -/
structure Afterwards where
  pending : Option SchedulerCommand
  termination : SchedulerTermination
  count : Nat

/-- Where the worker is. -/
inductive Worker (ρ : Type)
  /-- At the head of its loop. -/
  | idle (pending : Option SchedulerCommand)
  /-- With a command whose slots are not released yet. -/
  | received (command : SchedulerCommand)
  /-- Gathering a cohort; with one more command whose slots are not released yet. -/
  | collecting (requests : List RequestId)
  | collected (requests : List RequestId) (command : SchedulerCommand)
  | claiming (single : Bool) (remaining claimed : List RequestId) (afterwards : Afterwards)
  | executing (single : Bool) (claimed : List RequestId) (afterwards : Afterwards)
  /-- Answering; `marked` if the control word of the first one says completed. -/
  | delivering (marked : Bool) (answers : List (RequestId × Answer ρ)) (completed : Bool) (afterwards : Afterwards)
  /-- Behind its loop, behind closing the gate, and ended. -/
  | stopping (pending : Option SchedulerCommand) (retainDatabase : Bool)
  | closing (pending : Option SchedulerCommand) (retainDatabase : Bool)
  | closed

/-- The scheduler. The lock of the gate is held across a step only between a send and the count of its slots. -/
structure State (ρ : Type) where
  accepting : Bool
  queuedRequestSlots : Nat
  lock : Option (List RequestId)
  channel : List SchedulerCommand
  worker : Worker ρ
  foregroundAfterDue : Nat
  database : Bool
  /-- A shutdown marker that is still to be sent. -/
  marker : Option Bool
  requests : RequestId → Request ρ

variable {ρ : Type}

/-- A request that is not submitted. -/
def Request.fresh : Request ρ where
  group := false
  pollCancellation := false
  immediate := false
  queueDeadline := false
  word := .queued
  response := .empty
  caller := .unsubmitted
  sent := false
  executions := 0
  report := none

def State.start : State ρ where
  accepting := true
  queuedRequestSlots := 0
  lock := none
  channel := []
  worker := .idle none
  foregroundAfterDue := 0
  database := true
  marker := none
  requests := fun _ => .fresh

/-- Change the requests with these identities. -/
def State.change (s : State ρ) (ids : List RequestId) (f : Request ρ → Request ρ) : State ρ :=
  { s with requests := fun id => if id ∈ ids then f (s.requests id) else s.requests id }

def Request.tell (answer : Answer ρ) (request : Request ρ) : Request ρ := { request with caller := .returned answer }

/-- The command of the request is dropped with its end of the response channel. -/
def Request.dropSender (request : Request ρ) : Request ρ := { request with response := .closed }

/-! ## Callers -/

inductive ClientAction
  | act (request : RequestId) (act : Act)
  | submitCohort (requests : List RequestId)
  | admitCommand (request : RequestId)
  | admitCohortCommand (request : RequestId)
  | countSlots
  | stopAccepting (returnDatabase : Bool)
  | sendShutdown

section Client

variable (config : GroupCommitConfig) (s : State ρ)

/-- Nobody receives any more. -/
def State.disconnected : Bool :=
  match s.worker with
  | .closed => true
  | _ => false

/-- The members of a new explicit cohort. -/
def submitCohort (ids : List RequestId) : Option (State ρ) :=
  if ids ≠ [] ∧ ids.length ≤ config.maxBatchSize ∧ ids.Nodup ∧
      ∀ id ∈ ids, (match (s.requests id).caller with | .unsubmitted => true | _ => false) = true then
    some (s.change ids fun request => { request with
      group := true, pollCancellation := false, immediate := false, queueDeadline := false, caller := .joining ids })
  else none

/-- A full queue refuses an immediate submission and sends any other one round again. -/
def State.saturate (id : RequestId) : State ρ :=
  if (s.requests id).immediate then s.change [id] (.tell .saturated)
  else s.change [id] fun request => { request with caller := .checking }

/-- The send under the lock of the gate. -/
def State.send (command : SchedulerCommand) : State ρ :=
  { s.change command.requests fun request => { request with caller := .counting, sent := true } with
    channel := s.channel ++ [command], lock := some command.requests }

def admitCommand (id : RequestId) : Option (State ρ) :=
  match (s.requests id).caller, s.lock with
  | .submitting, none =>
    if !s.accepting then some (s.change [id] (.tell .unavailable))
    else if config.queueCapacity ≤ s.queuedRequestSlots then some (s.saturate id)
    else if s.disconnected then some (s.change [id] (.tell .unavailable))
    else if config.queueCapacity ≤ s.channel.length then some (s.saturate id)
    else some (s.send (.commit id))
  | _, _ => none

def admitCohortCommand (id : RequestId) : Option (State ρ) :=
  match (s.requests id).caller, s.lock with
  | .joining ids, none =>
    if !s.accepting then some (s.change ids (.tell .unavailable))
    else if config.queueCapacity < s.queuedRequestSlots + ids.length then some s
    else if s.disconnected then some (s.change ids (.tell .unavailable))
    else if config.queueCapacity ≤ s.channel.length then some s
    else some (s.send (.cohort ids))
  | _, _ => none

/-- Count the slots of what was sent, and let go of the lock. -/
def countSlots : Option (State ρ) :=
  match s.lock with
  | some ids => some { s.change ids fun request => { request with caller := .holding } with
      queuedRequestSlots := s.queuedRequestSlots + ids.length, lock := none }
  | none => none

def stopAccepting (returnDatabase : Bool) : Option (State ρ) :=
  if s.lock = none ∧ s.accepting then some { s with accepting := false, marker := some returnDatabase } else none

def sendShutdown : Option (State ρ) :=
  match s.marker with
  | some returnDatabase =>
    if s.disconnected then some { s with marker := none }
    else if config.queueCapacity ≤ s.channel.length then none
    else some { s with channel := s.channel ++ [.shutdown returnDatabase], marker := none }
  | none => none

def clientStep : ClientAction → Option (State ρ)
  | .act id act => ((s.requests id).act act).map fun request => s.change [id] fun _ => request
  | .submitCohort ids => submitCohort config s ids
  | .admitCommand id => admitCommand config s id
  | .admitCohortCommand id => admitCohortCommand config s id
  | .countSlots => countSlots s
  | .stopAccepting returnDatabase => stopAccepting s returnDatabase
  | .sendShutdown => sendShutdown config s

end Client

/-! ## The worker -/

/-- What became of handing claimed requests to the database. -/
inductive Execution (ρ : Type)
  /-- No execution permit. -/
  | denied (report : ρ)
  | single (report : ρ) (requestLocal : Bool)
  /-- One outcome for each batch, or one failure for all of them. -/
  | group (report : RequestId → ρ)
  | groupFailed (report : ρ)

/-- What the execution of a request came to. -/
def Execution.report {ρ : Type} : Execution ρ → RequestId → ρ
  | .denied report, _ | .single report _, _ | .groupFailed report, _ => report
  | .group report, id => report id

inductive WorkerAction (ρ : Type)
  | sweep (succeeds : Bool)
  | takePending (sweep : Option Bool)
  | receive
  | release (sweep : Option Bool)
  | timeout
  | claim
  | claimed
  | execute (execution : Execution ρ)
  | deliver
  | finish (due : Bool)
  | stop
  | close

section Work

variable (config : GroupCommitConfig) (s : State ρ)

/-- An expiry sweep at the head of the loop: forced by the budget, or with nothing else to do. -/
def sweepDue (pending : Option SchedulerCommand) : Bool :=
  match config.foregroundBudget with
  | some budget => decide (budget ≤ s.foregroundAfterDue) || (pending.isNone && s.channel.isEmpty)
  | none => false

def activeExpiry (succeeds : Bool) : Option (State ρ) :=
  match s.worker with
  | .idle pending =>
    if sweepDue config s pending then
      some (if succeeds then { s with foregroundAfterDue := 0 } else { s with worker := .stopping pending false })
    else none
  | _ => none

/-- A sweep before an explicit cohort that exceeds what is left of the budget. -/
def explicitCohortExceedsDueBudget (count : Nat) : Bool :=
  match config.foregroundBudget with
  | some budget => decide (budget - s.foregroundAfterDue < count)
  | none => false

/-- Start on a command whose slots are released. -/
def dispatch (command : SchedulerCommand) (sweep : Option Bool) : Option (State ρ) :=
  match command, sweep with
  | .commit id, none =>
    some { s with worker :=
      if (s.requests id).group then .collecting [id] else .claiming true [id] [] ⟨none, .running, 1⟩ }
  | .cohort ids, none => some { s with worker := .claiming false ids [] ⟨none, .running, ids.length⟩ }
  | .cohort ids, some succeeds =>
    if explicitCohortExceedsDueBudget config s ids.length then
      some (if succeeds then { s with
          foregroundAfterDue := 0, worker := .claiming false ids [] ⟨none, .running, ids.length⟩ }
        else { s.change ids Request.dropSender with worker := .stopping none false })
    else none
  | .shutdown returnDatabase, none => some { s with worker := .stopping none returnDatabase }
  | _, some _ => none

def receiveCommand : Option (State ρ) :=
  match s.worker, s.channel with
  | .idle none, command :: channel => some { s with channel, worker := .received command }
  | .collecting requests, command :: channel =>
    if requests.length < config.maxBatchSize then some { s with channel, worker := .collected requests command }
    else none
  | _, _ => none

/-- Where a command goes that came up while a cohort is gathered. -/
def collect (requests : List RequestId) (command : SchedulerCommand) : State ρ :=
  match command with
  | .commit id =>
    if (s.requests id).group then { s with worker := .collecting (requests ++ [id]) }
    else { s with worker := .claiming false requests [] ⟨some command, .running, requests.length⟩ }
  | .cohort _ => { s with worker := .claiming false requests [] ⟨some command, .running, requests.length⟩ }
  | .shutdown returnDatabase =>
    { s with worker := .claiming false requests [] ⟨none, requestShutdown returnDatabase, requests.length⟩ }

/-- Release the slots of the received command, under the lock of the gate. -/
def releaseDequeuedRequestSlots (sweep : Option Bool) : Option (State ρ) :=
  match s.worker, s.lock with
  | .received command, none =>
    if command.requests.length ≤ s.queuedRequestSlots then
      dispatch config { s with queuedRequestSlots := s.queuedRequestSlots - command.requests.length } command sweep
    else some { s.change command.requests Request.dropSender with worker := .stopping none false }
  | .collected requests command, none =>
    if command.requests.length ≤ s.queuedRequestSlots then
      some (collect { s with queuedRequestSlots := s.queuedRequestSlots - command.requests.length } requests command)
    else some { s.change command.requests Request.dropSender with
      worker := .claiming false requests [] ⟨none, .shutdown, requests.length⟩ }
  | _, _ => none

/-- Claim the next request, or tell its caller that it is cancelled. -/
def claimNext : Option (State ρ) :=
  match s.worker with
  | .claiming single (id :: remaining) claimed afterwards =>
    match claimExecution (s.requests id).word with
    | (true, word) => some { s.change [id] fun request => { request with word } with
        worker := .claiming single remaining (claimed ++ [id]) afterwards }
    | (false, _) => some { s.change [id] fun request => { request with response := .sent .cancelled } with
        worker := .claiming single remaining claimed afterwards }
  | _ => none

def allClaimed : Option (State ρ) :=
  match s.worker with
  | .claiming single [] claimed afterwards =>
    some { s with worker :=
      if claimed = [] then .delivering false [] true afterwards else .executing single claimed afterwards }
  | _ => none

/-- The answers of an execution, whether the worker goes on, and whether the database was called. -/
def executionAnswers (single : Bool) (claimed : List RequestId) :
    Execution ρ → Option (List (RequestId × Answer ρ) × Bool × Bool)
  | .denied report => some (claimed.map fun id => (id, .reported report), true, false)
  | .single report requestLocal =>
    if single then some (claimed.map fun id => (id, .reported report), requestLocal, true) else none
  | .group report =>
    -- the outcomes come in the order of the batches
    if !single then some (List.zipWith (fun id report => (id, .reported report)) claimed (claimed.map report), true,
      true)
    else none
  | .groupFailed report => if !single then some (claimed.map fun id => (id, .reported report), false, true) else none

/-- Note what the execution of each claimed request came to. -/
def noteReports (claimed : List RequestId) (called : Bool) (report : RequestId → Answer ρ) : State ρ :=
  { s with requests := fun id =>
    if id ∈ claimed then { s.requests id with
      report := some (report id), executions := (s.requests id).executions + if called then 1 else 0 }
    else s.requests id }

def execute (execution : Execution ρ) : Option (State ρ) :=
  match s.worker with
  | .executing single claimed afterwards =>
    if s.database then
      (executionAnswers single claimed execution).map fun (answers, completed, called) =>
        { noteReports s claimed called fun id => .reported (execution.report id) with
          worker := .delivering false answers completed afterwards }
    else
      let answers := claimed.map fun id => (id, .unavailable)
      some { noteReports s claimed false fun _ => .unavailable with
        worker := .delivering false answers false afterwards }
  | _ => none

/-- Mark the next request completed, then send its answer. -/
def deliver : Option (State ρ) :=
  match s.worker with
  | .delivering false ((id, answer) :: answers) completed afterwards =>
    some { s.change [id] fun request => { request with word := .completed } with
      worker := .delivering true ((id, answer) :: answers) completed afterwards }
  | .delivering true ((id, answer) :: answers) completed afterwards =>
    some { s.change [id] fun request => { request with response := .sent answer } with
      worker := .delivering false answers completed afterwards }
  | _ => none

/-- Back to the head of the loop, or out of it. -/
def finish (due : Bool) : Option (State ρ) :=
  match s.worker with
  | .delivering _ [] completed afterwards =>
    if completed then
      let s := { s with foregroundAfterDue := s.foregroundAfterDue + if due then afterwards.count else 0 }
      match afterwards.termination with
      | .running => some { s with worker := .idle afterwards.pending }
      | .returnDatabase => some { s with worker := .stopping afterwards.pending true }
      | .shutdown | .failed => some { s with worker := .stopping afterwards.pending false }
    else some { s with worker := .stopping afterwards.pending false }
  | _ => none

def workerStep : WorkerAction ρ → Option (State ρ)
  | .sweep succeeds => activeExpiry config s succeeds
  | .takePending sweep =>
    match s.worker with
    | .idle (some command) => dispatch config s command sweep
    | _ => none
  | .receive => receiveCommand config s
  | .release sweep => releaseDequeuedRequestSlots config s sweep
  | .timeout =>
    match s.worker with
    | .collecting requests => some { s with worker := .claiming false requests [] ⟨none, .running, requests.length⟩ }
    | _ => none
  | .claim => claimNext s
  | .claimed => allClaimed s
  | .execute execution => execute s execution
  | .deliver => deliver s
  | .finish due => finish s due
  | .stop =>
    match s.worker, s.lock with
    | .stopping pending retainDatabase, none =>
      some { s with accepting := false, worker := .closing pending retainDatabase }
    | _, _ => none
  | .close =>
    match s.worker with
    | .closing pending retainDatabase =>
      some { s.change (pendingRequests pending ++ s.channel.flatMap SchedulerCommand.requests) Request.dropSender with
        worker := .closed, database := retainDatabase }
    | _ => none

end Work

inductive Action (ρ : Type)
  | client (action : ClientAction)
  | worker (action : WorkerAction ρ)

def Action.isWorker : Action ρ → Bool
  | .client _ => false
  | .worker _ => true

def step (config : GroupCommitConfig) (s : State ρ) : Action ρ → Option (State ρ)
  | .client action => clientStep config s action
  | .worker action => workerStep config s action

/-- The states that interleavings of callers and the worker reach. -/
def Reachable (config : GroupCommitConfig) (s : State ρ) : Prop := Reaches (step config) State.start s

end Hyphae.Scheduler
