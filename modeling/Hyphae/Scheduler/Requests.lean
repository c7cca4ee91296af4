import Mathlib

/-!
# One request and its caller

A request is owned through its control word: a cancellation and the worker's claim
are compare-and-swaps on it, and only one of them wins while the word says queued.
The answer travels through a response channel of one place. What is here concerns one
request alone: what its caller and its cancellation handles can do to it.
-/

namespace Hyphae.Scheduler

/-- The control word of a request. -/
inductive ControlWord
  | queued | executing | completed | cancelled
  deriving DecidableEq, Repr

inductive CommitCancellationOutcome
  | cancelled | tooLate | completed
  deriving DecidableEq, Repr

/-- What a caller is told. A report is what the execution of its own request came to. -/
inductive Answer (ρ : Type)
  | reported (report : ρ)
  | unavailable | saturated | deadlineExceeded | cancelled

/-- The response channel: nothing yet, a message, or a sender dropped without one. -/
inductive Response (ρ : Type)
  | empty
  | sent (answer : Answer ρ)
  | closed

abbrev RequestId := Nat

/-- Where the caller of a request is. -/
inductive Caller (ρ : Type)
  /-- The request is not submitted yet. -/
  | unsubmitted
  /-- At the control word, then at the queue deadline, then at the gate. -/
  | checking | checked | submitting
  /-- At the gate with the members of an explicit cohort. -/
  | joining (members : List RequestId)
  /-- Behind the send, with the lock of the gate. -/
  | counting
  /-- With the handle in hand, waiting on it, or blocked on the response. -/
  | holding | waiting | receiving
  | returned (answer : Answer ρ)
  | gone

/-- The caller has not sent the request. -/
def Caller.unsent {ρ : Type} : Caller ρ → Bool
  | .unsubmitted | .checking | .checked | .submitting | .joining _ => true
  | _ => false

/-- A request. The last three fields are history: whether it was sent, how often its batch was handed to the database,
and what its execution came to. -/
structure Request (ρ : Type) where
  group : Bool
  pollCancellation : Bool
  immediate : Bool
  queueDeadline : Bool
  word : ControlWord
  response : Response ρ
  caller : Caller ρ
  sent : Bool
  executions : Nat
  report : Option (Answer ρ)

section Control

variable {ρ : Type}

/-- The worker takes a queued request. -/
def claimExecution : ControlWord → Bool × ControlWord
  | .queued => (true, .executing)
  | word => (false, word)

def cancelState : ControlWord → CommitCancellationOutcome × ControlWord
  | .queued | .cancelled => (.cancelled, .cancelled)
  | .completed => (.completed, .completed)
  | .executing => (.tooLate, .executing)

/-- What a submission reads in the control word; nothing if it may go on. -/
def checkQueuedControl : ControlWord → Option (Answer ρ)
  | .cancelled => some .cancelled
  | .executing | .completed => some .unavailable
  | .queued => none

/-- A submission whose queue deadline has passed. -/
def expireSubmission : ControlWord → Answer ρ × ControlWord
  | .queued => (.deadlineExceeded, .cancelled)
  | .cancelled => (.cancelled, .cancelled)
  | word => (.unavailable, word)

/-- A wait whose queue deadline has passed; without an answer it goes on to receive. -/
def expireWait : ControlWord → Option (Answer ρ) × ControlWord
  | .queued => (some .deadlineExceeded, .cancelled)
  | .cancelled => (some .cancelled, .cancelled)
  | word => (none, word)

/-- What a receive on the response channel returns, if it returns. -/
def Response.receive : Response ρ → Option (Answer ρ)
  | .empty => none
  | .sent answer => some answer
  | .closed => some .unavailable

end Control

/-- What a caller, or a holder of its cancellation capability, does to one request. -/
inductive Act
  | submit (group pollCancellation immediate queueDeadline : Bool)
  | checkControl
  | checkDeadline (passed : Bool)
  | cancel
  | dropHandle
  | wait
  | pollControl
  | pollDeadline
  | receive

variable {ρ : Type}

/-- One act on a request; none if the caller is elsewhere or blocked. -/
def Request.act (request : Request ρ) : Act → Option (Request ρ)
  | .submit group pollCancellation immediate queueDeadline =>
    match request.caller with
    | .unsubmitted => some { request with group, pollCancellation, immediate, queueDeadline, caller := .checking }
    | _ => none
  | .checkControl =>
    match request.caller with
    | .checking =>
      match checkQueuedControl request.word with
      | some answer => some { request with caller := .returned answer }
      | none => some { request with caller := .checked }
    | _ => none
  | .checkDeadline passed =>
    match request.caller with
    | .checked =>
      if passed && request.queueDeadline then
        some { request with
          word := (expireSubmission (ρ := ρ) request.word).2, caller := .returned (expireSubmission request.word).1 }
      else some { request with caller := .submitting }
    | _ => none
  | .cancel => some { request with word := (cancelState request.word).2 }
  | .dropHandle =>
    match request.caller with
    | .holding => some { request with word := (cancelState request.word).2, caller := .gone }
    | _ => none
  | .wait =>
    match request.caller with
    | .holding => some { request with caller := .waiting }
    | _ => none
  | .pollControl =>
    match request.caller, request.pollCancellation, request.word with
    | .waiting, true, .cancelled => some { request with caller := .returned .cancelled }
    | _, _, _ => none
  | .pollDeadline =>
    match request.caller, request.pollCancellation && request.queueDeadline with
    | .waiting, true =>
      match expireWait (ρ := ρ) request.word with
      | (some answer, word) => some { request with word, caller := .returned answer }
      | (none, _) => some { request with caller := .receiving }
    | _, _ => none
  | .receive =>
    match request.caller, request.response.receive with
    | .waiting, some answer | .receiving, some answer => some { request with caller := .returned answer }
    | _, _ => none

/-! ## Stages of a request -/

/-- How far a request has come. -/
inductive Stage (ρ : Type)
  /-- Not sent; sent and not claimed; sent and given back unclaimed. -/
  | unsent | queued | dropped
  /-- Claimed; executed; told so. -/
  | claimed | executed (report : ρ) | answered (report : ρ)

/-- The request was withdrawn before it was claimed, and its caller is told so. -/
def Withdrawn (word : ControlWord) (answer : Answer ρ) : Prop :=
  word = .cancelled ∧ (answer = .cancelled ∨ answer = .deadlineExceeded)

namespace Stage

def sent : Stage ρ → Bool
  | .unsent => false
  | _ => true

/-- The control words of a stage. -/
def Allows : Stage ρ → ControlWord → Prop
  | .unsent, word | .queued, word | .dropped, word => word = .queued ∨ word = .cancelled
  | .claimed, word => word = .executing
  | .executed _, word => word = .executing ∨ word = .completed
  | .answered _, word => word = .completed

def report : Stage ρ → Option (Answer ρ)
  | .executed report | .answered report => some (.reported report)
  | _ => none

/-- What the response channel holds at a stage. -/
def Responds : Stage ρ → ControlWord → Response ρ → Prop
  | .dropped, word, response => response = .closed ∨ (response = .sent .cancelled ∧ word = .cancelled)
  | .answered report, _, response => response = .sent (.reported report)
  | _, _, response => response = .empty

/-- What a caller may have been told at a stage. -/
def Tells : Stage ρ → ControlWord → Answer ρ → Prop
  | .unsent, word, answer => answer = .unavailable ∨ answer = .saturated ∨ Withdrawn word answer
  | .queued, word, answer => Withdrawn word answer
  | .dropped, word, answer => answer = .unavailable ∨ Withdrawn word answer
  | .answered report, _, answer => answer = .reported report
  | _, _, _ => False

end Stage

/-- The request is at the stage. -/
structure Request.At (request : Request ρ) (stage : Stage ρ) : Prop where
  sent : request.sent = stage.sent
  unsent : request.caller.unsent = true → stage = .unsent
  word : stage.Allows request.word
  executions : request.executions ≤ if stage.report.isSome then 1 else 0
  report : request.report = stage.report
  response : stage.Responds request.word request.response
  told : ∀ answer, request.caller = .returned answer → stage.Tells request.word answer

/-- The two records differ in the control word, the caller and what the submission asked for. -/
structure Request.SameHistory (request after : Request ρ) : Prop where
  sent : after.sent = request.sent
  executions : after.executions = request.executions
  report : after.report = request.report
  response : after.response = request.response

/-- The word stays, or a queued request is withdrawn. -/
def Withdraws (word after : ControlWord) : Prop := after = word ∨ (word = .queued ∧ after = .cancelled)

/-- What an act does: it may withdraw a queued request, and it may tell the caller something. -/
structure Request.ActEffect (request after : Request ρ) : Prop where
  history : request.SameHistory after
  word : Withdraws request.word after.word
  unsent : after.caller.unsent = true → request.caller.unsent = true
  told : ∀ answer, after.caller = .returned answer → request.caller = .returned answer ∨ Withdrawn after.word answer ∨
    (request.caller.unsent = true ∧ answer = .unavailable) ∨
    (request.caller.unsent = false ∧ request.response.receive = some answer)

theorem Request.ActEffect.quiet {request after : Request ρ} (history : request.SameHistory after)
    (word : Withdraws request.word after.word) (unsent : after.caller.unsent = true → request.caller.unsent = true)
    (hquiet : ∀ answer, after.caller ≠ .returned answer) : request.ActEffect after :=
  ⟨history, word, unsent, fun answer h => absurd h (hquiet answer)⟩

theorem Request.ActEffect.tells {request after : Request ρ} (answer : Answer ρ) (history : request.SameHistory after)
    (word : Withdraws request.word after.word) (hcaller : after.caller = .returned answer)
    (htold : Withdrawn after.word answer ∨ (request.caller.unsent = true ∧ answer = .unavailable) ∨
      (request.caller.unsent = false ∧ request.response.receive = some answer)) : request.ActEffect after where
  history := history
  word := word
  unsent := by
    rw [hcaller]
    simp [Caller.unsent]
  told := by
    intro other hother
    rw [hcaller] at hother
    cases hother
    exact .inr htold

theorem cancelState_withdraws (word : ControlWord) : Withdraws word (cancelState word).2 := by
  cases word <;> simp [Withdraws, cancelState]

/-- The answers of an expired submission. -/
theorem expireSubmission_told (word : ControlWord) :
    Withdraws word (expireSubmission (ρ := ρ) word).2 ∧
      (Withdrawn (expireSubmission (ρ := ρ) word).2 (expireSubmission (ρ := ρ) word).1 ∨
        (expireSubmission (ρ := ρ) word).1 = .unavailable) := by
  cases word <;> simp [Withdraws, Withdrawn, expireSubmission]

theorem Request.act_effect {request after : Request ρ} {act : Act} (h : request.act act = some after) :
    request.ActEffect after := by
  -- an act of the caller touches the word and the caller, never what the worker has recorded
  have hhistory : ∀ (group poll immediate deadline : Bool) (word : ControlWord) (caller : Caller ρ),
      request.SameHistory ⟨group, poll, immediate, deadline, word, request.response, caller, request.sent,
        request.executions, request.report⟩ := fun _ _ _ _ _ _ => ⟨rfl, rfl, rfl, rfl⟩
  cases act with
  | submit group poll immediate deadline =>
    rw [Request.act] at h
    split at h
    next hcaller =>
      cases h
      exact .quiet (hhistory _ _ _ _ _ _) (.inl rfl) (by simp [hcaller, Caller.unsent]) (by simp)
    next => cases h
  | checkControl =>
    rw [Request.act] at h
    split at h
    next hcaller =>
      have hunsent : request.caller.unsent = true := by rw [hcaller]; rfl
      split at h
      next answer hcheck =>
        -- only a word that is no longer queued is answered on the spot
        cases h
        refine .tells answer (hhistory _ _ _ _ _ _) (.inl rfl) rfl ?_
        cases hword : request.word with
        | queued => rw [hword] at hcheck; cases hcheck
        | cancelled =>
          rw [hword] at hcheck
          cases hcheck
          exact .inl ⟨rfl, .inl rfl⟩
        | executing | completed =>
          rw [hword] at hcheck
          cases hcheck
          exact .inr (.inl ⟨hunsent, rfl⟩)
      next =>
        cases h
        exact .quiet (hhistory _ _ _ _ _ _) (.inl rfl) (fun _ => hunsent) (by simp)
    next => cases h
  | checkDeadline passed =>
    rw [Request.act] at h
    split at h
    next hcaller =>
      have hunsent : request.caller.unsent = true := by rw [hcaller]; rfl
      split at h
      next =>
        cases h
        obtain ⟨hword, htold⟩ := expireSubmission_told (ρ := ρ) request.word
        refine .tells _ (hhistory _ _ _ _ _ _) hword rfl ?_
        rcases htold with hwithdrawn | hunavailable
        · exact .inl hwithdrawn
        · exact .inr (.inl ⟨hunsent, hunavailable⟩)
      next =>
        cases h
        exact .quiet (hhistory _ _ _ _ _ _) (.inl rfl) (fun _ => hunsent) (by simp)
    next => cases h
  | cancel =>
    cases h
    exact ⟨hhistory _ _ _ _ _ _, cancelState_withdraws _, fun h => h, fun _ h => .inl h⟩
  | dropHandle =>
    rw [Request.act] at h
    split at h
    next =>
      cases h
      exact .quiet (hhistory _ _ _ _ _ _) (cancelState_withdraws _) (by simp [Caller.unsent]) (by simp)
    next => cases h
  | wait =>
    rw [Request.act] at h
    split at h
    next =>
      cases h
      exact .quiet (hhistory _ _ _ _ _ _) (.inl rfl) (by simp [Caller.unsent]) (by simp)
    next => cases h
  | pollControl =>
    rw [Request.act] at h
    split at h
    next hword =>
      cases h
      exact .tells _ (hhistory _ _ _ _ _ _) (.inl rfl) rfl (.inl ⟨hword, .inl rfl⟩)
    next => cases h
  | pollDeadline =>
    rw [Request.act] at h
    split at h
    next =>
      -- the deadline withdraws a queued request and lets one in execution run on
      cases hword : request.word with
      | queued =>
        rw [hword] at h
        cases h
        exact .tells _ (hhistory _ _ _ _ _ _) (.inr ⟨hword, rfl⟩) rfl (.inl ⟨rfl, .inr rfl⟩)
      | cancelled =>
        rw [hword] at h
        cases h
        exact .tells _ (hhistory _ _ _ _ _ _) (.inl hword.symm) rfl (.inl ⟨rfl, .inl rfl⟩)
      | executing | completed =>
        rw [hword] at h
        cases h
        exact .quiet (hhistory _ _ _ _ _ _) (.inl hword.symm) (by simp [Caller.unsent]) (by simp)
    next => cases h
  | receive =>
    rw [Request.act] at h
    split at h
    iterate 2
      next answer hcaller hreceive =>
        cases h
        exact .tells _ (hhistory _ _ _ _ _ _) (.inl rfl) rfl (.inr (.inr ⟨by rw [hcaller]; rfl, hreceive⟩))
    next => cases h

/-- A caller at the gate with a cohort is moved by no act. -/
theorem Request.act_joining {request after : Request ρ} {act : Act} (h : request.act act = some after)
    (ids : List RequestId) : after.caller = .joining ids ↔ request.caller = .joining ids := by
  cases act <;> rw [Request.act] at h
  case cancel => cases h; rfl
  all_goals
    split at h <;> try split at h
    all_goals cases h
    all_goals simp_all

variable {stage : Stage ρ}

theorem Stage.Allows.withdraw {word after : ControlWord} (h : stage.Allows word) (hword : Withdraws word after) :
    stage.Allows after := by
  rcases hword with rfl | ⟨rfl, rfl⟩
  · exact h
  · cases stage <;> simp [Stage.Allows] at h ⊢

theorem Stage.Responds.withdraw {word after : ControlWord} {response : Response ρ} (h : stage.Responds word response)
    (hword : Withdraws word after) : stage.Responds after response := by
  rcases hword with rfl | ⟨rfl, rfl⟩
  · exact h
  · cases stage <;> simp_all [Stage.Responds]

theorem Stage.Tells.withdraw {word after : ControlWord} {answer : Answer ρ} (h : stage.Tells word answer)
    (hword : Withdraws word after) : stage.Tells after answer := by
  rcases hword with rfl | ⟨rfl, rfl⟩
  · exact h
  · cases stage with
    | unsent => exact h.imp_right fun h => h.imp_right fun h => ⟨rfl, h.2⟩
    | queued => exact ⟨rfl, h.2⟩
    | dropped => exact h.imp_right fun h => ⟨rfl, h.2⟩
    | claimed | executed | answered => exact h

/-- What the response channel hands over is what the stage may tell. -/
theorem Request.At.receives {request : Request ρ} {answer : Answer ρ} (h : request.At stage)
    (hreceived : request.response.receive = some answer) : stage.Tells request.word answer := by
  have hresponds := h.response
  cases hresponse : request.response with
  | empty =>
    rw [hresponse] at hreceived
    cases hreceived
  | sent message =>
    rw [hresponse] at hreceived hresponds
    cases hreceived
    cases stage <;> simp_all [Stage.Responds, Stage.Tells, Withdrawn]
  | closed =>
    rw [hresponse] at hreceived hresponds
    cases hreceived
    cases stage <;> simp_all [Stage.Responds, Stage.Tells]

/-- Nothing a caller or a canceller does moves a request to another stage. -/
theorem Request.At.act {request after : Request ρ} (h : request.At stage) {act : Act}
    (hact : request.act act = some after) : after.At stage := by
  obtain ⟨⟨hsent, hexecutions, hreport, hresponse⟩, hword, hunsent, htold⟩ := Request.act_effect hact
  refine ⟨hsent.trans h.sent, fun hbefore => h.unsent (hunsent hbefore), h.word.withdraw hword, ?_,
    hreport.trans h.report, ?_, ?_⟩
  · rw [hexecutions]
    exact h.executions
  · rw [hresponse]
    exact h.response.withdraw hword
  · intro answer hanswer
    rcases htold answer hanswer with hold | hwithdrawn | ⟨hbefore, rfl⟩ | ⟨-, hreceived⟩
    · exact (h.told answer hold).withdraw hword
    · -- a withdrawn request is not claimed
      have hallowed := h.word.withdraw hword
      have hcancelled := hwithdrawn.1
      cases stage <;> simp_all [Stage.Allows, Stage.Tells]
    · rw [h.unsent hbefore]
      exact .inl rfl
    · exact (h.receives hreceived).withdraw hword

/-! ## Changes of stage -/

section Changes

variable {request : Request ρ} {report : ρ}

theorem Request.At.caller_sent (h : request.At stage) (hstage : stage.sent = true) {after : Stage ρ}
    (hunsent : request.caller.unsent = true) : after = .unsent := by
  rw [h.unsent hunsent] at hstage
  cases hstage

/-- The send. -/
theorem Request.At.send (h : request.At .unsent) :
    ({ request with caller := .counting, sent := true } : Request ρ).At .queued :=
  { h with
    sent := rfl
    unsent := by simp [Caller.unsent]
    told := by simp }

/-- The sender of the response is dropped. -/
theorem Request.At.drop (h : request.At .queued) : ({ request with response := .closed } : Request ρ).At .dropped :=
  { h with
    unsent := h.caller_sent rfl
    response := .inl rfl
    told := fun answer htold => .inr (h.told answer htold) }

/-- The claim wins. -/
theorem Request.At.claim (h : request.At .queued) (hword : request.word = .queued) :
    ({ request with word := .executing } : Request ρ).At .claimed := by
  refine { h with unsent := h.caller_sent rfl, word := rfl, told := ?_ }
  intro answer htold
  -- whoever was told something has withdrawn the request
  have hcancelled := (h.told answer htold).1
  rw [hword] at hcancelled
  cases hcancelled

/-- The claim finds the request cancelled. -/
theorem Request.At.cancelled (h : request.At .queued) (hword : request.word ≠ .queued) :
    ({ request with response := .sent .cancelled } : Request ρ).At .dropped :=
  { h with
    unsent := h.caller_sent rfl
    response := .inr ⟨rfl, h.word.resolve_left hword⟩
    told := fun answer htold => .inr (h.told answer htold) }

/-- The execution came to something. -/
theorem Request.At.execute (h : request.At .claimed) (report : ρ) (called : Bool) :
    ({ request with
      report := some (.reported report),
      executions := request.executions + if called then 1 else 0 } : Request ρ).At (.executed report) := by
  refine { h with unsent := h.caller_sent rfl, word := .inl h.word, executions := ?_, report := rfl }
  have hzero : request.executions ≤ 0 := h.executions
  simp only [Stage.report, Option.isSome_some, if_true]
  split <;> omega

theorem Request.At.complete (h : request.At (.executed report)) :
    ({ request with word := .completed } : Request ρ).At (.executed report) :=
  { h with word := .inr rfl }

/-- The answer is sent. -/
theorem Request.At.answer (h : request.At (.executed report)) (hword : request.word = .completed) :
    ({ request with response := .sent (.reported report) } : Request ρ).At (.answered report) :=
  { h with
    unsent := h.caller_sent rfl
    word := hword
    response := rfl
    told := fun answer htold => (h.told answer htold).elim }

end Changes

end Hyphae.Scheduler
