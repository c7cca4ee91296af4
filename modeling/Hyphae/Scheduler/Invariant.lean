import Hyphae.Scheduler.Model

/-!
# Every request is in one place

A sent request is in the channel, with the worker, or given back; where it is decides
which of its stages it is at. The slots of the gate are those of the commands in the
channel and of the one command that the worker has received and not released.
-/

namespace Hyphae.Scheduler

open List Option

open State Worker
open Prod (fst)

variable {ρ : Type} {config : GroupCommitConfig} {s : State ρ}

variable {ids : List RequestId} {f : Request ρ → Request ρ} {id : RequestId} {after : State ρ} {called : Bool}
  {execution : Execution ρ} {worker next : Worker ρ} {caller : Caller ρ}

/-! ## Places -/

namespace Worker

/-- Requests with the worker that it has not come to claim. -/
def unclaimed : Worker ρ → List RequestId
  | .idle pending | .stopping pending _ | .closing pending _ => pendingRequests pending
  | .received command => command.requests
  | .collecting requests => requests
  | .collected requests command => requests ++ command.requests
  | .claiming _ remaining _ afterwards => remaining ++ pendingRequests afterwards.pending
  | .executing _ _ afterwards | .delivering _ _ _ afterwards => pendingRequests afterwards.pending
  | .closed => []

/-- Requests that it has claimed. -/
def claimed : Worker ρ → List RequestId
  | .claiming _ _ claimed _ | .executing _ claimed _ => claimed
  | _ => []

/-- Requests that it has executed, with their answers. -/
def answers : Worker ρ → List (RequestId × Answer ρ)
  | .delivering _ answers _ _ => answers
  | _ => []

/-- Slots of a received command that are not released. -/
def unreleased : Worker ρ → Nat
  | .received command | .collected _ command => command.requests.length
  | _ => 0

end Worker

/-- Requests in the channel, as long as somebody receives. -/
def State.queue (s : State ρ) : List RequestId :=
  if s.disconnected then [] else s.channel.flatMap SchedulerCommand.requests

/-- Requests in the channel or with the worker and not claimed. -/
def State.waiting (s : State ρ) : List RequestId := s.worker.unclaimed ++ s.queue

/-- Requests that are sent and not answered. -/
def State.held (s : State ρ) : List RequestId :=
  s.worker.claimed ++ s.worker.answers.map Prod.fst ++ s.waiting

/-- The slots of requests that were sent and not taken by the worker. -/
def State.untaken (s : State ρ) : Nat :=
  (s.channel.flatMap SchedulerCommand.requests).length + s.worker.unreleased

/-- Slots that the holder of the lock is about to count. -/
def State.owed (s : State ρ) : Nat := (s.lock.map List.length).getD 0

/-- A request that is in nobody's hands is not sent, given back, or answered. -/
def Request.Outside (request : Request ρ) : Prop :=
  request.At .unsent ∨ request.At .dropped ∨ ∃ report, request.At (.answered report)

structure Inv (config : GroupCommitConfig) (s : State ρ) : Prop where
  nodup : s.held.Nodup
  queued : ∀ id ∈ s.waiting, (s.requests id).At .queued
  claimed : ∀ id ∈ s.worker.claimed, (s.requests id).At .claimed
  executed : ∀ entry ∈ s.worker.answers, ∃ report, entry.2 = .reported report ∧
    (s.requests entry.1).At (.executed report)
  outside : ∀ id ∉ s.held, (s.requests id).Outside
  marked : ∀ entry answers completed afterwards, s.worker = .delivering true (entry :: answers) completed afterwards →
    (s.requests entry.1).word = .completed
  joins : ∀ id ids, (s.requests id).caller = .joining ids → id ∈ ids ∧ ids.Nodup ∧
    ids.length ≤ config.maxBatchSize ∧ ∀ member ∈ ids, (s.requests member).caller = .joining ids
  locked : ∀ ids, s.lock = some ids → ∀ id ∈ ids, (s.requests id).sent = true
  slots : s.queuedRequestSlots + s.owed = s.untaken
  bound : s.queuedRequestSlots + s.owed ≤ config.queueCapacity
  database : s.disconnected = false → s.database = true

theorem inv_start : Inv config (start : State ρ) where
  nodup := .nil
  queued := by simp [waiting, start, unclaimed, pendingRequests, queue, disconnected]
  claimed := by simp [start, claimed]
  executed := by simp [start, answers]
  outside := by
    intro id _
    left
    exact ⟨rfl, fun _ => rfl, .inl rfl, Nat.le_refl _, rfl, rfl, fun _ h => by cases h⟩
  marked := by simp [start]
  joins := by simp [start, Request.fresh]
  locked := by simp [start]
  slots := rfl
  bound := Nat.zero_le _
  database := fun _ => rfl

/-! ## Steps that change requests where they are -/

/-- What a step that moves no request may do to the requests. -/
structure Keeps (config : GroupCommitConfig) (s : State ρ) (requests : RequestId → Request ρ) : Prop where
  stage : ∀ id stage, (s.requests id).At stage → (requests id).At stage
  word : ∀ id, (s.requests id).word = .completed → (requests id).word = .completed
  joins : ∀ id ids, (requests id).caller = .joining ids → id ∈ ids ∧ ids.Nodup ∧
    ids.length ≤ config.maxBatchSize ∧ ∀ member ∈ ids, (requests member).caller = .joining ids

theorem Request.Outside.of_stage {request after : Request ρ} (h : request.Outside)
    (hstage : ∀ stage, request.At stage → after.At stage) : after.Outside := by
  rcases h with hunsent | hdropped | ⟨report, hanswered⟩
  · exact .inl (hstage _ hunsent)
  · exact .inr (.inl (hstage _ hdropped))
  · exact .inr (.inr ⟨report, hstage _ hanswered⟩)

/-- A request in hand waits, is claimed, or is executed. -/
theorem Inv.held_at (h : Inv config s) (hid : id ∈ s.held) : (s.requests id).At .queued ∨
    (s.requests id).At .claimed ∨ ∃ report, (s.requests id).At (.executed report) := by
  simp only [held, mem_append, List.mem_map] at hid
  rcases hid with (hclaimed | ⟨entry, hentry, rfl⟩) | hwaiting
  · exact .inr (.inl (h.claimed id hclaimed))
  · obtain ⟨report, -, hat⟩ := h.executed entry hentry
    exact .inr (.inr ⟨report, hat⟩)
  · exact .inl (h.queued id hwaiting)

/-- Every request is at some stage. -/
theorem Inv.at (h : Inv config s) (id : RequestId) : ∃ stage, (s.requests id).At stage := by
  by_cases hid : id ∈ s.held
  · rcases h.held_at hid with hat | hat | ⟨report, hat⟩ <;> exact ⟨_, hat⟩
  · rcases h.outside id hid with hat | hat | ⟨report, hat⟩ <;> exact ⟨_, hat⟩

theorem Inv.keeps (h : Inv config s) {requests : RequestId → Request ρ} (hkeeps : Keeps config s requests) :
    Inv config { s with requests } where
  nodup := h.nodup
  queued id hid := hkeeps.stage id _ (h.queued id hid)
  claimed id hid := hkeeps.stage id _ (h.claimed id hid)
  executed entry hentry := by
    obtain ⟨report, hreport, hat⟩ := h.executed entry hentry
    exact ⟨report, hreport, hkeeps.stage _ _ hat⟩
  outside id hid := (h.outside id hid).of_stage (hkeeps.stage id)
  marked entry answers completed afterwards hworker :=
    hkeeps.word _ (h.marked entry answers completed afterwards hworker)
  joins := hkeeps.joins
  locked ids hlock id hid := by
    obtain ⟨stage, hat⟩ := h.at id
    have hsent := h.locked ids hlock id hid
    rw [hat.sent] at hsent
    exact (hkeeps.stage id stage hat).sent.trans hsent
  slots := h.slots
  bound := h.bound
  database := h.database

theorem change_of_mem (h : id ∈ ids) : (s.change ids f).requests id = f (s.requests id) := if_pos h

theorem change_of_not_mem (h : id ∉ ids) : (s.change ids f).requests id = s.requests id := if_neg h

/-- Some requests are changed where they are. -/
theorem Inv.change (h : Inv config s)
    (hstage : ∀ id ∈ ids, ∀ stage, (s.requests id).At stage → (f (s.requests id)).At stage)
    (hword : ∀ id ∈ ids, (s.requests id).word = .completed → (f (s.requests id)).word = .completed)
    (hjoins : ∀ id cohort, ((s.change ids f).requests id).caller = .joining cohort → id ∈ cohort ∧ cohort.Nodup ∧
      cohort.length ≤ config.maxBatchSize ∧
      ∀ member ∈ cohort, ((s.change ids f).requests member).caller = .joining cohort) :
    Inv config (s.change ids f) := by
  suffices hkeeps : Keeps config s (s.change ids f).requests from h.keeps hkeeps
  refine ⟨?_, ?_, hjoins⟩
  · intro id stage hat
    by_cases hid : id ∈ ids
    · rw [change_of_mem hid]
      exact hstage id hid stage hat
    · rwa [change_of_not_mem hid]
  · intro id hcompleted
    by_cases hid : id ∈ ids
    · rw [change_of_mem hid]
      exact hword id hid hcompleted
    · rwa [change_of_not_mem hid]

/-- An act of a caller or a canceller. -/
theorem Inv.act (h : Inv config s) {act : Act} {after : Request ρ} (hact : (s.requests id).act act = some after) :
    Inv config (s.change [id] fun _ => after) := by
  have hjoining : ∀ other ids, ((s.change [id] fun _ => after).requests other).caller = .joining ids ↔
      (s.requests other).caller = .joining ids := by
    intro other ids
    by_cases hid : other ∈ [id]
    · rw [change_of_mem hid, mem_singleton.mp hid]
      exact Request.act_joining hact ids
    · rw [change_of_not_mem hid]
  refine h.change ?_ ?_ ?_
  · intro other hid stage hat
    rw [mem_singleton.mp hid] at hat
    exact hat.act hact
  · intro other hid hword
    rw [mem_singleton.mp hid] at hword
    rcases (Request.act_effect hact).word with hsame | ⟨hqueued, -⟩
    · rw [hsame, hword]
    · rw [hword] at hqueued
      cases hqueued
  · intro other ids hcaller
    obtain ⟨hmem, hnodup, hlength, hmembers⟩ := h.joins other ids ((hjoining other ids).mp hcaller)
    exact ⟨hmem, hnodup, hlength, fun member hmember => (hjoining member ids).mpr (hmembers member hmember)⟩

/-- A caller that has not sent its request moves on. -/
theorem Request.At.move {request : Request ρ} {stage : Stage ρ} (h : request.At stage)
    (hunsent : request.caller.unsent = true) (group poll immediate deadline : Bool)
    (htold : ∀ answer, caller = .returned answer → answer = .unavailable ∨ answer = .saturated) :
    (⟨group, poll, immediate, deadline, request.word, request.response, caller, request.sent, request.executions,
      request.report⟩ : Request ρ).At stage := by
  have hstage := h.unsent hunsent
  refine { h with unsent := fun _ => hstage, told := ?_ }
  intro answer hanswer
  rw [hstage]
  rcases htold answer hanswer with rfl | rfl
  · exact .inl rfl
  · exact .inr (.inl rfl)

/-- Whoever is at the gate with one of these requests is one of them. -/
def Separate (s : State ρ) (ids : List RequestId) : Prop :=
  ∀ id cohort, (s.requests id).caller = .joining cohort → ∀ member ∈ cohort, member ∈ ids → id ∈ ids

section

variable (h : Inv config s)
include h

theorem separate_single (hcaller : (s.requests id).caller = .submitting) : Separate s [id] := by
  intro other cohort hjoining member hmember hid
  obtain rfl := mem_singleton.mp hid
  obtain ⟨-, -, -, hmembers⟩ := h.joins other cohort hjoining
  rw [hmembers member hmember] at hcaller
  cases hcaller

theorem separate_cohort (hcaller : (s.requests id).caller = .joining ids) : Separate s ids := by
  intro other cohort hjoining member hmember hid
  obtain ⟨hmem, -, -, hmembers⟩ := h.joins other cohort hjoining
  have hsame := (hmembers member hmember).symm.trans ((h.joins id ids hcaller).2.2.2 member hid)
  cases hsame
  exact hmem

/-- Cohorts at the gate stay together when separate requests leave it. -/
theorem Inv.joins_change (hseparate : Separate s ids)
    (hleave : ∀ id ∈ ids, ∀ cohort, (f (s.requests id)).caller ≠ .joining cohort) (id : RequestId)
    (cohort : List RequestId) (hcaller : ((s.change ids f).requests id).caller = .joining cohort) :
    id ∈ cohort ∧ cohort.Nodup ∧ cohort.length ≤ config.maxBatchSize ∧
      ∀ member ∈ cohort, ((s.change ids f).requests member).caller = .joining cohort := by
  by_cases hid : id ∈ ids
  · rw [change_of_mem hid] at hcaller
    exact absurd hcaller (hleave id hid cohort)
  · rw [change_of_not_mem hid] at hcaller
    obtain ⟨hmem, hnodup, hlength, hmembers⟩ := h.joins id cohort hcaller
    refine ⟨hmem, hnodup, hlength, ?_⟩
    intro member hmember
    rw [change_of_not_mem fun hin => hid (hseparate id cohort hcaller member hmember hin)]
    exact hmembers member hmember

/-- Callers at the gate are told something, or sent round again. -/
theorem Inv.redirect (hunsent : ∀ id ∈ ids, (s.requests id).caller.unsent = true) (hseparate : Separate s ids)
    (htold : ∀ answer, caller = .returned answer → answer = .unavailable ∨ answer = .saturated)
    (hleave : ∀ cohort, caller ≠ .joining cohort) :
    Inv config (s.change ids fun request => { request with caller }) :=
  h.change (fun id hid _ hat => hat.move (hunsent id hid) _ _ _ _ htold) (fun _ _ hword => hword)
    (h.joins_change hseparate fun _ _ => hleave)

theorem Inv.submitCohort (hstep : submitCohort config s ids = some after) : Inv config after := by
  unfold Scheduler.submitCohort at hstep
  split at hstep
  next hguard =>
    cases hstep
    obtain ⟨-, hlength, hnodup, hcallers⟩ := hguard
    have hunsubmitted : ∀ id ∈ ids, (s.requests id).caller = .unsubmitted := by
      intro id hid
      have := hcallers id hid
      split at this
      · assumption
      · cases this
    refine h.change ?_ (fun _ _ hword => hword) ?_
    · intro id hid stage hat
      exact hat.move (by rw [hunsubmitted id hid]; rfl) _ _ _ _ fun _ h => by cases h
    · intro id cohort hcaller
      by_cases hid : id ∈ ids
      · rw [change_of_mem hid] at hcaller
        cases hcaller
        exact ⟨hid, hnodup, hlength, fun member hmember => by rw [change_of_mem hmember]⟩
      · rw [change_of_not_mem hid] at hcaller
        obtain ⟨hmem, hcohort, hcount, hmembers⟩ := h.joins id cohort hcaller
        refine ⟨hmem, hcohort, hcount, ?_⟩
        intro member hmember
        -- a member of another cohort is at the gate already
        have hout : member ∉ ids := by
          intro hin
          have hclash := (hunsubmitted member hin).symm.trans (hmembers member hmember)
          cases hclash
        rw [change_of_not_mem hout]
        exact hmembers member hmember
  next => cases hstep

/-! ## Sending -/

/-- A request whose caller is still at the gate is in nobody's hands. -/
theorem Inv.unsent_of_caller (hunsent : (s.requests id).caller.unsent = true) :
    id ∉ s.held ∧ (s.requests id).At .unsent := by
  have hout : id ∉ s.held := by
    intro hid
    rcases h.held_at hid with hat | hat | ⟨report, hat⟩ <;> cases hat.unsent hunsent
  refine ⟨hout, ?_⟩
  rcases h.outside id hout with hat | hat | ⟨report, hat⟩
  · exact hat
  · cases hat.unsent hunsent
  · cases hat.unsent hunsent

theorem Inv.send {command : SchedulerCommand} (hlock : s.lock = none) (hconnected : s.disconnected = false)
    (hunsent : ∀ id ∈ command.requests, (s.requests id).caller.unsent = true) (hnodup : command.requests.Nodup)
    (hseparate : Separate s command.requests)
    (hroom : s.queuedRequestSlots + command.requests.length ≤ config.queueCapacity) : Inv config (s.send command) := by
  have hout : ∀ id ∈ command.requests, id ∉ s.held := fun id hid => (h.unsent_of_caller (hunsent id hid)).1
  have hconnected' : (s.send command).disconnected = false := hconnected
  have hwaiting : (s.send command).waiting = s.waiting ++ command.requests := by
    simp only [State.waiting, State.queue, hconnected', hconnected, Bool.false_eq_true, if_false]
    simp [State.send, State.change]
  have hheld : (s.send command).held = s.held ++ command.requests := by
    rw [State.held, hwaiting, State.held, ← append_assoc]
    rfl
  have hkept : ∀ id ∈ s.held, (s.send command).requests id = s.requests id := by
    intro id hid
    exact if_neg fun hin => hout id hin hid
  have hnew : ∀ id ∈ command.requests, ((s.send command).requests id).At .queued := by
    intro id hid
    have hrequest : (s.send command).requests id = { s.requests id with caller := .counting, sent := true } :=
      if_pos hid
    rw [hrequest]
    exact (h.unsent_of_caller (hunsent id hid)).2.send
  have howed : s.owed = 0 := by
    rw [State.owed, hlock]
    rfl
  -- nobody holds the lock, so every slot that is not yet released has been counted
  have hslots : s.queuedRequestSlots = s.untaken := by
    have := h.slots
    rwa [howed, Nat.add_zero] at this
  refine ⟨?_, ?_, ?_, ?_, ?_, ?_, ?_, ?_, ?_, hroom, fun _ => h.database hconnected⟩
  · rw [hheld, nodup_append]
    refine ⟨h.nodup, hnodup, ?_⟩
    rintro id hid other hother rfl
    exact hout id hother hid
  · intro id hid
    rw [hwaiting] at hid
    rcases mem_append.mp hid with hold | hin
    · rw [hkept id (mem_append_right _ hold)]
      exact h.queued id hold
    · exact hnew id hin
  · intro id hid
    rw [hkept id (mem_append_left _ (mem_append_left _ hid))]
    exact h.claimed id hid
  · intro entry hentry
    rw [hkept entry.1 (mem_append_left _ (mem_append_right _ (mem_map_of_mem hentry)))]
    exact h.executed entry hentry
  · intro id hid
    rw [hheld] at hid
    have hrequest : (s.send command).requests id = s.requests id := if_neg fun hin => hid (mem_append_right _ hin)
    rw [hrequest]
    exact h.outside id fun hin => hid (mem_append_left _ hin)
  · intro entry answers completed afterwards hworker
    have hentry : entry ∈ s.worker.answers := by
      have hsame : s.worker = .delivering true (entry :: answers) completed afterwards := hworker
      rw [hsame]
      exact mem_cons_self
    rw [hkept entry.1 (mem_append_left _ (mem_append_right _ (mem_map_of_mem hentry)))]
    exact h.marked entry answers completed afterwards hworker
  · exact h.joins_change (f := fun request => { request with caller := .counting, sent := true }) hseparate (by simp)
  · intro ids hids id hid
    cases hids
    exact (hnew id hid).sent
  · simp only [State.send, State.owed, State.untaken, State.change, map_some, getD_some,
      flatMap_append, flatMap_singleton, length_append]
    rw [hslots, State.untaken]
    omega

/-! ## Callers -/

/-- Requests that are alone at the gate. -/
structure AtGate (s : State ρ) (ids : List RequestId) : Prop where
  unsent : ∀ id ∈ ids, (s.requests id).caller.unsent = true
  nodup : ids.Nodup
  separate : Separate s ids

/-- What the gate does with requests: refuse them, let them try again, or send them. -/
inductive Admission (config : GroupCommitConfig) (s : State ρ) (ids : List RequestId) : State ρ → Prop
  | told (answer : Answer ρ) (h : answer = .unavailable ∨ answer = .saturated) :
    Admission config s ids (s.change ids (.tell answer))
  | again : Admission config s ids (s.change ids fun request => { request with caller := .checking })
  | full : Admission config s ids s
  | sent (command : SchedulerCommand) (hids : command.requests = ids) (hlock : s.lock = none)
    (hconnected : s.disconnected = false) (hroom : s.queuedRequestSlots + ids.length ≤ config.queueCapacity) :
    Admission config s ids (s.send command)

theorem admitCommand_admission (hstep : admitCommand config s id = some after) :
    AtGate s [id] ∧ Admission config s [id] after := by
  unfold admitCommand at hstep
  split at hstep
  next hcaller hlock =>
    refine ⟨⟨by simp [hcaller, Caller.unsent], nodup_singleton id, separate_single h hcaller⟩, ?_⟩
    have hfull : Admission config s [id] (s.saturate id) := by
      unfold saturate
      split
      · exact .told _ (.inr rfl)
      · exact .again
    split at hstep
    · cases hstep
      exact .told _ (.inl rfl)
    split at hstep
    · cases hstep
      exact hfull
    next hslots =>
    split at hstep
    · cases hstep
      exact .told _ (.inl rfl)
    next hconnected =>
    split at hstep <;> cases hstep
    · exact hfull
    · exact .sent _ rfl hlock (Bool.eq_false_iff.mpr hconnected) (Nat.lt_of_not_le hslots)
  next => cases hstep

theorem admitCohortCommand_admission (hstep : admitCohortCommand config s id = some after) :
    ∃ ids, AtGate s ids ∧ Admission config s ids after := by
  unfold admitCohortCommand at hstep
  split at hstep
  next ids hcaller hlock =>
    obtain ⟨-, hnodup, -, hmembers⟩ := h.joins id ids hcaller
    refine ⟨ids, ⟨fun member hmember => by rw [hmembers member hmember]; rfl, hnodup, separate_cohort h hcaller⟩, ?_⟩
    split at hstep
    · cases hstep
      exact .told _ (.inl rfl)
    split at hstep
    · cases hstep
      exact .full
    next hslots =>
    split at hstep
    · cases hstep
      exact .told _ (.inl rfl)
    next hconnected =>
    split at hstep <;> cases hstep
    · exact .full
    · exact .sent _ rfl hlock (Bool.eq_false_iff.mpr hconnected) (Nat.le_of_not_lt hslots)
  next => cases hstep

theorem Inv.admission (hgate : AtGate s ids) (hadmission : Admission config s ids after) : Inv config after := by
  cases hadmission with
  | told answer hanswer =>
    exact h.redirect hgate.unsent hgate.separate (fun _ htold => by cases htold; exact hanswer) (by simp)
  | again => exact h.redirect hgate.unsent hgate.separate (by simp) (by simp)
  | full => exact h
  | sent command hids hlock hconnected hroom =>
    subst hids
    exact h.send hlock hconnected hgate.unsent hgate.nodup hgate.separate hroom

/-- A step that changes no request and leaves every request in its place. -/
theorem Inv.moves (hrequests : after.requests = s.requests) (hwaiting : after.waiting = s.waiting)
    (hclaimed : after.worker.claimed = s.worker.claimed) (hanswers : after.worker.answers = s.worker.answers)
    (hmarked : ∀ entry answers completed afterwards,
      after.worker = .delivering true (entry :: answers) completed afterwards → (s.requests entry.1).word = .completed)
    (hlock : after.lock = s.lock) (hslots : after.queuedRequestSlots + s.untaken = s.queuedRequestSlots + after.untaken)
    (hbound : after.queuedRequestSlots ≤ s.queuedRequestSlots)
    (hdatabase : after.disconnected = false → after.database = true) : Inv config after := by
  have hheld : after.held = s.held := by rw [held, held, hwaiting, hclaimed, hanswers]
  have howed : after.owed = s.owed := by rw [owed, owed, hlock]
  have hbefore := h.slots
  have hlimit := h.bound
  refine ⟨hheld ▸ h.nodup, ?_, ?_, ?_, ?_, ?_, ?_, ?_, by omega, by omega, hdatabase⟩
  · rw [hwaiting, hrequests]
    exact h.queued
  · rw [hclaimed, hrequests]
    exact h.claimed
  · rw [hanswers, hrequests]
    exact h.executed
  · rw [hheld, hrequests]
    exact h.outside
  · rw [hrequests]
    exact hmarked
  · rw [hrequests]
    exact h.joins
  · rw [hlock, hrequests]
    exact h.locked

/-- The lock is let go of. -/
theorem Inv.countSlots (hstep : countSlots s = some after) : Inv config after := by
  unfold Scheduler.countSlots at hstep
  split at hstep
  next ids hlock =>
    cases hstep
    have hseparate : Separate s ids := by
      intro id cohort hcaller member hmember hin
      -- whoever is at the gate has sent nothing
      obtain ⟨-, -, -, hmembers⟩ := h.joins id cohort hcaller
      have hunsent : (s.requests member).caller.unsent = true := by rw [hmembers member hmember]; rfl
      have hat := (h.unsent_of_caller hunsent).2
      have hsent := h.locked ids hlock member hin
      rw [hat.sent] at hsent
      cases hsent
    have hkept : Inv config (s.change ids fun request => { request with caller := .holding }) := by
      refine h.change ?_ (fun _ _ hword => hword) (h.joins_change hseparate (by simp))
      intro id _ stage hat
      exact { hat with unsent := by simp [Caller.unsent], told := by simp }
    have howed : s.owed = ids.length := by
      rw [owed, hlock]
      rfl
    have hslots := h.slots
    have hbound := h.bound
    rw [howed] at hslots hbound
    exact { hkept with locked := by simp, slots := hslots, bound := hbound, database := h.database }
  next => cases hstep

theorem Inv.clientStep {action : ClientAction} (hstep : clientStep config s action = some after) :
    Inv config after := by
  cases action with
  | act id act =>
    obtain ⟨request, hact, rfl⟩ := map_eq_some_iff.mp hstep
    exact h.act hact
  | submitCohort ids => exact h.submitCohort hstep
  | admitCommand id =>
    obtain ⟨hgate, hadmission⟩ := admitCommand_admission h hstep
    exact h.admission hgate hadmission
  | admitCohortCommand id =>
    obtain ⟨ids, hgate, hadmission⟩ := admitCohortCommand_admission h hstep
    exact h.admission hgate hadmission
  | countSlots => exact h.countSlots hstep
  | stopAccepting returnDatabase =>
    simp only [Scheduler.clientStep, stopAccepting] at hstep
    split at hstep
    · cases hstep
      exact h.moves rfl rfl rfl rfl h.marked rfl rfl (Nat.le_refl _) h.database
    · cases hstep
  | sendShutdown =>
    simp only [Scheduler.clientStep, sendShutdown] at hstep
    split at hstep
    next returnDatabase hmarker =>
      split at hstep
      · cases hstep
        exact h.moves rfl rfl rfl rfl h.marked rfl rfl (Nat.le_refl _) h.database
      split at hstep
      · cases hstep
      cases hstep
      -- the marker is a command without requests
      have hrequests : (s.channel ++ [SchedulerCommand.shutdown returnDatabase]).flatMap SchedulerCommand.requests =
          s.channel.flatMap SchedulerCommand.requests := by
        simp [SchedulerCommand.requests]
      refine h.moves rfl ?_ rfl rfl h.marked rfl ?_ (Nat.le_refl _) h.database
      · simp only [waiting, queue, hrequests]
        rfl
      · simp only [untaken, hrequests]
    next => cases hstep

end

/-! ## The worker -/

theorem disconnected_of (h : s.worker = worker) (hopen : worker ≠ .closed) : s.disconnected = false := by
  unfold disconnected
  rw [h]
  cases worker <;> first | rfl | exact absurd rfl hopen

/-- A step of the worker that leaves the callers and the gate alone. -/
structure Advances (s after : State ρ) : Prop where
  caller : ∀ id, (after.requests id).caller = (s.requests id).caller
  sent : ∀ id, (after.requests id).sent = (s.requests id).sent
  lock : after.lock = s.lock
  slots : after.queuedRequestSlots = s.queuedRequestSlots
  untaken : after.untaken = s.untaken

theorem Advances.change (ids : List RequestId) (f : Request ρ → Request ρ)
    (hcaller : ∀ request, (f request).caller = request.caller) (hsent : ∀ request, (f request).sent = request.sent)
    (hrequests : after.requests = (s.change ids f).requests) (hlock : after.lock = s.lock)
    (hslots : after.queuedRequestSlots = s.queuedRequestSlots) (huntaken : after.untaken = s.untaken) :
    Advances s after := by
  refine ⟨?_, ?_, hlock, hslots, huntaken⟩
  · intro id
    rw [hrequests]
    by_cases hid : id ∈ ids
    · rw [change_of_mem hid, hcaller]
    · rw [change_of_not_mem hid]
  · intro id
    rw [hrequests]
    by_cases hid : id ∈ ids
    · rw [change_of_mem hid, hsent]
    · rw [change_of_not_mem hid]

theorem Inv.advance (h : Inv config s) (hadvances : Advances s after) (hnodup : after.held.Nodup)
    (hqueued : ∀ id ∈ after.waiting, (after.requests id).At .queued)
    (hclaimed : ∀ id ∈ after.worker.claimed, (after.requests id).At .claimed)
    (hexecuted : ∀ entry ∈ after.worker.answers, ∃ report, entry.2 = .reported report ∧
      (after.requests entry.1).At (.executed report))
    (houtside : ∀ id ∉ after.held, (after.requests id).Outside) (hmarked : ∀ entry answers completed afterwards,
      after.worker = .delivering true (entry :: answers) completed afterwards →
        (after.requests entry.1).word = .completed)
    (hdatabase : after.disconnected = false → after.database = true) : Inv config after := by
  have howed : after.owed = s.owed := by rw [owed, owed, hadvances.lock]
  refine ⟨hnodup, hqueued, hclaimed, hexecuted, houtside, hmarked, ?_, ?_, ?_, ?_, hdatabase⟩
  · intro id cohort hcaller
    rw [hadvances.caller] at hcaller
    obtain ⟨hmem, hcohort, hlength, hmembers⟩ := h.joins id cohort hcaller
    refine ⟨hmem, hcohort, hlength, ?_⟩
    intro member hmember
    rw [hadvances.caller]
    exact hmembers member hmember
  · intro ids hlock id hid
    rw [hadvances.lock] at hlock
    rw [hadvances.sent]
    exact h.locked ids hlock id hid
  · rw [hadvances.slots, howed, hadvances.untaken]
    exact h.slots
  · rw [hadvances.slots, howed]
    exact h.bound

/-- Requests that nobody has claimed are given back. -/
theorem Inv.drop (h : Inv config s) (ids : List RequestId)
    (hrequests : after.requests = (s.change ids Request.dropSender).requests)
    (hdropped : s.waiting = ids ++ after.waiting) (hclaimed : s.worker.claimed = []) (hanswers : s.worker.answers = [])
    (hclaimed' : after.worker.claimed = []) (hanswers' : after.worker.answers = []) (hlock : after.lock = s.lock)
    (hslots : after.queuedRequestSlots = s.queuedRequestSlots) (huntaken : after.untaken = s.untaken)
    (hdatabase : after.disconnected = false → after.database = true) : Inv config after := by
  have hheld : s.held = ids ++ after.held := by
    simp only [held, hclaimed, hanswers, hclaimed', hanswers', hdropped, map_nil, nil_append]
  have hnodup := h.nodup
  rw [hheld, nodup_append] at hnodup
  have hadvances : Advances s after :=
    .change ids Request.dropSender (fun _ => rfl) (fun _ => rfl) hrequests hlock hslots huntaken
  refine h.advance hadvances hnodup.2.1 ?_ (by simp [hclaimed']) (by simp [hanswers']) ?_ ?_ hdatabase
  · intro id hid
    have hout : id ∉ ids := fun hin => hnodup.2.2 id hin id (mem_append_right _ hid) rfl
    rw [hrequests, change_of_not_mem hout]
    apply h.queued
    rw [hdropped]
    exact mem_append_right _ hid
  · intro id hid
    by_cases hin : id ∈ ids
    · have hat := h.queued id (by rw [hdropped]; exact mem_append_left _ hin)
      rw [hrequests, change_of_mem hin]
      exact .inr (.inl hat.drop)
    · rw [hrequests, change_of_not_mem hin]
      apply h.outside
      rw [hheld]
      exact fun hmem => (mem_append.mp hmem).elim hin hid
  · intro entry answers completed afterwards hworker
    rw [hworker] at hanswers'
    cases hanswers'

/-- Where the requests are when the worker has moved on. -/
theorem queue_worker (hopen : s.disconnected = false) (hnext : next ≠ .closed) (ids : List RequestId)
    (f : Request ρ → Request ρ) : queue ({ s.change ids f with worker := next } : State ρ) = s.queue := by
  rw [queue, queue, hopen, disconnected_of rfl hnext]
  rfl

/-- A step of the worker on one request in its hands. -/
theorem Inv.one (h : Inv config s) (id : RequestId) (f : Request ρ → Request ρ) (next : Worker ρ)
    (hopen : s.disconnected = false) (hnext : next ≠ .closed) (hreleased : next.unreleased = s.worker.unreleased)
    (hcaller : ∀ request, (f request).caller = request.caller) (hsent : ∀ request, (f request).sent = request.sent)
    (hnodup : (next.claimed ++ next.answers.map fst ++ (next.unclaimed ++ s.queue)).Nodup)
    (hqueued : ∀ other ∈ next.unclaimed ++ s.queue, other ∈ s.waiting ∧ other ≠ id)
    (hclaimed : ∀ other ∈ next.claimed,
      (other ∈ s.worker.claimed ∧ other ≠ id) ∨ (other = id ∧ (f (s.requests id)).At .claimed))
    (hexecuted : ∀ entry ∈ next.answers, (entry ∈ s.worker.answers ∧ entry.1 ≠ id) ∨
      (entry.1 = id ∧ ∃ report, entry.2 = .reported report ∧ (f (s.requests id)).At (.executed report)))
    (houtside : ∀ other ∉ next.claimed ++ next.answers.map fst ++ (next.unclaimed ++ s.queue),
      (other ∉ s.held ∧ other ≠ id) ∨ (other = id ∧ (f (s.requests id)).Outside))
    (hmarked : ∀ entry answers completed afterwards, next = .delivering true (entry :: answers) completed afterwards →
      entry.1 = id ∧ (f (s.requests id)).word = .completed) :
    Inv config { s.change [id] f with worker := next } := by
  let after : State ρ := { s.change [id] f with worker := next }
  have hwaiting : after.waiting = next.unclaimed ++ s.queue := by
    rw [waiting, queue_worker hopen hnext]
  have hheld : after.held = next.claimed ++ next.answers.map fst ++ (next.unclaimed ++ s.queue) := by
    rw [held, hwaiting]
  have hone : after.requests id = f (s.requests id) := change_of_mem (mem_singleton_self id)
  have hkept : ∀ other, other ≠ id → after.requests other = s.requests other :=
    fun other hne => change_of_not_mem (by simpa using hne)
  have hadvances : Advances s after := by
    refine .change [id] f hcaller hsent rfl rfl rfl ?_
    exact congrArg ((s.channel.flatMap SchedulerCommand.requests).length + ·) hreleased
  refine h.advance hadvances (hheld ▸ hnodup) ?_ ?_ ?_ ?_ ?_ fun _ => h.database hopen
  · intro other hother
    rw [hwaiting] at hother
    obtain ⟨hold, hne⟩ := hqueued other hother
    rw [hkept other hne]
    exact h.queued other hold
  · intro other hother
    rcases hclaimed other hother with ⟨hold, hne⟩ | ⟨rfl, hat⟩
    · rw [hkept other hne]
      exact h.claimed other hold
    · rw [hone]
      exact hat
  · intro entry hentry
    rcases hexecuted entry hentry with ⟨hold, hne⟩ | ⟨hid, hat⟩
    · rw [hkept entry.1 hne]
      exact h.executed entry hold
    · rw [hid, hone]
      exact hat
  · intro other hother
    rw [hheld] at hother
    rcases houtside other hother with ⟨hold, hne⟩ | ⟨rfl, hat⟩
    · rw [hkept other hne]
      exact h.outside other hold
    · rw [hone]
      exact hat
  · intro entry answers completed afterwards hworker
    obtain ⟨hid, hword⟩ := hmarked entry answers completed afterwards hworker
    rw [hid, hone]
    exact hword

/-- The claim of one request. -/
theorem Inv.claimNext (h : Inv config s) (hstep : claimNext s = some after) : Inv config after := by
  unfold Scheduler.claimNext at hstep
  split at hstep
  next single id remaining claimed afterwards hworker =>
    have hopen := disconnected_of hworker (by simp)
    have hat := h.queued id (by simp [waiting, hworker, Worker.unclaimed])
    have hwaiting : s.waiting = id :: (remaining ++ pendingRequests afterwards.pending ++ s.queue) := by
      simp [waiting, hworker, Worker.unclaimed]
    have hheld : s.held = claimed ++ id :: (remaining ++ pendingRequests afterwards.pending ++ s.queue) := by
      simp [held, hwaiting, hworker, Worker.claimed, Worker.answers]
    have hnodup := h.nodup
    rw [hheld] at hnodup
    -- the request is nowhere else
    obtain ⟨hfresh, hrest⟩ := nodup_cons.mp (nodup_middle.mp hnodup)
    have hqueued : ∀ other ∈ remaining ++ pendingRequests afterwards.pending ++ s.queue, other ∈ s.waiting ∧
      other ≠ id := by
      intro other hother
      refine ⟨hwaiting ▸ mem_cons_of_mem id hother, ?_⟩
      rintro rfl
      exact hfresh (mem_append_right claimed hother)
    have hclaimed : ∀ other ∈ claimed, other ∈ s.worker.claimed ∧ other ≠ id := by
      intro other hother
      refine ⟨by rw [hworker]; exact hother, ?_⟩
      rintro rfl
      exact hfresh (mem_append_left _ hother)
    split at hstep
    next word hclaim =>
      cases hstep
      obtain ⟨hword, rfl⟩ : (s.requests id).word = .queued ∧ word = .executing := by
        cases hword : (s.requests id).word <;> rw [hword] at hclaim <;> cases hclaim
        exact ⟨rfl, rfl⟩
      refine h.one id _ _ hopen (by simp) (by rw [hworker]; rfl) (fun _ => rfl) (fun _ => rfl) ?_ hqueued ?_
        (by simp [Worker.answers]) ?_ (by simp)
      · simpa [Worker.claimed, Worker.answers, Worker.unclaimed] using hnodup
      · intro other hother
        rcases mem_append.mp hother with hold | hid
        · exact .inl (hclaimed other hold)
        · exact .inr ⟨mem_singleton.mp hid, hat.claim hword⟩
      · intro other hother
        left
        simp only [Worker.claimed, Worker.answers, Worker.unclaimed, map_nil, append_nil, mem_append,
          mem_singleton, not_or] at hother
        rw [hheld]
        simp only [mem_append, mem_cons, not_or]
        tauto
    next hclaim =>
      cases hstep
      have hword : (s.requests id).word ≠ .queued := by
        intro hword
        rw [hword] at hclaim
        cases hclaim
      -- a claim that fails was cancelled, and the worker lets the request go
      refine h.one id _ _ hopen (by simp) (by rw [hworker]; rfl) (fun _ => rfl) (fun _ => rfl) ?_ hqueued
        (fun other hother => .inl (hclaimed other hother)) (by simp [Worker.answers]) ?_ (by simp)
      · simpa [Worker.claimed, Worker.answers, Worker.unclaimed] using hrest
      · intro other hother
        by_cases hid : other = id
        · exact .inr ⟨hid, .inr (.inl (hat.cancelled hword))⟩
        · left
          simp only [Worker.claimed, Worker.answers, Worker.unclaimed, map_nil, append_nil, mem_append,
            not_or] at hother
          rw [hheld]
          simp only [mem_append, mem_cons, not_or]
          tauto
  next => cases hstep

/-- The answer to each claimed request is what its execution came to. -/
theorem executionAnswers_eq {single : Bool} {claimed : List RequestId} {answers : List (RequestId × Answer ρ)}
    {completed : Bool} (h : executionAnswers single claimed execution = some (answers, completed, called)) :
    answers = claimed.map fun id => (id, .reported (execution.report id)) := by
  cases execution with
  | denied report =>
    cases h
    rfl
  | single report requestLocal | groupFailed report =>
    rw [executionAnswers] at h
    split at h <;> cases h
    rfl
  | group report =>
    rw [executionAnswers] at h
    split at h <;> cases h
    rw [zipWith_map_right, zipWith_self]
    rfl

/-- The callers see nothing of an execution before its answers. -/
theorem noteReports_caller (claimed : List RequestId) (called : Bool) (report : RequestId → Answer ρ) (id : RequestId) :
    ((noteReports s claimed called report).requests id).caller = (s.requests id).caller ∧
      ((noteReports s claimed called report).requests id).sent = (s.requests id).sent := by
  unfold noteReports
  dsimp only
  split <;> exact ⟨rfl, rfl⟩

section

variable (h : Inv config s)
include h

/-- The execution of what is claimed. -/
theorem Inv.execute (hstep : execute s execution = some after) : Inv config after := by
  unfold Scheduler.execute at hstep
  split at hstep
  next single claimed afterwards hworker =>
    have hopen := disconnected_of hworker (by simp)
    rw [h.database hopen, if_pos rfl] at hstep
    obtain ⟨⟨answers, completed, called⟩, hanswers, rfl⟩ := map_eq_some_iff.mp hstep
    obtain rfl := executionAnswers_eq hanswers
    let reported : State ρ :=
      { noteReports s claimed called fun id => .reported (execution.report id) with
        worker := .delivering false (claimed.map fun id => (id, .reported (execution.report id))) completed afterwards }
    have hwaiting : reported.waiting = s.waiting := by
      rw [waiting, waiting, queue, queue, show reported.disconnected = false from rfl, hopen, hworker]
      rfl
    have hheld : reported.held = s.held := by
      rw [held, held, hwaiting, hworker]
      simp [reported, Worker.claimed, Worker.answers, Function.comp_def]
    have hnodup := h.nodup
    -- the claimed requests are apart from those that wait
    have hdisjoint : ∀ id ∈ s.waiting, id ∉ claimed := by
      intro id hwait hin
      rw [held, nodup_append] at hnodup
      refine hnodup.2.2 id ?_ id hwait rfl
      rw [hworker, mem_append]
      exact .inl hin
    have hadvances : Advances s reported := by
      have hcaller := noteReports_caller (s := s) claimed called fun id => .reported (execution.report id)
      refine ⟨fun id => (hcaller id).1, fun id => (hcaller id).2, rfl, rfl, ?_⟩
      rw [untaken, untaken, hworker]
      rfl
    have hsame : ∀ id ∉ claimed, reported.requests id = s.requests id := fun _ hout => if_neg hout
    change Inv config reported
    refine h.advance hadvances (hheld ▸ hnodup) ?_ (fun _ => nofun) ?_ ?_ (fun _ _ _ _ => nofun) fun _ =>
      h.database hopen
    · intro id hid
      rw [hwaiting] at hid
      rw [hsame id (hdisjoint id hid)]
      exact h.queued id hid
    · intro entry hentry
      obtain ⟨id, hid, rfl⟩ := mem_map.mp hentry
      have hat := (h.claimed id (by rw [hworker]; exact hid)).execute (execution.report id) called
      refine ⟨execution.report id, rfl, ?_⟩
      simp only [reported, noteReports, if_pos hid]
      exact hat
    · intro id hid
      rw [hheld] at hid
      have hout : id ∉ claimed := by
        intro hin
        refine hid (mem_append_left _ (mem_append_left _ ?_))
        rw [hworker]
        exact hin
      rw [hsame id hout]
      exact h.outside id hid
  next => cases hstep

/-- The answer of one request, in two steps. -/
theorem Inv.deliver (hstep : deliver s = some after) : Inv config after := by
  -- the request at the head is nowhere else
  have hfresh : ∀ {marked : Bool} {id : RequestId} {answer : Answer ρ} {answers : List (RequestId × Answer ρ)}
      {completed : Bool} {afterwards : Afterwards},
      s.worker = .delivering marked ((id, answer) :: answers) completed afterwards →
      s.held = id :: (answers.map fst ++ (pendingRequests afterwards.pending ++ s.queue)) ∧
        (∀ other ∈ pendingRequests afterwards.pending ++ s.queue, other ∈ s.waiting ∧ other ≠ id) ∧
        (∀ entry ∈ answers, entry ∈ s.worker.answers ∧ entry.1 ≠ id) := by
    intro marked id answer answers completed afterwards hworker
    have hheld : s.held = id :: (answers.map fst ++ (pendingRequests afterwards.pending ++ s.queue)) := by
      simp [held, waiting, hworker, Worker.claimed, Worker.answers, Worker.unclaimed]
    have hout := (nodup_cons.mp (hheld ▸ h.nodup)).1
    refine ⟨hheld, ?_, ?_⟩
    · intro other hother
      refine ⟨?_, ?_⟩
      · rw [waiting, hworker]
        exact hother
      · rintro rfl
        exact hout (mem_append_right _ hother)
    · intro entry hentry
      refine ⟨?_, ?_⟩
      · rw [hworker]
        exact mem_cons_of_mem _ hentry
      · rintro rfl
        exact hout (mem_append_left _ (mem_map_of_mem hentry))
  unfold Scheduler.deliver at hstep
  split at hstep
  next id answer answers completed afterwards hworker =>
    cases hstep
    obtain ⟨hheld, hqueued, hrest⟩ := hfresh hworker
    obtain ⟨report, hreport, hat⟩ := h.executed (id, answer) (by rw [hworker]; exact mem_cons_self)
    have hopen := disconnected_of hworker (by simp)
    refine h.one id _ _ hopen (by simp) (by rw [hworker]; rfl) (fun _ => rfl) (fun _ => rfl) ?_ hqueued
      (by simp [Worker.claimed]) ?_ ?_ ?_
    · have hnodup := h.nodup
      rwa [hheld] at hnodup
    · intro entry hentry
      rcases mem_cons.mp hentry with rfl | htail
      · exact .inr ⟨rfl, report, hreport, hat.complete⟩
      · exact .inl (hrest entry htail)
    · intro other hother
      left
      rw [hheld]
      exact ⟨hother, fun hid => hother (hid ▸ mem_cons_self)⟩
    · intro entry answers completed afterwards hnext
      cases hnext
      exact ⟨rfl, rfl⟩
  next id answer answers completed afterwards hworker =>
    cases hstep
    obtain ⟨hheld, hqueued, hrest⟩ := hfresh hworker
    obtain ⟨report, hreport, hat⟩ := h.executed (id, answer) (by rw [hworker]; exact mem_cons_self)
    cases hreport
    have hword := h.marked _ _ _ _ hworker
    have hopen := disconnected_of hworker (by simp)
    refine h.one id _ _ hopen (by simp) (by rw [hworker]; rfl) (fun _ => rfl) (fun _ => rfl) ?_ hqueued
      (by simp [Worker.claimed]) ?_ ?_ (by simp)
    · exact (nodup_cons.mp (hheld ▸ h.nodup)).2
    · exact fun entry hentry => .inl (hrest entry hentry)
    · intro other hother
      by_cases hid : other = id
      · exact .inr ⟨hid, .inr (.inr ⟨report, hat.answer hword⟩)⟩
      · left
        rw [hheld, mem_cons, not_or]
        exact ⟨⟨hid, hother⟩, hid⟩
  next => cases hstep

/-- The worker goes on to where no request changes hands and no answer is half given. -/
structure Worker.GoesTo (worker next : Worker ρ) : Prop where
  running : worker ≠ .closed := by simp
  stays : next ≠ .closed := by simp
  unclaimed : next.unclaimed = worker.unclaimed := by rfl
  claimed : next.claimed = worker.claimed := by rfl
  answers : next.answers = worker.answers := by rfl
  marked : ∀ entry answers completed afterwards, next ≠ .delivering true
    (entry :: answers) completed afterwards := by simp

theorem Inv.goes (hworker : s.worker = worker) (hgoes : worker.GoesTo next) (foreground slots : Nat)
    (hslots : slots + worker.unreleased = s.queuedRequestSlots + next.unreleased)
    (hbound : slots ≤ s.queuedRequestSlots) :
    Inv config { s with worker := next, foregroundAfterDue := foreground, queuedRequestSlots := slots } := by
  subst hworker
  have hopen := disconnected_of rfl hgoes.running
  refine h.moves rfl ?_ hgoes.claimed hgoes.answers ?_ rfl ?_ hbound fun _ => h.database hopen
  · rw [waiting, waiting, queue, queue, hopen, disconnected_of rfl hgoes.stays, hgoes.unclaimed]
  · intro entry answers completed afterwards hnext
    exact absurd hnext (hgoes.marked entry answers completed afterwards)
  · simp only [untaken]
    omega

theorem Inv.goto (hworker : s.worker = worker) (hgoes : worker.GoesTo next)
    (hreleased : next.unreleased = worker.unreleased) (foreground : Nat) :
    Inv config { s with worker := next, foregroundAfterDue := foreground } :=
  h.goes hworker hgoes foreground s.queuedRequestSlots (by omega) (Nat.le_refl _)

/-- The claims are over. -/
theorem Inv.allClaimed (hstep : allClaimed s = some after) : Inv config after := by
  unfold Scheduler.allClaimed at hstep
  split at hstep
  next single claimed afterwards hworker =>
    cases hstep
    split
    next hnone =>
      subst hnone
      exact h.goto hworker {} (by rfl) _
    next => exact h.goto hworker {} (by rfl) _
  next => cases hstep

theorem Inv.finish {due : Bool} (hstep : finish s due = some after) : Inv config after := by
  unfold Scheduler.finish at hstep
  split at hstep
  next marked completed afterwards hworker =>
    have hstop (retain : Bool) (foreground : Nat) :
        Inv config { s with worker := .stopping afterwards.pending retain, foregroundAfterDue := foreground } :=
      h.goto hworker {} (by rfl) _
    split at hstep
    · simp only at hstep
      split at hstep <;> cases hstep
      · exact h.goto hworker {} (by rfl) _
      · exact hstop true _
      · exact hstop false _
      · exact hstop false _
    · cases hstep
      exact hstop false _
  next => cases hstep

/-- A command whose slots are released is started on, or dropped for a failed sweep. -/
theorem Inv.dispatch {command : SchedulerCommand} (hworker : s.worker = .idle (some command)) {sweep : Option Bool}
    (hstep : dispatch config s command sweep = some after) : Inv config after := by
  unfold Scheduler.dispatch at hstep
  split at hstep
  next id =>
    cases hstep
    by_cases hgroup : (s.requests id).group = true
    · simp only [hgroup, if_true]
      exact h.goto hworker {} (by rfl) _
    · simp only [hgroup]
      exact h.goto hworker {} (by rfl) _
  next ids =>
    cases hstep
    exact h.goto hworker ⟨by simp, by simp, by exact append_nil ids, by rfl, by rfl, by simp⟩ (by rfl) _
  next ids succeeds =>
    split at hstep
    · cases hstep
      split
      · exact h.goto hworker ⟨by simp, by simp, by exact append_nil ids, by rfl, by rfl, by simp⟩ (by rfl) _
      · have hopen := disconnected_of hworker (by simp)
        refine h.drop ids rfl ?_ (by rw [hworker]; rfl) (by rw [hworker]; rfl) rfl rfl rfl rfl ?_
          fun _ => h.database hopen
        · rw [waiting, waiting, queue_worker hopen (by simp), hworker]
          rfl
        · rw [untaken, untaken, hworker]
          rfl
    · cases hstep
  next returnDatabase =>
    cases hstep
    exact h.goto hworker {} (by rfl) _
  next => cases hstep

theorem Inv.receiveCommand (hstep : receiveCommand config s = some after) : Inv config after := by
  unfold Scheduler.receiveCommand at hstep
  split at hstep
  next command channel hworker hchannel =>
    cases hstep
    have hopen := disconnected_of hworker (by simp)
    refine h.moves rfl ?_ (by rw [hworker]; rfl) (by rw [hworker]; rfl) (by simp) rfl ?_ (Nat.le_refl _)
      fun _ => h.database hopen
    · simp [waiting, queue, disconnected, hworker, hchannel, unclaimed, pendingRequests]
    · simp only [untaken, hworker, hchannel, unreleased, flatMap_cons, length_append]
      omega
  next requests command channel hworker hchannel =>
    split at hstep
    · cases hstep
      have hopen := disconnected_of hworker (by simp)
      refine h.moves rfl ?_ (by rw [hworker]; rfl) (by rw [hworker]; rfl) (by simp) rfl ?_ (Nat.le_refl _)
        fun _ => h.database hopen
      · simp [waiting, queue, disconnected, hworker, hchannel, unclaimed]
      · simp only [untaken, hworker, hchannel, unreleased, flatMap_cons, length_append]
        omega
    · cases hstep
  next => cases hstep

/-- A received command has its slots at the gate. -/
theorem Inv.released (hlock : s.lock = none) : s.worker.unreleased ≤ s.queuedRequestSlots := by
  have hslots := h.slots
  rw [owed, hlock, untaken] at hslots
  simp only [map_none, getD_none, Nat.add_zero] at hslots
  omega

/-- The slots of a received command are released. -/
theorem Inv.release (hworker : s.worker = worker) (hgoes : worker.GoesTo next) (hlock : s.lock = none)
    (hreleased : next.unreleased = 0) :
    Inv config { s with worker := next, queuedRequestSlots := s.queuedRequestSlots - worker.unreleased } := by
  have hle := h.released hlock
  rw [hworker] at hle
  exact h.goes hworker hgoes s.foregroundAfterDue _ (by omega) (Nat.sub_le _ _)

theorem Inv.releaseDequeuedRequestSlots {sweep : Option Bool}
    (hstep : releaseDequeuedRequestSlots config s sweep = some after) : Inv config after := by
  unfold Scheduler.releaseDequeuedRequestSlots at hstep
  split at hstep
  next command hworker hlock =>
    have hle := h.released hlock
    rw [hworker, unreleased] at hle
    rw [if_pos hle] at hstep
    -- from here on it is as if the command had been pending
    have hgoes : Worker.GoesTo (ρ := ρ) (.received command) (.idle (some command)) := {}
    have hpending := h.release hworker hgoes hlock rfl
    refine @Inv.dispatch ρ config _ after hpending command rfl sweep ?_
    rw [← hstep]
    cases command <;> cases sweep <;> rfl
  next requests command hworker hlock =>
    have hle := h.released hlock
    rw [hworker, unreleased] at hle
    rw [if_pos hle] at hstep
    cases hstep
    cases command with
    | commit id =>
      rw [Scheduler.collect]
      split <;> exact h.release hworker {} hlock (by rfl)
    | cohort ids | shutdown returnDatabase => exact h.release hworker {} hlock (by rfl)
  next => cases hstep

theorem Inv.workerStep {action : WorkerAction ρ} (hstep : workerStep config s action = some after) :
    Inv config after := by
  cases action with
  | sweep succeeds =>
    simp only [Scheduler.workerStep, activeExpiry] at hstep
    split at hstep
    next pending hworker =>
      split at hstep
      · cases hstep
        split
        · exact h.moves rfl rfl rfl rfl h.marked rfl rfl (Nat.le_refl _) h.database
        · exact h.goto hworker {} (by rfl) _
      · cases hstep
    next => cases hstep
  | takePending sweep =>
    simp only [Scheduler.workerStep] at hstep
    split at hstep
    next command hworker => exact h.dispatch hworker hstep
    next => cases hstep
  | receive => exact h.receiveCommand hstep
  | release sweep => exact h.releaseDequeuedRequestSlots hstep
  | timeout =>
    simp only [Scheduler.workerStep] at hstep
    split at hstep
    next requests hworker =>
      cases hstep
      exact h.goto hworker ⟨by simp, by simp, by exact append_nil requests, by rfl, by rfl, by simp⟩ (by rfl) _
    next => cases hstep
  | claim => exact h.claimNext hstep
  | claimed => exact h.allClaimed hstep
  | execute execution => exact h.execute hstep
  | deliver => exact h.deliver hstep
  | finish due => exact h.finish hstep
  | stop =>
    simp only [Scheduler.workerStep] at hstep
    split at hstep
    next pending retain hworker hlock =>
      cases hstep
      have hgoes : Worker.GoesTo (ρ := ρ) (.stopping pending retain) (.closing pending retain) := {}
      have hgone := h.goto hworker hgoes rfl s.foregroundAfterDue
      exact hgone.moves rfl rfl rfl rfl hgone.marked rfl rfl (Nat.le_refl _) hgone.database
    next => cases hstep
  | close =>
    simp only [Scheduler.workerStep] at hstep
    split at hstep
    next pending retain hworker =>
      cases hstep
      have hopen := disconnected_of hworker (by simp)
      refine h.drop (pendingRequests pending ++ s.channel.flatMap SchedulerCommand.requests) rfl ?_
        (by rw [hworker]; rfl) (by rw [hworker]; rfl) rfl rfl rfl rfl ?_ (by simp [disconnected])
      · simp [waiting, queue, disconnected, hworker, unclaimed]
      · rw [untaken, untaken, hworker]
        rfl
    next => cases hstep

end

/-- The invariant holds in every state that an interleaving reaches. -/
theorem Inv.step {s : State ρ} (h : Inv config s) {action : Action ρ} (hstep : step config s action = some after) :
    Inv config after := by
  cases action with
  | client action => exact h.clientStep hstep
  | worker action => exact h.workerStep hstep

theorem Reachable.inv (h : Reachable config s) : Inv config s := by
  obtain ⟨actions, hrun⟩ := h
  exact Lib.run_invariant (fun _ _ _ hinv hstep => hinv.step hstep) hrun inv_start

end Hyphae.Scheduler
