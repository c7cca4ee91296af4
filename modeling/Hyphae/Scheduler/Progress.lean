import Hyphae.Scheduler.Invariant

/-!
# Every request is answered

The worker serves the commands in the order they were sent. For a request that waits for
its answer, count the steps of the worker on what it has in hand and on the commands up
to that of the request: its own steps lower the count, and what callers do meanwhile
goes behind the request and leaves the count alone.
-/

namespace Hyphae.Scheduler

open List Option

open State Worker SchedulerCommand Request

variable {ρ : Type} {config : GroupCommitConfig} {s : State ρ}

variable {id : RequestId} {request : Request ρ} {act : Act} {after : State ρ} {stage : Stage ρ} {answer : Answer ρ}
  {ids : List RequestId} {f : Request ρ → Request ρ} {pending : Option SchedulerCommand} {actions : List (Action ρ)}
  {sweep : Option Bool} {action : Action ρ}

/-! ## Requests in hand have no answer yet -/

theorem Inv.held_unanswered (h : Inv config s) (hid : id ∈ s.held) : (s.requests id).response = .empty := by
  rcases h.held_at hid with hat | hat | ⟨_, hat⟩ <;> exact hat.response

/-- Nor is any other request without its answer, once it is sent. -/
theorem Inv.held_of_unanswered (h : Inv config s) (hsent : (s.requests id).sent = true)
    (hempty : (s.requests id).response = .empty) : id ∈ s.held := by
  by_contra hout
  rcases h.outside id hout with hat | hat | ⟨report, hat⟩
  · have := hat.sent
    rw [hsent] at this
    cases this
  · rcases hat.response with hclosed | ⟨hcancelled, -⟩
    · rw [hempty] at hclosed
      cases hclosed
    · rw [hempty] at hcancelled
      cases hcancelled
  · have hanswered : (s.requests id).response = .sent (.reported report) := hat.response
    rw [hempty] at hanswered
    cases hanswered

/-! ## Callers do not hold up the worker -/

/-- What a caller keeps while others act: its place is its own until it is told. -/
structure Request.Kept (request after : Request ρ) : Prop where
  response : after.response = request.response
  sent : request.sent = true → after.sent = true
  returned : ∀ answer, request.caller = .returned answer → after.caller = .returned answer

theorem Request.Kept.refl (request : Request ρ) : request.Kept request := ⟨rfl, fun h => h, fun _ h => h⟩

/-- The requests of whoever has the lock are about to be counted. -/
def Counting (s : State ρ) : Prop := ∀ ids, s.lock = some ids → ∀ id ∈ ids, (s.requests id).caller = .counting

/-- A step of a caller, as the worker sees it. -/
structure Waits (s after : State ρ) : Prop where
  kept : ∀ id, (s.requests id).Kept (after.requests id)
  counting : Counting after
  worker : after.worker = s.worker
  foreground : after.foregroundAfterDue = s.foregroundAfterDue
  channel : ∃ sent, after.channel = s.channel ++ sent ∧ ∀ id ∈ sent.flatMap SchedulerCommand.requests, id ∉ s.held

theorem kept_change (hkept : ∀ id ∈ ids, (s.requests id).Kept (f (s.requests id))) (id : RequestId) :
    (s.requests id).Kept ((s.change ids f).requests id) := by
  by_cases hid : id ∈ ids
  · rw [change_of_mem hid]
    exact hkept id hid
  · rw [change_of_not_mem hid]
    exact .refl _

/-- A caller that has sent nothing was told nothing. -/
theorem Request.Kept.of_unsent {after : Request ρ} (hunsent : request.caller.unsent = true)
    (hresponse : after.response = request.response) (hsent : request.sent = true → after.sent = true) :
    request.Kept after := by
  refine ⟨hresponse, hsent, ?_⟩
  intro answer hreturned
  rw [hreturned] at hunsent
  cases hunsent

theorem Waits.of_change (hcounting : Counting s) (hunsent : ∀ id ∈ ids, (s.requests id).caller.unsent = true)
    (hresponse : ∀ request, (f request).response = request.response)
    (hsent : ∀ request, (f request).sent = request.sent) : Waits s (s.change ids f) := by
  refine ⟨?_, ?_, rfl, rfl, [], (append_nil _).symm, by simp⟩
  · exact kept_change fun id hid => .of_unsent (hunsent id hid) (hresponse _) (hsent _).trans
  · intro locked hlock id hid
    have hcaller := hcounting locked hlock id hid
    by_cases hin : id ∈ ids
    · have := hunsent id hin
      rw [hcaller] at this
      cases this
    · rw [change_of_not_mem hin]
      exact hcaller

/-- A caller that was told something does nothing more. -/
theorem Request.act_returned {after : Request ρ} (h : request.act act = some after) (answer : Answer ρ)
    (hcaller : request.caller = .returned answer) : after.caller = .returned answer := by
  cases act <;> simp only [act, hcaller] at h <;> cases h
  rfl

theorem Request.act_counting {after : Request ρ} (h : request.act act = some after)
    (hcaller : request.caller = .counting) : after.caller = .counting := by
  cases act <;> simp only [act, hcaller] at h <;> cases h
  rfl

theorem Waits.of_act (hcounting : Counting s) (hact : (s.requests id).act act = some request) :
    Waits s (s.change [id] fun _ => request) := by
  obtain ⟨hsent, -, -, hresponse⟩ := (act_effect hact).history
  refine ⟨?_, ?_, rfl, rfl, [], (append_nil _).symm, by simp⟩
  · refine kept_change fun other hid => ?_
    obtain rfl := mem_singleton.mp hid
    exact ⟨hresponse, hsent.trans, act_returned hact⟩
  · intro ids hlock other hother
    have hcaller := hcounting ids hlock other hother
    by_cases hid : other ∈ [id]
    · rw [change_of_mem hid]
      obtain rfl := mem_singleton.mp hid
      exact act_counting hact hcaller
    · rw [change_of_not_mem hid]
      exact hcaller

theorem Waits.of_send (h : Inv config s) {command : SchedulerCommand}
    (hunsent : ∀ id ∈ command.requests, (s.requests id).caller.unsent = true) : Waits s (s.send command) := by
  refine ⟨?_, ?_, rfl, rfl, [command], rfl, ?_⟩
  · exact kept_change (f := fun request => { request with caller := .counting, sent := true }) fun id hid =>
      .of_unsent (hunsent id hid) rfl fun _ => rfl
  · intro ids hlock id hid
    cases hlock
    have hrequest : (s.send command).requests id = { s.requests id with caller := .counting, sent := true } :=
      if_pos hid
    rw [hrequest]
  · intro id hid
    rw [flatMap_singleton] at hid
    exact (h.unsent_of_caller (hunsent id hid)).1

theorem Waits.of_admission (h : Inv config s) (hcounting : Counting s) (hgate : AtGate s ids)
    (hadmission : Admission config s ids after) : Waits s after := by
  cases hadmission with
  | told answer => exact .of_change hcounting hgate.unsent (fun _ => rfl) fun _ => rfl
  | again => exact .of_change hcounting hgate.unsent (fun _ => rfl) fun _ => rfl
  | full => exact ⟨fun _ => .refl _, hcounting, rfl, rfl, [], (append_nil _).symm, by simp⟩
  | sent command hids =>
    subst hids
    exact .of_send h hgate.unsent

theorem clientStep_waits (h : Inv config s) (hcounting : Counting s) {action : ClientAction}
    (hstep : clientStep config s action = some after) : Waits s after := by
  cases action with
  | act id act =>
    obtain ⟨request, hact, rfl⟩ := map_eq_some_iff.mp hstep
    exact .of_act hcounting hact
  | submitCohort ids =>
    simp only [clientStep, submitCohort] at hstep
    split at hstep
    next hguard =>
      cases hstep
      refine .of_change hcounting ?_ (fun _ => rfl) fun _ => rfl
      intro id hid
      have := hguard.2.2.2 id hid
      split at this
      next hcaller =>
        rw [hcaller]
        rfl
      next => cases this
    next => cases hstep
  | admitCommand id =>
    obtain ⟨hgate, hadmission⟩ := admitCommand_admission h hstep
    exact .of_admission h hcounting hgate hadmission
  | admitCohortCommand id =>
    obtain ⟨ids, hgate, hadmission⟩ := admitCohortCommand_admission h hstep
    exact .of_admission h hcounting hgate hadmission
  | countSlots =>
    simp only [clientStep, countSlots] at hstep
    split at hstep
    next ids hlock =>
      cases hstep
      refine ⟨?_, by simp [Counting], rfl, rfl, [], (append_nil _).symm, by simp⟩
      refine kept_change (f := fun request => { request with caller := .holding }) fun id hid => ⟨rfl, fun h => h, ?_⟩
      intro answer hreturned
      rw [hcounting ids hlock id hid] at hreturned
      cases hreturned
    next => cases hstep
  | stopAccepting returnDatabase =>
    simp only [clientStep, stopAccepting] at hstep
    split at hstep
    · cases hstep
      exact ⟨fun _ => .refl _, hcounting, rfl, rfl, [], (append_nil _).symm, by simp⟩
    · cases hstep
  | sendShutdown =>
    simp only [clientStep, sendShutdown] at hstep
    split at hstep
    next returnDatabase _ =>
      split at hstep
      · cases hstep
        exact ⟨fun _ => .refl _, hcounting, rfl, rfl, [], (append_nil _).symm, by simp⟩
      split at hstep
      · cases hstep
      cases hstep
      exact ⟨fun _ => .refl _, hcounting, rfl, rfl, [.shutdown returnDatabase],
        rfl, by simp [SchedulerCommand.requests]⟩
    next => cases hstep

/-! ## The line in front of a request -/

section Line

variable (config)

/-- The steps that a command can cost the worker: its own, and those on what is gathered with it. -/
def load (command : SchedulerCommand) : Nat := 5 * config.maxBatchSize + 3 * command.requests.length + 9

/-- What the commands cost up to that of the request, if it is among them. -/
def ahead (id : RequestId) : List SchedulerCommand → Nat
  | [] => 0
  | command :: line =>
    if id ∈ command.requests then load config command
    else if id ∈ line.flatMap SchedulerCommand.requests then load config command + ahead id line
    else 0

variable {config} {command : SchedulerCommand} {line : List SchedulerCommand}

theorem ahead_of_not_mem (h : id ∉ line.flatMap requests) : ahead config id line = 0 := by
  cases line with
  | nil => rfl
  | cons command line =>
    rw [flatMap_cons, mem_append, not_or] at h
    rw [ahead, if_neg h.1, if_neg h.2]

theorem ahead_cons (hnodup : ((command :: line).flatMap requests).Nodup) (h : id ∈ (command :: line).flatMap requests) :
    ahead config id (command :: line) = load config command + ahead config id line := by
  rw [flatMap_cons, mem_append] at h
  rw [flatMap_cons, nodup_append] at hnodup
  by_cases hown : id ∈ command.requests
  · rw [ahead, if_pos hown, ahead_of_not_mem fun hlater => hnodup.2.2 id hown id hlater rfl, Nat.add_zero]
  · rw [ahead, if_neg hown, if_pos (h.resolve_left hown)]

theorem ahead_tail_le (hnodup : ((command :: line).flatMap requests).Nodup) :
    ahead config id line ≤ ahead config id (command :: line) := by
  by_cases h : id ∈ (command :: line).flatMap requests
  · rw [ahead_cons hnodup h]
    exact Nat.le_add_left _ _
  · rw [flatMap_cons, mem_append, not_or] at h
    rw [ahead_of_not_mem h.2]
    exact Nat.zero_le _

/-- What is sent later goes behind. -/
theorem ahead_append {sent : List SchedulerCommand} (h : id ∉ sent.flatMap requests) :
    ahead config id (line ++ sent) = ahead config id line := by
  induction line with
  | nil => exact ahead_of_not_mem h
  | cons command line ih =>
    simp only [cons_append, ahead, flatMap_append, mem_append, h, or_false, ih]

theorem load_le_ahead (hnodup : (line.flatMap requests).Nodup)
    (h : id ∈ line.flatMap requests) : 9 ≤ ahead config id line := by
  cases line with
  | nil => simp at h
  | cons command line =>
    rw [ahead_cons hnodup h, load]
    omega

end Line

/-! ## The rank of a request -/

/-- The commands that the worker has not started on, in order. -/
def Worker.line (channel : List SchedulerCommand) : Worker ρ → List SchedulerCommand
  | .idle pending => pending.toList ++ channel
  | .received command | .collected _ command => command :: channel
  | .collecting _ => channel
  | .claiming _ _ _ afterwards | .executing _ _ afterwards | .delivering _ _ _ afterwards =>
    afterwards.pending.toList ++ channel
  | .stopping _ _ | .closing _ _ | .closed => []

/-- Steps on a cohort of so many requests that may still grow. -/
def gathering (config : GroupCommitConfig) (count : Nat) : Nat := 5 * (config.maxBatchSize - count) + 3 * count + 9

/-- Steps of the worker until it takes up the next command, or has ended. -/
def State.effort (config : GroupCommitConfig) (s : State ρ) : Nat :=
  match s.worker with
  | .idle _ => 2 + if config.foregroundBudget.any (· ≤ s.foregroundAfterDue) then 1 else 0
  | .received _ => 1
  | .collecting requests => gathering config requests.length
  | .collected requests _ => gathering config (requests.length + 1) + 1
  | .claiming _ remaining claimed _ => 3 * remaining.length + 2 * claimed.length + 7
  | .executing _ claimed _ => 2 * claimed.length + 6
  | .delivering marked answers _ _ => 2 * answers.length + if marked then 4 else 5
  | .stopping _ _ => 2
  | .closing _ _ => 1
  | .closed => 0

/-- As many steps of the worker answer the request. -/
def rank (config : GroupCommitConfig) (s : State ρ) (id : RequestId) : Nat :=
  s.effort config + ahead config id (s.worker.line s.channel)

theorem Waits.rank_eq (h : Waits s after) (hid : id ∈ s.held) : rank config after id = rank config s id := by
  obtain ⟨sent, hchannel, hout⟩ := h.channel
  have heffort : after.effort config = s.effort config := by rw [effort, effort, h.worker, h.foreground]
  have hbehind : id ∉ sent.flatMap requests := fun hin => hout id hin hid
  rw [rank, rank, heffort, h.worker, hchannel]
  congr 1
  cases s.worker <;> simp only [line] <;>
    first
      | rfl
      | exact ahead_append hbehind
      | (rw [← append_assoc]; exact ahead_append hbehind)
      | (rw [← cons_append]; exact ahead_append hbehind)

theorem pendingRequests_eq (pending : Option SchedulerCommand) :
    pendingRequests pending = pending.toList.flatMap requests := by
  cases pending <;> simp [pendingRequests]

/-- Requests in line are in nobody else's hands. -/
theorem Inv.line_nodup (h : Inv config s) : ((s.worker.line s.channel).flatMap requests).Nodup := by
  refine h.nodup.sublist ?_
  cases hworker : s.worker <;>
    simp only [line, held, waiting, queue, disconnected, hworker, answers,
      unclaimed, pendingRequests_eq, flatMap_append, flatMap_cons, flatMap_nil,
      map_nil, nil_append, Bool.false_eq_true, if_false, append_assoc, nil_sublist] <;>
    first
      | exact List.Sublist.refl _
      | exact sublist_append_right _ _
      | exact (sublist_append_right _ _).trans (sublist_append_right _ _)

/-! ## The worker gets on -/

/-- A step of the worker: it touches what it has in hand, and comes closer to every request that waits. -/
structure Works (config : GroupCommitConfig) (s after : State ρ) : Prop where
  touched : ∀ id, after.requests id = s.requests id ∨ (id ∈ s.held ∧
    (after.requests id).caller = (s.requests id).caller ∧ (after.requests id).sent = (s.requests id).sent)
  lock : after.lock = s.lock
  rank : ∀ id ∈ s.held, id ∈ after.held → rank config after id < rank config s id

theorem Works.of_change {next : Worker ρ} (hids : ∀ id ∈ ids, id ∈ s.held)
    (hcaller : ∀ request, (f request).caller = request.caller) (hsent : ∀ request, (f request).sent = request.sent)
    (hrank : ∀ id ∈ s.held, Scheduler.rank config { s.change ids f with worker :=
      next } id < Scheduler.rank config s id) :
    Works config s { s.change ids f with worker := next } := by
  refine ⟨?_, rfl, fun id hid _ => hrank id hid⟩
  intro id
  by_cases hid : id ∈ ids
  · right
    show id ∈ s.held ∧ ((s.change ids f).requests id).caller = _ ∧ ((s.change ids f).requests id).sent = _
    rw [change_of_mem hid]
    exact ⟨hids id hid, hcaller _, hsent _⟩
  · exact .inl (change_of_not_mem hid)

theorem claimNext_works (hstep : claimNext s = some after) : Works config s after := by
  unfold claimNext at hstep
  split at hstep
  next single id remaining claimed afterwards hworker =>
    have hids : ∀ other ∈ [id], other ∈ s.held := by
      intro other hother
      obtain rfl := mem_singleton.mp hother
      simp [held, waiting, hworker, unclaimed]
    split at hstep <;> cases hstep <;> refine .of_change hids (fun _ => rfl) (fun _ => rfl) ?_
    all_goals
      intro other _
      simp only [rank, effort, hworker, line, change, length_append, length_cons, length_nil]
      omega
  next => cases hstep

theorem allClaimed_works (hstep : allClaimed s = some after) : Works config s after := by
  unfold allClaimed at hstep
  split at hstep
  next single claimed afterwards hworker =>
    cases hstep
    refine ⟨fun _ => .inl rfl, rfl, ?_⟩
    intro id _ _
    by_cases hnone : claimed = []
    · simp only [rank, effort, hworker, line, hnone, if_true, length_nil, Bool.false_eq_true, if_false]
      omega
    · simp only [rank, effort, hworker, line, hnone, if_false, length_nil]
      omega
  next => cases hstep

theorem execute_works (h : Inv config s) {execution : Execution ρ} (hstep : execute s execution = some after) :
    Works config s after := by
  unfold execute at hstep
  split at hstep
  next single claimed afterwards hworker =>
    rw [h.database (disconnected_of hworker (by simp)), if_pos rfl] at hstep
    obtain ⟨⟨answers, completed, called⟩, hanswers, rfl⟩ := map_eq_some_iff.mp hstep
    obtain rfl := executionAnswers_eq hanswers
    refine ⟨?_, rfl, ?_⟩
    · intro id
      by_cases hid : id ∈ claimed
      · right
        refine ⟨?_, noteReports_caller (s := s) claimed called (fun id => .reported (execution.report id)) id⟩
        simp [held, hworker, Worker.claimed, hid]
      · exact .inl (if_neg hid)
    · intro id _ _
      simp only [rank, effort, hworker, Worker.line, noteReports, length_map, Bool.false_eq_true, if_false]
      omega
  next => cases hstep

theorem deliver_works (hstep : deliver s = some after) : Works config s after := by
  have hids : ∀ {marked : Bool} {id : RequestId} {answer : Answer ρ} {answers : List (RequestId × Answer ρ)}
      {completed : Bool} {afterwards : Afterwards},
      s.worker = .delivering marked ((id, answer) :: answers) completed afterwards → ∀ other ∈ [id],
        other ∈ s.held := by
    intro marked id answer answers completed afterwards hworker other hother
    obtain rfl := mem_singleton.mp hother
    simp [held, hworker, Worker.answers]
  unfold deliver at hstep
  split at hstep <;> cases hstep
  all_goals
    rename_i hworker
    refine .of_change (hids hworker) (fun _ => rfl) (fun _ => rfl) ?_
    intro other _
    simp only [rank, effort, hworker, Worker.line, change, length_cons, Bool.false_eq_true, if_false, if_true]
    omega

/-- Out of the loop, everybody is two steps from an answer. -/
theorem rank_stopping {retain : Bool} (hworker : s.worker = .stopping pending retain) (id : RequestId) :
    rank config s id = 2 := by
  simp [rank, effort, hworker, line, ahead]

theorem rank_idle (hworker : s.worker = .idle pending) (id : RequestId) :
    rank config s id ≤ 3 + ahead config id (pending.toList ++ s.channel) := by
  simp only [rank, effort, hworker, line]
  split <;> omega

theorem finish_works {due : Bool} (hstep : finish s due = some after) : Works config s after := by
  unfold finish at hstep
  split at hstep
  next marked completed afterwards hworker =>
    have hbefore : ∀ id, 4 + ahead config id (afterwards.pending.toList ++ s.channel) ≤ rank config s id := by
      intro id
      simp only [rank, effort, hworker, line, length_nil]
      split <;> omega
    have hstop : ∀ (retain : Bool) (foreground : Nat),
        Works config s { s with worker := .stopping afterwards.pending retain, foregroundAfterDue := foreground } := by
      intro retain foreground
      refine ⟨fun _ => .inl rfl, rfl, ?_⟩
      intro id _ _
      rw [rank_stopping rfl]
      have := hbefore id
      omega
    split at hstep
    · simp only at hstep
      split at hstep <;> cases hstep
      · refine ⟨fun _ => .inl rfl, rfl, ?_⟩
        intro id _ _
        have hafter : rank config { s with
            worker := .idle afterwards.pending,
            foregroundAfterDue := s.foregroundAfterDue + if due = true then afterwards.count else 0 } id ≤
            3 + ahead config id (afterwards.pending.toList ++ s.channel) := rank_idle rfl id
        have := hbefore id
        exact Nat.lt_of_le_of_lt hafter (Nat.lt_of_succ_le (Nat.succ_add 3 _ ▸ this))
      · exact hstop _ _
      · exact hstop _ _
      · exact hstop _ _
    · cases hstep
      exact hstop _ _
  next => cases hstep

/-- A command at the head of the line is started on. -/
theorem dispatch_works (h : Inv config s) {base : State ρ} {command : SchedulerCommand}
    (hline : s.worker.line s.channel = command :: s.channel)
    (hheld : s.held = command.requests ++ s.channel.flatMap SchedulerCommand.requests) (heffort : 1 ≤ s.effort config)
    (hrequests : base.requests = s.requests) (hchannel : base.channel = s.channel) (hlock : base.lock = s.lock)
    (hstep : dispatch config base command sweep = some after) : Works config s after := by
  have hnodup := h.line_nodup
  rw [hline] at hnodup
  have hbefore : ∀ id ∈ s.held, 1 + load config command + ahead config id s.channel ≤ rank config s id := by
    intro id hid
    rw [hheld, ← flatMap_cons] at hid
    rw [rank, hline, ahead_cons hnodup hid]
    omega
  -- what the worker has in hand costs less than the command did
  have hgo : ∀ after : State ρ, after.requests = base.requests → after.lock = base.lock → after.channel = base.channel →
      after.worker.line s.channel = s.channel → after.effort config ≤ load config command → Works config s after := by
    intro after hsame hkept hline' hworker hle
    refine ⟨fun id => .inl (congrFun (hsame.trans hrequests) id), hkept.trans hlock, ?_⟩
    intro id hid _
    have := hbefore id hid
    rw [rank, hline'.trans hchannel, hworker]
    omega
  have hstop : ∀ id ∈ s.held, 2 < rank config s id := by
    intro id hid
    have := hbefore id hid
    have hload : 9 ≤ load config command := Nat.le_add_left _ _
    omega
  unfold dispatch at hstep
  split at hstep
  next id =>
    cases hstep
    refine hgo _ rfl rfl rfl ?_ ?_
    · by_cases hgroup : (base.requests id).group = true
      · simp only [hgroup, if_true, line]
      · simp only [hgroup, Bool.false_eq_true, if_false, line, toList_none, nil_append]
    · by_cases hgroup : (base.requests id).group = true
      · simp only [hgroup, if_true, effort, gathering, load, SchedulerCommand.requests, length_singleton]
        omega
      · simp only [hgroup, Bool.false_eq_true, if_false, effort, load, SchedulerCommand.requests,
          length_singleton, length_nil]
        omega
  next ids =>
    cases hstep
    refine hgo _ rfl rfl rfl rfl ?_
    simp only [effort, load, SchedulerCommand.requests, length_nil]
    omega
  next ids succeeds =>
    split at hstep
    · cases hstep
      cases succeeds with
      | true =>
        refine hgo _ rfl rfl rfl rfl ?_
        simp only [if_true, effort, load, SchedulerCommand.requests, length_nil]
        omega
      | false =>
        -- the sweep failed: the cohort's senders are dropped and the worker stops
        refine ⟨?_, hlock, ?_⟩
        · intro other
          rw [← hrequests]
          by_cases hid : other ∈ ids
          · right
            refine ⟨?_, ?_⟩
            · rw [hheld]
              exact mem_append_left _ hid
            · simp only [Bool.false_eq_true, if_false, change, if_pos hid, dropSender, and_self]
          · exact .inl (if_neg hid)
        · intro other hother _
          rw [rank_stopping rfl]
          exact hstop other hother
    · cases hstep
  next returnDatabase =>
    cases hstep
    refine ⟨fun id => .inl (congrFun hrequests id), hlock, ?_⟩
    intro id hid _
    rw [rank_stopping rfl]
    exact hstop id hid
  next => cases hstep

theorem receiveCommand_works (hstep : receiveCommand config s = some after) : Works config s after := by
  unfold receiveCommand at hstep
  split at hstep
  next command channel hworker hchannel =>
    cases hstep
    refine ⟨fun _ => .inl rfl, rfl, ?_⟩
    intro id _ _
    simp only [rank, effort, hworker, hchannel, line, toList_none, nil_append]
    omega
  next requests command channel hworker hchannel =>
    split at hstep
    next hroom =>
      cases hstep
      refine ⟨fun _ => .inl rfl, rfl, ?_⟩
      intro id _ _
      simp only [rank, effort, hworker, hchannel, line, gathering]
      omega
    next => cases hstep
  next => cases hstep

theorem releaseDequeuedRequestSlots_works (h : Inv config s)
    (hstep : releaseDequeuedRequestSlots config s sweep = some after) : Works config s after := by
  unfold releaseDequeuedRequestSlots at hstep
  split at hstep
  next command hworker hlock =>
    have hle := h.released hlock
    rw [hworker, unreleased] at hle
    rw [if_pos hle] at hstep
    refine dispatch_works h ?_ ?_ ?_ ?_ ?_ ?_ hstep
    · rw [hworker, line]
    · simp [held, waiting, queue, disconnected, hworker, claimed, answers, unclaimed]
    · simp [effort, hworker]
    all_goals rfl
  next requests command hworker hlock =>
    have hle := h.released hlock
    rw [hworker, unreleased] at hle
    rw [if_pos hle] at hstep
    cases hstep
    have hnodup := h.line_nodup
    rw [hworker, line] at hnodup
    have hbefore : ∀ id, rank config s id =
        gathering config (requests.length + 1) + 1 + ahead config id (command :: s.channel) := by
      intro id
      simp only [rank, effort, hworker, line]
    have htail : ∀ id, ahead config id s.channel ≤ ahead config id (command :: s.channel) :=
      fun _ => ahead_tail_le hnodup
    -- the command waits behind the cohort, or is done with
    have hgo : ∀ after : State ρ, after.requests = s.requests → after.lock = s.lock →
        (after.worker.line after.channel = command :: s.channel ∨ after.worker.line after.channel = s.channel) →
        after.effort config < gathering config (requests.length + 1) + 1 → Works config s after := by
      intro after hrequests hkept hline hless
      refine ⟨fun id => .inl (congrFun hrequests id), hkept, ?_⟩
      intro id _ _
      have := htail id
      rw [hbefore, rank]
      rcases hline with hline | hline
      · rw [hline]
        omega
      · rw [hline]
        omega
    cases command with
    | commit id =>
      rw [collect]
      split
      · refine hgo _ rfl rfl (.inr rfl) ?_
        simp only [effort, length_append, length_singleton]
        omega
      · refine hgo _ rfl rfl (.inl rfl) ?_
        simp only [effort, length_nil, gathering]
        omega
    | cohort ids =>
      refine hgo _ rfl rfl (.inl rfl) ?_
      simp only [collect, effort, length_nil, gathering]
      omega
    | shutdown returnDatabase =>
      refine hgo _ rfl rfl (.inr rfl) ?_
      simp only [collect, effort, length_nil, gathering]
      omega
  next => cases hstep

theorem activeExpiry_works (h : Inv config s) {succeeds : Bool} (hstep : activeExpiry config s succeeds = some after) :
    Works config s after := by
  unfold activeExpiry at hstep
  split at hstep
  next pending hworker =>
    split at hstep
    next hdue =>
      cases hstep
      have hheld : s.held = (pending.toList ++ s.channel).flatMap requests := by
        simp [held, waiting, queue, disconnected, hworker, claimed, answers, unclaimed, pendingRequests_eq]
      have hnodup := h.line_nodup
      rw [hworker, line] at hnodup
      cases succeeds with
      | true =>
        refine ⟨fun _ => .inl rfl, rfl, ?_⟩
        intro id hid _
        rw [sweepDue] at hdue
        split at hdue
        next budget hbudget =>
          -- with a request in line, the sweep was forced
          have hforced : budget ≤ s.foregroundAfterDue := by
            rw [Bool.or_eq_true, decide_eq_true_eq] at hdue
            refine hdue.resolve_right ?_
            intro hnothing
            rw [Bool.and_eq_true, isNone_iff_eq_none, List.isEmpty_iff] at hnothing
            rw [hheld, hnothing.1, hnothing.2] at hid
            simp at hid
          have hpos := config.budget_pos budget hbudget
          have hspent : ¬budget ≤ 0 := by omega
          simp only [if_true, rank, effort, hworker, line, hbudget, any_some, hforced, hspent,
            decide_true, decide_false, Bool.false_eq_true, if_false]
          omega
        next => cases hdue
      | false =>
        refine ⟨fun _ => .inl rfl, rfl, ?_⟩
        intro id hid _
        rw [hheld] at hid
        have hload : 9 ≤ ahead config id (pending.toList ++ s.channel) := load_le_ahead hnodup hid
        simp only [Bool.false_eq_true, if_false]
        rw [rank_stopping rfl]
        simp only [rank, hworker, line]
        omega
    next => cases hstep
  next => cases hstep

theorem workerStep_works (h : Inv config s) {action : WorkerAction ρ}
    (hstep : workerStep config s action = some after) : Works config s after := by
  cases action with
  | sweep succeeds => exact activeExpiry_works h hstep
  | takePending sweep =>
    simp only [workerStep] at hstep
    split at hstep
    next command hworker =>
      refine dispatch_works h ?_ ?_ ?_ rfl rfl rfl hstep
      · rw [hworker, line]
        rfl
      · simp [held, waiting, queue, disconnected, hworker, claimed, answers, unclaimed, pendingRequests]
      · simp only [effort, hworker]
        omega
    next => cases hstep
  | receive => exact receiveCommand_works hstep
  | release sweep => exact releaseDequeuedRequestSlots_works h hstep
  | timeout =>
    simp only [workerStep] at hstep
    split at hstep
    next requests hworker =>
      cases hstep
      refine ⟨fun _ => .inl rfl, rfl, ?_⟩
      intro id _ _
      simp only [rank, effort, hworker, line, gathering, length_nil, toList_none, nil_append]
      omega
    next => cases hstep
  | claim => exact claimNext_works hstep
  | claimed => exact allClaimed_works hstep
  | execute execution => exact execute_works h hstep
  | deliver => exact deliver_works hstep
  | finish due => exact finish_works hstep
  | stop =>
    simp only [workerStep] at hstep
    split at hstep
    next pending retain hworker hlock =>
      cases hstep
      refine ⟨fun _ => .inl rfl, rfl, ?_⟩
      intro id _ _
      rw [rank_stopping hworker]
      simp [rank, effort, line, ahead]
    next => cases hstep
  | close =>
    simp only [workerStep] at hstep
    split at hstep
    next pending retain hworker =>
      cases hstep
      have hids : ∀ id ∈ pendingRequests pending ++ s.channel.flatMap requests, id ∈ s.held := by
        intro id hid
        simpa [held, waiting, queue, disconnected, hworker, claimed, answers, unclaimed] using hid
      refine ⟨?_, rfl, ?_⟩
      · intro id
        by_cases hid : id ∈ pendingRequests pending ++ s.channel.flatMap requests
        · right
          refine ⟨hids id hid, ?_⟩
          simp only [change, if_pos hid, dropSender, and_self]
        · exact .inl (if_neg hid)
      · intro id _ _
        simp [rank, effort, hworker, line, ahead]
    next => cases hstep

/-! ## Runs -/

theorem Counting.worker (hcounting : Counting s) (hworks : Works config s after) : Counting after := by
  intro ids hlock id hid
  rw [hworks.lock] at hlock
  have hcaller := hcounting ids hlock id hid
  rcases hworks.touched id with hsame | ⟨-, hsame, -⟩
  · rw [hsame]
    exact hcaller
  · rw [hsame]
    exact hcaller

/-- One step of anybody: answers are final, and so is what a caller was told. -/
theorem step_kept (h : Inv config s) (hcounting : Counting s) (hstep : step config s action = some after)
    (id : RequestId) :
    ((s.requests id).response ≠ .empty → (after.requests id).response = (s.requests id).response) ∧
      ((s.requests id).sent = true → (after.requests id).sent = true) ∧
      ∀ answer, (s.requests id).caller = .returned answer → (after.requests id).caller = .returned answer := by
  cases action with
  | client action =>
    obtain ⟨hresponse, hsent, hreturned⟩ := (clientStep_waits h hcounting hstep).kept id
    exact ⟨fun _ => hresponse, hsent, hreturned⟩
  | worker action =>
    rcases (workerStep_works h hstep).touched id with hsame | ⟨hheld, hcaller, hsent⟩
    · rw [hsame]
      exact ⟨fun _ => rfl, fun h => h, fun _ h => h⟩
    · refine ⟨fun hanswered => absurd (h.held_unanswered hheld) hanswered, ?_, ?_⟩
      · rw [hsent]
        exact fun h => h
      · rw [hcaller]
        exact fun _ h => h

theorem step_counting (h : Inv config s) (hcounting : Counting s) (hstep : step config s action = some after) :
    Counting after := by
  cases action with
  | client action => exact (clientStep_waits h hcounting hstep).counting
  | worker action => exact hcounting.worker (workerStep_works h hstep)

theorem Reachable.counting (h : Reachable config s) : Counting s := by
  obtain ⟨actions, hrun⟩ := h
  have hboth : Inv config s ∧ Counting s := by
    have hstart : Inv config (start : State ρ) ∧ Counting (start : State ρ) := ⟨inv_start, by simp [Counting, start]⟩
    refine Lib.run_invariant (I := fun s => Inv config s ∧ Counting s) ?_ hrun hstart
    intro s action after hs hstep
    exact ⟨hs.1.step hstep, step_counting hs.1 hs.2 hstep⟩
  exact hboth.2

/-- In a run, answers are final and what a caller was told is final. -/
theorem run_kept (h : Reachable config s) (hrun : Lib.run (step config) s actions = some after) (id : RequestId) :
    ((s.requests id).response ≠ .empty → (after.requests id).response = (s.requests id).response) ∧
      ∀ answer, (s.requests id).caller = .returned answer → (after.requests id).caller = .returned answer := by
  have hkept := Lib.run_invariant (I := fun middle => Inv config middle ∧ Counting middle ∧
    ((s.requests id).response ≠ .empty → (middle.requests id).response = (s.requests id).response) ∧
    ∀ answer, (s.requests id).caller = .returned answer → (middle.requests id).caller = .returned answer) ?_ hrun
    ⟨h.inv, h.counting, fun _ => rfl, fun _ h => h⟩
  · exact hkept.2.2
  · rintro middle action next ⟨hinv, hcounting, hresponse, hreturned⟩ hstep
    obtain ⟨hanswer, -, htold⟩ := step_kept hinv hcounting hstep id
    refine ⟨hinv.step hstep, step_counting hinv hcounting hstep, ?_, fun answer h => htold answer (hreturned answer h)⟩
    intro hanswered
    rw [hanswer (by rw [hresponse hanswered]; exact hanswered), hresponse hanswered]

/-- A request that was sent has its answer after as many steps of the worker as its rank says. -/
theorem run_answers (h : Reachable config s) (hsent : (s.requests id).sent = true)
    (hrun : Lib.run (step config) s actions = some after) (henough : rank config s id < actions.countP
      Action.isWorker) :
    (after.requests id).response ≠ .empty := by
  refine Lib.run_reaches_goal (fun middle => Inv config middle ∧ Counting middle ∧ (middle.requests id).sent = true)
    (fun middle => (middle.requests id).response ≠ .empty) Action.isWorker (fun middle => rank config middle id)
    ?_ ?_ ?_ ?_ hrun ⟨h.inv, h.counting, hsent⟩ henough
  · rintro middle action next ⟨hinv, hcounting, hmiddle⟩ hstep
    exact ⟨hinv.step hstep, step_counting hinv hcounting hstep, (step_kept hinv hcounting hstep id).2.1 hmiddle⟩
  · rintro middle action next ⟨hinv, hcounting, -⟩ hanswered hstep
    rw [(step_kept hinv hcounting hstep id).1 hanswered]
    exact hanswered
  · rintro middle action next ⟨hinv, hcounting, hmiddle⟩ hempty hworker hstep
    cases action with
    | client action => cases hworker
    | worker action =>
      have hheld := hinv.held_of_unanswered hmiddle (not_not.mp hempty)
      by_cases hnext : (next.requests id).response = .empty
      · right
        refine (workerStep_works hinv hstep).rank id hheld ?_
        exact (hinv.step hstep).held_of_unanswered ((step_kept hinv hcounting hstep id).2.1 hmiddle) hnext
      · exact .inl hnext
  · rintro middle action next ⟨hinv, hcounting, hmiddle⟩ hempty hclient hstep
    cases action with
    | client action =>
      right
      have hheld := hinv.held_of_unanswered hmiddle (not_not.mp hempty)
      exact Nat.le_of_eq ((clientStep_waits hinv hcounting hstep).rank_eq hheld)
    | worker action => cases hclient

/-- While a request waits, the worker can take a step, or whoever has the lock of the gate can. -/
theorem step_enabled [Inhabited ρ] (h : Inv config s) (hid : id ∈ s.held) :
    ∃ action after, (action.isWorker = true ∨ action = .client .countSlots) ∧ step config s action = some after := by
  cases hlock : s.lock with
  | some ids =>
    -- a sender between the channel and the counter goes first
    have hcounts : (step config s (.client .countSlots)).isSome = true := by simp [step, clientStep, countSlots, hlock]
    obtain ⟨after, hafter⟩ := isSome_iff_exists.mp hcounts
    exact ⟨.client .countSlots, after, .inr rfl, hafter⟩
  | none =>
    have hworker : ∀ action : WorkerAction ρ, (workerStep config s action).isSome = true →
        ∃ action after, (action.isWorker = true ∨ action = .client .countSlots) ∧
          step config s action = some after := by
      intro action hsome
      obtain ⟨after, hafter⟩ := isSome_iff_exists.mp hsome
      exact ⟨.worker action, after, .inl rfl, hafter⟩
    have hdispatch : ∀ (base : State ρ) (command : SchedulerCommand), (dispatch config base command none).isSome =
      true := by
      intro base command
      cases command <;> rfl
    have hle := h.released hlock
    cases hplace : s.worker with
    | idle pending =>
      cases pending with
      | some command => exact hworker (.takePending none) (by simp [workerStep, hplace, hdispatch])
      | none =>
        -- the request is in the channel
        cases hchannel : s.channel with
        | nil =>
          simp [held, waiting, queue, hplace, hchannel, claimed, answers, unclaimed, pendingRequests] at hid
        | cons command channel => exact hworker .receive (by simp [workerStep, receiveCommand, hplace, hchannel])
    | received command =>
      rw [hplace, unreleased] at hle
      exact hworker (.release none)
        (by simp [workerStep, releaseDequeuedRequestSlots, hplace, hlock, if_pos hle, hdispatch])
    | collecting requests => exact hworker .timeout (by simp [workerStep, hplace])
    | collected requests command =>
      rw [hplace, unreleased] at hle
      exact hworker (.release none) (by simp [workerStep, releaseDequeuedRequestSlots, hplace, hlock, if_pos hle])
    | claiming single remaining claimed afterwards =>
      cases remaining with
      | nil => exact hworker .claimed (by simp [workerStep, allClaimed, hplace])
      | cons next remaining =>
        refine hworker .claim ?_
        simp only [workerStep, claimNext, hplace]
        cases (s.requests next).word <;> rfl
    | executing single claimed afterwards =>
      have hdatabase := h.database (disconnected_of hplace (by simp))
      exact hworker (.execute (.denied default)) (by simp [workerStep, execute, hplace, hdatabase, executionAnswers])
    | delivering marked answers completed afterwards =>
      cases answers with
      | nil =>
        refine hworker (.finish false) ?_
        simp only [workerStep, finish, hplace]
        cases completed <;> cases afterwards.termination <;> rfl
      | cons entry answers =>
        refine hworker .deliver ?_
        simp only [workerStep, deliver, hplace]
        cases marked <;> rfl
    | stopping pending retain => exact hworker .stop (by simp [workerStep, hplace, hlock])
    | closing pending retain => exact hworker .close (by simp [workerStep, hplace])
    | closed =>
      simp [held, waiting, queue, disconnected, hplace, claimed, answers, unclaimed] at hid

/-! ## What every request gets -/

/-- What the caller was told, or is told when it looks. -/
def Request.Answered (request : Request ρ) (answer : Answer ρ) : Prop :=
  request.caller = .returned answer ∨ request.response.receive = some answer

/-- What a request can count on, whatever its caller and the others do. -/
structure Served (config : GroupCommitConfig) (s : State ρ) (id : RequestId) : Prop where
  /-- It is handed to the database at most once. -/
  once : (s.requests id).executions ≤ 1
  /-- If the answer is that it was withdrawn, then it was never handed to the database. -/
  withdrawn : ∀ answer, (s.requests id).Answered answer → answer = .cancelled ∨ answer = .deadlineExceeded →
    (s.requests id).executions = 0 ∧ (s.requests id).report = none ∧ (s.requests id).word = .cancelled
  /-- If its execution was started, then the answer is what that came to. -/
  own : (s.requests id).word = .executing ∨ (s.requests id).word = .completed ∨ 0 < (s.requests id).executions →
    ∀ answer, (s.requests id).Answered answer →
      (s.requests id).report = some answer ∧ ∃ report, answer = .reported report
  /-- An answer is final, and so is what the caller was told. -/
  final : ∀ actions after, Lib.run (step config) s actions = some after →
    ((s.requests id).response ≠ .empty → (after.requests id).response = (s.requests id).response) ∧
    ∀ answer, (s.requests id).caller = .returned answer → (after.requests id).caller = .returned answer
  /-- Once it is sent, a bounded number of steps of the worker answers it, whatever happens in between. -/
  answered : (s.requests id).sent = true → ∀ actions after, Lib.run (step config) s actions = some after →
    rank config s id < actions.countP Action.isWorker → (after.requests id).response ≠ .empty
  /-- Until then there is a next step: the worker's, or of whoever has the lock of the gate. -/
  enabled : (s.requests id).sent = true → (s.requests id).response = .empty →
    ∃ action after, (action.isWorker = true ∨ action = .client .countSlots) ∧ step config s action = some after
  /-- A caller that waits for the answer then gets it. -/
  received : (s.requests id).response ≠ .empty → (s.requests id).caller = .waiting ∨
    (s.requests id).caller = .receiving →
    ∃ after answer, (s.requests id).act .receive = some after ∧ (s.requests id).response.receive = some answer ∧
      after.caller = .returned answer

/-- What a request at some stage may be answered. -/
theorem Request.At.answered (h : request.At stage) (hanswered : request.Answered answer) :
    stage.Tells request.word answer := by
  rcases hanswered with htold | hready
  · exact h.told answer htold
  · exact h.receives hready

theorem Request.At.withdrawn (h : request.At stage) (hanswered : request.Answered answer)
    (hanswer : answer = .cancelled ∨ answer = .deadlineExceeded) :
    request.executions = 0 ∧ request.report = none ∧ request.word = .cancelled := by
  have htells := h.answered hanswered
  have hexecutions := h.executions
  have hreport := h.report
  have hwithdrawn : Withdrawn request.word answer ∧ stage.report = none := by
    cases stage with
    | unsent =>
      rcases htells with rfl | rfl | hwithdrawn
      · simp at hanswer
      · simp at hanswer
      · exact ⟨hwithdrawn, rfl⟩
    | queued => exact ⟨htells, rfl⟩
    | dropped =>
      rcases htells with rfl | hwithdrawn
      · simp at hanswer
      · exact ⟨hwithdrawn, rfl⟩
    | claimed | executed => exact htells.elim
    | answered report =>
      cases htells
      simp at hanswer
  rw [hwithdrawn.2] at hexecutions hreport
  exact ⟨Nat.le_zero.mp hexecutions, hreport, hwithdrawn.1.1⟩

theorem Request.At.own (h : request.At stage)
    (hstarted : request.word = .executing ∨ request.word = .completed ∨ 0 < request.executions)
    (hanswered : request.Answered answer) : request.report = some answer ∧ ∃ report, answer = .reported report := by
  have htells := h.answered hanswered
  have hunstarted : (request.word = .queued ∨ request.word = .cancelled) → request.executions ≤ 0 → False := by
    rintro (hword | hword) hnone <;>
      · rw [hword] at hstarted
        simp at hstarted
        omega
  cases stage with
  | unsent | queued | dropped => exact (hunstarted h.word h.executions).elim
  | claimed | executed => exact htells.elim
  | answered report =>
    cases htells
    exact ⟨h.report, report, rfl⟩

/-- In every interleaving of submissions, cancellations, deadlines, dropped handles and shutdown: each request is served
once, and the slots of the gate are those of the requests that the worker has not taken. -/
theorem requests_served_once [Inhabited ρ] (h : Reachable config s) :
    (∀ id, Served config s id) ∧ s.queuedRequestSlots + s.owed = s.untaken ∧
      s.queuedRequestSlots + s.owed ≤ config.queueCapacity := by
  refine ⟨?_, h.inv.slots, h.inv.bound⟩
  intro id
  obtain ⟨stage, hat⟩ := h.inv.at id
  refine ⟨?_, fun _ => hat.withdrawn, fun hstarted _ => hat.own hstarted, fun _ _ hrun => run_kept h hrun id,
    fun hsent _ _ => run_answers h hsent, fun hsent hempty =>
      step_enabled h.inv (h.inv.held_of_unanswered hsent hempty), ?_⟩
  · have hexecutions := hat.executions
    split at hexecutions <;> omega
  · intro hresponse hcaller
    cases hready : (s.requests id).response.receive with
    | none =>
      cases hkind : (s.requests id).response with
      | empty => exact absurd hkind hresponse
      | sent answer | closed =>
        rw [hkind] at hready
        cases hready
    | some answer =>
      refine ⟨{ s.requests id with caller := .returned answer }, answer, ?_, rfl, rfl⟩
      rcases hcaller with hcaller | hcaller
      · simp only [Request.act, hcaller, hready]
      · simp only [Request.act, hcaller, hready]

/-- Cohorts of two, and three queue slots. -/
def threeSlots : GroupCommitConfig where
  maxBatchSize := 2
  queueCapacity := 3
  foregroundBudget := none
  batch_pos := Nat.two_pos
  batch_le := by decide
  capacity_ge := by decide
  capacity_le := by decide
  budget_pos := by simp

/-- A request is cancelled in the queue, and a cohort goes through behind it. -/
def cancelledAndCohort : List (Action Bool) :=
  [.client (.act 0 (.submit false true false true)), .client (.act 0 .checkControl),
    .client (.act 0 (.checkDeadline false)), .client (.admitCommand 0), .client .countSlots, .client (.act 0 .wait),
    .client (.submitCohort [1, 2]), .client (.admitCohortCommand 1), .client .countSlots, .client (.act 0 .cancel),
    .worker .receive, .worker (.release none), .worker .claim, .worker .claimed, .worker (.finish false),
    .worker .receive, .worker (.release none), .worker .claim, .worker .claim, .worker .claimed,
    .worker (.execute (.group (· = 1))), .worker .deliver, .worker .deliver, .worker .deliver, .worker .deliver]

theorem requests_served_once_answered :
    ∃ s : State Bool, Reachable threeSlots s ∧ (s.requests 0).word = .cancelled ∧ (s.requests 0).executions = 0 ∧
      (s.requests 1).response = .sent (.reported true) ∧ (s.requests 2).response = .sent (.reported false) ∧
      (s.requests 2).executions = 1 ∧ (∀ id, Served threeSlots s id) ∧ s.queuedRequestSlots + s.owed = s.untaken ∧
      s.queuedRequestSlots + s.owed ≤ threeSlots.queueCapacity := by
  have hreached : ∃ s, Lib.run (step threeSlots) State.start cancelledAndCohort = some s ∧
      (s.requests 0).word = .cancelled ∧ (s.requests 0).executions = 0 ∧
      (s.requests 1).response = .sent (.reported true) ∧ (s.requests 2).response = .sent (.reported false) ∧
      (s.requests 2).executions = 1 := ⟨_, rfl, rfl, rfl, rfl, rfl, rfl⟩
  obtain ⟨s, hrun, hword, hnone, hfirst, hsecond, hone⟩ := hreached
  have hreachable : Reachable threeSlots s := ⟨cancelledAndCohort, hrun⟩
  exact ⟨s, hreachable, hword, hnone, hfirst, hsecond, hone, requests_served_once hreachable⟩

end Hyphae.Scheduler
