import TimingWheel.Proofs.Pool.Conservation

/-!
# What the counters of a pool say

Callers and workers change the two counters in steps of their own, apart from the queue, so that
neither counter ever is the length of the queue. What it is instead follows the jobs from place to
place: a job counts as queued from the step that announces it to the step that counts it off, and as
outstanding from its call to its report. A job that was lost, or that has ended its worker, is never
counted off.

## Main definitions

- `Pool.Exact` — both counters are sums over the places of jobs

## Main statements

- `Pool.exact_of_takes` — every step keeps them exact
- `Pool.exact_of_run` — so they are exact in every state of a run
- `Pool.settled_of_idle` — when no job is outstanding, nothing waits and nothing is under way
-/

namespace TimingWheel.Pool

variable {β : Type}

/-- The counters are exact when `lost` jobs were lost. -/
structure Exact (lost : Nat) (p : Pool β) : Prop where
  /-- Jobs that a call has announced, that wait, that were taken up and not counted off, or that
  were lost. -/
  queued : p.queued = p.submissions.countP Submission.isQueued + p.queue.length +
    (p.hands .received).length + lost
  /-- Jobs that are being handed over, that wait, that are in the hands of a worker, or that were
  lost. -/
  outstanding : p.outstanding = p.submissions.length + p.queue.length +
    ((p.hands .received).length + (p.hands .running).length + (p.hands .completed).length +
      (p.hands .dead).length) + lost

/-- How often a step counts a job as queued. -/
def Action.announces : Action β → Nat
  | .announce _ => 1
  | _ => 0

/-- How often a step of a call takes that back. -/
def Action.retracts : Action β → Nat
  | .retract _ => 1
  | _ => 0

theorem wordPred_of_pos {n : Nat} (h : 1 ≤ n) : wordPred n = n - 1 := if_neg (by omega)

/-! ### Calls that have announced their jobs -/

theorem countP_set {calls : List (Submission β)} {i : Nat} {a : Submission β}
    (h : calls[i]? = some a) (b : Submission β) :
    (calls.set i b).countP Submission.isQueued + a.isQueued.toNat =
      calls.countP Submission.isQueued + b.isQueued.toNat := by
  have hcount := (perm_set h b).countP_eq Submission.isQueued
  rw [List.countP_cons, List.countP_cons] at hcount
  cases ha : a.isQueued <;> cases hb : b.isQueued <;> simp_all

theorem countP_eraseIdx {calls : List (Submission β)} {i : Nat} {a : Submission β}
    (h : calls[i]? = some a) :
    (calls.eraseIdx i).countP Submission.isQueued + a.isQueued.toNat =
      calls.countP Submission.isQueued := by
  rw [← (perm_eraseIdx h).countP_eq Submission.isQueued, List.countP_cons]
  cases a.isQueued <;> rfl

/-! ### One step -/

section

variable {p q : Pool β} {action : Action β} {events : List (Event β)}

/-- How a step changes the counter of outstanding jobs. -/
theorem outstanding_of_takes (h : p.Takes action q events) :
    q.outstanding = p.outstanding + action.submits.length -
      ((jobs .refused events).length + (jobs .finished events).length) := by
  cases h with
  | dieLast => simp [Action.submits, Event.kind, jobs_map_lost]
  | _ => simp [Action.submits, Event.kind]

/-- Jobs are counted as outstanding as they come in, and counted off as they are refused or
reported, and what is counted off was counted. -/
theorem outstanding_kept {lost : Nat} (hexact : p.Exact lost) (h : p.Takes action q events) :
    q.outstanding + ((jobs .refused events).length + (jobs .finished events).length) =
      p.outstanding + action.submits.length ∧
    q.outstanding = q.submissions.length + q.queue.length +
      ((q.hands .received).length + (q.hands .running).length + (q.hands .completed).length +
        (q.hands .dead).length) + (lost + (jobs .lost events).length) := by
  have hcounter := outstanding_of_takes h
  have hentered := (entered_of_takes h).length_eq
  have hqueued := congrArg List.length (queued_of_takes h)
  have hreceived := (received_of_takes h).length_eq
  have hrunning := (running_of_takes h).length_eq
  have hcompleted := (completed_of_takes h).length_eq
  simp only [List.length_append, List.length_map] at hentered hqueued hreceived hrunning hcompleted
  have hbefore := hexact.outstanding
  omega

/-- How a step changes the number of calls that count their job as queued. -/
theorem calls_queued_of_takes (h : p.Takes action q events) :
    q.submissions.countP Submission.isQueued + (jobs .accepted events).length + action.retracts =
      p.submissions.countP Submission.isQueued + action.announces := by
  cases h with
  | @announce i job hcall => exact countP_set hcall (.announced job)
  | @send i job hcall => exact countP_eraseIdx hcall
  | @reject i job hcall => exact Nat.add_right_cancel (countP_set hcall (.rejected job))
  | @retract i job hcall => exact countP_set hcall (.retracted job)
  | refuse hcall => exact countP_eraseIdx hcall
  | submit job => simp [Action.announces, Action.retracts, Submission.isQueued]
  | dieLast => simp [Action.announces, Action.retracts, Event.kind, jobs_map_lost]
  | _ => rfl

/-- How a step changes the counter of queued jobs, as long as it does not wrap. -/
theorem queued_counter_of_takes (h : p.Takes action q events)
    (hcounted : action.retracts + (p.startedBy action).length ≤ p.queued + action.announces) :
    q.queued + (action.retracts + (p.startedBy action).length) = p.queued + action.announces := by
  cases h with
  | retract hcall =>
    have hone : 1 ≤ p.queued := hcounted
    rw [wordPred_of_pos hone]
    exact Nat.sub_add_cancel hone
  | begin hworker =>
    rw [startedBy_begin hworker] at hcounted ⊢
    have hone : 1 ≤ p.queued := hcounted
    rw [wordPred_of_pos hone]
    exact Nat.sub_add_cancel hone
  | _ => rfl

/-- Jobs are counted as queued as they are announced, and counted off by the call that takes that
back or by the worker that begins them, and what is counted off was counted. -/
theorem queued_kept {lost : Nat} (hexact : p.Exact lost) (h : p.Takes action q events) :
    q.queued + (action.retracts + (p.startedBy action).length) = p.queued + action.announces ∧
    q.queued = q.submissions.countP Submission.isQueued + q.queue.length +
      (q.hands .received).length + (lost + (jobs .lost events).length) := by
  have hcounter := queued_counter_of_takes h
  have hcalls := calls_queued_of_takes h
  have hqueued := congrArg List.length (queued_of_takes h)
  have hreceived := (received_of_takes h).length_eq
  simp only [List.length_append] at hqueued hreceived
  have hbefore := hexact.queued
  have hcounted : action.retracts + (p.startedBy action).length ≤ p.queued + action.announces := by
    omega
  have hafter := hcounter hcounted
  exact ⟨hafter, by omega⟩

theorem exact_of_takes {lost : Nat} (hexact : p.Exact lost) (h : p.Takes action q events) :
    q.Exact (lost + (jobs .lost events).length) :=
  ⟨(queued_kept hexact h).2, (outstanding_kept hexact h).2⟩

end

/-! ### Runs -/

theorem exact_ofSize (size : Nat) : (ofSize size : Pool β).Exact 0 := by
  constructor <;> simp only [hands_ofSize] <;> rfl

theorem Exact.of_run {p q : Pool β} {actions : List (Action β)} {log : List (Event β)} {lost : Nat}
    (hexact : p.Exact lost) (h : p.run actions = some (q, log)) :
    q.Exact (lost + (jobs .lost log).length) := by
  induction h using run_induction generalizing lost with
  | nil p => exact hexact
  | cons hstep _ ih =>
    have hlast := ih (exact_of_takes hexact hstep)
    rwa [jobs_append, List.length_append, ← Nat.add_assoc]

/-- The counters are exact in every state of a run. -/
theorem exact_of_run {size : Nat} {p : Pool β} {actions : List (Action β)} {log : List (Event β)}
    (h : (ofSize size).run actions = some (p, log)) : p.Exact (jobs .lost log).length := by
  simpa using (exact_ofSize size).of_run h

/-- When no job is outstanding, none is anywhere in the pool, and every job that the queue ever took
was run to its end and reported. -/
theorem settled_of_idle {size : Nat} {p : Pool β} {actions : List (Action β)} {log : List (Event β)}
    (h : (ofSize size).run actions = some (p, log)) (hidle : p.isIdle = true) :
    p.submissions = [] ∧ p.queue = [] ∧ (∀ stage, p.hands stage = []) ∧ jobs .lost log = [] ∧
      (jobs .finished log).Perm (jobs .accepted log) := by
  have hexact := exact_of_run h
  have hzero : p.outstanding = 0 := of_decide_eq_true hidle
  have hsum := hexact.outstanding
  have hcalls : p.submissions = [] := List.length_eq_zero_iff.1 (by omega)
  have hqueue : p.queue = [] := List.length_eq_zero_iff.1 (by omega)
  have hlost : jobs .lost log = [] := List.length_eq_zero_iff.1 (by omega)
  have hhands (stage : Worker.Stage) : p.hands stage = [] := by
    cases stage <;> exact List.length_eq_zero_iff.1 (by omega)
  refine ⟨hcalls, hqueue, hhands, hlost, ?_⟩
  have hjobs := ledger_of_run h
  have htaken : (jobs .taken log).Perm (jobs .accepted log) := by
    simpa [hlost, hqueue] using hjobs.queued
  have hstarted := hjobs.received
  have hran := hjobs.running
  have hfinished := hjobs.completed
  simp only [hhands, List.append_nil] at hstarted hran hfinished
  exact hfinished.trans (hran.trans (hstarted.trans htaken))

end TimingWheel.Pool
