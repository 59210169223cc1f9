import Mathlib.Data.List.Perm.Basic
import TimingWheel.Proofs.Pool.Steps

/-!
# Jobs are conserved

A job comes into a pool with a call, is sent to the queue or refused, is taken up by a worker,
begun, run, and reported. At each of these places what comes in is what goes out and what stays.
This is said for one place after the other, so that a run, however its steps are mixed, satisfies
the same laws as a single step.

## Main definitions

- `Pool.startedBy`, `Pool.startedAlong` — the jobs that workers begin to run
- `Pool.submittedIn` — the jobs for which calls are made
- `Pool.Conserves` — one law for each place

## Main statements

- `Pool.conserves_of_takes` — a step conserves the jobs
- `Pool.conserves_of_run` — and so does a run
-/

namespace TimingWheel.Pool

variable {β : Type}

/-! ### What steps bring in -/

def Action.submits : Action β → List β
  | .submit job => [job]
  | _ => []

/-- The jobs for which calls are made. -/
def submittedIn (actions : List (Action β)) : List β := actions.flatMap Action.submits

/-- The job that a worker begins to run, if the step is of that kind. -/
def startedBy (p : Pool β) : Action β → List β
  | .begin w => (p.workers[w]?.bind (Worker.jobAt? .received)).toList
  | _ => []

/-- The jobs that workers begin to run, in order. -/
def startedAlong (p : Pool β) : List (Action β) → List β
  | [] => []
  | action :: rest => p.startedBy action ++ match p.step action with
    | some (q, _) => q.startedAlong rest
    | none => []

@[simp] theorem submittedIn_nil : submittedIn ([] : List (Action β)) = [] := rfl

@[simp] theorem submittedIn_cons (action : Action β) (rest : List (Action β)) :
    submittedIn (action :: rest) = action.submits ++ submittedIn rest := rfl

@[simp] theorem submittedIn_append (before after : List (Action β)) :
    submittedIn (before ++ after) = submittedIn before ++ submittedIn after :=
  List.flatMap_append

theorem startedAlong_cons {p q : Pool β} {action : Action β} {events : List (Event β)}
    (h : p.Takes action q events) (rest : List (Action β)) :
    p.startedAlong (action :: rest) = p.startedBy action ++ q.startedAlong rest := by
  rw [startedAlong, step_of_takes h]

theorem startedBy_begin {p : Pool β} {w : Nat} {job : β}
    (h : p.workers[w]? = some (.received job)) : p.startedBy (.begin w) = [job] := by
  simp [startedBy, h, Worker.jobAt?]

/-! ### Single entries -/

theorem perm_set {α : Type} {l : List α} {i : Nat} {a : α} (h : l[i]? = some a) (b : α) :
    (a :: l.set i b).Perm (b :: l) := by
  simpa [h] using l.getD_set_perm_cons i b

theorem perm_eraseIdx {α : Type} {l : List α} {i : Nat} {a : α} (h : l[i]? = some a) :
    (a :: l.eraseIdx i).Perm l := by
  obtain ⟨hi, rfl⟩ := List.getElem?_eq_some_iff.1 h
  exact List.getElem_cons_eraseIdx_perm hi

/-- When one worker changes, so does what is in its hands. -/
theorem perm_hands {workers : List (Worker β)} {w : Nat} {a : Worker β}
    (h : workers[w]? = some a) (b : Worker β) (stage : Worker.Stage) :
    ((a.jobAt? stage).toList ++ (workers.set w b).filterMap (Worker.jobAt? stage)).Perm
      ((b.jobAt? stage).toList ++ workers.filterMap (Worker.jobAt? stage)) := by
  have hcons (x : Worker β) (xs : List (Worker β)) :
      (x :: xs).filterMap (Worker.jobAt? stage) =
        (x.jobAt? stage).toList ++ xs.filterMap (Worker.jobAt? stage) := by
    rw [List.filterMap_cons]
    cases x.jobAt? stage <;> rfl
  rw [← hcons, ← hcons]
  exact (perm_set h b).filterMap _

theorem mem_hands {p : Pool β} {w : Nat} {worker : Worker β} {job : β}
    (h : p.workers[w]? = some worker) (stage : Worker.Stage)
    (hjob : worker.jobAt? stage = some job) : job ∈ p.hands stage :=
  List.mem_filterMap.2 ⟨worker, List.mem_of_getElem? h, hjob⟩

/-- A call that goes on still hands over its job. -/
theorem perm_calls_set {calls : List (Submission β)} {i : Nat} {a b : Submission β}
    (h : calls[i]? = some a) (hjob : a.job = b.job) :
    ((calls.set i b).map Submission.job).Perm (calls.map Submission.job) := by
  have hperm := (perm_set h b).map Submission.job
  rw [List.map_cons, List.map_cons, hjob] at hperm
  exact hperm.cons_inv

/-! ### The laws of one step -/

section

variable {p q : Pool β} {action : Action β} {events : List (Event β)}

/-- A job that a call hands over is sent to the queue or refused when the call ends. -/
theorem entered_of_takes (h : p.Takes action q events) :
    (jobs .accepted events ++ jobs .refused events ++ q.submissions.map Submission.job).Perm
      (action.submits ++ p.submissions.map Submission.job) := by
  cases h with
  | submit job => simp [Action.submits, Submission.job]
  | decline job => exact .refl _
  | announce hcall => exact perm_calls_set hcall (b := .announced _) rfl
  | reject hcall => exact perm_calls_set hcall (b := .rejected _) rfl
  | retract hcall => exact perm_calls_set hcall (b := .retracted _) rfl
  | send hcall | refuse hcall => exact (perm_eraseIdx hcall).map Submission.job
  | _ => simp [Action.submits, Event.kind, jobs_map_lost]

/-- A job that is sent to the queue is taken up, or lost with the last worker. -/
theorem queued_of_takes (h : p.Takes action q events) :
    p.queue ++ jobs .accepted events =
      jobs .taken events ++ jobs .lost events ++ q.queue := by
  cases h with
  | receive hworker hqueue => simp [hqueue, Event.kind, Event.job]
  | _ => simp [Event.kind, Event.job, jobs_map_lost]

/-- A job that a worker takes up is begun by that worker. -/
theorem received_of_takes (h : p.Takes action q events) :
    (p.startedBy action ++ q.hands .received).Perm
      (jobs .taken events ++ p.hands .received) := by
  cases h with
  | receive hworker => exact perm_hands hworker (.received _) .received
  | begin hworker =>
    rw [startedBy_begin hworker]
    exact perm_hands hworker (.running _) .received
  | complete hworker => exact perm_hands hworker (.completed _) .received
  | die hworker => exact perm_hands hworker (.dead _) .received
  | dieLast hworker =>
    rw [jobs_cons, jobs_map_lost]
    exact perm_hands hworker (.dead _) .received
  | report hworker => exact perm_hands hworker .idle .received
  | leave hworker => exact perm_hands hworker .left .received
  | _ => exact .refl _

/-- A job that is begun is run to its end. -/
theorem running_of_takes (h : p.Takes action q events) :
    (jobs .ran events ++ q.hands .running).Perm
      (p.startedBy action ++ p.hands .running) := by
  cases h with
  | receive hworker => exact perm_hands hworker (.received _) .running
  | begin hworker =>
    rw [startedBy_begin hworker]
    exact perm_hands hworker (.running _) .running
  | complete hworker => exact perm_hands hworker (.completed _) .running
  | die hworker => exact perm_hands hworker (.dead _) .running
  | dieLast hworker =>
    rw [jobs_cons, jobs_map_lost]
    exact perm_hands hworker (.dead _) .running
  | report hworker => exact perm_hands hworker .idle .running
  | leave hworker => exact perm_hands hworker .left .running
  | _ => exact .refl _

/-- A job that was run is reported, unless it has ended its worker. -/
theorem completed_of_takes (h : p.Takes action q events) :
    (jobs .finished events ++ (q.hands .completed ++ q.hands .dead)).Perm
      (jobs .ran events ++ (p.hands .completed ++ p.hands .dead)) := by
  have hboth {w : Nat} {a : Worker β} (hworker : p.workers[w]? = some a) (b : Worker β) :=
    (perm_hands hworker b .completed).append (perm_hands hworker b .dead)
  cases h with
  | receive hworker => exact hboth hworker (.received _)
  | begin hworker => exact hboth hworker (.running _)
  | complete hworker => exact hboth hworker (.completed _)
  | die hworker => exact (hboth hworker (.dead _)).trans List.perm_middle
  | dieLast hworker =>
    rw [jobs_cons, jobs_map_lost, jobs_cons, jobs_map_lost]
    exact (hboth hworker (.dead _)).trans List.perm_middle
  | report hworker => exact hboth hworker .idle
  | leave hworker => exact hboth hworker .left
  | _ => exact .refl _

end

/-! ### The laws of a run -/

/-- One law for each place: on the left what has left it and what stays, on the right what has come
in and what was there. -/
structure Conserves (submitted started : List β) (events : List (Event β)) (p q : Pool β) :
    Prop where
  entered : (jobs .accepted events ++ jobs .refused events ++
      q.submissions.map Submission.job).Perm (submitted ++ p.submissions.map Submission.job)
  queued : (jobs .taken events ++ jobs .lost events ++ q.queue).Perm
    (jobs .accepted events ++ p.queue)
  received : (started ++ q.hands .received).Perm (jobs .taken events ++ p.hands .received)
  running : (jobs .ran events ++ q.hands .running).Perm (started ++ p.hands .running)
  completed : (jobs .finished events ++ (q.hands .completed ++ q.hands .dead)).Perm
    (jobs .ran events ++ (p.hands .completed ++ p.hands .dead))
  /-- As long as nothing is lost, the queue keeps its order. -/
  inOrder : jobs .lost events = [] →
    p.queue ++ jobs .accepted events = jobs .taken events ++ q.queue

theorem conserves_of_takes {p q : Pool β} {action : Action β} {events : List (Event β)}
    (h : p.Takes action q events) :
    Conserves action.submits (p.startedBy action) events p q where
  entered := entered_of_takes h
  queued := (queued_of_takes h ▸ List.perm_append_comm)
  received := received_of_takes h
  running := running_of_takes h
  completed := completed_of_takes h
  inOrder hlost := by rw [queued_of_takes h, hlost, List.append_nil]

/-- One place after two parts of a run: what left it in both, and what came in in both. -/
theorem perm_join {α : Type} {out₁ out₂ in₁ in₂ first middle last : List α}
    (h₁ : (out₁ ++ middle).Perm (in₁ ++ first)) (h₂ : (out₂ ++ last).Perm (in₂ ++ middle)) :
    ((out₁ ++ out₂) ++ last).Perm ((in₁ ++ in₂) ++ first) := by
  classical
  rw [List.perm_iff_count] at h₁ h₂ ⊢
  intro a
  have h₁ := h₁ a
  have h₂ := h₂ a
  simp only [List.count_append] at h₁ h₂ ⊢
  omega

/-- The same for a place that keeps its order. -/
theorem flow_join {α : Type} {out₁ out₂ in₁ in₂ first middle last : List α}
    (h₁ : first ++ in₁ = out₁ ++ middle) (h₂ : middle ++ in₂ = out₂ ++ last) :
    first ++ (in₁ ++ in₂) = (out₁ ++ out₂) ++ last := by
  rw [← List.append_assoc, h₁, List.append_assoc, h₂, List.append_assoc]

theorem perm_interchange {α : Type} (a b c d : List α) :
    ((a ++ b) ++ (c ++ d)).Perm ((a ++ c) ++ (b ++ d)) := by
  simpa only [List.append_assoc] using (List.perm_append_comm_assoc b c d).append_left a

namespace Conserves

variable {p q r : Pool β} {submitted started submitted' started' : List β}
  {events later : List (Event β)}

theorem refl (p : Pool β) : Conserves [] [] [] p p := by
  constructor <;> simp

theorem trans (h₁ : Conserves submitted started events p q)
    (h₂ : Conserves submitted' started' later q r) :
    Conserves (submitted ++ submitted') (started ++ started') (events ++ later) p r where
  entered := by
    rw [jobs_append, jobs_append]
    exact ((perm_interchange ..).append_right _).trans (perm_join h₁.entered h₂.entered)
  queued := by
    rw [jobs_append, jobs_append, jobs_append]
    exact ((perm_interchange ..).append_right _).trans (perm_join h₁.queued h₂.queued)
  received := by
    rw [jobs_append]
    exact perm_join h₁.received h₂.received
  running := by
    rw [jobs_append]
    exact perm_join h₁.running h₂.running
  completed := by
    rw [jobs_append, jobs_append]
    exact perm_join h₁.completed h₂.completed
  inOrder hlost := by
    rw [jobs_append] at hlost
    obtain ⟨hfirst, hlast⟩ := List.append_eq_nil_iff.1 hlost
    rw [jobs_append, jobs_append]
    exact flow_join (h₁.inOrder hfirst) (h₂.inOrder hlast)

end Conserves

theorem conserves_of_run {p q : Pool β} {actions : List (Action β)} {log : List (Event β)}
    (h : p.run actions = some (q, log)) :
    Conserves (submittedIn actions) (p.startedAlong actions) log p q := by
  induction h using run_induction with
  | nil p => exact .refl p
  | cons hstep _ ih =>
    rw [startedAlong_cons hstep]
    exact (conserves_of_takes hstep).trans ih

@[simp] theorem hands_ofSize (stage : Worker.Stage) (size : Nat) :
    (ofSize size : Pool β).hands stage = [] := by
  cases stage <;> exact List.filterMap_replicate_of_none rfl

/-- What the laws say of a run of a new pool. -/
structure Ledger (submitted started : List β) (log : List (Event β)) (p : Pool β) : Prop where
  entered : (jobs .accepted log ++ jobs .refused log ++ p.submissions.map Submission.job).Perm
    submitted
  queued : (jobs .taken log ++ jobs .lost log ++ p.queue).Perm (jobs .accepted log)
  received : (started ++ p.hands .received).Perm (jobs .taken log)
  running : (jobs .ran log ++ p.hands .running).Perm started
  completed : (jobs .finished log ++ (p.hands .completed ++ p.hands .dead)).Perm (jobs .ran log)
  inOrder : jobs .lost log = [] → jobs .accepted log = jobs .taken log ++ p.queue

theorem ledger_of_run {size : Nat} {p : Pool β} {actions : List (Action β)} {log : List (Event β)}
    (h : (ofSize size).run actions = some (p, log)) :
    p.Ledger (submittedIn actions) ((ofSize size).startedAlong actions) log := by
  have hjobs := conserves_of_run h
  have hcalls : (ofSize size : Pool β).submissions = [] := rfl
  have hqueue : (ofSize size : Pool β).queue = [] := rfl
  constructor
  · simpa [hcalls] using hjobs.entered
  · simpa [hqueue] using hjobs.queued
  · simpa using hjobs.received
  · simpa using hjobs.running
  · simpa using hjobs.completed
  · simpa [hqueue] using hjobs.inOrder

end TimingWheel.Pool
