import TimingWheel.Proofs.Pool.Conservation

/-!
# One after the other

Several workers run their jobs side by side, so that jobs end in any order. A pool with one worker
has one job in hand at a time, and then what a place gives out is, in order, what it took in. The
same holds for the calls of one caller, who makes the next call when the last one has ended.

## Main definitions

- `Pool.InTurn` — each place of the only worker gives out what it took in, in order
- `Pool.OneByOne` — no call begins while another one is in progress

## Main statements

- `Pool.inTurn_of_run` — a run of a single worker
- `Pool.taken_in_turn` — its jobs are begun, run and finished in the order in which it took them
- `Pool.calls_of_run` — single calls are answered in the order in which they were made
-/

namespace TimingWheel.Pool

variable {β : Type}

/-! ### A single worker -/

/-- What is in the hands of the only worker, and what it is given, is what it gives out, and then
what it still has. -/
structure InTurn (started : List β) (events : List (Event β)) (p q : Pool β) : Prop where
  received : p.hands .received ++ jobs .taken events = started ++ q.hands .received
  running : p.hands .running ++ started = jobs .ran events ++ q.hands .running
  completed : (p.hands .completed ++ p.hands .dead) ++ jobs .ran events =
    jobs .finished events ++ (q.hands .completed ++ q.hands .dead)

theorem workers_length_of_takes {p q : Pool β} {action : Action β} {events : List (Event β)}
    (h : p.Takes action q events) : q.workers.length = p.workers.length := by
  cases h <;> simp

theorem InTurn.of_takes {p q : Pool β} {action : Action β} {events : List (Event β)}
    (h : p.Takes action q events) (hone : p.workers.length = 1) :
    InTurn (p.startedBy action) events p q := by
  obtain ⟨only, hworkers⟩ := List.length_eq_one_iff.1 hone
  have honly {w : Nat} {worker : Worker β} (hworker : p.workers[w]? = some worker) :
      w = 0 ∧ only = worker := by
    rw [hworkers] at hworker
    cases w with
    | zero => exact ⟨rfl, Option.some.inj hworker⟩
    | succ w => cases hworker
  have hsingle (worker : Worker β) (stage : Worker.Stage) :
      [worker].filterMap (Worker.jobAt? stage) = (worker.jobAt? stage).toList := by
    rw [List.filterMap_cons]
    cases worker.jobAt? stage <;> rfl
  have hbefore (stage : Worker.Stage) : p.hands stage = (only.jobAt? stage).toList := by
    rw [hands, hworkers, hsingle]
  have hafter (next : Worker β) (stage : Worker.Stage) :
      (p.workers.set 0 next).filterMap (Worker.jobAt? stage) = (next.jobAt? stage).toList := by
    rw [hworkers, List.set_cons_zero, hsingle]
  cases h with
  | begin hworker =>
    rw [startedBy_begin hworker]
    obtain ⟨rfl, rfl⟩ := honly hworker
    constructor <;> simp only [hbefore] <;> simp only [hands, setWorker, hafter] <;> rfl
  | receive hworker | complete hworker | die hworker | report hworker
  | leave hworker =>
    obtain ⟨rfl, rfl⟩ := honly hworker
    constructor <;> simp only [hbefore] <;> simp only [hands, setWorker, hafter] <;> rfl
  | dieLast hworker =>
    obtain ⟨rfl, rfl⟩ := honly hworker
    constructor <;> simp only [hbefore, jobs_cons, jobs_map_lost] <;>
      simp only [hands, setWorker, hafter] <;> rfl
  | _ => constructor <;> simp [hands, startedBy, Event.kind]

theorem InTurn.trans {p q r : Pool β} {started started' : List β} {events later : List (Event β)}
    (h₁ : InTurn started events p q) (h₂ : InTurn started' later q r) :
    InTurn (started ++ started') (events ++ later) p r where
  received := by
    rw [jobs_append]
    exact flow_join h₁.received h₂.received
  running := by
    rw [jobs_append]
    exact flow_join h₁.running h₂.running
  completed := by
    rw [jobs_append, jobs_append]
    exact flow_join h₁.completed h₂.completed

theorem inTurn_of_run {p q : Pool β} {actions : List (Action β)} {log : List (Event β)}
    (h : p.run actions = some (q, log)) (hone : p.workers.length = 1) :
    InTurn (p.startedAlong actions) log p q := by
  induction h using run_induction with
  | nil p => constructor <;> simp [startedAlong]
  | cons hstep _ ih =>
    rw [startedAlong_cons hstep]
    exact (InTurn.of_takes hstep hone).trans (ih ((workers_length_of_takes hstep).trans hone))

/-- A single worker takes its jobs in the order in which they were sent, begins and runs them in
that order, and finishes them in that order. -/
theorem taken_in_turn {p : Pool β} {actions : List (Action β)} {log : List (Event β)}
    (h : (ofSize 1).run actions = some (p, log)) :
    jobs .taken log = (ofSize 1).startedAlong actions ++ p.hands .received ∧
      (ofSize 1).startedAlong actions = jobs .ran log ++ p.hands .running ∧
      jobs .ran log = jobs .finished log ++ (p.hands .completed ++ p.hands .dead) := by
  have hturn := inTurn_of_run h rfl
  exact ⟨by simpa using hturn.received, by simpa using hturn.running,
    by simpa using hturn.completed⟩

/-! ### Single calls -/

/-- No call begins while another one is in progress. -/
def OneByOne (p : Pool β) : List (Action β) → Prop
  | [] => True
  | action :: rest => (action.submits ≠ [] → p.submissions = []) ∧
    ∀ q events, p.Takes action q events → q.OneByOne rest

theorem eq_of_perm_of_length_le_one {α : Type} {l₁ l₂ : List α} (h : l₁.Perm l₂)
    (hlength : l₂.length ≤ 1) : l₁ = l₂ := by
  match l₂, hlength with
  | [], _ => exact h.eq_nil
  | [a], _ => exact List.perm_singleton.1 h

theorem submits_length_le (action : Action β) : action.submits.length ≤ 1 := by
  cases action <;> simp [Action.submits]

/-- The call in progress and the call that begins are answered, or still in progress. -/
theorem call_of_takes {p q : Pool β} {action : Action β} {events : List (Event β)}
    (h : p.Takes action q events) (hone : p.submissions.length ≤ 1)
    (hfree : action.submits ≠ [] → p.submissions = []) (hrefused : jobs .refused events = []) :
    p.submissions.map Submission.job ++ action.submits =
      jobs .accepted events ++ q.submissions.map Submission.job ∧ q.submissions.length ≤ 1 := by
  have hperm := entered_of_takes h
  have hsubmits := submits_length_le action
  have hcomm : action.submits ++ p.submissions.map Submission.job =
      p.submissions.map Submission.job ++ action.submits := by
    by_cases hnone : action.submits = []
    · simp [hnone]
    · simp [hfree hnone]
  have hlength : (p.submissions.map Submission.job ++ action.submits).length ≤ 1 := by
    by_cases hnone : action.submits = []
    · simpa [hnone] using hone
    · simpa [hfree hnone] using hsubmits
  rw [hrefused, List.append_nil, hcomm] at hperm
  have heq := eq_of_perm_of_length_le_one hperm hlength
  refine ⟨heq.symm, ?_⟩
  rw [← heq, List.length_append, List.length_map] at hlength
  omega

/-- As long as none is refused, the calls that are made one by one are answered in the order in
which they were made, up to the one in progress. -/
theorem calls_of_run {p q : Pool β} {actions : List (Action β)} {log : List (Event β)}
    (h : p.run actions = some (q, log)) (hone : p.submissions.length ≤ 1)
    (hbyone : p.OneByOne actions) (hrefused : jobs .refused log = []) :
    p.submissions.map Submission.job ++ submittedIn actions =
      jobs .accepted log ++ q.submissions.map Submission.job := by
  induction h using run_induction with
  | nil p => simp
  | cons hstep _ ih =>
    rw [jobs_append] at hrefused ⊢
    obtain ⟨hfirst, hlast⟩ := List.append_eq_nil_iff.1 hrefused
    obtain ⟨hcall, hone'⟩ := call_of_takes hstep hone hbyone.1 hfirst
    exact flow_join hcall (ih hone' (hbyone.2 _ _ hstep) hlast)

end TimingWheel.Pool
