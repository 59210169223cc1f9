import TimingWheel.Pool.Basic

/-!
# The steps of a pool

A step of a pool is a step of one call, of one worker, or of closing the pool, and it changes
little. What each of them does is said once here, guards included, so that nothing else has to open
the step function. The jobs are followed by what the steps amount to and by the places at which the
pool holds them.

## Main definitions

- `Pool.Takes` — the pool takes a step
- `Submission.job`, `Worker.jobAt?`, `Pool.hands` — the places of jobs
- `Pool.jobs` — the jobs that the events of one kind are about

## Main statements

- `Pool.step_eq_some_iff` — the step function takes exactly these steps
- `Pool.run_cons_iff`, `Pool.run_append_iff`, `Pool.run_concat_iff` — how a run is put together
- `Pool.run_induction` — induction on the steps of a run
-/

namespace TimingWheel

variable {β : Type}

/-! ### Places -/

/-- The job that a call hands over. -/
def Submission.job : Submission β → β
  | counted job | announced job | rejected job | retracted job => job

/-- The call has counted its job as queued and has not taken that back. -/
def Submission.isQueued : Submission β → Bool
  | announced _ | rejected _ => true
  | counted _ | retracted _ => false

/-- How far a worker has come with the job in its hands. -/
inductive Worker.Stage where
  | received
  | running
  | completed
  | dead
deriving DecidableEq, Repr

/-- The job in the hands of a worker, if it has come to the given stage. -/
def Worker.jobAt? : Worker.Stage → Worker β → Option β
  | .received, received job => some job
  | .running, running job => some job
  | .completed, completed job => some job
  | .dead, dead job => some job
  | _, _ => none

/-- What the events of a run are about. -/
inductive Pool.Event.Kind where
  | accepted
  | refused
  | taken
  | ran
  | finished
  | lost
deriving DecidableEq, Repr

namespace Pool

def Event.kind : Event β → Event.Kind
  | .accepted _ => .accepted
  | .refused _ => .refused
  | .taken _ _ => .taken
  | .ran _ _ _ => .ran
  | .finished _ => .finished
  | .lost _ => .lost

def Event.job : Event β → β
  | .accepted job | .refused job | .taken _ job | .ran _ job _ | .finished job | .lost job => job

/-- The jobs that the events of one kind are about, in order. -/
def jobs (kind : Event.Kind) (events : List (Event β)) : List β :=
  (events.filter fun event => event.kind = kind).map Event.job

/-- The jobs that are in the hands of workers at the given stage. -/
def hands (stage : Worker.Stage) (p : Pool β) : List β := p.workers.filterMap (Worker.jobAt? stage)

@[simp] theorem jobs_nil (kind : Event.Kind) : jobs kind ([] : List (Event β)) = [] := rfl

@[simp] theorem jobs_append (kind : Event.Kind) (events later : List (Event β)) :
    jobs kind (events ++ later) = jobs kind events ++ jobs kind later := by
  rw [jobs, List.filter_append, List.map_append]
  rfl

@[simp] theorem jobs_cons (kind : Event.Kind) (event : Event β) (later : List (Event β)) :
    jobs kind (event :: later) =
      if event.kind = kind then event.job :: jobs kind later else jobs kind later := by
  by_cases h : event.kind = kind <;> simp [jobs, h]

theorem jobs_map_lost (kind : Event.Kind) (queue : List β) :
    jobs kind (queue.map .lost) = if kind = .lost then queue else [] := by
  induction queue with
  | nil => simp
  | cons job rest ih =>
    rw [List.map_cons, jobs_cons, ih]
    by_cases h : kind = .lost
    · subst h
      rfl
    · have hne : (Event.lost job).kind ≠ kind := fun heq => h heq.symm
      rw [if_neg hne, if_neg h, if_neg h]

section

variable (w : Nat) (worker : Worker β) (p : Pool β)

@[simp] theorem setWorker_workers :
    (p.setWorker w worker).workers = p.workers.set w worker := rfl

@[simp] theorem setWorker_gate : (p.setWorker w worker).gate = p.gate := rfl

@[simp] theorem setWorker_queue : (p.setWorker w worker).queue = p.queue := rfl

@[simp] theorem setWorker_submissions :
    (p.setWorker w worker).submissions = p.submissions := rfl

@[simp] theorem setWorker_queued : (p.setWorker w worker).queued = p.queued := rfl

@[simp] theorem setWorker_outstanding :
    (p.setWorker w worker).outstanding = p.outstanding := rfl

end

/-! ### Steps -/

/-- The pool takes a step, after which it is as given, and which amounts to the given events. -/
inductive Takes (p : Pool β) : Action β → Pool β → List (Event β) → Prop where
  | submit (job : β) (hopen : p.isOpen = true) :
      Takes p (.submit job) { p with
        outstanding := p.outstanding + 1
        submissions := p.submissions ++ [.counted job] } []
  | decline (job : β) (hclosed : p.isOpen = false) : Takes p (.submit job) p [.refused job]
  | announce {i : Nat} {job : β} (hcall : p.submissions[i]? = some (.counted job)) :
      Takes p (.announce i) { p with
        queued := p.queued + 1
        submissions := p.submissions.set i (.announced job) } []
  | send {i : Nat} {job : β} (hcall : p.submissions[i]? = some (.announced job))
      (hlive : p.hasReceiver = true) :
      Takes p (.send i) { p with
        queue := p.queue ++ [job]
        submissions := p.submissions.eraseIdx i } [.accepted job]
  | reject {i : Nat} {job : β} (hcall : p.submissions[i]? = some (.announced job))
      (hgone : p.hasReceiver = false) :
      Takes p (.send i) { p with submissions := p.submissions.set i (.rejected job) } []
  | retract {i : Nat} {job : β} (hcall : p.submissions[i]? = some (.rejected job)) :
      Takes p (.retract i) { p with
        queued := wordPred p.queued
        submissions := p.submissions.set i (.retracted job) } []
  | refuse {i : Nat} {job : β} (hcall : p.submissions[i]? = some (.retracted job)) :
      Takes p (.refuse i) { p with
        outstanding := p.outstanding - 1
        submissions := p.submissions.eraseIdx i } [.refused job]
  | receive {w : Nat} {job : β} {rest : List β} (hworker : p.workers[w]? = some .idle)
      (hqueue : p.queue = job :: rest) :
      Takes p (.receive w) { p.setWorker w (.received job) with queue := rest } [.taken w job]
  | begin {w : Nat} {job : β} (hworker : p.workers[w]? = some (.received job)) :
      Takes p (.begin w) { p.setWorker w (.running job) with queued := wordPred p.queued } []
  | complete {w : Nat} {job : β} {ending : Ending} (hworker : p.workers[w]? = some (.running job))
      (hends : ending ≠ .fatal) :
      Takes p (.complete w ending) (p.setWorker w (.completed job)) [.ran w job ending]
  | die {w : Nat} {job : β} (hworker : p.workers[w]? = some (.running job))
      (hlive : (p.setWorker w (.dead job)).hasReceiver = true) :
      Takes p (.complete w .fatal) (p.setWorker w (.dead job)) [.ran w job .fatal]
  | dieLast {w : Nat} {job : β} (hworker : p.workers[w]? = some (.running job))
      (hgone : (p.setWorker w (.dead job)).hasReceiver = false) :
      Takes p (.complete w .fatal) { p.setWorker w (.dead job) with queue := [] }
        (.ran w job .fatal :: p.queue.map .lost)
  | report {w : Nat} {job : β} (hworker : p.workers[w]? = some (.completed job)) :
      Takes p (.report w) { p.setWorker w .idle with outstanding := p.outstanding - 1 }
        [.finished job]
  | leave {w : Nat} (hworker : p.workers[w]? = some .idle) (hqueue : p.queue = [])
      (hclosed : p.isOpen = false) : Takes p (.leave w) (p.setWorker w .left) []
  | close {inside : Option Nat} (hopen : p.isOpen = true) (hcalls : p.submissions = [])
      (hmay : p.mayClose inside = true) :
      Takes p (.close inside) { p with gate := .closing inside } []
  | closed {inside : Option Nat} (hgate : p.gate = .closing inside)
      (hgone : p.allGone inside = true) : Takes p .closed { p with gate := .closed } []

theorem takes_of_step {p q : Pool β} {action : Action β} {events : List (Event β)}
    (h : p.step action = some (q, events)) : p.Takes action q events := by
  cases action with
  | submit job =>
    rw [step] at h
    split at h
    next hopen => obtain ⟨rfl, rfl⟩ := Prod.mk.inj (Option.some.inj h); exact .submit job hopen
    next hopen =>
      obtain ⟨rfl, rfl⟩ := Prod.mk.inj (Option.some.inj h)
      exact .decline job (Bool.not_eq_true _ ▸ hopen)
  | announce i =>
    simp only [step] at h
    split at h
    next hcall => obtain ⟨rfl, rfl⟩ := Prod.mk.inj (Option.some.inj h); exact .announce hcall
    next => cases h
  | send i =>
    simp only [step] at h
    split at h
    next hcall =>
      split at h
      next hlive => obtain ⟨rfl, rfl⟩ := Prod.mk.inj (Option.some.inj h); exact .send hcall hlive
      next hgone =>
        obtain ⟨rfl, rfl⟩ := Prod.mk.inj (Option.some.inj h)
        exact .reject hcall (Bool.not_eq_true _ ▸ hgone)
    next => cases h
  | retract i =>
    simp only [step] at h
    split at h
    next hcall => obtain ⟨rfl, rfl⟩ := Prod.mk.inj (Option.some.inj h); exact .retract hcall
    next => cases h
  | refuse i =>
    simp only [step] at h
    split at h
    next hcall => obtain ⟨rfl, rfl⟩ := Prod.mk.inj (Option.some.inj h); exact .refuse hcall
    next => cases h
  | receive w =>
    simp only [step] at h
    split at h
    next hworker hqueue =>
      obtain ⟨rfl, rfl⟩ := Prod.mk.inj (Option.some.inj h)
      exact .receive hworker hqueue
    next => cases h
  | begin w =>
    simp only [step] at h
    split at h
    next hworker => obtain ⟨rfl, rfl⟩ := Prod.mk.inj (Option.some.inj h); exact .begin hworker
    next => cases h
  | complete w ending =>
    simp only [step, bury] at h
    split at h
    next hworker =>
      split at h
      next hlive => obtain ⟨rfl, rfl⟩ := Prod.mk.inj (Option.some.inj h); exact .die hworker hlive
      next hgone =>
        obtain ⟨rfl, rfl⟩ := Prod.mk.inj (Option.some.inj h)
        exact .dieLast hworker (Bool.not_eq_true _ ▸ hgone)
    next hworker hends =>
      obtain ⟨rfl, rfl⟩ := Prod.mk.inj (Option.some.inj h)
      exact .complete hworker hends
    next => cases h
  | report w =>
    simp only [step] at h
    split at h
    next hworker => obtain ⟨rfl, rfl⟩ := Prod.mk.inj (Option.some.inj h); exact .report hworker
    next => cases h
  | leave w =>
    simp only [step] at h
    split at h
    next hworker hqueue =>
      split at h
      next => cases h
      next hopen =>
        obtain ⟨rfl, rfl⟩ := Prod.mk.inj (Option.some.inj h)
        exact .leave hworker hqueue (Bool.not_eq_true _ ▸ hopen)
    next => cases h
  | close inside =>
    simp only [step] at h
    split at h
    next hguard =>
      obtain ⟨rfl, rfl⟩ := Prod.mk.inj (Option.some.inj h)
      obtain ⟨hboth, hmay⟩ := Bool.and_eq_true_iff.1 hguard
      obtain ⟨hopen, hcalls⟩ := Bool.and_eq_true_iff.1 hboth
      exact .close hopen (List.isEmpty_iff.1 hcalls) hmay
    next => cases h
  | closed =>
    simp only [step] at h
    split at h
    next hgate =>
      split at h
      next hgone => obtain ⟨rfl, rfl⟩ := Prod.mk.inj (Option.some.inj h); exact .closed hgate hgone
      next => cases h
    next => cases h

theorem step_of_takes {p q : Pool β} {action : Action β} {events : List (Event β)}
    (h : p.Takes action q events) : p.step action = some (q, events) := by
  cases h with
  | submit job hopen => exact if_pos hopen
  | decline job hclosed => exact if_neg (by simp [hclosed])
  | announce hcall => simp only [step, hcall]
  | send hcall hlive => simp only [step, hcall, hlive, if_true]
  | reject hcall hgone => simp [step, hcall, hgone]
  | retract hcall => simp only [step, hcall]
  | refuse hcall => simp only [step, hcall]
  | receive hworker hqueue => simp only [step, hworker, hqueue]
  | begin hworker => simp only [step, hworker]
  | @complete w job ending hworker hends =>
    cases ending with
    | fatal => exact absurd rfl hends
    | returned => simp only [step, hworker]
    | failed => simp only [step, hworker]
  | die hworker hlive => simp only [step, hworker, bury, hlive, if_true]
  | dieLast hworker hgone =>
    simp only [step, hworker, bury, hgone, Bool.false_eq_true, if_false]
    rfl
  | report hworker => simp only [step, hworker]
  | leave hworker hqueue hclosed => simp [step, hworker, hqueue, hclosed]
  | close hopen hcalls hmay => simp [step, hopen, hcalls, hmay]
  | closed hgate hgone => simp only [step, hgate, hgone, if_true]

/-- The step function takes exactly these steps. -/
theorem step_eq_some_iff {p q : Pool β} {action : Action β} {events : List (Event β)} :
    p.step action = some (q, events) ↔ p.Takes action q events :=
  ⟨takes_of_step, step_of_takes⟩

/-- A run is its first step and then the run of the rest. -/
theorem run_cons_iff {p r : Pool β} {action : Action β} {rest : List (Action β)}
    {log : List (Event β)} :
    p.run (action :: rest) = some (r, log) ↔
      ∃ q events later, p.Takes action q events ∧ q.run rest = some (r, later) ∧
        log = events ++ later := by
  constructor
  · intro h
    rw [run] at h
    obtain ⟨⟨q, events⟩, hstep, h⟩ := Option.bind_eq_some_iff.1 h
    obtain ⟨⟨r', later⟩, hrest, h⟩ := Option.bind_eq_some_iff.1 h
    obtain ⟨rfl, rfl⟩ := Prod.mk.inj (Option.some.inj h)
    exact ⟨q, events, later, takes_of_step hstep, hrest, rfl⟩
  · rintro ⟨q, events, later, hstep, hrest, rfl⟩
    simp [run, step_of_takes hstep, hrest]

/-- What holds of the empty run, and of a step with the rest of a run if it holds of the rest, holds
of every run. -/
@[elab_as_elim]
theorem run_induction {motive : ∀ {p q : Pool β} {actions : List (Action β)}
      {log : List (Event β)}, p.run actions = some (q, log) → Prop}
    (nil : ∀ p : Pool β, motive (rfl : p.run [] = some (p, [])))
    (cons : ∀ {p q r : Pool β} {action : Action β} {rest : List (Action β)}
      {events later : List (Event β)} (hstep : p.Takes action q events)
      (hrest : q.run rest = some (r, later)), motive hrest →
      motive (run_cons_iff.2 ⟨q, events, later, hstep, hrest, rfl⟩))
    {p q : Pool β} {actions : List (Action β)} {log : List (Event β)}
    (h : p.run actions = some (q, log)) : motive h := by
  induction actions generalizing p log with
  | nil =>
    obtain ⟨rfl, rfl⟩ := Prod.mk.inj (Option.some.inj h)
    exact nil p
  | cons action rest ih =>
    obtain ⟨next, events, later, hstep, hrest, rfl⟩ := run_cons_iff.1 h
    exact cons hstep hrest (ih hrest)

theorem run_single {p q : Pool β} {action : Action β} {events : List (Event β)}
    (h : p.Takes action q events) : p.run [action] = some (q, events) :=
  run_cons_iff.2 ⟨q, events, [], h, rfl, (List.append_nil events).symm⟩

/-- A run in two parts. -/
theorem run_append_iff {p r : Pool β} {before after : List (Action β)} {log : List (Event β)} :
    p.run (before ++ after) = some (r, log) ↔
      ∃ q events later, p.run before = some (q, events) ∧ q.run after = some (r, later) ∧
        log = events ++ later := by
  rw [run_append]
  constructor
  · intro h
    obtain ⟨⟨q, events⟩, hbefore, h⟩ := Option.bind_eq_some_iff.1 h
    obtain ⟨⟨r', later⟩, hafter, h⟩ := Option.map_eq_some_iff.1 h
    obtain ⟨rfl, rfl⟩ := Prod.mk.inj h
    exact ⟨q, events, later, hbefore, hafter, rfl⟩
  · rintro ⟨q, events, later, hbefore, hafter, rfl⟩
    simp [hbefore, hafter]

/-- A run is what it was before its last step, and then that step. -/
theorem run_concat_iff {p r : Pool β} {init : List (Action β)} {action : Action β}
    {log : List (Event β)} :
    p.run (init ++ [action]) = some (r, log) ↔
      ∃ q before events, p.run init = some (q, before) ∧ q.Takes action r events ∧
        log = before ++ events := by
  rw [run_append_iff]
  constructor
  · rintro ⟨q, before, last, hinit, hlast, rfl⟩
    obtain ⟨r', events, later, hstep, hnil, rfl⟩ := run_cons_iff.1 hlast
    obtain ⟨rfl, rfl⟩ := Prod.mk.inj (Option.some.inj hnil)
    exact ⟨q, before, events, hinit, hstep, by rw [List.append_nil]⟩
  · rintro ⟨q, before, events, hinit, hstep, rfl⟩
    exact ⟨q, before, events, hinit, run_single hstep, rfl⟩

end Pool

end TimingWheel
