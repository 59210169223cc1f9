import Mathlib.Algebra.BigOperators.Group.List.Basic
import Mathlib.Algebra.Ring.Nat
import TimingWheel.Proofs.Pool.Turns

/-!
# A pool that is closed runs what it has taken

A worker leaves when the queue is closed and empty, and only then, so that no job stays behind. The
call that closes the pool from outside returns when all workers have left. A job that closes its own
pool does not wait for the worker it runs on, which would never come back.

All this is about pools in which no worker dies. What is queued when the last one dies is lost.

## Main definitions

- `Pool.Tidy` — what holds of a pool in which no worker has died
- `Pool.worth` — how many steps the workers have still to take

## Main statements

- `Pool.tidy_of_takes`, `Pool.tidy_of_run` — a pool stays tidy
- `Pool.drained_of_all_left` — what the last worker leaves behind
- `Pool.others_leave` — the workers that are waited for can all leave by themselves
- `Pool.jobs_run_once` — no job is dropped or repeated
-/

namespace TimingWheel.Pool

variable {β : Type}

/-- No step of the run ends a worker. -/
def Sparing (actions : List (Action β)) : Prop := ∀ w, Action.complete w .fatal ∉ actions

/-- A pool of `size` workers, none of which has died. -/
structure Tidy (size : Nat) (p : Pool β) : Prop where
  positive : 0 < size
  workers : p.workers.length = size
  alive : ∀ worker ∈ p.workers, ∀ job, worker ≠ .dead job
  /-- Workers leave a queue that is closed and empty. -/
  left : .left ∈ p.workers → p.isOpen = false ∧ p.queue = []
  /-- No call is in progress when the queue is closed. -/
  calls : p.isOpen = false → p.submissions = []
  /-- There is always a worker to receive what a call sends. -/
  welcome : ∀ call ∈ p.submissions, call = .counted call.job ∨ call = .announced call.job

theorem tidy_ofSize {size : Nat} (h : 0 < size) : (ofSize size : Pool β).Tidy size where
  positive := h
  workers := List.length_replicate
  alive worker hworker job hdead := by
    rw [List.eq_of_mem_replicate hworker] at hdead
    cases hdead
  left h := by cases List.eq_of_mem_replicate h
  calls h := by cases h
  welcome _ h := by cases h

section

variable {p q : Pool β} {action : Action β} {events : List (Event β)} {size i w : Nat}
  {call : Submission β}

theorem Tidy.open_of_call (h : p.Tidy size) (hcall : p.submissions[i]? = some call) :
    p.isOpen = true := by
  by_contra hopen
  rw [h.calls (Bool.not_eq_true _ ▸ hopen)] at hcall
  cases hcall

theorem Tidy.not_left_of_open (h : p.Tidy size) (hopen : p.isOpen = true) :
    .left ∉ p.workers := by
  intro hleft
  rw [(h.left hleft).1] at hopen
  cases hopen

/-- While the queue is open, some worker can receive from it. -/
theorem Tidy.hasReceiver_of_open (h : p.Tidy size) (hopen : p.isOpen = true) :
    p.hasReceiver = true := by
  obtain ⟨worker, hworker⟩ := List.exists_mem_of_length_pos (h.workers ▸ h.positive)
  refine List.any_eq_true.2 ⟨worker, hworker, ?_⟩
  cases worker with
  | left => exact absurd hworker (h.not_left_of_open hopen)
  | dead job => exact absurd rfl (h.alive _ hworker job)
  | _ => rfl

theorem Tidy.setWorker (h : p.Tidy size) (worker : Worker β) (halive : ∀ job, worker ≠ .dead job)
    (hleft : worker = .left → p.isOpen = false ∧ p.queue = []) :
    (p.setWorker w worker).Tidy size where
  positive := h.positive
  workers := (List.length_set ..).trans h.workers
  alive other hother := by
    rcases List.mem_or_eq_of_mem_set hother with hmem | rfl
    · exact h.alive other hmem
    · exact halive
  left hmem := by
    rcases List.mem_or_eq_of_mem_set hmem with hmem | heq
    · exact h.left hmem
    · exact hleft heq.symm
  calls := h.calls
  welcome := h.welcome

/-- As long as the queue is open, jobs and calls may come and go. -/
theorem Tidy.of_open (h : p.Tidy size) (hopen : p.isOpen = true) (hworkers : q.workers = p.workers)
    (hgate : q.gate = p.gate)
    (hcalls : ∀ call ∈ q.submissions, call = .counted call.job ∨ call = .announced call.job) :
    q.Tidy size where
  positive := h.positive
  workers := hworkers ▸ h.workers
  alive := hworkers ▸ h.alive
  left hmem := absurd (hworkers ▸ hmem) (h.not_left_of_open hopen)
  calls hclosed := by
    rw [isOpen, hgate] at hclosed
    rw [isOpen, hclosed] at hopen
    cases hopen
  welcome := hcalls

/-- The counters have no part in this. -/
theorem Tidy.congr (h : p.Tidy size) (hworkers : q.workers = p.workers) (hgate : q.gate = p.gate)
    (hqueue : q.queue = p.queue) (hcalls : q.submissions = p.submissions) : q.Tidy size where
  positive := h.positive
  workers := hworkers ▸ h.workers
  alive := hworkers ▸ h.alive
  left := by
    rw [hworkers, hqueue, isOpen, hgate]
    exact h.left
  calls := by
    rw [hcalls, isOpen, hgate]
    exact h.calls
  welcome := hcalls ▸ h.welcome

theorem tidy_of_takes (h : p.Tidy size) (htakes : p.Takes action q events)
    (hspares : ∀ w, action ≠ .complete w .fatal) : q.Tidy size := by
  cases htakes with
  | submit job hopen =>
    refine h.of_open hopen rfl rfl fun call hmem => ?_
    rcases List.mem_append.1 hmem with hmem | hmem
    · exact h.welcome call hmem
    · rw [List.mem_singleton.1 hmem]
      exact .inl rfl
  | decline => exact h
  | announce hcall =>
    refine h.of_open (h.open_of_call hcall) rfl rfl fun call hmem => ?_
    rcases List.mem_or_eq_of_mem_set hmem with hmem | rfl
    · exact h.welcome call hmem
    · exact .inr rfl
  | send hcall hlive =>
    exact h.of_open (h.open_of_call hcall) rfl rfl fun call hmem =>
      h.welcome call (List.mem_of_mem_eraseIdx hmem)
  | reject hcall hgone =>
    rw [h.hasReceiver_of_open (h.open_of_call hcall)] at hgone
    cases hgone
  | retract hcall | refuse hcall =>
    rcases h.welcome _ (List.mem_of_getElem? hcall) with heq | heq <;> cases heq
  | @receive w job rest hworker hqueue =>
    have hset := h.setWorker (w := w) (.received job) nofun nofun
    refine ⟨hset.positive, hset.workers, hset.alive, fun hmem => ?_, hset.calls, hset.welcome⟩
    have hnil : p.queue = [] := (hset.left hmem).2
    rw [hqueue] at hnil
    cases hnil
  | begin hworker => exact (h.setWorker (.running _) nofun nofun).congr rfl rfl rfl rfl
  | complete hworker hends => exact h.setWorker (.completed _) nofun nofun
  | die | dieLast => exact absurd rfl (hspares _)
  | report hworker => exact (h.setWorker .idle nofun nofun).congr rfl rfl rfl rfl
  | leave hworker hqueue hclosed => exact h.setWorker .left nofun fun _ => ⟨hclosed, hqueue⟩
  | close hopen hcalls =>
    exact ⟨h.positive, h.workers, h.alive, fun hmem => absurd hmem (h.not_left_of_open hopen),
      fun _ => hcalls, h.welcome⟩
  | closed hgate =>
    have hclosed : p.isOpen = false := by simp [isOpen, hgate]
    exact ⟨h.positive, h.workers, h.alive, fun hmem => ⟨rfl, (h.left hmem).2⟩,
      fun _ => h.calls hclosed, h.welcome⟩

/-- In a tidy pool nothing is lost, and a job is refused only as it comes to the closed gate. -/
theorem Tidy.welcomes (h : p.Tidy size) (htakes : p.Takes action q events)
    (hspares : ∀ w, action ≠ .complete w .fatal) :
    jobs .lost events = [] ∧
      (jobs .refused events ≠ [] → p.isOpen = false ∧ action.submits ≠ []) := by
  cases htakes with
  | die | dieLast => exact absurd rfl (hspares _)
  | refuse hcall => rcases h.welcome _ (List.mem_of_getElem? hcall) with heq | heq <;> cases heq
  | decline job hclosed => exact ⟨rfl, fun _ => ⟨hclosed, List.cons_ne_nil job []⟩⟩
  | _ => exact ⟨rfl, fun h => absurd rfl h⟩

theorem tidy_of_run {actions : List (Action β)} {log : List (Event β)} (h : p.Tidy size)
    (hrun : p.run actions = some (q, log)) (hspares : Sparing actions) :
    q.Tidy size ∧ jobs .lost log = [] := by
  induction hrun using run_induction with
  | nil p => exact ⟨h, rfl⟩
  | @cons _ _ _ action _ _ _ hstep _ ih =>
    have hfirst (w : Nat) : action ≠ .complete w .fatal := fun heq =>
      hspares w (heq ▸ List.mem_cons_self)
    have hnext := tidy_of_takes h hstep hfirst
    obtain ⟨hlast, hlost⟩ := ih hnext fun w hmem => hspares w (List.mem_cons_of_mem _ hmem)
    exact ⟨hlast, by rw [jobs_append, (h.welcomes hstep hfirst).1, hlost]; rfl⟩

/-! ### When the workers have left -/

/-- The workers that have all left leave nothing behind. -/
theorem drained_of_all_left (h : p.Tidy size) (hleft : ∀ worker ∈ p.workers, worker = .left) :
    p.queue = [] ∧ p.submissions = [] ∧ ∀ stage, p.hands stage = [] := by
  obtain ⟨worker, hworker⟩ := List.exists_mem_of_length_pos (h.workers ▸ h.positive)
  obtain ⟨hclosed, hqueue⟩ := h.left (hleft worker hworker ▸ hworker)
  refine ⟨hqueue, h.calls hclosed, fun stage => ?_⟩
  refine List.filterMap_eq_nil_iff.2 fun worker hworker => ?_
  rw [hleft worker hworker]
  cases stage <;> rfl

theorem allGone_iff {inside : Option Nat} :
    p.allGone inside = true ↔ ∀ v worker, p.workers[v]? = some worker → inside ≠ some v →
      worker.isLive = false := by
  simp only [allGone, List.all_eq_true, Prod.forall, List.mem_zipIdx_iff_getElem?,
    Bool.or_eq_true, Bool.not_eq_true', beq_iff_eq]
  constructor
  · intro h v worker hworker hinside
    exact (h worker v hworker).resolve_right hinside
  · intro h worker v hworker
    by_cases hinside : inside = some v
    · exact .inr hinside
    · exact .inl (h v worker hworker hinside)

/-- A worker of a tidy pool that cannot receive any more has left. -/
theorem Tidy.eq_left (h : p.Tidy size) {worker : Worker β} (hworker : worker ∈ p.workers)
    (hlive : worker.isLive = false) : worker = .left := by
  cases worker with
  | left => rfl
  | dead job => exact absurd rfl (h.alive _ hworker job)
  | _ => cases hlive

/-! ### Closing comes to an end -/

/-- The steps that a worker has yet to take, when no job waits. -/
def stepsLeft : Worker β → Nat
  | .idle => 1
  | .received _ => 4
  | .running _ => 3
  | .completed _ => 2
  | .left | .dead _ => 0

/-- The steps that the workers have yet to take. A job that waits costs four more. -/
def worth (p : Pool β) : Nat := (p.workers.map stepsLeft).sum + 4 * p.queue.length

/-- The worker that takes a step. -/
def Action.worker? : Action β → Option Nat
  | .receive w | .begin w | .complete w _ | .report w | .leave w => some w
  | _ => none

theorem sum_stepsLeft_set {workers : List (Worker β)} {a : Worker β} (h : workers[w]? = some a)
    (b : Worker β) :
    ((workers.set w b).map stepsLeft).sum + stepsLeft a =
      (workers.map stepsLeft).sum + stepsLeft b := by
  have hperm := ((perm_set h b).map stepsLeft).sum_eq
  rw [List.map_cons, List.map_cons, List.sum_cons, List.sum_cons] at hperm
  omega

/-- A worker that has not left a closed pool can take a step, and then has one less to take. -/
theorem worker_goes_on {worker : Worker β} (hclosed : p.isOpen = false)
    (hworker : p.workers[w]? = some worker) (hlive : worker.isLive = true) :
    ∃ action q events, p.Takes action q events ∧ action.worker? = some w ∧
      (∀ v, action ≠ .complete v .fatal) ∧ q.worth < p.worth ∧ q.gate = p.gate ∧
      ∀ v, v ≠ w → q.workers[v]? = p.workers[v]? := by
  have hothers (next : Worker β) (v : Nat) (hv : v ≠ w) :
      (p.workers.set w next)[v]? = p.workers[v]? := List.getElem?_set_ne (Ne.symm hv)
  cases worker with
  | idle =>
    cases hqueue : p.queue with
    | nil =>
      have hless := sum_stepsLeft_set hworker .left
      exact ⟨.leave w, _, _, .leave hworker hqueue hclosed, rfl, nofun,
        by simp [worth, stepsLeft] at hless ⊢; omega, rfl, hothers _⟩
    | cons job rest =>
      have hless := sum_stepsLeft_set hworker (.received job)
      exact ⟨.receive w, _, _, .receive hworker hqueue, rfl, nofun,
        by simp [worth, stepsLeft, hqueue] at hless ⊢; omega, rfl, hothers _⟩
  | received job =>
    have hless := sum_stepsLeft_set hworker (.running job)
    exact ⟨.begin w, _, _, .begin hworker, rfl, nofun,
      by simp [worth, stepsLeft] at hless ⊢; omega, rfl, hothers _⟩
  | running job =>
    have hless := sum_stepsLeft_set hworker (.completed job)
    exact ⟨.complete w .returned, _, _, .complete hworker nofun, rfl, nofun,
      by simp [worth, stepsLeft] at hless ⊢; omega, rfl, hothers _⟩
  | completed job =>
    have hless := sum_stepsLeft_set hworker .idle
    exact ⟨.report w, _, _, .report hworker, rfl, nofun,
      by simp [worth, stepsLeft] at hless ⊢; omega, rfl, hothers _⟩
  | left | dead => cases hlive

/-- The workers that a closing call waits for can all leave, without any step of a worker that it
does not wait for. -/
theorem others_leave (inside : Option Nat) (hclosed : p.isOpen = false) :
    ∃ steps q events, p.run steps = some (q, events) ∧ q.gate = p.gate ∧
      q.allGone inside = true ∧
      (∀ step ∈ steps, ∃ v, step.worker? = some v ∧ inside ≠ some v) ∧ Sparing steps ∧
      ∀ u, inside = some u → q.workers[u]? = p.workers[u]? := by
  induction hn : p.worth using Nat.strongRecOn generalizing p with
  | ind n ih =>
    by_cases hgone : p.allGone inside = true
    · exact ⟨[], p, [], rfl, rfl, hgone, nofun, nofun, fun _ _ => rfl⟩
    · rw [allGone_iff] at hgone
      push Not at hgone
      obtain ⟨v, worker, hworker, hinside, hlive⟩ := hgone
      obtain ⟨action, q, events, htakes, hby, hspares, hless, hgate, hothers⟩ :=
        worker_goes_on hclosed hworker (by simpa using hlive)
      obtain ⟨steps, r, later, hrun, hgate', hgone, hsteps, hsparing, hinner⟩ :=
        ih q.worth (hn ▸ hless) (by rw [isOpen, hgate]; exact hclosed) rfl
      refine ⟨action :: steps, r, events ++ later,
        run_cons_iff.2 ⟨q, events, later, htakes, hrun, rfl⟩, hgate'.trans hgate, hgone, ?_, ?_, ?_⟩
      · intro step hstep
        rcases List.mem_cons.1 hstep with rfl | hmem
        · exact ⟨v, hby, hinside⟩
        · exact hsteps step hmem
      · intro u hmem
        rcases List.mem_cons.1 hmem with heq | hmem
        · exact hspares u heq.symm
        · exact hsparing u hmem
      · intro u hu
        have hne : u ≠ v := fun heq => hinside (heq ▸ hu)
        exact (hinner u hu).trans (hothers u hne)

end

/-! ### What becomes of jobs -/

section

variable {size : Nat} {p p₀ : Pool β} {actions : List (Action β)} {log : List (Event β)}

theorem create_eq_ok (h : create size = .ok p₀) : 0 < size ∧ p₀ = ofSize size := by
  rw [create] at h
  split at h
  · cases h
  · exact ⟨Nat.pos_of_ne_zero ‹_›, (Except.ok.inj h).symm⟩

/-- When all workers have left, what was sent to the queue was run, and nothing else. -/
theorem run_of_all_left (h : (ofSize size).run actions = some (p, log)) (htidy : p.Tidy size)
    (hlost : jobs .lost log = []) (hleft : ∀ worker ∈ p.workers, worker = .left) :
    p.queue = [] ∧ ((ofSize size).startedAlong actions).Perm (jobs .accepted log) ∧
      (jobs .finished log).Perm (jobs .accepted log) := by
  obtain ⟨hqueue, -, hhands⟩ := drained_of_all_left htidy hleft
  have hjobs := ledger_of_run h
  have hstarted := hjobs.received
  have hran := hjobs.running
  have hfinished := hjobs.completed
  have htaken := hjobs.inOrder hlost
  simp only [hhands, hqueue, List.append_nil] at hstarted hran hfinished htaken
  rw [htaken]
  exact ⟨hqueue, hstarted, hfinished.trans (hran.trans hstarted)⟩

/-- A call that closes the pool from outside has waited for all workers. -/
theorem all_left_of_closed {q : Pool β} {events : List (Event β)} (htidy : p.Tidy size)
    (hgate : p.gate = .closing none) (hstep : p.Takes .closed q events) :
    q = { p with gate := .closed } ∧ ∀ worker ∈ p.workers, worker = .left := by
  cases hstep with
  | closed hgate' hgone =>
    obtain rfl := Gate.closing.inj (hgate.symm.trans hgate')
    refine ⟨rfl, fun worker hworker => htidy.eq_left hworker ?_⟩
    obtain ⟨v, hv⟩ := List.getElem?_of_mem hworker
    exact allGone_iff.1 hgone v worker hv nofun

/-- A call that closes the pool from inside waits for the other workers, and for no step of its
own. -/
theorem closed_from_inside {w : Nat} (htidy : p.Tidy size) (hgate : p.gate = .closing (some w)) :
    ((∃ q events, p.step .closed = some (q, events)) ↔
      ∀ v worker, p.workers[v]? = some worker → v ≠ w → worker = .left) ∧
    ∃ steps q events, p.run (steps ++ [.closed]) = some (q, events) ∧ Sparing steps ∧
      (∀ step ∈ steps, ∃ v, step.worker? = some v ∧ v ≠ w) ∧
      q.workers[w]? = p.workers[w]? := by
  constructor
  · constructor
    · rintro ⟨q, events, hstep⟩ v worker hworker hne
      cases takes_of_step hstep with
      | closed hgate' hgone =>
        obtain rfl := Gate.closing.inj (hgate.symm.trans hgate')
        refine htidy.eq_left (List.mem_of_getElem? hworker) ?_
        exact allGone_iff.1 hgone v worker hworker fun heq => hne (Option.some.inj heq).symm
    · intro hothers
      refine ⟨_, _, step_of_takes (.closed hgate (allGone_iff.2 fun v worker hworker hne => ?_))⟩
      rw [hothers v worker hworker fun heq => hne (congrArg some heq.symm)]
      rfl
  · have hclosed : p.isOpen = false := by simp [isOpen, hgate]
    obtain ⟨steps, q, events, hsteps, hgate', hgone, hby, hsparing, hown⟩ :=
      others_leave (some w) hclosed
    refine ⟨steps, { q with gate := .closed }, events ++ [], ?_, hsparing, ?_, hown w rfl⟩
    · exact run_concat_iff.2 ⟨q, events, [], hsteps, .closed (hgate'.trans hgate) hgone, rfl⟩
    · intro step hstep
      obtain ⟨v, hv, hne⟩ := hby step hstep
      exact ⟨v, hv, fun heq => hne (congrArg some heq.symm)⟩

/-- A single worker finishes the jobs in the order in which they were sent. -/
theorem finished_in_turn (h : (ofSize 1).run actions = some (p, log)) (htidy : p.Tidy 1)
    (hlost : jobs .lost log = []) :
    jobs .accepted log = jobs .finished log ++
      (p.hands .completed ++ p.hands .running ++ p.hands .received) ++ p.queue := by
  have hdead : p.hands .dead = [] := by
    refine List.filterMap_eq_nil_iff.2 fun worker hworker => ?_
    cases worker with
    | dead job => exact absurd rfl (htidy.alive _ hworker job)
    | _ => rfl
  obtain ⟨htaken, hstarted, hran⟩ := taken_in_turn h
  rw [(ledger_of_run h).inOrder hlost, htaken, hstarted, hran, hdead]
  simp

/-- No job is dropped and none is repeated, as long as no worker dies: jobs are taken up in the
order in which they were sent; each stands at one place, and those refused are never run; when
all workers have left, and in particular when a closing call from outside returns, all that were
accepted have been run; a closing call from inside never waits for its own worker; and a single
worker finishes jobs in their order. -/
theorem jobs_run_once (hcreate : create size = .ok p₀) (hrun : p₀.run actions = some (p, log))
    (hspares : Sparing actions) :
    jobs .accepted log = jobs .taken log ++ p.queue ∧
    ((jobs .accepted log ++ jobs .refused log ++ p.submissions.map Submission.job).Perm
        (submittedIn actions) ∧
      (p₀.startedAlong actions ++ (p.hands .received ++ p.queue)).Perm (jobs .accepted log)) ∧
    ((submittedIn actions).Nodup → (p₀.startedAlong actions).Nodup ∧
      ∀ job ∈ jobs .refused log, job ∉ p₀.startedAlong actions) ∧
    ((∀ worker ∈ p.workers, worker = .left) → p.queue = [] ∧
      (p₀.startedAlong actions).Perm (jobs .accepted log) ∧
      (jobs .finished log).Perm (jobs .accepted log)) ∧
    (∀ q events, p.gate = .closing none → p.step .closed = some (q, events) →
      (∀ worker ∈ q.workers, worker = .left) ∧ q.queue = [] ∧
      (p₀.startedAlong actions).Perm (jobs .accepted log) ∧
      (jobs .finished log).Perm (jobs .accepted log)) ∧
    (∀ w, p.gate = .closing (some w) →
      ((∃ q events, p.step .closed = some (q, events)) ↔
        ∀ v worker, p.workers[v]? = some worker → v ≠ w → worker = .left) ∧
      ∃ steps q events, p.run (steps ++ [.closed]) = some (q, events) ∧ Sparing steps ∧
        (∀ step ∈ steps, ∃ v, step.worker? = some v ∧ v ≠ w) ∧
        q.workers[w]? = p.workers[w]?) ∧
    (size = 1 →
      jobs .accepted log = jobs .finished log ++
        (p.hands .completed ++ p.hands .running ++ p.hands .received) ++ p.queue ∧
      (p₀.OneByOne actions → jobs .refused log = [] →
        submittedIn actions = jobs .accepted log ++ p.submissions.map Submission.job)) := by
  obtain ⟨hsize, rfl⟩ := create_eq_ok hcreate
  obtain ⟨htidy, hlost⟩ := tidy_of_run (tidy_ofSize hsize) hrun hspares
  have hjobs := ledger_of_run hrun
  have htaken := hjobs.inOrder hlost
  have haccepted : ((ofSize size).startedAlong actions ++ (p.hands .received ++ p.queue)).Perm
      (jobs .accepted log) := by
    rw [htaken, ← List.append_assoc]
    exact hjobs.received.append_right _
  refine ⟨htaken, ⟨hjobs.entered, haccepted⟩, ?_, run_of_all_left hrun htidy hlost, ?_, ?_, ?_⟩
  · intro hnodup
    have hanswered := (List.nodup_append.1 (hjobs.entered.nodup_iff.2 hnodup)).1
    have hstarted := haccepted.nodup_iff.2 (List.nodup_append.1 hanswered).1
    refine ⟨(List.nodup_append.1 hstarted).1, fun job hrefused hmem => ?_⟩
    have hmem' : job ∈ jobs .accepted log := haccepted.subset (List.mem_append_left _ hmem)
    exact (List.nodup_append.1 hanswered).2.2 job hmem' job hrefused rfl
  · intro q events hgate hstep
    obtain ⟨rfl, hleft⟩ := all_left_of_closed htidy hgate (takes_of_step hstep)
    have hdrained := run_of_all_left hrun htidy hlost hleft
    exact ⟨hleft, hdrained⟩
  · exact fun w hgate => closed_from_inside htidy hgate
  · rintro rfl
    refine ⟨finished_in_turn hrun htidy hlost, fun hbyone hrefused => ?_⟩
    exact calls_of_run hrun (Nat.zero_le 1) hbyone hrefused

/-- Two workers. The first runs a job that closes the pool while another job waits: the closing call
can return without the end of that job. -/
theorem jobs_run_once_from_inside :
    ∃ actions : List (Action Nat), ∃ p log, (ofSize 2).run actions = some (p, log) ∧
      p.workers = [.running 7, .idle] ∧ p.gate = .closing (some 0) ∧
      jobs .accepted log = jobs .taken log ++ [8] ∧
      ∃ steps q events, p.run (steps ++ [.closed]) = some (q, events) ∧
        q.workers[0]? = some (.running 7) := by
  let p : Pool Nat :=
    { workers := [.running 7, .idle], gate := .closing (some 0), queue := [8], queued := 1,
      outstanding := 2 }
  have hrun : (ofSize 2).run
      [.submit 7, .announce 0, .send 0, .receive 0, .begin 0, .submit 8, .announce 0, .send 0,
        .close (some 0)] = some (p, [.accepted 7, .taken 0 7, .accepted 8]) := by
    decide
  have hspares : Sparing ([.submit 7, .announce 0, .send 0, .receive 0, .begin 0, .submit 8,
      .announce 0, .send 0, .close (some 0)] : List (Action Nat)) := by
    intro w hmem
    simp at hmem
  have hcreate : create 2 = .ok (ofSize 2 : Pool Nat) := rfl
  obtain ⟨htaken, -, -, -, -, hinside, -⟩ := jobs_run_once hcreate hrun hspares
  obtain ⟨-, steps, q, events, hsteps, -, -, hown⟩ := hinside 0 rfl
  exact ⟨_, p, _, hrun, rfl, rfl, htaken, steps, q, events, hsteps, hown⟩

end

end TimingWheel.Pool
