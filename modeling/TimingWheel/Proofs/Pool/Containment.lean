import Mathlib.Data.List.Induction
import TimingWheel.Pool.Call
import TimingWheel.Proofs.Pool.Counters
import TimingWheel.Proofs.Pool.Draining

/-!
# What a failing job takes with it

A job that fails in a way that its worker contains does no more harm than one that returns: the
worker reports it and takes the next one up. A job that fails fatally ends its worker. It is never
reported, so that it stays outstanding for good, and when it ends the last worker, the pool takes no
job any more though it is open. These are the only jobs that do any of this, and the harm is exactly
as large as their number.

## Main definitions

- `Pool.contained`, `Pool.killers` — the jobs that were run, by what became of their workers
- `Pool.Manned` — what holds of a pool, whichever of its workers were ended by their jobs

## Main statements

- `Pool.dead_of_takes`, `Pool.dead_of_run` — a worker is dead when its job has ended it, and only
  then
- `Pool.reported_of_run` — each job that its worker has survived is reported
- `Pool.manned_of_takes`, `Pool.manned_of_run` — a pool stays manned
- `Pool.failures_contained` — what is left of a pool of which some workers have died
-/

namespace TimingWheel.Pool

variable {β : Type}

/-! ### How runs end -/

/-- The job that was run, if its worker has survived it. -/
def Event.contained? : Event β → Option β
  | .ran _ job .returned | .ran _ job .failed => some job
  | _ => none

/-- The job that was run, if it has ended its worker. -/
def Event.killer? : Event β → Option β
  | .ran _ job .fatal => some job
  | _ => none

/-- The jobs that were run and that their workers have survived. -/
def contained (log : List (Event β)) : List β := log.filterMap Event.contained?

/-- The jobs that have ended their workers. -/
def killers (log : List (Event β)) : List β := log.filterMap Event.killer?

@[simp] theorem contained_append (events later : List (Event β)) :
    contained (events ++ later) = contained events ++ contained later := List.filterMap_append

@[simp] theorem killers_append (events later : List (Event β)) :
    killers (events ++ later) = killers events ++ killers later := List.filterMap_append

theorem contained_map_lost (queue : List β) : contained (queue.map .lost) = [] := by
  simp [contained, Event.contained?]

theorem killers_map_lost (queue : List β) : killers (queue.map .lost) = [] := by
  simp [killers, Event.killer?]

/-- Every run of a job ends in one of the two ways. -/
theorem contained_append_killers (log : List (Event β)) :
    (contained log ++ killers log).Perm (jobs .ran log) := by
  induction log with
  | nil => exact .refl _
  | cons event rest ih =>
    match event with
    | .ran w job .returned | .ran w job .failed => exact ih.cons job
    | .ran w job .fatal => exact List.perm_middle.trans (ih.cons job)
    | .accepted _ | .refused _ | .taken _ _ | .finished _ | .lost _ => exact ih

/-! ### One step -/

section

variable {p q : Pool β} {action : Action β} {events : List (Event β)}

theorem hasReceiver_of_worker {w : Nat} {worker : Worker β} (h : p.workers[w]? = some worker)
    (hlive : worker.isLive = true) : p.hasReceiver = true :=
  List.any_eq_true.2 ⟨worker, List.mem_of_getElem? h, hlive⟩

/-- Among the dead is who was dead before, unless it is the one that has changed. -/
theorem dead_set_iff {workers : List (Worker β)} {v : Nat} {a : Worker β}
    (h : workers[v]? = some a) (ha : ∀ job, a ≠ .dead job) (b : Worker β) (w : Nat) (job : β) :
    (workers.set v b)[w]? = some (.dead job) ↔
      workers[w]? = some (.dead job) ∨ (v = w ∧ b = .dead job) := by
  have hlt : v < workers.length := (List.getElem?_eq_some_iff.1 h).1
  rw [List.getElem?_set]
  by_cases hvw : v = w
  · subst hvw
    have hnot : workers[v]? ≠ some (.dead job) := fun hdead =>
      ha job (Option.some.inj (h.symm.trans hdead))
    rw [if_pos rfl, if_pos hlt, or_iff_right hnot, Option.some_inj, eq_self, true_and]
  · simp [hvw]

/-- A worker is ended by its job, and stays dead. -/
theorem dead_of_takes (h : p.Takes action q events) (w : Nat) (job : β) :
    q.workers[w]? = some (.dead job) ↔
      p.workers[w]? = some (.dead job) ∨ .ran w job .fatal ∈ events := by
  cases h with
  | receive hworker | begin hworker | report hworker | leave hworker =>
    exact (dead_set_iff hworker nofun _ w job).trans (or_congr_right (by simp))
  | complete hworker hends =>
    exact (dead_set_iff hworker nofun _ w job).trans (or_congr_right (by simp [hends.symm]))
  | die hworker | dieLast hworker =>
    refine (dead_set_iff hworker nofun _ w job).trans (or_congr_right ?_)
    simp [eq_comm]
  | _ => simp

/-- A job that its worker has survived is reported. -/
theorem reported_of_takes (h : p.Takes action q events) :
    (jobs .finished events ++ q.hands .completed).Perm
      (contained events ++ p.hands .completed) := by
  cases h with
  | receive hworker => exact perm_hands hworker (.received _) .completed
  | begin hworker => exact perm_hands hworker (.running _) .completed
  | @complete w job ending hworker hends =>
    cases ending with
    | fatal => exact absurd rfl hends
    | returned | failed => exact perm_hands hworker (.completed job) .completed
  | die hworker => exact perm_hands hworker (.dead _) .completed
  | @dieLast w job hworker =>
    have hnone : contained (.ran w job .fatal :: p.queue.map .lost) = [] :=
      contained_map_lost p.queue
    rw [hnone, jobs_cons, jobs_map_lost]
    exact perm_hands hworker (.dead job) .completed
  | report hworker => exact perm_hands hworker .idle .completed
  | leave hworker => exact perm_hands hworker .left .completed
  | _ => exact .refl _

/-- The jobs that have ended their workers are in their dead hands. -/
theorem killers_of_takes (h : p.Takes action q events) :
    (q.hands .dead).Perm (killers events ++ p.hands .dead) := by
  cases h with
  | receive hworker => exact perm_hands hworker (.received _) .dead
  | begin hworker => exact perm_hands hworker (.running _) .dead
  | @complete w job ending hworker hends =>
    cases ending with
    | fatal => exact absurd rfl hends
    | returned | failed => exact perm_hands hworker (.completed job) .dead
  | die hworker => exact perm_hands hworker (.dead _) .dead
  | @dieLast w job hworker =>
    have hone : killers (.ran w job .fatal :: p.queue.map .lost) = [job] :=
      congrArg (job :: ·) (killers_map_lost p.queue)
    rw [hone]
    exact perm_hands hworker (.dead job) .dead
  | report hworker => exact perm_hands hworker .idle .dead
  | leave hworker => exact perm_hands hworker .left .dead
  | _ => exact .refl _

/-- The queue is lost with the last worker. -/
theorem lost_of_takes (h : p.Takes action q events) (hlost : jobs .lost events ≠ []) :
    killers events ≠ [] ∧ q.hasReceiver = false := by
  cases h with
  | dieLast hworker hgone => exact ⟨List.cons_ne_nil _ _, hgone⟩
  | _ => exact absurd rfl hlost

theorem open_of_takes (h : p.Takes action q events) (hopen : q.isOpen = true) :
    p.isOpen = true := by
  cases h with
  | close | closed => cases hopen
  | _ => exact hopen

/-- Nobody comes back to receive from the queue. -/
theorem hasReceiver_of_takes (h : p.Takes action q events) (hlive : q.hasReceiver = true) :
    p.hasReceiver = true := by
  cases h with
  | receive hworker | begin hworker | complete hworker | die hworker | report hworker
  | leave hworker => exact hasReceiver_of_worker hworker rfl
  | dieLast hworker hgone => exact absurd hlive (Bool.not_eq_true _ ▸ hgone)
  | _ => exact hlive

end

/-! ### A manned pool -/

/-- A pool of `size` workers, whichever of them were ended by their jobs. -/
structure Manned (size : Nat) (p : Pool β) : Prop where
  workers : p.workers.length = size
  /-- Workers leave a closed queue only. -/
  left : .left ∈ p.workers → p.isOpen = false
  /-- No call is in progress when the queue is closed. -/
  calls : p.isOpen = false → p.submissions = []
  /-- As long as a worker can receive it, no job is turned away. -/
  welcome : p.hasReceiver = true → ∀ call ∈ p.submissions,
    call = .counted call.job ∨ call = .announced call.job

theorem manned_ofSize (size : Nat) : (ofSize size : Pool β).Manned size where
  workers := List.length_replicate
  left h := by cases List.eq_of_mem_replicate h
  calls h := by cases h
  welcome _ _ h := by cases h

section

variable {p q : Pool β} {action : Action β} {events : List (Event β)} {size : Nat}

theorem Manned.open_of_call {i : Nat} {call : Submission β} (h : p.Manned size)
    (hcall : p.submissions[i]? = some call) : p.isOpen = true := by
  by_contra hopen
  rw [h.calls (Bool.not_eq_true _ ▸ hopen)] at hcall
  cases hcall

/-- While the queue is open, calls may come and go. -/
theorem Manned.of_calls (h : p.Manned size) (hopen : p.isOpen = true)
    (hworkers : q.workers = p.workers) (hgate : q.gate = p.gate)
    (hcalls : p.hasReceiver = true → ∀ call ∈ q.submissions,
      call ∈ p.submissions ∨ call = .counted call.job ∨ call = .announced call.job) :
    q.Manned size where
  workers := hworkers ▸ h.workers
  left hleft := by
    rw [hworkers] at hleft
    rw [isOpen, hgate]
    exact h.left hleft
  calls hclosed := by
    rw [isOpen, hgate] at hclosed
    exact absurd hopen (by rw [isOpen, hclosed]; decide)
  welcome hlive call hmem := by
    rw [hasReceiver, hworkers] at hlive
    obtain hold | hnew := hcalls hlive call hmem
    · exact h.welcome hlive call hold
    · exact hnew

/-- A worker that can receive may go on, and when the queue is closed, it may leave. -/
theorem Manned.of_worker {w : Nat} {a b : Worker β} (h : p.Manned size)
    (hworker : p.workers[w]? = some a) (ha : a.isLive = true)
    (hleft : b = .left → p.isOpen = false) (hworkers : q.workers = p.workers.set w b)
    (hgate : q.gate = p.gate) (hcalls : q.submissions = p.submissions) : q.Manned size where
  workers := by rw [hworkers, List.length_set, h.workers]
  left hmem := by
    rw [hworkers] at hmem
    rw [isOpen, hgate]
    obtain hold | hnew := List.mem_or_eq_of_mem_set hmem
    · exact h.left hold
    · exact hleft hnew.symm
  calls hclosed := by
    rw [isOpen, hgate] at hclosed
    exact hcalls ▸ h.calls hclosed
  welcome _ := hcalls ▸ h.welcome (hasReceiver_of_worker hworker ha)

/-- When the queue is closed, or the closing call returns, no call is in progress. -/
theorem Manned.of_gate (h : p.Manned size) (hnone : p.submissions = [])
    (hclosed : q.isOpen = false) (hworkers : q.workers = p.workers)
    (hcalls : q.submissions = p.submissions) : q.Manned size where
  workers := hworkers ▸ h.workers
  left _ := hclosed
  calls _ := hcalls.trans hnone
  welcome _ call hmem := by
    rw [hcalls, hnone] at hmem
    cases hmem

theorem manned_of_takes (h : p.Manned size) (htakes : p.Takes action q events) :
    q.Manned size := by
  cases htakes with
  | submit job hopen =>
    refine h.of_calls hopen rfl rfl fun _ call hmem => ?_
    obtain hold | hnew := List.mem_append.1 hmem
    · exact .inl hold
    · rw [List.mem_singleton.1 hnew]
      exact .inr (.inl rfl)
  | decline => exact h
  | announce hcall =>
    refine h.of_calls (h.open_of_call hcall) rfl rfl fun _ call hmem => ?_
    obtain hold | rfl := List.mem_or_eq_of_mem_set hmem
    · exact .inl hold
    · exact .inr (.inr rfl)
  | send hcall | refuse hcall =>
    exact h.of_calls (h.open_of_call hcall) rfl rfl fun _ call hmem =>
      .inl (List.mem_of_mem_eraseIdx hmem)
  | reject hcall hgone =>
    exact h.of_calls (h.open_of_call hcall) rfl rfl fun hlive =>
      absurd hlive (Bool.not_eq_true _ ▸ hgone)
  | retract hcall =>
    refine h.of_calls (h.open_of_call hcall) rfl rfl fun hlive => ?_
    obtain hnot | hnot := h.welcome hlive _ (List.mem_of_getElem? hcall) <;> cases hnot
  | receive hworker => exact h.of_worker (b := .received _) hworker rfl nofun rfl rfl rfl
  | begin hworker => exact h.of_worker (b := .running _) hworker rfl nofun rfl rfl rfl
  | complete hworker => exact h.of_worker (b := .completed _) hworker rfl nofun rfl rfl rfl
  | die hworker | dieLast hworker =>
    exact h.of_worker (b := .dead _) hworker rfl nofun rfl rfl rfl
  | report hworker => exact h.of_worker (b := .idle) hworker rfl nofun rfl rfl rfl
  | leave hworker _ hclosed => exact h.of_worker hworker rfl (fun _ => hclosed) rfl rfl rfl
  | close _ hcalls => exact h.of_gate hcalls rfl rfl rfl
  | closed hgate => exact h.of_gate (h.calls (by simp [isOpen, hgate])) rfl rfl rfl

/-- An open pool that some worker can receive from refuses no job. -/
theorem Manned.accepts (h : p.Manned size) (htakes : p.Takes action q events)
    (hopen : q.isOpen = true) (hlive : q.hasReceiver = true) : jobs .refused events = [] := by
  cases htakes with
  | decline job hclosed => exact absurd hopen (Bool.not_eq_true _ ▸ hclosed)
  | refuse hcall =>
    obtain hnot | hnot := h.welcome hlive _ (List.mem_of_getElem? hcall) <;> cases hnot
  | dieLast _ hgone => exact absurd hlive (Bool.not_eq_true _ ▸ hgone)
  | _ => rfl

/-- While the queue is open, the workers that can receive are those that have not died. -/
theorem Manned.live_add_dead (h : p.Manned size) (hopen : p.isOpen = true) :
    p.workers.countP Worker.isLive + (p.hands .dead).length = size := by
  have hdead : (p.hands .dead).length = p.workers.countP (fun worker => !worker.isLive) := by
    rw [hands, List.length_filterMap_eq_countP]
    refine List.countP_congr fun worker hworker => ?_
    cases worker with
    | left => exact absurd (h.left hworker) (by simp [hopen])
    | _ => simp [Worker.jobAt?, Worker.isLive]
  rw [hdead, ← h.workers, List.length_eq_countP_add_countP Worker.isLive (l := p.workers)]
  simp only [Bool.not_eq_true, Bool.decide_eq_false]

theorem Manned.hasReceiver_iff (h : p.Manned size) (hopen : p.isOpen = true) :
    p.hasReceiver = true ↔ (p.hands .dead).length < size := by
  have hsum := h.live_add_dead hopen
  have hsome : p.hasReceiver = true ↔ 0 < p.workers.countP Worker.isLive := by
    rw [List.countP_pos_iff]
    exact List.any_eq_true
  rw [hsome]
  omega

end

/-! ### Runs -/

section

variable {p q : Pool β} {actions : List (Action β)} {log : List (Event β)} {size : Nat}

theorem dead_of_run (h : p.run actions = some (q, log)) (w : Nat) (job : β) :
    q.workers[w]? = some (.dead job) ↔
      p.workers[w]? = some (.dead job) ∨ .ran w job .fatal ∈ log := by
  induction h using run_induction with
  | nil p => simp
  | cons hstep _ ih => rw [ih, dead_of_takes hstep, List.mem_append, or_assoc]

theorem reported_of_run (h : p.run actions = some (q, log)) :
    (jobs .finished log ++ q.hands .completed).Perm (contained log ++ p.hands .completed) := by
  induction h using run_induction with
  | nil p => exact .refl _
  | cons hstep _ ih =>
    rw [jobs_append, contained_append]
    exact perm_join (reported_of_takes hstep) ih

theorem killers_of_run (h : p.run actions = some (q, log)) :
    (q.hands .dead).Perm (killers log ++ p.hands .dead) := by
  induction h using run_induction with
  | nil p => exact .refl _
  | @cons p next q _ _ events later hstep _ ih =>
    rw [killers_append, List.append_assoc]
    calc
      (q.hands .dead).Perm (killers later ++ next.hands .dead) := ih
      List.Perm _ (killers later ++ (killers events ++ p.hands .dead)) :=
        (killers_of_takes hstep).append_left _
      List.Perm _ (killers events ++ (killers later ++ p.hands .dead)) :=
        List.perm_append_comm_assoc ..

theorem manned_of_run (hmanned : p.Manned size) (h : p.run actions = some (q, log)) :
    q.Manned size := by
  induction h using run_induction with
  | nil p => exact hmanned
  | cons hstep _ ih => exact ih (manned_of_takes hmanned hstep)

/-- Where no job has ended its worker, none was lost. -/
theorem lost_of_run (h : p.run actions = some (q, log)) (hnone : killers log = []) :
    jobs .lost log = [] := by
  induction h using run_induction with
  | nil p => rfl
  | cons hstep _ ih =>
    rw [killers_append] at hnone
    obtain ⟨hfirst, hlast⟩ := List.append_eq_nil_iff.1 hnone
    rw [jobs_append, ih hlast, List.append_nil]
    by_contra hlost
    exact (lost_of_takes hstep hlost).1 hfirst

/-- As long as the queue is open and some worker can receive from it, no job was lost and none was
refused. -/
theorem welcome_of_run (hmanned : p.Manned size) (h : p.run actions = some (q, log))
    (hopen : q.isOpen = true) (hlive : q.hasReceiver = true) :
    jobs .lost log = [] ∧ jobs .refused log = [] := by
  induction actions using List.reverseRecOn generalizing q log with
  | nil =>
    obtain ⟨rfl, rfl⟩ := Prod.mk.inj (Option.some.inj h)
    exact ⟨rfl, rfl⟩
  | append_singleton init action ih =>
    obtain ⟨before, events, last, hinit, hstep, rfl⟩ := run_concat_iff.1 h
    obtain ⟨hlost, hrefused⟩ :=
      ih hinit (open_of_takes hstep hopen) (hasReceiver_of_takes hstep hlive)
    rw [jobs_append, jobs_append, hlost, hrefused]
    refine ⟨?_, (manned_of_run hmanned hinit).accepts hstep hopen hlive⟩
    by_contra hloss
    exact absurd hlive (Bool.not_eq_true _ ▸ (lost_of_takes hstep hloss).2)

end

/-! ### New pools -/

section

variable {p p₀ : Pool β} {actions : List (Action β)} {log : List (Event β)} {size : Nat}

/-- When nothing is being handed over, waits or is run, what is outstanding is what will never be
reported. -/
theorem outstanding_of_quiet (h : (ofSize size).run actions = some (p, log))
    (hcalls : p.submissions = []) (hqueue : p.queue = [])
    (hhands : ∀ stage, stage ≠ .dead → p.hands stage = []) :
    p.outstanding = (killers log).length + (jobs .lost log).length := by
  have hdead : (p.hands .dead).length = (killers log).length := by
    simpa using (killers_of_run h).length_eq
  have hsum := (exact_of_run h).outstanding
  rw [hcalls, hqueue, hhands .received nofun, hhands .running nofun, hhands .completed nofun,
    hdead] at hsum
  simpa using hsum

/-- A job does no harm unless it fails fatally, and then it costs one worker and one count.
The workers that are dead are those whose jobs have failed fatally. Every other job that was run is
reported by its worker, which can do so at once and is then free. When nothing is being handed over,
waits or is run, the counter of outstanding jobs shows those that have ended their workers and those
that were lost, so that it is zero if there was no fatal failure, and only then. While the pool is
open, the other workers serve on, and as long as there are any, every call is accepted and none was
refused. -/
theorem failures_contained (hcreate : create size = .ok p₀)
    (hrun : p₀.run actions = some (p, log)) :
    (∀ w job, p.workers[w]? = some (.dead job) ↔ .ran w job .fatal ∈ log) ∧
    ((contained log ++ killers log).Perm (jobs .ran log) ∧
      (jobs .finished log ++ p.hands .completed).Perm (contained log)) ∧
    (∀ w job, p.workers[w]? = some (.completed job) →
      ∃ q, p.step (.report w) = some (q, [.finished job]) ∧ q.workers[w]? = some .idle) ∧
    (p.submissions = [] → p.queue = [] → (∀ stage, stage ≠ .dead → p.hands stage = []) →
      p.outstanding = (killers log).length + (jobs .lost log).length ∧
      (p.isIdle = true ↔ killers log = [])) ∧
    (p.isOpen = true →
      p.workers.countP Worker.isLive + (killers log).length = size ∧
      ((killers log).length < size →
        jobs .lost log = [] ∧ jobs .refused log = [] ∧
        (∀ i job, p.submissions[i]? = some (.announced job) →
          ∃ q, p.step (.send i) = some (q, [.accepted job])) ∧
        ∀ job, ∃ q, p.run [.submit job, .announce p.submissions.length,
          .send p.submissions.length] = some (q, [.accepted job])) ∧
      ((killers log).length = size → ∀ job,
        p.run [.submit job, .announce p.submissions.length, .send p.submissions.length,
          .retract p.submissions.length, .refuse p.submissions.length] =
          some (p, [.refused job]))) := by
  obtain ⟨hsize, rfl⟩ := create_eq_ok hcreate
  have hmanned := manned_of_run (manned_ofSize size) hrun
  have hdead : (p.hands .dead).length = (killers log).length := by
    simpa using (killers_of_run hrun).length_eq
  refine ⟨fun w job => ?_, ⟨contained_append_killers log, ?_⟩, ?_, ?_, ?_⟩
  · rw [dead_of_run hrun, or_iff_right]
    exact fun hdead => nomatch (List.eq_of_mem_replicate (List.mem_of_getElem? hdead))
  · simpa using reported_of_run hrun
  · intro w job hworker
    have hlt := (List.getElem?_eq_some_iff.1 hworker).1
    exact ⟨_, step_of_takes (.report hworker), List.getElem?_set_self hlt⟩
  · intro hcalls hqueue hhands
    have houtstanding := outstanding_of_quiet hrun hcalls hqueue hhands
    refine ⟨houtstanding, ?_⟩
    rw [isIdle, decide_eq_true_iff, houtstanding]
    constructor
    · intro hzero
      exact List.length_eq_zero_iff.1 (by omega)
    · intro hnone
      rw [hnone, lost_of_run hrun hnone]
      rfl
  · intro hopen
    have hreceiver := hmanned.hasReceiver_iff hopen
    rw [hdead] at hreceiver
    refine ⟨hdead ▸ hmanned.live_add_dead hopen, fun hsome => ?_, fun hall job => ?_⟩
    · have hlive := hreceiver.2 hsome
      obtain ⟨hlost, hrefused⟩ := welcome_of_run (manned_ofSize size) hrun hopen hlive
      exact ⟨hlost, hrefused, fun i job hcall => ⟨_, step_of_takes (.send hcall hlive)⟩,
        fun job => ⟨_, run_submit job hopen hlive⟩⟩
    · refine run_submit_rejected job hopen (Bool.not_eq_true _ ▸ fun hlive => ?_)
      exact absurd (hreceiver.1 hlive) (by omega)

/-- Two workers, one of which dies of its job while the other one survives a failure: the next call
is accepted, and one job stays outstanding. -/
theorem failures_contained_by_survivor :
    ∃ actions : List (Action Nat), ∃ p log, (ofSize 2).run actions = some (p, log) ∧
      p.workers = [.dead 7, .idle] ∧ killers log = [7] ∧ contained log = [8] ∧
      p.outstanding = 1 ∧ p.isIdle = false ∧
      ∃ q, p.run [.submit 9, .announce 0, .send 0] = some (q, [.accepted 9]) := by
  let p : Pool Nat := { workers := [.dead 7, .idle], outstanding := 1 }
  let log : List (Event Nat) :=
    [.accepted 7, .accepted 8, .taken 0 7, .taken 1 8, .ran 0 7 .fatal, .ran 1 8 .failed,
      .finished 8]
  have hrun : (ofSize 2).run
      [.submit 7, .announce 0, .send 0, .submit 8, .announce 0, .send 0, .receive 0, .receive 1,
        .begin 0, .begin 1, .complete 0 .fatal, .complete 1 .failed, .report 1] =
      some (p, log) := by
    decide
  have hcreate : create 2 = .ok (ofSize 2 : Pool Nat) := rfl
  obtain ⟨-, -, -, hquiet, hopen⟩ := failures_contained hcreate hrun
  have hhands (stage : Worker.Stage) (hne : stage ≠ .dead) : p.hands stage = [] := by
    cases stage with
    | dead => exact absurd rfl hne
    | _ => rfl
  obtain ⟨houtstanding, hidle⟩ := hquiet rfl rfl hhands
  obtain ⟨-, hserves, -⟩ := hopen rfl
  obtain ⟨-, -, -, hcall⟩ := hserves (by decide)
  refine ⟨_, p, log, hrun, rfl, rfl, rfl, houtstanding, ?_, hcall 9⟩
  exact Bool.not_eq_true _ ▸ fun hzero => absurd (hidle.1 hzero) (by decide)

/-- A fatal failure is not contained: the only worker of an open pool is dead, though nothing waits
and nothing is run, one job is still outstanding, and no job is accepted any more. -/
theorem fatal_failure_uncontained :
    ∃ actions : List (Action Nat), ∃ p log, (ofSize 1).run actions = some (p, log) ∧
      log = [.accepted 7, .taken 0 7, .ran 0 7 .fatal] ∧ p.isOpen = true ∧ p.submissions = [] ∧
      p.queue = [] ∧ (∀ stage, stage ≠ .dead → p.hands stage = []) ∧ p.workers = [.dead 7] ∧
      p.outstanding = 1 ∧ p.isIdle = false ∧ ∀ job, p.submit job = (false, p) := by
  refine ⟨[.submit 7, .announce 0, .send 0, .receive 0, .begin 0, .complete 0 .fatal],
    { workers := [.dead 7], outstanding := 1 }, _, rfl, rfl, rfl, rfl, rfl, ?_, rfl, rfl, rfl,
    fun _ => rfl⟩
  intro stage hne
  cases stage with
  | dead => exact absurd rfl hne
  | _ => rfl

end

end TimingWheel.Pool
