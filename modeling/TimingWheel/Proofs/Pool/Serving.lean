import TimingWheel.Proofs.Pool.Counters
import TimingWheel.Proofs.Pool.Draining

/-!
# A pool in the service of one caller

A single caller hands jobs over, one call at a time and only while the pool is open, and no worker
dies. Then no job is refused and none is lost, so that what the workers have begun and what waits is
what was handed over. With one worker the jobs are begun in the order in which they were handed
over.

## Main definitions

- `Pool.Serves` — the pool has come to its state in such a way

## Main statements

- `Pool.Serves.step` — one step further
- `Pool.Serves.perm`, `Pool.Serves.inOrder` — what was begun and what waits
- `Pool.Serves.settled` — nothing waits when no job is outstanding
-/

namespace TimingWheel.Pool

variable {β : Type} {size : Nat} {p q : Pool β} {submitted starts : List β}

/-! ### Runs in two parts -/

theorem Takes.unique {r : Pool β} {action : Action β} {events events' : List (Event β)}
    (h : p.Takes action q events) (h' : p.Takes action r events') : q = r ∧ events = events' :=
  Prod.mk.inj (Option.some.inj ((step_of_takes h).symm.trans (step_of_takes h')))

theorem startedAlong_append {before : List (Action β)} {log : List (Event β)}
    (h : p.run before = some (q, log)) (after : List (Action β)) :
    p.startedAlong (before ++ after) = p.startedAlong before ++ q.startedAlong after := by
  induction h using run_induction with
  | nil p => rfl
  | cons hstep _ ih =>
    rw [List.cons_append, startedAlong_cons hstep, startedAlong_cons hstep, ih, List.append_assoc]

theorem OneByOne.append {before after : List (Action β)} {log : List (Event β)}
    (hrun : p.run before = some (q, log)) (h : p.OneByOne before) (hafter : q.OneByOne after) :
    p.OneByOne (before ++ after) := by
  induction hrun using run_induction with
  | nil p => exact hafter
  | cons hstep _ ih =>
    refine ⟨h.1, fun r events' hstep' => ?_⟩
    obtain ⟨rfl, rfl⟩ := hstep.unique hstep'
    exact ih (h.2 _ _ hstep) hafter

/-! ### Serving -/

/-- A new pool of `size` workers, none of which died, has come to `p` by single calls for the
`submitted` jobs, none of which was refused, while `starts` were begun. -/
structure Serves (size : Nat) (p : Pool β) (submitted starts : List β) : Prop where
  tidy : p.Tidy size
  reached : ∃ actions log, (ofSize size).run actions = some (p, log) ∧
    (ofSize size).OneByOne actions ∧ jobs .refused log = [] ∧ jobs .lost log = [] ∧
    submittedIn actions = submitted ∧ (ofSize size).startedAlong actions = starts

theorem serves_ofSize (h : 0 < size) : (ofSize size : Pool β).Serves size [] [] where
  tidy := tidy_ofSize h
  reached := ⟨[], [], rfl, trivial, rfl, rfl, rfl, rfl⟩

theorem Serves.step {action : Action β} {events : List (Event β)}
    (h : p.Serves size submitted starts) (htakes : p.Takes action q events)
    (hspares : ∀ w, action ≠ .complete w .fatal)
    (hsubmits : action.submits ≠ [] → p.isOpen = true ∧ p.submissions = []) :
    q.Serves size (submitted ++ action.submits) (starts ++ p.startedBy action) := by
  obtain ⟨actions, log, hrun, hbyone, hrefused, hlost, rfl, rfl⟩ := h.reached
  obtain ⟨hnoloss, hnorefusal⟩ := h.tidy.welcomes htakes hspares
  refine ⟨tidy_of_takes h.tidy htakes hspares, actions ++ [action], log ++ events, ?_, ?_, ?_, ?_,
    ?_, ?_⟩
  · exact run_concat_iff.2 ⟨p, log, events, hrun, htakes, rfl⟩
  · exact hbyone.append hrun ⟨fun hne => (hsubmits hne).2, fun _ _ _ => trivial⟩
  · rw [jobs_append, hrefused, List.nil_append]
    by_contra hne
    obtain ⟨hclosed, hmakes⟩ := hnorefusal hne
    rw [(hsubmits hmakes).1] at hclosed
    cases hclosed
  · rw [jobs_append, hlost, hnoloss]
    rfl
  · rw [submittedIn_append, submittedIn_cons, submittedIn_nil, List.append_nil]
  · rw [startedAlong_append hrun, startedAlong_cons htakes]
    simp [startedAlong]

/-- What was begun and what waits is what was handed over. -/
theorem Serves.perm (h : p.Serves size submitted starts) :
    (starts ++ (p.hands .received ++ p.queue ++ p.submissions.map Submission.job)).Perm
      submitted := by
  obtain ⟨actions, log, hrun, hbyone, hrefused, hlost, rfl, rfl⟩ := h.reached
  have hjobs := ledger_of_run hrun
  have hcalls : submittedIn actions = jobs .accepted log ++ p.submissions.map Submission.job :=
    calls_of_run hrun (Nat.zero_le 1) hbyone hrefused
  rw [hcalls, hjobs.inOrder hlost]
  simpa only [List.append_assoc] using
    hjobs.received.append_right (p.queue ++ p.submissions.map Submission.job)

/-- A single worker begins the jobs in the order in which they were handed over. -/
theorem Serves.inOrder (h : p.Serves 1 submitted starts) :
    starts ++ (p.hands .received ++ p.queue ++ p.submissions.map Submission.job) = submitted := by
  obtain ⟨actions, log, hrun, hbyone, hrefused, hlost, rfl, rfl⟩ := h.reached
  have hcalls : submittedIn actions = jobs .accepted log ++ p.submissions.map Submission.job :=
    calls_of_run hrun (Nat.zero_le 1) hbyone hrefused
  rw [hcalls, (ledger_of_run hrun).inOrder hlost, (taken_in_turn hrun).1]
  simp only [List.append_assoc]

theorem Serves.settled (h : p.Serves size submitted starts) (hidle : p.isIdle = true) :
    p.hands .received = [] ∧ p.queue = [] ∧ p.submissions = [] := by
  obtain ⟨actions, log, hrun, -⟩ := h.reached
  obtain ⟨hcalls, hqueue, hhands, -⟩ := settled_of_idle hrun hidle
  exact ⟨hhands .received, hqueue, hcalls⟩

end TimingWheel.Pool
