import Mathlib.Data.List.Induction
import TimingWheel.Proofs.Pool.Counters

/-!
# Calls that might not have been made

A call that is refused has counted its job twice and taken both back, with steps of others in
between. To leave no trace means more than that the numbers add up again: the pool must be where it
would be without the call. So the steps of the call are taken out of the run. Up to the refusal that
leads to the same pool without the call in progress, and from the refusal on to the very same pool.

## Main definitions

- `Pool.without` — the pool without one of the calls in progress

## Main statements

- `Pool.without_of_takes` — a step, with and without the call
- `Pool.run_without` — a call in progress can be taken out of the run
- `Pool.run_unrefused` — and so can a call that was refused
- `Pool.counters_exact` — what holds of the counters in every state of a run
-/

namespace TimingWheel.Pool

variable {β : Type}

/-- The pool without call `i`, which has come as far as `call`. -/
def without (i : Nat) (call : Submission β) (p : Pool β) : Pool β :=
  { p with
    submissions := p.submissions.eraseIdx i
    queued := p.queued - call.isQueued.toNat
    outstanding := p.outstanding - 1 }

/-! ### Positions without one of them -/

/-- The position of entry `j` once entry `i` is gone. -/
def shifted (i j : Nat) : Nat := if j < i then j else j - 1

section

variable {α : Type} {i j : Nat}

theorem getElem?_shifted (l : List α) (h : i ≠ j) : (l.eraseIdx i)[shifted i j]? = l[j]? := by
  rw [List.getElem?_eraseIdx, shifted]
  by_cases hj : j < i
  · rw [if_pos hj, if_pos hj]
  · rw [if_neg hj, if_neg (by omega), Nat.sub_add_cancel (by omega)]

theorem eraseIdx_set_shifted (l : List α) (a : α) (h : i ≠ j) :
    (l.set j a).eraseIdx i = (l.eraseIdx i).set (shifted i j) a := by
  apply List.ext_getElem?
  intro n
  simp only [List.getElem?_eraseIdx, List.getElem?_set, List.length_eraseIdx, shifted]
  grind

/-- Entry `i` of the list without entry `j`, in the list with it. -/
theorem eraseIdx_eraseIdx_shifted (l : List α) (j i : Nat) :
    ∃ k, k ≠ j ∧ (l.eraseIdx j)[i]? = l[k]? ∧
      (l.eraseIdx j).eraseIdx i = (l.eraseIdx k).eraseIdx (shifted k j) := by
  refine ⟨if i < j then i else i + 1, by split <;> omega, ?_, ?_⟩
  · rw [List.getElem?_eraseIdx]
    split <;> rfl
  · apply List.ext_getElem?
    intro n
    simp only [List.getElem?_eraseIdx, shifted]
    grind

end

/-! ### One step -/

section

variable {calls : List (Submission β)} {i j : Nat} {a b call : Submission β}

/-- The calls in progress after one of them went on. -/
theorem call_of_set (ha : calls[j]? = some a) (h : (calls.set j b)[i]? = some call) :
    (i = j ∧ call = b ∧ (calls.set j b).eraseIdx i = calls.eraseIdx j) ∨
      (calls[i]? = some call ∧ (calls.eraseIdx i)[shifted i j]? = some a ∧
        (calls.set j b).eraseIdx i = (calls.eraseIdx i).set (shifted i j) b) := by
  by_cases hij : i = j
  · subst hij
    rw [List.getElem?_set_self (List.getElem?_eq_some_iff.1 ha).1] at h
    exact .inl ⟨rfl, (Option.some.inj h).symm, List.eraseIdx_set_eq⟩
  · rw [List.getElem?_set_ne (Ne.symm hij)] at h
    exact .inr ⟨h, (getElem?_shifted calls hij).trans ha, eraseIdx_set_shifted calls b hij⟩

/-- The calls in progress after one of them ended. -/
theorem call_of_eraseIdx (ha : calls[j]? = some a) (h : (calls.eraseIdx j)[i]? = some call) :
    ∃ k, calls[k]? = some call ∧ (calls.eraseIdx k)[shifted k j]? = some a ∧
      (calls.eraseIdx j).eraseIdx i = (calls.eraseIdx k).eraseIdx (shifted k j) := by
  obtain ⟨k, hne, hlook, herase⟩ := eraseIdx_eraseIdx_shifted calls j i
  exact ⟨k, hlook ▸ h, (getElem?_shifted calls hne).trans ha, herase⟩

end

theorem wordPred_sub {n b : Nat} (h : b + 1 ≤ n) : wordPred (n - b) = wordPred n - b := by
  rw [wordPred_of_pos (by omega), wordPred_of_pos (by omega)]
  omega

section

variable {p q : Pool β} {action : Action β} {events : List (Event β)} {lost i : Nat}
  {call : Submission β}

theorem Exact.queued_of_call (hexact : p.Exact lost) (h : p.submissions[i]? = some call) :
    (p.submissions.eraseIdx i).countP Submission.isQueued + call.isQueued.toNat +
      (p.hands .received).length ≤ p.queued := by
  have hcount := countP_eraseIdx h
  have hsum := hexact.queued
  omega

theorem Exact.outstanding_of_call (hexact : p.Exact lost) (h : p.submissions[i]? = some call) :
    1 ≤ p.outstanding := by
  have hlength : i < p.submissions.length := (List.getElem?_eq_some_iff.1 h).1
  have hsum := hexact.outstanding
  omega

/-- The pool `q` without call `i` is reached from the pool `p` without that call, at whatever stage
and position it was then, by steps that hand over the given jobs and amount to the given events. -/
def ReachesWithout (p : Pool β) (submitted : List β) (events : List (Event β)) (q : Pool β)
    (i : Nat) (call : Submission β) : Prop :=
  ∃ k past actions, p.submissions[k]? = some past ∧ past.job = call.job ∧
    (p.without k past).run actions = some (q.without i call, events) ∧
    submittedIn actions = submitted

/-- A step of the call itself is no step for the rest of the pool. -/
theorem reachesWithout_of_own {past : Submission β} (hpast : p.submissions[i]? = some past)
    (hjob : past.job = call.job) (hsame : p.without i past = q.without i call) :
    p.ReachesWithout [] [] q i call :=
  ⟨i, past, [], hpast, hjob, by rw [hsame]; rfl, rfl⟩

/-- A step that is not of the call is a step of the rest of the pool. -/
theorem reachesWithout_of_other {k : Nat} {a : Action β} (hpast : p.submissions[k]? = some call)
    (hsubmits : a.submits = action.submits)
    (htakes : (p.without k call).Takes a (q.without i call) events) :
    p.ReachesWithout action.submits events q i call :=
  ⟨k, call, [a], hpast, rfl, run_single htakes, (List.append_nil _).trans hsubmits⟩

/-- What came before a step, without one of the calls in progress after it: either the step began
that call, or the call was in progress already. -/
theorem without_of_takes (hexact : p.Exact lost) (h : p.Takes action q events)
    (hcall : q.submissions[i]? = some call) :
    (action = .submit call.job ∧ events = [] ∧ q.without i call = p) ∨
      p.ReachesWithout action.submits events q i call := by
  cases h with
  | submit job hopen =>
    rcases Nat.lt_trichotomy i p.submissions.length with hlt | heq | hgt
    · rw [List.getElem?_append_left hlt] at hcall
      have htakes := Takes.submit (p := p.without i call) job hopen
      refine .inr (reachesWithout_of_other (a := .submit job) hcall rfl ?_)
      simp only [without] at htakes ⊢
      rw [List.eraseIdx_append_of_lt_length hlt,
        Nat.sub_add_comm (hexact.outstanding_of_call hcall)]
      exact htakes
    · subst heq
      rw [List.getElem?_concat_length] at hcall
      obtain rfl := Option.some.inj hcall
      refine .inl ⟨rfl, rfl, ?_⟩
      simp [without, Submission.isQueued, List.eraseIdx_append_of_length_le]
    · rw [List.getElem?_eq_none (by simp; omega)] at hcall
      cases hcall
  | decline job hclosed =>
    exact .inr (reachesWithout_of_other hcall rfl (.decline job hclosed))
  | @announce j job hpast =>
    obtain ⟨rfl, rfl, herase⟩ | ⟨hcall, hrest, herase⟩ := call_of_set hpast hcall
    · refine .inr (reachesWithout_of_own hpast rfl ?_)
      simp [without, Submission.isQueued, herase]
    · have htakes := Takes.announce (p := p.without i call) hrest
      have hcounted := hexact.queued_of_call hcall
      refine .inr (reachesWithout_of_other (a := .announce (shifted i j)) hcall rfl ?_)
      simp only [without] at htakes ⊢
      rw [herase, Nat.sub_add_comm (by omega)]
      exact htakes
  | @send j job hpast hlive =>
    obtain ⟨k, hcall, hrest, herase⟩ := call_of_eraseIdx hpast hcall
    have htakes := Takes.send (p := p.without k call) hrest hlive
    refine .inr (reachesWithout_of_other (a := .send (shifted k j)) hcall rfl ?_)
    simp only [without] at htakes ⊢
    rw [herase]
    exact htakes
  | @reject j job hpast hgone =>
    obtain ⟨rfl, rfl, herase⟩ | ⟨hcall, hrest, herase⟩ := call_of_set hpast hcall
    · refine .inr (reachesWithout_of_own hpast rfl ?_)
      simp [without, Submission.isQueued, herase]
    · have htakes := Takes.reject (p := p.without i call) hrest hgone
      refine .inr (reachesWithout_of_other (a := .send (shifted i j)) hcall rfl ?_)
      simp only [without] at htakes ⊢
      rw [herase]
      exact htakes
  | @retract j job hpast =>
    obtain ⟨rfl, rfl, herase⟩ | ⟨hcall, hrest, herase⟩ := call_of_set hpast hcall
    · have hcounted := hexact.queued_of_call hpast
      simp only [Submission.isQueued, Bool.toNat_true] at hcounted
      refine .inr (reachesWithout_of_own hpast rfl ?_)
      simp [without, Submission.isQueued, herase, wordPred_of_pos (n := p.queued) (by omega)]
    · have htakes := Takes.retract (p := p.without i call) hrest
      have hcounted := hexact.queued_of_call hcall
      have hfurther := countP_eraseIdx hrest
      simp only [Submission.isQueued, Bool.toNat_true] at hfurther
      refine .inr (reachesWithout_of_other (a := .retract (shifted i j)) hcall rfl ?_)
      simp only [without] at htakes ⊢
      rw [herase, ← wordPred_sub (by omega)]
      exact htakes
  | @refuse j job hpast =>
    obtain ⟨k, hcall, hrest, herase⟩ := call_of_eraseIdx hpast hcall
    have htakes := Takes.refuse (p := p.without k call) hrest
    refine .inr (reachesWithout_of_other (a := .refuse (shifted k j)) hcall rfl ?_)
    simp only [without] at htakes ⊢
    rw [herase]
    exact htakes
  | receive hworker hqueue =>
    exact .inr (reachesWithout_of_other hcall rfl (.receive hworker hqueue))
  | begin hworker =>
    have htakes := Takes.begin (p := p.without i call) hworker
    have hcounted := hexact.queued_of_call hcall
    have hhand := List.length_pos_of_mem (mem_hands hworker .received rfl)
    refine .inr (reachesWithout_of_other (a := .begin _) hcall rfl ?_)
    simp only [without, setWorker] at htakes ⊢
    rw [← wordPred_sub (by omega)]
    exact htakes
  | complete hworker hends =>
    exact .inr (reachesWithout_of_other hcall rfl (.complete hworker hends))
  | die hworker hlive => exact .inr (reachesWithout_of_other hcall rfl (.die hworker hlive))
  | dieLast hworker hgone => exact .inr (reachesWithout_of_other hcall rfl (.dieLast hworker hgone))
  | report hworker => exact .inr (reachesWithout_of_other hcall rfl (.report hworker))
  | leave hworker hqueue hclosed =>
    exact .inr (reachesWithout_of_other hcall rfl (.leave hworker hqueue hclosed))
  | close hopen hcalls hmay => exact absurd hcall (by simp [hcalls])
  | closed hgate hgone => exact .inr (reachesWithout_of_other hcall rfl (.closed hgate hgone))

end

/-! ### Runs -/

/-- A call in progress can be taken out of the run: what is left leads to the pool without it, by
the same events. -/
theorem run_without {size : Nat} {p : Pool β} {actions : List (Action β)} {log : List (Event β)}
    {i : Nat} {call : Submission β} (h : (ofSize size).run actions = some (p, log))
    (hcall : p.submissions[i]? = some call) :
    ∃ rest earlier later, (ofSize size).run rest = some (p.without i call, log) ∧
      submittedIn actions = earlier ++ call.job :: later ∧
      submittedIn rest = earlier ++ later := by
  induction actions using List.reverseRecOn generalizing p log i call with
  | nil =>
    obtain ⟨rfl, rfl⟩ := Prod.mk.inj (Option.some.inj h)
    cases hcall
  | append_singleton init action ih =>
    obtain ⟨before, events, last, hinit, hstep, rfl⟩ := run_concat_iff.1 h
    obtain ⟨rfl, rfl, hsame⟩ | ⟨k, past, steps, hpast, hjob, hsteps, hsubmits⟩ :=
      without_of_takes (exact_of_run hinit) hstep hcall
    · refine ⟨init, submittedIn init, [], ?_, by simp [Action.submits], by simp⟩
      rw [hsame, List.append_nil]
      exact hinit
    · obtain ⟨rest, earlier, later, hrest, hsub, hsub'⟩ := ih hinit hpast
      refine ⟨rest ++ steps, earlier, later ++ action.submits, ?_, ?_, ?_⟩
      · exact run_append_iff.2 ⟨_, _, _, hrest, hsteps, rfl⟩
      · simp [hsub, hjob]
      · simp [hsub', hsubmits]

/-- An event of two parts of a log is an event of the first or of the second. -/
theorem append_eq_append_cons {α : Type} {events later before after : List α} {event : α}
    (h : events ++ later = before ++ event :: after) :
    (∃ first, before = events ++ first ∧ later = first ++ event :: after) ∨
      ∃ last, events = before ++ event :: last ∧ after = last ++ later := by
  obtain ⟨first, hbefore, hlater⟩ | ⟨last, hevents, hafter⟩ := List.append_eq_append_iff.1 h
  · exact .inl ⟨first, hbefore, hlater⟩
  · cases last with
    | nil => exact .inl ⟨[], by simpa using hevents.symm, hafter.symm⟩
    | cons _ last =>
      obtain ⟨rfl, rfl⟩ := List.cons.inj hafter
      exact .inr ⟨last, hevents, rfl⟩

/-- The step of a run to which an event belongs. -/
theorem run_split_at {p r : Pool β} {actions : List (Action β)} {log before after : List (Event β)}
    {event : Event β} (h : p.run actions = some (r, log)) (hlog : log = before ++ event :: after) :
    ∃ past action rest q q' events first last later, actions = past ++ action :: rest ∧
      p.run past = some (q, events) ∧ q.Takes action q' (first ++ event :: last) ∧
      q'.run rest = some (r, later) ∧ before = events ++ first ∧ after = last ++ later := by
  induction actions generalizing p log before with
  | nil =>
    obtain ⟨rfl, rfl⟩ := Prod.mk.inj (Option.some.inj h)
    simp at hlog
  | cons action rest ih =>
    obtain ⟨q, events, later, hstep, hrest, rfl⟩ := run_cons_iff.1 h
    obtain ⟨first, hbefore, hlater⟩ | ⟨last, rfl, rfl⟩ := append_eq_append_cons hlog
    · obtain ⟨past, a, rest', q₁, q₂, events', first', last, later', rfl, hpast, hstep', hrest',
        rfl, rfl⟩ := ih hrest hlater
      exact ⟨action :: past, a, rest', q₁, q₂, events ++ events', first', last, later', rfl,
        run_cons_iff.2 ⟨q, events, events', hstep, hpast, rfl⟩, hstep', hrest',
        by rw [hbefore, List.append_assoc], rfl⟩
    · exact ⟨[], action, rest, p, q, [], before, last, later, rfl, rfl, hstep, hrest, rfl, rfl⟩

/-- A step that refuses a job does so at the closed gate, or it is the end of a call. -/
theorem refused_cases {p q : Pool β} {action : Action β} {events : List (Event β)} {job : β}
    (h : p.Takes action q events) (hmem : .refused job ∈ events) :
    events = [.refused job] ∧ ((action = .submit job ∧ q = p) ∨
      ∃ i, action.submits = [] ∧ p.submissions[i]? = some (.retracted job) ∧
        q = p.without i (.retracted job)) := by
  cases h with
  | decline job' hclosed =>
    obtain rfl : job = job' := by simpa using hmem
    exact ⟨rfl, .inl ⟨rfl, rfl⟩⟩
  | @refuse i job' hcall =>
    obtain rfl : job = job' := by simpa using hmem
    exact ⟨rfl, .inr ⟨i, rfl, hcall, rfl⟩⟩
  | _ => simp at hmem

/-- A call that was refused can be taken out of the run, too: what is left leads to the very same
pool, by the same events but for the refusal. -/
theorem run_unrefused {size : Nat} {p : Pool β} {actions : List (Action β)}
    {before after : List (Event β)} {job : β}
    (h : (ofSize size).run actions = some (p, before ++ .refused job :: after)) :
    ∃ rest earlier later, (ofSize size).run rest = some (p, before ++ after) ∧
      submittedIn actions = earlier ++ job :: later ∧ submittedIn rest = earlier ++ later := by
  obtain ⟨past, action, next, q, r, events, first, last, later, rfl, hpast, hstep, hnext, rfl, rfl⟩
    := run_split_at h rfl
  obtain ⟨hone, hcase⟩ := refused_cases hstep (List.mem_append_right _ List.mem_cons_self)
  obtain ⟨rfl, rfl⟩ : first = [] ∧ last = [] := by
    cases first <;> simp_all
  rw [List.append_nil, List.nil_append]
  obtain ⟨rfl, rfl⟩ | ⟨i, hsubmits, hcall, rfl⟩ := hcase
  · exact ⟨past ++ next, submittedIn past, submittedIn next,
      run_append_iff.2 ⟨_, _, _, hpast, hnext, rfl⟩, by simp [Action.submits], by simp⟩
  · obtain ⟨rest, earlier, between, hrest, hsub, hsub'⟩ := run_without hpast hcall
    refine ⟨rest ++ next, earlier, between ++ submittedIn next,
      run_append_iff.2 ⟨_, _, _, hrest, hnext, rfl⟩, ?_, ?_⟩
    · rw [submittedIn_append, hsub, submittedIn_cons, hsubmits, List.append_assoc]
      rfl
    · rw [submittedIn_append, hsub', List.append_assoc]

/-! ### The counters, in every state of a run -/

/-- In every state that a pool comes to, both counters are the sums that they stand for, whatever is
counted off was counted, a refused call leaves the pool as if it had not been made, and when no job
is outstanding, each job that the queue took was run to its end. -/
theorem counters_exact {size : Nat} {p : Pool β} {actions : List (Action β)} {log : List (Event β)}
    (h : (ofSize size).run actions = some (p, log)) :
    (p.queued = p.submissions.countP Submission.isQueued + p.queue.length +
        (p.hands .received).length + (jobs .lost log).length ∧
      p.outstanding = p.submissions.length + p.queue.length +
        ((p.hands .received).length + (p.hands .running).length + (p.hands .completed).length +
          (p.hands .dead).length) + (jobs .lost log).length) ∧
    (∀ i q events, p.step (.retract i) = some (q, events) → q.queued + 1 = p.queued) ∧
    (∀ w q events, p.step (.begin w) = some (q, events) → q.queued + 1 = p.queued) ∧
    (∀ i q events, p.step (.refuse i) = some (q, events) → q.outstanding + 1 = p.outstanding) ∧
    (∀ w q events, p.step (.report w) = some (q, events) → q.outstanding + 1 = p.outstanding) ∧
    (∀ before job after, log = before ++ .refused job :: after →
      ∃ rest earlier later, (ofSize size).run rest = some (p, before ++ after) ∧
        submittedIn actions = earlier ++ job :: later ∧ submittedIn rest = earlier ++ later) ∧
    (p.isIdle = true → p.submissions = [] ∧ p.queue = [] ∧ (∀ stage, p.hands stage = []) ∧
      jobs .lost log = [] ∧ (jobs .finished log).Perm (jobs .accepted log)) := by
  have hexact := exact_of_run h
  refine ⟨⟨hexact.queued, hexact.outstanding⟩, ?_, ?_, ?_, ?_, ?_, settled_of_idle h⟩
  · intro i q events hstep
    exact (queued_kept hexact (takes_of_step hstep)).1
  · intro w q events hstep
    have htakes := takes_of_step hstep
    have hkept := (queued_kept hexact htakes).1
    cases htakes with
    | begin hworker =>
      rw [startedBy_begin hworker] at hkept
      exact hkept
  · intro i q events hstep
    have htakes := takes_of_step hstep
    have hkept := (outstanding_kept hexact htakes).1
    cases htakes
    exact hkept
  · intro w q events hstep
    have htakes := takes_of_step hstep
    have hkept := (outstanding_kept hexact htakes).1
    cases htakes
    exact hkept
  · rintro before job after rfl
    exact run_unrefused h

/-- One worker, which dies of its job while another job waits and a third is handed over. -/
theorem counters_exact_of_death :
    ∃ actions : List (Action Nat), ∃ p log, (ofSize 1).run actions = some (p, log) ∧
      log = [.accepted 7, .accepted 9, .taken 0 7, .ran 0 7 .fatal, .lost 9] ++ [.refused 8] ∧
      p.queued = (jobs .lost log).length ∧
      p.outstanding = (p.hands .dead).length + (jobs .lost log).length ∧
      ∃ rest, (ofSize 1).run rest =
        some (p, [.accepted 7, .accepted 9, .taken 0 7, .ran 0 7 .fatal, .lost 9]) := by
  let p : Pool Nat := { workers := [.dead 7], queued := 1, outstanding := 2 }
  have h : (ofSize 1).run
      [.submit 7, .announce 0, .send 0, .submit 9, .announce 0, .send 0, .receive 0, .begin 0,
        .submit 8, .announce 0, .complete 0 .fatal, .send 0, .retract 0, .refuse 0] =
      some (p, [.accepted 7, .accepted 9, .taken 0 7, .ran 0 7 .fatal, .lost 9] ++
        [.refused 8]) := by
    decide
  obtain ⟨⟨hqueued, houtstanding⟩, -, -, -, -, hrefused, -⟩ := counters_exact h
  obtain ⟨rest, -, -, hrest, -⟩ := hrefused _ 8 [] rfl
  exact ⟨_, p, _, h, rfl, hqueued, houtstanding, rest, by simpa using hrest⟩

end TimingWheel.Pool
