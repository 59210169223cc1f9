import TimingWheel.Proofs.Service.Account

/-!
# Uses and callbacks in one go

The operations of a scheduler hand tasks over as if nothing came between. A worker that takes up a
callback, and one that ends it, likewise go through several steps at once. Each of these is a run of
a service at work, in which the steps come right after one another.

## Main definitions

- `Service.Enacts` — services can bring a scheduler from one state to another

## Main statements

- `Service.enacts_act` — whatever a scheduler does in one go
- `Service.enacts_takeUp`, `Service.enacts_finish` — the two ends of a callback
-/

namespace TimingWheel

variable {τ : Type}

namespace Scheduler

variable {s : Scheduler τ} {p : Pool (Dispatch τ)} {wall : Int} {action : Action τ}

/-- At a tick, the pool is handed the tasks of the timers that fire. -/
theorem pool_tick (hpool : s.pool = some p) (wall : Int) :
    (s.act wall (.call .tick)).2.pool =
      some (p.submitAll ((s.movesOf wall (.call .tick)).flatMap s.agenda.dispatches)) := by
  have hmoves : s.movesOf wall (.call .tick) =
      (tickTimes wall 1 s).1.map fun beat => .tick beat.reading := rfl
  rw [hmoves, act_tick, tickTimes]
  rcases tick_cases wall s with ⟨reason, htick⟩ | ⟨reading, p', s', -, -, hpool', htick, hs'⟩
  · rw [htick]
    exact hpool
  · rw [htick, hs']
    obtain rfl := Option.some.inj (hpool.symm.trans hpool')
    simp [tickTimes, now, Clock.now, Agenda.dispatches]

theorem pool_heartbeat (hpool : s.pool = some p) (wall : Int) :
    (s.act wall .wake).2.pool =
      some (p.submitAll ((s.movesOf wall .wake).flatMap s.agenda.dispatches)) := by
  by_cases hphase : s.phase = .running
  · simp [act, movesOf, heartbeat, beat, hphase, hpool, Agenda.dispatches]
  · simp [act, movesOf, heartbeat, hphase, hpool, Pool.submitAll]

theorem length_tickTimes_le (wall : Int) (n : Nat) (s : Scheduler τ) :
    (tickTimes wall n s).1.length ≤ n := by
  induction n generalizing s with
  | zero => exact Nat.le_refl _
  | succ n ih =>
    rw [tickTimes]
    rcases s.tick wall with ⟨reply, s'⟩
    cases reply with
    | error reason => exact Nat.zero_le _
    | ok fired => exact Nat.succ_le_succ (ih s')

/-- An action makes one move at most, unless it is a row of ticks. -/
theorem length_movesOf_le (wall : Int) (s : Scheduler τ)
    (hrow : ∀ count, action ≠ .call (.advanceTicks count)) :
    (s.movesOf wall action).length ≤ 1 := by
  cases action with
  | call op =>
    cases op with
    | tick =>
      show (List.map _ _).length ≤ 1
      rw [List.length_map]
      exact length_tickTimes_le wall 1 s
    | advanceTicks count => exact absurd rfl (hrow count)
    | start => by_cases hworkers : s.workers = 0 <;> simp [movesOf, hworkers]
    | _ => simp [movesOf, act, beatsOf]
  | wake => by_cases hphase : s.phase = .running <;> simp [movesOf, act, hphase]
  | wind reading => exact Nat.zero_le _

/-- An action hands to the pool what it takes from the agenda. -/
theorem pool_act (horderly : s.Orderly) (hpool : s.pool = some p) (wall : Int)
    (hrow : ∀ count, action ≠ .call (.advanceTicks count)) :
    (s.act wall action).2.pool =
      some (p.submitAll ((s.movesOf wall action).flatMap s.agenda.dispatches)) := by
  cases action with
  | call op =>
    cases op with
    | tick => exact pool_tick hpool wall
    | advanceTicks count => exact absurd rfl (hrow count)
    | start =>
      -- There are workers already, so that another start is refused.
      have hrefused : s.start.2 = s := by
        rcases horderly.pool_iff.1 (by rw [hpool]; rfl) with hphase | hphase <;>
          simp [start, hphase]
      by_cases hworkers : s.workers = 0 <;>
        simp [movesOf, act, perform, hworkers, hrefused, hpool, Agenda.dispatches, Pool.submitAll]
    | appendLevel spec =>
      show (s.appendLevel spec).2.pool = some p
      rw [appendLevel]
      cases s.agenda.append spec <;> exact hpool
    | stop =>
      show s.stop.pool = some p
      rw [stop]
      split <;> exact hpool
    | _ => exact hpool
  | wake => exact pool_heartbeat hpool wall
  | wind reading => exact hpool

end Scheduler

namespace Pool

variable {β : Type} {p q : Pool β} {w : Nat} {job : β}

theorem startedAlong_eq_nil {steps : List (Action β)} (h : ∀ w, .begin w ∉ steps) :
    p.startedAlong steps = [] := by
  induction steps generalizing p with
  | nil => rfl
  | cons step rest ih =>
    have hstep : p.startedBy step = [] := by
      cases step with
      | begin w => exact absurd List.mem_cons_self (h w)
      | _ => rfl
    rw [startedAlong, hstep]
    cases p.step step with
    | none => rfl
    | some next => exact ih fun w hw => h w (List.mem_cons_of_mem step hw)

/-- Whoever takes up a job begins it. -/
theorem startedAlong_takeUp (h : p.takeUp = some (w, job, q)) :
    p.startedAlong [.receive w, .begin w] = [job] := by
  unfold takeUp at h
  split at h
  next v first rest hfind hqueue =>
    obtain ⟨rfl, rfl, rfl⟩ : v = w ∧ first = job ∧ _ = q := by simpa using h
    obtain ⟨hlt, hidle, -⟩ := List.findIdx?_eq_some_iff_getElem.1 hfind
    simp [startedAlong, startedBy, step, setWorker, Worker.eq_idle_of_isIdle hidle, hqueue, hlt,
      Worker.jobAt?]
  next => simp at h

theorem takeUp_frame (h : p.takeUp = some (w, job, q)) :
    q.submissions = p.submissions ∧ q.isOpen = p.isOpen := by
  unfold takeUp at h
  split at h
  next v first rest hfind hqueue =>
    obtain ⟨-, -, rfl⟩ : v = w ∧ first = job ∧ _ = q := by simpa using h
    exact ⟨rfl, rfl⟩
  next => simp at h

theorem finish_eq_self {ending : Ending} (h : ∀ job, p.workers[w]? ≠ some (.running job)) :
    p.finish w ending = p := by
  unfold finish
  split
  next hworker => exact absurd hworker (h _)
  next hworker _ => exact absurd hworker (h _)
  next => rfl

theorem submit_frame (job : β) (p : Pool β) :
    (p.submit job).2.submissions = p.submissions ∧ (p.submit job).2.isOpen = p.isOpen ∧
      (p.submit job).2.hasReceiver = p.hasReceiver := by
  rw [submit]
  split <;> exact ⟨rfl, rfl, rfl⟩

theorem submitAll_frame (jobs : List β) (p : Pool β) :
    (p.submitAll jobs).submissions = p.submissions ∧ (p.submitAll jobs).isOpen = p.isOpen := by
  induction jobs generalizing p with
  | nil => exact ⟨rfl, rfl⟩
  | cons job rest ih =>
    obtain ⟨hcalls, hopen, -⟩ := submit_frame job p
    obtain ⟨hcalls', hopen'⟩ := ih (p.submit job).2
    exact ⟨hcalls'.trans hcalls, hopen'.trans hopen⟩

end Pool

namespace Service

variable {workers : Nat} {x : Service τ} {p q : Pool (Dispatch τ)}

/-! ### Steps of the pool after one another -/

theorem withPool_self (hpool : x.scheduler.pool = some p) : x.withPool p = x := by
  rw [withPool, ← hpool]

/-- A run of the pool that belongs to no tick is a run of the service. -/
theorem run_pool {steps : List (Pool.Action (Dispatch τ))} {log : List (Pool.Event (Dispatch τ))}
    (hpool : x.scheduler.pool = some p) (hrun : p.run steps = some (q, log))
    (hmay : ∀ step ∈ steps, x.mayTake step = true) :
    x.run (steps.map .pool) =
      some { x.withPool q with starts := x.starts ++ p.startedAlong steps } := by
  induction steps generalizing x p log with
  | nil =>
    obtain ⟨rfl, -⟩ := Prod.mk.inj (Option.some.inj hrun)
    rw [withPool_self hpool, Pool.startedAlong, List.append_nil]
    rfl
  | cons step rest ih =>
    obtain ⟨next, events, later, hstep, hrest, rfl⟩ := Pool.run_cons_iff.1 hrun
    refine run_cons_iff.2 ⟨_, .pool hpool (hmay step List.mem_cons_self) hstep, ?_⟩
    have hlater := ih (x := { x.withPool next with starts := x.starts ++ p.startedBy step }) rfl
      hrest fun step' hstep' => hmay step' (List.mem_cons_of_mem step hstep')
    rw [Pool.startedAlong_cons hstep, ← List.append_assoc]
    exact hlater

/-- The calls that hand over the given number of tasks. -/
def handOver (count : Nat) : List (Action τ) :=
  (List.replicate count [.hand, .pool (.announce 0), .pool (.send 0)]).flatten

/-- A tick hands over all its tasks. -/
theorem run_handOver {jobs : List (Dispatch τ)} (hhanding : x.handing = jobs)
    (hpool : x.scheduler.pool = some p) (hcalls : p.submissions = []) (hopen : p.isOpen = true)
    (hreceiver : p.hasReceiver = true) :
    x.run (handOver jobs.length) =
      some { x.withPool (p.submitAll jobs) with handing := [] } := by
  induction jobs generalizing x p with
  | nil =>
    have hsame : { x with handing := [] } = x := by rw [← hhanding]
    rw [Pool.submitAll, List.foldl_nil, withPool_self hpool]
    exact congrArg some hsame.symm
  | cons job rest ih =>
    have hrun := Pool.run_submit job hopen hreceiver
    rw [hcalls, List.length_nil] at hrun
    obtain ⟨first, events, later, hsubmit, hsend, -⟩ := Pool.run_cons_iff.1 hrun
    obtain ⟨hcalls', hopen', hreceiver'⟩ := Pool.submit_frame job p
    have hsent := run_pool (x := { x.withPool first with handing := rest }) rfl hsend
      (by simp [mayTake])
    have hlater := ih (x := { x.withPool (p.submit job).2 with handing := rest }) rfl rfl
      (hcalls'.trans hcalls) (hopen'.trans hopen) (hreceiver'.trans hreceiver)
    refine run_cons_iff.2 ⟨_, .hand hhanding hpool hcalls hsubmit, ?_⟩
    refine run_append_iff.2 ⟨_, hsent, ?_⟩
    rw [Pool.startedAlong_eq_nil (by simp), List.append_nil]
    exact hlater

/-! ### What is enacted -/

/-- Every service that is free can bring its scheduler from `s` to `s'` and be free again, while
the callbacks `begun` are started and no worker dies. -/
def Enacts (s s' : Scheduler τ) (begun : List (Dispatch τ)) : Prop :=
  ∀ (workers : Nat) (x : Service τ), x.Accounted workers → x.isFree = true → x.scheduler = s →
    ∃ actions y, x.run actions = some y ∧ (∀ w, .pool (.complete w .fatal) ∉ actions) ∧
      y.isFree = true ∧ y.scheduler = s' ∧ y.starts = x.starts ++ begun

variable {s s' s'' : Scheduler τ} {begun later : List (Dispatch τ)}

theorem enacts_refl (s : Scheduler τ) : Enacts s s [] := fun _ x _ hfree hs =>
  ⟨[], x, rfl, fun _ => List.not_mem_nil, hfree, hs, (List.append_nil _).symm⟩

theorem Enacts.trans (h : Enacts s s' begun) (hlater : Enacts s' s'' later) :
    Enacts s s'' (begun ++ later) := by
  intro workers x haccount hfree hs
  obtain ⟨actions, y, hrun, hspares, hfree', hs', hstarts⟩ := h workers x haccount hfree hs
  obtain ⟨actions', z, hrun', hspares', hfree'', hs'', hstarts'⟩ :=
    hlater workers y (accounted_of_run haccount hrun hspares) hfree' hs'
  refine ⟨actions ++ actions', z, run_append_iff.2 ⟨y, hrun, hrun'⟩, ?_, hfree'', hs'', ?_⟩
  · exact fun w hw => (List.mem_append.1 hw).elim (hspares w) (hspares' w)
  · rw [hstarts', hstarts, List.append_assoc]

theorem isFree_iff (hpool : x.scheduler.pool = some p) :
    x.isFree = true ↔ x.handing = [] ∧ p.isOpen = true ∧ p.submissions = [] := by
  simp [isFree, hpool]

theorem spares_handOver (count w : Nat) :
    (.pool (.complete w .fatal) : Action τ) ∉ handOver count := by
  simp only [handOver, List.mem_flatten, not_exists, not_and]
  intro steps hsteps
  rw [List.eq_of_mem_replicate hsteps]
  simp

/-- Whatever makes one move at most is enacted: its tasks are handed over at once. -/
theorem enacts_use (wall : Int) (s : Scheduler τ) {action : Scheduler.Action τ}
    (hrow : ∀ count, action ≠ .call (.advanceTicks count)) :
    Enacts s (s.act wall action).2 [] := by
  rintro workers x haccount hfree rfl
  have hmoves := x.scheduler.length_movesOf_le wall hrow
  have hused : x.Takes (.use wall action) (x.used wall action) := .use hfree hmoves
  cases hpool : x.scheduler.pool with
  | none =>
    obtain ⟨-, hsilent, -⟩ := unstaffed_used haccount hmoves hpool
    have hsame : (x.used wall action).scheduler = (x.scheduler.act wall action).2 := by
      simp [used, hpool]
    refine ⟨[.use wall action], _, run_cons_iff.2 ⟨_, hused, rfl⟩, by simp, ?_, hsame,
      (List.append_nil _).symm⟩
    cases hnew : (x.used wall action).scheduler.pool with
    | none => simp [isFree, hnew, hsilent]
    | some q =>
      obtain ⟨-, rfl⟩ := (pool_used haccount wall action hnew).resolve_left (by simp [hpool])
      exact (isFree_iff hnew).2 ⟨hsilent, rfl, rfl⟩
  | some p =>
    obtain ⟨-, hopen, hcalls⟩ := (isFree_iff hpool).1 hfree
    obtain ⟨submitted, hserves, -⟩ := haccount.served p hpool
    have hstill : (x.used wall action).scheduler.pool = some p := by simp [used, hpool]
    have hhanded := run_handOver rfl hstill hcalls hopen (hserves.tidy.hasReceiver_of_open hopen)
    have hframe := p.submitAll_frame (x.used wall action).handing
    refine ⟨.use wall action :: handOver (x.used wall action).handing.length, _,
      run_cons_iff.2 ⟨_, hused, hhanded⟩, ?_, ?_, ?_, (List.append_nil _).symm⟩
    · simp [spares_handOver]
    · exact (isFree_iff rfl).2 ⟨rfl, hframe.2.trans hopen, hframe.1.trans hcalls⟩
    · have hact := Scheduler.pool_act haccount.orderly hpool wall hrow
      simp [withPool, used, ← hact]

theorem enacts_tickTimes (wall : Int) (count : Nat) (s : Scheduler τ) :
    Enacts s (Scheduler.tickTimes wall count s).2 [] := by
  induction count generalizing s with
  | zero => exact enacts_refl s
  | succ count ih =>
    rw [Scheduler.tickTimes]
    rcases Scheduler.tick_cases wall s with ⟨reason, htick⟩ | ⟨_, _, s', -, -, -, htick, -⟩
    · rw [htick]
      exact enacts_refl s
    · have hfirst : Enacts s (s.act wall (.call .tick)).2 [] := enacts_use wall s (by simp)
      have hs' : (s.act wall (.call .tick)).2 = s' := congrArg Prod.snd htick
      rw [hs'] at hfirst
      rw [htick]
      exact hfirst.trans (ih s')

/-- Whatever a scheduler does is enacted. -/
theorem enacts_act (wall : Int) (s : Scheduler τ) (action : Scheduler.Action τ) :
    Enacts s (s.act wall action).2 [] := by
  by_cases hrow : ∃ count, action = .call (.advanceTicks count)
  · obtain ⟨count, rfl⟩ := hrow
    rw [Scheduler.act_advanceTicks]
    exact enacts_tickTimes wall count s
  · exact enacts_use wall s fun count heq => hrow ⟨count, heq⟩

/-! ### The ends of a callback -/

/-- Steps of the workers are enacted. -/
theorem enacts_pool {steps : List (Pool.Action (Dispatch τ))} {log : List (Pool.Event (Dispatch τ))}
    (hpool : s.pool = some p) (hrun : p.run steps = some (q, log))
    (hmay : ∀ step ∈ steps, ∀ y : Service τ, y.mayTake step = true)
    (hspares : ∀ w, .complete w .fatal ∉ steps)
    (hframe : q.submissions = p.submissions ∧ q.isOpen = p.isOpen) :
    Enacts s { s with pool := some q } (p.startedAlong steps) := by
  rintro workers x - hfree rfl
  obtain ⟨hhanding, hopen, hcalls⟩ := (isFree_iff hpool).1 hfree
  refine ⟨steps.map .pool, _, run_pool hpool hrun fun step hstep => hmay step hstep x, ?_, ?_, rfl,
    rfl⟩
  · simpa using hspares
  · exact (isFree_iff rfl).2 ⟨hhanding, hframe.2.trans hopen, hframe.1.trans hcalls⟩

/-- A worker takes up a callback, which is then started. -/
theorem enacts_takeUp {w : Nat} {d : Dispatch τ} (h : s.pool.bind Pool.takeUp = some (w, d, q)) :
    Enacts s { s with pool := some q } [d] := by
  obtain ⟨p, hpool, htake⟩ := Option.bind_eq_some_iff.1 h
  rw [← Pool.startedAlong_takeUp htake]
  exact enacts_pool hpool (Pool.run_takeUp htake) (by simp [mayTake]) (by simp)
    (Pool.takeUp_frame htake)

/-- A worker ends a callback and reports it. -/
theorem enacts_finish (s : Scheduler τ) (w : Nat) {ending : Ending} (hspares : ending ≠ .fatal) :
    Enacts s { s with pool := s.pool.map (Pool.finish w ending) } [] := by
  by_cases hends : ∃ p job, s.pool = some p ∧ p.workers[w]? = some (.running job)
  · obtain ⟨p, job, hpool, hworker⟩ := hends
    have hnone : p.startedAlong [.complete w ending, .report w] = [] :=
      Pool.startedAlong_eq_nil (by simp)
    rw [← hnone, hpool]
    refine enacts_pool hpool (Pool.run_finish hworker hspares) (by simp [mayTake])
      (by simpa using hspares.symm) ?_
    simp [Pool.finish, hworker, Pool.setWorker, Pool.isOpen]
  · have hsame : s.pool.map (Pool.finish w ending) = s.pool := by
      cases hpool : s.pool with
      | none => rfl
      | some p =>
        exact congrArg some (Pool.finish_eq_self fun job hworker => hends ⟨p, job, hpool, hworker⟩)
    rw [hsame]
    exact enacts_refl s

end Service

end TimingWheel
