import TimingWheel.Proofs.Agenda.Roster
import TimingWheel.Proofs.Pool.Conservation
import TimingWheel.Proofs.Scheduler.Run

/-!
# Schedulers at work

A scheduler at work is used from many sides: by callers, by its tick thread, and by the callbacks
that its workers run. Whoever uses it holds its lock, so that one comes after the other. A tick
holds the lock until it has handed all its tasks to the pool, one call after the other. The workers
need no lock. They take their steps at any time, also while a tick is handing over.

A service is such a scheduler together with an account of what came of it. That a callback uses the
scheduler, waits or fails is not told apart from what others do at the same time: the uses of the
scheduler may come in any order, and each run of a callback may end in any way.

## Main definitions

- `Service` — a scheduler at work
- `Service.Action`, `Service.step`, `Service.run` — what can happen to it
- `Service.waiting` — the tasks that are handed over, or still to be, and that no worker has begun

## Main statements

- `Service.step_eq_some_iff` — what each step does
-/

namespace TimingWheel

variable {τ : Type}

/-- A scheduler at work, and what came of it so far. -/
structure Service (τ : Type) where
  scheduler : Scheduler τ
  /-- What the tick under way has yet to hand over. -/
  handing : List (Dispatch τ) := []
  /-- The timers that were registered, with their tasks. -/
  roster : List (TimerId × Option τ) := []
  /-- What ticks have decided about the timers that the wheel yielded. -/
  verdicts : List (TimerId × Verdict) := []
  /-- The lists that ticks have answered. -/
  rounds : List (List TimerId) := []
  /-- The callbacks that were started. -/
  starts : List (Dispatch τ) := []
deriving DecidableEq, Repr

namespace Service

/-- What can happen to a service. -/
inductive Action (τ : Type) where
  /-- A caller, the tick thread or a callback uses the scheduler. -/
  | use (wall : Int) (action : Scheduler.Action τ)
  /-- The tick under way begins the call that hands over its next task. -/
  | hand
  /-- A worker, the call in progress, or the closing of the pool takes a step. -/
  | pool (step : Pool.Action (Dispatch τ))
deriving Repr

/-- The lock of the scheduler is free. Once the pool is closed, nobody is left to take it. -/
def isFree (x : Service τ) : Bool :=
  x.handing.isEmpty && x.scheduler.pool.all fun p => p.isOpen && p.submissions.isEmpty

/-- A pool step that belongs to no tick. The pool is not closed while a tick hands over. -/
def mayTake (x : Service τ) : Pool.Action (Dispatch τ) → Bool
  | .submit _ => false
  | .close _ => x.handing.isEmpty
  | _ => true

def withPool (pool : Pool (Dispatch τ)) (x : Service τ) : Service τ :=
  { x with scheduler := { x.scheduler with pool := some pool } }

/-- What comes of an action on the scheduler. Its pool is left to the calls that hand over. -/
def used (wall : Int) (action : Scheduler.Action τ) (x : Service τ) : Service τ :=
  let moves := x.scheduler.movesOf wall action
  let (beats, s) := x.scheduler.act wall action
  let a := x.scheduler.agenda
  { scheduler := { s with pool := x.scheduler.pool <|> s.pool }
    handing := moves.flatMap a.dispatches
    roster := x.roster ++ moves.flatMap a.enrolled
    verdicts := x.verdicts ++ moves.flatMap a.verdicts
    rounds := x.rounds ++ beats.map Beat.fired
    starts := x.starts }

/-- The service after a step, if the step can be taken. The lock is taken anew for each tick of a
row of ticks. -/
def step (x : Service τ) : Action τ → Option (Service τ)
  | .use wall action =>
    if x.isFree && decide ((x.scheduler.movesOf wall action).length ≤ 1) then
      some (x.used wall action)
    else none
  | .hand =>
    match x.handing, x.scheduler.pool with
    | d :: rest, some p =>
      if p.submissions.isEmpty then
        (p.step (.submit d)).map fun (q, _) => { x.withPool q with handing := rest }
      else none
    | _, _ => none
  | .pool step =>
    match x.scheduler.pool with
    | some p =>
      if x.mayTake step then
        (p.step step).map fun (q, _) =>
          { x.withPool q with starts := x.starts ++ p.startedBy step }
      else none
    | none => none

/-- Takes the given steps, as long as each can be taken. -/
def run (x : Service τ) (actions : List (Action τ)) : Option (Service τ) :=
  actions.foldlM step x

/-- The tasks that no worker has begun: those that were taken up, that wait, that are being handed
over, and that the tick under way has yet to hand over. -/
def waiting (x : Service τ) : List (Dispatch τ) :=
  (x.scheduler.pool.elim [] fun p =>
    p.hands .received ++ p.queue ++ p.submissions.map Submission.job) ++ x.handing

/-- No tick is under way, and no task is outstanding. -/
def isQuiet (x : Service τ) : Bool := x.handing.isEmpty && x.scheduler.pool.all Pool.isIdle

/-! ### Steps -/

/-- The service takes a step, after which it is as given. -/
inductive Takes (x : Service τ) : Action τ → Service τ → Prop where
  | use {wall : Int} {action : Scheduler.Action τ} (hfree : x.isFree = true)
      (hmoves : (x.scheduler.movesOf wall action).length ≤ 1) :
      Takes x (.use wall action) (x.used wall action)
  | hand {d : Dispatch τ} {rest : List (Dispatch τ)} {p q : Pool (Dispatch τ)}
      {events : List (Pool.Event (Dispatch τ))} (hhanding : x.handing = d :: rest)
      (hpool : x.scheduler.pool = some p) (hcalls : p.submissions = [])
      (hstep : p.Takes (.submit d) q events) :
      Takes x .hand { x.withPool q with handing := rest }
  | pool {step : Pool.Action (Dispatch τ)} {p q : Pool (Dispatch τ)}
      {events : List (Pool.Event (Dispatch τ))} (hpool : x.scheduler.pool = some p)
      (hmay : x.mayTake step = true) (hstep : p.Takes step q events) :
      Takes x (.pool step) { x.withPool q with starts := x.starts ++ p.startedBy step }

theorem takes_of_step {x y : Service τ} {action : Action τ} (h : x.step action = some y) :
    x.Takes action y := by
  cases action with
  | use wall action =>
    rw [step] at h
    split at h
    next hguard =>
      obtain ⟨hfree, hmoves⟩ := Bool.and_eq_true_iff.1 hguard
      obtain rfl := Option.some.inj h
      exact .use hfree (of_decide_eq_true hmoves)
    next => cases h
  | hand =>
    rw [step] at h
    split at h
    next d rest p hhanding hpool =>
      split at h
      next hcalls =>
        obtain ⟨⟨q, events⟩, hstep, rfl⟩ := Option.map_eq_some_iff.1 h
        exact .hand hhanding hpool (List.isEmpty_iff.1 hcalls) (Pool.takes_of_step hstep)
      next => cases h
    next => cases h
  | pool action =>
    simp only [step] at h
    split at h
    next p hpool =>
      split at h
      next hmay =>
        obtain ⟨⟨q, events⟩, hstep, rfl⟩ := Option.map_eq_some_iff.1 h
        exact .pool hpool hmay (Pool.takes_of_step hstep)
      next => cases h
    next => cases h

theorem step_of_takes {x y : Service τ} {action : Action τ} (h : x.Takes action y) :
    x.step action = some y := by
  cases h with
  | use hfree hmoves => simp [step, hfree, hmoves]
  | hand hhanding hpool hcalls hstep =>
    simp [step, hhanding, hpool, hcalls, Pool.step_of_takes hstep]
  | pool hpool hmay hstep => simp [step, hpool, hmay, Pool.step_of_takes hstep]

/-- What each step does. -/
theorem step_eq_some_iff {x y : Service τ} {action : Action τ} :
    x.step action = some y ↔ x.Takes action y :=
  ⟨takes_of_step, step_of_takes⟩

theorem run_cons_iff {x z : Service τ} {action : Action τ} {rest : List (Action τ)} :
    x.run (action :: rest) = some z ↔ ∃ y, x.Takes action y ∧ y.run rest = some z := by
  rw [run, List.foldlM_cons]
  exact Option.bind_eq_some_iff.trans (exists_congr fun y => and_congr_left' step_eq_some_iff)

theorem run_append_iff {x z : Service τ} {before after : List (Action τ)} :
    x.run (before ++ after) = some z ↔ ∃ y, x.run before = some y ∧ y.run after = some z := by
  rw [run, List.foldlM_append]
  exact Option.bind_eq_some_iff

end Service

end TimingWheel
