import TimingWheel.Pool.Call

/-!
# A worker pool at work

A pool whose jobs log a label, together with what they have logged. The workers take
jobs up as soon as there are any. A job may wait for a release before it logs, and so
keep its worker busy for as long as wanted.

## Main definitions

- `Pool.Task` — a job of the bench
- `Pool.Bench` — the pool and the log
- `Pool.Bench.perform` — one operation on the bench
-/

namespace TimingWheel.Pool

/-- A job that logs a label. -/
structure Task where
  label : String
  /-- It waits for a release before it logs. -/
  waits : Bool := false
  ending : Ending := .returned
deriving DecidableEq, Repr

/-- A pool and what its jobs have logged. -/
structure Bench where
  pool : Pool Task
  log : List String := []
deriving DecidableEq, Repr

namespace Bench

def create (size : Nat) : Except Fault Bench :=
  match Pool.create size with
  | .ok pool => .ok { pool }
  | .error reason => .error reason

/-- Worker `w` logs the label of its task and ends the run. -/
def conclude (w : Nat) (task : Task) (b : Bench) : Bench :=
  { pool := b.pool.finish w task.ending, log := b.log ++ [task.label] }

/-- Idle workers take up at most `n` jobs. A job that waits stays in the hands of its
worker. -/
def work : Nat → Bench → Bench
  | 0, b => b
  | n + 1, b =>
    match b.pool.takeUp with
    | none => b
    | some (w, task, pool) =>
      let b := { b with pool }
      work n (if task.waits then b else b.conclude w task)

/-- Idle workers take up jobs for as long as there are any. -/
def workAll (b : Bench) : Bench := work b.pool.queue.length b

/-- The tasks in the hands of the workers. -/
def held (b : Bench) : List (Nat × Task) :=
  b.pool.workers.zipIdx.filterMap fun (worker, w) =>
    match worker with
    | .running task => some (w, task)
    | _ => none

def release (b : Bench) : Bench :=
  workAll (b.held.foldl (fun b entry => b.conclude entry.1 entry.2) b)

/-- Hands a task over and answers whether it was accepted. -/
def submit (task : Task) (b : Bench) : Bool × Bench :=
  let (accepted, pool) := b.pool.submit task
  (accepted, { b with pool })

/-- Closes the pool once everything that it holds has been done. -/
def close (b : Bench) : Bench :=
  let b := b.release
  { b with pool := b.pool.shut }

inductive Operation where
  | size
  | queued
  | submit (task : Task)
  | release
  | waitIdle
  /-- Let all waiting tasks go and close the pool. -/
  | close
  /-- Hand over a task that closes its own pool. Its worker is not waited for, and all
  other tasks are done, so that nothing tells this from closing the pool afterwards. -/
  | closeFrom (label : String)
  /-- Answer what was logged since the last such question. -/
  | ran
deriving DecidableEq, Repr

inductive Reply where
  | none
  | count (n : Nat)
  | accepted (yes : Bool)
  | labels (log : List String)
deriving DecidableEq, Repr

def perform (b : Bench) : Operation → Reply × Bench
  | .size => (.count b.pool.size, b)
  | .queued => (.count b.pool.queued, b)
  | .submit task =>
    let (yes, b) := b.submit task
    (.accepted yes, b.workAll)
  | .release => (.none, b.release)
  | .waitIdle => (.none, b)
  | .close => (.none, b.close)
  | .closeFrom label =>
    let (yes, b) := b.submit { label }
    (.accepted yes, b.close)
  | .ran => (.labels b.log, { b with log := [] })

def performAll (b : Bench) : List Operation → List Reply
  | [] => []
  | op :: rest =>
    let (reply, b) := b.perform op
    reply :: b.performAll rest

end Bench

end TimingWheel.Pool
