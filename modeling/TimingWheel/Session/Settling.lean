import TimingWheel.Session.Basic

/-!
# Running the callbacks of a session

After each operation of the caller, and after each tick, the session lets the pool run
what it has been handed, one callback after the other in the order of dispatch, until
nothing is left.

A callback that waits keeps its worker busy. Time then goes on and the tick thread goes
on with it, but no other callback runs.

## Main definitions

- `Session.follow`, `Session.followAll` — one step of a callback, and its program
- `Session.runJob` — one callback, from being taken up to being reported
- `Session.settle` — all callbacks that are waiting, and those that they bring about

## Design notes

Callbacks that make ticks can keep a pool busy for ever. The number of callbacks that
are run at a time is therefore limited by `Session.patience`.
-/

namespace TimingWheel.Session

def note (entry : Note) (x : Session) : Session := { x with log := x.log ++ [entry] }

def follow (x : Session) : Callback.Step Callback → Callback.Answer × Session
  | .perform op => (x.carryOut op).map .reply id
  | .ticks count => (row id 1 count x).map .ticks id
  | .awaitBegun label count => (waitFor pulse (hasBegun label count) x).map .came id
  | .awaitGone id => (waitFor pulse (isGone id) x).map .came fun x => x
  | .takeLog => x.takeLog.map .log id

/-- A callback goes through its steps in order, and logs each answer. -/
def followAll (label : String) (x : Session) : List (Callback.Step Callback) → Session
  | [] => x
  | step :: rest =>
    let (answer, x) := x.follow step
    followAll label (x.note (.answered label answer)) rest

/-- A worker takes up a callback, runs it and reports it; `none` if none is waiting. -/
def runJob (x : Session) : Option Session :=
  match x.scheduler.pool.bind Pool.takeUp with
  | none => none
  | some (w, job, pool) =>
    let c := job.task
    let x := { x with scheduler := { x.scheduler with pool := some pool } }
    let x := followAll c.label (x.note (.began c.label)) c.program
    some { x with scheduler := { x.scheduler with
      pool := x.scheduler.pool.map (Pool.finish w c.ending) } }

/-- How many callbacks are run at most before the session goes on. -/
def patience : Nat := 1000000

/-- Runs at most `n` callbacks, as long as there are any. -/
def settleWithin : Nat → Session → Session
  | 0, x => x
  | n + 1, x =>
    match x.runJob with
    | none => x
    | some x => settleWithin n x

/-- Runs the callbacks that are waiting, and those that they bring about. -/
def settle (x : Session) : Session := settleWithin patience x

end TimingWheel.Session
