import TimingWheel.Pool.Call
import TimingWheel.Scheduler.Agenda
import TimingWheel.Time.Clock

/-!
# Schedulers

A scheduler joins an agenda, a clock and a pool of workers. Callers register timers
and make requests about them. Each tick moves the wheel on and hands the tasks of the
timers that fire to the pool. Offline the caller moves the clock and makes the ticks;
in realtime a thread of the scheduler makes them by the wall clock.

Every operation takes the reading `wall` of the wall clock, which only a realtime
scheduler looks at.

## Main definitions

- `Settings` — what a scheduler is made from
- `Scheduler` — its state
- `Scheduler.createAt`, `Scheduler.createAfter`, `Scheduler.createEvery` — registration
- `Scheduler.start`, `Scheduler.stop` — the life of a scheduler
- `Scheduler.startOn` — the start where the system may refuse threads
- `Scheduler.tick`, `Scheduler.advanceTicks` — ticks made by the caller
- `Scheduler.heartbeat` — a tick made by the tick thread
-/

namespace TimingWheel

structure Settings where
  workers : Nat := 10
  /-- Period of the ticks; if there is none, the width of a slot of the finest level. -/
  tickInterval : Option Nat := none
  /-- The levels to begin with, the coarsest first. -/
  levels : List LevelSpec := []
  /-- The first reading of a clock moved by hand; zero if there is none. -/
  start : Option Int := none
deriving DecidableEq, Repr

/-- A task handed to the pool because its timer fired. -/
structure Dispatch (τ : Type) where
  id : TimerId
  task : τ
deriving DecidableEq, Repr

/-- The task that a timer hands to the pool when it fires, if it has one. -/
def Timer.dispatch? {τ : Type} (t : Timer τ) : Option (Dispatch τ) :=
  t.task.map fun task => { id := t.id, task }

/-- A scheduler. -/
structure Scheduler (τ : Type) where
  workers : Nat
  tickInterval : Option Nat
  clock : Clock
  agenda : Agenda τ := {}
  /-- The pool; there is one from the start on. -/
  pool : Option (Pool (Dispatch τ)) := none
deriving DecidableEq, Repr

namespace Scheduler

variable {τ : Type}

/-- Who moves the time of the scheduler. -/
def mode (s : Scheduler τ) : Mode := s.clock.mode

def phase (s : Scheduler τ) : Phase := s.agenda.phase

def now (wall : Int) (s : Scheduler τ) : Int := s.clock.now wall

def period (s : Scheduler τ) : Nat := s.agenda.tickInterval s.tickInterval

def appendLevel (spec : LevelSpec) (s : Scheduler τ) : Except Fault Unit × Scheduler τ :=
  match s.agenda.append spec with
  | .ok agenda => (.ok (), { s with agenda })
  | .error reason => (.error reason, s)

/-- Appends levels up to the first one that is refused. -/
def appendLevels : List LevelSpec → Scheduler τ → Except Fault (Scheduler τ)
  | [], s => .ok s
  | spec :: rest, s =>
    match s.appendLevel spec with
    | (.ok (), s) => appendLevels rest s
    | (.error reason, _) => .error reason

/-- Makes a scheduler, unless the settings are at fault. -/
def create (mode : Mode) (settings : Settings) : Except Fault (Scheduler τ) :=
  if settings.workers = 0 then .error .noWorkers
  else if settings.tickInterval = some 0 then .error .invalidTickInterval
  else appendLevels settings.levels {
    workers := settings.workers
    tickInterval := settings.tickInterval
    clock := .ofMode mode (settings.start.getD 0) }

def register (wall : Int) (make : TimerId → Timer τ) (s : Scheduler τ) :
    TimerId × Scheduler τ :=
  let (id, agenda) := s.agenda.register make (s.now wall)
  (id, { s with agenda })

def createAt (wall due : Int) (task : Option τ) (s : Scheduler τ) : TimerId × Scheduler τ :=
  s.register wall fun id => .once id due task

def createAfter (wall delay : Int) (task : Option τ) (s : Scheduler τ) : TimerId × Scheduler τ :=
  s.createAt wall (Time.plus (s.now wall) delay) task

/-- Registers a timer that fires every `interval` milliseconds, first after one
interval. -/
def createEvery (wall interval : Int) (task : Option τ) (s : Scheduler τ) :
    TimerId × Scheduler τ :=
  s.register wall fun id => .every id (Time.plus (s.now wall) interval) interval task

def resetAt (id : TimerId) (due : Int) (s : Scheduler τ) : Scheduler τ :=
  { s with agenda := s.agenda.requestReset id due }

def resetAfter (wall : Int) (id : TimerId) (delay : Int) (s : Scheduler τ) : Scheduler τ :=
  s.resetAt id (Time.plus (s.now wall) delay)

def cancel (id : TimerId) (s : Scheduler τ) : Scheduler τ :=
  { s with agenda := s.agenda.requestCancel id }

/-- Starts the scheduler: from now on there are workers, and ticks can be made. -/
def start (s : Scheduler τ) : Except Fault Unit × Scheduler τ :=
  match s.phase with
  | .unconfigured => (.error .noLevels, s)
  | .running => (.error .alreadyStarted, s)
  | .stopped => (.error .stopped, s)
  | .configured =>
    match Pool.create s.workers with
    | .ok pool =>
      (.ok (), { s with pool := some pool, agenda := { s.agenda with phase := .running } })
    | .error reason => (.error reason, s)

/-- Starts the scheduler where the system may refuse threads. In realtime the thread that makes the
ticks is asked for after the workers. -/
def startOn (spawn : Nat → Option String) (s : Scheduler τ) : Except Fault Unit × Scheduler τ :=
  match s.phase with
  | .unconfigured => (.error .noLevels, s)
  | .running => (.error .alreadyStarted, s)
  | .stopped => (.error .stopped, s)
  | .configured =>
    match Pool.createOn spawn s.workers with
    | .error reason => (.error reason, s)
    | .ok pool =>
      match if s.mode = .realtime then spawn s.workers else none with
      | some reason => (.error (.spawnFailed reason), s)
      | none =>
        (.ok (), { s with pool := some pool, agenda := { s.agenda with phase := .running } })

/-- Stops a running scheduler for good. Tasks that the pool already has are still run. -/
def stop (s : Scheduler τ) : Scheduler τ :=
  if s.phase = .running then { s with agenda := { s.agenda with phase := .stopped } } else s

/-- Moves the wheel on by one tick and hands the tasks of the timers that fire to the
pool. Answers these timers, in slot order. -/
def beat (wall : Int) (s : Scheduler τ) : List TimerId × Scheduler τ :=
  let (fired, agenda) := s.agenda.tick (s.now wall)
  (fired.map (·.id), { s with
    agenda
    pool := s.pool.map (Pool.submitAll (fired.filterMap Timer.dispatch?)) })

/-- A tick made by the caller, for which the clock moves on by one period. The period
is read as a signed word, so that one of `2 ^ 63` and more leaves the clock as it is. -/
def tick (wall : Int) (s : Scheduler τ) : Except Fault (List TimerId) × Scheduler τ :=
  if s.mode = .realtime then (.error .notOffline, s)
  else if s.pool.isNone || s.phase ≠ .running then (.error .notRunning, s)
  else
    let (fired, s) := beat wall { s with clock := s.clock.advance (Time.wrap s.period) }
    (.ok fired, s)

/-- Ticks made by the caller, one after the other. Answers all timers that fired. -/
def advanceTicks (wall : Int) : Nat → Scheduler τ → Except Fault (List TimerId) × Scheduler τ
  | 0, s => (.ok [], s)
  | n + 1, s =>
    match s.tick wall with
    | (.error reason, s) => (.error reason, s)
    | (.ok fired, s) =>
      match advanceTicks wall n s with
      | (.error reason, s) => (.error reason, s)
      | (.ok later, s) => (.ok (fired ++ later), s)

/-- What the tick thread does when it wakes: a tick, if the scheduler is running. -/
def heartbeat (wall : Int) (s : Scheduler τ) : List TimerId × Scheduler τ :=
  if s.phase = .running then s.beat wall else ([], s)

end Scheduler

end TimingWheel
