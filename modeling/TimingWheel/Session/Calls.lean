import TimingWheel.Session.Settling

/-!
# What the caller of a session does

The caller uses the scheduler, sleeps, or waits for something. The callbacks that are
brought about by it run before the caller goes on.

## Main definitions

- `Session.perform`, `Session.ticks` — using the scheduler
- `Session.beat` — a tick of the tick thread
- `Session.sleep`, `Session.await` — letting time go on
-/

namespace TimingWheel.Session

/-- Performs an operation and then runs the callbacks. -/
def perform (op : Scheduler.Operation Callback) (x : Session) : Scheduler.Reply × Session :=
  (x.carryOut op).map id settle

/-- Makes `n` ticks, running the callbacks after each, and stops at the first one that is
refused. -/
def ticks (n : Nat) (x : Session) : Ticks × Session := row settle 1 n x

/-- The tick thread wakes at its deadline, and then the callbacks run. -/
def beat (x : Session) : Session := x.pulse.settle

def beats : Nat → Session → Session
  | 0, x => x
  | n + 1, x => beats n x.beat

/-- The caller sleeps for the given number of milliseconds. -/
def sleep (millis : Nat) (x : Session) : Session :=
  let limit := x.now + millis * milli
  let x := x.beats (x.pulsesUntil limit)
  { x with now := max x.now limit }

/-- The caller waits until `done` holds. Answers whether it came to hold in time. -/
def await (done : Session → Bool) (x : Session) : Bool × Session := waitFor beat done x

end TimingWheel.Session
