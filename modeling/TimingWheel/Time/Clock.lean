import TimingWheel.Time.Range

/-!
# The scheduler's clock

A clock either follows the wall clock or is moved by hand. Only a clock moved by
hand keeps a reading of its own; the other one answers whatever the wall clock
shows, and ignores being moved.

## Main definitions

- `Clock.now`: the reading, given what the wall clock shows
- `Clock.advance`, `Clock.set`: moving a clock by hand
- `Clock.perform`: one operation on a clock, with its reply
-/

namespace TimingWheel

/-- Who moves the time of a scheduler. -/
inductive Mode where
  /-- The wall clock, with a tick thread in the background. -/
  | realtime
  /-- The caller, tick by tick. -/
  | offline
deriving DecidableEq, Repr

/-- Where no mode is chosen, the wall clock moves the time. -/
instance : Inhabited Mode := ⟨.realtime⟩

/-- A millisecond clock. -/
inductive Clock where
  /-- The clock shows what the wall clock shows. -/
  | wall
  /-- The clock shows a reading that is moved by hand. -/
  | manual (reading : Int)
deriving DecidableEq, Repr

namespace Clock

/-- The clock of a scheduler in the given mode. Only a clock moved by hand has a
starting time. -/
def ofMode (mode : Mode) (start : Int) : Clock :=
  match mode with
  | .realtime => .wall
  | .offline => .manual start

def mode : Clock → Mode
  | .wall => .realtime
  | .manual _ => .offline

/-- The reading of the clock while the wall clock shows `wall`. -/
def now (wall : Int) : Clock → Int
  | .wall => wall
  | .manual reading => reading

/-- Moves a clock forward by hand. A step back counts as no step. -/
def advance (step : Int) : Clock → Clock
  | .wall => .wall
  | .manual reading => .manual (Time.wrap (reading + max step 0))

def set (reading : Int) : Clock → Clock
  | .wall => .wall
  | .manual _ => .manual reading

/-- The wall clock in milliseconds, from nanoseconds since the epoch. Before the
epoch as after it, a started millisecond is cut off towards the epoch. -/
def wallMillis (nanos : Int) : Int := nanos.tdiv 1000000

inductive Operation where
  | now
  | mode
  | advance (step : Int)
  | set (reading : Int)
deriving DecidableEq, Repr

inductive Reply where
  | time (reading : Int)
  | mode (mode : Mode)
deriving DecidableEq, Repr

/-- Performs one operation while the wall clock shows `wall`. Moving a clock answers
the reading after the move. -/
def perform (wall : Int) (c : Clock) : Operation → Reply × Clock
  | .now => (.time (c.now wall), c)
  | .mode => (.mode c.mode, c)
  | .advance step => (.time ((c.advance step).now wall), c.advance step)
  | .set reading => (.time ((c.set reading).now wall), c.set reading)

end Clock

end TimingWheel
