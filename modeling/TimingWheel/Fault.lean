/-!
# Faults

The reasons for which a scheduler refuses an operation, and the wording of each.
-/

namespace TimingWheel

/-- Why an operation was refused. -/
inductive Fault where
  /-- The scheduler has no levels to start with. -/
  | noLevels
  /-- A level needs at least one slot, and each slot some width. -/
  | invalidLevel (slotCount width : Nat)
  | invalidTickInterval
  /-- A worker pool needs at least one worker. -/
  | noWorkers
  | alreadyStarted
  /-- The scheduler has run and was stopped. -/
  | stopped
  /-- Ticks are only made by hand on a clock that is moved by hand. -/
  | notOffline
  /-- Ticks are only made while the scheduler runs. -/
  | notRunning
  /-- The system gave no thread, for the stated reason. -/
  | spawnFailed (reason : String)
deriving DecidableEq, Repr

def Fault.message : Fault → String
  | noLevels => "no wheel levels configured"
  | invalidLevel slotCount width => s!"invalid wheel level: {slotCount} slots of {width}ms"
  | invalidTickInterval => "tick interval must be at least 1ms"
  | noWorkers => "worker pool needs at least one thread"
  | alreadyStarted => "scheduler already started"
  | stopped => "scheduler was stopped and cannot be restarted"
  | notOffline => "manual ticking requires offline mode"
  | notRunning => "scheduler is not running"
  | spawnFailed reason => s!"failed to spawn thread: {reason}"

/-- A level was named by an index past the finest one. -/
structure OutOfRange where
  depth : Nat
  index : Nat
deriving DecidableEq, Repr

def OutOfRange.message (e : OutOfRange) : String :=
  s!"index out of bounds: the len is {e.depth} but the index is {e.index}"

end TimingWheel
