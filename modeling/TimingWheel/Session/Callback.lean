import TimingWheel.Scheduler.Operation

/-!
# Callbacks that use their own scheduler

A callback logs its label when it runs. After that it goes through a program, whose steps
use the scheduler that ran it. Each step is logged with its answer. At last the
callback may fail in a way that its worker contains.

Callbacks run after the tick that dispatched them, so their steps find the scheduler
unlocked.

## Main definitions

- `Callback` — what a timer does when it fires
- `Callback.Step` — one step of a program
- `Callback.Answer` — what a step answers
- `Note` — one entry of the log
-/

namespace TimingWheel

inductive Callback.Step (κ : Type) where
  | perform (op : Scheduler.Operation κ)
  | ticks (count : Nat)
  /-- Waiting until callbacks with this label have begun `count` times. -/
  | awaitBegun (label : String) (count : Nat)
  /-- Waiting until the timer is no longer held by the wheel. -/
  | awaitGone (id : TimerId)
  /-- Taking the log, which begins anew. -/
  | takeLog

/-- What a timer does when it fires: it logs `label`, goes through the steps of `program`,
and fails at the end if `fails` is set. -/
inductive Callback where
  | mk (label : String) (program : List (Callback.Step Callback)) (fails : Bool)

structure Ticks where
  /-- The timers that fired, with the number of the tick; ticks without any are left out. -/
  fired : List (Nat × List TimerId) := []
  /-- The number of the tick that was refused, and why. -/
  failure : Option (Nat × Fault) := none
deriving DecidableEq, Repr

mutual

inductive Callback.Answer where
  | reply (reply : Scheduler.Reply)
  | ticks (ticks : Ticks)
  /-- What was waited for came in time, or did not. -/
  | came (inTime : Bool)
  | log (notes : List Note)

/-- An entry of the log that callbacks write. -/
inductive Note where
  /-- A callback with this label has begun. -/
  | began (label : String)
  /-- A step of the callback with this label was answered. -/
  | answered (label : String) (answer : Callback.Answer)

end

/-- The entry says that a callback with this label has begun. -/
def Note.isBeginning (label : String) : Note → Bool
  | .began l => l == label
  | .answered _ _ => false

namespace Callback

def log (label : String) : Callback := mk label [] false

def label : Callback → String
  | mk label _ _ => label

def program : Callback → List (Step Callback)
  | mk _ program _ => program

/-- How the run of the callback ends for its worker. -/
def ending : Callback → Ending
  | mk _ _ fails => if fails then .failed else .returned

end Callback

end TimingWheel
