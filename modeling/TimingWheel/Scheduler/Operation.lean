import TimingWheel.Scheduler.Basic

/-!
# Operations on a scheduler

Everything that can be asked of a scheduler, as data. Performing an operation always
gives a reply and a scheduler, also where the reply is a refusal.

## Main definitions

- `Scheduler.Operation` — what can be asked
- `Scheduler.Reply` — what is answered
- `Scheduler.perform`, `Scheduler.performAll` — one operation, and a list of them
-/

namespace TimingWheel.Scheduler

/-- An operation on a scheduler whose timers have tasks of the type `τ`. -/
inductive Operation (τ : Type) where
  | appendLevel (spec : LevelSpec)
  | start
  | stop
  | waitIdle
  | createAt (due : Int) (task : Option τ)
  | createAfter (delay : Int) (task : Option τ)
  | createEvery (interval : Int) (task : Option τ)
  | resetAt (id : TimerId) (due : Int)
  | resetAfter (id : TimerId) (delay : Int)
  | cancel (id : TimerId)
  | tick
  | advanceTicks (count : Nat)
  | mode
  | phase
  | now
  | pending
  | isPending (id : TimerId)
  | levels
deriving Repr

/-- What an operation on a scheduler answers. -/
inductive Reply where
  | none
  /-- An operation that may be refused was not. -/
  | accepted
  | refused (reason : Fault)
  | registered (id : TimerId)
  | fired (ids : List TimerId)
  | mode (mode : Mode)
  | phase (phase : Phase)
  | time (reading : Int)
  | count (n : Nat)
  | flag (yes : Bool)
  | levels (info : List LevelInfo)
deriving DecidableEq, Repr

/-- The reply to an operation that may be refused and otherwise answers nothing. -/
def Reply.ofUnit : Except Fault Unit → Reply
  | .ok () => .accepted
  | .error reason => .refused reason

def Reply.ofFired : Except Fault (List TimerId) → Reply
  | .ok ids => .fired ids
  | .error reason => .refused reason

variable {τ : Type}

/-- Performs one operation while the wall clock shows `wall`. Waiting for the pool
changes nothing in the scheduler itself. -/
def perform (wall : Int) (s : Scheduler τ) : Operation τ → Reply × Scheduler τ
  | .appendLevel spec => (s.appendLevel spec).map Reply.ofUnit id
  | .start => s.start.map Reply.ofUnit id
  | .stop => (.none, s.stop)
  | .waitIdle => (.none, s)
  | .createAt due task => (s.createAt wall due task).map Reply.registered id
  | .createAfter delay task => (s.createAfter wall delay task).map Reply.registered id
  | .createEvery interval task => (s.createEvery wall interval task).map Reply.registered id
  | .resetAt id due => (.none, s.resetAt id due)
  | .resetAfter id delay => (.none, s.resetAfter wall id delay)
  | .cancel id => (.none, s.cancel id)
  | .tick => (s.tick wall).map Reply.ofFired id
  | .advanceTicks count => (s.advanceTicks wall count).map Reply.ofFired id
  | .mode => (.mode s.mode, s)
  | .phase => (.phase s.phase, s)
  | .now => (.time (s.now wall), s)
  | .pending => (.count s.agenda.pending, s)
  | .isPending id => (.flag (s.agenda.isPending id), s)
  | .levels => (.levels s.agenda.wheel.info, s)

/-- Performs operations one after the other, each with the reading of the wall clock
at its time. -/
def performAll (s : Scheduler τ) : List (Int × Operation τ) → List Reply × Scheduler τ
  | [] => ([], s)
  | (wall, op) :: rest =>
    let (reply, s) := s.perform wall op
    let (replies, s) := s.performAll rest
    (reply :: replies, s)

end TimingWheel.Scheduler
