import TimingWheel.Pacing
import TimingWheel.Session.Callback

/-!
# Sessions

A session is a scheduler in use, together with the log that its callbacks write and with
a time of its own. Work takes no time, and time goes on only while everybody sleeps. It
then jumps to the next instant at which somebody wakes, which is either the tick thread
of a realtime scheduler or the caller.

Instants are in nanoseconds since the session began.

## Main definitions

- `Session` — a scheduler, the log, the instant, and the pace of the tick thread
- `Session.pulse` — the tick thread sleeps until its deadline and makes a tick
- `Session.carryOut` — an operation on the scheduler
- `Session.row` — a row of ticks
-/

namespace TimingWheel

/-- A scheduler in use and the log that its callbacks write. -/
structure Session where
  scheduler : Scheduler Callback
  log : List Note := []
  /-- The wall clock at the beginning, in nanoseconds since the epoch. -/
  epoch : Int := 0
  now : Nat := 0
  /-- The pace of the tick thread, while there is one. -/
  pacing : Option Pacing := none

namespace Session

def milli : Nat := 1000000

/-- Begins a session with a new scheduler. The wall clock shows `epoch` milliseconds. -/
def create (epoch : Int) (mode : Mode) (settings : Settings) : Except Fault Session :=
  match Scheduler.create mode settings with
  | .ok scheduler => .ok { scheduler, epoch := epoch * milli }
  | .error reason => .error reason

def wall (x : Session) : Int := Clock.wallMillis (x.epoch + x.now)

def isRunning (x : Session) : Bool := decide (x.scheduler.phase = .running)

def takeLog (x : Session) : List Note × Session := (x.log, { x with log := [] })

/-- A callback with this label has begun at least `count` times. -/
def hasBegun (label : String) (count : Nat) (x : Session) : Bool :=
  decide (count ≤ x.log.countP (Note.isBeginning label))

def isGone (id : TimerId) (x : Session) : Bool := !x.scheduler.agenda.isPending id

/-! ### The tick thread -/

/-- The session at the instant at which the tick thread wakes next. -/
def awaken (x : Session) : Session :=
  match x.pacing with
  | none => x
  | some pacing =>
    let pacing := pacing.resume x.now
    { x with now := pacing.wake x.now, pacing := some pacing }

/-- The tick thread wakes at its deadline. It makes a tick, or ends if the scheduler is
no longer running. -/
def pulse (x : Session) : Session :=
  let x := x.awaken
  if x.isRunning then
    { x with
      scheduler := (x.scheduler.heartbeat x.wall).2
      pacing := x.pacing.map Pacing.next }
  else { x with pacing := none }

/-- How often the tick thread wakes up to the instant `limit`. -/
def pulsesUntil (limit : Nat) (x : Session) : Nat :=
  match x.pacing with
  | none => 0
  | some pacing => pacing.deadlinesUntil limit

/-- The tick thread is there while a realtime scheduler runs. The one who stops the
scheduler waits for it to end, which takes it to its next deadline. -/
def followPhase (x : Session) : Session :=
  match x.pacing with
  | none =>
    if x.isRunning && decide (x.scheduler.mode = .realtime) then
      { x with pacing := some (.start (max x.scheduler.period 1 * milli) x.now) }
    else x
  | some _ => if x.isRunning then x else x.pulse

/-! ### Using the scheduler -/

def carryOut (op : Scheduler.Operation Callback) (x : Session) : Scheduler.Reply × Session :=
  let (reply, scheduler) := x.scheduler.perform x.wall op
  (reply, followPhase { x with scheduler })

/-- Makes a row of ticks, of which the first one has the number `k`, and stops at the
first one that is refused. After each of them `rest` takes place. -/
def row (rest : Session → Session) (k : Nat) : Nat → Session → Ticks × Session
  | 0, x => ({}, x)
  | n + 1, x =>
    let (reply, scheduler) := x.scheduler.tick x.wall
    let x := rest { x with scheduler }
    match reply with
    | .error reason => ({ failure := some (k, reason) }, x)
    | .ok ids =>
      let (later, x) := row rest (k + 1) n x
      ({ later with fired := if ids.isEmpty then later.fired else (k, ids) :: later.fired }, x)

/-! ### Waiting -/

/-- How long anybody waits for something: ten seconds. -/
def awaitLimit : Nat := 10000 * milli

/-- Time goes on by `tick` until `done` holds, but at most `n` times. -/
def passWithin (tick : Session → Session) (done : Session → Bool) : Nat → Session → Bool × Session
  | 0, x => (done x, x)
  | n + 1, x => if done x then (true, x) else passWithin tick done n (tick x)

/-- Somebody waits until `done` holds, while time goes on by `tick`. Answers whether it
came to hold in time. -/
def waitFor (tick : Session → Session) (done : Session → Bool) (x : Session) : Bool × Session :=
  let limit := x.now + awaitLimit
  let (came, x) := passWithin tick done (x.pulsesUntil limit) x
  (came, if came then x else { x with now := max x.now limit })

/-- An answer that something came in time is right. -/
theorem done_of_passWithin {tick : Session → Session} {done : Session → Bool} {n : Nat}
    {x : Session} (h : (passWithin tick done n x).1 = true) :
    done (passWithin tick done n x).2 = true := by
  induction n generalizing x with
  | zero => exact h
  | succ n ih =>
    unfold passWithin at h ⊢
    split at h
    · rename_i hx
      simp [hx]
    · rename_i hx
      simpa [hx] using ih h

end Session

end TimingWheel
