import TimingWheel.Log.Entry
import TimingWheel.Session.Calls

/-!
# The stage of the demo

A case of the demo is a script of a realtime session: it registers timers, starts the
scheduler, sleeps, and says what it does. Everything that is said goes into a transcript,
what callbacks, workers and the tick thread say as much as what the script says.

## Main definitions

- `Demo.Line` — one line of a transcript
- `Demo.Stage` — a session and the transcript so far
- `Demo.Script` — a script, which may come upon a fault
-/

namespace TimingWheel.Demo

structure Line where
  entry : Log.Entry
  /-- The instant at which it was said, in milliseconds since the session began. -/
  time : Nat
  fromCallback : Bool := false
deriving DecidableEq, Repr

structure Stage where
  session : Session
  transcript : List Line := []
  ticks : Nat := 0
  occurrences : Nat := 0
  /-- Callbacks say which occurrence they are, instead of the label of their timer. -/
  counting : Bool := false

abbrev Script := StateT Stage (Except Fault)

/-- The target of what the demo itself says. -/
def demoTarget : String := "wheel_demo"

/-- The target of what the worker pool and its workers say. -/
def poolTarget : String := "rust_timer_wheel::executor"

def schedulerTarget : String := "rust_timer_wheel::scheduler"

def threadTarget : String := "rust_timer_wheel::engine"

/-- The name of the field for the time since the timer of a callback was made. -/
def elapsedField : String := "elapsed_ms"

/-- What is said about a timer that a tick finds in its slot. Nothing is said about one
that goes back or that fires. -/
def verdictEntry? : TimerId × Verdict → Option Log.Entry
  | (id, .move due) => some {
    severity := .debug, target := schedulerTarget, message := "applying pending reset",
    fields := [("timer_id", toString id), ("when", toString due)] }
  | (id, .drop) => some {
    severity := .debug, target := schedulerTarget, message := "dropping canceled timer",
    fields := [("timer_id", toString id)] }
  | (_, .keep) | (_, .fire) => none

/-- What is said about a tick with the given number and verdicts. -/
def tickEntries (number : Nat) (verdicts : List (TimerId × Verdict)) : List Log.Entry :=
  let fired := verdicts.countP fun p => p.2 = .fire
  let dispatched : Log.Entry := {
    severity := .trace, target := threadTarget, message := "timers dispatched",
    fields := [("tick", toString number), ("fired", toString fired)] }
  verdicts.filterMap verdictEntry? ++ if fired = 0 then [] else [dispatched]

namespace Stage

def time (x : Stage) : Nat := x.session.now / Session.milli

/-- Adds a line that no callback says. -/
def say (x : Stage) (entry : Log.Entry) : Stage :=
  { x with transcript := x.transcript ++ [{ entry, time := x.time }] }

/-- What a callback says when it begins. All timers are made when the session begins. -/
def callbackEntry (label : String) (x : Stage) : Log.Entry :=
  let elapsed := (elapsedField, toString x.time)
  if x.counting then
    { target := demoTarget, message := "tick",
      fields := [("occurrence", toString (x.occurrences + 1)), elapsed] }
  else
    { target := demoTarget, message := "fired", fields := [("timer", Log.quoted label), elapsed] }

/-- Adds what callbacks have logged. -/
def hear (x : Stage) : List Note → Stage
  | [] => x
  | .began label :: rest =>
    hear { x with
      transcript := x.transcript ++
        [{ entry := x.callbackEntry label, time := x.time, fromCallback := true }]
      occurrences := x.occurrences + 1 } rest
  | .answered _ _ :: rest => hear x rest

/-- Takes what callbacks have logged out of the session. -/
def listen (x : Stage) : Stage :=
  let (log, session) := x.session.takeLog
  hear { x with session } log

/-- The tick thread wakes, and says what its tick does before the callbacks speak. -/
def beat (x : Stage) : Stage :=
  let woken := x.session.awaken
  let ticks := if woken.isRunning then x.ticks + 1 else x.ticks
  let verdicts :=
    if woken.isRunning then
      woken.scheduler.agenda.outlook (woken.scheduler.now woken.wall)
    else []
  let said := (tickEntries ticks verdicts).foldl say { x with session := x.session.beat, ticks }
  said.listen

def beats : Nat → Stage → Stage
  | 0, x => x
  | n + 1, x => beats n x.beat

def sleep (millis : Nat) (x : Stage) : Stage :=
  let limit := x.session.now + millis * Session.milli
  let x := x.beats (x.session.pulsesUntil limit)
  { x with session := { x.session with now := limit } }

theorem session_hear (x : Stage) (log : List Note) : (x.hear log).session = x.session := by
  induction log generalizing x with
  | nil => rfl
  | cons note rest ih => cases note <;> exact ih _

theorem session_foldl_say (entries : List Log.Entry) (x : Stage) :
    (entries.foldl say x).session = x.session := by
  induction entries generalizing x with
  | nil => rfl
  | cons entry rest ih => exact ih _

/-- What is said has no effect on the session. -/
theorem session_beat (x : Stage) : x.beat.session = x.session.beat.takeLog.2 := by
  simp only [beat, listen, session_hear, session_foldl_say]

end Stage

namespace Script

def report (entry : Log.Entry) : Script Unit := modify fun x => x.say entry

def say (message : String) (fields : List (String × String)) : Script Unit :=
  report { target := demoTarget, message, fields }

/-- All workers say something, the first one first. -/
def reportWorkers (message : String) : Script Unit := do
  for worker in List.range (← get).session.scheduler.workers do
    report {
      severity := .debug, target := poolTarget, message,
      fields := [("worker", toString worker)] }

def perform (op : Scheduler.Operation Callback) : Script Scheduler.Reply := do
  let x ← get
  let (reply, session) := x.session.perform op
  set { x with session }.listen
  return reply

/-- Registers a timer that says its label when it fires. -/
def create (op : Option Callback → Scheduler.Operation Callback) (label : String) :
    Script TimerId := do
  match ← perform (op (some (.log label))) with
  | .registered id => return id
  | _ => return .invalid

def levels : Script (List LevelInfo) := return (← get).session.scheduler.agenda.wheel.info

/-- Says which levels the scheduler has been made with. -/
def reportLevels : Script Unit := do
  for (level, index) in (← levels).zipIdx do
    report {
      severity := .debug, target := schedulerTarget, message := "wheel level appended",
      fields := [
        ("level_index", toString index),
        ("name", level.name),
        ("slot_count", toString level.slotCount),
        ("tick_millis", toString level.width)] }

/-- Starts the scheduler. The pool speaks first, and the tick thread last. -/
def start : Script Unit := do
  match ← perform .start with
  | .refused reason => throw reason
  | _ =>
    let scheduler := (← get).session.scheduler
    reportWorkers "worker started"
    report {
      target := poolTarget, message := "worker pool started",
      fields := [("workers", toString scheduler.workers)] }
    report {
      target := schedulerTarget, message := "scheduler started",
      fields := [
        ("mode", "Realtime"),
        ("levels", toString scheduler.agenda.wheel.depth),
        ("tick_interval_ms", toString scheduler.period)] }
    report {
      severity := .debug, target := threadTarget, message := "tick loop started",
      fields := [("interval_ms", toString (max scheduler.period 1))] }

def sleep (millis : Nat) : Script Unit := modify fun x => x.sleep millis

/-- Stops the scheduler, and the tick thread with it. -/
def stop : Script Unit := do
  let _ ← perform .stop
  report {
    severity := .debug, target := threadTarget, message := "tick loop exited",
    fields := [("ticks", toString (← get).ticks)] }
  report { target := schedulerTarget, message := "scheduler stopped" }

/-- Runs a script on a new scheduler with four workers and the given levels, and lets the
scheduler go at the end. Answers the transcript. The wall clock shows `epoch` milliseconds
at the beginning. -/
def play (epoch : Int) (title : String) (specs : List LevelSpec) (script : Script Unit) :
    Except Fault (List Line) := do
  let session ← Session.create epoch .realtime { workers := 4, levels := specs }
  let whole : Script Unit := do
    say title []
    reportLevels
    script
    reportWorkers "worker exiting"
    report { target := poolTarget, message := "worker pool shut down" }
    say "demo complete" []
  let (_, stage) ← whole.run { session }
  return stage.transcript

end Script

end TimingWheel.Demo
