import TimingWheel.Demo.Arguments
import TimingWheel.Demo.Stage
import TimingWheel.Log.Filter

/-!
# The demo

Five cases show what a scheduler does in realtime: a timer that fires once, one that
repeats, one that is cancelled, one that is moved before its slot is reached, and three
that fall through three levels.

## Main definitions

- `Demo.Case.play` — the transcript of a case
- `Demo.respond` — all that a call of the demo gives
-/

namespace TimingWheel.Demo

/-- The level that most cases are played on. -/
def fineLevel (slotCount tick : Nat) : LevelSpec := { slotCount, width := tick, name := "fine" }

/-- A single timer fires after half a second. -/
def oneShot : Script Unit := do
  let id ← Script.create (.createAfter 500) "one-shot"
  Script.say "scheduled" [("timer_id", toString id)]
  Script.start
  Script.sleep 800
  Script.stop

/-- A timer repeats every fifth of a second for about two seconds. -/
def repeating : Script Unit := do
  modify fun x => { x with counting := true }
  let _ ← Script.create (.createEvery 200) "tick"
  Script.start
  Script.sleep 2050
  Script.stop
  Script.say "repeating timer stopped" [("occurrences", toString (← get).occurrences)]

/-- One of two timers is cancelled before it is reached. -/
def cancellation : Script Unit := do
  let kept ← Script.create (.createAfter 400) "kept"
  let canceled ← Script.create (.createAfter 400) "canceled"
  Script.start
  Script.sleep 100
  let _ ← Script.perform (.cancel canceled)
  Script.say "cancel requested" [("kept", toString kept), ("canceled", toString canceled)]
  Script.sleep 600
  Script.stop

/-- A timer is moved back before its slot is reached. -/
def lazyReset : Script Unit := do
  let id ← Script.create (.createAfter 300) "reset"
  Script.start
  Script.sleep 100
  let _ ← Script.perform (.resetAfter id 800)
  Script.say "reset requested, takes effect when the 300ms slot is reached"
    [("timer_id", toString id)]
  Script.sleep 1200
  Script.stop

/-- Three timers that are seconds away fall through three levels. -/
def cascade : Script Unit := do
  for (label, delay) in [("1.5s", 1500), ("2.7s", 2700), ("4.2s", 4200)] do
    let _ ← Script.create (.createAfter delay) label
  for level in ← Script.levels do
    Script.say "level"
      [("level_name", level.name), ("slots", toString level.slotCount),
       ("tick_ms", toString level.width), ("timers", toString level.timers)]
  Script.start
  Script.sleep 4600
  Script.stop

/-- The transcript of a case, with finest slots of the width `tick`. -/
def Case.play (epoch : Int) (tick : Nat) : Case → Except Fault (List Line)
  | .oneShot =>
    Script.play epoch "=== Case 1: one-shot timer, 500ms ===" [fineLevel 64 tick] Demo.oneShot
  | .repeating =>
    Script.play epoch "=== Case 2: repeating timer every 200ms ===" [fineLevel 32 tick]
      Demo.repeating
  | .cancellation =>
    Script.play epoch "=== Case 3: cancel one of two timers ===" [fineLevel 64 tick]
      Demo.cancellation
  | .lazyReset =>
    Script.play epoch "=== Case 4: lazy reset from 300ms to 900ms ===" [fineLevel 64 tick]
      Demo.lazyReset
  | .cascade =>
    Script.play epoch "=== Case 5: cascade through three levels ==="
      [{ slotCount := 60, width := 60000, name := "minutes" },
       { slotCount := 60, width := 1000, name := "seconds" },
       fineLevel (1000 / tick) tick] Demo.cascade

structure Response where
  exitCode : UInt32 := 0
  usage : Bool := false
  transcript : List Line := []
  complaint : Option String := none
deriving DecidableEq, Repr

/-- The text that is printed about what went wrong. -/
def Response.complaintText (r : Response) : String :=
  match r.complaint with
  | none => ""
  | some message => "Error: " ++ Log.quoted message ++ "\n"

/-- What a call of the demo with the given words gives. Of the transcript only the lines
that the filter admits are shown. -/
def respond (words : List String) (filter : Log.Filter) (epoch : Int) : Response :=
  match (Arguments.read words).request with
  | .error reason =>
    { exitCode := 1, usage := decide (reason = .missingCase), complaint := some reason.message }
  | .ok .showUsage => { usage := true }
  | .ok (.play chosen tick) =>
    match chosen.play epoch tick with
    | .error reason => { exitCode := 1, complaint := some reason.message }
    | .ok lines => { transcript := lines.filter fun line => filter.admits line.entry }

end TimingWheel.Demo
