import TimingWheel.Wheel.Basic

/-!
# Operations on a wheel

Everything that can be asked of a wheel, as data. Performing an operation always
gives a reply and a wheel, also where the reply is a refusal, so that sequences of
operations can be run and reasoned about as lists.

## Main definitions

- `Wheel.Operation` — what can be asked
- `Wheel.Reply` — what is answered
- `Wheel.perform`, `Wheel.performAll` — one operation, and a list of them
-/

namespace TimingWheel

/-- A snapshot of one level for diagnostics. -/
structure LevelInfo extends LevelSpec where
  cursor : Nat
  timers : Nat
deriving DecidableEq, Repr

def Level.info {τ : Type} (l : Level τ) : LevelInfo :=
  { l.toLevelSpec with cursor := l.cursor, timers := l.count }

namespace Wheel

variable {τ : Type}

def info (w : Wheel τ) : List LevelInfo := w.levels.map Level.info

inductive Operation (τ : Type) where
  | append (spec : LevelSpec)
  | insert (t : Timer τ) (now : Int)
  | insertAt (i : Nat) (t : Timer τ) (now : Int)
  | advance (i : Nat) (now : Int)
  | advanceFinest (now : Int)
  | take (i : Nat)
  | takeFinest
  /-- Make `count` ticks that are `step` milliseconds apart, the first one `step` after
  `now`, and let go of the timers that come out. -/
  | run (now step : Int) (count : Nat)
deriving DecidableEq, Repr

inductive Reply (τ : Type) where
  | done
  | refused (reason : Fault)
  | outOfRange (reason : OutOfRange)
  | taken (timers : List (Timer τ))
  /-- The timers that came out, each with the number of its tick. -/
  | ran (timers : List (Nat × Timer τ))
deriving DecidableEq, Repr

/-- Performs one operation. A refused operation leaves the wheel as it was. -/
def perform (w : Wheel τ) : Operation τ → Reply τ × Wheel τ
  | .append spec =>
    match w.append spec with
    | .ok w' => (.done, w')
    | .error reason => (.refused reason, w)
  | .insert t now => (.done, w.insert t now)
  | .insertAt i t now => (.done, w.insertAt i t now)
  | .advance i now =>
    match w.advance i now with
    | .ok w' => (.done, w')
    | .error reason => (.outOfRange reason, w)
  | .advanceFinest now => (.done, w.advanceFinest now)
  | .take i =>
    match w.take i with
    | .ok (ts, w') => (.taken ts, w')
    | .error reason => (.outOfRange reason, w)
  | .takeFinest =>
    let (ts, w') := w.takeFinest
    (.taken ts, w')
  | .run now step count =>
    let (ts, w') := w.run now step count
    (.ran ts, w')

def performAll (w : Wheel τ) : List (Operation τ) → List (Reply τ) × Wheel τ
  | [] => ([], w)
  | op :: rest =>
    let (reply, w) := w.perform op
    let (replies, w) := w.performAll rest
    (reply :: replies, w)

end Wheel

end TimingWheel
