import TimingWheel.Text.Decimal

/-!
# Arguments of the demo

The demo is called with the number of a case and, if wanted, the width of the finest
slots. Words that mean nothing are skipped, and so is a width that cannot be read. An
option given twice counts as given last.

## Main definitions

- `Demo.Arguments.read` — what the words of a command line say
- `Demo.Arguments.request` — what is to be done, or what is wrong
- `Demo.usage` — how the demo is called
-/

namespace TimingWheel.Demo

/-- What the words of a command line say. -/
structure Arguments where
  /-- The usage is asked for; nothing after that is looked at. -/
  help : Bool := false
  /-- The number of the case; a number that cannot be read counts as none. -/
  chosen : Option Nat := none
  /-- The width of the finest slots in milliseconds. -/
  tick : Nat := 10
deriving DecidableEq, Repr

/-- What is wrong with a command line. -/
inductive Complaint where
  | invalidTick (tick : Nat)
  | invalidCase (number : Nat)
  | missingCase
deriving DecidableEq, Repr

def Complaint.message : Complaint → String
  | invalidTick tick => s!"Invalid tick {tick}ms. Must be 1-1000."
  | invalidCase number => s!"Invalid case {number}. Must be 1-5."
  | missingCase => "Missing --case argument"

inductive Case where
  | oneShot
  | repeating
  | cancellation
  | lazyReset
  | cascade
deriving DecidableEq, Repr

def Case.ofNumber : Nat → Option Case
  | 1 => some oneShot
  | 2 => some repeating
  | 3 => some cancellation
  | 4 => some lazyReset
  | 5 => some cascade
  | _ => none

inductive Request where
  | showUsage
  | play (chosen : Case) (tick : Nat)
deriving DecidableEq, Repr

/-- How the demo is called, line by line. -/
def usage : List String :=
  ["Usage: wheel_demo --case <1-5> [--tick <ms>]",
   "",
   "  1  One-shot timer",
   "  2  Repeating timer",
   "  3  Cancellation",
   "  4  Lazy reset",
   "  5  Multi-level cascade"]

namespace Arguments

/-- Reads words on top of what earlier words have said. -/
def readFrom (a : Arguments) : List String → Arguments
  | [] => a
  | word :: rest =>
    if word = "--help" ∨ word = "-h" then { a with help := true }
    else if word = "--case" ∨ word = "-c" then
      match rest with
      | [] => a
      | value :: rest => readFrom { a with chosen := Decimal.read (2 ^ 64) value } rest
    else if word = "--tick" ∨ word = "-t" then
      match rest with
      | [] => a
      | value :: rest => readFrom { a with tick := (Decimal.read (2 ^ 32) value).getD a.tick } rest
    else readFrom a rest

/-- What the words of a command line say. -/
def read (words : List String) : Arguments := readFrom {} words

/-- What is to be done. The width is looked at before the number of the case. -/
def request (a : Arguments) : Except Complaint Request :=
  if a.help then .ok .showUsage
  else if a.tick = 0 ∨ 1000 < a.tick then .error (.invalidTick a.tick)
  else match a.chosen with
    | none => .error .missingCase
    | some number =>
      match Case.ofNumber number with
      | some chosen => .ok (.play chosen a.tick)
      | none => .error (.invalidCase number)

/-- A case is only played with a width from one to a thousand milliseconds. -/
theorem tick_of_request {a : Arguments} {chosen : Case} {tick : Nat}
    (h : a.request = .ok (.play chosen tick)) : 1 ≤ tick ∧ tick ≤ 1000 := by
  unfold request at h
  split at h
  · simp at h
  · split at h
    · simp at h
    · rename_i hrange
      split at h
      · simp at h
      · split at h
        · obtain ⟨-, rfl⟩ : _ = chosen ∧ a.tick = tick := by simpa using h
          omega
        · simp at h

end Arguments

end TimingWheel.Demo
