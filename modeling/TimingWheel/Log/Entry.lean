/-!
# Log entries

An entry of the log names the part of the program that wrote it (its target), says in
words what happened, and lists values by name. Its severity says how much it matters.

## Main definitions

- `Log.Severity` — how much an entry matters
- `Log.Entry` — one entry
- `Log.Entry.names` — what the entry has values for
- `Log.Entry.text` — the entry as a line
-/

namespace TimingWheel.Log

/-- How much an entry matters, what matters most first. -/
inductive Severity where
  | error
  | warn
  | info
  | debug
  | trace
deriving DecidableEq, Repr

namespace Severity

def rank : Severity → Nat
  | error => 1
  | warn => 2
  | info => 3
  | debug => 4
  | trace => 5

def word : Severity → String
  | error => "ERROR"
  | warn => "WARN"
  | info => "INFO"
  | debug => "DEBUG"
  | trace => "TRACE"

end Severity

structure Entry where
  severity : Severity := .info
  /-- The part of the program that wrote the entry. -/
  target : String
  message : String
  /-- Values by name, as they are printed. -/
  fields : List (String × String) := []
deriving DecidableEq, Repr

/-- A text as it is printed in quotes. -/
def quoted (text : String) : String := "\"" ++ text ++ "\""

namespace Entry

/-- The names of all that the entry has values for. The message counts as one of them. -/
def names (e : Entry) : List String := "message" :: e.fields.map (·.1)

def text (e : Entry) : String :=
  e.fields.foldl (fun line field => line ++ " " ++ field.1 ++ "=" ++ field.2)
    (e.severity.word ++ " " ++ e.target ++ ": " ++ e.message)

/-- The entry up to the field with the given name, which is left out with all that
follows. -/
def upTo (name : String) (e : Entry) : Entry :=
  { e with fields := e.fields.takeWhile fun field => field.1 != name }

end Entry

end TimingWheel.Log
