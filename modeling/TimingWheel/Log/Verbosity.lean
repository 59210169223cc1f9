import TimingWheel.Log.Entry
import TimingWheel.Text.Decimal

/-!
# Verbosity

The verbosity of a log says down to which severity entries are logged.

## Main definitions

- `Log.Verbosity` — how much is logged
- `Log.Verbosity.shows` — entries of a severity are logged
- `Log.Verbosity.ofName` — the verbosity that a text names
-/

namespace TimingWheel.Log

inductive Verbosity where
  | off
  | error
  | warn
  | info
  | debug
  | trace
deriving DecidableEq, Repr

namespace Verbosity

/-- The place of a verbosity in their order; a higher one includes a lower one. -/
def rank : Verbosity → Nat
  | off => 0
  | error => 1
  | warn => 2
  | info => 3
  | debug => 4
  | trace => 5

/-- Entries of the given severity are logged. -/
def shows (s : Severity) (v : Verbosity) : Bool := decide (s.rank ≤ v.rank)

/-- All verbosities, each at the place that is its rank. -/
def all : List Verbosity := [off, error, warn, info, debug, trace]

def word : Verbosity → String
  | off => "off"
  | error => "error"
  | warn => "warn"
  | info => "info"
  | debug => "debug"
  | trace => "trace"

/-- The verbosity that a text names by its rank or by its word, in capitals or not. -/
def ofName (name : String) : Option Verbosity :=
  match Decimal.read all.length name with
  | some rank => all[rank]?
  | none => all.find? fun v => v.word == name.toLower

theorem getElem?_rank (v : Verbosity) : all[v.rank]? = some v := by
  cases v <;> rfl

/-- A rank names its verbosity. -/
theorem ofName_rank (v : Verbosity) : ofName (toString v.rank) = some v := by
  have hlt : v.rank < all.length := (List.getElem?_eq_some_iff.1 (getElem?_rank v)).1
  rw [ofName, Decimal.read_toString hlt]
  exact getElem?_rank v

end Verbosity

end TimingWheel.Log
