import TimingWheel.Timer.Basic

/-!
# Trying out a single timer

A timer on its own, outside any wheel, together with how often its task has been
run. A task may be run at any time and any number of times; a timer without a task
has nothing to run.

## Main definitions

- `Timer.Trial`: a timer and the number of runs of its task
- `Timer.Trial.perform`: one operation on it
- `Timer.Trial.history`: the states that a list of operations passes through
-/

namespace TimingWheel.Timer

variable {τ : Type}

/-- A timer and how often its task has been run. -/
structure Trial (τ : Type) where
  timer : Timer τ
  runs : Nat := 0
deriving DecidableEq, Repr

namespace Trial

inductive Operation where
  | renew
  | reset (due : Int)
  | run
deriving DecidableEq, Repr

def perform (trial : Trial τ) : Operation → Trial τ
  | .renew => { trial with timer := trial.timer.renew }
  | .reset due => { trial with timer := trial.timer.reset due }
  | .run => if trial.timer.isEmpty then trial else { trial with runs := trial.runs + 1 }

/-- The state at the start and after each operation. -/
def history (trial : Trial τ) : List Operation → List (Trial τ)
  | [] => [trial]
  | op :: rest => trial :: history (trial.perform op) rest

end Trial

end TimingWheel.Timer
