import TimingWheel.Time.Range

/-!
# Timers

A timer is what the wheel stores: an identity, the time at which it is next due,
the interval at which it repeats, and what to do when it is due. The task is left
open (`τ`), because nothing here looks into it.

## Main definitions

- `TimerId`: the handle that a registration returns
- `Timer`: the record held by the wheel
- `Timer.renew`, `Timer.reset`: the two ways in which a due time changes
-/

namespace TimingWheel

/-- A handle on a registered timer. Handles count from one; zero stands for a
registration that was refused. -/
structure TimerId where
  value : Nat
deriving DecidableEq, Repr

namespace TimerId

def invalid : TimerId := ⟨0⟩

instance : Inhabited TimerId := ⟨invalid⟩

/-- The handle comes from a registration that was accepted. -/
def isValid (id : TimerId) : Bool := id != invalid

instance : ToString TimerId := ⟨fun id => toString id.value⟩

instance : LE TimerId := ⟨fun a b => a.value ≤ b.value⟩

instance (a b : TimerId) : Decidable (a ≤ b) :=
  inferInstanceAs (Decidable (a.value ≤ b.value))

def sorted (ids : List TimerId) : List TimerId := ids.mergeSort (fun a b => decide (a ≤ b))

theorem isValid_iff {id : TimerId} : id.isValid = true ↔ 0 < id.value := by
  cases id with
  | mk value => simp [isValid, invalid, Nat.pos_iff_ne_zero]

end TimerId

/-- One scheduled task. -/
structure Timer (τ : Type) where
  id : TimerId
  /-- The time at which the timer is next due. -/
  due : Int
  /-- The interval at which it repeats; zero if it fires once. -/
  interval : Nat
  /-- What to do when it is due. A timer without a task still fires. -/
  task : Option τ
deriving DecidableEq, Repr

namespace Timer

variable {τ : Type}

def once (id : TimerId) (due : Int) (task : Option τ) : Timer τ := ⟨id, due, 0, task⟩

/-- A timer that is first due at `first` and then every `interval` milliseconds. With
an interval that is not positive it fires once. -/
def every (id : TimerId) (first interval : Int) (task : Option τ) : Timer τ :=
  ⟨id, first, interval.toNat, task⟩

def repeats (t : Timer τ) : Bool := decide (0 < t.interval)

def isEmpty (t : Timer τ) : Bool := t.task.isNone

def reset (due : Int) (t : Timer τ) : Timer τ := { t with due }

/-- Moves the due time on by one interval. Counting from the last due time, and not
from the present, keeps the schedule free of drift. The last time of the range is
never left. -/
def renew (t : Timer τ) : Timer τ := { t with due := Time.plus t.due t.interval }

/-- How the task of a timer is shown in diagnostics. -/
def taskText (t : Timer τ) : String :=
  if t.isEmpty then "TimerTask(empty)" else "TimerTask(..)"

@[simp] theorem id_reset (due : Int) (t : Timer τ) : (t.reset due).id = t.id := rfl

@[simp] theorem id_renew (t : Timer τ) : t.renew.id = t.id := rfl

@[simp] theorem interval_renew (t : Timer τ) : t.renew.interval = t.interval := rfl

theorem due_renew (t : Timer τ) : t.renew.due = Time.plus t.due t.interval := rfl

end Timer

end TimingWheel
