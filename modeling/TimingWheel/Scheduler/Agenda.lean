import TimingWheel.Wheel.Operation

/-!
# The agenda of a scheduler

The agenda is what a scheduler keeps under its lock: the wheel, the timers that are
still pending, and the requests made about them. Cancelling and resetting are lazy.
A request is only noted, and it takes effect when the wheel next yields its timer,
so that no request ever has to look for a timer in the wheel.

## Main definitions

- `Phase` — the life of a scheduler
- `Agenda` — the wheel, the pending timers and the requests
- `Agenda.register`, `Agenda.requestReset`, `Agenda.requestCancel` — what callers ask for
- `Agenda.tick` — one tick, with the verdict on each timer that the wheel yields
- `Agenda.outlook` — the verdicts of a tick

## Design notes

The tables are lists, read through membership and `Agenda.resetOf`. A timer with both
requests is reset first; its cancellation stays noted for the next time.
-/

namespace TimingWheel

/-- The life of a scheduler. It only moves forward. -/
inductive Phase where
  /-- The wheel has no levels yet. -/
  | unconfigured
  /-- The wheel has levels and takes timers. -/
  | configured
  | running
  /-- No more ticks are made, for good. -/
  | stopped
deriving DecidableEq, Repr

namespace Phase

def rank : Phase → Nat
  | unconfigured => 0
  | configured => 1
  | running => 2
  | stopped => 3

def acceptsTimers : Phase → Bool
  | configured | running => true
  | unconfigured | stopped => false

end Phase

/-- What a scheduler knows about its timers. -/
structure Agenda (τ : Type) where
  wheel : Wheel τ := {}
  /-- The handle of the next registration. -/
  nextId : Nat := 1
  live : List TimerId := []
  /-- The timers to be dropped when the wheel yields them. -/
  cancels : List TimerId := []
  /-- The timers to be moved when the wheel yields them, with their new due times. -/
  resets : List (TimerId × Int) := []
  phase : Phase := .unconfigured
deriving DecidableEq, Repr

/-- What is done with a timer that the wheel yields. -/
inductive Verdict where
  /-- It goes back with another due time, and this occurrence is skipped. -/
  | move (due : Int)
  | drop
  /-- It is not due yet and goes back as it is. -/
  | keep
  | fire
deriving DecidableEq, Repr

namespace Agenda

variable {τ : Type}

def isPending (id : TimerId) (a : Agenda τ) : Bool := decide (id ∈ a.live)

def pending (a : Agenda τ) : Nat := a.live.length

/-- The due time that was last asked for the timer, if there is such a request. -/
def resetOf (id : TimerId) (a : Agenda τ) : Option Int := a.resets.lookup id

/-- Appends a level to the wheel as the new finest one. Once ticks have been made the
levels are fixed. -/
def append (spec : LevelSpec) (a : Agenda τ) : Except Fault (Agenda τ) :=
  match a.phase with
  | .running => .error .alreadyStarted
  | .stopped => .error .stopped
  | .unconfigured | .configured =>
    match a.wheel.append spec with
    | .ok wheel => .ok { a with wheel, phase := .configured }
    | .error reason => .error reason

/-- Registers the timer that `make` gives for the next handle, unless timers are not
accepted. -/
def register (make : TimerId → Timer τ) (now : Int) (a : Agenda τ) : TimerId × Agenda τ :=
  if a.phase.acceptsTimers then
    let id : TimerId := ⟨a.nextId⟩
    (id, { a with
      nextId := a.nextId + 1
      live := id :: a.live
      wheel := a.wheel.insert (make id) now })
  else
    (.invalid, a)

/-- Asks for another due time. Of several such requests the last one counts, and one
about a timer that is not pending is ignored. -/
def requestReset (id : TimerId) (due : Int) (a : Agenda τ) : Agenda τ :=
  if a.isPending id then
    { a with resets := (id, due) :: a.resets.filter (fun r => r.1 != id) }
  else a

/-- Asks for a timer to be dropped. A request about a timer that is not pending is
ignored. -/
def requestCancel (id : TimerId) (a : Agenda τ) : Agenda τ :=
  if a.isPending id && !a.cancels.contains id then { a with cancels := id :: a.cancels } else a

/-- The period of the ticks: the configured one, or else the width of a slot of the
finest level. -/
def tickInterval (configured : Option Nat) (a : Agenda τ) : Nat :=
  (configured <|> a.wheel.finest?.map (·.width)).getD 1

/-- What is done with a timer that the wheel yields at the time `now`. A slot may be
reached before a timer in it is due, because due times are rounded down to slots and
may lie further ahead than a whole turn. -/
def verdict (now : Int) (t : Timer τ) (a : Agenda τ) : Verdict :=
  match a.resetOf t.id with
  | some due => .move due
  | none =>
    if t.id ∈ a.cancels then .drop
    else if now < t.due then .keep
    else .fire

def putBack (now : Int) (t : Timer τ) (a : Agenda τ) : Agenda τ :=
  { a with wheel := a.wheel.insert t now }

def forget (id : TimerId) (a : Agenda τ) : Agenda τ :=
  { a with live := a.live.filter (· != id) }

def clearReset (id : TimerId) (a : Agenda τ) : Agenda τ :=
  { a with resets := a.resets.filter (fun r => r.1 != id) }

def clearCancel (id : TimerId) (a : Agenda τ) : Agenda τ :=
  { a with cancels := a.cancels.filter (· != id) }

/-- Carries a verdict out. A request is taken off the list as it takes effect, and a
timer that repeats goes back for its next occurrence. -/
def settle (now : Int) (t : Timer τ) (a : Agenda τ) : Verdict → Agenda τ
  | .move due => (a.clearReset t.id).putBack now (t.reset due)
  | .drop => (a.clearCancel t.id).forget t.id
  | .keep => a.putBack now t
  | .fire => if t.repeats then a.putBack now t.renew else a.forget t.id

/-- Goes through the timers that the wheel yielded, in order. Answers those that fire. -/
def settleAll (now : Int) : List (Timer τ) → Agenda τ → List (Timer τ) × Agenda τ
  | [], a => ([], a)
  | t :: rest, a =>
    let v := a.verdict now t
    let (fired, a) := settleAll now rest (a.settle now t v)
    (if v = .fire then t :: fired else fired, a)

/-- One tick at the time `now`. Answers the timers that fire, in slot order. -/
def tick (now : Int) (a : Agenda τ) : List (Timer τ) × Agenda τ :=
  let (yielded, wheel) := a.wheel.tick now
  settleAll now yielded { a with wheel }

/-- The verdicts on the timers that the wheel yielded. Each one is reached after those
before it have been carried out. -/
def verdictAll (now : Int) : List (Timer τ) → Agenda τ → List (TimerId × Verdict)
  | [], _ => []
  | t :: rest, a =>
    let v := a.verdict now t
    (t.id, v) :: verdictAll now rest (a.settle now t v)

def outlook (now : Int) (a : Agenda τ) : List (TimerId × Verdict) :=
  let (yielded, wheel) := a.wheel.tick now
  verdictAll now yielded { a with wheel }

/-! ### What each operation leaves alone -/

/-- Asking for another due time touches the table of such requests only. -/
theorem requestReset_frame (id : TimerId) (due : Int) (a : Agenda τ) :
    a.requestReset id due = { a with resets := (a.requestReset id due).resets } := by
  unfold requestReset
  split <;> rfl

/-- Asking for a timer to be dropped touches the table of such requests only. -/
theorem requestCancel_frame (id : TimerId) (a : Agenda τ) :
    a.requestCancel id = { a with cancels := (a.requestCancel id).cancels } := by
  unfold requestCancel
  split <;> rfl

@[simp] theorem phase_settle (now : Int) (t : Timer τ) (a : Agenda τ) (v : Verdict) :
    (a.settle now t v).phase = a.phase := by
  cases v <;> simp only [settle, putBack, forget, clearReset, clearCancel]
  split <;> rfl

@[simp] theorem nextId_settle (now : Int) (t : Timer τ) (a : Agenda τ) (v : Verdict) :
    (a.settle now t v).nextId = a.nextId := by
  cases v <;> simp only [settle, putBack, forget, clearReset, clearCancel]
  split <;> rfl

theorem phase_settleAll (now : Int) (ts : List (Timer τ)) (a : Agenda τ) :
    (settleAll now ts a).2.phase = a.phase := by
  induction ts generalizing a with
  | nil => rfl
  | cons t rest ih => exact (ih _).trans (phase_settle now t a _)

@[simp] theorem phase_tick (now : Int) (a : Agenda τ) : (a.tick now).2.phase = a.phase :=
  phase_settleAll now _ _

theorem nextId_settleAll (now : Int) (ts : List (Timer τ)) (a : Agenda τ) :
    (settleAll now ts a).2.nextId = a.nextId := by
  induction ts generalizing a with
  | nil => rfl
  | cons t rest ih => exact (ih _).trans (nextId_settle now t a _)

@[simp] theorem nextId_tick (now : Int) (a : Agenda τ) : (a.tick now).2.nextId = a.nextId :=
  nextId_settleAll now _ _

theorem ids_settleAll (now : Int) (ts : List (Timer τ)) (a : Agenda τ) :
    (settleAll now ts a).1.map (·.id) =
      ((verdictAll now ts a).filter fun p => p.2 = .fire).map (·.1) := by
  induction ts generalizing a with
  | nil => rfl
  | cons t rest ih =>
    by_cases hv : a.verdict now t = .fire
    · simp [settleAll, verdictAll, hv, ih]
    · simp [settleAll, verdictAll, hv, ih]

/-- The timers that a tick fires are those with the verdict to fire. -/
theorem ids_tick (now : Int) (a : Agenda τ) :
    (a.tick now).1.map (·.id) = ((a.outlook now).filter fun p => p.2 = .fire).map (·.1) :=
  ids_settleAll now _ _

/-- A timer fires only at or after its due time, and only without a request about it. -/
theorem verdict_eq_fire_iff (now : Int) (t : Timer τ) (a : Agenda τ) :
    a.verdict now t = .fire ↔ a.resetOf t.id = none ∧ t.id ∉ a.cancels ∧ t.due ≤ now := by
  unfold verdict
  cases h : a.resetOf t.id with
  | some due => simp
  | none =>
    by_cases hc : t.id ∈ a.cancels
    · simp [hc]
    · by_cases hd : now < t.due
      · simp [hc, hd]
      · simp [hc, hd, Int.not_lt.1 hd]

end Agenda

end TimingWheel
