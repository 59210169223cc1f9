/-!
# Pacing a loop by deadlines

A loop that is to run once per interval sleeps until a deadline that moves on by
exactly one interval each time. What an iteration takes therefore does not add up.
A loop that finds itself more than one interval behind gives up the deadlines that it
has missed and goes on from the present, so that it does not catch up in a burst.

Instants and intervals are in one unit, which is left open.

## Main definitions

- `Pacing.resume` — the deadline of a loop that comes to its sleep
- `Pacing.wake` — the earliest end of that sleep
- `Pacing.next` — the deadline of the next iteration
-/

namespace TimingWheel

/-- The pace of a loop and the deadline of its next iteration. -/
structure Pacing where
  interval : Nat
  deadline : Nat
deriving DecidableEq, Repr

namespace Pacing

/-- The pace of a loop that is started at the instant `now`. -/
def start (interval now : Nat) : Pacing := { interval, deadline := now + interval }

/-- The pace after the loop has come to its sleep at the instant `now`: a deadline missed
by more than an interval is replaced by the present. -/
def resume (now : Nat) (p : Pacing) : Pacing :=
  if p.deadline + p.interval < now then { p with deadline := now } else p

/-- The earliest instant at which a sleep ends that the loop comes to at the instant
`now`. -/
def wake (now : Nat) (p : Pacing) : Nat := max now p.deadline

def next (p : Pacing) : Pacing := { p with deadline := p.deadline + p.interval }

/-- Number of deadlines up to and including the instant `limit`, for a loop that takes no
time for its iterations. -/
def deadlinesUntil (limit : Nat) (p : Pacing) : Nat :=
  if p.deadline ≤ limit then (limit - p.deadline) / p.interval + 1 else 0

/-- A loop that is in time keeps its deadline. -/
theorem resume_of_le {now : Nat} {p : Pacing} (h : now ≤ p.deadline + p.interval) :
    p.resume now = p := if_neg (Nat.not_lt.2 h)

theorem deadline_le_wake (now : Nat) (p : Pacing) : p.deadline ≤ p.wake now :=
  Nat.le_max_right _ _

/-- No deadline is ever moved back. -/
theorem deadline_le_resume (now : Nat) (p : Pacing) : p.deadline ≤ (p.resume now).deadline := by
  unfold resume
  split
  · show p.deadline ≤ now
    omega
  · exact Nat.le_refl _

end Pacing

end TimingWheel
