import TimingWheel.Proofs.Agenda.Schedule

/-!
# One timer on schedule

The wheel may be on time for one timer and late for others. A timer whose own wait is over in time
fires as its plan says all the same, since no wait depends on the other timers: moves between
ticks leave it alone, a tick takes one off it, and where the timer is placed anew it is in time
again.

## Main definitions

- `Agenda.Steady` — a timer follows its plan and will come out of the wheel in time

## Main statements

- `Agenda.OnTime.steady` — a wheel that is on time is so for every timer
- `Agenda.steady_move`, `Agenda.steady_tick` — a timer stays on schedule
-/

namespace TimingWheel.Agenda

variable {τ : Type}

/-- The timer follows the plan, nothing is asked about it, and it will come out of the wheel in
time, if ticks are no more than `grain` milliseconds apart. -/
structure Steady (grain : Nat) (now : Int) (id : TimerId) (plan : Option Plan) (a : Agenda τ) :
    Prop where
  balanced : Balanced [] a
  geared : LevelSpec.Geared grain (Wheel.specsOf a.wheel.levels)
  grain_pos : 1 ≤ grain
  least_le : Time.least ≤ now
  pursues : a.Pursues id plan
  waits : Wheel.Waits (fun P n t => t.id = id → Wheel.InTime grain now 1 P n t) a.wheel.levels

variable {grain : Nat} {now now' : Int} {id : TimerId} {plan : Option Plan} {a : Agenda τ}

theorem OnTime.steady (h : a.OnTime grain now) (hplan : a.Pursues id plan) :
    a.Steady grain now id plan :=
  { h with
    pursues := hplan
    waits := (h.levels.waits h.balanced.settled).mono fun _ _ _ _ hn _ => hn }

theorem steady_move (h : a.Steady grain now id plan) {m : Move τ} (hm : ∀ now, m ≠ .tick now)
    (hunasked : ¬m.AsksAbout id)
    (hspecs : Wheel.specsOf (a.move m).wheel.levels = Wheel.specsOf a.wheel.levels) :
    (a.move m).Steady grain now id plan where
  balanced := balanced_move h.balanced m
  geared := hspecs ▸ h.geared
  grain_pos := h.grain_pos
  least_le := h.least_le
  pursues := pursues_move h.balanced h.pursues hm hunasked
  waits := waits_move_of_used h.balanced (Pursues.used h.balanced h.pursues)
    (fun _ hne _ _ heq => absurd heq hne) hm hspecs h.waits

/-- A tick answers the timer as its plan says and leaves it on schedule, if the clock has moved on
by no more than `grain`. -/
theorem steady_tick (h : a.Steady grain now id plan) (hleast : Time.least ≤ now')
    (hnow : now' ≤ now + grain) :
    ∃ plan', (a.tick now').2.Steady grain now' id plan' ∧ ∀ later,
      Plan.firings plan (now' :: later) =
        ((a.tick now').1.map (·.id)).count id :: Plan.firings plan' later := by
  have hb := h.balanced
  have hgrain := h.grain_pos
  have hyielded := (balanced_yielded hb now').settled
  have hgeared : LevelSpec.Geared grain (Wheel.specsOf (a.wheel.tick now').2.levels) := by
    rw [Wheel.specsOf_tick]
    exact h.geared
  have hturn : Wheel.Waits (fun P n t => t.id = id → Wheel.InTime grain now' 0 P n t)
      (a.wheel.tick now').2.levels := by
    rw [Wheel.tick_eq_turn]
    refine (Wheel.waits_turn (fun P n t hn hid => Wheel.inTime_of_succ hnow (hn hid)) hb.settled ?_
      h.waits).1
    intro l finer hsuffix hlast t _
    exact (Wheel.lands_inTime_map_step hb.settled h.geared hleast hsuffix hlast t).mono
      fun _ _ hn _ => hn
  -- What the tick does not yield has a tick to come, and so it is not due yet.
  have hmet : ∀ t ∈ a.unreached now', t.id = id → now' < t.due := by
    intro t ht hid
    obtain ⟨P, n, hn, htime⟩ := Wheel.one_le_of_waits hyielded hturn t ht
    have hlater := (htime hid).resolve_left (Nat.not_le.2 hn)
    have hpos : 0 < n * grain := Nat.mul_pos hn hgrain
    omega
  obtain ⟨plan', hplan', hfirings⟩ := pursues_tick_of_unreached hb h.pursues hmet
  refine ⟨plan', ⟨balanced_tick hb now', ?_, hgrain, hleast, hplan', ?_⟩, hfirings⟩
  · rw [specsOf_tick]
    exact h.geared
  · refine waits_tick hb (hturn.mono ?_) ?_
    · intro t _ P n hn hid
      exact (hn hid).imp_left fun hzero => Nat.le_succ_of_le hzero
    · intro t _ u _
      exact (Wheel.lands_inTime_of_settled hyielded hgeared hleast u).mono fun _ _ hn _ => hn

end TimingWheel.Agenda
