import TimingWheel.Proofs.Agenda.Steady

/-!
# Ticks at an even pace

Where callers make the ticks, these come one step after the other, and all else happens in
between. What is said about single moves then adds up: the reading after any moves follows from
the number of ticks among them, and a timer about which nothing is asked fires on these ticks as
its plan says.

## Main definitions

- `Agenda.Paced` — moves with ticks at an even pace
- `Agenda.ticksIn`, `Agenda.answered` — the ticks among moves, and how often each answers a timer

## Main statements

- `Agenda.paced_append` — a run at an even pace may be cut anywhere
- `History.answered_of_steady`, `History.answered_eq_firings` — the ticks answer a timer as its plan
  says
-/

namespace TimingWheel

variable {τ : Type}

namespace Agenda

/-! ### Pace -/

/-- What the clock shows after a move, if it showed `now` before it. -/
def Move.readingFrom (now : Int) (m : Move τ) : Int := m.reading?.getD now

/-- Each tick comes one `step` after the one before it, the first of them one `step` after `now`,
and all else happens while the clock shows the reading of the last tick. -/
def Paced (step : Int) : Int → List (Move τ) → Prop
  | _, [] => True
  | now, m :: later => (m.At now ∨ m = .tick (now + step)) ∧ Paced step (m.readingFrom now) later

/-- Number of ticks among the moves. -/
def ticksIn (moves : List (Move τ)) : Nat := (moves.filterMap Move.reading?).length

section

variable {step now : Int} {m : Move τ} {moves later : List (Move τ)}

theorem reading?_of_at (hm : m.At now) : m.reading? = none := by
  cases m with
  | tick now' => exact hm.elim
  | _ => rfl

theorem readingFrom_of_at (hm : m.At now) : m.readingFrom now = now := by
  rw [Move.readingFrom, reading?_of_at hm]
  rfl

theorem ticksIn_cons_of_at (hm : m.At now) : ticksIn (m :: later) = ticksIn later := by
  rw [ticksIn, List.filterMap_cons_none (reading?_of_at hm)]
  rfl

/-- The reading after a move and the ticks to come count as the ticks from the move on. -/
theorem readingFrom_add (hm : m.At now ∨ m = .tick (now + step)) :
    m.readingFrom now + ticksIn moves * step = now + ticksIn (m :: moves) * step := by
  rcases hm with hm | rfl
  · rw [readingFrom_of_at hm, ticksIn_cons_of_at hm]
  · show now + step + ticksIn moves * step = now + (ticksIn moves + 1 : Nat) * step
    push_cast
    ring

theorem readings_of_no_tick (h : ∀ m ∈ moves, ∀ now, m ≠ .tick now) :
    moves.filterMap Move.reading? = [] := by
  rw [List.filterMap_eq_nil_iff]
  intro m hm
  cases m with
  | tick now => exact absurd rfl (h _ hm now)
  | _ => rfl

theorem OnTime.least_le_add {grain : Nat} {a : Agenda τ} (h : a.OnTime grain now)
    (hnonneg : 0 ≤ step) : Time.least ≤ now + step :=
  Int.le_trans h.least_le (Int.le_add_of_nonneg_right hnonneg)

theorem paced_append :
    Paced step now (moves ++ later) ↔
      Paced step now moves ∧ Paced step (now + ticksIn moves * step) later := by
  induction moves generalizing now with
  | nil => simp [Paced, ticksIn]
  | cons m moves ih =>
    rw [List.cons_append, Paced, Paced, ih, and_assoc]
    refine and_congr_right fun hm => and_congr_right fun _ => ?_
    rw [readingFrom_add hm]

end

end Agenda

/-! ### Plans at an even pace -/

namespace History

/-- How often each tick among the moves answers the timer. -/
def answered (id : TimerId) : History τ → List (Agenda.Move τ) → List Nat
  | _, [] => []
  | h, .tick now :: later =>
    ((h.agenda.tick now).1.map (·.id)).count id :: answered id (h.move (.tick now)) later
  | h, m :: later => answered id (h.move m) later

variable {h : History τ} {id : TimerId}

theorem answered_cons_of_at {now : Int} {m : Agenda.Move τ} (hm : m.At now)
    (later : List (Agenda.Move τ)) : answered id h (m :: later) = answered id (h.move m) later := by
  cases m with
  | tick now' => exact hm.elim
  | _ => rfl

theorem rounds_of_no_tick {moves : List (Agenda.Move τ)}
    (hmoves : ∀ m ∈ moves, ∀ now, m ≠ .tick now) (h : History τ) : h.rounds moves = [] := by
  induction moves generalizing h with
  | nil => rfl
  | cons m moves ih =>
    obtain ⟨hm, hlater⟩ := List.forall_mem_cons.1 hmoves
    rw [rounds_cons_of_no_tick hm]
    exact ih hlater _

/-- Moves at a pace that is no slower than `grain` leave the wheel on time. -/
theorem onTime_of_paced {grain : Nat} {step now : Int} {moves : List (Agenda.Move τ)}
    (hontime : h.agenda.OnTime grain now) (hpaced : Agenda.Paced step now moves)
    (hnonneg : 0 ≤ step) (hstep : step ≤ grain)
    (hspecs : Wheel.specsOf (h.after moves).agenda.wheel.levels =
      Wheel.specsOf h.agenda.wheel.levels) :
    (h.after moves).agenda.OnTime grain (now + Agenda.ticksIn moves * step) := by
  induction moves generalizing h now with
  | nil => simpa [after, Agenda.ticksIn] using hontime
  | cons m moves ih =>
    obtain ⟨hfirst, hrest⟩ := specs_after_cons hspecs
    have hmoved : (h.move m).agenda.OnTime grain (m.readingFrom now) := by
      rcases hpaced.1 with hat | rfl
      · rw [Agenda.readingFrom_of_at hat]
        exact Agenda.onTime_move hontime hat hfirst
      · exact Agenda.onTime_tick hontime (hontime.least_le_add hnonneg)
          (Int.add_le_add_left hstep now)
    have hlater := ih (h := h.move m) hmoved hpaced.2 hrest
    rwa [Agenda.readingFrom_add hpaced.1] at hlater

/-- While nothing is asked about a timer that is on schedule, the ticks answer it as its plan
says. -/
theorem answered_of_steady {grain : Nat} {step now : Int} {plan : Option Plan}
    {moves : List (Agenda.Move τ)} (hsteady : h.agenda.Steady grain now id plan)
    (hpaced : Agenda.Paced step now moves) (hnonneg : 0 ≤ step) (hstep : step ≤ grain)
    (hunasked : ∀ m ∈ moves, ¬m.AsksAbout id)
    (hspecs : Wheel.specsOf (h.after moves).agenda.wheel.levels =
      Wheel.specsOf h.agenda.wheel.levels) :
    answered id h moves = Plan.firings plan (moves.filterMap Agenda.Move.reading?) := by
  induction moves generalizing h now plan with
  | nil => cases plan <;> rfl
  | cons m moves ih =>
    obtain ⟨hm, hunaskedLater⟩ := List.forall_mem_cons.1 hunasked
    obtain ⟨hfirst, hrest⟩ := specs_after_cons hspecs
    rcases hpaced.1 with hat | rfl
    · have hlater := hpaced.2
      rw [Agenda.readingFrom_of_at hat] at hlater
      rw [answered_cons_of_at hat, List.filterMap_cons_none (Agenda.reading?_of_at hat)]
      exact ih (h := h.move m) (Agenda.steady_move hsteady (Agenda.not_tick_of_at hat) hm hfirst)
        hlater hunaskedLater hrest
    · obtain ⟨plan', hnext, hfirings⟩ := Agenda.steady_tick hsteady
        (Int.le_trans hsteady.least_le (Int.le_add_of_nonneg_right hnonneg))
        (Int.add_le_add_left hstep now)
      rw [answered, List.filterMap_cons_some (f := Agenda.Move.reading?) rfl, hfirings]
      exact congrArg _ (ih (h := h.move (.tick (now + step))) hnext hpaced.2 hunaskedLater hrest)

/-- While the wheel is on time and nothing is asked about a timer, the ticks answer it as its plan
says. -/
theorem answered_eq_firings {grain : Nat} {step now : Int} {plan : Option Plan}
    {moves : List (Agenda.Move τ)} (hontime : h.agenda.OnTime grain now)
    (hplan : h.agenda.Pursues id plan) (hpaced : Agenda.Paced step now moves) (hnonneg : 0 ≤ step)
    (hstep : step ≤ grain) (hunasked : ∀ m ∈ moves, ¬m.AsksAbout id)
    (hspecs : Wheel.specsOf (h.after moves).agenda.wheel.levels =
      Wheel.specsOf h.agenda.wheel.levels) :
    answered id h moves = Plan.firings plan (moves.filterMap Agenda.Move.reading?) :=
  answered_of_steady (hontime.steady hplan) hpaced hnonneg hstep hunasked hspecs

/-- The answers to a timer are counted tick by tick. -/
theorem answered_eq_count_rounds (id : TimerId) (h : History τ) (moves : List (Agenda.Move τ)) :
    answered id h moves = (h.rounds moves).map (List.count id) := by
  induction moves generalizing h with
  | nil => rfl
  | cons m moves ih =>
    cases m with
    | tick now => exact congrArg _ (ih (h.move (.tick now)))
    | _ => exact ih _

end History

end TimingWheel
