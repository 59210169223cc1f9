import TimingWheel.Proofs.Agenda.Progress
import TimingWheel.Proofs.Scheduler.Timetable

/-!
# Every timer that is due fires

Whatever levels a scheduler has, whatever its period is and whenever levels were appended: while
the clock does not go back, a timer that is due fires within as many ticks as the slots of all
levels multiply to. Where the widths of the levels are not related to each other, nothing better
can be said of the due time, but no timer is forgotten.

## Main definitions

- `Scheduler.Action.AsksAbout` — an action that asks for a timer to be moved or dropped

## Main statements

- `Scheduler.due_timer_fires` — how soon a timer that is due fires
-/

namespace TimingWheel.Scheduler

variable {τ : Type}

/-- The action asks for the timer to be moved or dropped. -/
def Action.AsksAbout (id : TimerId) : Action τ → Prop
  | .call op => op.AsksAbout id
  | .wake => False
  | .wind _ => False

theorem asksAbout_of_movesOf {wall : Int} {s : Scheduler τ} {action : Action τ}
    {m : Agenda.Move τ} (hm : m ∈ s.movesOf wall action) {id : TimerId} (hasks : m.AsksAbout id) :
    action.AsksAbout id := by
  unfold movesOf at hm
  split at hm
  case h_2 =>
    split at hm
    · exact absurd hm List.not_mem_nil
    · rw [List.mem_singleton.1 hm] at hasks
      exact hasks
  case h_10 =>
    obtain ⟨beat, -, rfl⟩ := List.mem_map.1 hm
    exact hasks.elim
  all_goals
    rw [List.mem_singleton.1 hm] at hasks
    exact hasks

theorem asksAbout_of_movesAlong {s : Scheduler τ} {run : List (Int × Action τ)}
    {m : Agenda.Move τ} (hm : m ∈ s.movesAlong run) {id : TimerId} (hasks : m.AsksAbout id) :
    ∃ step ∈ run, step.2.AsksAbout id := by
  induction run generalizing s with
  | nil => exact absurd hm List.not_mem_nil
  | cons step rest ih =>
    obtain ⟨wall, action⟩ := step
    rcases List.mem_append.1 hm with hfirst | hlater
    · exact ⟨(wall, action), List.mem_cons_self, asksAbout_of_movesOf hfirst hasks⟩
    · obtain ⟨step, hstep, hid⟩ := ih hlater
      exact ⟨step, List.mem_cons_of_mem _ hstep, hid⟩

/-- Suppose a timer is held in a reachable scheduler and is due, and nothing was asked about it.
Take any run in which nothing is asked about it either and the clock does not go back. If the run
makes at least as many ticks as the slots of all levels multiply to, then one of these ticks fires
the timer. -/
theorem due_timer_fires {s r : Scheduler τ} {run : List (Int × Action τ)} {beats : List Beat}
    {wall : Int} {t : Timer τ} (hs : s.Reachable) (ht : t ∈ s.agenda.wheel.timers)
    (hreset : s.agenda.resetOf t.id = none) (hcancel : t.id ∉ s.agenda.cancels)
    (hdue : t.due ≤ s.now wall) (hnow : Time.Fits (s.now wall)) (hrun : s.follow run = (beats, r))
    (hunasked : ∀ step ∈ run, ¬step.2.AsksAbout t.id)
    (hclock : (s.now wall :: beats.map Beat.reading).Pairwise (· ≤ ·))
    (hticks : LevelSpec.turnTicks (Wheel.specsOf r.agenda.wheel.levels) ≤ beats.length) :
    ∃ beat ∈ beats.take (LevelSpec.turnTicks (Wheel.specsOf r.agenda.wheel.levels)),
      t.id ∈ beat.fired := by
  let g : History τ := { agenda := s.agenda }
  have hnears : g.agenda.Nears (Wheel.turnOf s.agenda.wheel.levels) (s.now wall) t.id :=
    Agenda.nears_of_pursues hs.balanced ⟨⟨t, ht, rfl, rfl⟩, hreset, hcancel⟩ hdue
  have hagenda : (g.after (s.movesAlong run)).agenda = r.agenda :=
    ((explained_follow s run).agenda g rfl).trans (by rw [hrun])
  have hreadings := readings_movesAlong s run
  have hrounds := rounds_movesAlong s run (h := g) rfl
  rw [hrun] at hreadings hrounds
  have hmoves : ∀ m ∈ s.movesAlong run, ¬m.AsksAbout t.id := by
    intro m hm hasks
    obtain ⟨step, hstep, hid⟩ := asksAbout_of_movesAlong hm hasks
    exact hunasked step hstep hid
  have hlater : ∀ c ∈ (s.movesAlong run).filterMap Agenda.Move.reading?,
      Time.least ≤ c ∧ s.now wall ≤ c := by
    intro c hc
    rw [hreadings] at hc
    have hle := (List.pairwise_cons.1 hclock).1 c hc
    exact ⟨Int.le_trans hnow.1 hle, hle⟩
  -- The bound at first is the turn at first, so that in the end it is the turn in the end.
  have hbound : Wheel.turnOf s.agenda.wheel.levels *
      Wheel.turnOf (g.after (s.movesAlong run)).agenda.wheel.levels ≤
        Wheel.turnOf r.agenda.wheel.levels * Wheel.turnOf g.agenda.wheel.levels := by
    rw [hagenda, Nat.mul_comm]
  have hcount : Wheel.turnOf r.agenda.wheel.levels ≤ Agenda.ticksIn (s.movesAlong run) := by
    rw [Agenda.ticksIn, hreadings, List.length_map]
    exact hticks
  obtain ⟨fired, hmem, hid⟩ := History.fires_within hnears hmoves hlater hbound hcount
  rw [hrounds, ← List.map_take] at hmem
  obtain ⟨beat, hbeat, rfl⟩ := List.mem_map.1 hmem
  exact ⟨beat, hbeat, hid⟩

/-- With a level of three slots that is appended under two slots of no fitting width, while a timer
that is due at once waits there. -/
theorem due_timer_fires_of_six : ∃ s r : Scheduler Unit, ∃ run beats, s.Reachable ∧
    s.follow run = (beats, r) ∧
      LevelSpec.turnTicks (Wheel.specsOf r.agenda.wheel.levels) = 6 ∧
        ∃ beat ∈ beats.take (LevelSpec.turnTicks (Wheel.specsOf r.agenda.wheel.levels)),
          ⟨1⟩ ∈ beat.fired := by
  have hnew := @Reachable.create Unit .offline
    { levels := [⟨2, 7, "coarse"⟩], start := some 50 } _ rfl
  have hone := hnew.act 0 (.call (.createAt 50 none))
  have hfires := @due_timer_fires Unit _ _ [(0, .call (.appendLevel ⟨3, 100, "fine"⟩)),
    (0, .call .start), (0, .call (.advanceTicks 6))] _ 0 ⟨⟨1⟩, 50, 0, none⟩ hone (by decide) rfl
    (by decide) (by decide) (by decide) rfl
    (by simp [Action.AsksAbout, Operation.AsksAbout]) (by decide) (by decide)
  refine ⟨_, _, [(0, .call (.appendLevel ⟨3, 100, "fine"⟩)), (0, .call .start),
    (0, .call (.advanceTicks 6))], _, hone, ?_, ?_, hfires⟩
  · rfl
  · rfl

end TimingWheel.Scheduler
