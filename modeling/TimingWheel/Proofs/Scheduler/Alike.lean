import TimingWheel.Proofs.Scheduler.Timetable

/-!
# Schedulers that go at the same pace

Which ticks are made, and at which readings, does not depend on the timers. It depends on the
clock, on the length of a stride, and on how far the scheduler is in its life. Schedulers that
agree in all this amount to the same moves, whatever is asked of both.

## Main definitions

- `Scheduler.Alike` — two schedulers with the same clock, the same pace and the same phase

## Main statements

- `Scheduler.tick_of_alike`, `Scheduler.tickTimes_of_alike` — ticks of schedulers alike
- `Scheduler.perform_of_alike`, `Scheduler.movesOf_of_alike` — operations on schedulers alike
-/

namespace TimingWheel.Scheduler

variable {τ : Type}

/-- The schedulers show the same time, make ticks at the same pace, and are as far along. -/
structure Alike (s s' : Scheduler τ) : Prop where
  clock : s'.clock = s.clock
  workers : s'.workers = s.workers
  pool : s'.pool.isNone = s.pool.isNone
  phase : s'.phase = s.phase
  stride : s'.stride = s.stride

section

variable {s s' : Scheduler τ}

theorem Alike.now (h : s.Alike s') (wall : Int) : s'.now wall = s.now wall := by
  rw [Scheduler.now, Scheduler.now, h.clock]

/-- What follows schedulers alike goes at the same pace, if no level is added. -/
theorem Alike.stride_next (h : s.Alike s') {r r' : Scheduler τ}
    (hinterval : r.tickInterval = s.tickInterval)
    (hspecs : Wheel.specsOf r.agenda.wheel.levels = Wheel.specsOf s.agenda.wheel.levels)
    (hinterval' : r'.tickInterval = s'.tickInterval)
    (hspecs' : Wheel.specsOf r'.agenda.wheel.levels = Wheel.specsOf s'.agenda.wheel.levels) :
    r'.stride = r.stride :=
  calc r'.stride = s'.stride := stride_congr hinterval' hspecs'
    _ = s.stride := h.stride
    _ = r.stride := (stride_congr hinterval hspecs).symm

theorem beat_of_alike (wall : Int) (h : s.Alike s') : (s.beat wall).2.Alike (s'.beat wall).2 where
  clock := h.clock
  workers := h.workers
  pool := by
    simp only [beat, Option.isNone_map]
    exact h.pool
  phase := (Agenda.phase_tick _ _).trans (h.phase.trans (Agenda.phase_tick _ _).symm)
  stride := h.stride_next rfl (Agenda.specsOf_tick _ _) rfl (Agenda.specsOf_tick _ _)

/-- Ticks of schedulers alike are both refused, for the same reason, or both made, at the same
reading. -/
theorem tick_of_alike (wall : Int) (h : s.Alike s') :
    (∃ reason, s.tick wall = (.error reason, s) ∧ s'.tick wall = (.error reason, s')) ∨
      ∃ clock, s.tick wall = (beat wall { s with clock }).map .ok id ∧
        s'.tick wall = (beat wall { s' with clock }).map .ok id := by
  have hmode : s'.mode = s.mode := congrArg Clock.mode h.clock
  have hready :
      (s'.pool.isNone || s'.phase ≠ .running) = (s.pool.isNone || s.phase ≠ .running) := by
    rw [h.pool, h.phase]
  -- The stride tells how far the clock moves.
  have hclock : s'.clock.advance (Time.wrap s'.period) = s.clock.advance (Time.wrap s.period) := by
    rw [h.clock]
    cases s.clock with
    | wall => simp only [Clock.advance]
    | manual reading =>
      exact congrArg (fun step => Clock.manual (Time.wrap (reading + step))) h.stride
  unfold tick
  rw [hmode, hready, hclock]
  by_cases hrealtime : s.mode = .realtime
  · exact Or.inl ⟨.notOffline, if_pos hrealtime, if_pos hrealtime⟩
  rw [if_neg hrealtime, if_neg hrealtime]
  by_cases hidle : (s.pool.isNone || s.phase ≠ .running) = true
  · exact Or.inl ⟨.notRunning, if_pos hidle, if_pos hidle⟩
  rw [if_neg hidle, if_neg hidle]
  exact Or.inr ⟨_, rfl, rfl⟩

theorem alike_of_clock (h : s.Alike s') (clock : Clock) :
    ({ s with clock } : Scheduler τ).Alike { s' with clock } :=
  ⟨rfl, h.workers, h.pool, h.phase, h.stride⟩

theorem tickTimes_of_alike (wall : Int) (n : Nat) (h : s.Alike s') :
    (tickTimes wall n s').1.map Beat.reading = (tickTimes wall n s).1.map Beat.reading ∧
      (tickTimes wall n s).2.Alike (tickTimes wall n s').2 ∧
      ∀ reason, (s'.advanceTicks wall n).1 = .error reason ↔
        (s.advanceTicks wall n).1 = .error reason := by
  induction n generalizing s s' with
  | zero => exact ⟨rfl, h, fun reason => by simp [advanceTicks]⟩
  | succ n ih =>
    rcases tick_of_alike wall h with ⟨reason, htick, htick'⟩ | ⟨clock, htick, htick'⟩
    · simp only [tickTimes, advanceTicks, htick, htick']
      exact ⟨trivial, h, fun _ => trivial⟩
    · have halike := beat_of_alike wall (alike_of_clock h clock)
      obtain ⟨hreadings, hafter, hrefused⟩ := ih halike
      simp only [tickTimes, advanceTicks, htick, htick', Prod.map, id, List.map_cons, halike.now]
      refine ⟨congrArg _ hreadings, hafter, fun reason => ?_⟩
      have hreason := hrefused reason
      rcases hlater : (beat wall { s with clock }).2.advanceTicks wall n with ⟨reply, r₁⟩
      rcases hlater' : (beat wall { s' with clock }).2.advanceTicks wall n with ⟨reply', r₁'⟩
      rw [hlater, hlater'] at hreason
      cases reply with
      | error reason₁ =>
        cases reply' with
        | error reason₁' => exact hreason
        | ok later' => simpa using hreason
      | ok later =>
        cases reply' with
        | error reason₁' => simpa using hreason
        | ok later' => simp

/-- Moves that add no level leave schedulers alike. -/
theorem alike_of_move (h : s.Alike s') {m : Agenda.Move τ}
    (hlevels : ∀ spec, m ≠ .append spec) :
    ({ s with agenda := s.agenda.move m } : Scheduler τ).Alike
      { s' with agenda := s'.agenda.move m } where
  clock := h.clock
  workers := h.workers
  pool := h.pool
  phase := Agenda.phase_move_congr h.phase hlevels
  stride := h.stride_next rfl (Agenda.specs_move hlevels) rfl (Agenda.specs_move hlevels)

/-- Operations that add no level leave schedulers alike. -/
theorem perform_of_alike (wall : Int) (op : Operation τ) (h : s.Alike s')
    (hlevels : ∀ spec, op ≠ .appendLevel spec) :
    (s.perform wall op).2.Alike (s'.perform wall op).2 := by
  cases op with
  | appendLevel spec => exact absurd rfl (hlevels spec)
  | start =>
    simp only [perform, start, Prod.map, h.phase, h.workers]
    cases s.phase with
    | configured =>
      cases Pool.create s.workers with
      | error reason => exact h
      | ok pool => exact ⟨h.clock, rfl, rfl, rfl, h.stride⟩
    | _ => exact h
  | stop =>
    simp only [perform, stop, h.phase]
    split
    · exact ⟨h.clock, h.workers, h.pool, rfl, h.stride⟩
    · exact h
  | createAt due task =>
    have hmoved := alike_of_move h (m := .register due 0 task (s.now wall)) (by simp)
    simp only [perform, createAt, register, h.now]
    exact hmoved
  | createAfter delay task =>
    have hmoved := alike_of_move h
      (m := .register (Time.plus (s.now wall) delay) 0 task (s.now wall)) (by simp)
    simp only [perform, createAfter, createAt, register, h.now]
    exact hmoved
  | createEvery interval task =>
    have hmoved := alike_of_move h
      (m := .register (Time.plus (s.now wall) interval) interval task (s.now wall)) (by simp)
    simp only [perform, createEvery, register, h.now]
    exact hmoved
  | resetAt id due => exact alike_of_move h (m := .reset id due) (by simp)
  | resetAfter id delay =>
    have hmoved := alike_of_move h (m := .reset id (Time.plus (s.now wall) delay)) (by simp)
    simp only [perform, resetAfter, resetAt, h.now]
    exact hmoved
  | cancel id => exact alike_of_move h (m := .cancel id) (by simp)
  | tick =>
    have hticks := (tickTimes_of_alike wall 1 h).2.1
    rw [← act_tick, ← act_tick] at hticks
    exact hticks
  | advanceTicks count =>
    have hticks := (tickTimes_of_alike wall count h).2.1
    rw [← act_advanceTicks, ← act_advanceTicks] at hticks
    exact hticks
  | _ => exact h

/-- Operations on schedulers alike amount to the same moves. -/
theorem movesOf_of_alike (wall : Int) (op : Operation τ) (h : s.Alike s') :
    s'.movesOf wall (.call op) = s.movesOf wall (.call op) := by
  have hticks : ∀ n,
      (tickTimes wall n s').1.map (fun beat => (.tick beat.reading : Agenda.Move τ)) =
        (tickTimes wall n s).1.map fun beat => .tick beat.reading := by
    intro n
    have hreadings := (tickTimes_of_alike wall n h).1
    have hmoves := congrArg (List.map (.tick : Int → Agenda.Move τ)) hreadings
    rwa [List.map_map, List.map_map] at hmoves
  cases op with
  | tick => exact hticks 1
  | advanceTicks count => exact hticks count
  | _ => simp only [movesOf, h.now, h.workers, act, beatsOf]

end

end TimingWheel.Scheduler
