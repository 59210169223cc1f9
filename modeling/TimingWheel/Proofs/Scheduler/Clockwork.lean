import TimingWheel.Proofs.Agenda.Pace
import TimingWheel.Proofs.Scheduler.Lifecycle

/-!
# The clock of a run

Where callers make the ticks, the clock shows how many there were: each of them moves it on by one
stride, and nothing else does. The stride is that of the levels which the scheduler has once it is
started, whatever levels it had before, since no tick is made until then. So the moves that a run
amounts to have their ticks at an even pace, whichever timers the wheel holds and wherever these
wait.

## Main definitions

- `Scheduler.Clocked` — the caller makes the ticks, and each moves the clock on by one stride

## Main statements

- `Scheduler.clocked_tickTimes`, `Scheduler.clocked_act`, `Scheduler.clocked_follow` — ticks,
  operations and runs leave it so, at which readings and at which pace
-/

namespace TimingWheel.Scheduler

variable {τ : Type} {s : Scheduler τ}

/-! ### The stride -/

theorem tickInterval_tickTimes (wall : Int) (n : Nat) (s : Scheduler τ) :
    (tickTimes wall n s).2.tickInterval = s.tickInterval := by
  induction n generalizing s with
  | zero => rfl
  | succ n ih =>
    rw [tickTimes]
    rcases tick_cases wall s with ⟨reason, htick⟩ | ⟨reading, pool, s', -, -, -, htick, rfl⟩
    · rw [htick]
    · rw [htick]
      exact ih _

/-- No action changes the interval that was asked for in the settings. -/
theorem tickInterval_act (wall : Int) (s : Scheduler τ) (action : Action τ) :
    (s.act wall action).2.tickInterval = s.tickInterval := by
  cases action with
  | call op =>
    by_cases hop : op.Ticks
    · cases op with
      | tick =>
        rw [act_tick]
        exact tickInterval_tickTimes wall 1 s
      | advanceTicks count =>
        rw [act_advanceTicks]
        exact tickInterval_tickTimes wall count s
      | _ => exact hop.elim
    · exact (between_of_not_ticks hop wall s).2.2.1
  | wake =>
    show (s.heartbeat wall).2.tickInterval = _
    rw [heartbeat]
    split <;> rfl
  | wind reading => rfl

theorem tickInterval_follow (s : Scheduler τ) (run : List (Int × Action τ)) :
    (s.follow run).2.tickInterval = s.tickInterval := by
  induction run generalizing s with
  | nil => rfl
  | cons step rest ih => exact (ih _).trans (tickInterval_act step.1 s step.2)

/-- Once the scheduler is started, its stride is fixed. -/
theorem stride_follow_of_running (hphase : s.phase = .running) (run : List (Int × Action τ)) :
    (s.follow run).2.stride = s.stride :=
  stride_congr (tickInterval_follow s run) (specs_follow_of_started (Or.inl hphase) run)

/-! ### The pace of moves -/

theorem ticksIn_movesOf (wall : Int) (s : Scheduler τ) (action : Action τ) :
    Agenda.ticksIn (s.movesOf wall action) = (s.act wall action).1.length := by
  rw [Agenda.ticksIn, readings_movesOf, List.length_map]

theorem paced_of_at {step now : Int} {moves : List (Agenda.Move τ)} (h : ∀ m ∈ moves, m.At now) :
    Agenda.Paced step now moves := by
  induction moves with
  | nil => trivial
  | cons m moves ih =>
    obtain ⟨hm, hmoves⟩ := List.forall_mem_cons.1 h
    refine ⟨Or.inl hm, ?_⟩
    rw [Agenda.readingFrom_of_at hm]
    exact ih hmoves

theorem paced_ticks (now step : Int) (n : Nat) :
    Agenda.Paced step now ((readings now step n).map fun now' => (.tick now' : Agenda.Move τ)) := by
  induction n generalizing now with
  | zero => trivial
  | succ n ih =>
    rw [Nat.add_comm, readings_add, readings_one]
    refine ⟨Or.inr rfl, ?_⟩
    have hrest := ih (now + step)
    rwa [Nat.cast_one, one_mul]

/-! ### The clock -/

/-- The caller makes the ticks, the clock shows `now`, and each tick moves it on by `step`. -/
structure Clocked (step now : Int) (s : Scheduler τ) : Prop where
  clock : s.clock = .manual now
  stride_eq : s.phase = .running → s.stride = step
  step_nonneg : 0 ≤ step
  least_le : Time.least ≤ now

variable {step now : Int}

theorem Punctual.clocked {grain : Nat} (h : s.Punctual grain step now) : s.Clocked step now :=
  ⟨h.clock, fun _ => h.stride_eq, h.step_nonneg, h.ontime.least_le⟩

theorem Clocked.now_eq (h : s.Clocked step now) (wall : Int) : s.now wall = now := by
  rw [Scheduler.now, h.clock]
  rfl

theorem Clocked.fits (h : s.Clocked step now) {m n : Nat} (hmn : m ≤ n)
    (hfits : Time.Fits (now + n * step)) : Time.Fits (now + m * step) :=
  fits_of_fewer h.least_le h.step_nonneg hmn hfits

theorem clocked_tickTimes (wall : Int) {n : Nat} (h : s.Clocked step now)
    (hfits : Time.Fits (now + (tickTimes wall n s).1.length * step)) :
    (tickTimes wall n s).2.Clocked step (now + (tickTimes wall n s).1.length * step) ∧
      (tickTimes wall n s).1.map Beat.reading =
        readings now step (tickTimes wall n s).1.length := by
  induction n generalizing s now with
  | zero => exact ⟨by simpa [tickTimes] using h, rfl⟩
  | succ n ih =>
    rcases tickTimes_succ_cases h.clock h.stride_eq h.least_le h.step_nonneg hfits with
      hrefused | ⟨s', hphase, hone, hclock, hinterval, hagenda, hrest, htimes⟩
    · rw [hrefused]
      exact ⟨by simpa using h, rfl⟩
    · have hspecs : Wheel.specsOf s'.agenda.wheel.levels = Wheel.specsOf s.agenda.wheel.levels := by
        rw [hagenda, Agenda.specsOf_tick]
      have hstride : s'.stride = step :=
        (stride_congr hinterval hspecs).trans (h.stride_eq hphase)
      obtain ⟨hlater, hreadings⟩ := ih ⟨hclock, fun _ => hstride, h.step_nonneg, hone.1⟩ hrest
      rw [htimes]
      dsimp only
      rw [reading_cons]
      refine ⟨hlater, ?_⟩
      rw [List.map_cons, hreadings, List.length_cons, Nat.add_comm _ 1, readings_add,
        readings_one, Nat.cast_one, one_mul]
      rfl

/-- An operation leaves the clock where its beats have brought it, and its ticks come at an even
pace. -/
theorem clocked_act (wall : Int) (op : Operation τ) (h : s.Clocked step now)
    (hstride : (s.act wall (.call op)).2.phase = .running →
      (s.act wall (.call op)).2.stride = step)
    (hfits : Time.Fits (now + (s.act wall (.call op)).1.length * step)) :
    (s.act wall (.call op)).2.Clocked step (now + (s.act wall (.call op)).1.length * step) ∧
      (s.act wall (.call op)).1.map Beat.reading =
        readings now step (s.act wall (.call op)).1.length ∧
      Agenda.Paced step now (s.movesOf wall (.call op)) := by
  by_cases hop : op.Ticks
  · have hmoves : s.movesOf wall (.call op) =
        ((s.act wall (.call op)).1.map Beat.reading).map .tick := by
      cases op with
      | tick => exact List.map_map.symm
      | advanceTicks count => exact List.map_map.symm
      | _ => exact hop.elim
    have hticks : (s.act wall (.call op)).2.Clocked step
          (now + (s.act wall (.call op)).1.length * step) ∧
        (s.act wall (.call op)).1.map Beat.reading =
          readings now step (s.act wall (.call op)).1.length := by
      cases op with
      | tick =>
        rw [act_tick] at hfits ⊢
        exact clocked_tickTimes wall h hfits
      | advanceTicks count =>
        rw [act_advanceTicks] at hfits ⊢
        exact clocked_tickTimes wall h hfits
      | _ => exact hop.elim
    refine ⟨hticks.1, hticks.2, ?_⟩
    rw [hmoves, hticks.2]
    exact paced_ticks now step _
  · obtain ⟨hbeats, hclock, -, hmoves⟩ := between_of_not_ticks hop wall s
    rw [h.now_eq] at hmoves
    simp only [act] at hstride ⊢
    rw [hbeats]
    refine ⟨⟨?_, hstride, h.step_nonneg, ?_⟩, rfl, paced_of_at fun m hm => (hmoves m hm).1⟩
    · simpa using hclock.trans h.clock
    · simpa using h.least_le

/-- A run in which callers perform operations leaves the clock where its beats have brought it, and
its ticks come at an even pace. -/
theorem clocked_follow (ops : List (Int × Operation τ)) (h : s.Clocked step now)
    (hstep : (s.follow (calls ops)).2.stride = step)
    (hfits : Time.Fits (now + (s.follow (calls ops)).1.length * step)) :
    (s.follow (calls ops)).2.Clocked step (now + (s.follow (calls ops)).1.length * step) ∧
      (s.follow (calls ops)).1.map Beat.reading =
        readings now step (s.follow (calls ops)).1.length ∧
      Agenda.Paced step now (s.movesAlong (calls ops)) := by
  induction ops generalizing s now with
  | nil => exact ⟨by simpa [follow, calls] using h, rfl, trivial⟩
  | cons p rest ih =>
    obtain ⟨wall, op⟩ := p
    let r := s.act wall (.call op)
    replace hfits : Time.Fits (now + (r.1 ++ (r.2.follow (calls rest)).1).length * step) := hfits
    have hfirst : Time.Fits (now + r.1.length * step) := by
      refine h.fits ?_ hfits
      rw [List.length_append]
      exact Nat.le_add_right _ _
    have hstride : r.2.phase = .running → r.2.stride = step := fun hphase =>
      (stride_follow_of_running hphase (calls rest)).symm.trans hstep
    obtain ⟨hnext, hreadings, hpaced⟩ := clocked_act wall op h hstride hfirst
    rw [reading_append] at hfits
    obtain ⟨hclocked, hlater, hpacedLater⟩ := ih hnext hstep hfits
    refine ⟨?_, ?_, Agenda.paced_append.2 ⟨hpaced, ?_⟩⟩
    · show (r.2.follow (calls rest)).2.Clocked step
        (now + (r.1 ++ (r.2.follow (calls rest)).1).length * step)
      rw [reading_append]
      exact hclocked
    · show (r.1 ++ (r.2.follow (calls rest)).1).map Beat.reading =
        readings now step (r.1 ++ (r.2.follow (calls rest)).1).length
      rw [List.map_append, hreadings, hlater, List.length_append, readings_add]
    · rw [ticksIn_movesOf]
      exact hpacedLater

end TimingWheel.Scheduler
