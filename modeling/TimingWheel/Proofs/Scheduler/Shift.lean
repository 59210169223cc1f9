import TimingWheel.Proofs.Agenda.Shift
import TimingWheel.Proofs.Scheduler.Refusals

/-!
# Shifting time changes nothing

Take a scheduler and a run of it, and make everything later by the same time: the start of the
clock, the due times that callers give and ask for, and what the wall clock shows. Delays and
intervals stay as they are. Then nothing else changes. Both runs answer the same handles and fire
the same timers in the same order on each tick, and after each action the cursors are the same and
each slot holds the same timers, only with later due times. For that all times have to stay well
within the range in both runs.

## Main definitions

- `Scheduler.shift`, `Scheduler.shiftRun` — a scheduler and a run with all times made later
- `Scheduler.Moderately` — the times of a run stay well within the range

## Main statements

- `Scheduler.wound_shift`, `Scheduler.tickTimes_shift` — the clock and the ticks
- `Scheduler.perform_shift`, `Scheduler.act_shift` — one operation and one action
- `Scheduler.shifted_alike` — whole runs
-/

namespace TimingWheel

variable {τ : Type}

/-! ### Everything later -/

/-- The clock with its reading made later. -/
def Clock.shift (offset : Int) : Clock → Clock
  | .wall => .wall
  | .manual reading => .manual (reading + offset)

/-- The settings with the first reading of the clock made later. -/
def Settings.shift (offset : Int) (settings : Settings) : Settings :=
  { settings with start := some (settings.start.getD 0 + offset) }

/-- The same tick at a later reading of the clock. -/
def Beat.shift (offset : Int) (beat : Beat) : Beat :=
  { beat with reading := beat.reading + offset }

namespace Scheduler

/-- The scheduler with all times made later. The tasks that its pool has know no times. -/
def shift (offset : Int) (s : Scheduler τ) : Scheduler τ :=
  { s with clock := s.clock.shift offset, agenda := s.agenda.shift offset }

/-- The operation with the due time that it gives made later. -/
def Operation.shift (offset : Int) : Operation τ → Operation τ
  | .createAt due task => .createAt (due + offset) task
  | .resetAt id due => .resetAt id (due + offset)
  | op => op

/-- The action with the time that it gives made later. -/
def Action.shift (offset : Int) : Action τ → Action τ
  | .call op => .call (op.shift offset)
  | .wake => .wake
  | .wind reading => .wind (reading + offset)

/-- The run with all times made later. -/
def shiftRun (offset : Int) (run : List (Int × Action τ)) : List (Int × Action τ) :=
  run.map fun step => (step.1 + offset, step.2.shift offset)

/-- The reply with the reading of the clock made later. -/
def Reply.shift (offset : Int) : Reply → Reply
  | .time reading => .time (reading + offset)
  | reply => reply

/-! ### Moderate runs -/

/-- The due time, the delay or the interval that the operation gives is well within the range. -/
def Operation.Moderate : Operation τ → Prop
  | .createAt due _ => Time.Moderate due
  | .createAfter delay _ => Time.Moderate delay
  | .createEvery interval _ => Time.Moderate interval
  | .resetAt _ due => Time.Moderate due
  | .resetAfter _ delay => Time.Moderate delay
  | _ => True

/-- The time that the action gives is well within the range. -/
def Action.Moderate : Action τ → Prop
  | .call op => op.Moderate
  | .wake => True
  | .wind reading => Time.Moderate reading

/-- The clock shows times well within the range, before the action and on each of its ticks, and so
is the time that the action gives. -/
structure ActsModerately (wall : Int) (s : Scheduler τ) (action : Action τ) : Prop where
  now : Time.Moderate (s.now wall)
  given : action.Moderate
  beats : ∀ beat ∈ (s.act wall action).1, Time.Moderate beat.reading

/-- All times that a run meets are well within the range. -/
def Moderately (s : Scheduler τ) : List (Int × Action τ) → Prop
  | [] => True
  | (wall, action) :: rest =>
    s.ActsModerately wall action ∧ (s.act wall action).2.Moderately rest

instance (op : Operation τ) : Decidable op.Moderate :=
  match op with
  | .createAt due _ | .resetAt _ due => inferInstanceAs (Decidable (Time.Moderate due))
  | .createAfter delay _ | .resetAfter _ delay => inferInstanceAs (Decidable (Time.Moderate delay))
  | .createEvery interval _ => inferInstanceAs (Decidable (Time.Moderate interval))
  | .appendLevel _ | .start | .stop | .waitIdle | .cancel _ | .tick | .advanceTicks _ | .mode
  | .phase | .now | .pending | .isPending _ | .levels => inferInstanceAs (Decidable True)

instance (action : Action τ) : Decidable action.Moderate :=
  match action with
  | .call op => inferInstanceAs (Decidable op.Moderate)
  | .wake => inferInstanceAs (Decidable True)
  | .wind reading => inferInstanceAs (Decidable (Time.Moderate reading))

theorem actsModerately_iff (wall : Int) (s : Scheduler τ) (action : Action τ) :
    Time.Moderate (s.now wall) ∧ action.Moderate ∧
        (∀ beat ∈ (s.act wall action).1, Time.Moderate beat.reading) ↔
      s.ActsModerately wall action :=
  ⟨fun ⟨hnow, hgiven, hbeats⟩ => ⟨hnow, hgiven, hbeats⟩, fun h => ⟨h.now, h.given, h.beats⟩⟩

instance (wall : Int) (s : Scheduler τ) (action : Action τ) :
    Decidable (s.ActsModerately wall action) :=
  decidable_of_iff _ (actsModerately_iff wall s action)

instance decidableModerately (s : Scheduler τ) :
    (run : List (Int × Action τ)) → Decidable (s.Moderately run)
  | [] => inferInstanceAs (Decidable True)
  | (wall, action) :: rest =>
    have := decidableModerately (s.act wall action).2 rest
    inferInstanceAs (Decidable (_ ∧ _))

section

variable {offset wall : Int} {s : Scheduler τ}

/-! ### The clock -/

theorem now_shift (offset wall : Int) (s : Scheduler τ) :
    (s.shift offset).now (wall + offset) = s.now wall + offset := by
  show (s.clock.shift offset).now (wall + offset) = s.clock.now wall + offset
  cases s.clock <;> rfl

/-- If the clock shows a moderate time in the later run, that time is the earlier one shifted. -/
theorem ActsModerately.now_add {action : Action τ}
    (h : (s.shift offset).ActsModerately (wall + offset) action) :
    Time.Moderate (s.now wall + offset) := by
  rw [← now_shift]
  exact h.now

theorem mode_shift (offset : Int) (s : Scheduler τ) : (s.shift offset).mode = s.mode := by
  show (s.clock.shift offset).mode = s.clock.mode
  cases s.clock <;> rfl

theorem period_shift (offset : Int) (s : Scheduler τ) : (s.shift offset).period = s.period := by
  have hfinest : (s.agenda.wheel.shift offset).finest?.map (·.width) =
      s.agenda.wheel.finest?.map (·.width) := by
    rw [Wheel.finest?, Wheel.shift, List.getLast?_map, Option.map_map]
    rfl
  show (s.tickInterval <|> (s.agenda.wheel.shift offset).finest?.map (·.width)).getD 1 = _
  rw [hfinest]
  rfl

/-- The scheduler with its clock moved on by one period. -/
def wound (s : Scheduler τ) : Scheduler τ :=
  { s with clock := s.clock.advance (Time.wrap s.period) }

/-- A sum that is carried round to the other end of the range is far away from zero. -/
theorem wrap_of_moderate {reading step : Int} (hreading : Time.Moderate reading)
    (hstep : 0 ≤ step ∧ step ≤ Time.greatest) (hwrap : Time.Moderate (Time.wrap (reading + step))) :
    Time.wrap (reading + step) = reading + step := by
  unfold Time.Moderate at hreading hwrap
  unfold Time.greatest at hstep
  refine Time.wrap_of_fits ?_
  unfold Time.Fits Time.least Time.greatest
  rw [Time.wrap, Int.bmod_def] at hwrap
  split at hwrap <;> omega

theorem wound_shift (hnow : Time.Moderate (s.now wall))
    (hshift : Time.Moderate (s.now wall + offset)) (hafter : Time.Moderate (s.wound.now wall))
    (hafterShift : Time.Moderate ((s.shift offset).wound.now (wall + offset))) :
    (s.shift offset).wound = s.wound.shift offset := by
  have hstep : 0 ≤ max (Time.wrap s.period) 0 ∧ max (Time.wrap s.period) 0 ≤ Time.greatest := by
    have hfits := (Time.fits_wrap s.period).2
    refine ⟨Int.le_max_right _ _, Int.max_le.2 ⟨hfits, by decide⟩⟩
  have hperiod := period_shift offset s
  cases hclock : s.clock with
  | wall =>
    rw [wound, wound, hperiod, shift, shift, hclock]
    rfl
  | manual reading =>
    have hwound : s.wound.now wall = Time.wrap (reading + max (Time.wrap s.period) 0) := by
      rw [now, wound, hclock]
      rfl
    have hwoundShift : (s.shift offset).wound.now (wall + offset) =
        Time.wrap (reading + offset + max (Time.wrap s.period) 0) := by
      rw [now, wound, hperiod, shift, hclock]
      rfl
    have hreading : s.now wall = reading := by
      rw [now, hclock]
      rfl
    rw [hreading] at hnow hshift
    rw [hwound] at hafter
    rw [hwoundShift] at hafterShift
    have hfirst := wrap_of_moderate hnow hstep hafter
    have hsecond := wrap_of_moderate hshift hstep hafterShift
    rw [wound, wound, hperiod, shift, shift, hclock]
    show ({ s with
      clock := .manual (Time.wrap (reading + offset + max (Time.wrap s.period) 0))
      agenda := s.agenda.shift offset } : Scheduler τ) = { s with
      clock := .manual (Time.wrap (reading + max (Time.wrap s.period) 0) + offset)
      agenda := s.agenda.shift offset }
    rw [hfirst, hsecond, Int.add_right_comm]

/-! ### Ticks -/

theorem beat_shift (h : s.agenda.Tempered offset) (hnow : Time.Moderate (s.now wall))
    (hshift : Time.Moderate (s.now wall + offset)) :
    (s.shift offset).beat (wall + offset) = ((s.beat wall).1, (s.beat wall).2.shift offset) ∧
      (s.beat wall).2.agenda.Tempered offset := by
  obtain ⟨hticked, hkept⟩ := Agenda.tick_shift h hnow hshift
  refine ⟨?_, hkept⟩
  have hnowShift : (s.shift offset).agenda.tick ((s.shift offset).now (wall + offset)) =
      ((s.agenda.tick (s.now wall)).1.map (Timer.shift offset),
        (s.agenda.tick (s.now wall)).2.shift offset) := by
    rw [now_shift]
    exact hticked
  have hids (ts : List (Timer τ)) :
      (ts.map (Timer.shift offset)).map (·.id) = ts.map (·.id) := by
    rw [List.map_map]
    rfl
  have htasks (ts : List (Timer τ)) :
      (ts.map (Timer.shift offset)).filterMap Timer.dispatch? = ts.filterMap Timer.dispatch? := by
    rw [List.filterMap_map]
    rfl
  rw [beat, hnowShift]
  simp only [hids, htasks]
  rfl

/-- The same ticks are refused, and those that are made start from a clock that was moved on. -/
theorem tick_cases_shift (offset : Int) (s : Scheduler τ) :
    (∃ reason, (∀ wall, s.tick wall = (.error reason, s)) ∧
      ∀ wall, (s.shift offset).tick wall = (.error reason, s.shift offset)) ∨
    (∀ wall, s.tick wall = (.ok (s.wound.beat wall).1, (s.wound.beat wall).2)) ∧
      ∀ wall, (s.shift offset).tick wall =
        (.ok ((s.shift offset).wound.beat wall).1, ((s.shift offset).wound.beat wall).2) := by
  have hmode := mode_shift offset s
  by_cases hrealtime : s.mode = .realtime
  · exact Or.inl ⟨.notOffline, fun wall => if_pos hrealtime,
      fun wall => if_pos (hmode.trans hrealtime)⟩
  · have hrealtimeShift : ¬(s.shift offset).mode = .realtime := hmode ▸ hrealtime
    by_cases hidle : s.pool.isNone || s.phase ≠ .running
    · exact Or.inl ⟨.notRunning, fun wall => (if_neg hrealtime).trans (if_pos hidle),
        fun wall => (if_neg hrealtimeShift).trans (if_pos hidle)⟩
    · exact Or.inr ⟨fun wall => (if_neg hrealtime).trans (if_neg hidle),
        fun wall => (if_neg hrealtimeShift).trans (if_neg hidle)⟩

theorem advanceTicks_succ_fst {s' : Scheduler τ} {fired : List TimerId}
    (htick : s.tick wall = (.ok fired, s')) (n : Nat) :
    (s.advanceTicks wall (n + 1)).1 = (s'.advanceTicks wall n).1.map (fired ++ ·) := by
  cases hlater : s'.advanceTicks wall n with
  | mk reply s'' =>
    simp only [advanceTicks, htick, hlater]
    cases reply <;> rfl

/-- Ticks one after the other: the beats, the reply and the scheduler. -/
theorem tickTimes_shift (h : s.agenda.Tempered offset) (hnow : Time.Moderate (s.now wall))
    (hshift : Time.Moderate (s.now wall + offset)) (n : Nat)
    (hbeats : ∀ beat ∈ (tickTimes wall n s).1, Time.Moderate beat.reading)
    (hbeatsShift : ∀ beat ∈ (tickTimes (wall + offset) n (s.shift offset)).1,
      Time.Moderate beat.reading) :
    tickTimes (wall + offset) n (s.shift offset) =
        ((tickTimes wall n s).1.map (Beat.shift offset), (tickTimes wall n s).2.shift offset) ∧
      ((s.shift offset).advanceTicks (wall + offset) n).1 = (s.advanceTicks wall n).1 ∧
      (tickTimes wall n s).2.agenda.Tempered offset := by
  induction n generalizing s with
  | zero => exact ⟨rfl, rfl, h⟩
  | succ n ih =>
    obtain ⟨reason, htick, htickShift⟩ | ⟨htick, htickShift⟩ := tick_cases_shift offset s
    · simp only [tickTimes, advanceTicks, htick, htickShift]
      exact ⟨rfl, trivial, h⟩
    · simp only [tickTimes, htick, htickShift, List.mem_cons, forall_eq_or_imp]
        at hbeats hbeatsShift
      -- The first beat shows the clock as it was moved on, in both runs.
      obtain ⟨hfirst, hlater⟩ := hbeats
      obtain ⟨hfirstShift, hlaterShift⟩ := hbeatsShift
      have hwound := wound_shift hnow hshift hfirst hfirstShift
      have hshown : Time.Moderate (s.wound.now wall + offset) := by
        rw [← now_shift, ← hwound]
        exact hfirstShift
      obtain ⟨hbeat, hkept⟩ := beat_shift (s := s.wound) h hfirst hshown
      rw [hwound, hbeat] at hlaterShift
      obtain ⟨hrest, hreply, hend⟩ := ih hkept hfirst hshown hlater hlaterShift
      refine ⟨?_, ?_, ?_⟩
      · simp only [tickTimes, htick, htickShift, hwound, hbeat, hrest, now_shift]
        rfl
      · rw [advanceTicks_succ_fst (htickShift _), advanceTicks_succ_fst (htick wall), hwound, hbeat,
          hreply]
      · simp only [tickTimes, htick]
        exact hend

theorem advanceTicks_one (wall : Int) (s : Scheduler τ) : s.advanceTicks wall 1 = s.tick wall := by
  cases htick : s.tick wall with
  | mk reply s' =>
    cases reply with
    | error reason => simp only [advanceTicks, htick]
    | ok fired => simp only [advanceTicks, htick, List.append_nil]

/-! ### Operations -/

/-- What comes of an operation is the same but for the shift, and no time in it leaves the range. -/
structure Shifts (offset : Int) (r r' : Reply × Scheduler τ) : Prop where
  reply : r'.1 = r.1.shift offset
  scheduler : r'.2 = r.2.shift offset
  tempered : r.2.agenda.Tempered offset

theorem shifts_register (h : s.agenda.Tempered offset) (hnow : Time.Moderate (s.now wall))
    {make make' : TimerId → Timer τ} (hmake : ∀ id, make' id = (make id).shift offset)
    (ht : ∀ id, (make id).Tempered offset) :
    Shifts offset ((s.register wall make).map Reply.registered id)
      (((s.shift offset).register (wall + offset) make').map Reply.registered id) := by
  have hregister : (s.shift offset).agenda.register make' ((s.shift offset).now (wall + offset)) =
      ((s.agenda.register make (s.now wall)).1,
        (s.agenda.register make (s.now wall)).2.shift offset) := by
    rw [now_shift]
    exact Agenda.register_shift h hmake ht hnow
  refine ⟨?_, ?_, Agenda.tempered_register h ht (s.now wall)⟩
  · rw [register, hregister]
    rfl
  · rw [register, hregister]
    rfl

theorem shifts_resetAt (h : s.agenda.Tempered offset) {due : Int} (hdue : Time.Roomy due)
    (hshift : Time.Roomy (due + offset)) (id : TimerId) :
    Shifts offset (.none, s.resetAt id due)
      (.none, (s.shift offset).resetAt id (due + offset)) where
  reply := rfl
  scheduler := by
    have hreset := Agenda.requestReset_shift offset id due s.agenda
    show ({ s.shift offset with agenda := (s.agenda.shift offset).requestReset id (due + offset) } :
      Scheduler τ) = _
    rw [hreset]
    rfl
  tempered := Agenda.tempered_requestReset h hdue hshift id

theorem shifts_cancel (h : s.agenda.Tempered offset) (id : TimerId) :
    Shifts offset (.none, s.cancel id) (.none, (s.shift offset).cancel id) where
  reply := rfl
  scheduler := by
    have hcancel := Agenda.requestCancel_shift offset id s.agenda
    show ({ s.shift offset with agenda := (s.agenda.shift offset).requestCancel id } :
      Scheduler τ) = _
    rw [hcancel]
    rfl
  tempered := Agenda.tempered_requestCancel h id

theorem appendLevel_shift (offset : Int) (spec : LevelSpec) (s : Scheduler τ) :
    (s.shift offset).appendLevel spec =
      ((s.appendLevel spec).1, (s.appendLevel spec).2.shift offset) := by
  have happend : (s.shift offset).agenda.append spec =
      (s.agenda.append spec).map (Agenda.shift offset) := Agenda.append_shift offset spec s.agenda
  rw [appendLevel, appendLevel, happend]
  cases s.agenda.append spec <;> rfl

theorem tempered_appendLevel (h : s.agenda.Tempered offset) (spec : LevelSpec)
    (htotal : Time.Moderate (LevelSpec.totalSpan
      (Wheel.specsOf (s.appendLevel spec).2.agenda.wheel.levels))) :
    (s.appendLevel spec).2.agenda.Tempered offset := by
  rw [appendLevel] at htotal ⊢
  cases happend : s.agenda.append spec with
  | error reason => exact h
  | ok agenda =>
    rw [happend] at htotal
    exact Agenda.tempered_append h happend htotal

theorem start_shift (offset : Int) (s : Scheduler τ) :
    (s.shift offset).start = (s.start.1, s.start.2.shift offset) := by
  have hphase : (s.shift offset).phase = s.phase := rfl
  have hworkers : (s.shift offset).workers = s.workers := rfl
  rw [start, start, hphase, hworkers]
  cases s.phase with
  | configured => cases Pool.create (β := Dispatch τ) s.workers <;> rfl
  | _ => rfl

theorem tempered_start (h : s.agenda.Tempered offset) : s.start.2.agenda.Tempered offset := by
  rw [start]
  cases s.phase with
  | configured =>
    cases Pool.create (β := Dispatch τ) s.workers with
    | error reason => exact h
    | ok pool => exact ⟨h.levels, h.resets⟩
  | _ => exact h

theorem stop_shift (offset : Int) (s : Scheduler τ) :
    (s.shift offset).stop = s.stop.shift offset := by
  have hphase : (s.shift offset).phase = s.phase := rfl
  rw [stop, stop, hphase]
  split <;> rfl

theorem tempered_stop (h : s.agenda.Tempered offset) : s.stop.agenda.Tempered offset := by
  rw [stop]
  split
  · exact ⟨h.levels, h.resets⟩
  · exact h

theorem Reply.ofFired_shift (offset : Int) (r : Except Fault (List TimerId)) :
    (Reply.ofFired r).shift offset = Reply.ofFired r := by
  cases r <;> rfl

theorem shifts_advanceTicks (h : s.agenda.Tempered offset) (hnow : Time.Moderate (s.now wall))
    (hshift : Time.Moderate (s.now wall + offset)) (n : Nat)
    (hbeats : ∀ beat ∈ (tickTimes wall n s).1, Time.Moderate beat.reading)
    (hbeatsShift : ∀ beat ∈ (tickTimes (wall + offset) n (s.shift offset)).1,
      Time.Moderate beat.reading) :
    Shifts offset ((s.advanceTicks wall n).map Reply.ofFired id)
      (((s.shift offset).advanceTicks (wall + offset) n).map Reply.ofFired id) := by
  obtain ⟨hticks, hreply, hkept⟩ := tickTimes_shift h hnow hshift n hbeats hbeatsShift
  refine ⟨?_, ?_, ?_⟩
  · show Reply.ofFired ((s.shift offset).advanceTicks (wall + offset) n).1 = _
    rw [hreply]
    exact (Reply.ofFired_shift offset _).symm
  · show ((s.shift offset).advanceTicks (wall + offset) n).2 =
      (s.advanceTicks wall n).2.shift offset
    rw [(advanceTicks_eq_tickTimes _ _ _).1, (advanceTicks_eq_tickTimes _ _ _).1, hticks]
  · show (s.advanceTicks wall n).2.agenda.Tempered offset
    rw [(advanceTicks_eq_tickTimes _ _ _).1]
    exact hkept

theorem Reply.ofUnit_shift (offset : Int) (r : Except Fault Unit) :
    (Reply.ofUnit r).shift offset = Reply.ofUnit r := by
  cases r <;> rfl

/-- A delay counts from the reading of the clock, and so what it gives is later by the shift. -/
theorem plus_shift {now delay : Int} (hnow : Time.Moderate now)
    (hshift : Time.Moderate (now + offset)) (hdelay : Time.Moderate delay) :
    Time.Roomy (Time.plus now delay) ∧ Time.Roomy (Time.plus now delay + offset) ∧
      Time.plus (now + offset) delay = Time.plus now delay + offset := by
  have hsum := hnow.add hdelay
  have hsumShift := hshift.add hdelay
  have hplus : Time.plus now delay = now + delay := Time.plus_of_fits hsum.fits
  have hplusShift : Time.plus (now + offset) delay = now + offset + delay :=
    Time.plus_of_fits hsumShift.fits
  rw [hplus, hplusShift, Int.add_right_comm now delay offset]
  exact ⟨hsum, hsumShift, rfl⟩

theorem moderate_toNat {interval : Int} (h : Time.Moderate interval) :
    Time.Moderate (interval.toNat : Int) := by
  unfold Time.Moderate at h ⊢
  omega

/-- Each operation does the same, only later. -/
theorem perform_shift (h : s.agenda.Tempered offset) {op : Operation τ}
    (hacts : s.ActsModerately wall (.call op))
    (hactsShift : (s.shift offset).ActsModerately (wall + offset) (.call (op.shift offset)))
    (htotal : Time.Moderate (LevelSpec.totalSpan
      (Wheel.specsOf (s.perform wall op).2.agenda.wheel.levels))) :
    Shifts offset (s.perform wall op)
      ((s.shift offset).perform (wall + offset) (op.shift offset)) := by
  have hnow := hacts.now
  have hshift := hactsShift.now_add
  have hgiven := hacts.given
  have hgivenShift := hactsShift.given
  have hzero : Time.Moderate ((0 : Nat) : Int) := by decide
  cases op with
  | appendLevel spec =>
    refine ⟨?_, ?_, tempered_appendLevel h spec htotal⟩
    · show Reply.ofUnit ((s.shift offset).appendLevel spec).1 = _
      rw [appendLevel_shift]
      exact (Reply.ofUnit_shift offset _).symm
    · exact congrArg Prod.snd (appendLevel_shift offset spec s)
  | start =>
    refine ⟨?_, ?_, tempered_start h⟩
    · show Reply.ofUnit (s.shift offset).start.1 = _
      rw [start_shift]
      exact (Reply.ofUnit_shift offset _).symm
    · exact congrArg Prod.snd (start_shift offset s)
  | stop => exact ⟨rfl, stop_shift offset s, tempered_stop h⟩
  | createAt due task =>
    have htimer : ∀ id, (Timer.once id due task).Tempered offset := fun id =>
      ⟨Time.Moderate.roomy hgiven, Time.Moderate.roomy hgivenShift, hzero⟩
    exact shifts_register h hnow (fun id => (rfl : Timer.once id (due + offset) task = _)) htimer
  | createAfter delay task =>
    obtain ⟨hdue, hdueShift, hplus⟩ := plus_shift hnow hshift hgiven
    have htimer : ∀ id, (Timer.once id (Time.plus (s.now wall) delay) task).Tempered offset :=
      fun id => ⟨hdue, hdueShift, hzero⟩
    have hmake : ∀ id, Timer.once id (Time.plus ((s.shift offset).now (wall + offset)) delay) task =
        (Timer.once id (Time.plus (s.now wall) delay) task).shift offset := by
      intro id
      rw [now_shift, hplus]
      rfl
    exact shifts_register h hnow hmake htimer
  | createEvery interval task =>
    obtain ⟨hdue, hdueShift, hplus⟩ := plus_shift hnow hshift hgiven
    have htimer : ∀ id,
        (Timer.every id (Time.plus (s.now wall) interval) interval task).Tempered offset :=
      fun id => ⟨hdue, hdueShift, moderate_toNat hgiven⟩
    have hmake : ∀ id,
        Timer.every id (Time.plus ((s.shift offset).now (wall + offset)) interval) interval task =
          (Timer.every id (Time.plus (s.now wall) interval) interval task).shift offset := by
      intro id
      rw [now_shift, hplus]
      rfl
    exact shifts_register h hnow hmake htimer
  | resetAt id due =>
    exact shifts_resetAt h (Time.Moderate.roomy hgiven) (Time.Moderate.roomy hgivenShift) id
  | resetAfter id delay =>
    obtain ⟨hdue, hdueShift, hplus⟩ := plus_shift hnow hshift hgiven
    show Shifts offset (.none, s.resetAt id (Time.plus (s.now wall) delay))
      (.none, (s.shift offset).resetAt id (Time.plus ((s.shift offset).now (wall + offset)) delay))
    rw [now_shift, hplus]
    exact shifts_resetAt h hdue hdueShift id
  | cancel id => exact shifts_cancel h id
  | tick =>
    have hone := shifts_advanceTicks h hnow hshift 1 hacts.beats hactsShift.beats
    rwa [advanceTicks_one, advanceTicks_one] at hone
  | advanceTicks count =>
    exact shifts_advanceTicks h hnow hshift count hacts.beats hactsShift.beats
  | mode => exact ⟨congrArg Reply.mode (mode_shift offset s), rfl, h⟩
  | now => exact ⟨congrArg Reply.time (now_shift offset wall s), rfl, h⟩
  | levels =>
    exact ⟨congrArg Reply.levels (Wheel.info_shift offset s.agenda.wheel), rfl, h⟩
  | _ => exact ⟨rfl, rfl, h⟩

/-! ### Actions and runs -/

theorem beatsOf_shift (h : s.agenda.Tempered offset) {op : Operation τ}
    (hacts : s.ActsModerately wall (.call op))
    (hactsShift : (s.shift offset).ActsModerately (wall + offset) (.call (op.shift offset))) :
    (s.shift offset).beatsOf (wall + offset) (op.shift offset) =
      (s.beatsOf wall op).map (Beat.shift offset) := by
  have hticks (n : Nat) := tickTimes_shift h hacts.now hactsShift.now_add n
  cases op with
  | tick => exact congrArg Prod.fst (hticks 1 hacts.beats hactsShift.beats).1
  | advanceTicks count => exact congrArg Prod.fst (hticks count hacts.beats hactsShift.beats).1
  | _ => rfl

/-- Each action does the same, only later. -/
theorem act_shift (h : s.agenda.Tempered offset) {action : Action τ}
    (hacts : s.ActsModerately wall action)
    (hactsShift : (s.shift offset).ActsModerately (wall + offset) (action.shift offset))
    (htotal : Time.Moderate (LevelSpec.totalSpan
      (Wheel.specsOf (s.act wall action).2.agenda.wheel.levels))) :
    (s.shift offset).act (wall + offset) (action.shift offset) =
        ((s.act wall action).1.map (Beat.shift offset), (s.act wall action).2.shift offset) ∧
      (s.act wall action).2.agenda.Tempered offset := by
  cases action with
  | call op =>
    have hperform := perform_shift h hacts hactsShift htotal
    refine ⟨?_, hperform.tempered⟩
    exact Prod.ext (beatsOf_shift h hacts hactsShift) hperform.scheduler
  | wake =>
    obtain ⟨hbeat, hkept⟩ := beat_shift h hacts.now hactsShift.now_add
    have hphase : (s.shift offset).phase = s.phase := rfl
    simp only [Action.shift, act, heartbeat, hphase]
    split
    · rw [hbeat, now_shift]
      exact ⟨rfl, hkept⟩
    · exact ⟨rfl, h⟩
  | wind reading =>
    refine ⟨?_, h⟩
    have hset : (s.clock.shift offset).set (reading + offset) =
        (s.clock.set reading).shift offset := by
      cases s.clock <;> rfl
    show (([] : List Beat), ({ s.shift offset with
      clock := (s.clock.shift offset).set (reading + offset) } : Scheduler τ)) = _
    rw [hset]
    rfl

/-- Fewer levels take less time. -/
theorem moderate_of_prefix {specs specs' : List LevelSpec} (hfewer : specs <+: specs')
    (htotal : Time.Moderate (LevelSpec.totalSpan specs')) :
    Time.Moderate (LevelSpec.totalSpan specs) := by
  obtain ⟨more, rfl⟩ := hfewer
  rw [LevelSpec.totalSpan_append] at htotal
  unfold Time.Moderate at htotal ⊢
  omega

/-- Runs do the same, only later. The induction is on the run, and what carries it is that no time
in the agenda leaves the range. -/
theorem follow_shift {run : List (Int × Action τ)} (h : s.agenda.Tempered offset)
    (hruns : s.Moderately run) (hrunsShift : (s.shift offset).Moderately (shiftRun offset run))
    (htotal : Time.Moderate (LevelSpec.totalSpan
      (Wheel.specsOf (s.follow run).2.agenda.wheel.levels))) :
    (s.shift offset).follow (shiftRun offset run) =
        ((s.follow run).1.map (Beat.shift offset), (s.follow run).2.shift offset) ∧
      (s.follow run).2.agenda.Tempered offset := by
  induction run generalizing s with
  | nil => exact ⟨rfl, h⟩
  | cons step rest ih =>
    obtain ⟨wall, action⟩ := step
    obtain ⟨hacts, hrest⟩ := hruns
    obtain ⟨hactsShift, hrestShift⟩ := hrunsShift
    have hlevels := moderate_of_prefix (specs_prefix_follow (s.act wall action).2 rest) htotal
    obtain ⟨hact, hkept⟩ := act_shift h hacts hactsShift hlevels
    rw [hact] at hrestShift
    obtain ⟨hlater, hend⟩ := ih hkept hrest hrestShift htotal
    refine ⟨?_, hend⟩
    show (((s.shift offset).act (wall + offset) (action.shift offset)).1 ++
      (((s.shift offset).act (wall + offset) (action.shift offset)).2.follow
        (shiftRun offset rest)).1,
      (((s.shift offset).act (wall + offset) (action.shift offset)).2.follow
        (shiftRun offset rest)).2) = _
    rw [hact, hlater, ← List.map_append]
    rfl

/-- What a moderate run begins and ends with is moderate as well. -/
theorem Moderately.append {run later : List (Int × Action τ)} (h : s.Moderately (run ++ later)) :
    s.Moderately run ∧ (s.follow run).2.Moderately later := by
  induction run generalizing s with
  | nil => exact ⟨trivial, h⟩
  | cons step rest ih =>
    obtain ⟨hacts, hrest⟩ := h
    obtain ⟨hbefore, hafter⟩ := ih hrest
    exact ⟨⟨hacts, hbefore⟩, hafter⟩

/-! ### New schedulers -/

theorem appendLevels_shift (offset : Int) (specs : List LevelSpec) (s : Scheduler τ) :
    appendLevels specs (s.shift offset) = (appendLevels specs s).map (shift offset) := by
  induction specs generalizing s with
  | nil => rfl
  | cons spec rest ih =>
    rw [appendLevels, appendLevels, appendLevel_shift]
    cases s.appendLevel spec with
    | mk reply s' =>
      cases reply with
      | error reason => rfl
      | ok _ => exact ih s'

theorem create_shift (offset : Int) (mode : Mode) (settings : Settings) :
    create mode (settings.shift offset) =
      (create mode settings : Except Fault (Scheduler τ)).map (shift offset) := by
  have hclock : Clock.ofMode mode ((settings.shift offset).start.getD 0) =
      (Clock.ofMode mode (settings.start.getD 0)).shift offset := by
    cases mode <;> rfl
  have hworkers : (settings.shift offset).workers = settings.workers := rfl
  have hinterval : (settings.shift offset).tickInterval = settings.tickInterval := rfl
  rw [create, create, hclock, hworkers, hinterval]
  split
  · rfl
  · split
    · rfl
    · exact appendLevels_shift offset settings.levels
        { workers := settings.workers, tickInterval := settings.tickInterval,
          clock := .ofMode mode (settings.start.getD 0) }

theorem tempered_create {mode : Mode} {settings : Settings} (hs : create mode settings = .ok s)
    (offset : Int) (htotal : Time.Moderate (LevelSpec.totalSpan
      (Wheel.specsOf s.agenda.wheel.levels))) : s.agenda.Tempered offset := by
  have hb := balanced_create hs
  have hnew := nextId_create hs
  refine ⟨⟨hb.settled.wellFormed, htotal, ?_⟩, ?_⟩
  · intro t ht
    rw [← Wheel.timers_eq, hb.timers_eq_nil hnew] at ht
    cases ht
  · intro r hr
    exact absurd (hb.resets_live r hr) (hb.not_mem_live_of_new hnew r.1)

/-! ### All of it -/

/-- Take a new scheduler and a run of it. Make everything later by the same time, or earlier: the
start of the clock, all due times that callers give or ask for, and what the wall clock shows. Let
all times that the two runs meet be well within the range, and let whole turns of all levels
together take no longer than that. Then the scheduler that is made with the later start, after the
later run or any part of it, has had the same timers fire in the same order on each tick; it has the
same cursors, in each slot the same timers at later due times, the same timers pending, and the same
due times asked for, only later; and any further call of the run is answered alike, but that a
reading of the clock is later. -/
theorem shifted_alike {mode : Mode} {settings : Settings} {s : Scheduler τ}
    (hs : create mode settings = .ok s) {offset : Int} {run : List (Int × Action τ)}
    (hruns : s.Moderately run) (hrunsShift : (s.shift offset).Moderately (shiftRun offset run))
    (htotal : Time.Moderate (LevelSpec.totalSpan
      (Wheel.specsOf (s.follow run).2.agenda.wheel.levels))) :
    create mode (settings.shift offset) = .ok (s.shift offset) ∧
    ∀ done later, run = done ++ later →
      let s₁ := (s.follow done).2
      let s₂ := ((s.shift offset).follow (shiftRun offset done)).2
      ((s.shift offset).follow (shiftRun offset done)).1 =
        (s.follow done).1.map (Beat.shift offset) ∧
      s₂ = s₁.shift offset ∧
      s₂.agenda.wheel.levels.map (·.cursor) = s₁.agenda.wheel.levels.map (·.cursor) ∧
      (∀ i j, s₂.agenda.wheel.slotOf i j =
        (s₁.agenda.wheel.slotOf i j).map (Timer.shift offset)) ∧
      s₂.agenda.live = s₁.agenda.live ∧
      (∀ id, s₂.agenda.resetOf id = (s₁.agenda.resetOf id).map (· + offset)) ∧
      ∀ wall op rest, later = (wall, .call op) :: rest →
        (s₂.perform (wall + offset) (op.shift offset)).1 =
          (s₁.perform wall op).1.shift offset := by
  have hlevels := moderate_of_prefix (specs_prefix_follow s run) htotal
  have htempered := tempered_create hs offset hlevels
  refine ⟨by rw [create_shift, hs]; rfl, ?_⟩
  rintro done later rfl
  obtain ⟨hdone, hlater⟩ := hruns.append
  have hsplit : shiftRun offset (done ++ later) = shiftRun offset done ++ shiftRun offset later :=
    List.map_append
  rw [hsplit] at hrunsShift
  obtain ⟨hdoneShift, hlaterShift⟩ := hrunsShift.append
  rw [follow_append] at htotal
  have hdoneTotal := moderate_of_prefix (specs_prefix_follow (s.follow done).2 later) htotal
  obtain ⟨hfollow, hkept⟩ := follow_shift htempered hdone hdoneShift hdoneTotal
  rw [hfollow] at hlaterShift ⊢
  refine ⟨rfl, rfl, Wheel.cursors_shift offset _, Wheel.slotOf_shift offset _, rfl,
    fun id => Agenda.resetOf_shift offset id _, ?_⟩
  rintro wall op rest rfl
  have hcallTotal := moderate_of_prefix
    (specs_prefix_follow ((s.follow done).2.act wall (.call op)).2 rest) htotal
  exact (perform_shift hkept hlater.1 hlaterShift.1 hcallTotal).reply

end

/-- Everything earlier by 7003 milliseconds, which is no multiple of any width, so that due times
and readings become negative. One timer repeats, one is moved when the wheel yields it, one was due
long before, and one is cancelled. -/
theorem shifted_alike_before_zero : ∃ (s s' : Scheduler Unit) (run : List (Int × Action Unit)),
    create .offline { levels := [⟨3, 30, "coarse"⟩, ⟨3, 10, "fine"⟩], start := some 1000 } = .ok s ∧
    create .offline { levels := [⟨3, 30, "coarse"⟩, ⟨3, 10, "fine"⟩], start := some (-6003) } =
      .ok s' ∧
    (s.follow run).1 = [⟨1010, [⟨3⟩]⟩, ⟨1020, []⟩, ⟨1030, [⟨2⟩]⟩, ⟨1040, []⟩, ⟨1050, [⟨2⟩]⟩,
      ⟨1060, []⟩, ⟨1070, [⟨1⟩]⟩] ∧
    (s'.follow (shiftRun (-7003) run)).1 = (s.follow run).1.map (Beat.shift (-7003)) ∧
    (s'.follow (shiftRun (-7003) run)).2.agenda.live = (s.follow run).2.agenda.live := by
  obtain ⟨hcreate, hall⟩ := @shifted_alike Unit .offline
    { levels := [⟨3, 30, "coarse"⟩, ⟨3, 10, "fine"⟩], start := some 1000 } _ rfl (-7003)
    [(0, .call .start), (0, .call (.createAt 1065 none)), (0, .call (.createEvery 25 none)),
      (0, .call (.createAt 900 none)), (0, .call (.createAfter 30 none)),
      (0, .call (.resetAt ⟨1⟩ 1040)), (0, .call (.cancel ⟨4⟩)), (0, .call (.advanceTicks 7))]
    (by decide +kernel) (by decide +kernel) (by decide +kernel)
  obtain ⟨hbeats, -, -, -, hlive, -, -⟩ := hall _ [] (List.append_nil _).symm
  exact ⟨_, _, _, rfl, hcreate, by decide +kernel, hbeats, hlive⟩

end Scheduler

end TimingWheel
