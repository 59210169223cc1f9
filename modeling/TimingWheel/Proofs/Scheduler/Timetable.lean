import TimingWheel.Proofs.Agenda.Schedule
import TimingWheel.Proofs.Scheduler.Run

/-!
# The timetable of a scheduler

Where callers make the ticks, the readings of the clock are one stride apart: the period of the
ticks as a signed word, or nothing if that is negative. In a nested wheel whose finest slots are
at least one stride wide, every timer about which nothing is asked fires exactly as its plan says,
whatever else the callers do.

## Main definitions

- `Scheduler.stride`, `Scheduler.readings` — the readings of ticks made by the caller
- `Operation.plan?`, `Operation.AsksAbout` — what an operation registers and asks
- `Scheduler.Punctual` — a scheduler whose wheel is on time
- `Scheduler.Timely` — beats at the readings to be expected, with all timers on schedule

## Main statements

- `Scheduler.timely_tickTimes`, `Scheduler.timely_act`, `Scheduler.timely_follow` — ticks,
  operations and runs are timely
- `Scheduler.exact_schedule` — when a timer fires after its registration
-/

namespace TimingWheel.Scheduler

variable {τ : Type}

/-! ### Operations -/

/-- The plan of the timer that an operation registers while the clock shows `now`. -/
def Operation.plan? (now : Int) : Operation τ → Option Plan
  | .createAt due _ => some { due, interval := 0 }
  | .createAfter delay _ => some { due := Time.plus now delay, interval := 0 }
  | .createEvery interval _ =>
    some { due := Time.plus now interval, interval := interval.toNat }
  | _ => none

/-- The operation asks for the timer to be moved or dropped. -/
def Operation.AsksAbout (id : TimerId) : Operation τ → Prop
  | .resetAt id' _ => id' = id
  | .resetAfter id' _ => id' = id
  | .cancel id' => id' = id
  | _ => False

/-- The operation makes ticks. -/
def Operation.Ticks : Operation τ → Prop
  | .tick => True
  | .advanceTicks _ => True
  | _ => False

/-- A run in which callers perform operations, and nothing else happens. -/
def calls (ops : List (Int × Operation τ)) : List (Int × Action τ) :=
  ops.map fun step => (step.1, .call step.2)

/-! ### Readings -/

/-- How far a tick made by the caller moves the clock. -/
def stride (s : Scheduler τ) : Int := max (Time.wrap s.period) 0

/-- The readings of `n` ticks that are `step` apart, the first one `step` after `now`. -/
def readings (now step : Int) (n : Nat) : List Int :=
  (List.range n).map fun k => now + (k + 1 : Nat) * step

theorem readings_one (now step : Int) : readings now step 1 = [now + step] := by
  simp [readings]

theorem readings_add (now step : Int) (m n : Nat) :
    readings now step (m + n) = readings now step m ++ readings (now + m * step) step n := by
  rw [readings]
  rw [List.range_add, List.map_append, List.map_map]
  congr 1
  refine List.map_congr_left ?_
  intro k _
  push_cast [Function.comp_apply]
  ring

/-- If the clock is not carried round in `n` ticks, it is not in fewer ones. -/
theorem fits_of_fewer {now step : Int} (hleast : Time.least ≤ now) (hstep : 0 ≤ step) {m n : Nat}
    (hmn : m ≤ n) (hfits : Time.Fits (now + n * step)) : Time.Fits (now + m * step) := by
  have hle : (m : Int) * step ≤ n * step :=
    Int.mul_le_mul_of_nonneg_right (Int.ofNat_le.2 hmn) hstep
  have hpos : 0 ≤ (m : Int) * step := Int.mul_nonneg (Int.natCast_nonneg m) hstep
  rw [Time.Fits] at hfits ⊢
  omega

theorem reading_append (now step : Int) (beats beats' : List Beat) :
    now + (beats ++ beats').length * step =
      now + beats.length * step + beats'.length * step := by
  rw [List.length_append]
  push_cast
  ring

theorem reading_cons (now step : Int) (beat : Beat) (beats : List Beat) :
    now + (beat :: beats).length * step = now + step + beats.length * step := by
  rw [List.length_cons]
  push_cast
  ring

theorem stride_congr {s s' : Scheduler τ} (hinterval : s'.tickInterval = s.tickInterval)
    (hspecs : Wheel.specsOf s'.agenda.wheel.levels = Wheel.specsOf s.agenda.wheel.levels) :
    s'.stride = s.stride := by
  have hfinest : s'.agenda.wheel.finest?.map (·.width) = s.agenda.wheel.finest?.map (·.width) := by
    have hlast := congrArg (fun specs : List LevelSpec => specs.getLast?.map (·.width)) hspecs
    simp only [Wheel.getLast?_specsOf, Option.map_map] at hlast
    exact hlast
  rw [stride, period, Agenda.tickInterval, hinterval, hfinest]
  rfl

/-! ### Punctual schedulers -/

/-- The caller makes the ticks, the clock shows `now`, a tick moves it by `step`, and the wheel is
on time. -/
structure Punctual (grain : Nat) (step now : Int) (s : Scheduler τ) : Prop where
  clock : s.clock = .manual now
  stride_eq : s.stride = step
  step_le : step ≤ grain
  ontime : s.agenda.OnTime grain now

theorem Punctual.step_nonneg {grain : Nat} {step now : Int} {s : Scheduler τ}
    (h : s.Punctual grain step now) : 0 ≤ step := h.stride_eq ▸ Int.le_max_right _ _

theorem Punctual.now_eq {grain : Nat} {step now : Int} {s : Scheduler τ}
    (h : s.Punctual grain step now) (wall : Int) : s.now wall = now := by
  rw [Scheduler.now, h.clock]
  rfl

/-- The beats come at the readings to be expected, and so long as nothing is asked about a timer
they answer it as its plan says. -/
structure Timely (grain : Nat) (step now : Int) (asked : TimerId → Prop) (s : Scheduler τ)
    (r : List Beat × Scheduler τ) : Prop where
  punctual : r.2.Punctual grain step (now + r.1.length * step)
  readings_eq : r.1.map Beat.reading = readings now step r.1.length
  firings : ∀ id plan, ¬asked id → s.agenda.Pursues id plan →
    ∃ plan', r.2.agenda.Pursues id plan' ∧ ∀ later,
      Plan.firings plan (r.1.map Beat.reading ++ later) =
        r.1.map (·.fired.count id) ++ Plan.firings plan' later

section

variable {grain : Nat} {step now : Int} {asked : TimerId → Prop} {s s' : Scheduler τ}

theorem timely_nil (h : s'.Punctual grain step now)
    (hpursues : ∀ id plan, ¬asked id → s.agenda.Pursues id plan → s'.agenda.Pursues id plan) :
    Timely grain step now asked s ([], s') where
  punctual := by simpa using h
  readings_eq := rfl
  firings := fun id plan hid hplan => ⟨plan, hpursues id plan hid hplan, fun _ => rfl⟩

theorem Timely.mono {asked' : TimerId → Prop} {r : List Beat × Scheduler τ}
    (h : Timely grain step now asked s r) (hasked : ∀ id, asked id → asked' id) :
    Timely grain step now asked' s r :=
  { h with firings := fun id plan hid => h.firings id plan fun hold => hid (hasked id hold) }

/-- Runs that are timely one after the other are timely together. -/
theorem Timely.trans {asked' : TimerId → Prop} {beats beats' : List Beat} {s'' : Scheduler τ}
    (h : Timely grain step now asked s (beats, s'))
    (h' : Timely grain step (now + beats.length * step) asked' s' (beats', s'')) :
    Timely grain step now (fun id => asked id ∨ asked' id) s (beats ++ beats', s'') := by
  constructor
  case punctual =>
    rw [reading_append]
    exact h'.punctual
  case readings_eq =>
    rw [List.map_append, h.readings_eq, h'.readings_eq, List.length_append, readings_add]
  case firings =>
    intro id plan hid hplan
    rw [not_or] at hid
    obtain ⟨plan', hplan', hfirings⟩ := h.firings id plan hid.1 hplan
    obtain ⟨plan'', hplan'', hfirings'⟩ := h'.firings id plan' hid.2 hplan'
    refine ⟨plan'', hplan'', ?_⟩
    intro later
    simp only [List.map_append, List.append_assoc]
    rw [hfirings, hfirings']

/-! ### Ticks -/

theorem fits_of_beats (h : s.Punctual grain step now) {m n : Nat} (hmn : m ≤ n)
    (hfits : Time.Fits (now + n * step)) : Time.Fits (now + m * step) :=
  fits_of_fewer h.ontime.least_le h.step_nonneg hmn hfits

theorem timely_beat (h : s.Punctual grain step now) (hfits : Time.Fits (now + step))
    (hclock : s'.clock = .manual (now + step)) (hinterval : s'.tickInterval = s.tickInterval)
    (hagenda : s'.agenda = (s.agenda.tick (now + step)).2) :
    Timely grain step now (fun _ => False) s
      ([⟨now + step, (s.agenda.tick (now + step)).1.map (·.id)⟩], s') := by
  have hleast : Time.least ≤ now + step := hfits.1
  have hnow : now + step ≤ now + grain := Int.add_le_add_left h.step_le now
  constructor
  case punctual =>
    have hspecs := Agenda.specsOf_tick s.agenda (now + step)
    rw [← hagenda] at hspecs
    have hlength : now + ([⟨now + step, (s.agenda.tick (now + step)).1.map (·.id)⟩] :
        List Beat).length * step = now + step := by simp
    rw [hlength]
    refine ⟨hclock, (stride_congr hinterval hspecs).trans h.stride_eq, h.step_le, ?_⟩
    rw [hagenda]
    exact Agenda.onTime_tick h.ontime hleast hnow
  case readings_eq => exact (readings_one now step).symm
  case firings =>
    intro id plan _ hplan
    rw [hagenda]
    exact Agenda.pursues_tick h.ontime hleast hnow hplan

/-- The first of several ticks that the caller makes is refused, and so are the others, or it comes
one stride on. This does not carry the clock round if all of the ticks together do not. -/
theorem tickTimes_succ_cases (hclock : s.clock = .manual now)
    (hstride : s.phase = .running → s.stride = step) (hleast : Time.least ≤ now)
    (hstep : 0 ≤ step) {wall : Int} {n : Nat}
    (hfits : Time.Fits (now + (tickTimes wall (n + 1) s).1.length * step)) :
    tickTimes wall (n + 1) s = ([], s) ∨
      ∃ s', s.phase = .running ∧ Time.Fits (now + step) ∧ s'.clock = .manual (now + step) ∧
        s'.tickInterval = s.tickInterval ∧ s'.agenda = (s.agenda.tick (now + step)).2 ∧
        Time.Fits (now + step + (tickTimes wall n s').1.length * step) ∧
        tickTimes wall (n + 1) s =
          (⟨now + step, (s.agenda.tick (now + step)).1.map (·.id)⟩ :: (tickTimes wall n s').1,
            (tickTimes wall n s').2) := by
  rw [tickTimes] at hfits ⊢
  rcases tick_cases wall s with ⟨reason, htick⟩ |
      ⟨reading, pool, s', hmanual, hphase, -, htick, hs'⟩
  · exact Or.inl (by rw [htick])
  · obtain rfl : reading = now := Clock.manual.inj (hmanual.symm.trans hclock)
    have hstride : max (Time.wrap s.period) 0 = step := hstride hphase
    rw [hstride] at htick hs'
    rw [htick] at hfits ⊢
    have hone : Time.Fits (reading + step) := by
      simpa using fits_of_fewer hleast hstep (Nat.le_add_left 1 _) hfits
    rw [Time.wrap_of_fits hone] at hs' hfits ⊢
    have hnow : s'.now wall = reading + step := by rw [hs']; rfl
    dsimp only at hfits ⊢
    rw [reading_cons] at hfits
    exact Or.inr ⟨s', hphase, hone, by rw [hs'], by rw [hs'], by rw [hs'], hfits, by rw [hnow]⟩

/-- Ticks made by the caller, up to the first one that is refused. -/
theorem timely_tickTimes (wall : Int) {n : Nat} (h : s.Punctual grain step now)
    (hfits : Time.Fits (now + (tickTimes wall n s).1.length * step)) :
    Timely grain step now (fun _ => False) s (tickTimes wall n s) := by
  induction n generalizing s now with
  | zero => exact timely_nil h fun _ _ _ hplan => hplan
  | succ n ih =>
    rcases tickTimes_succ_cases h.clock (fun _ => h.stride_eq) h.ontime.least_le h.step_nonneg
      hfits with hrefused | ⟨s', -, hone, hclock, hinterval, hagenda, hrest, htimes⟩
    · rw [hrefused]
      exact timely_nil h fun _ _ _ hplan => hplan
    · rw [htimes]
      have hbeat := timely_beat h hone hclock hinterval hagenda
      refine (hbeat.trans (ih hbeat.punctual ?_)).mono fun _ hfalse => hfalse.elim id id
      simpa using hrest

/-! ### Operations and runs -/

/-- An operation that makes no ticks leaves the clock and the settings alone, and amounts to moves
between ticks. -/
theorem between_of_not_ticks {op : Operation τ} (hop : ¬op.Ticks) (wall : Int) (s : Scheduler τ) :
    s.beatsOf wall op = [] ∧ (s.perform wall op).2.clock = s.clock ∧
      (s.perform wall op).2.tickInterval = s.tickInterval ∧
      ∀ m ∈ s.movesOf wall (.call op), m.At (s.now wall) ∧
        ∀ id, m.AsksAbout id → op.AsksAbout id := by
  cases op with
  | tick => exact absurd trivial hop
  | advanceTicks count => exact absurd trivial hop
  | appendLevel spec =>
    refine ⟨rfl, ?_, ?_, List.forall_mem_singleton.2 ⟨trivial, fun _ hid => hid⟩⟩
    all_goals
      simp only [perform, appendLevel, Prod.map]
      cases s.agenda.append spec <;> rfl
  | start =>
    refine ⟨rfl, ?_, ?_, ?_⟩
    · simp only [perform, start, Prod.map]
      cases s.phase <;> cases Pool.create s.workers <;> rfl
    · simp only [perform, start, Prod.map]
      cases s.phase <;> cases Pool.create s.workers <;> rfl
    · simp only [movesOf]
      split
      · exact fun m hm => absurd hm List.not_mem_nil
      · exact List.forall_mem_singleton.2 ⟨trivial, fun _ hid => hid⟩
  | stop =>
    refine ⟨rfl, ?_, ?_, List.forall_mem_singleton.2 ⟨trivial, fun _ hid => hid⟩⟩
    all_goals
      simp only [perform, stop]
      split <;> rfl
  | createAt due task =>
    exact ⟨rfl, rfl, rfl, List.forall_mem_singleton.2 ⟨rfl, fun _ hid => hid⟩⟩
  | createAfter delay task =>
    exact ⟨rfl, rfl, rfl, List.forall_mem_singleton.2 ⟨rfl, fun _ hid => hid⟩⟩
  | createEvery interval task =>
    exact ⟨rfl, rfl, rfl, List.forall_mem_singleton.2 ⟨rfl, fun _ hid => hid⟩⟩
  | resetAt id' due =>
    exact ⟨rfl, rfl, rfl, List.forall_mem_singleton.2 ⟨trivial, fun _ hid => hid⟩⟩
  | resetAfter id' delay =>
    exact ⟨rfl, rfl, rfl, List.forall_mem_singleton.2 ⟨trivial, fun _ hid => hid⟩⟩
  | cancel id' =>
    exact ⟨rfl, rfl, rfl, List.forall_mem_singleton.2 ⟨trivial, fun _ hid => hid⟩⟩
  | _ => exact ⟨rfl, rfl, rfl, fun m hm => absurd hm List.not_mem_nil⟩

/-- An operation that adds no level is timely. -/
theorem timely_act (wall : Int) (op : Operation τ) (h : s.Punctual grain step now)
    (hspecs : Wheel.specsOf (s.act wall (.call op)).2.agenda.wheel.levels =
      Wheel.specsOf s.agenda.wheel.levels)
    (hfits : Time.Fits (now + (s.act wall (.call op)).1.length * step)) :
    Timely grain step now (fun id => op.AsksAbout id) s (s.act wall (.call op)) := by
  by_cases hop : op.Ticks
  · cases op with
    | tick =>
      rw [act_tick] at hfits ⊢
      exact (timely_tickTimes wall h hfits).mono fun _ => False.elim
    | advanceTicks count =>
      rw [act_advanceTicks] at hfits ⊢
      exact (timely_tickTimes wall h hfits).mono fun _ => False.elim
    | _ => exact hop.elim
  · obtain ⟨hbeats, hclock, hinterval, hmoves⟩ := between_of_not_ticks hop wall s
    have hagenda := (explained_act wall s (.call op)).agenda { agenda := s.agenda } rfl
    rw [h.now_eq] at hmoves
    simp only [act] at hspecs hagenda ⊢
    rw [hbeats]
    rw [← hagenda] at hspecs
    refine timely_nil ⟨hclock.trans h.clock, ?_, h.step_le, ?_⟩ ?_
    · rw [hagenda] at hspecs
      exact (stride_congr hinterval hspecs).trans h.stride_eq
    · rw [← hagenda]
      exact History.onTime_after h.ontime (fun m hm => (hmoves m hm).1) hspecs
    · intro id plan hid hplan
      rw [← hagenda]
      refine History.pursues_after h.ontime.balanced hplan ?_
      intro m hm
      exact ⟨Agenda.not_tick_of_at (hmoves m hm).1, fun hasks => hid ((hmoves m hm).2 id hasks)⟩

theorem specs_prefix_follow (s : Scheduler τ) (run : List (Int × Action τ)) :
    Wheel.specsOf s.agenda.wheel.levels <+:
      Wheel.specsOf (s.follow run).2.agenda.wheel.levels := by
  rw [← (explained_follow s run).agenda { agenda := s.agenda } rfl]
  exact History.specs_prefix_after { agenda := s.agenda } _

/-- If a run adds no level, neither its first operation nor the rest of it does. -/
theorem specs_of_run {wall : Int} {op : Operation τ} {rest : List (Int × Operation τ)}
    (hspecs : Wheel.specsOf (s.follow (calls ((wall, op) :: rest))).2.agenda.wheel.levels =
      Wheel.specsOf s.agenda.wheel.levels) :
    let r := s.act wall (.call op)
    Wheel.specsOf r.2.agenda.wheel.levels = Wheel.specsOf s.agenda.wheel.levels ∧
      Wheel.specsOf (r.2.follow (calls rest)).2.agenda.wheel.levels =
        Wheel.specsOf r.2.agenda.wheel.levels := by
  intro r
  have hfirst : Wheel.specsOf r.2.agenda.wheel.levels = Wheel.specsOf s.agenda.wheel.levels :=
    Agenda.specs_eq_of_prefix (specs_prefix_follow s [(wall, .call op)])
      (specs_prefix_follow r.2 (calls rest)) hspecs
  exact ⟨hfirst, hspecs.trans hfirst.symm⟩

/-- If a run does not carry the clock round, neither its first operation nor the rest of it does. -/
theorem fits_of_run (h : s.Punctual grain step now) {wall : Int} {op : Operation τ}
    {rest : List (Int × Operation τ)}
    (hfits : Time.Fits (now + (s.follow (calls ((wall, op) :: rest))).1.length * step)) :
    let r := s.act wall (.call op)
    Time.Fits (now + r.1.length * step) ∧
      Time.Fits (now + r.1.length * step + (r.2.follow (calls rest)).1.length * step) := by
  intro r
  replace hfits : Time.Fits (now + (r.1 ++ (r.2.follow (calls rest)).1).length * step) := hfits
  refine ⟨fits_of_beats h ?_ hfits, ?_⟩
  · rw [List.length_append]
    exact Nat.le_add_right _ _
  · rwa [reading_append] at hfits

/-- A run in which callers perform operations and add no level is timely. -/
theorem timely_follow (ops : List (Int × Operation τ)) (h : s.Punctual grain step now)
    (hspecs : Wheel.specsOf (s.follow (calls ops)).2.agenda.wheel.levels =
      Wheel.specsOf s.agenda.wheel.levels)
    (hfits : Time.Fits (now + (s.follow (calls ops)).1.length * step)) :
    Timely grain step now (fun id => ∃ p ∈ ops, p.2.AsksAbout id) s (s.follow (calls ops)) := by
  induction ops generalizing s now with
  | nil => exact timely_nil h fun _ _ _ hplan => hplan
  | cons p rest ih =>
    obtain ⟨wall, op⟩ := p
    obtain ⟨hspecsFirst, hspecsRest⟩ := specs_of_run hspecs
    obtain ⟨hfitsFirst, hfitsRest⟩ := fits_of_run h hfits
    have hact := timely_act wall op h hspecsFirst hfitsFirst
    refine (hact.trans (ih hact.punctual hspecsRest hfitsRest)).mono ?_
    intro id hid
    rcases hid with hasks | ⟨p, hp, hasks⟩
    · exact ⟨(wall, op), List.mem_cons_self, hasks⟩
    · exact ⟨p, List.mem_cons_of_mem _ hp, hasks⟩

end

/-! ### The timetable of one timer -/

/-- A registration that answers a valid handle was accepted, and it is the next handle. -/
theorem accepts_of_register {wall : Int} {s : Scheduler τ} {id : TimerId}
    (make : TimerId → Timer τ) (hid : id.isValid = true) (h : (s.register wall make).1 = id) :
    s.agenda.phase.acceptsTimers = true ∧ id = ⟨s.agenda.nextId⟩ := by
  cases haccepts : s.agenda.phase.acceptsTimers with
  | false =>
    rw [register, Agenda.register_of_refuses haccepts] at h
    obtain rfl : TimerId.invalid = id := h
    exact absurd hid (by decide)
  | true =>
    rw [register, Agenda.register_of_accepts haccepts] at h
    exact ⟨rfl, h.symm⟩

/-- A registration that is accepted amounts to one move, with the plan of the operation. -/
theorem registers_of_plan {wall : Int} {s : Scheduler τ} {op : Operation τ} {plan : Plan}
    (hplan : op.plan? (s.now wall) = some plan) {id : TimerId} (hid : id.isValid = true)
    (hop : (s.perform wall op).1 = .registered id) :
    s.agenda.phase.acceptsTimers = true ∧ id = ⟨s.agenda.nextId⟩ ∧ ¬op.Ticks ∧
      ∃ due interval task, plan = ⟨due, interval.toNat⟩ ∧
        (s.perform wall op).2.agenda =
          s.agenda.move (.register due interval task (s.now wall)) := by
  cases op with
  | createAt due task =>
    obtain ⟨hphase, heq⟩ := accepts_of_register (.once · due task) hid
      (Reply.registered.inj hop)
    exact ⟨hphase, heq, fun h => h, due, 0, task, (Option.some.inj hplan).symm, rfl⟩
  | createAfter delay task =>
    obtain ⟨hphase, heq⟩ := accepts_of_register
      (.once · (Time.plus (s.now wall) delay) task) hid (Reply.registered.inj hop)
    exact ⟨hphase, heq, fun h => h, _, 0, task, (Option.some.inj hplan).symm, rfl⟩
  | createEvery interval task =>
    obtain ⟨hphase, heq⟩ := accepts_of_register
      (.every · (Time.plus (s.now wall) interval) interval task) hid (Reply.registered.inj hop)
    exact ⟨hphase, heq, fun h => h, _, interval, task, (Option.some.inj hplan).symm, rfl⟩
  | _ => cases hplan

/-- A scheduler that has accepted no timer yet is punctual, if its wheel is nested and no stride
is longer than a slot of the finest level is wide. -/
theorem punctual_of_new {s : Scheduler τ} (hb : s.agenda.Balanced []) {start : Int}
    (hclock : s.clock = .manual start) (hfits : Time.Fits start) (hnew : s.agenda.nextId = 1)
    (hnested : LevelSpec.Nested (Wheel.specsOf s.agenda.wheel.levels))
    (hwords : ∀ spec ∈ Wheel.specsOf s.agenda.wheel.levels, spec.width < 4294967296)
    {fine : Level τ} (hfine : s.agenda.wheel.finest? = some fine) (hstep : s.stride ≤ fine.width) :
    s.Punctual fine.width s.stride start where
  clock := hclock
  stride_eq := rfl
  step_le := hstep
  ontime := Agenda.onTime_of_no_timer hb (Agenda.geared_of_nested hb hnested hwords hfine)
    (hb.settled fine (List.mem_of_getLast? hfine)).valid.2 hfits.1 hnew

/-- Suppose a scheduler whose clock is moved by hand has accepted no timer yet, its wheel is
nested (with widths that are words of 32 bits), a stride is no longer than a slot of the finest
level is wide, and no level is added any more. Let callers do what they like, then register a
timer, and then do what they like except ask for this timer to be moved or dropped. As long as
the clock is not carried round, the beats after the registration come at readings one stride
apart, and they fire the timer exactly as its plan says: once at the first reading that has come
to its due time, and if it repeats, again at the first later reading that has come to the next
due time, and so on. -/
theorem exact_schedule {s s₁ s₂ s₃ : Scheduler τ} {before after : List (Int × Operation τ)}
    {earlier later : List Beat} {start wall : Int} {op : Operation τ} {id : TimerId} {plan : Plan}
    {fine : Level τ} (hs : s.Reachable) (hclock : s.clock = .manual start)
    (hnew : s.agenda.nextId = 1)
    (hnested : LevelSpec.Nested (Wheel.specsOf s.agenda.wheel.levels))
    (hwords : ∀ spec ∈ Wheel.specsOf s.agenda.wheel.levels, spec.width < 4294967296)
    (hfine : s.agenda.wheel.finest? = some fine) (hstep : s.stride ≤ fine.width)
    (hbefore : s.follow (calls before) = (earlier, s₁))
    (hplan : op.plan? (s₁.now wall) = some plan)
    (hop : s₁.perform wall op = (.registered id, s₂)) (hid : id.isValid = true)
    (hafter : s₂.follow (calls after) = (later, s₃))
    (hunasked : ∀ p ∈ after, ¬p.2.AsksAbout id)
    (hspecs : Wheel.specsOf s₃.agenda.wheel.levels = Wheel.specsOf s.agenda.wheel.levels)
    (hstart : Time.Fits start)
    (hfits : Time.Fits (start + (earlier ++ later).length * s.stride)) :
    later.map Beat.reading =
        readings (start + earlier.length * s.stride) s.stride later.length ∧
      later.map (·.fired.count id) = Plan.firings (some plan) (later.map Beat.reading) := by
  have hpunctual := punctual_of_new hs.balanced hclock hstart hnew hnested hwords hfine hstep
  have hbalanced : s₁.agenda.Balanced [] := by
    have hrun := (hs.follow (calls before)).balanced
    rwa [hbefore] at hrun
  have hregisters := registers_of_plan hplan hid (congrArg Prod.fst hop)
  rw [hop] at hregisters
  obtain ⟨haccepts, rfl, hticks, due, interval, task, rfl, hagenda⟩ := hregisters
  have hact : s₁.act wall (.call op) = ([], s₂) := by
    rw [act, (between_of_not_ticks hticks wall s₁).1, hop]
  -- No level is added on the way.
  have hprefix₁ := specs_prefix_follow s (calls before)
  rw [hbefore] at hprefix₁
  have hprefix₂ := specs_prefix_follow s₁ [(wall, .call op)]
  simp only [follow, hact] at hprefix₂
  have hprefix₃ := specs_prefix_follow s₂ (calls after)
  rw [hafter] at hprefix₃
  have hspecs₁ := Agenda.specs_eq_of_prefix hprefix₁ (hprefix₂.trans hprefix₃) hspecs
  have hspecs₂ := Agenda.specs_eq_of_prefix (hprefix₁.trans hprefix₂) hprefix₃ hspecs
  -- The wheel is on time at the registration and after it.
  have hlength : earlier.length ≤ (earlier ++ later).length := by
    rw [List.length_append]
    exact Nat.le_add_right _ _
  have hfits₁ := fits_of_beats hpunctual hlength hfits
  rw [reading_append] at hfits
  have htimely₁ := timely_follow before hpunctual
    (by rw [hbefore]; exact hspecs₁) (by rw [hbefore]; exact hfits₁)
  rw [hbefore] at htimely₁
  have htimely₂ := timely_act wall op htimely₁.punctual
    (by rw [hact]; exact hspecs₂.trans hspecs₁.symm) (by rw [hact]; simpa using hfits₁)
  have hpunctual₂ := htimely₂.punctual
  simp only [hact, List.length_nil, Nat.cast_zero, zero_mul, add_zero] at hpunctual₂
  have htimely₃ := timely_follow after hpunctual₂
    (by rw [hafter]; exact hspecs.trans hspecs₂.symm) (by rw [hafter]; exact hfits)
  rw [hafter] at htimely₃
  refine ⟨htimely₃.readings_eq, ?_⟩
  -- From the registration on the timer has a plan, and the beats go through it to the end.
  have hpursues := Agenda.pursues_register hbalanced haccepts due interval task (s₁.now wall)
  rw [← hagenda] at hpursues
  obtain ⟨plan', -, hfirings⟩ := htimely₃.firings _ _
    (fun hasks => hasks.elim fun p hp => hunasked p hp.1 hp.2) hpursues
  have hall := hfirings []
  rw [List.append_nil, Plan.firings, List.append_nil] at hall
  exact hall.symm

/-- With two levels, a timer of another caller, and a timer that repeats every 12 milliseconds
while ticks are 5 milliseconds apart. It is registered at 5 and due at 17, 29, 41 and 53. -/
theorem exact_schedule_every_twelve : ∃ later : List Beat,
    later.map Beat.reading = [10, 15, 20, 25, 30, 35, 40, 45, 50, 55] ∧
      later.map (·.fired.count ⟨2⟩) = [0, 0, 1, 0, 1, 0, 0, 1, 0, 1] := by
  have hs := @Reachable.create Unit .offline
    { levels := [⟨3, 10, "coarse"⟩, ⟨2, 5, "fine"⟩], start := some 0 } _ rfl
  have hexact := @exact_schedule Unit _ _ _ _
    [(0, .createAt 40 none), (0, .start), (0, .tick)]
    [(0, .advanceTicks 4), (0, .cancel ⟨1⟩), (0, .advanceTicks 6)]
    _ _ 0 0 (.createEvery 12 none) ⟨2⟩ ⟨17, 12⟩ _ hs rfl rfl ⟨by decide, trivial⟩ (by decide) rfl
    (by decide) rfl rfl rfl rfl rfl (by simp [Operation.AsksAbout]) rfl (by decide) (by decide)
  exact ⟨_, hexact.1.trans (by decide), hexact.2.trans (by decide)⟩

end TimingWheel.Scheduler
