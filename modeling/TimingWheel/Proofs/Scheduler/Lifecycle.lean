import TimingWheel.Proofs.Scheduler.Timetable

/-!
# The life of a scheduler

The phase, the levels, the cursors, the pool and the clock are kept apart from each other, and
every operation looks at those that concern it. That they always fit together follows from what
one action can do: it appends a level before the start, it starts the ticks, it stops them, or it
leaves phase, levels and workers as they are, and with them the cursors of a scheduler that does
not run.

The actions of callers and of the tick thread may follow each other in any order. Once the ticks
are stopped nothing but the two tables of requests can change.

## Main definitions

- `Scheduler.Abides` — the scheduler is in the phase in which it was, with the same levels
- `Scheduler.Proceeds` — what one action can do to the life of a scheduler
- `Scheduler.Orderly` — the phase tells whether there are levels and workers
- `Scheduler.Rests` — what no action changes in a scheduler that was stopped

## Main statements

- `Scheduler.proceeds_act` — every action proceeds in one of the four ways
- `Scheduler.Reachable.orderly` — every reachable scheduler is orderly
- `Scheduler.perform_of_stopped` — what operations still do after the stop
- `Scheduler.rests_follow` — no run wakes a scheduler that was stopped
- `Scheduler.lifecycle_safe` — what holds through the life of a scheduler
-/

namespace TimingWheel.Scheduler

variable {τ : Type} {s s' s'' : Scheduler τ}

/-! ### One action -/

/-- Phase, levels and workers are as they were, and so are the cursors unless the scheduler is
running. -/
structure Abides (s s' : Scheduler τ) : Prop where
  phase : s'.phase = s.phase
  specs : Wheel.specsOf s'.agenda.wheel.levels = Wheel.specsOf s.agenda.wheel.levels
  pool : s'.pool.isSome = s.pool.isSome
  faces : s.phase ≠ .running →
    Wheel.faces s'.agenda.wheel.levels = Wheel.faces s.agenda.wheel.levels

theorem Abides.trans (h : Abides s s') (h' : Abides s' s'') : Abides s s'' where
  phase := h'.phase.trans h.phase
  specs := h'.specs.trans h.specs
  pool := h'.pool.trans h.pool
  faces := fun hphase => (h'.faces (h.phase ▸ hphase)).trans (h.faces hphase)

/-- An operation that touches neither the phase nor the wheel nor the pool. -/
theorem abides_of_eq (hphase : s'.agenda.phase = s.agenda.phase)
    (hwheel : s'.agenda.wheel = s.agenda.wheel) (hpool : s'.pool = s.pool) : Abides s s' where
  phase := hphase
  specs := by rw [hwheel]
  pool := by rw [hpool]
  faces := fun _ => by rw [hwheel]

theorem Abides.refl (s : Scheduler τ) : Abides s s := abides_of_eq rfl rfl rfl

theorem abides_register (wall : Int) (make : TimerId → Timer τ) (s : Scheduler τ) :
    Abides s (s.register wall make).2 := by
  by_cases haccepts : s.agenda.phase.acceptsTimers = true
  · rw [register, Agenda.register_of_accepts haccepts]
    exact ⟨rfl, Wheel.specsOf_place _ _ _, rfl, fun _ => Wheel.faces_place _ _ _⟩
  · rw [register, Agenda.register_of_refuses (Bool.not_eq_true _ ▸ haccepts)]
    exact Abides.refl s

theorem abides_requestReset (id : TimerId) (due : Int) (s : Scheduler τ) :
    Abides s (s.resetAt id due) := by
  rw [resetAt, Agenda.requestReset_frame]
  exact abides_of_eq rfl rfl rfl

theorem abides_cancel (id : TimerId) (s : Scheduler τ) : Abides s (s.cancel id) := by
  rw [cancel, Agenda.requestCancel_frame]
  exact abides_of_eq rfl rfl rfl

theorem abides_of_tick {now : Int} (hphase : s.phase = .running)
    (hagenda : s'.agenda = (s.agenda.tick now).2) (hpool : s'.pool.isSome = s.pool.isSome) :
    Abides s s' where
  phase := by
    show s'.agenda.phase = _
    rw [hagenda, Agenda.phase_tick]
    rfl
  specs := by rw [hagenda, Agenda.specsOf_tick]
  pool := hpool
  faces := fun hstill => absurd hphase hstill

theorem abides_tickTimes (wall : Int) (n : Nat) (s : Scheduler τ) :
    Abides s (tickTimes wall n s).2 := by
  induction n generalizing s with
  | zero => exact Abides.refl s
  | succ n ih =>
    rw [tickTimes]
    rcases tick_cases wall s with ⟨reason, htick⟩ |
        ⟨reading, pool, s', -, hphase, hpool, htick, hs'⟩
    · rw [htick]
      exact Abides.refl s
    · rw [htick]
      have hbeat : Abides s s' :=
        abides_of_tick hphase (congrArg agenda hs') (by rw [hs', hpool]; rfl)
      exact hbeat.trans (ih s')

/-- What one action can do to the life of a scheduler. -/
inductive Proceeds (s : Scheduler τ) : Scheduler τ → Prop where
  | abide {s' : Scheduler τ} (h : Abides s s') : Proceeds s s'
  /-- A level is appended. -/
  | grow (spec : LevelSpec) (h : s.phase = .unconfigured ∨ s.phase = .configured) :
      Proceeds s { s with agenda := { s.agenda with
        wheel := ⟨s.agenda.wheel.levels ++ [Level.ofSpec spec]⟩, phase := .configured } }
  /-- There are workers from now on, and ticks can be made. -/
  | start (pool : Pool (Dispatch τ)) (h : s.phase = .configured) :
      Proceeds s { s with pool := some pool, agenda := { s.agenda with phase := .running } }
  | stop (h : s.phase = .running) :
      Proceeds s { s with agenda := { s.agenda with phase := .stopped } }

theorem Proceeds.refl (s : Scheduler τ) : Proceeds s s := .abide (Abides.refl s)

theorem proceeds_appendLevel (spec : LevelSpec) (s : Scheduler τ) :
    Proceeds s (s.appendLevel spec).2 := by
  rw [appendLevel]
  cases happend : s.agenda.append spec with
  | error reason => exact .refl s
  | ok agenda =>
    obtain ⟨-, hphase, rfl⟩ := Agenda.eq_of_append happend
    exact .grow spec hphase

theorem proceeds_start (s : Scheduler τ) : Proceeds s s.start.2 := by
  rw [start]
  cases hphase : s.phase with
  | configured =>
    cases Pool.create s.workers with
    | ok pool => exact .start pool hphase
    | error reason => exact .refl s
  | _ => exact .refl s

theorem proceeds_stop (s : Scheduler τ) : Proceeds s s.stop := by
  rw [stop]
  by_cases hphase : s.phase = .running
  · rw [if_pos hphase]
    exact .stop hphase
  · rw [if_neg hphase]
    exact .refl s

/-- Every action proceeds in one of the four ways. -/
theorem proceeds_act (wall : Int) (s : Scheduler τ) (action : Action τ) :
    Proceeds s (s.act wall action).2 := by
  cases action with
  | call op =>
    cases op with
    | appendLevel spec => exact proceeds_appendLevel spec s
    | start => exact proceeds_start s
    | stop => exact proceeds_stop s
    | createAt due task => exact .abide (abides_register wall (.once · due task) s)
    | createAfter delay task =>
      exact .abide (abides_register wall (.once · (Time.plus (s.now wall) delay) task) s)
    | createEvery interval task =>
      exact .abide (abides_register wall
        (.every · (Time.plus (s.now wall) interval) interval task) s)
    | resetAt id due => exact .abide (abides_requestReset id due s)
    | resetAfter id delay => exact .abide (abides_requestReset id _ s)
    | cancel id => exact .abide (abides_cancel id s)
    | tick =>
      rw [act_tick]
      exact .abide (abides_tickTimes wall 1 s)
    | advanceTicks count =>
      rw [act_advanceTicks]
      exact .abide (abides_tickTimes wall count s)
    | _ => exact .refl s
  | wake =>
    show Proceeds s (s.heartbeat wall).2
    rw [heartbeat]
    by_cases hphase : s.phase = .running
    · rw [if_pos hphase]
      exact .abide (abides_of_tick hphase rfl Option.isSome_map)
    · rw [if_neg hphase]
      exact .refl s
  | wind reading => exact .abide (abides_of_eq rfl rfl rfl)

theorem Proceeds.phase_forward (h : Proceeds s s') :
    s'.phase = s.phase ∨ s'.phase.rank = s.phase.rank + 1 := by
  cases h with
  | abide h => exact Or.inl h.phase
  | grow spec hphase =>
    rcases hphase with hphase | hphase
    · exact Or.inr (by rw [hphase]; rfl)
    · exact Or.inl (by rw [hphase]; rfl)
  | start pool hphase => exact Or.inr (by rw [hphase]; rfl)
  | stop hphase => exact Or.inr (by rw [hphase]; rfl)

/-- Levels are appended before the start only. -/
theorem Proceeds.specs_of_started (h : Proceeds s s')
    (hphase : s.phase = .running ∨ s.phase = .stopped) :
    (s'.phase = .running ∨ s'.phase = .stopped) ∧
      Wheel.specsOf s'.agenda.wheel.levels = Wheel.specsOf s.agenda.wheel.levels := by
  cases h with
  | abide h => exact ⟨h.phase ▸ hphase, h.specs⟩
  | grow spec hgrow => rcases hgrow with hgrow | hgrow <;> simp [hgrow] at hphase
  | start pool hstart => simp [hstart] at hphase
  | stop hstop => exact ⟨Or.inr rfl, rfl⟩

theorem rank_le_follow (s : Scheduler τ) (run : List (Int × Action τ)) :
    s.phase.rank ≤ (s.follow run).2.phase.rank := by
  induction run generalizing s with
  | nil => exact Nat.le_refl _
  | cons step rest ih =>
    obtain ⟨wall, action⟩ := step
    have hrest := ih (s.act wall action).2
    show _ ≤ ((s.act wall action).2.follow rest).2.phase.rank
    rcases (proceeds_act wall s action).phase_forward with hsame | hnext
    · rwa [hsame] at hrest
    · omega

theorem specs_follow_of_started (hphase : s.phase = .running ∨ s.phase = .stopped)
    (run : List (Int × Action τ)) :
    Wheel.specsOf (s.follow run).2.agenda.wheel.levels =
      Wheel.specsOf s.agenda.wheel.levels := by
  induction run generalizing s with
  | nil => rfl
  | cons step rest ih =>
    obtain ⟨hnext, hspecs⟩ := (proceeds_act step.1 s step.2).specs_of_started hphase
    exact (ih hnext).trans hspecs

/-! ### Every reachable scheduler -/

/-- The phase tells whether there are levels and workers, and before the start no cursor has left
its first slot. -/
structure Orderly (s : Scheduler τ) : Prop where
  levels_iff : s.agenda.wheel.levels ≠ [] ↔ s.phase ≠ .unconfigured
  pool_iff : s.pool.isSome = true ↔ s.phase = .running ∨ s.phase = .stopped
  cursors : s.phase = .unconfigured ∨ s.phase = .configured →
    ∀ l ∈ s.agenda.wheel.levels, l.cursor = 0

theorem Orderly.abides (h : Orderly s) (hs' : Abides s s') : Orderly s' where
  levels_iff := by
    rw [hs'.phase, ← h.levels_iff]
    exact ⟨Wheel.ne_nil_of_specsOf_eq hs'.specs.symm, Wheel.ne_nil_of_specsOf_eq hs'.specs⟩
  pool_iff := by rw [hs'.pool, hs'.phase, h.pool_iff]
  cursors := by
    intro hphase l hl
    rw [hs'.phase] at hphase
    have hstill : s.phase ≠ .running := by
      rcases hphase with hphase | hphase <;> simp [hphase]
    -- The cursor of each level is on its face, and the faces are those of the levels before.
    have hface := List.mem_map_of_mem (f := Level.face) hl
    rw [← Wheel.faces, hs'.faces hstill] at hface
    obtain ⟨l₀, hl₀, heq⟩ := List.mem_map.1 hface
    have hcursor : l₀.cursor = l.cursor := congrArg (·.2.1) heq
    rw [← hcursor]
    exact h.cursors hphase l₀ hl₀

theorem Orderly.proceeds (h : Orderly s) (hs' : Proceeds s s') : Orderly s' := by
  cases hs' with
  | abide hs' => exact h.abides hs'
  | grow spec hphase =>
    refine ⟨by simp [phase], ?_, fun _ => ?_⟩
    · show s.pool.isSome = true ↔ Phase.configured = .running ∨ Phase.configured = .stopped
      rw [h.pool_iff]
      rcases hphase with hphase | hphase <;> simp [hphase]
    · exact List.forall_mem_append.2 ⟨h.cursors hphase, List.forall_mem_singleton.2 rfl⟩
  | start pool hphase =>
    have hlevels : s.agenda.wheel.levels ≠ [] := h.levels_iff.2 (by simp [hphase])
    exact ⟨by simp [phase, hlevels], by simp [phase], by simp [phase]⟩
  | stop hphase =>
    have hlevels : s.agenda.wheel.levels ≠ [] := h.levels_iff.2 (by simp [hphase])
    have hpool : s.pool.isSome = true := h.pool_iff.2 (Or.inl hphase)
    exact ⟨by simp [phase, hlevels], by simp [phase, hpool], by simp [phase]⟩

theorem orderly_appendLevels {specs : List LevelSpec} (h : Orderly s)
    (happend : appendLevels specs s = .ok s') : Orderly s' := by
  induction specs generalizing s with
  | nil =>
    obtain rfl := Except.ok.inj happend
    exact h
  | cons spec rest ih =>
    have hnext := h.proceeds (proceeds_appendLevel spec s)
    rw [appendLevels] at happend
    rcases hone : s.appendLevel spec with ⟨reply, s₁⟩
    rw [hone] at happend hnext
    cases reply with
    | error reason => cases happend
    | ok _ => exact ih hnext happend

theorem orderly_create {mode : Mode} {settings : Settings} (h : create mode settings = .ok s) :
    Orderly s := by
  rw [create] at h
  split at h
  · cases h
  · split at h
    · cases h
    · refine orderly_appendLevels ?_ h
      exact ⟨by simp [phase], by simp [phase], fun _ l hl => absurd hl List.not_mem_nil⟩

/-- Every reachable scheduler is orderly. -/
theorem Reachable.orderly (h : Reachable s) : Orderly s := by
  induction h with
  | create h => exact orderly_create h
  | act _ wall action ih => exact ih.proceeds (proceeds_act wall _ action)

/-! ### Ticks and registrations -/

theorem tick_of_not_running (hphase : s.phase ≠ .running) (wall : Int) :
    ∃ reason, s.tick wall = (.error reason, s) := by
  rcases tick_cases wall s with hrefused | ⟨reading, pool, s', -, hrunning, -⟩
  · exact hrefused
  · exact absurd hrunning hphase

theorem tickTimes_of_not_running (hphase : s.phase ≠ .running) (wall : Int) (n : Nat) :
    tickTimes wall n s = ([], s) := by
  cases n with
  | zero => rfl
  | succ n =>
    obtain ⟨reason, htick⟩ := tick_of_not_running hphase wall
    rw [tickTimes, htick]

/-- Ticks are made by a running scheduler only. -/
theorem no_beat_of_not_running (hphase : s.phase ≠ .running) (wall : Int) (action : Action τ) :
    (s.act wall action).1 = [] := by
  cases action with
  | call op =>
    cases op with
    | tick => rw [act_tick, tickTimes_of_not_running hphase]
    | advanceTicks count => rw [act_advanceTicks, tickTimes_of_not_running hphase]
    | _ => rfl
  | wake => exact if_neg hphase
  | wind reading => rfl

theorem acceptsTimers_iff (phase : Phase) :
    phase.acceptsTimers = true ↔ phase = .configured ∨ phase = .running := by
  cases phase <;> decide

/-- A registration is answered with a handle that counts, and the timer is pending, exactly while
the levels are laid and the ticks not stopped. -/
theorem register_iff_accepts (h : s.agenda.Balanced []) (wall : Int)
    (make : TimerId → Timer τ) :
    let r := s.register wall make
    (r.1.isValid = true ↔ s.phase = .configured ∨ s.phase = .running) ∧
      (r.1.isValid = true → r.2.agenda.isPending r.1 = true) ∧
      (r.1.isValid = false → r.2 = s) := by
  intro r
  by_cases haccepts : s.agenda.phase.acceptsTimers = true
  · have hr : r = (⟨s.agenda.nextId⟩, _) := congrArg (fun p : TimerId × Agenda τ =>
      (p.1, { s with agenda := p.2 })) (Agenda.register_of_accepts haccepts make (s.now wall))
    have hvalid : r.1.isValid = true := by
      rw [hr]
      exact TimerId.isValid_iff.2 h.nextId_pos
    refine ⟨iff_of_true hvalid ((acceptsTimers_iff _).1 haccepts), fun _ => ?_, fun hno => ?_⟩
    · rw [hr]
      simp [Agenda.isPending]
    · rw [hvalid] at hno
      cases hno
  · have hr : r = (.invalid, s) := congrArg (fun p : TimerId × Agenda τ =>
      (p.1, { s with agenda := p.2 })) (Agenda.register_of_refuses
        (Bool.not_eq_true _ ▸ haccepts) make (s.now wall))
    have hinvalid : r.1.isValid = false := by rw [hr]; rfl
    refine ⟨iff_of_false ?_ (fun hphase => haccepts ((acceptsTimers_iff _).2 hphase)), ?_, ?_⟩
    · simp [hinvalid]
    · simp [hinvalid]
    · rw [hr]
      exact fun _ => rfl

theorem registered_of_plan (h : s.agenda.Balanced []) {wall : Int} {op : Operation τ} {plan : Plan}
    (hplan : op.plan? (s.now wall) = some plan) :
    ∃ id, (s.perform wall op).1 = .registered id ∧
      (id.isValid = true ↔ s.phase = .configured ∨ s.phase = .running) ∧
      (id.isValid = true → (s.perform wall op).2.agenda.isPending id = true) ∧
      (id.isValid = false → (s.perform wall op).2 = s) := by
  cases op with
  | createAt due task =>
    exact ⟨_, rfl, register_iff_accepts h wall (.once · due task)⟩
  | createAfter delay task =>
    exact ⟨_, rfl, register_iff_accepts h wall (.once · (Time.plus (s.now wall) delay) task)⟩
  | createEvery interval task =>
    exact ⟨_, rfl, register_iff_accepts h wall
      (.every · (Time.plus (s.now wall) interval) interval task)⟩
  | _ => cases hplan

/-! ### After the stop -/

/-- What no action changes in a scheduler that was stopped. -/
structure Rests (s s' : Scheduler τ) : Prop where
  phase : s'.phase = .stopped
  wheel : s'.agenda.wheel = s.agenda.wheel
  live : s'.agenda.live = s.agenda.live
  pool : s'.pool = s.pool

/-- After the stop an operation changes no more than the two tables of requests. -/
theorem perform_of_stopped (hphase : s.phase = .stopped) (wall : Int) (op : Operation τ) :
    ∃ cancels resets,
      (s.perform wall op).2 = { s with agenda := { s.agenda with cancels, resets } } := by
  have hstill : s.phase ≠ .running := by simp [hphase]
  have hagenda : s.agenda.phase = .stopped := hphase
  have hregister : ∀ make : TimerId → Timer τ, (s.register wall make).2 = s := by
    intro make
    rw [register, Agenda.register_of_refuses (by rw [hagenda]; rfl)]
  cases op with
  | appendLevel spec =>
    refine ⟨s.agenda.cancels, s.agenda.resets, ?_⟩
    show (s.appendLevel spec).2 = s
    rw [appendLevel, Agenda.append, hagenda]
  | start =>
    refine ⟨s.agenda.cancels, s.agenda.resets, ?_⟩
    show s.start.2 = s
    rw [start, hphase]
  | stop => exact ⟨s.agenda.cancels, s.agenda.resets, if_neg hstill⟩
  | createAt due task =>
    exact ⟨s.agenda.cancels, s.agenda.resets, hregister (.once · due task)⟩
  | createAfter delay task =>
    exact ⟨s.agenda.cancels, s.agenda.resets,
      hregister (.once · (Time.plus (s.now wall) delay) task)⟩
  | createEvery interval task =>
    exact ⟨s.agenda.cancels, s.agenda.resets,
      hregister (.every · (Time.plus (s.now wall) interval) interval task)⟩
  | resetAt id due =>
    exact ⟨_, _, congrArg (Scheduler.mk _ _ _ · _) (Agenda.requestReset_frame id due s.agenda)⟩
  | resetAfter id delay =>
    exact ⟨_, _, congrArg (Scheduler.mk _ _ _ · _) (Agenda.requestReset_frame id _ s.agenda)⟩
  | cancel id =>
    exact ⟨_, _, congrArg (Scheduler.mk _ _ _ · _) (Agenda.requestCancel_frame id s.agenda)⟩
  | tick =>
    refine ⟨s.agenda.cancels, s.agenda.resets, (tick_eq_tickTimes wall s).1.trans ?_⟩
    rw [tickTimes_of_not_running hstill]
  | advanceTicks count =>
    refine ⟨s.agenda.cancels, s.agenda.resets, (advanceTicks_eq_tickTimes wall count s).1.trans ?_⟩
    rw [tickTimes_of_not_running hstill]
  | _ => exact ⟨s.agenda.cancels, s.agenda.resets, rfl⟩

theorem rests_act (hphase : s.phase = .stopped) (wall : Int) (action : Action τ) :
    Rests s (s.act wall action).2 ∧
      ((∀ reading, action ≠ .wind reading) → (s.act wall action).2.clock = s.clock) := by
  cases action with
  | call op =>
    obtain ⟨cancels, resets, hop⟩ := perform_of_stopped hphase wall op
    show Rests s (s.perform wall op).2 ∧ (_ → (s.perform wall op).2.clock = s.clock)
    rw [hop]
    exact ⟨⟨hphase, rfl, rfl, rfl⟩, fun _ => rfl⟩
  | wake =>
    have hstill : s.phase ≠ .running := by simp [hphase]
    show Rests s (s.heartbeat wall).2 ∧ (_ → (s.heartbeat wall).2.clock = s.clock)
    rw [heartbeat, if_neg hstill]
    exact ⟨⟨hphase, rfl, rfl, rfl⟩, fun _ => rfl⟩
  | wind reading => exact ⟨⟨hphase, rfl, rfl, rfl⟩, fun hwind => absurd rfl (hwind reading)⟩

/-- No run wakes a scheduler that was stopped. -/
theorem rests_follow (hphase : s.phase = .stopped) (run : List (Int × Action τ)) :
    (s.follow run).1 = [] ∧ Rests s (s.follow run).2 ∧
      ((∀ step ∈ run, ∀ reading, step.2 ≠ .wind reading) →
        (s.follow run).2.clock = s.clock) := by
  induction run generalizing s with
  | nil => exact ⟨rfl, ⟨hphase, rfl, rfl, rfl⟩, fun _ => rfl⟩
  | cons step rest ih =>
    obtain ⟨wall, action⟩ := step
    obtain ⟨hstep, hclock⟩ := rests_act hphase wall action
    obtain ⟨hbeats, hrest, hlater⟩ := ih hstep.phase
    have hstill : s.phase ≠ .running := by simp [hphase]
    have hno := no_beat_of_not_running hstill wall action
    refine ⟨?_, ⟨hrest.phase, hrest.wheel.trans hstep.wheel, hrest.live.trans hstep.live,
      hrest.pool.trans hstep.pool⟩, ?_⟩
    · show (s.act wall action).1 ++ ((s.act wall action).2.follow rest).1 = []
      rw [hno, hbeats]
      rfl
    · intro hwind
      obtain ⟨hfirst, hothers⟩ := List.forall_mem_cons.1 hwind
      exact (hlater hothers).trans (hclock hfirst)

/-! ### The whole life -/

/-- In every reachable scheduler, whatever callers and the tick thread did to it,
* an action leaves the phase as it is or moves it on by one, and no run ever moves it back;
* there are levels exactly if the phase is not the first one, and workers exactly once the ticks
  were started;
* a registration is accepted exactly between the first level and the stop, and one that is
  refused changes nothing;
* from the start on the levels stay what they are, and before it all cursors are on their first
  slots;
* only a running scheduler makes ticks: otherwise a caller is refused one, the tick thread finds
  nothing to do, and no action leaves a beat;
* after the stop no run leaves a beat, and whatever it consists of, the wheel, the pending
  timers, the pool and the phase stay as they are, and so does the clock unless it is set by
  hand. -/
theorem lifecycle_safe (h : Reachable s) :
    (∀ wall action, (s.act wall action).2.phase = s.phase ∨
      (s.act wall action).2.phase.rank = s.phase.rank + 1) ∧
    (∀ run, s.phase.rank ≤ (s.follow run).2.phase.rank) ∧
    (s.agenda.wheel.levels ≠ [] ↔ s.phase ≠ .unconfigured) ∧
    (s.pool.isSome = true ↔ s.phase = .running ∨ s.phase = .stopped) ∧
    (∀ wall op plan, Operation.plan? (s.now wall) op = some plan →
      ∃ id, (s.perform wall op).1 = .registered id ∧
        (id.isValid = true ↔ s.phase = .configured ∨ s.phase = .running) ∧
        (id.isValid = true → (s.perform wall op).2.agenda.isPending id = true) ∧
        (id.isValid = false → (s.perform wall op).2 = s)) ∧
    (s.phase = .running ∨ s.phase = .stopped → ∀ run,
      Wheel.specsOf (s.follow run).2.agenda.wheel.levels =
        Wheel.specsOf s.agenda.wheel.levels) ∧
    (s.phase = .unconfigured ∨ s.phase = .configured →
      ∀ l ∈ s.agenda.wheel.levels, l.cursor = 0) ∧
    (s.phase ≠ .running → ∀ wall,
      (∃ reason, s.tick wall = (.error reason, s)) ∧ s.heartbeat wall = ([], s) ∧
        ∀ action, (s.act wall action).1 = []) ∧
    (s.phase = .stopped → ∀ run,
      (s.follow run).1 = [] ∧
      (s.follow run).2.phase = .stopped ∧
      (s.follow run).2.agenda.wheel = s.agenda.wheel ∧
      (s.follow run).2.agenda.live = s.agenda.live ∧
      (s.follow run).2.pool = s.pool ∧
      ((∀ step ∈ run, ∀ reading, step.2 ≠ .wind reading) →
        (s.follow run).2.clock = s.clock)) := by
  have horderly : Orderly s := h.orderly
  refine ⟨fun wall action => (proceeds_act wall s action).phase_forward, rank_le_follow s,
    horderly.levels_iff, horderly.pool_iff, fun _ _ _ => registered_of_plan h.balanced,
    specs_follow_of_started, horderly.cursors,
    fun hphase wall => ⟨tick_of_not_running hphase wall, if_neg hphase,
      no_beat_of_not_running hphase wall⟩, ?_⟩
  intro hphase run
  obtain ⟨hbeats, hrests, hclock⟩ := rests_follow hphase run
  exact ⟨hbeats, hrests.phase, hrests.wheel, hrests.live, hrests.pool, hclock⟩

/-- With a timer that is still held when the ticks stop. -/
theorem lifecycle_safe_stopped_early : ∃ s : Scheduler Unit, Reachable s ∧
    s.phase = .stopped ∧ s.agenda.live = [⟨1⟩] ∧
    (s.follow [(0, .call .start), (0, .call (.advanceTicks 9)), (0, .wake)]).1 = [] := by
  have hnew := @Reachable.create Unit .offline { levels := [⟨10, 10, "fine"⟩] } _ rfl
  have hrun := hnew.follow [(0, .call (.createAt 50 none)), (0, .call .start), (0, .call .tick),
    (0, .call .stop)]
  exact ⟨_, hrun, rfl, rfl, ((lifecycle_safe hrun).2.2.2.2.2.2.2.2 rfl _).1⟩

end TimingWheel.Scheduler
