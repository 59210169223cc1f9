import TimingWheel.Proofs.Agenda.History
import TimingWheel.Scheduler.Operation

/-!
# Runs of a scheduler

A run is a sequence of actions: a caller performs an operation, the tick thread wakes, or the
clock is set by hand. In between the wall clock shows whatever it shows. Each action amounts to
moves of the agenda, so that what holds of all moves holds of all runs.

A tick that is made leaves a beat behind: the reading of the clock and the handles answered. An
operation that makes several ticks leaves as many beats, while its reply only joins the handles.

## Main definitions

- `Beat` — one tick that was made
- `Scheduler.tickTimes`, `Scheduler.beatsOf` — the beats of ticks made by the caller
- `Scheduler.Action`, `Scheduler.act`, `Scheduler.follow` — actions and runs
- `Scheduler.movesOf`, `Scheduler.movesAlong` — the moves that they amount to
- `Scheduler.Reachable` — the schedulers that runs lead to

## Main statements

- `Scheduler.tick_cases` — what a tick made by the caller does
- `Scheduler.reply_eq_fired` — the reply to ticks joins what their beats have fired
- `Scheduler.explained_act`, `Scheduler.explained_follow` — actions and runs as moves
- `Scheduler.readings_movesAlong`, `Scheduler.rounds_movesAlong` — the ticks among these moves and
  what they answer are the beats
- `Scheduler.Reachable.balanced` — the books of every reachable scheduler are in order
-/

namespace TimingWheel

variable {τ : Type}

/-- A tick that was made. -/
structure Beat where
  /-- What the clock showed at the tick. -/
  reading : Int
  /-- The handles of the timers that fired, in slot order. -/
  fired : List TimerId
deriving DecidableEq, Repr

namespace Scheduler

/-! ### Ticks made by the caller -/

/-- A tick made by the caller is refused, or it moves a clock kept by hand on by one period and
then makes a tick of the agenda at the new reading. -/
theorem tick_cases (wall : Int) (s : Scheduler τ) :
    (∃ reason, s.tick wall = (.error reason, s)) ∨
      ∃ reading pool s', s.clock = .manual reading ∧ s.phase = .running ∧ s.pool = some pool ∧
        let now := Time.wrap (reading + max (Time.wrap s.period) 0)
        s.tick wall = (.ok ((s.agenda.tick now).1.map (·.id)), s') ∧
          s' = { s with
            clock := .manual now
            agenda := (s.agenda.tick now).2
            pool := some (pool.submitAll ((s.agenda.tick now).1.filterMap Timer.dispatch?)) } := by
  cases hclock : s.clock with
  | wall =>
    refine Or.inl ⟨.notOffline, if_pos ?_⟩
    rw [mode, hclock]
    rfl
  | manual reading =>
    have hmode : s.mode ≠ .realtime := by
      rw [mode, hclock]
      exact Mode.noConfusion
    rw [tick]
    rw [if_neg hmode]
    cases hpool : s.pool with
    | none => exact Or.inl ⟨.notRunning, by simp⟩
    | some pool =>
      by_cases hphase : s.phase = .running
      · refine Or.inr ⟨reading, pool, _, rfl, hphase, rfl, ?_, rfl⟩
        simp [hphase, beat, now, Clock.advance, Clock.now, hclock]
      · exact Or.inl ⟨.notRunning, by simp [hphase]⟩

/-- Makes ticks by hand until one is refused, and keeps a beat of each. -/
def tickTimes (wall : Int) : Nat → Scheduler τ → List Beat × Scheduler τ
  | 0, s => ([], s)
  | n + 1, s =>
    match s.tick wall with
    | (.error _, s) => ([], s)
    | (.ok fired, s) =>
      let (beats, s') := tickTimes wall n s
      ({ reading := s.now wall, fired } :: beats, s')

theorem advanceTicks_eq_tickTimes (wall : Int) (n : Nat) (s : Scheduler τ) :
    (s.advanceTicks wall n).2 = (tickTimes wall n s).2 ∧
      ∀ ids, (s.advanceTicks wall n).1 = .ok ids →
        ids = (tickTimes wall n s).1.flatMap Beat.fired := by
  induction n generalizing s with
  | zero => exact ⟨rfl, fun ids h => (Except.ok.inj h).symm⟩
  | succ n ih =>
    rcases htick : s.tick wall with ⟨reply, s'⟩
    cases reply with
    | error reason =>
      simp only [advanceTicks, tickTimes, htick]
      exact ⟨trivial, fun ids h => absurd h (by simp)⟩
    | ok fired =>
      -- The reply of the later ticks is only used where they were all made.
      obtain ⟨hstate, hreply⟩ := ih s'
      rcases hlater : s'.advanceTicks wall n with ⟨reply, s''⟩
      rw [hlater] at hstate hreply
      simp only [advanceTicks, tickTimes, htick, hlater]
      cases reply with
      | error reason => exact ⟨hstate, fun ids h => absurd h (by simp)⟩
      | ok later =>
        refine ⟨hstate, ?_⟩
        intro ids h
        rw [← Except.ok.inj h, List.flatMap_cons, ← hreply later rfl]

/-- The beats of an operation. -/
def beatsOf (wall : Int) (s : Scheduler τ) : Operation τ → List Beat
  | .tick => (tickTimes wall 1 s).1
  | .advanceTicks count => (tickTimes wall count s).1
  | _ => []

theorem tick_eq_tickTimes (wall : Int) (s : Scheduler τ) :
    (s.tick wall).2 = (tickTimes wall 1 s).2 ∧
      ∀ ids, (s.tick wall).1 = .ok ids → ids = (tickTimes wall 1 s).1.flatMap Beat.fired := by
  unfold tickTimes tickTimes
  rcases htick : s.tick wall with ⟨reply, s'⟩
  cases reply with
  | error reason => exact ⟨rfl, fun ids h => absurd h (by simp)⟩
  | ok fired =>
    refine ⟨rfl, ?_⟩
    intro ids h
    rw [← Except.ok.inj h]
    simp

/-- The reply to ticks joins what their beats have fired. -/
theorem reply_eq_fired (wall : Int) (s : Scheduler τ) (op : Operation τ) {ids : List TimerId}
    (h : (s.perform wall op).1 = .fired ids) : ids = (s.beatsOf wall op).flatMap Beat.fired := by
  cases op with
  | tick =>
    simp only [perform, Prod.map] at h
    cases hreply : (s.tick wall).1 with
    | error reason => rw [hreply] at h; cases h
    | ok fired =>
      rw [hreply] at h
      obtain rfl := Reply.fired.inj h
      exact (tick_eq_tickTimes wall s).2 _ hreply
  | advanceTicks count =>
    simp only [perform, Prod.map] at h
    cases hreply : (s.advanceTicks wall count).1 with
    | error reason => rw [hreply] at h; cases h
    | ok fired =>
      rw [hreply] at h
      obtain rfl := Reply.fired.inj h
      exact (advanceTicks_eq_tickTimes wall count s).2 _ hreply
  | appendLevel spec =>
    simp only [perform, Prod.map, Reply.ofUnit] at h
    split at h <;> cases h
  | start =>
    simp only [perform, Prod.map, Reply.ofUnit] at h
    split at h <;> cases h
  | _ => cases h

/-! ### Runs -/

/-- What can happen to a scheduler. -/
inductive Action (τ : Type) where
  /-- A caller performs an operation. -/
  | call (op : Operation τ)
  /-- The tick thread wakes. -/
  | wake
  /-- The clock is set by hand. -/
  | wind (reading : Int)
deriving Repr

/-- What comes of an action while the wall clock shows `wall`: the beats and the scheduler. -/
def act (wall : Int) (s : Scheduler τ) : Action τ → List Beat × Scheduler τ
  | .call op => (s.beatsOf wall op, (s.perform wall op).2)
  | .wake =>
    let beats : List Beat :=
      if s.phase = .running then [⟨s.now wall, (s.heartbeat wall).1⟩] else []
    (beats, (s.heartbeat wall).2)
  | .wind reading => ([], { s with clock := s.clock.set reading })

/-- What comes of a tick made by the caller. -/
theorem act_tick (wall : Int) (s : Scheduler τ) :
    s.act wall (.call .tick) = tickTimes wall 1 s := Prod.ext rfl (tick_eq_tickTimes wall s).1

theorem act_advanceTicks (wall : Int) (s : Scheduler τ) (count : Nat) :
    s.act wall (.call (.advanceTicks count)) = tickTimes wall count s :=
  Prod.ext rfl (advanceTicks_eq_tickTimes wall count s).1

/-- Actions one after the other, each with what the wall clock shows at its time. -/
def follow (s : Scheduler τ) : List (Int × Action τ) → List Beat × Scheduler τ
  | [] => ([], s)
  | (wall, action) :: rest =>
    let (beats, s) := s.act wall action
    let (later, s) := s.follow rest
    (beats ++ later, s)

theorem follow_append (s : Scheduler τ) (run later : List (Int × Action τ)) :
    s.follow (run ++ later) =
      ((s.follow run).1 ++ ((s.follow run).2.follow later).1,
        ((s.follow run).2.follow later).2) := by
  induction run generalizing s with
  | nil => rfl
  | cons step rest ih =>
    obtain ⟨wall, action⟩ := step
    simp only [List.cons_append, follow, ih, List.append_assoc]

/-- The moves of the agenda that an action amounts to. -/
def movesOf (wall : Int) (s : Scheduler τ) : Action τ → List (Agenda.Move τ)
  | .call (.appendLevel spec) => [.append spec]
  | .call .start => if s.workers = 0 then [] else [.start]
  | .call .stop => [.stop]
  | .call (.createAt due task) => [.register due 0 task (s.now wall)]
  | .call (.createAfter delay task) =>
    [.register (Time.plus (s.now wall) delay) 0 task (s.now wall)]
  | .call (.createEvery interval task) =>
    [.register (Time.plus (s.now wall) interval) interval task (s.now wall)]
  | .call (.resetAt id due) => [.reset id due]
  | .call (.resetAfter id delay) => [.reset id (Time.plus (s.now wall) delay)]
  | .call (.cancel id) => [.cancel id]
  | action => (s.act wall action).1.map fun beat => .tick beat.reading

/-- The moves of the agenda that a run amounts to. -/
def movesAlong (s : Scheduler τ) : List (Int × Action τ) → List (Agenda.Move τ)
  | [] => []
  | (wall, action) :: rest =>
    s.movesOf wall action ++ (s.act wall action).2.movesAlong rest

/-- The moves lead a history of the scheduler to one of what came of it, and the handles that
they answer are those of the beats. -/
structure Explained (s : Scheduler τ) (moves : List (Agenda.Move τ))
    (r : List Beat × Scheduler τ) : Prop where
  agenda : ∀ h : History τ, h.agenda = s.agenda → (h.after moves).agenda = r.2.agenda
  fired : ∀ h : History τ, h.agenda = s.agenda →
    (h.after moves).fired = h.fired ++ r.1.flatMap Beat.fired

theorem explained_nil {s s' : Scheduler τ} (h : s'.agenda = s.agenda) :
    Explained s [] ([], s') where
  agenda := fun _ hs => hs.trans h.symm
  fired := fun h _ => (List.append_nil h.fired).symm

/-- One move that is not a tick and that changes the agenda as the action does. -/
theorem explained_single {s s' : Scheduler τ} {m : Agenda.Move τ}
    (h : s'.agenda = s.agenda.move m) (hm : s.agenda.answers m = []) :
    Explained s [m] ([], s') where
  agenda := fun g hg => by rw [h, ← hg]; rfl
  fired := fun g hg => by
    show g.fired ++ g.agenda.answers m = _
    rw [hg, hm]
    rfl

theorem explained_beat {s s' : Scheduler τ} {now : Int}
    (h : s'.agenda = (s.agenda.tick now).2) :
    Explained s [.tick now] ([⟨now, (s.agenda.tick now).1.map (·.id)⟩], s') where
  agenda := fun g hg => by rw [h, ← hg]; rfl
  fired := fun g hg => by
    show g.fired ++ (g.agenda.tick now).1.map (·.id) = _
    rw [hg, List.flatMap_singleton]

theorem Explained.trans {s s' s'' : Scheduler τ} {moves later : List (Agenda.Move τ)}
    {beats beats' : List Beat} (h : Explained s moves (beats, s'))
    (hlater : Explained s' later (beats', s'')) :
    Explained s (moves ++ later) (beats ++ beats', s'') where
  agenda := fun g hg => by
    rw [History.after_append]
    exact hlater.agenda _ (h.agenda g hg)
  fired := fun g hg => by
    rw [History.after_append, hlater.fired _ (h.agenda g hg), h.fired g hg, List.append_assoc,
      List.flatMap_append]

theorem explained_tickTimes (wall : Int) (n : Nat) (s : Scheduler τ) :
    Explained s ((tickTimes wall n s).1.map fun beat => .tick beat.reading)
      (tickTimes wall n s) := by
  induction n generalizing s with
  | zero => exact explained_nil rfl
  | succ n ih =>
    rw [tickTimes]
    rcases tick_cases wall s with ⟨reason, htick⟩ | ⟨reading, pool, s', -, -, -, htick, rfl⟩
    · rw [htick]
      exact explained_nil rfl
    · rw [htick]
      exact (explained_beat rfl).trans (ih _)

theorem explained_act (wall : Int) (s : Scheduler τ) (action : Action τ) :
    Explained s (s.movesOf wall action) (s.act wall action) := by
  cases action with
  | call op =>
    cases op with
    | appendLevel spec =>
      refine explained_single ?_ rfl
      simp only [perform, appendLevel, Prod.map, Agenda.move]
      cases s.agenda.append spec <;> rfl
    | start =>
      simp only [movesOf, act, beatsOf, perform, start, Prod.map, phase, Pool.create]
      split
      next hworkers =>
        refine explained_nil ?_
        cases s.agenda.phase <;> rfl
      next hworkers =>
        refine explained_single ?_ rfl
        cases hphase : s.agenda.phase <;> simp [hphase, Agenda.move]
    | stop =>
      refine explained_single ?_ rfl
      by_cases hphase : s.phase = .running
      · exact (congrArg agenda (if_pos hphase)).trans (if_pos hphase).symm
      · exact (congrArg agenda (if_neg hphase)).trans (if_neg hphase).symm
    | createAt due task => exact explained_single rfl rfl
    | createAfter delay task => exact explained_single rfl rfl
    | createEvery interval task => exact explained_single rfl rfl
    | resetAt id due => exact explained_single rfl rfl
    | resetAfter id delay => exact explained_single rfl rfl
    | cancel id => exact explained_single rfl rfl
    | tick =>
      have hticks := explained_tickTimes wall 1 s
      rw [← act_tick] at hticks
      exact hticks
    | advanceTicks count =>
      have hticks := explained_tickTimes wall count s
      rw [← act_advanceTicks] at hticks
      exact hticks
    | _ => exact explained_nil rfl
  | wake =>
    simp only [movesOf, act, heartbeat]
    split
    · exact explained_beat rfl
    · exact explained_nil rfl
  | wind reading => exact explained_nil rfl

/-- Every run is explained by its moves. -/
theorem explained_follow (s : Scheduler τ) (run : List (Int × Action τ)) :
    Explained s (s.movesAlong run) (s.follow run) := by
  induction run generalizing s with
  | nil => exact explained_nil rfl
  | cons step rest ih =>
    obtain ⟨wall, action⟩ := step
    exact (explained_act wall s action).trans (ih _)

/-! ### The beats of a run -/

theorem readings_ticks (beats : List Beat) :
    (beats.map fun beat => (.tick beat.reading : Agenda.Move τ)).filterMap Agenda.Move.reading? =
      beats.map Beat.reading := by
  rw [List.filterMap_map]
  exact congrFun (List.filterMap_eq_map (f := Beat.reading)) beats

/-- The ticks among the moves of an action are its beats. -/
theorem readings_movesOf (wall : Int) (s : Scheduler τ) (action : Action τ) :
    (s.movesOf wall action).filterMap Agenda.Move.reading? =
      (s.act wall action).1.map Beat.reading := by
  unfold movesOf
  split
  case h_2 => split <;> rfl
  case h_10 => exact readings_ticks _
  all_goals rfl

theorem rounds_tickTimes (wall : Int) (n : Nat) (s : Scheduler τ) {h : History τ}
    (hs : h.agenda = s.agenda) :
    h.rounds ((tickTimes wall n s).1.map fun beat => .tick beat.reading) =
      (tickTimes wall n s).1.map Beat.fired := by
  induction n generalizing s h with
  | zero => rfl
  | succ n ih =>
    rw [tickTimes]
    rcases tick_cases wall s with ⟨reason, htick⟩ | ⟨reading, pool, s', -, -, -, htick, rfl⟩
    · rw [htick]
      rfl
    · rw [htick]
      simp only [List.map_cons, History.rounds, hs]
      refine congrArg _ (ih _ ?_)
      show h.agenda.move (.tick _) = _
      rw [hs]
      rfl

theorem rounds_movesOf (wall : Int) (s : Scheduler τ) (action : Action τ) {h : History τ}
    (hs : h.agenda = s.agenda) :
    h.rounds (s.movesOf wall action) = (s.act wall action).1.map Beat.fired := by
  cases action with
  | call op =>
    cases op with
    | start =>
      simp only [movesOf]
      split <;> rfl
    | tick => exact rounds_tickTimes wall 1 s hs
    | advanceTicks count => exact rounds_tickTimes wall count s hs
    | _ => rfl
  | wake =>
    simp only [movesOf, act, heartbeat]
    split
    · simp only [List.map_cons, List.map_nil, History.rounds, hs]
      rfl
    · rfl
  | wind reading => rfl

/-- The ticks among the moves of a run are its beats. -/
theorem readings_movesAlong (s : Scheduler τ) (run : List (Int × Action τ)) :
    (s.movesAlong run).filterMap Agenda.Move.reading? = (s.follow run).1.map Beat.reading := by
  induction run generalizing s with
  | nil => rfl
  | cons step rest ih =>
    obtain ⟨wall, action⟩ := step
    rw [movesAlong, List.filterMap_append, readings_movesOf, ih, ← List.map_append]
    rfl

/-- What these ticks answer is what the beats have fired. -/
theorem rounds_movesAlong (s : Scheduler τ) (run : List (Int × Action τ)) {h : History τ}
    (hs : h.agenda = s.agenda) :
    h.rounds (s.movesAlong run) = (s.follow run).1.map Beat.fired := by
  induction run generalizing s h with
  | nil => rfl
  | cons step rest ih =>
    obtain ⟨wall, action⟩ := step
    have hafter := (explained_act wall s action).agenda h hs
    rw [movesAlong, History.rounds_append, rounds_movesOf wall s action hs, ih _ hafter,
      ← List.map_append]
    rfl

/-! ### Reachable schedulers -/

/-- A scheduler that was made from settings which are not at fault, and whatever became of it. -/
inductive Reachable : Scheduler τ → Prop where
  | create {mode : Mode} {settings : Settings} {s : Scheduler τ}
      (h : create mode settings = .ok s) : Reachable s
  | act {s : Scheduler τ} (h : Reachable s) (wall : Int) (action : Action τ) :
      Reachable (s.act wall action).2

theorem balanced_appendLevels {specs : List LevelSpec} {s s' : Scheduler τ}
    (hs : s.agenda.Balanced []) (h : appendLevels specs s = .ok s') : s'.agenda.Balanced [] := by
  induction specs generalizing s with
  | nil =>
    obtain rfl := Except.ok.inj h
    exact hs
  | cons spec rest ih =>
    simp only [appendLevels, appendLevel] at h
    cases happend : s.agenda.append spec with
    | error reason => simp [happend] at h
    | ok agenda =>
      simp only [happend] at h
      exact ih (Agenda.balanced_append hs happend) h

theorem balanced_create {mode : Mode} {settings : Settings} {s : Scheduler τ}
    (h : create mode settings = .ok s) : s.agenda.Balanced [] := by
  rw [create] at h
  split at h
  · cases h
  · split at h
    · cases h
    · exact balanced_appendLevels Agenda.balanced_empty h

theorem balanced_act {s : Scheduler τ} (h : s.agenda.Balanced []) (wall : Int)
    (action : Action τ) : (s.act wall action).2.agenda.Balanced [] := by
  rw [← (explained_act wall s action).agenda { agenda := s.agenda } rfl]
  exact History.balanced_after h _

/-- The books of every reachable scheduler are in order. -/
theorem Reachable.balanced {s : Scheduler τ} (h : Reachable s) : s.agenda.Balanced [] := by
  induction h with
  | create h => exact balanced_create h
  | act _ wall action ih => exact balanced_act ih wall action

theorem Reachable.follow {s : Scheduler τ} (h : Reachable s) (run : List (Int × Action τ)) :
    Reachable (s.follow run).2 := by
  induction run generalizing s with
  | nil => exact h
  | cons step rest ih => exact ih (h.act step.1 step.2)

end Scheduler

end TimingWheel
