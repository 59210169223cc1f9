import TimingWheel.Proofs.Scheduler.Isolation

/-!
# Refusals leave no trace

Each operation looks at everything that could stand in its way before it changes anything. One that
is refused therefore leaves the scheduler as it was, down to the reading of the clock and to the
handle of the next registration. The operations that can be refused half way are those that take
several steps: a row of ticks, and a start that asks the system for threads. A row of ticks is
refused at its first tick or not at all, since a tick leaves alone what decides about the next one.

So the handles count the registrations that were accepted, whatever was refused in between.

## Main definitions

- `Scheduler.Ready` — ticks made by the caller are not refused
- `Scheduler.handle?`, `Scheduler.handlesAlong` — the handles that an action and a run give out

## Main statements

- `Scheduler.perform_refused`, `Scheduler.startOn_refused` — an operation that is refused changes
  nothing
- `Scheduler.register_refused` — nor does a registration
- `Scheduler.handlesAlong_eq` — the handles of a run follow each other without a gap
- `Scheduler.refusals_leave_no_trace` — all of this together
-/

namespace TimingWheel

/-- Where the system refuses no thread a pool is made as usual. -/
theorem Pool.createOn_none {β : Type} (size : Nat) :
    (createOn (fun _ => none) size : Except Fault (Pool β)) = create size := by
  have hnone : (List.range size).findSome? (fun _ => (none : Option String)) = none :=
    List.findSome?_eq_none_iff.2 fun _ _ => rfl
  rw [createOn, create, hnone]

namespace Scheduler

variable {τ : Type} {s s' : Scheduler τ} {wall : Int}

/-! ### Operations that may be refused -/

/-- Where the system refuses no thread a scheduler starts as usual. -/
theorem startOn_none (s : Scheduler τ) : s.startOn (fun _ => none) = s.start := by
  rw [startOn, start]
  rw [Pool.createOn_none, ite_self]
  cases s.phase with
  | configured => cases Pool.create s.workers <;> rfl
  | _ => rfl

/-- A start that is refused, be it for want of a thread, changes nothing. -/
theorem startOn_refused {spawn : Nat → Option String} {reason : Fault}
    (h : (s.startOn spawn).1 = .error reason) : (s.startOn spawn).2 = s := by
  rw [startOn] at h ⊢
  cases hphase : s.phase with
  | configured =>
    rw [hphase] at h
    cases hpool : (Pool.createOn spawn s.workers : Except Fault (Pool (Dispatch τ))) with
    | error reason => rfl
    | ok pool =>
      rw [hpool] at h
      cases hspawn : (if s.mode = .realtime then spawn s.workers else none : Option String) with
      | some reason => rfl
      | none =>
        rw [hspawn] at h
        cases h
  | _ => rfl

theorem appendLevel_refused {spec : LevelSpec} {reason : Fault}
    (h : (s.appendLevel spec).1 = .error reason) : (s.appendLevel spec).2 = s := by
  rw [appendLevel] at h ⊢
  cases happend : s.agenda.append spec with
  | error reason => rfl
  | ok agenda =>
    rw [happend] at h
    cases h

/-- Ticks made by the caller are not refused. -/
structure Ready (s : Scheduler τ) : Prop where
  manual : ∃ reading, s.clock = .manual reading
  running : s.phase = .running
  pool : s.pool.isSome = true

theorem Ready.tick_ok (h : Ready s) (wall : Int) : ∃ ids, (s.tick wall).1 = .ok ids := by
  obtain ⟨reading, hclock⟩ := h.manual
  obtain ⟨pool, hpool⟩ := Option.isSome_iff_exists.1 h.pool
  have hmode : s.mode ≠ .realtime := by
    rw [mode, hclock]
    exact Mode.noConfusion
  refine ⟨(beat wall { s with clock := s.clock.advance (Time.wrap s.period) }).1, ?_⟩
  rw [tick, if_neg hmode, if_neg (by simp [hpool, h.running])]

/-- After a tick that was made the next one can be made, too. -/
theorem ready_of_tick {ids : List TimerId} (h : s.tick wall = (.ok ids, s')) : Ready s' := by
  rcases tick_cases wall s with ⟨reason, htick⟩ | ⟨reading, pool, s'', -, hphase, -, htick, hs''⟩
  · rw [htick] at h
    cases h
  · rw [htick] at h
    obtain ⟨-, rfl⟩ := Prod.mk.inj h
    rw [hs'']
    exact ⟨⟨_, rfl⟩, (Agenda.phase_tick _ _).trans hphase, rfl⟩

theorem tick_refused {reason : Fault} (h : (s.tick wall).1 = .error reason) :
    (s.tick wall).2 = s := by
  rcases tick_cases wall s with ⟨reason', htick⟩ | ⟨reading, pool, s', -, -, -, htick, -⟩
  · rw [htick]
  · rw [htick] at h
    cases h

theorem Ready.advanceTicks_ok (h : Ready s) (wall : Int) (n : Nat) :
    ∃ ids, (s.advanceTicks wall n).1 = .ok ids := by
  induction n generalizing s with
  | zero => exact ⟨[], rfl⟩
  | succ n ih =>
    obtain ⟨ids, hids⟩ := h.tick_ok wall
    rcases htick : s.tick wall with ⟨reply, s'⟩
    rw [htick] at hids
    obtain rfl : reply = .ok ids := hids
    obtain ⟨later, hlater⟩ := ih (ready_of_tick htick)
    rcases hrest : s'.advanceTicks wall n with ⟨reply, s''⟩
    rw [hrest] at hlater
    obtain rfl : reply = .ok later := hlater
    refine ⟨ids ++ later, ?_⟩
    simp only [advanceTicks, htick, hrest]

/-- A row of ticks is refused before the first of them, or not at all. -/
theorem advanceTicks_refused {n : Nat} {reason : Fault}
    (h : (s.advanceTicks wall n).1 = .error reason) : (s.advanceTicks wall n).2 = s := by
  cases n with
  | zero => cases h
  | succ n =>
    rcases htick : s.tick wall with ⟨reply, s'⟩
    cases reply with
    | error reason =>
      have hsame := tick_refused (congrArg Prod.fst htick)
      rw [htick] at hsame
      simp only [advanceTicks, htick]
      exact hsame
    | ok ids =>
      obtain ⟨later, hlater⟩ := (ready_of_tick htick).advanceTicks_ok wall n
      rcases hrest : s'.advanceTicks wall n with ⟨reply, s''⟩
      rw [hrest] at hlater
      obtain rfl : reply = .ok later := hlater
      simp only [advanceTicks, htick, hrest, reduceCtorEq] at h

/-- An operation that is refused changes nothing. -/
theorem perform_refused {op : Operation τ} {reason : Fault}
    (h : (s.perform wall op).1 = .refused reason) : (s.perform wall op).2 = s := by
  have hunit : ∀ {r : Except Fault Unit}, Reply.ofUnit r = .refused reason → r = .error reason := by
    intro r hr
    cases r with
    | error reason' => rw [Reply.refused.inj hr]
    | ok _ => cases hr
  have hfired : ∀ {r : Except Fault (List TimerId)},
      Reply.ofFired r = .refused reason → r = .error reason := by
    intro r hr
    cases r with
    | error reason' => rw [Reply.refused.inj hr]
    | ok _ => cases hr
  cases op with
  | appendLevel spec => exact appendLevel_refused (hunit h)
  | start =>
    have hstart : (s.startOn fun _ => none).1 = .error reason := by
      rw [startOn_none]
      exact hunit h
    have hsame := startOn_refused hstart
    rwa [startOn_none] at hsame
  | tick => exact tick_refused (hfired h)
  | advanceTicks count => exact advanceTicks_refused (hfired h)
  | _ => cases h

/-! ### Registrations and requests -/

/-- A registration that is refused changes nothing. -/
theorem register_refused (hpos : 0 < s.agenda.nextId) {make : TimerId → Timer τ}
    (h : (s.register wall make).1 = .invalid) : (s.register wall make).2 = s := by
  rw [register] at h ⊢
  by_cases haccepts : s.agenda.phase.acceptsTimers = true
  · rw [Agenda.register_of_accepts haccepts] at h
    have hzero : s.agenda.nextId = 0 := congrArg TimerId.value h
    omega
  · rw [Agenda.register_of_refuses (Bool.not_eq_true _ ▸ haccepts)]

/-- A request about a timer that is not pending changes nothing. -/
theorem requests_ignored {id : TimerId} (h : s.agenda.isPending id = false) (wall : Int) :
    (∀ due, (s.perform wall (.resetAt id due)).2 = s) ∧
      (∀ delay, (s.perform wall (.resetAfter id delay)).2 = s) ∧
      (s.perform wall (.cancel id)).2 = s := by
  have hid : id ∉ s.agenda.live := of_decide_eq_false h
  refine ⟨?_, ?_, ?_⟩
  · intro due
    show { s with agenda := s.agenda.requestReset id due } = s
    rw [Agenda.requestReset_of_not_live hid]
  · intro delay
    show { s with agenda := s.agenda.requestReset id _ } = s
    rw [Agenda.requestReset_of_not_live hid]
  · show { s with agenda := s.agenda.requestCancel id } = s
    rw [Agenda.requestCancel_of_not_live hid]

/-! ### The handles of a run -/

/-- The handle that an action gives out, if it is a registration that is accepted. -/
def handle? (wall : Int) (s : Scheduler τ) : Action τ → Option TimerId
  | .call op =>
    match (s.perform wall op).1 with
    | .registered id => if id.isValid then some id else none
    | _ => none
  | .wake | .wind _ => none

/-- The handles that the registrations of a run give out, in order. -/
def handlesAlong (s : Scheduler τ) : List (Int × Action τ) → List TimerId
  | [] => []
  | (wall, action) :: rest =>
    (s.handle? wall action).toList ++ (s.act wall action).2.handlesAlong rest

/-- A registration amounts to one move of the agenda. -/
theorem register_of_plan {op : Operation τ} {plan : Plan}
    (hplan : op.plan? (s.now wall) = some plan) :
    ∃ due interval task, s.movesOf wall (.call op) = [.register due interval task (s.now wall)] ∧
      let r := s.register wall fun id => .every id due interval task
      s.perform wall op = (.registered r.1, r.2) := by
  cases op with
  | createAt due task => exact ⟨due, 0, task, rfl, rfl⟩
  | createAfter delay task => exact ⟨Time.plus (s.now wall) delay, 0, task, rfl, rfl⟩
  | createEvery interval task => exact ⟨Time.plus (s.now wall) interval, interval, task, rfl, rfl⟩
  | _ => cases hplan

theorem no_registration_in_ticks (beats : List Beat) :
    ∀ m ∈ beats.map fun beat => (.tick beat.reading : Agenda.Move τ), ¬m.Registers := by
  intro m hm
  obtain ⟨beat, -, rfl⟩ := List.mem_map.1 hm
  exact fun h => h

/-- Any other operation gives no handle out and registers nothing. -/
theorem no_handle_of_no_plan {op : Operation τ} (hplan : op.plan? (s.now wall) = none) :
    s.handle? wall (.call op) = none ∧ ∀ m ∈ s.movesOf wall (.call op), ¬m.Registers := by
  cases op with
  | createAt due task => cases hplan
  | createAfter delay task => cases hplan
  | createEvery interval task => cases hplan
  | appendLevel spec =>
    refine ⟨?_, List.forall_mem_singleton.2 fun h => h⟩
    simp only [handle?, perform, Prod.map]
    cases (s.appendLevel spec).1 <;> rfl
  | start =>
    refine ⟨?_, ?_⟩
    · simp only [handle?, perform, Prod.map]
      cases s.start.1 <;> rfl
    · simp only [movesOf]
      split
      · exact fun m hm => absurd hm List.not_mem_nil
      · exact List.forall_mem_singleton.2 fun h => h
  | stop => exact ⟨rfl, List.forall_mem_singleton.2 fun h => h⟩
  | resetAt id due => exact ⟨rfl, List.forall_mem_singleton.2 fun h => h⟩
  | resetAfter id delay => exact ⟨rfl, List.forall_mem_singleton.2 fun h => h⟩
  | cancel id => exact ⟨rfl, List.forall_mem_singleton.2 fun h => h⟩
  | tick =>
    refine ⟨?_, no_registration_in_ticks _⟩
    simp only [handle?, perform, Prod.map]
    cases (s.tick wall).1 <;> rfl
  | advanceTicks count =>
    refine ⟨?_, no_registration_in_ticks _⟩
    simp only [handle?, perform, Prod.map]
    cases (s.advanceTicks wall count).1 <;> rfl
  | _ => exact ⟨rfl, no_registration_in_ticks []⟩

theorem nextId_act_of_no_registration {action : Action τ}
    (h : ∀ m ∈ s.movesOf wall action, ¬m.Registers) :
    (s.act wall action).2.agenda.nextId = s.agenda.nextId := by
  rw [← (explained_act wall s action).agenda { agenda := s.agenda } rfl]
  exact History.nextId_after_of_no_registration h

/-- An action leaves the next handle alone, or it gives it out. -/
theorem handle_cases (hpos : 0 < s.agenda.nextId) (wall : Int) (action : Action τ) :
    (s.handle? wall action = none ∧ (s.act wall action).2.agenda.nextId = s.agenda.nextId) ∨
      (s.handle? wall action = some ⟨s.agenda.nextId⟩ ∧
        (s.act wall action).2.agenda.nextId = s.agenda.nextId + 1) := by
  cases action with
  | call op =>
    cases hplan : op.plan? (s.now wall) with
    | none =>
      obtain ⟨hnone, hmoves⟩ := no_handle_of_no_plan hplan
      exact Or.inl ⟨hnone, nextId_act_of_no_registration hmoves⟩
    | some plan =>
      obtain ⟨due, interval, task, -, hop⟩ := register_of_plan hplan
      simp only [handle?, act, hop, register]
      by_cases haccepts : s.agenda.phase.acceptsTimers = true
      · rw [Agenda.register_of_accepts haccepts]
        exact Or.inr ⟨if_pos (TimerId.isValid_iff.2 hpos), rfl⟩
      · rw [Agenda.register_of_refuses (Bool.not_eq_true _ ▸ haccepts)]
        exact Or.inl ⟨rfl, rfl⟩
  | wake => exact Or.inl ⟨rfl, nextId_act_of_no_registration (no_registration_in_ticks _)⟩
  | wind reading => exact Or.inl ⟨rfl, rfl⟩

/-- The handles of a run follow each other without a gap, from the next handle on. -/
theorem handlesAlong_eq (hpos : 0 < s.agenda.nextId) (run : List (Int × Action τ)) :
    s.handlesAlong run =
      (List.range' s.agenda.nextId (s.handlesAlong run).length).map TimerId.mk := by
  induction run generalizing s with
  | nil => rfl
  | cons step rest ih =>
    obtain ⟨wall, action⟩ := step
    have hrest : ∀ {n : Nat}, 0 < n → (s.act wall action).2.agenda.nextId = n → _ :=
      fun hn hnext => ih (s := (s.act wall action).2) (hnext ▸ hn)
    rcases handle_cases hpos wall action with ⟨hnone, hnext⟩ | ⟨hsome, hnext⟩
    · have hlater := hrest hpos hnext
      rw [hnext] at hlater
      rw [handlesAlong, hnone]
      exact hlater
    · have hlater := hrest (Nat.succ_pos _) hnext
      rw [hnext] at hlater
      rw [handlesAlong, hsome]
      rw [Option.toList_some, List.singleton_append, List.length_cons, List.range'_succ,
        List.map_cons, ← hlater]

theorem nextId_appendLevels {specs : List LevelSpec} (h : appendLevels specs s = .ok s') :
    s'.agenda.nextId = s.agenda.nextId := by
  induction specs generalizing s with
  | nil => rw [Except.ok.inj h]
  | cons spec rest ih =>
    simp only [appendLevels, appendLevel] at h
    cases happend : s.agenda.append spec with
    | error reason => simp [happend] at h
    | ok agenda =>
      simp only [happend] at h
      obtain ⟨-, -, rfl⟩ := Agenda.eq_of_append happend
      exact (ih h).trans rfl

/-- The first handle is 1. -/
theorem nextId_create {mode : Mode} {settings : Settings} (h : create mode settings = .ok s) :
    s.agenda.nextId = 1 := by
  rw [create] at h
  split at h
  · cases h
  · split at h
    · cases h
    · exact nextId_appendLevels h

/-! ### All of it -/

/-- Take whatever a run has made of a new scheduler. Then
* an operation that is refused leaves the scheduler as it is, clock, agenda and pool alike;
* so does a start for which the system refuses one of the threads;
* so does a registration that is answered with the invalid handle;
* so do requests about a timer that is not pending;
* the registrations of the run that were accepted gave out the handles 1, 2, 3 and so on, whatever
  else the run consists of. -/
theorem refusals_leave_no_trace {mode : Mode} {settings : Settings} {s₀ : Scheduler τ}
    (hnew : create mode settings = .ok s₀) (run : List (Int × Action τ)) :
    let s := (s₀.follow run).2
    (∀ wall op reason, (s.perform wall op).1 = .refused reason → (s.perform wall op).2 = s) ∧
    (∀ spawn reason, (s.startOn spawn).1 = .error reason → (s.startOn spawn).2 = s) ∧
    (∀ wall op, (s.perform wall op).1 = .registered .invalid → (s.perform wall op).2 = s) ∧
    (∀ wall id, s.agenda.isPending id = false →
      (∀ due, (s.perform wall (.resetAt id due)).2 = s) ∧
      (∀ delay, (s.perform wall (.resetAfter id delay)).2 = s) ∧
      (s.perform wall (.cancel id)).2 = s) ∧
    s₀.handlesAlong run = (List.range' 1 (s₀.handlesAlong run).length).map TimerId.mk := by
  intro s
  have hpos : 0 < s.agenda.nextId := ((Reachable.create hnew).follow run).balanced.nextId_pos
  refine ⟨fun _ _ _ => perform_refused, fun _ _ => startOn_refused, ?_,
    fun wall _ hid => requests_ignored hid wall, ?_⟩
  · intro wall op h
    obtain ⟨make, -, hregister⟩ := register_of_registered h
    obtain ⟨hop, -⟩ := hregister s rfl
    rw [hop] at h ⊢
    exact register_refused hpos (Reply.registered.inj h)
  · have hhandles := handlesAlong_eq (s := s₀) (by rw [nextId_create hnew]; exact Nat.one_pos) run
    rwa [nextId_create hnew] at hhandles

/-- With calls that are refused, a timer that fires and one that is dropped, all between two
registrations. -/
theorem refusals_leave_no_trace_between : ∃ s₀ : Scheduler Unit,
    create .offline { levels := [⟨8, 10, "fine"⟩] } = .ok s₀ ∧
    let run : List (Int × Action Unit) := [(0, .call .tick), (0, .call (.createAt 10 none)),
      (0, .call (.createAt 20 none)), (0, .call (.cancel ⟨2⟩)), (0, .call .start),
      (0, .call .start), (0, .call (.advanceTicks 2)), (0, .call (.appendLevel ⟨4, 5, "late"⟩)),
      (0, .call (.cancel ⟨7⟩)), (0, .call (.createEvery 30 none))]
    s₀.handlesAlong run = [⟨1⟩, ⟨2⟩, ⟨3⟩] ∧
    ((s₀.follow run).2.perform 0 .start).2 = (s₀.follow run).2 := by
  refine ⟨_, rfl, ?_⟩
  intro run
  have hnew : @create Unit .offline { levels := [⟨8, 10, "fine"⟩] } = .ok _ := rfl
  obtain ⟨hrefused, -, -, -, hhandles⟩ := refusals_leave_no_trace hnew run
  exact ⟨hhandles, hrefused 0 .start .alreadyStarted rfl⟩

end Scheduler

end TimingWheel
