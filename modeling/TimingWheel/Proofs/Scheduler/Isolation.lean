import TimingWheel.Proofs.Agenda.Shadow
import TimingWheel.Proofs.Scheduler.Alike

/-!
# Timers do not interfere

Take any run of a scheduler, and one of the timers that it registers. Leave out what the run asks
for on behalf of other timers: their registrations, and the requests about them. The levels, the
start and the stop, the ticks, and the clock are as before. Then the timer is registered as before,
except that it may get another handle, and from there on it fires on the same ticks, and it is
pending and due as before.

## Main definitions

- `Operation.only`, `Action.only`, `Scheduler.leaving` — a run without what concerns other timers
- `Scheduler.Isolates` — a scheduler with one of the timers of another one
- `Scheduler.Isolated` — what comes of both schedulers agrees about this timer

## Main statements

- `Scheduler.isolated_tickTimes`, `Scheduler.isolated_act`, `Scheduler.isolated_follow` — ticks,
  actions and runs of both schedulers
- `Scheduler.timers_do_not_interfere` — a timer in the company of others and by itself
-/

namespace TimingWheel.Scheduler

variable {τ : Type}

/-! ### What concerns one timer -/

/-- Leaves the operation if it does not concern other timers only, with the timer `id` under its
handle `id'`. No registration is left. -/
def Operation.only (id id' : TimerId) : Operation τ → Option (Operation τ)
  | .createAt _ _ | .createAfter _ _ | .createEvery _ _ => none
  | .resetAt id₁ due => if id₁ = id then some (.resetAt id' due) else none
  | .resetAfter id₁ delay => if id₁ = id then some (.resetAfter id' delay) else none
  | .cancel id₁ => if id₁ = id then some (.cancel id') else none
  | op => some op

def Action.only (id id' : TimerId) : Action τ → Option (Action τ)
  | .call op => (op.only id id').map .call
  | action => some action

/-- The run without what concerns other timers only. -/
def leaving (id id' : TimerId) (run : List (Int × Action τ)) : List (Int × Action τ) :=
  run.filterMap fun step => (step.2.only id id').map (step.1, ·)

/-- The second scheduler keeps the same time, and holds of all timers only the timer `id`, under
the handle `id'`. The next handle that it gives out is `next`. -/
structure Isolates (id id' : TimerId) (next : Nat) (s s' : Scheduler τ) : Prop where
  clock : s'.clock = s.clock
  workers : s'.workers = s.workers
  tickInterval : s'.tickInterval = s.tickInterval
  pool : s'.pool.isNone = s.pool.isNone
  nextId : s'.agenda.nextId = next
  shadows : s.agenda.Shadows id id' s'.agenda

/-- The beats come at the same readings and fire the timer equally often. -/
structure Isolated (id id' : TimerId) (next : Nat) (r r' : List Beat × Scheduler τ) : Prop where
  isolates : r.2.Isolates id id' next r'.2
  readings_eq : r'.1.map Beat.reading = r.1.map Beat.reading
  counts_eq : r'.1.map (·.fired.count id') = r.1.map (·.fired.count id)

section

variable {id id' : TimerId} {next next' : Nat} {s s' : Scheduler τ}

theorem Isolates.alike (h : s.Isolates id id' next s') : s.Alike s' where
  clock := h.clock
  workers := h.workers
  pool := h.pool
  phase := h.shadows.phase
  stride := stride_congr h.tickInterval h.shadows.specs_eq

theorem isolated_nil (h : s.Isolates id id' next s') : Isolated id id' next ([], s) ([], s') :=
  ⟨h, rfl, rfl⟩

theorem Isolated.append {beats beats' later later' : List Beat} {r r' : Scheduler τ}
    (h : Isolated id id' next (beats, s) (beats', s'))
    (hlater : Isolated id id' next' (later, r) (later', r')) :
    Isolated id id' next' (beats ++ later, r) (beats' ++ later', r') where
  isolates := hlater.isolates
  readings_eq := by rw [List.map_append, List.map_append, h.readings_eq, hlater.readings_eq]
  counts_eq := by rw [List.map_append, List.map_append, h.counts_eq, hlater.counts_eq]

/-! ### Ticks -/

theorem isolated_beat (wall : Int) (h : s.Isolates id id' next s') :
    Isolated id id' next ([⟨s.now wall, (s.beat wall).1⟩], (s.beat wall).2)
      ([⟨s'.now wall, (s'.beat wall).1⟩], (s'.beat wall).2) := by
  obtain ⟨hshadows, hcount⟩ := Agenda.shadows_tick h.shadows (s.now wall)
  have hnow := h.alike.now wall
  refine ⟨⟨h.clock, h.workers, h.tickInterval, ?_, ?_, ?_⟩, ?_, ?_⟩
  · exact (beat_of_alike wall h.alike).pool
  · exact (Agenda.nextId_tick _ _).trans h.nextId
  · simp only [beat, hnow]
    exact hshadows
  · rw [List.map_singleton, List.map_singleton, hnow]
  · simp only [beat, hnow, List.map_singleton]
    rw [hcount]

theorem isolated_tickTimes (wall : Int) (n : Nat) (h : s.Isolates id id' next s') :
    Isolated id id' next (tickTimes wall n s) (tickTimes wall n s') := by
  induction n generalizing s s' with
  | zero => exact isolated_nil h
  | succ n ih =>
    rcases tick_of_alike wall h.alike with ⟨reason, htick, htick'⟩ | ⟨clock, htick, htick'⟩
    · simp only [tickTimes, htick, htick']
      exact isolated_nil h
    · have hmoved : ({ s with clock } : Scheduler τ).Isolates id id' next { s' with clock } :=
        ⟨rfl, h.workers, h.tickInterval, h.pool, h.nextId, h.shadows⟩
      have hbeat := isolated_beat wall hmoved
      have hlater := hbeat.append (ih hbeat.isolates)
      simp only [tickTimes, htick, htick', Prod.map]
      exact hlater

/-! ### Actions and runs -/

theorem isolates_of_agenda (h : s.Isolates id id' next s') {a a' : Agenda τ}
    (hnext : a'.nextId = s'.agenda.nextId) (hshadows : a.Shadows id id' a') :
    ({ s with agenda := a } : Scheduler τ).Isolates id id' next { s' with agenda := a' } :=
  ⟨h.clock, h.workers, h.tickInterval, h.pool, hnext.trans h.nextId, hshadows⟩

/-- What is left of an operation comes to the same for the timer. -/
theorem isolated_perform (wall : Int) {op op' : Operation τ} (h : s.Isolates id id' next s')
    (honly : op.only id id' = some op') :
    Isolated id id' next (s.act wall (.call op)) (s'.act wall (.call op')) := by
  have hreset : ∀ due, Isolated id id' next ([], s.resetAt id due) ([], s'.resetAt id' due) := by
    intro due
    refine isolated_nil (isolates_of_agenda h ?_ (Agenda.shadows_requestReset h.shadows due))
    rw [Agenda.requestReset_frame]
  cases op with
  | createAt due task => cases honly
  | createAfter delay task => cases honly
  | createEvery interval task => cases honly
  | resetAt id₁ due =>
    obtain ⟨rfl, hop⟩ := Option.ite_none_right_eq_some.1 honly
    obtain rfl := Option.some.inj hop
    exact hreset due
  | resetAfter id₁ delay =>
    obtain ⟨rfl, hop⟩ := Option.ite_none_right_eq_some.1 honly
    obtain rfl := Option.some.inj hop
    simp only [act, perform, resetAfter, h.alike.now]
    exact hreset _
  | cancel id₁ =>
    obtain ⟨rfl, hop⟩ := Option.ite_none_right_eq_some.1 honly
    obtain rfl := Option.some.inj hop
    refine isolated_nil (isolates_of_agenda h ?_ (Agenda.shadows_requestCancel h.shadows))
    rw [Agenda.requestCancel_frame]
  | appendLevel spec =>
    obtain rfl := Option.some.inj honly
    rcases Agenda.shadows_append h.shadows spec with
      ⟨reason, happend, happend'⟩ | ⟨b, b', happend, happend', hshadows⟩
    · simp only [act, perform, appendLevel, happend, happend']
      exact isolated_nil h
    · simp only [act, perform, appendLevel, happend, happend']
      obtain ⟨-, -, rfl⟩ := Agenda.eq_of_append happend'
      exact isolated_nil (isolates_of_agenda h rfl hshadows)
  | start =>
    obtain rfl := Option.some.inj honly
    have hrunning := h.shadows.enter .running
    simp only [act, perform, start, h.alike.phase, h.workers]
    cases s.phase with
    | configured =>
      cases Pool.create s.workers with
      | error reason => exact isolated_nil h
      | ok pool => exact isolated_nil ⟨h.clock, rfl, h.tickInterval, rfl, h.nextId, hrunning⟩
    | _ => exact isolated_nil h
  | stop =>
    obtain rfl := Option.some.inj honly
    simp only [act, perform, stop, h.alike.phase]
    split
    · exact isolated_nil (isolates_of_agenda h rfl (h.shadows.enter .stopped))
    · exact isolated_nil h
  | tick =>
    obtain rfl := Option.some.inj honly
    rw [act_tick, act_tick]
    exact isolated_tickTimes wall 1 h
  | advanceTicks count =>
    obtain rfl := Option.some.inj honly
    rw [act_advanceTicks, act_advanceTicks]
    exact isolated_tickTimes wall count h
  | _ =>
    obtain rfl := Option.some.inj honly
    exact isolated_nil h

/-- What is left of an action comes to the same for the timer. -/
theorem isolated_act (wall : Int) {action action' : Action τ} (h : s.Isolates id id' next s')
    (honly : action.only id id' = some action') :
    Isolated id id' next (s.act wall action) (s'.act wall action') := by
  cases action with
  | call op =>
    obtain ⟨op', hop, rfl⟩ := Option.map_eq_some_iff.1 honly
    exact isolated_perform wall h hop
  | wake =>
    obtain rfl := Option.some.inj honly
    simp only [act, heartbeat, h.alike.phase]
    split
    · exact isolated_beat wall h
    · exact isolated_nil h
  | wind reading =>
    obtain rfl := Option.some.inj honly
    refine isolated_nil ⟨?_, h.workers, h.tickInterval, h.pool, h.nextId, h.shadows⟩
    exact congrArg (Clock.set reading) h.clock

/-- An operation that is left out makes no difference for the timer, if it does not register it. -/
theorem isolated_perform_of_none (wall : Int) {op : Operation τ} (h : s.Isolates id id' next s')
    (honly : op.only id id' = none)
    (hfresh : (s.act wall (.call op)).2.agenda.nextId ≠ s.agenda.nextId →
      id ≠ ⟨s.agenda.nextId⟩) :
    Isolated id id' next (s.act wall (.call op)) ([], s') := by
  have hmoved : ∀ a : Agenda τ, a.Shadows id id' s'.agenda →
      Isolated id id' next ([], { s with agenda := a }) ([], s') := fun a hshadows =>
    isolated_nil ⟨h.clock, h.workers, h.tickInterval, h.pool, h.nextId, hshadows⟩
  have hregister : ∀ make : TimerId → Timer τ, (∀ id₁, (make id₁).id = id₁) →
      ((s.register wall make).2.agenda.nextId ≠ s.agenda.nextId → id ≠ ⟨s.agenda.nextId⟩) →
      Isolated id id' next ([], (s.register wall make).2) ([], s') := fun make hmake hfresh =>
    hmoved _ (Agenda.shadows_register_of_ne h.shadows hmake (s.now wall) hfresh)
  cases op with
  | createAt due task => exact hregister (fun id => .once id due task) (fun _ => rfl) hfresh
  | createAfter delay task =>
    exact hregister (fun id => .once id (Time.plus (s.now wall) delay) task) (fun _ => rfl) hfresh
  | createEvery interval task =>
    exact hregister (fun id => .every id (Time.plus (s.now wall) interval) interval task)
      (fun _ => rfl) hfresh
  | resetAt id₁ due =>
    have hne : id₁ ≠ id := fun heq => by simp [Operation.only, heq] at honly
    exact hmoved _ (Agenda.shadows_requestReset_of_ne h.shadows hne due)
  | resetAfter id₁ delay =>
    have hne : id₁ ≠ id := fun heq => by simp [Operation.only, heq] at honly
    exact hmoved _ (Agenda.shadows_requestReset_of_ne h.shadows hne _)
  | cancel id₁ =>
    have hne : id₁ ≠ id := fun heq => by simp [Operation.only, heq] at honly
    exact hmoved _ (Agenda.shadows_requestCancel_of_ne h.shadows hne)
  | _ => cases honly

/-- An action that is left out makes no difference for the timer, if it does not register it. -/
theorem isolated_act_of_none (wall : Int) {action : Action τ} (h : s.Isolates id id' next s')
    (honly : action.only id id' = none)
    (hfresh : (s.act wall action).2.agenda.nextId ≠ s.agenda.nextId → id ≠ ⟨s.agenda.nextId⟩) :
    Isolated id id' next (s.act wall action) ([], s') := by
  cases action with
  | call op => exact isolated_perform_of_none wall h (Option.map_eq_none_iff.1 honly) hfresh
  | _ => cases honly

theorem nextId_le_follow (s : Scheduler τ) (run : List (Int × Action τ)) :
    s.agenda.nextId ≤ (s.follow run).2.agenda.nextId := by
  rw [← (explained_follow s run).agenda { agenda := s.agenda } rfl]
  exact History.nextId_le_after { agenda := s.agenda } _

/-- A run that does not register the timer comes to the same for it as what is left of the run. -/
theorem isolated_follow (run : List (Int × Action τ)) (h : s.Isolates id id' next s')
    (hapart : id.value < s.agenda.nextId ∨ (s.follow run).2.agenda.nextId ≤ id.value) :
    Isolated id id' next (s.follow run) (s'.follow (leaving id id' run)) := by
  induction run generalizing s s' with
  | nil => exact isolated_nil h
  | cons step rest ih =>
    obtain ⟨wall, action⟩ := step
    have hle : s.agenda.nextId ≤ (s.act wall action).2.agenda.nextId :=
      nextId_le_follow s [(wall, action)]
    have hapartLater : id.value < (s.act wall action).2.agenda.nextId ∨
        ((s.act wall action).2.follow rest).2.agenda.nextId ≤ id.value :=
      hapart.imp_left fun hlt => hlt.trans_le hle
    have hfresh : (s.act wall action).2.agenda.nextId ≠ s.agenda.nextId →
        id ≠ ⟨s.agenda.nextId⟩ := by
      rintro hnext rfl
      have hlater := nextId_le_follow (s.act wall action).2 rest
      rcases hapart with hlt | hge
      · exact Nat.lt_irrefl _ hlt
      · exact hnext (Nat.le_antisymm (hlater.trans hge) hle)
    cases honly : action.only id id' with
    | none =>
      have hleaving : leaving id id' ((wall, action) :: rest) = leaving id id' rest := by
        simp [leaving, honly]
      rw [hleaving]
      have hfirst := isolated_act_of_none wall h honly hfresh
      exact hfirst.append (ih hfirst.isolates hapartLater)
    | some action' =>
      have hleaving : leaving id id' ((wall, action) :: rest) =
          (wall, action') :: leaving id id' rest := by
        simp [leaving, honly]
      rw [hleaving]
      have hfirst := isolated_act wall h honly
      exact hfirst.append (ih hfirst.isolates hapartLater)

/-! ### The registration -/

/-- An operation with a handle for an answer is a registration. -/
theorem register_of_registered {wall : Int} {op : Operation τ}
    (h : (s.perform wall op).1 = .registered id) :
    ∃ make : TimerId → Timer τ, (∀ id₁ id₂, make id₂ = (make id₁).withId id₂) ∧
      ∀ r : Scheduler τ, r.now wall = s.now wall →
        r.perform wall op = (.registered (r.register wall make).1, (r.register wall make).2) ∧
          r.beatsOf wall op = [] := by
  cases op with
  | createAt due task => exact ⟨(.once · due task), fun _ _ => rfl, fun r _ => ⟨rfl, rfl⟩⟩
  | createAfter delay task =>
    refine ⟨(.once · (Time.plus (s.now wall) delay) task), fun _ _ => rfl, fun r hnow => ⟨?_, rfl⟩⟩
    rw [← hnow]
    rfl
  | createEvery interval task =>
    refine ⟨(.every · (Time.plus (s.now wall) interval) interval task), fun _ _ => rfl,
      fun r hnow => ⟨?_, rfl⟩⟩
    rw [← hnow]
    rfl
  | appendLevel spec =>
    simp only [perform, Prod.map, Reply.ofUnit] at h
    split at h <;> cases h
  | start =>
    simp only [perform, Prod.map, Reply.ofUnit] at h
    split at h <;> cases h
  | tick =>
    simp only [perform, Prod.map, Reply.ofFired] at h
    split at h <;> cases h
  | advanceTicks count =>
    simp only [perform, Prod.map, Reply.ofFired] at h
    split at h <;> cases h
  | _ => cases h

/-- Where the timer is registered, each scheduler gives its next handle to it. -/
theorem isolates_register (wall : Int) {make : TimerId → Timer τ}
    (h : s.Isolates id ⟨next⟩ next s') (hmake : ∀ id₁ id₂, make id₂ = (make id₁).withId id₂)
    (haccepts : s.agenda.phase.acceptsTimers = true) (hid : id = ⟨s.agenda.nextId⟩) :
    (s'.register wall make).1 = ⟨next⟩ ∧ id.value < (s.register wall make).2.agenda.nextId ∧
      (s.register wall make).2.Isolates id ⟨next⟩ (next + 1) (s'.register wall make).2 := by
  have haccepts' : s'.agenda.phase.acceptsTimers = true := h.shadows.phase ▸ haccepts
  have hid' : (⟨next⟩ : TimerId) = ⟨s'.agenda.nextId⟩ := by rw [h.nextId]
  have hshadows := Agenda.shadows_register h.shadows haccepts hid hid' (hmake id) (s.now wall)
  rw [register, register, h.alike.now]
  refine ⟨?_, ?_, h.clock, h.workers, h.tickInterval, h.pool, ?_, hshadows⟩
  · rw [Agenda.register_of_accepts haccepts', hid']
  · rw [Agenda.register_of_accepts haccepts, hid]
    exact Nat.lt_succ_self _
  · rw [Agenda.register_of_accepts haccepts', h.nextId]

/-- What comes of a run with an operation in it that makes no tick. -/
theorem follow_around {wall : Int} {op : Operation τ} {run : List (Int × Action τ)} {reply : Reply}
    {r : Scheduler τ} (hperform : (s.follow run).2.perform wall op = (reply, r))
    (hbeats : (s.follow run).2.beatsOf wall op = []) (later : List (Int × Action τ)) :
    s.follow (run ++ (wall, .call op) :: later) =
      ((s.follow run).1 ++ (r.follow later).1, (r.follow later).2) := by
  rw [follow_append]
  simp only [follow, act, hperform, hbeats, List.nil_append]

end

/-- Take any run of a scheduler that has accepted no timer before, and a timer that is registered
on the way. Leave out of the run what it asks for on behalf of other timers. Then
* the timer is still registered, under the first handle, and it is not pending before;
* the beats come at the same readings, and each of them fires the timer as often as before;
* in the end the timer is pending if it was, and the wheel holds it, and no other timer, as it was
  held. -/
theorem timers_do_not_interfere {s : Scheduler τ} {before after : List (Int × Action τ)}
    {wall : Int} {op : Operation τ} {id : TimerId} (hs : s.Reachable) (hnew : s.agenda.nextId = 1)
    (hop : ((s.follow before).2.perform wall op).1 = .registered id) (hid : id.isValid = true) :
    let r := s.follow (before ++ (wall, .call op) :: after)
    let r' := s.follow (leaving id ⟨1⟩ before ++ (wall, .call op) :: leaving id ⟨1⟩ after)
    ((s.follow (leaving id ⟨1⟩ before)).2.perform wall op).1 = .registered ⟨1⟩ ∧
    (∀ done, done <+: before → (s.follow (leaving id ⟨1⟩ done)).2.agenda.isPending ⟨1⟩ =
      (s.follow done).2.agenda.isPending id) ∧
    r'.1.map Beat.reading = r.1.map Beat.reading ∧
    r'.1.map (·.fired.count ⟨1⟩) = r.1.map (·.fired.count id) ∧
    r'.2.agenda.isPending ⟨1⟩ = r.2.agenda.isPending id ∧
    r'.2.agenda.wheel.timers = r.2.agenda.wheel.timers.filterMap (Timer.only id ⟨1⟩) := by
  intro r r'
  let s₁ := (s.follow before).2
  let s₁' := (s.follow (leaving id ⟨1⟩ before)).2
  have hstart : s.Isolates id ⟨1⟩ 1 s :=
    ⟨rfl, rfl, rfl, rfl, hnew, Agenda.shadows_of_no_timer hs.balanced hnew⟩
  obtain ⟨make, hmake, hregister⟩ := register_of_registered hop
  obtain ⟨hperform, hbeats⟩ := hregister s₁ rfl
  rw [hperform] at hop
  obtain ⟨haccepts, hown⟩ := accepts_of_register make hid (Reply.registered.inj hop)
  -- Before its registration the timer has no handle.
  have hearly : ∀ done, done <+: before →
      Isolated id ⟨1⟩ 1 (s.follow done) (s.follow (leaving id ⟨1⟩ done)) := by
    rintro done ⟨rest, hrest⟩
    refine isolated_follow done hstart (Or.inr ?_)
    rw [hown]
    show _ ≤ (s.follow before).2.agenda.nextId
    rw [← hrest, follow_append]
    exact nextId_le_follow _ rest
  have hbefore := hearly before (List.prefix_refl before)
  obtain ⟨hfirst, hlt, hisolates⟩ := isolates_register wall hbefore.isolates hmake haccepts hown
  obtain ⟨hperform', hbeats'⟩ := hregister s₁' (hbefore.isolates.alike.now wall)
  -- After its registration no other timer gets its handle.
  have hall := hbefore.append (isolated_follow after hisolates (Or.inl hlt))
  rw [← follow_around hperform hbeats after,
    ← follow_around hperform' hbeats' (leaving id ⟨1⟩ after)] at hall
  refine ⟨?_, fun done hdone => ?_, hall.readings_eq, hall.counts_eq, ?_,
    hall.isolates.shadows.timers⟩
  · rw [hperform', hfirst]
  · exact decide_eq_decide.2 (hearly done hdone).isolates.shadows.live
  · exact decide_eq_decide.2 hall.isolates.shadows.live

/-- With levels that do not match, a timer that repeats every 12 milliseconds, and another one that
was registered before and is moved and dropped in the meantime. -/
theorem timers_do_not_interfere_second : ∃ (s : Scheduler Unit) (run : List (Int × Action Unit)),
    run.length = 5 ∧ (s.follow run).1.map (·.fired.count ⟨1⟩) = [0, 0, 0, 1, 0, 0, 1, 0] := by
  have hs := @Reachable.create Unit .offline
    { levels := [⟨3, 9, "coarse"⟩, ⟨2, 4, "fine"⟩], start := some 0 } _ rfl
  have hisolated := @timers_do_not_interfere Unit _
    [(0, .call (.createEvery 5 none)), (0, .call .start), (0, .call .tick)]
    [(0, .call (.resetAt ⟨1⟩ 30)), (0, .call (.advanceTicks 3)), (0, .call (.cancel ⟨1⟩)),
      (0, .call (.createAt 20 none)), (0, .call (.advanceTicks 4))]
    0 (.createEvery 12 none) ⟨2⟩ hs rfl rfl rfl
  exact ⟨_, _, rfl, hisolated.2.2.2.1.trans (by decide)⟩

end TimingWheel.Scheduler
