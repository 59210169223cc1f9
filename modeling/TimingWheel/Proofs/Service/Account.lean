import TimingWheel.Proofs.Pool.Serving
import TimingWheel.Proofs.Scheduler.Lifecycle
import TimingWheel.Proofs.Scheduler.Refusals
import TimingWheel.Proofs.Service.Basic

/-!
# The account of a service

What a tick answers, what it hands over and what the workers begin are three lists, kept by three
parties that go at their own pace. They are held together by the roster, which tells for each handle
what is to be handed over, and by the pool, which drops and repeats nothing. So the callbacks that
were started and the tasks that wait are the tasks of the handles answered so far.

## Main definitions

- `Scheduler.Staffed` — how an action leaves the workers
- `Service.listed`, `Service.handed` — the handles answered so far, and their tasks
- `Service.Accounted` — the account of a service is right

## Main statements

- `Scheduler.staffed_act` — only the start brings workers
- `Service.accounted_used`, `Service.accounted_of_takes` — every step keeps the account right
-/

namespace TimingWheel

variable {τ : Type}

namespace Scheduler

variable {s s' : Scheduler τ} {mode : Mode} {settings : Settings}

/-! ### Workers -/

theorem appendLevels_frame {specs : List LevelSpec} (h : appendLevels specs s = .ok s') :
    s'.workers = s.workers ∧ s'.pool = s.pool := by
  induction specs generalizing s with
  | nil => rw [Except.ok.inj h]; exact ⟨rfl, rfl⟩
  | cons spec rest ih =>
    simp only [appendLevels, appendLevel] at h
    cases happend : s.agenda.append spec with
    | error reason => simp [happend] at h
    | ok agenda =>
      simp only [happend] at h
      exact ih (s := { s with agenda }) h

/-- A new scheduler has no pool, and it is to have as many workers as the settings say. -/
theorem create_frame (h : create mode settings = .ok s) :
    0 < settings.workers ∧ s.workers = settings.workers ∧ s.pool = none := by
  rw [create] at h
  split at h
  next => cases h
  next hworkers =>
    split at h
    next => cases h
    next => exact ⟨Nat.pos_of_ne_zero hworkers, appendLevels_frame h⟩

/-- How an action leaves the workers. -/
structure Staffed (s s' : Scheduler τ) : Prop where
  workers : s'.workers = s.workers
  kept : s.pool.isSome = true → s'.pool.isSome = true
  hired : s.pool = none → s'.pool = none ∨ s'.pool = some (.ofSize s.workers)

theorem staffed_of_eq (hworkers : s'.workers = s.workers) (hpool : s'.pool = s.pool) :
    Staffed s s' where
  workers := hworkers
  kept h := hpool ▸ h
  hired h := .inl (hpool.trans h)

theorem staffed_tickTimes (wall : Int) (n : Nat) (s : Scheduler τ) :
    Staffed s (tickTimes wall n s).2 := by
  induction n generalizing s with
  | zero => exact staffed_of_eq rfl rfl
  | succ n ih =>
    rw [tickTimes]
    rcases tick_cases wall s with ⟨reason, htick⟩ | ⟨reading, pool, s', -, -, hpool, htick, hs'⟩
    · rw [htick]
      exact staffed_of_eq rfl rfl
    · rw [htick]
      have hlater := ih s'
      refine ⟨hlater.workers.trans (by rw [hs']), fun _ => hlater.kept (by rw [hs']; rfl), ?_⟩
      intro hnone
      rw [hpool] at hnone
      cases hnone

theorem staffed_act (wall : Int) (s : Scheduler τ) (action : Action τ) :
    Staffed s (s.act wall action).2 := by
  cases action with
  | call op =>
    cases op with
    | appendLevel spec =>
      show Staffed s (s.appendLevel spec).2
      rw [appendLevel]
      cases s.agenda.append spec <;> exact staffed_of_eq rfl rfl
    | start =>
      show Staffed s s.start.2
      rw [start]
      cases s.phase with
      | configured =>
        rw [Pool.create]
        by_cases hworkers : s.workers = 0
        · rw [if_pos hworkers]
          exact staffed_of_eq rfl rfl
        · rw [if_neg hworkers]
          exact ⟨rfl, fun _ => rfl, fun _ => .inr rfl⟩
      | _ => exact staffed_of_eq rfl rfl
    | stop =>
      show Staffed s s.stop
      rw [stop]
      split <;> exact staffed_of_eq rfl rfl
    | tick =>
      rw [act_tick]
      exact staffed_tickTimes wall 1 s
    | advanceTicks count =>
      rw [act_advanceTicks]
      exact staffed_tickTimes wall count s
    | _ => exact staffed_of_eq rfl rfl
  | wake =>
    show Staffed s (s.heartbeat wall).2
    rw [heartbeat]
    split
    · refine ⟨rfl, fun h => Option.isSome_map.trans h, fun h => .inl ?_⟩
      show s.pool.map _ = none
      rw [h]
      rfl
    · exact staffed_of_eq rfl rfl
  | wind reading => exact staffed_of_eq rfl rfl

end Scheduler

namespace Service

/-! ### Uses of the scheduler -/

/-- The handles that ticks have answered so far. -/
def listed (x : Service τ) : List TimerId := x.rounds.flatten

/-- The tasks of these handles. -/
def handed (x : Service τ) : List (Dispatch τ) := x.listed.filterMap (dispatchOf x.roster)

/-- The handles that ticks have fired, according to their verdicts. -/
def decided (verdicts : List (TimerId × Verdict)) : List TimerId :=
  (verdicts.filter fun v => v.2 = .fire).map Prod.fst

theorem decided_append (verdicts later : List (TimerId × Verdict)) :
    decided (verdicts ++ later) = decided verdicts ++ decided later := by
  rw [decided, List.filter_append, List.map_append]
  rfl

theorem filterMap_dispatchOf_append {roster : List (TimerId × Option τ)} {ids : List TimerId}
    (h : ∀ id ∈ ids, (roster.lookup id).isSome = true) (later : List (TimerId × Option τ)) :
    ids.filterMap (dispatchOf (roster ++ later)) = ids.filterMap (dispatchOf roster) :=
  List.filterMap_congr fun id hid => dispatchOf_append (h id hid) later

/-- What comes of an action that makes one move of the agenda at most. -/
structure Outcome (roster : List (TimerId × Option τ)) (a b : Agenda τ)
    (moves : List (Agenda.Move τ)) (fired : List TimerId) : Prop where
  balanced : b.Balanced []
  enrolled : b.Roster (roster ++ moves.flatMap a.enrolled)
  known : ∀ id ∈ fired, (roster.lookup id).isSome = true
  dispatches : moves.flatMap a.dispatches = fired.filterMap (dispatchOf roster)
  verdicts : fired = decided (moves.flatMap a.verdicts)

theorem outcome_of_act {s : Scheduler τ} {roster : List (TimerId × Option τ)} {wall : Int}
    {action : Scheduler.Action τ} (hbalanced : s.agenda.Balanced [])
    (hroster : s.agenda.Roster roster) (hmoves : (s.movesOf wall action).length ≤ 1) :
    Outcome roster s.agenda (s.act wall action).2.agenda (s.movesOf wall action)
      ((s.act wall action).1.flatMap Beat.fired) := by
  have hafter := Scheduler.balanced_act hbalanced wall action
  have hexplained := Scheduler.explained_act wall s action
  have hagenda := hexplained.agenda { agenda := s.agenda } rfl
  have hfired := hexplained.fired { agenda := s.agenda } rfl
  match hm : s.movesOf wall action, hmoves with
  | [], _ =>
    rw [hm] at hagenda hfired
    have hagenda : s.agenda = (s.act wall action).2.agenda := hagenda
    have hfired : [] = (s.act wall action).1.flatMap Beat.fired := hfired
    rw [← hfired]
    refine ⟨hafter, ?_, nofun, rfl, rfl⟩
    rw [← hagenda]
    simpa using hroster
  | [m], _ =>
    rw [hm] at hagenda hfired
    have hagenda : s.agenda.move m = (s.act wall action).2.agenda := hagenda
    have hfired : s.agenda.answers m = (s.act wall action).1.flatMap Beat.fired := hfired
    rw [← hfired]
    refine ⟨hafter, ?_, Agenda.answers_on_roster hroster hbalanced m, ?_, ?_⟩
    · rw [← hagenda, List.flatMap_singleton]
      exact Agenda.roster_move hroster hbalanced m
    · rw [List.flatMap_singleton]
      exact Agenda.dispatches_eq hroster hbalanced m
    · rw [List.flatMap_singleton]
      exact Agenda.answers_eq s.agenda m

/-! ### The account -/

/-- The account of a service with the given number of workers is right. -/
structure Accounted (workers : Nat) (x : Service τ) : Prop where
  positive : 0 < workers
  staff : x.scheduler.workers = workers
  orderly : x.scheduler.Orderly
  balanced : x.scheduler.agenda.Balanced []
  roster : x.scheduler.agenda.Roster x.roster
  known : ∀ id ∈ x.listed, (x.roster.lookup id).isSome = true
  verdicts : x.listed = decided x.verdicts
  /-- Without workers nothing was handed over. -/
  unstaffed : x.scheduler.pool = none → x.handed = [] ∧ x.handing = [] ∧ x.starts = []
  served : ∀ p, x.scheduler.pool = some p → ∃ submitted, p.Serves workers submitted x.starts ∧
    submitted ++ x.handing = x.handed
  /-- The pool is open while a tick hands over. -/
  gate : ∀ p, x.scheduler.pool = some p → x.handing ≠ [] → p.isOpen = true

theorem accounted_of_create {mode : Mode} {settings : Settings} {s : Scheduler τ}
    (h : Scheduler.create mode settings = .ok s) :
    Accounted settings.workers ({ scheduler := s } : Service τ) := by
  obtain ⟨hpositive, hstaff, hpool⟩ := Scheduler.create_frame h
  have hbalanced := Scheduler.balanced_create h
  exact {
    positive := hpositive
    staff := hstaff
    orderly := Scheduler.orderly_create h
    balanced := hbalanced
    roster := Agenda.roster_of_new hbalanced (Scheduler.nextId_create h)
    known := nofun
    verdicts := rfl
    unstaffed := fun _ => ⟨rfl, rfl, rfl⟩
    served := fun p hp => by rw [hpool] at hp; cases hp
    gate := fun p hp => by rw [hpool] at hp; cases hp }

/-! ### A use of the scheduler -/

section

variable {workers : Nat} {x : Service τ} {wall : Int} {action : Scheduler.Action τ}

theorem listed_used (x : Service τ) (wall : Int) (action : Scheduler.Action τ) :
    (x.used wall action).listed =
      x.listed ++ (x.scheduler.act wall action).1.flatMap Beat.fired := by
  simp [listed, used, List.flatMap_def]

/-- What a tick hands over comes after what was handed over before. -/
theorem handed_used (h : x.Accounted workers)
    (hmoves : (x.scheduler.movesOf wall action).length ≤ 1) :
    (x.used wall action).handed = x.handed ++ (x.used wall action).handing := by
  have hout := outcome_of_act h.balanced h.roster hmoves
  have hold := filterMap_dispatchOf_append h.known
    ((x.scheduler.movesOf wall action).flatMap x.scheduler.agenda.enrolled)
  have hnew := filterMap_dispatchOf_append hout.known
    ((x.scheduler.movesOf wall action).flatMap x.scheduler.agenda.enrolled)
  rw [handed, listed_used, List.filterMap_append]
  exact congrArg₂ _ hold (hnew.trans hout.dispatches.symm)

/-- A scheduler without workers makes no ticks. -/
theorem unstaffed_used (h : x.Accounted workers)
    (hmoves : (x.scheduler.movesOf wall action).length ≤ 1) (hnone : x.scheduler.pool = none) :
    (x.used wall action).handed = [] ∧ (x.used wall action).handing = [] ∧
      (x.used wall action).starts = [] := by
  have hout := outcome_of_act h.balanced h.roster hmoves
  have hstill : x.scheduler.phase ≠ .running := fun hrunning => by
    have hsome := h.orderly.pool_iff.2 (.inl hrunning)
    rw [hnone] at hsome
    cases hsome
  have hsilent : (x.used wall action).handing = [] := by
    refine hout.dispatches.trans ?_
    rw [Scheduler.no_beat_of_not_running hstill]
    rfl
  obtain ⟨hnothing, -, hstarts⟩ := h.unstaffed hnone
  exact ⟨by rw [handed_used h hmoves, hsilent, hnothing]; rfl, hsilent, hstarts⟩

/-- The pool stays as it is, or it is new. -/
theorem pool_used (h : x.Accounted workers) (wall : Int) (action : Scheduler.Action τ)
    {p : Pool (Dispatch τ)} (hp : (x.used wall action).scheduler.pool = some p) :
    x.scheduler.pool = some p ∨ x.scheduler.pool = none ∧ p = .ofSize workers := by
  have hpool : (x.used wall action).scheduler.pool =
      (x.scheduler.pool <|> (x.scheduler.act wall action).2.pool) := rfl
  rw [hpool] at hp
  cases hsome : x.scheduler.pool with
  | some p' =>
    rw [hsome] at hp
    exact .inl hp
  | none =>
    rw [hsome] at hp
    have hp : (x.scheduler.act wall action).2.pool = some p := hp
    rcases (Scheduler.staffed_act wall x.scheduler action).hired hsome with hnone | hnew
    · rw [hnone] at hp
      cases hp
    · rw [hnew, h.staff] at hp
      exact .inr ⟨rfl, (Option.some.inj hp).symm⟩

theorem orderly_used (h : x.Accounted workers) (wall : Int) (action : Scheduler.Action τ) :
    (x.used wall action).scheduler.Orderly := by
  have hstaffed := Scheduler.staffed_act wall x.scheduler action
  have horderly := h.orderly.proceeds (Scheduler.proceeds_act wall x.scheduler action)
  refine ⟨horderly.levels_iff, Iff.trans ?_ horderly.pool_iff, horderly.cursors⟩
  show (x.scheduler.pool <|> (x.scheduler.act wall action).2.pool).isSome = true ↔ _
  cases hsome : x.scheduler.pool with
  | none => rfl
  | some p => exact iff_of_true rfl (hstaffed.kept (by rw [hsome]; rfl))

/-- Using the scheduler keeps the account right. -/
theorem accounted_used (h : x.Accounted workers) (hfree : x.isFree = true)
    (hmoves : (x.scheduler.movesOf wall action).length ≤ 1) :
    (x.used wall action).Accounted workers := by
  have hout := outcome_of_act h.balanced h.roster hmoves
  obtain ⟨hhanding, hpools⟩ := Bool.and_eq_true_iff.1 hfree
  have hhanding : x.handing = [] := List.isEmpty_iff.1 hhanding
  refine {
    positive := h.positive
    staff := (Scheduler.staffed_act wall x.scheduler action).workers.trans h.staff
    orderly := orderly_used h wall action
    balanced := hout.balanced
    roster := hout.enrolled
    known := fun id hid => ?_
    verdicts := ?_
    unstaffed := fun hnone => unstaffed_used h hmoves ?_
    served := fun p hp => ?_
    gate := fun p hp hne => ?_ }
  · have hbefore : (x.roster.lookup id).isSome = true := by
      rw [listed_used] at hid
      exact (List.mem_append.1 hid).elim (h.known id) (hout.known id)
    refine (congrArg Option.isSome List.lookup_append).trans ?_
    rw [Option.or_of_isSome hbefore]
    exact hbefore
  · rw [listed_used, h.verdicts, hout.verdicts]
    exact (decided_append _ _).symm
  · have hpool : (x.scheduler.pool <|> (x.scheduler.act wall action).2.pool) = none := hnone
    cases hsome : x.scheduler.pool with
    | none => rfl
    | some p =>
      rw [hsome] at hpool
      cases hpool
  · rcases pool_used h wall action hp with hsame | ⟨hnone, rfl⟩
    · obtain ⟨submitted, hserves, heq⟩ := h.served p hsame
      rw [hhanding, List.append_nil] at heq
      exact ⟨submitted, hserves, by rw [handed_used h hmoves, heq]⟩
    · obtain ⟨hnothing, hsilent, hstarts⟩ := unstaffed_used h hmoves hnone
      rw [hnothing, hsilent, hstarts]
      exact ⟨[], Pool.serves_ofSize h.positive, rfl⟩
  · rcases pool_used h wall action hp with hsame | ⟨hnone, rfl⟩
    · rw [hsame] at hpools
      exact (Bool.and_eq_true_iff.1 hpools).1
    · rfl

end

/-! ### Steps of the pool -/

section

variable {workers : Nat} {x : Service τ} {p q : Pool (Dispatch τ)}
  {step : Pool.Action (Dispatch τ)} {events : List (Pool.Event (Dispatch τ))}

/-- A step of the pool keeps the account right, if what is still to be handed over is right. -/
theorem accounted_withPool {handing starts : List (Dispatch τ)} (h : x.Accounted workers)
    (hpool : x.scheduler.pool = some p) (hopen : handing ≠ [] → q.isOpen = true)
    (hserved : ∃ submitted, q.Serves workers submitted starts ∧
      submitted ++ handing = x.handed) :
    Accounted workers { x.withPool q with handing, starts } where
  positive := h.positive
  staff := h.staff
  orderly := by
    refine ⟨h.orderly.levels_iff, iff_of_true rfl (h.orderly.pool_iff.1 ?_), h.orderly.cursors⟩
    rw [hpool]
    rfl
  balanced := h.balanced
  roster := h.roster
  known := h.known
  verdicts := h.verdicts
  unstaffed := nofun
  served p' hp' := by
    obtain rfl := Option.some.inj hp'
    exact hserved
  gate p' hp' := by
    obtain rfl := Option.some.inj hp'
    exact hopen

theorem open_of_takes (h : p.Takes step q events) (hopen : p.isOpen = true)
    (hclose : ∀ inside, step ≠ .close inside) : q.isOpen = true := by
  cases h with
  | close => exact absurd rfl (hclose _)
  | closed hgate => simp [Pool.isOpen, hgate] at hopen
  | _ => exact hopen

theorem accounted_hand {d : Dispatch τ} {rest : List (Dispatch τ)} (h : x.Accounted workers)
    (hhanding : x.handing = d :: rest) (hpool : x.scheduler.pool = some p)
    (hcalls : p.submissions = []) (hstep : p.Takes (.submit d) q events) :
    Accounted workers { x.withPool q with handing := rest } := by
  obtain ⟨submitted, hserves, heq⟩ := h.served p hpool
  have hopen : p.isOpen = true := h.gate p hpool (by simp [hhanding])
  have hnext := hserves.step hstep nofun fun _ => ⟨hopen, hcalls⟩
  refine accounted_withPool h hpool (fun _ => open_of_takes hstep hopen nofun)
    ⟨submitted ++ [d], ?_, ?_⟩
  · simpa [Pool.startedBy, Pool.Action.submits, withPool] using hnext
  · rw [← heq, hhanding, List.append_assoc]
    rfl

theorem accounted_pool (h : x.Accounted workers) (hpool : x.scheduler.pool = some p)
    (hmay : x.mayTake step = true) (hspares : ∀ w, step ≠ .complete w .fatal)
    (hstep : p.Takes step q events) :
    Accounted workers { x.withPool q with starts := x.starts ++ p.startedBy step } := by
  obtain ⟨submitted, hserves, heq⟩ := h.served p hpool
  have hsubmits : step.submits = [] := by
    cases step with
    | submit d => cases hmay
    | _ => rfl
  have hnext := hserves.step hstep hspares fun hne => absurd hsubmits hne
  rw [hsubmits, List.append_nil] at hnext
  refine accounted_withPool h hpool (fun hne => ?_) ⟨submitted, hnext, heq⟩
  refine open_of_takes hstep (h.gate p hpool hne) ?_
  rintro inside rfl
  exact hne (List.isEmpty_iff.1 hmay)

end

/-! ### Runs -/

/-- Every step keeps the account right, as long as no worker dies. -/
theorem accounted_of_takes {workers : Nat} {x y : Service τ} {action : Action τ}
    (h : x.Accounted workers) (htakes : x.Takes action y)
    (hspares : ∀ w, action ≠ .pool (.complete w .fatal)) : y.Accounted workers := by
  cases htakes with
  | use hfree hmoves => exact accounted_used h hfree hmoves
  | hand hhanding hpool hcalls hstep => exact accounted_hand h hhanding hpool hcalls hstep
  | pool hpool hmay hstep =>
    exact accounted_pool h hpool hmay (fun w heq => hspares w (congrArg _ heq)) hstep

theorem accounted_of_run {workers : Nat} {x y : Service τ} {actions : List (Action τ)}
    (h : x.Accounted workers) (hrun : x.run actions = some y)
    (hspares : ∀ w, .pool (.complete w .fatal) ∉ actions) : y.Accounted workers := by
  induction actions generalizing x with
  | nil =>
    obtain rfl := Option.some.inj hrun
    exact h
  | cons action rest ih =>
    obtain ⟨next, hstep, hrest⟩ := run_cons_iff.1 hrun
    have hnext := accounted_of_takes h hstep fun w heq => hspares w (heq ▸ List.mem_cons_self)
    exact ih hnext hrest fun w hmem => hspares w (List.mem_cons_of_mem _ hmem)

end Service

end TimingWheel
