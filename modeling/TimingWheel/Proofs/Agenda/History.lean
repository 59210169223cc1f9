import TimingWheel.Proofs.Agenda.Bookkeeping

/-!
# The history of an agenda

Everything that happens to an agenda is a move: a level, a registration, a request, a tick, or
the start and the stop of the ticks. The moves may come in any order, and each registration and
each tick brings its own reading of the clock. A history is an agenda together with a log of what
was asked and decided so far and with the handles that its ticks have answered.

The log alone tells the course of each timer: when it is to fire next, what was asked about it,
how often it fired and whether it was dropped. No entry about another timer has a say in it.

## Main definitions

- `Agenda.Move`, `Agenda.move` — what can happen to an agenda
- `Event`, `Agenda.events` — what is written into the log
- `History`, `History.after` — an agenda with its log, and what moves make of it
- `History.rounds` — the handles that each tick answers
- `Course`, `courseOf` — the course of one timer, read off the log

## Main statements

- `courseOf_judged_of_mem`, `courseOf_judged_of_not_mem` — what the verdicts of a tick do to it
- `Agenda.balanced_move`, `History.balanced_after` — all moves keep the books
-/

namespace TimingWheel

variable {τ : Type}

/-! ### Moves -/

namespace Agenda

/-- What can happen to an agenda. -/
inductive Move (τ : Type) where
  | append (spec : LevelSpec)
  | start
  | stop
  /-- A timer is registered at the time `now`; it fires once if the interval is not positive. -/
  | register (due interval : Int) (task : Option τ) (now : Int)
  | reset (id : TimerId) (due : Int)
  | cancel (id : TimerId)
  | tick (now : Int)
deriving DecidableEq, Repr

/-- The move registers a timer. -/
def Move.Registers : Move τ → Prop
  | .register _ _ _ _ => True
  | _ => False

/-- What the clock shows at a tick. -/
def Move.reading? : Move τ → Option Int
  | .tick now => some now
  | _ => none

/-- A move is a tick, or the clock shows nothing at it. -/
theorem Move.tick_or_silent (m : Move τ) :
    (∃ now, m = .tick now) ∨ (∀ now, m ≠ .tick now) ∧ m.reading? = none := by
  cases m with
  | tick now => exact Or.inl ⟨now, rfl⟩
  | _ => exact Or.inr ⟨by rintro now ⟨⟩, rfl⟩

/-- Makes a move. One that is refused changes nothing. -/
def move (a : Agenda τ) : Move τ → Agenda τ
  | .append spec =>
    match a.append spec with
    | .ok a' => a'
    | .error _ => a
  | .start => if a.phase = .configured then { a with phase := .running } else a
  | .stop => if a.phase = .running then { a with phase := .stopped } else a
  | .register due interval task now => (a.register (fun id => .every id due interval task) now).2
  | .reset id due => a.requestReset id due
  | .cancel id => a.requestCancel id
  | .tick now => (a.tick now).2

/-- Starting and stopping the ticks touches the phase only. -/
theorem move_start_frame (a : Agenda τ) :
    a.move .start = { a with phase := (a.move .start).phase } := by
  simp only [move]
  split <;> rfl

theorem move_stop_frame (a : Agenda τ) :
    a.move .stop = { a with phase := (a.move .stop).phase } := by
  simp only [move]
  split <;> rfl

/-- Appending a level touches the wheel and the phase only. -/
theorem move_append_frame (a : Agenda τ) (spec : LevelSpec) :
    a.move (.append spec) =
      { a with
        wheel := (a.move (.append spec)).wheel, phase := (a.move (.append spec)).phase } := by
  simp only [move]
  split
  next happend =>
    obtain ⟨-, -, rfl⟩ := eq_of_append happend
    rfl
  next => rfl

/-- A level that is appended is the finest one, unless it is refused. -/
theorem wheel_move_append (a : Agenda τ) (spec : LevelSpec) :
    (a.move (.append spec)).wheel = a.wheel ∨ spec.Valid ∧
      (a.move (.append spec)).wheel = ⟨a.wheel.levels ++ [Level.ofSpec spec]⟩ := by
  simp only [move]
  split
  next happend =>
    obtain ⟨hvalid, -, rfl⟩ := eq_of_append happend
    exact Or.inr ⟨hvalid, rfl⟩
  next => exact Or.inl rfl

theorem balanced_move {a : Agenda τ} (h : Balanced [] a) (m : Move τ) : Balanced [] (a.move m) := by
  cases m with
  | append spec =>
    simp only [move]
    split
    next happend => exact balanced_append h happend
    next => exact h
  | start =>
    simp only [move]
    split
    next hphase => exact balanced_enter h (by simp [hphase]) .running
    next => exact h
  | stop =>
    simp only [move]
    split
    next hphase => exact balanced_enter h (by simp [hphase]) .stopped
    next => exact h
  | register due interval task now => exact balanced_register h (fun _ => rfl) now
  | reset id due => exact balanced_requestReset h id due
  | cancel id => exact balanced_requestCancel h id
  | tick now => exact balanced_tick h now

theorem phase_move_congr {a a' : Agenda τ} {m : Move τ} (h : a'.phase = a.phase)
    (hlevels : ∀ spec, m ≠ .append spec) : (a'.move m).phase = (a.move m).phase := by
  cases m with
  | append spec => exact absurd rfl (hlevels spec)
  | start =>
    simp only [move, h]
    split
    · rfl
    · exact h
  | stop =>
    simp only [move, h]
    split
    · rfl
    · exact h
  | register due interval task now =>
    simp only [move, register, h]
    split
    · rfl
    · exact h
  | reset id due =>
    rw [move, move, requestReset_frame id due a, requestReset_frame id due a']
    exact h
  | cancel id =>
    rw [move, move, requestCancel_frame id a, requestCancel_frame id a']
    exact h
  | tick now =>
    rw [move, move, phase_tick, phase_tick]
    exact h

theorem specs_move {a : Agenda τ} {m : Move τ} (hlevels : ∀ spec, m ≠ .append spec) :
    Wheel.specsOf (a.move m).wheel.levels = Wheel.specsOf a.wheel.levels := by
  cases m with
  | append spec => exact absurd rfl (hlevels spec)
  | start => rw [move_start_frame]
  | stop => rw [move_stop_frame]
  | register due interval task now =>
    simp only [move, register]
    split
    · rw [Wheel.insert, Wheel.specsOf_place]
    · rfl
  | reset id due => rw [move, requestReset_frame]
  | cancel id => rw [move, requestCancel_frame]
  | tick now => rw [move, specsOf_tick]

/-- What a move other than a tick leaves: it takes nothing out of the tables of pending timers
and of cancellations, and only a new handle becomes pending. -/
structure Extends (a a' : Agenda τ) : Prop where
  nextId_le : a.nextId ≤ a'.nextId
  live_subset : a.live ⊆ a'.live
  cancels_subset : a.cancels ⊆ a'.cancels
  live_new : ∀ id ∈ a'.live, id ∈ a.live ∨ id.value = a.nextId

theorem extends_of_eq {a a' : Agenda τ} (hnext : a'.nextId = a.nextId) (hlive : a'.live = a.live)
    (hcancels : a'.cancels = a.cancels) : a.Extends a' where
  nextId_le := Nat.le_of_eq hnext.symm
  live_subset := fun _ hid => hlive ▸ hid
  cancels_subset := fun _ hid => hcancels ▸ hid
  live_new := fun _ hid => Or.inl (hlive ▸ hid)

theorem extends_move (a : Agenda τ) {m : Move τ} (hm : ∀ now, m ≠ .tick now) :
    a.Extends (a.move m) := by
  cases m with
  | append spec =>
    rw [move_append_frame]
    exact extends_of_eq rfl rfl rfl
  | start =>
    rw [move_start_frame]
    exact extends_of_eq rfl rfl rfl
  | stop =>
    rw [move_stop_frame]
    exact extends_of_eq rfl rfl rfl
  | register due interval task now =>
    simp only [move, register]
    split
    · refine ⟨Nat.le_succ _, List.subset_cons_self _ _, List.Subset.refl _, ?_⟩
      intro id hid
      rcases List.mem_cons.1 hid with rfl | hold
      · exact Or.inr rfl
      · exact Or.inl hold
    · exact extends_of_eq rfl rfl rfl
  | reset id due =>
    rw [move, requestReset_frame]
    exact extends_of_eq rfl rfl rfl
  | cancel id =>
    have hcancels : a.cancels ⊆ (a.requestCancel id).cancels := fun id' hid =>
      (mem_cancels_requestCancel id' id a).2 (Or.inl hid)
    rw [move, requestCancel_frame]
    exact ⟨Nat.le_refl _, List.Subset.refl _, hcancels, fun _ => Or.inl⟩
  | tick now => exact absurd rfl (hm now)

/-- Only a registration gives a handle out. -/
theorem nextId_move_of_no_registration {a : Agenda τ} {m : Move τ} (hm : ¬m.Registers) :
    (a.move m).nextId = a.nextId := by
  cases m with
  | append spec => rw [move_append_frame]
  | start => rw [move_start_frame]
  | stop => rw [move_stop_frame]
  | register due interval task now => exact absurd trivial hm
  | reset id due => rw [move, requestReset_frame]
  | cancel id => rw [move, requestCancel_frame]
  | tick now => exact nextId_tick now a

theorem nextId_le_move (a : Agenda τ) (m : Move τ) : a.nextId ≤ (a.move m).nextId := by
  by_cases hm : ∃ now, m = .tick now
  · obtain ⟨now, rfl⟩ := hm
    exact Nat.le_of_eq (nextId_tick now a).symm
  · exact (extends_move a fun now heq => hm ⟨now, heq⟩).nextId_le

end Agenda

/-! ### The log -/

/-- When a timer is to fire next, and at which interval it repeats; zero if it does not. -/
structure Plan where
  due : Int
  interval : Nat
deriving DecidableEq, Repr

/-- The plan after the timer has fired: one interval later, counted from the last due time. -/
def Plan.renew (p : Plan) : Plan := { p with due := Time.plus p.due p.interval }

/-- The plan that a timer follows. -/
def Timer.plan (t : Timer τ) : Plan := { due := t.due, interval := t.interval }

/-- An entry of the log. -/
inductive Event where
  /-- A timer was registered. -/
  | accepted (id : TimerId) (plan : Plan)
  /-- Another due time was asked for. -/
  | asked (id : TimerId) (due : Int)
  /-- A timer was asked to be dropped. -/
  | cancelled (id : TimerId)
  /-- A tick reached a timer and decided about it. -/
  | judged (id : TimerId) (verdict : Verdict)
deriving DecidableEq, Repr

/-- What a move writes into the log. -/
def Agenda.events (a : Agenda τ) : Agenda.Move τ → List Event
  | .register due interval _ _ =>
    if a.phase.acceptsTimers then [.accepted ⟨a.nextId⟩ ⟨due, interval.toNat⟩] else []
  | .reset id due => [.asked id due]
  | .cancel id => [.cancelled id]
  | .tick now => (a.outlook now).map fun p => .judged p.1 p.2
  | .append _ | .start | .stop => []

/-- The handles that a move answers as fired. -/
def Agenda.answers (a : Agenda τ) : Agenda.Move τ → List TimerId
  | .tick now => (a.tick now).1.map (·.id)
  | _ => []

/-- An agenda with its log and with the handles that its ticks have answered so far. -/
structure History (τ : Type) where
  agenda : Agenda τ := {}
  log : List Event := []
  fired : List TimerId := []
deriving DecidableEq, Repr

namespace History

/-- Makes a move and writes it down. -/
def move (h : History τ) (m : Agenda.Move τ) : History τ where
  agenda := h.agenda.move m
  log := h.log ++ h.agenda.events m
  fired := h.fired ++ h.agenda.answers m

/-- Makes moves one after the other. -/
def after (h : History τ) (moves : List (Agenda.Move τ)) : History τ := moves.foldl move h

theorem move_reset (h : History τ) (id : TimerId) (due : Int) :
    h.move (.reset id due) =
      { h with
        agenda := h.agenda.requestReset id due
        log := h.log ++ [.asked id due] } := by
  simp [move, Agenda.move, Agenda.events, Agenda.answers]

theorem move_cancel (h : History τ) (id : TimerId) :
    h.move (.cancel id) =
      { h with
        agenda := h.agenda.requestCancel id
        log := h.log ++ [.cancelled id] } := by
  simp [move, Agenda.move, Agenda.events, Agenda.answers]

theorem move_tick (h : History τ) (now : Int) :
    h.move (.tick now) =
      { agenda := (h.agenda.tick now).2
        log := h.log ++ (h.agenda.outlook now).map fun p => .judged p.1 p.2
        fired := h.fired ++ (h.agenda.tick now).1.map (·.id) } := rfl

theorem after_append (h : History τ) (moves later : List (Agenda.Move τ)) :
    h.after (moves ++ later) = (h.after moves).after later := List.foldl_append

/-- The handles that each tick among the moves answers. -/
def rounds : History τ → List (Agenda.Move τ) → List (List TimerId)
  | _, [] => []
  | h, .tick now :: later =>
    (h.agenda.tick now).1.map (·.id) :: rounds (h.move (.tick now)) later
  | h, m :: later => rounds (h.move m) later

theorem rounds_cons_of_no_tick {m : Agenda.Move τ} (hm : ∀ now, m ≠ .tick now) (h : History τ)
    (later : List (Agenda.Move τ)) : h.rounds (m :: later) = (h.move m).rounds later := by
  cases m with
  | tick now => exact absurd rfl (hm now)
  | _ => rfl

theorem rounds_append (h : History τ) (moves later : List (Agenda.Move τ)) :
    h.rounds (moves ++ later) = h.rounds moves ++ (h.after moves).rounds later := by
  induction moves generalizing h with
  | nil => rfl
  | cons m moves ih =>
    cases m with
    | tick now => exact congrArg _ (ih (h.move (.tick now)))
    | _ => exact ih _

/-- What every move keeps, holds after any moves. -/
theorem after_induction {P : History τ → Prop} (hmove : ∀ h m, P h → P (h.move m))
    {h : History τ} (hstart : P h) (moves : List (Agenda.Move τ)) : P (h.after moves) := by
  induction moves generalizing h with
  | nil => exact hstart
  | cons m moves ih => exact ih (hmove h m hstart)

theorem balanced_after {h : History τ} (hbalanced : h.agenda.Balanced [])
    (moves : List (Agenda.Move τ)) : (h.after moves).agenda.Balanced [] :=
  after_induction (P := fun h => h.agenda.Balanced [])
    (fun _ m hm => Agenda.balanced_move hm m) hbalanced moves

theorem nextId_after_of_no_registration {h : History τ} {moves : List (Agenda.Move τ)}
    (hm : ∀ m ∈ moves, ¬m.Registers) : (h.after moves).agenda.nextId = h.agenda.nextId := by
  induction moves generalizing h with
  | nil => rfl
  | cons m moves ih =>
    obtain ⟨hfirst, hrest⟩ := List.forall_mem_cons.1 hm
    exact (ih (h := h.move m) hrest).trans (Agenda.nextId_move_of_no_registration hfirst)

theorem nextId_le_after (h : History τ) (moves : List (Agenda.Move τ)) :
    h.agenda.nextId ≤ (h.after moves).agenda.nextId :=
  after_induction (P := fun g => h.agenda.nextId ≤ g.agenda.nextId)
    (fun g m hg => Nat.le_trans hg (Agenda.nextId_le_move g.agenda m)) (Nat.le_refl _) moves

end History

/-! ### Courses -/

/-- What the log says of one timer. -/
structure Course where
  /-- When the timer is scheduled to fire next. -/
  plan : Plan
  /-- The due time that was last asked for and not applied yet. -/
  asked : Option Int := none
  /-- The timer was asked to be dropped. -/
  cancelled : Bool := false
  /-- How often the timer was judged to fire. -/
  firings : Nat := 0
  /-- A cancellation has taken effect. -/
  dropped : Bool := false
deriving DecidableEq, Repr

namespace Course

/-- The course after a tick has decided about its timer. -/
def judge (c : Course) : Verdict → Course
  | .move due => { c with plan := { c.plan with due }, asked := none }
  | .drop => { c with dropped := true }
  | .keep => c
  | .fire => { c with plan := c.plan.renew, firings := c.firings + 1 }

@[simp] theorem interval_judge (c : Course) (v : Verdict) :
    (c.judge v).plan.interval = c.plan.interval := by
  cases v <;> rfl

@[simp] theorem cancelled_judge (c : Course) (v : Verdict) :
    (c.judge v).cancelled = c.cancelled := by
  cases v <;> rfl

/-- Follows the course of the timer `id` past one entry of the log. -/
def note (id : TimerId) (c : Option Course) : Event → Option Course
  | .accepted id' plan => if id' = id then some { plan } else c
  | .asked id' due => if id' = id then c.map ({ · with asked := some due }) else c
  | .cancelled id' => if id' = id then c.map ({ · with cancelled := true }) else c
  | .judged id' v => if id' = id then c.map (·.judge v) else c

end Course

/-- The course of the timer `id`, if it was registered. -/
def courseOf (id : TimerId) (log : List Event) : Option Course := log.foldl (Course.note id) none

theorem courseOf_append (id : TimerId) (log later : List Event) :
    courseOf id (log ++ later) = later.foldl (Course.note id) (courseOf id log) :=
  List.foldl_append

/-- Verdicts on other timers have no bearing on the course of a timer. -/
theorem courseOf_judged_of_not_mem {id : TimerId} {hand : List (Timer τ)}
    (h : id ∉ hand.map (·.id)) (log : List Event) (v : Timer τ → Verdict) :
    courseOf id (log ++ hand.map fun t => .judged t.id (v t)) = courseOf id log := by
  rw [courseOf_append]
  induction hand with
  | nil => rfl
  | cons t rest ih =>
    rw [List.map_cons, List.mem_cons, not_or] at h
    rw [List.map_cons, List.foldl_cons, Course.note, if_neg (Ne.symm h.1)]
    exact ih h.2

/-- Of verdicts on different timers, the one on a timer itself decides its course. -/
theorem courseOf_judged_of_mem {hand : List (Timer τ)} (h : (hand.map (·.id)).Nodup)
    {t : Timer τ} (ht : t ∈ hand) (log : List Event) (v : Timer τ → Verdict) :
    courseOf t.id (log ++ hand.map fun u => .judged u.id (v u)) =
      (courseOf t.id log).map (·.judge (v t)) := by
  induction hand generalizing log with
  | nil => exact absurd ht List.not_mem_nil
  | cons u rest ih =>
    rw [List.map_cons, List.nodup_cons] at h
    rw [List.map_cons, List.append_cons]
    rcases List.mem_cons.1 ht with rfl | hrest
    · rw [courseOf_judged_of_not_mem h.1, courseOf_append]
      simp [Course.note]
    · have hne : u.id ≠ t.id := fun heq => h.1 (heq ▸ List.mem_map_of_mem hrest)
      rw [ih h.2 hrest, courseOf_append]
      simp [Course.note, hne]

end TimingWheel
