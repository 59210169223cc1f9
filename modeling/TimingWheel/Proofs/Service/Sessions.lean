import TimingWheel.Proofs.Service.Enactment
import TimingWheel.Session.Calls

/-!
# Sessions as services

A session lets callbacks run where they fall due, one after the other, and lets time go on only
while everybody sleeps. So each session is the course of one service among many. What is proved of
all services holds of it, callbacks that use the scheduler and those that fail included.

## Main definitions

- `Session.begun` — the callbacks that the log says have begun
- `Session.Leads` — a session is brought about from another, as far as services are concerned
- `Session.Proceeds`, `Session.Reachable` — what the caller does, and where it can lead

## Main statements

- `Session.leads_follow`, `Session.leads_runJob` — a step of a callback, and a whole callback
- `Session.Reachable.service` — the service behind a session
-/

namespace TimingWheel

/-- The label of the callback that the entry says has begun. -/
def Note.label? : Note → Option String
  | .began label => some label
  | .answered _ _ => none

theorem Callback.ending_ne_fatal (c : Callback) : c.ending ≠ .fatal := by
  obtain ⟨label, program, fails⟩ := c
  cases fails <;> simp [ending]

namespace Session

/-- The callbacks that the log says have begun, by their labels. -/
def begun (x : Session) : List String := x.log.filterMap Note.label?

/-- A session is brought about from another as a service goes on, and the callbacks that its log
says have begun are the last of those that were started. -/
def Leads (x y : Session) : Prop :=
  ∃ starts, Service.Enacts x.scheduler y.scheduler starts ∧
    y.begun <:+ x.begun ++ starts.map fun d => d.task.label

variable {x y z : Session}

theorem leads_of_enacts {starts : List (Dispatch Callback)}
    (h : Service.Enacts x.scheduler y.scheduler starts)
    (hbegun : y.begun = x.begun ++ starts.map fun d => d.task.label) : x.Leads y :=
  ⟨starts, h, hbegun ▸ List.suffix_rfl⟩

theorem leads_of_eq (hscheduler : y.scheduler = x.scheduler) (hlog : y.log = x.log) :
    x.Leads y := by
  have henacts : Service.Enacts x.scheduler y.scheduler [] := by
    rw [hscheduler]
    exact Service.enacts_refl x.scheduler
  exact leads_of_enacts henacts (by simp [begun, hlog])

@[simp] theorem begun_note (entry : Note) (x : Session) :
    (x.note entry).begun = x.begun ++ entry.label?.toList := by
  cases h : entry.label? <;> simp [begun, note, h]

theorem leads_refl (x : Session) : x.Leads x := leads_of_eq rfl rfl

theorem Leads.trans (h : x.Leads y) (hlater : y.Leads z) : x.Leads z := by
  obtain ⟨starts, henacts, hlog⟩ := h
  obtain ⟨starts', henacts', hlog'⟩ := hlater
  refine ⟨starts ++ starts', henacts.trans henacts', ?_⟩
  rw [List.map_append, ← List.append_assoc]
  obtain ⟨before, hbefore⟩ := hlog
  refine hlog'.trans ⟨before, ?_⟩
  rw [← hbefore, List.append_assoc]

theorem leads_takeLog (x : Session) : x.Leads x.takeLog.2 :=
  ⟨[], Service.enacts_refl x.scheduler, List.nil_suffix⟩

/-! ### The tick thread -/

theorem scheduler_awaken (x : Session) : x.awaken.scheduler = x.scheduler := by
  rw [awaken]
  cases x.pacing <;> rfl

theorem log_awaken (x : Session) : x.awaken.log = x.log := by
  rw [awaken]
  cases x.pacing <;> rfl

/-- Only the scheduler has changed, by an action of its own. -/
theorem leads_of_act (wall : Int) (action : Scheduler.Action Callback)
    (hscheduler : y.scheduler = (x.scheduler.act wall action).2) (hlog : y.log = x.log) :
    x.Leads y := by
  refine leads_of_enacts (hscheduler ▸ Service.enacts_act wall x.scheduler action) ?_
  simp [begun, hlog]

theorem leads_pulse (x : Session) : x.Leads x.pulse := by
  refine (leads_of_eq x.scheduler_awaken x.log_awaken).trans ?_
  rw [pulse]
  split
  · exact leads_of_act x.awaken.wall .wake rfl rfl
  · exact leads_of_eq rfl rfl

theorem leads_followPhase (x : Session) : x.Leads x.followPhase := by
  rw [followPhase]
  split
  · split
    · exact leads_of_eq rfl rfl
    · exact leads_refl x
  · split
    · exact leads_refl x
    · exact leads_pulse x

/-! ### Using the scheduler and waiting -/

theorem leads_carryOut (op : Scheduler.Operation Callback) (x : Session) :
    x.Leads (x.carryOut op).2 := by
  let used : Session := { x with scheduler := (x.scheduler.perform x.wall op).2 }
  have hused : x.Leads used := leads_of_act x.wall (.call op) rfl rfl
  exact hused.trans (leads_followPhase used)

theorem leads_row {rest : Session → Session} (hrest : ∀ x, Leads x (rest x)) (n k : Nat)
    (x : Session) : x.Leads (row rest k n x).2 := by
  induction n generalizing k x with
  | zero => exact leads_refl x
  | succ n ih =>
    let ticked : Session := { x with scheduler := (x.scheduler.tick x.wall).2 }
    have hticked : x.Leads ticked := by
      refine leads_of_act x.wall (.call .tick) ?_ rfl
      rfl
    have hrested := hticked.trans (hrest ticked)
    rw [row]
    rcases htick : x.scheduler.tick x.wall with ⟨reply, scheduler⟩
    have hsame : ticked = { x with scheduler } := by simp [ticked, htick]
    rw [hsame] at hrested
    cases reply with
    | error reason => exact hrested
    | ok ids => exact hrested.trans (ih (k + 1) _)

theorem leads_passWithin {tick : Session → Session} (htick : ∀ x, Leads x (tick x))
    (done : Session → Bool) (n : Nat) (x : Session) : x.Leads (passWithin tick done n x).2 := by
  induction n generalizing x with
  | zero => exact leads_refl x
  | succ n ih =>
    rw [passWithin]
    split
    · exact leads_refl x
    · exact (htick x).trans (ih (tick x))

theorem leads_waitFor {tick : Session → Session} (htick : ∀ x, Leads x (tick x))
    (done : Session → Bool) (x : Session) : x.Leads (waitFor tick done x).2 := by
  have hpassed := leads_passWithin htick done (x.pulsesUntil (x.now + awaitLimit)) x
  rcases hpass : passWithin tick done (x.pulsesUntil (x.now + awaitLimit)) x with ⟨came, y⟩
  rw [hpass] at hpassed
  simp only [waitFor, hpass]
  cases came with
  | false => exact hpassed.trans (leads_of_eq rfl rfl)
  | true => exact hpassed

/-! ### Running callbacks -/

/-- What a callback does is among what others may do. -/
theorem leads_follow (x : Session) (step : Callback.Step Callback) : x.Leads (x.follow step).2 := by
  cases step with
  | perform op => exact leads_carryOut op x
  | ticks count => exact leads_row leads_refl count 1 x
  | awaitBegun label count => exact leads_waitFor leads_pulse _ x
  | awaitGone id => exact leads_waitFor leads_pulse _ x
  | takeLog => exact leads_takeLog x

theorem leads_answered (label : String) (answer : Callback.Answer) (x : Session) :
    x.Leads (x.note (.answered label answer)) :=
  leads_of_enacts (Service.enacts_refl x.scheduler) (begun_note _ x)

theorem leads_followAll (label : String) (program : List (Callback.Step Callback)) (x : Session) :
    x.Leads (followAll label x program) := by
  induction program generalizing x with
  | nil => exact leads_refl x
  | cons step rest ih =>
    exact ((leads_follow x step).trans (leads_answered label _ _)).trans (ih _)

/-- A callback is started, and the log tells so. -/
theorem leads_runJob (h : x.runJob = some y) : x.Leads y := by
  rw [runJob] at h
  split at h
  next => cases h
  next w d pool htake =>
    let taken : Session := { x with scheduler := { x.scheduler with pool := some pool } }
    let followed := followAll d.task.label (taken.note (.began d.task.label)) d.task.program
    have hbegan : x.Leads (taken.note (.began d.task.label)) :=
      leads_of_enacts (Service.enacts_takeUp htake) (begun_note _ taken)
    have hfollowed : x.Leads followed := hbegan.trans (leads_followAll _ _ _)
    have hends := Service.enacts_finish followed.scheduler w d.task.ending_ne_fatal
    obtain rfl := Option.some.inj h
    exact hfollowed.trans (leads_of_enacts hends (List.append_nil _).symm)

theorem leads_settle (x : Session) : x.Leads x.settle := by
  rw [settle]
  generalize patience = n
  induction n generalizing x with
  | zero => exact leads_refl x
  | succ n ih =>
    rw [settleWithin]
    split
    next => exact leads_refl x
    next y hjob => exact (leads_runJob hjob).trans (ih y)

/-! ### What the caller does -/

theorem leads_perform (op : Scheduler.Operation Callback) (x : Session) :
    x.Leads (x.perform op).2 := (leads_carryOut op x).trans (leads_settle _)

theorem leads_ticks (n : Nat) (x : Session) : x.Leads (x.ticks n).2 := leads_row leads_settle n 1 x

theorem leads_beat (x : Session) : x.Leads x.beat := (leads_pulse x).trans (leads_settle _)

theorem leads_beats (n : Nat) (x : Session) : x.Leads (x.beats n) := by
  induction n generalizing x with
  | zero => exact leads_refl x
  | succ n ih => exact (leads_beat x).trans (ih x.beat)

theorem leads_sleep (millis : Nat) (x : Session) : x.Leads (x.sleep millis) :=
  (leads_beats _ x).trans (leads_of_eq rfl rfl)

/-- What comes of one thing that the caller does. -/
inductive Proceeds (x : Session) : Session → Prop where
  | perform (op : Scheduler.Operation Callback) : x.Proceeds (x.perform op).2
  | ticks (n : Nat) : x.Proceeds (x.ticks n).2
  | beat : x.Proceeds x.beat
  | sleep (millis : Nat) : x.Proceeds (x.sleep millis)
  | await (done : Session → Bool) : x.Proceeds (x.await done).2
  | takeLog : x.Proceeds x.takeLog.2

theorem Proceeds.leads (h : x.Proceeds y) : x.Leads y := by
  cases h with
  | perform op => exact leads_perform op x
  | ticks n => exact leads_ticks n x
  | beat => exact leads_beat x
  | sleep millis => exact leads_sleep millis x
  | await done => exact leads_waitFor leads_beat done x
  | takeLog => exact leads_takeLog x

/-- The sessions that the caller can come to. -/
inductive Reachable (mode : Mode) (settings : Settings) : Session → Prop where
  | create {epoch : Int} {x : Session} (h : create epoch mode settings = .ok x) :
    Reachable mode settings x
  | proceed {x y : Session} (h : Reachable mode settings x) (hnext : x.Proceeds y) :
    Reachable mode settings y

variable {mode : Mode} {settings : Settings}

theorem Reachable.led (h : Reachable mode settings x) :
    ∃ epoch first, Session.create epoch mode settings = .ok first ∧ first.Leads x := by
  induction h with
  | create h => exact ⟨_, _, h, leads_refl _⟩
  | proceed _ hnext ih =>
    obtain ⟨epoch, first, hcreate, hleads⟩ := ih
    exact ⟨epoch, first, hcreate, hleads.trans hnext.leads⟩

theorem create_frame {epoch : Int} (h : create epoch mode settings = .ok x) :
    Scheduler.create mode settings = .ok x.scheduler ∧ x.log = [] := by
  rw [create] at h
  split at h
  next scheduler hcreate =>
    obtain rfl := Except.ok.inj h
    exact ⟨hcreate, rfl⟩
  next => cases h

/-- Behind a session there is a service in which no worker dies. The callbacks that the log says
have begun are the last of those that were started. -/
theorem Reachable.service (h : Reachable mode settings x) :
    ∃ s actions y, Scheduler.create mode settings = .ok s ∧
      Service.run { scheduler := s } actions = some y ∧
      (∀ w, .pool (.complete w .fatal) ∉ actions) ∧ y.isFree = true ∧
      y.scheduler = x.scheduler ∧ x.begun <:+ y.starts.map fun d => d.task.label := by
  obtain ⟨epoch, first, hcreate, starts, henacts, hlog⟩ := h.led
  obtain ⟨hscheduler, hnothing⟩ := create_frame hcreate
  have hfree : Service.isFree { scheduler := first.scheduler } = true := by
    simp [Service.isFree, (Scheduler.create_frame hscheduler).2.2]
  obtain ⟨actions, y, hrun, hspares, hfree', hsame, hstarts⟩ :=
    henacts _ _ (Service.accounted_of_create hscheduler) hfree rfl
  refine ⟨first.scheduler, actions, y, hscheduler, hrun, hspares, hfree', hsame, ?_⟩
  rw [hstarts]
  simpa [begun, hnothing] using hlog

end Session

end TimingWheel
