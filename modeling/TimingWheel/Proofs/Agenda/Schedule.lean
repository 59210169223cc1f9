import Mathlib.Data.List.Infix
import TimingWheel.Proofs.Agenda.Cancellation
import TimingWheel.Proofs.Wheel.Punctuality

/-!
# The schedule of a timer

A plan says when a timer is to fire, reading by reading: at the first reading that has come to
the due time, and if the timer repeats, from the next reading on at the first one that has come
to a due time one interval later. While the wheel is on time and nothing is asked about a timer,
the ticks answer it exactly as its plan says.

## Main definitions

- `Plan.firings` — how often a timer fires at each of a list of readings
- `Agenda.OnTime` — every timer comes out of the wheel in time
- `Agenda.Pursues` — a timer follows a plan, and nothing is asked about it

## Main statements

- `Agenda.onTime_move`, `Agenda.onTime_tick` — moves and ticks leave the wheel on time
- `Agenda.pursues_register`, `Agenda.pursues_move` — plans begin, and moves leave them alone
- `Agenda.pursues_tick` — a tick answers a timer as its plan says
-/

namespace TimingWheel

variable {τ : Type}

/-! ### Plans -/

/-- What is left of a plan when its timer has fired. -/
def Plan.next (p : Plan) : Option Plan := if 0 < p.interval then some p.renew else none

/-- How often a timer fires at ticks with the given readings, one after the other: once at the
first reading that has come to its due time, and from the reading after that one on as the rest
of its plan says. -/
def Plan.firings : Option Plan → List Int → List Nat
  | _, [] => []
  | none, _ :: later => 0 :: firings none later
  | some p, now :: later =>
    if p.due ≤ now then 1 :: firings p.next later else 0 :: firings (some p) later

theorem Plan.firings_of_le {p : Plan} {now : Int} (h : p.due ≤ now) (later : List Int) :
    firings (some p) (now :: later) = 1 :: firings p.next later := if_pos h

theorem Plan.firings_of_lt {p : Plan} {now : Int} (h : now < p.due) (later : List Int) :
    firings (some p) (now :: later) = 0 :: firings (some p) later := if_neg (Int.not_le.2 h)

namespace Agenda

/-! ### The wheel is on time -/

/-- While the clock shows `now`, every timer will come out of the wheel in time, if ticks are no
more than `grain` milliseconds apart. -/
structure OnTime (grain : Nat) (now : Int) (a : Agenda τ) : Prop where
  balanced : Balanced [] a
  geared : LevelSpec.Geared grain (Wheel.specsOf a.wheel.levels)
  grain_pos : 1 ≤ grain
  least_le : Time.least ≤ now
  levels : Wheel.OnTime grain now 1 a.wheel.levels

/-- A nested wheel is made for ticks as long as the slots of its finest level are wide. -/
theorem geared_of_nested {hand : List (Timer τ)} {a : Agenda τ} (h : Balanced hand a)
    (hnested : LevelSpec.Nested (Wheel.specsOf a.wheel.levels))
    (hwords : ∀ spec ∈ Wheel.specsOf a.wheel.levels, spec.width < 4294967296) {fine : Level τ}
    (hfine : a.wheel.finest? = some fine) :
    LevelSpec.Geared fine.width (Wheel.specsOf a.wheel.levels) := by
  have hlast : (Wheel.specsOf a.wheel.levels).getLast? = some fine.toLevelSpec := by
    rw [Wheel.getLast?_specsOf, hfine]
    rfl
  exact LevelSpec.geared_of_nested h.settled.valid hnested hwords hlast

theorem onTime_of_no_timer {grain : Nat} {now : Int} {a : Agenda τ} (h : Balanced [] a)
    (hgeared : LevelSpec.Geared grain (Wheel.specsOf a.wheel.levels)) (hgrain : 1 ≤ grain)
    (hnow : Time.least ≤ now) (hnew : a.nextId = 1) : OnTime grain now a where
  balanced := h
  geared := hgeared
  grain_pos := hgrain
  least_le := hnow
  levels := Wheel.onTime_of_no_timer (h.timers_eq_nil hnew)

section

variable {grain : Nat} {now now' : Int} {a : Agenda τ}

theorem onTime_of_same_levels {a' : Agenda τ} (h : a.OnTime grain now) (hbalanced : Balanced [] a')
    (hlevels : a'.wheel = a.wheel) : a'.OnTime grain now where
  balanced := hbalanced
  geared := hlevels ▸ h.geared
  grain_pos := h.grain_pos
  least_le := h.least_le
  levels := hlevels ▸ h.levels

theorem onTime_register (h : a.OnTime grain now) {make : TimerId → Timer τ}
    (hmake : ∀ id, (make id).id = id) : (a.register make now).2.OnTime grain now := by
  have hbalanced := balanced_register h.balanced hmake now
  cases haccepts : a.phase.acceptsTimers with
  | false => rw [register_of_refuses haccepts]; exact h
  | true =>
    rw [register_of_accepts haccepts] at hbalanced ⊢
    refine ⟨hbalanced, ?_, h.grain_pos, h.least_le, ?_⟩
    · rw [Wheel.insert, Wheel.specsOf_place]
      exact h.geared
    · exact Wheel.onTime_place h.balanced.settled.wellFormed h.geared h.least_le
        (fun _ _ _ => Nat.le_refl 1) h.levels _

/-- What a tick leaves in the wheel is not due yet. -/
theorem onTime_yielded (h : a.OnTime grain now) (hleast : Time.least ≤ now')
    (hnow : now' ≤ now + grain) : Wheel.OnTime grain now' 0 (a.wheel.tick now').2.levels := by
  rw [Wheel.tick_eq_turn]
  exact Wheel.onTime_turn h.balanced.settled h.geared hleast hnow h.levels

theorem due_gt_of_unreached (h : a.OnTime grain now) (hleast : Time.least ≤ now')
    (hnow : now' ≤ now + grain) {t : Timer τ} (ht : t ∈ a.unreached now') : now' < t.due :=
  Wheel.due_gt_of_onTime (balanced_yielded h.balanced now').settled h.grain_pos
    (onTime_yielded h hleast hnow) t ht

/-- A tick leaves the wheel on time, if the clock has moved on by no more than `grain`. -/
theorem onTime_tick (h : a.OnTime grain now) (hleast : Time.least ≤ now')
    (hnow : now' ≤ now + grain) : (a.tick now').2.OnTime grain now' := by
  have hyielded := onTime_yielded h hleast hnow
  have hgeared : LevelSpec.Geared grain (Wheel.specsOf (a.wheel.tick now').2.levels) := by
    rw [Wheel.specsOf_tick]
    exact h.geared
  refine ⟨balanced_tick h.balanced now', ?_, h.grain_pos, hleast, ?_⟩
  · rw [specsOf_tick]
    exact h.geared
  · -- What stays is early enough already, and what goes back falls in anew.
    let P := fun levels : List (Level τ) => Wheel.LevelsWellFormed levels ∧
      LevelSpec.Geared grain (Wheel.specsOf levels) ∧ Wheel.OnTime grain now' 1 levels
    have hplace : ∀ u levels, P levels → P (Wheel.place u now' levels) := by
      rintro u levels ⟨hwf, hgeared, hlevels⟩
      refine ⟨Wheel.wellFormed_place hwf u now', by rw [Wheel.specsOf_place]; exact hgeared, ?_⟩
      exact Wheel.onTime_place hwf hgeared hleast (fun _ _ _ => Nat.le_refl 1) hlevels u
    have hstart : P (a.wheel.tick now').2.levels :=
      ⟨(balanced_yielded h.balanced now').settled.wellFormed, hgeared, hyielded.mono Nat.one_pos.le⟩
    exact (levels_settleAll hplace hstart (a := { a with wheel := (a.wheel.tick now').2 }) _).2.2

/-- The move is made between two ticks, while the clock shows `now`. -/
def Move.At (now : Int) : Move τ → Prop
  | .register _ _ _ now' => now' = now
  | .tick _ => False
  | _ => True

/-- Where levels are only added, and none was in the end, none was in between. -/
theorem specs_eq_of_prefix {before between after : List LevelSpec} (h : before <+: between)
    (h' : between <+: after) (hsame : after = before) : between = before :=
  h'.eq_of_length_le (hsame ▸ h.length_le) |>.trans hsame

/-- A move adds a level at the fine end or leaves all levels in their shape. -/
theorem specs_prefix_move (a : Agenda τ) (m : Move τ) :
    Wheel.specsOf a.wheel.levels <+: Wheel.specsOf (a.move m).wheel.levels := by
  cases m with
  | append spec =>
    rcases wheel_move_append a spec with hsame | ⟨-, hwheel⟩
    · rw [hsame]
    · rw [hwheel, Wheel.specsOf_append]
      exact List.prefix_append _ _
  | start => rw [move_start_frame]
  | stop => rw [move_stop_frame]
  | register due interval task now =>
    simp only [move, register]
    split
    · rw [Wheel.insert, Wheel.specsOf_place]
    · exact List.prefix_refl _
  | reset id due => rw [move, requestReset_frame]
  | cancel id => rw [move, requestCancel_frame]
  | tick now => rw [move, specsOf_tick]

/-- Between ticks, and where no level is added, only an accepted registration changes the wheel. -/
theorem wheel_move_cases (a : Agenda τ) {m : Move τ} (hm : ∀ now, m ≠ .tick now)
    (hspecs : Wheel.specsOf (a.move m).wheel.levels = Wheel.specsOf a.wheel.levels) :
    (a.move m).wheel = a.wheel ∨ ∃ due interval task now, m = .register due interval task now ∧
      a.phase.acceptsTimers = true ∧
        (a.move m).wheel = a.wheel.insert (.every ⟨a.nextId⟩ due interval task) now := by
  cases m with
  | append spec =>
    rcases wheel_move_append a spec with hsame | ⟨-, hwheel⟩
    · exact Or.inl hsame
    · have hlength := congrArg List.length hspecs
      simp [hwheel] at hlength
  | start => exact Or.inl (by rw [move_start_frame])
  | stop => exact Or.inl (by rw [move_stop_frame])
  | register due interval task now =>
    cases haccepts : a.phase.acceptsTimers with
    | false => exact Or.inl (by rw [move, register_of_refuses haccepts])
    | true =>
      exact Or.inr ⟨due, interval, task, now, rfl, rfl, by rw [move, register_of_accepts haccepts]⟩
  | reset id due => exact Or.inl (by rw [move, requestReset_frame])
  | cancel id => exact Or.inl (by rw [move, requestCancel_frame])
  | tick now => exact absurd rfl (hm now)

/-- Only a level that is appended changes the shape of the wheel. -/
theorem append_of_specs_ne {a : Agenda τ} {m : Move τ}
    (hspecs : Wheel.specsOf (a.move m).wheel.levels ≠ Wheel.specsOf a.wheel.levels) :
    ∃ spec, spec.Valid ∧ (a.move m).wheel = ⟨a.wheel.levels ++ [Level.ofSpec spec]⟩ := by
  by_cases hlevels : ∃ spec, m = .append spec
  · obtain ⟨spec, rfl⟩ := hlevels
    rcases wheel_move_append a spec with hsame | hadded
    · rw [hsame] at hspecs
      exact absurd rfl hspecs
    · exact ⟨spec, hadded⟩
  · exact absurd (specs_move fun spec heq => hlevels ⟨spec, heq⟩) hspecs

theorem not_tick_of_at {m : Move τ} (hm : m.At now) : ∀ now', m ≠ .tick now' := by
  rintro now' rfl
  exact hm

theorem onTime_move (h : a.OnTime grain now) {m : Move τ} (hm : m.At now)
    (hspecs : Wheel.specsOf (a.move m).wheel.levels = Wheel.specsOf a.wheel.levels) :
    (a.move m).OnTime grain now := by
  rcases wheel_move_cases a (not_tick_of_at hm) hspecs with hsame |
    ⟨due, interval, task, now', rfl, -, -⟩
  · exact onTime_of_same_levels h (balanced_move h.balanced m) hsame
  · obtain rfl : now' = now := hm
    exact onTime_register h fun _ => rfl

/-- After a tick the waits are as they should be, if the tick has left them so and whatever goes
back lands well. -/
theorem waits_tick {Q : Nat → Nat → Timer τ → Prop} (h : Balanced [] a)
    (hwaits : Wheel.Waits Q (a.wheel.tick now).2.levels)
    (hback : ∀ t ∈ a.yielded now, ∀ u, (a.verdict now t).outcome t = some u →
      Wheel.Lands Q u now (a.wheel.tick now).2.levels) :
    Wheel.Waits Q (a.tick now).2.wheel.levels := by
  rw [levels_tick h]
  refine Wheel.waits_placeAll (balanced_yielded h now).settled.wellFormed hwaits ?_
  intro u hu
  obtain ⟨t, ht, hout⟩ := List.mem_filterMap.1 hu
  exact hback t ht u hout

/-- The same, if only the wait of one timer matters and the tick does not yield that timer. -/
theorem waits_tick_of_unreached {Q : Nat → Nat → Timer τ → Prop} (h : Balanced [] a) {t : Timer τ}
    (ht : t ∈ a.unreached now) (hQ : ∀ u : Timer τ, u.id ≠ t.id → ∀ P n, Q P n u)
    (hwaits : Wheel.Waits Q (a.wheel.tick now).2.levels) :
    Wheel.Waits Q (a.tick now).2.wheel.levels := by
  refine waits_tick h hwaits ?_
  intro u hu v hout
  have hsettled := (balanced_yielded h now).settled
  refine Wheel.lands_of_forall hsettled.wellFormed (Or.inl hsettled.drained) ?_
  have hid := Verdict.id_of_outcome hout
  exact hQ v (hid ▸ id_ne_of_unreached h now hu ht)

/-- If only the wait of one timer matters, a move between ticks leaves all waits as they should
be. -/
theorem waits_move_of_used {Q : Nat → Nat → Timer τ → Prop} (h : Balanced [] a) {id : TimerId}
    (hused : id.value < a.nextId) (hQ : ∀ u : Timer τ, u.id ≠ id → ∀ P n, Q P n u) {m : Move τ}
    (hm : ∀ now, m ≠ .tick now)
    (hspecs : Wheel.specsOf (a.move m).wheel.levels = Wheel.specsOf a.wheel.levels)
    (hwaits : Wheel.Waits Q a.wheel.levels) : Wheel.Waits Q (a.move m).wheel.levels := by
  rcases wheel_move_cases a hm hspecs with hsame | ⟨due, interval, task, now', rfl, -, hwheel⟩
  · rw [hsame]
    exact hwaits
  · -- A new timer has another handle, so that it may land wherever it likes.
    rw [hwheel]
    refine Wheel.waits_place h.settled.wellFormed hwaits
      (Wheel.lands_of_forall h.settled.wellFormed
        (Or.inl h.settled.drained) (hQ _ ?_))
    rintro rfl
    exact Nat.lt_irrefl _ hused

/-- A timer that is registered now comes out of the wheel in time. -/
theorem waits_register {grain : Nat} {now : Int} (h : Balanced [] a)
    (hgeared : LevelSpec.Geared grain (Wheel.specsOf a.wheel.levels))
    (haccepts : a.phase.acceptsTimers = true) (hleast : Time.least ≤ now) (due interval : Int)
    (task : Option τ) :
    Wheel.Waits (fun P n t => t.id = ⟨a.nextId⟩ → t.due = due ∧ Wheel.InTime grain now 1 P n t)
      (a.move (.register due interval task now)).wheel.levels := by
  simp only [move, register_of_accepts haccepts]
  refine Wheel.waits_place h.settled.wellFormed (Wheel.waits_of_forall h.settled ?_) ?_
  · -- The timers that are there already have other handles.
    intro t ht P n hid
    exact absurd (hid ▸ h.mem_live_iff.2 ⟨t, Or.inr ht, rfl⟩) h.nextId_fresh
  · exact (Wheel.lands_inTime_of_settled h.settled hgeared hleast _).mono
      fun _ _ hn _ => ⟨rfl, hn⟩

end

/-! ### Timers follow their plans -/

/-- The timer follows the plan, and nothing is asked about it. One that has no plan any more is
gone. -/
def Pursues (id : TimerId) (a : Agenda τ) : Option Plan → Prop
  | some p => (∃ t ∈ a.wheel.timers, t.id = id ∧ t.plan = p) ∧ a.resetOf id = none ∧ id ∉ a.cancels
  | none => Gone id a

/-- The move asks something about the timer. -/
def Move.AsksAbout (id : TimerId) : Move τ → Prop
  | .reset id' _ => id' = id
  | .cancel id' => id' = id
  | _ => False

/-- The due time that the move asks for. -/
def Move.target? (id : TimerId) : Move τ → Option Int
  | .reset id' due => if id' = id then some due else none
  | _ => none

section

variable {a : Agenda τ} {id : TimerId}

/-- Only a tick takes timers out of the wheel. -/
theorem timers_subset_move (h : Balanced [] a) {m : Move τ} (hm : ∀ now, m ≠ .tick now) :
    a.wheel.timers ⊆ (a.move m).wheel.timers := by
  cases m with
  | append spec =>
    rcases wheel_move_append a spec with hsame | ⟨-, hwheel⟩
    · rw [hsame]
      exact List.Subset.refl _
    · simp [hwheel, Wheel.timers_eq]
  | start => rw [move_start_frame]; exact List.Subset.refl _
  | stop => rw [move_stop_frame]; exact List.Subset.refl _
  | register due interval task now =>
    cases haccepts : a.phase.acceptsTimers with
    | false => simp only [move, register_of_refuses haccepts, List.Subset.refl]
    | true =>
      simp only [move, register_of_accepts haccepts]
      have htimers := h.timers_insert haccepts (.every ⟨a.nextId⟩ due interval task) now
      exact fun t ht => htimers.mem_iff.2 (List.mem_cons_of_mem _ ht)
  | reset id due => rw [move, requestReset_frame]; exact List.Subset.refl _
  | cancel id => rw [move, requestCancel_frame]; exact List.Subset.refl _
  | tick now => exact absurd rfl (hm now)

/-- Of a pending timer, the due time that was last asked for is noted. -/
theorem resetOf_move (hlive : id ∈ a.live) {m : Move τ} (hm : ∀ now, m ≠ .tick now) :
    (a.move m).resetOf id = (m.target? id).or (a.resetOf id) := by
  cases m with
  | append spec =>
    rw [move_append_frame]
    rfl
  | start => rw [move_start_frame]; rfl
  | stop => rw [move_stop_frame]; rfl
  | register due interval task now =>
    simp only [move, register]
    split <;> rfl
  | reset id' due =>
    rw [move, resetOf_requestReset, Move.target?]
    by_cases hid : id' = id
    · rw [if_pos ⟨hid.symm, hid ▸ hlive⟩, if_pos hid]
      rfl
    · rw [if_neg fun heq => hid heq.1.symm, if_neg hid]
      rfl
  | cancel id' => rw [move, requestCancel_frame]; rfl
  | tick now => exact absurd rfl (hm now)

theorem mem_cancels_move (hlive : id ∈ a.live) {m : Move τ} (hm : ∀ now, m ≠ .tick now) :
    id ∈ (a.move m).cancels ↔ id ∈ a.cancels ∨ m = .cancel id := by
  cases m with
  | append spec =>
    rw [move_append_frame]
    simp
  | start => rw [move_start_frame]; simp
  | stop => rw [move_stop_frame]; simp
  | register due interval task now =>
    simp only [move, register]
    split <;> simp
  | reset id' due => rw [move, requestReset_frame]; simp
  | cancel id' =>
    rw [move, mem_cancels_requestCancel, Move.cancel.injEq]
    refine or_congr_right ⟨fun hid => hid.1.symm, ?_⟩
    rintro rfl
    exact ⟨rfl, hlive⟩
  | tick now => exact absurd rfl (hm now)

/-- A timer with a plan was registered once. -/
theorem Pursues.used (h : Balanced [] a) {plan : Option Plan} (hplan : a.Pursues id plan) :
    id.value < a.nextId := by
  cases plan with
  | none => exact Gone.used hplan
  | some p =>
    obtain ⟨⟨t, ht, hid, -⟩, -, -⟩ := hplan
    exact (h.live_range id (hid ▸ h.mem_live_iff.2 ⟨t, Or.inr ht, rfl⟩)).2

/-- There is one timer with the handle only, and so there is one plan. -/
theorem Pursues.plan_eq (h : Balanced [] a) {p : Plan} (hplan : a.Pursues id (some p)) {t : Timer τ}
    (ht : t ∈ a.wheel.timers) (hid : t.id = id) : t.plan = p := by
  obtain ⟨⟨u, hu, hid', hplan⟩, -, -⟩ := hplan
  rw [← hplan, List.inj_on_of_nodup_map h.ids_nodup ht hu (hid.trans hid'.symm)]

/-- A timer that was registered follows the plan that it was registered with. -/
theorem pursues_register (h : Balanced [] a) (haccepts : a.phase.acceptsTimers = true)
    (due interval : Int) (task : Option τ) (now : Int) :
    (a.move (.register due interval task now)).Pursues ⟨a.nextId⟩
      (some ⟨due, interval.toNat⟩) := by
  simp only [move, register_of_accepts haccepts]
  have htimers := h.timers_insert haccepts (.every ⟨a.nextId⟩ due interval task) now
  refine ⟨⟨_, htimers.mem_iff.2 List.mem_cons_self, rfl, rfl⟩, ?_, ?_⟩
  · exact h.resetOf_eq_none h.nextId_fresh
  · intro hnoted
    exact h.nextId_fresh (h.cancels_live _ hnoted)

/-- A timer goes on following its plan through all moves between ticks that do not ask about it. -/
theorem pursues_move (h : Balanced [] a) {plan : Option Plan} (hplan : a.Pursues id plan)
    {m : Move τ} (hm : ∀ now, m ≠ .tick now) (hunasked : ¬m.AsksAbout id) :
    (a.move m).Pursues id plan := by
  cases plan with
  | none => exact gone_move h hplan m
  | some p =>
    obtain ⟨⟨t, ht, rfl, hplan⟩, hreset, hcancel⟩ := hplan
    have hlive := h.mem_live_iff.2 ⟨t, Or.inr ht, rfl⟩
    have htarget : m.target? t.id = none := by
      cases m with
      | reset id due => exact if_neg hunasked
      | _ => rfl
    refine ⟨⟨t, timers_subset_move h hm ht, rfl, hplan⟩, ?_, ?_⟩
    · rw [resetOf_move hlive hm, htarget, Option.none_or, hreset]
    · rw [mem_cancels_move hlive hm, not_or]
      refine ⟨hcancel, ?_⟩
      rintro rfl
      exact hunasked rfl

theorem pursues_of_outcome (h : Balanced [] a) {now : Int} {t u : Timer τ}
    (ht : t ∈ a.yielded now) (hcancel : t.id ∉ a.cancels)
    (hout : (a.verdict now t).outcome t = some u) :
    (a.tick now).2.Pursues t.id (some u.plan) := by
  refine ⟨⟨u, ?_, Verdict.id_of_outcome hout, rfl⟩, ?_, ?_⟩
  · rw [(timers_tick h now).mem_iff, List.mem_append]
    exact Or.inl (List.mem_filterMap.2 ⟨t, ht, hout⟩)
  · rw [resetOf_tick, if_pos (List.mem_map_of_mem ht)]
  · intro hnoted
    exact hcancel ((mem_cancels_tick h now t.id).1 hnoted).1

theorem gone_of_outcome (h : Balanced [] a) {now : Int} {t : Timer τ} (ht : t ∈ a.yielded now)
    (hout : (a.verdict now t).outcome t = none) : Gone t.id (a.tick now).2 := by
  refine (balanced_tick h now).gone ?_ ?_
  · rw [nextId_tick]
    exact (h.live_range t.id (yielded_live h now ht)).2
  · intro hlive
    have hback := ((mem_live_tick h now t.id).1 hlive).2 t ht rfl
    rw [hout] at hback
    cases hback

/-- A tick fires a timer that is due, if it yields the timer and nothing is asked about it. -/
theorem pursues_tick_of_yielded (h : Balanced [] a) {now : Int} {t : Timer τ}
    (ht : t ∈ a.yielded now) (hreset : a.resetOf t.id = none) (hcancel : t.id ∉ a.cancels) :
    ∃ plan', (a.tick now).2.Pursues t.id plan' ∧ ∀ later,
      Plan.firings (some t.plan) (now :: later) =
        ((a.tick now).1.map (·.id)).count t.id :: Plan.firings plan' later := by
  have hcount := count_fired_of_yielded h now ht
  rcases verdict_cases now t a with ⟨due, hsome, -⟩ | ⟨-, hnoted, -⟩ | ⟨-, -, hdue, hv⟩ |
    ⟨-, -, hdue, hv⟩
  · rw [hreset] at hsome
    cases hsome
  · exact absurd hnoted hcancel
  · refine ⟨some t.plan, pursues_of_outcome h ht hcancel (by rw [hv]; rfl), ?_⟩
    intro later
    rw [hcount, hv, if_neg (by simp), Plan.firings_of_lt (p := t.plan) hdue]
  · refine ⟨t.plan.next, ?_, ?_⟩
    · rw [Plan.next]
      split
      next hrepeats =>
        refine pursues_of_outcome (u := t.renew) h ht hcancel ?_
        rw [hv]
        exact if_pos (decide_eq_true hrepeats)
      next honce =>
        refine gone_of_outcome h ht ?_
        rw [hv]
        exact if_neg fun hrepeats => honce (of_decide_eq_true hrepeats)
    · intro later
      rw [hcount, hv, if_pos rfl, Plan.firings_of_le (p := t.plan) hdue]

/-- A tick answers a timer as its plan says, if it is not due yet where the tick does not yield
it. -/
theorem pursues_tick_of_unreached (h : Balanced [] a) {now : Int} {plan : Option Plan}
    (hplan : a.Pursues id plan) (hmet : ∀ t ∈ a.unreached now, t.id = id → now < t.due) :
    ∃ plan', (a.tick now).2.Pursues id plan' ∧ ∀ later,
      Plan.firings plan (now :: later) =
        ((a.tick now).1.map (·.id)).count id :: Plan.firings plan' later := by
  cases plan with
  | none =>
    refine ⟨none, gone_move h hplan (.tick now), ?_⟩
    intro later
    rw [List.count_eq_zero.2 (not_fired_of_gone h now hplan), Plan.firings]
  | some p =>
    obtain ⟨⟨t, ht, rfl, rfl⟩, hreset, hcancel⟩ := hplan
    rcases (mem_timers_iff_yielded h now).1 ht with hyielded | hstays
    · exact pursues_tick_of_yielded h hyielded hreset hcancel
    · obtain ⟨hheld, hasked, hnoted, hcount⟩ := stays_tick h hstays
      refine ⟨some t.plan, ⟨⟨t, hheld, rfl, rfl⟩, hasked.trans hreset, mt hnoted.1 hcancel⟩, ?_⟩
      intro later
      rw [hcount, Plan.firings_of_lt (p := t.plan) (hmet t hstays rfl)]

/-- A tick answers a timer as its plan says, if the clock has moved on by no more than `grain`
since the wheel was last on time. -/
theorem pursues_tick {grain : Nat} {now now' : Int} (h : a.OnTime grain now)
    (hleast : Time.least ≤ now') (hnow : now' ≤ now + grain) {plan : Option Plan}
    (hplan : a.Pursues id plan) :
    ∃ plan', (a.tick now').2.Pursues id plan' ∧ ∀ later,
      Plan.firings plan (now' :: later) =
        ((a.tick now').1.map (·.id)).count id :: Plan.firings plan' later :=
  pursues_tick_of_unreached h.balanced hplan fun _ ht _ => due_gt_of_unreached h hleast hnow ht

end

end Agenda

/-! ### Runs between ticks -/

namespace History

theorem specs_prefix_after (h : History τ) (moves : List (Agenda.Move τ)) :
    Wheel.specsOf h.agenda.wheel.levels <+: Wheel.specsOf (h.after moves).agenda.wheel.levels :=
  after_induction (P := fun g : History τ =>
      Wheel.specsOf h.agenda.wheel.levels <+: Wheel.specsOf g.agenda.wheel.levels)
    (fun _ m hg => hg.trans (Agenda.specs_prefix_move _ m)) (List.prefix_refl _) moves

variable {h : History τ} {m : Agenda.Move τ} {moves later : List (Agenda.Move τ)}

/-- Moves that add no level in the end add none on the way. -/
theorem specs_after_append
    (hspecs : Wheel.specsOf (h.after (moves ++ later)).agenda.wheel.levels =
      Wheel.specsOf h.agenda.wheel.levels) :
    Wheel.specsOf (h.after moves).agenda.wheel.levels = Wheel.specsOf h.agenda.wheel.levels ∧
      Wheel.specsOf ((h.after moves).after later).agenda.wheel.levels =
        Wheel.specsOf (h.after moves).agenda.wheel.levels := by
  rw [after_append] at hspecs
  have hfirst := Agenda.specs_eq_of_prefix (specs_prefix_after h moves)
    (specs_prefix_after (h.after moves) later) hspecs
  exact ⟨hfirst, hspecs.trans hfirst.symm⟩

theorem specs_after_cons
    (hspecs : Wheel.specsOf (h.after (m :: moves)).agenda.wheel.levels =
      Wheel.specsOf h.agenda.wheel.levels) :
    Wheel.specsOf (h.agenda.move m).wheel.levels = Wheel.specsOf h.agenda.wheel.levels ∧
      Wheel.specsOf ((h.move m).after moves).agenda.wheel.levels =
        Wheel.specsOf (h.move m).agenda.wheel.levels := by
  have hsplit : Wheel.specsOf (h.after ([m] ++ moves)).agenda.wheel.levels =
      Wheel.specsOf h.agenda.wheel.levels := hspecs
  exact specs_after_append hsplit

theorem onTime_after {grain : Nat} {now : Int} (hontime : h.agenda.OnTime grain now)
    (hmoves : ∀ m ∈ moves, m.At now)
    (hspecs : Wheel.specsOf (h.after moves).agenda.wheel.levels =
      Wheel.specsOf h.agenda.wheel.levels) :
    (h.after moves).agenda.OnTime grain now := by
  induction moves generalizing h with
  | nil => exact hontime
  | cons m moves ih =>
    obtain ⟨hm, hmoves⟩ := List.forall_mem_cons.1 hmoves
    obtain ⟨hfirst, hrest⟩ := specs_after_cons hspecs
    exact ih (h := h.move m) (Agenda.onTime_move hontime hm hfirst) hmoves hrest

theorem pursues_after (hb : h.agenda.Balanced []) {id : TimerId} {plan : Option Plan}
    (hplan : h.agenda.Pursues id plan)
    (hmoves : ∀ m ∈ moves, (∀ now, m ≠ .tick now) ∧ ¬m.AsksAbout id) :
    (h.after moves).agenda.Pursues id plan := by
  induction moves generalizing h with
  | nil => exact hplan
  | cons m moves ih =>
    obtain ⟨⟨hm, hunasked⟩, hmoves⟩ := List.forall_mem_cons.1 hmoves
    exact ih (h := h.move m) (Agenda.balanced_move hb m)
      (Agenda.pursues_move hb hplan hm hunasked) hmoves

end History

end TimingWheel
