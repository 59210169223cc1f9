import TimingWheel.Proofs.Agenda.Schedule

/-!
# How late a timer can be

Ticks may come at any readings of the clock: a tick may be late, several may be missed, and the
clock may be set back. Then the cursors, which count ticks, and the clock drift apart. A gap
between two readings that is longer than a slot of the finest level is an overrun, and a timer
comes out of the wheel no later after its due time than all overruns since its registration
together. Readings that come early or go back give nothing away, since no gap counts as negative.

## Main definitions

- `Agenda.overrun` — the overruns of a list of readings, all together
- `Wheel.LateBy` — a wait that is over with at most some delay
- `Agenda.Lags` — a timer that comes out of the wheel with at most some delay

## Main statements

- `Agenda.lags_register`, `Agenda.lags_move` — a timer begins without a delay, and moves keep it
- `Agenda.lags_tick` — a tick adds its overrun to the delay, or fires the timer
- `History.lateness_bounded` — a timer that is still pending is not late by more
-/

namespace TimingWheel

variable {τ : Type}

/-! ### Readings -/

namespace Agenda

/-- By how much the gaps between readings are longer than `grain`, all together. The first gap
begins at `since`. -/
def overrun (grain : Nat) : Int → List Int → Int
  | _, [] => 0
  | since, now :: later => max 0 (now - since - grain) + overrun grain now later

end Agenda

/-! ### Delays -/

namespace Wheel

/-- For the timer `id`, which is due at `due`: ticks that are `grain` apart end the wait at most
`slack` after that. No such bound is asked for the next `late` ticks. -/
def LateBy (grain : Nat) (now slack : Int) (late : Nat) (id : TimerId) (due : Int) :
    Nat → Nat → Timer τ → Prop :=
  fun _ n t => t.id = id → t.due = due ∧ (n ≤ late ∨ now + (n * grain : Nat) ≤ due + slack)

variable {grain late : Nat} {now now' slack due : Int} {id : TimerId} {levels : List (Level τ)}

/-- A wait that is over in time is over with any delay. -/
theorem lateBy_of_inTime {t : Timer τ} (hslack : 0 ≤ slack) (hdue : t.id = id → t.due = due)
    {P n : Nat} (h : InTime grain now late P n t) : LateBy grain now slack late id due P n t := by
  intro hid
  rw [InTime, hdue hid] at h
  exact ⟨hdue hid, h.imp_right fun hbefore => by omega⟩

/-- A tick adds its overrun to the delays. -/
theorem lateBy_turn (h : Settled levels) (hgeared : LevelSpec.Geared grain (specsOf levels))
    (hleast : Time.least ≤ now') (hslack : 0 ≤ slack)
    (hwaits : Waits (LateBy grain now slack 1 id due) levels) :
    Waits (LateBy grain now' (slack + max 0 (now' - now - grain)) 0 id due)
      (turn now' levels).2 := by
  refine (waits_turn ?_ h ?_ hwaits).1
  · intro P n t hlate hid
    obtain ⟨hdue, hbound⟩ := hlate hid
    rw [Nat.succ_mul] at hbound
    refine ⟨hdue, ?_⟩
    omega
  · intro l finer hsuffix hlast t ht
    exact (lands_inTime_map_step h hgeared hleast hsuffix hlast t).mono
      fun P n => lateBy_of_inTime (by omega) fun hid => (ht hid).1

end Wheel

namespace Agenda

/-- The timer is to fire once, at `due`, and nothing is asked about it. It will come out of the
wheel at most `slack` after that, if from the reading `now` on ticks are `grain` apart. -/
structure Lags (grain : Nat) (now slack : Int) (id : TimerId) (due : Int) (a : Agenda τ) :
    Prop where
  balanced : Balanced [] a
  geared : LevelSpec.Geared grain (Wheel.specsOf a.wheel.levels)
  slack_nonneg : 0 ≤ slack
  pursues : a.Pursues id (some ⟨due, 0⟩)
  waits : Wheel.Waits (Wheel.LateBy grain now slack 1 id due) a.wheel.levels

variable {grain : Nat} {now now' slack due : Int} {id : TimerId} {a : Agenda τ}

/-- A timer that was registered begins without a delay. -/
theorem lags_register (h : Balanced [] a)
    (hgeared : LevelSpec.Geared grain (Wheel.specsOf a.wheel.levels))
    (haccepts : a.phase.acceptsTimers = true) (hleast : Time.least ≤ now) {interval : Int}
    (honce : interval ≤ 0) (task : Option τ) :
    (a.move (.register due interval task now)).Lags grain now 0 ⟨a.nextId⟩ due := by
  have hbalanced := balanced_move h (.register due interval task now)
  have hpursues := pursues_register h haccepts due interval task now
  rw [Int.toNat_of_nonpos honce] at hpursues
  refine ⟨hbalanced, ?_, Int.le_refl 0, hpursues, ?_⟩
  · rw [specs_move fun _ heq => by cases heq]
    exact hgeared
  · refine (waits_register h hgeared haccepts hleast due interval task).mono ?_
    intro t _ P n hnew hid
    obtain ⟨hdue, htime⟩ := hnew hid
    exact Wheel.lateBy_of_inTime (Int.le_refl 0) (fun _ => hdue) htime hid

theorem lags_move (h : a.Lags grain now slack id due) {m : Move τ} (hm : ∀ now, m ≠ .tick now)
    (hunasked : ¬m.AsksAbout id)
    (hspecs : Wheel.specsOf (a.move m).wheel.levels = Wheel.specsOf a.wheel.levels) :
    (a.move m).Lags grain now slack id due where
  balanced := balanced_move h.balanced m
  geared := hspecs ▸ h.geared
  slack_nonneg := h.slack_nonneg
  pursues := pursues_move h.balanced h.pursues hm hunasked
  waits := waits_move_of_used h.balanced (Pursues.used h.balanced h.pursues)
    (fun _ hne _ _ heq => absurd heq hne) hm hspecs h.waits

/-- A timer that is to fire once is gone after a tick, or it is still to fire: then it is not due
yet, or the tick has not yielded it. -/
theorem pursues_tick_once (h : Balanced [] a) (hplan : a.Pursues id (some ⟨due, 0⟩)) (now : Int) :
    Gone id (a.tick now).2 ∨ (a.tick now).2.Pursues id (some ⟨due, 0⟩) ∧
      (now < due ∨ ∃ t ∈ a.unreached now, t.id = id) := by
  obtain ⟨⟨t, ht, rfl, hplan⟩, hreset, hcancel⟩ := hplan
  rcases (mem_timers_iff_yielded h now).1 ht with hyielded | hstays
  · rcases verdict_cases now t a with ⟨due, hsome, -⟩ | ⟨-, hnoted, -⟩ | ⟨-, -, hdue, hv⟩ |
      ⟨-, -, hdue, hv⟩
    · rw [hreset] at hsome
      cases hsome
    · exact absurd hnoted hcancel
    · refine Or.inr ⟨hplan ▸ pursues_of_outcome h hyielded hcancel (by rw [hv]; rfl), Or.inl ?_⟩
      have hplanDue : t.due = due := congrArg Plan.due hplan
      rwa [← hplanDue]
    · have honce : ¬t.repeats = true := by
        have hinterval : t.interval = 0 := congrArg Plan.interval hplan
        simp [Timer.repeats, hinterval]
      exact Or.inl (gone_of_outcome h hyielded (by rw [hv]; exact if_neg honce))
  · obtain ⟨hheld, hasked, hnoted, -⟩ := stays_tick h hstays
    exact Or.inr ⟨⟨⟨t, hheld, rfl, hplan⟩, hasked.trans hreset, mt hnoted.1 hcancel⟩,
      Or.inr ⟨t, hstays, rfl⟩⟩

/-- A tick adds its overrun to the delay of a timer, unless it fires the timer. One that it leaves
in the wheel is not due yet, or late by no more than that. -/
theorem lags_tick (h : a.Lags grain now slack id due) (hleast : Time.least ≤ now') :
    Gone id (a.tick now').2 ∨
      (a.tick now').2.Lags grain now' (slack + max 0 (now' - now - grain)) id due ∧
        (now' < due ∨ now' + grain ≤ due + (slack + max 0 (now' - now - grain))) := by
  have hb := h.balanced
  have hslack := h.slack_nonneg
  have hturn := Wheel.lateBy_turn hb.settled h.geared hleast hslack h.waits
  have hyielded := balanced_yielded hb now'
  have hlevels : (a.wheel.tick now').2.levels = (Wheel.turn now' a.wheel.levels).2 := by
    rw [Wheel.tick_eq_turn]
  rw [← hlevels] at hturn
  refine (pursues_tick_once hb h.pursues now').imp_right ?_
  rintro ⟨hpursues, hmet⟩
  have hgeared : LevelSpec.Geared grain (Wheel.specsOf (a.tick now').2.wheel.levels) := by
    rw [specsOf_tick]
    exact h.geared
  refine ⟨⟨balanced_tick hb now', hgeared, by omega, hpursues, ?_⟩, hmet.imp_right ?_⟩
  · refine waits_tick hb (hturn.mono ?_) ?_
    · intro t _ P n hlate hid
      obtain ⟨hdue, hbound⟩ := hlate hid
      exact ⟨hdue, hbound.imp_left fun hzero => Nat.le_succ_of_le hzero⟩
    · -- What goes back has the due time that it is to have.
      intro t ht u hout
      have hmem : u ∈ (a.tick now').2.wheel.timers := (timers_tick hb now').mem_iff.2
        (List.mem_append_left _ (List.mem_filterMap.2 ⟨t, ht, hout⟩))
      have hdue : u.id = id → u.due = due := fun hid =>
        congrArg Plan.due (hpursues.plan_eq (balanced_tick hb now') hmem hid)
      rw [specsOf_tick, ← Wheel.specsOf_tick now'] at hgeared
      exact (Wheel.lands_inTime_of_settled hyielded.settled hgeared hleast u).mono
        fun P n => Wheel.lateBy_of_inTime (by omega) hdue
  · rintro ⟨t, ht, hid⟩
    obtain ⟨P, n, hn, hlate⟩ := Wheel.one_le_of_waits hyielded.settled hturn t ht
    have hbound := (hlate hid).2.resolve_left (Nat.not_le.2 hn)
    have hgrain : grain ≤ n * grain := Nat.le_mul_of_pos_left _ hn
    omega

end Agenda

/-! ### Runs -/

namespace History

open Agenda (overrun)

/-- Whatever moves follow, a timer that is still pending is not due at the last tick, or it is late
by no more than all overruns together. -/
theorem gone_or_lags_after {grain : Nat} {now slack due : Int} {id : TimerId} {h : History τ}
    {later : List (Agenda.Move τ)} (hlags : h.agenda.Lags grain now slack id due)
    (hunasked : ∀ m ∈ later, ¬m.AsksAbout id)
    (hfits : ∀ c ∈ later.filterMap Agenda.Move.reading?, Time.least ≤ c)
    (hspecs : Wheel.specsOf (h.after later).agenda.wheel.levels =
      Wheel.specsOf h.agenda.wheel.levels) :
    (h.after later).agenda.Gone id ∨
      ∀ c ∈ (later.filterMap Agenda.Move.reading?).getLast?,
        c < due ∨ c + grain ≤
          due + (slack + overrun grain now (later.filterMap Agenda.Move.reading?)) := by
  induction later generalizing h now slack with
  | nil => exact Or.inr fun c hc => by cases hc
  | cons m later ih =>
    obtain ⟨hm, hrestUnasked⟩ := List.forall_mem_cons.1 hunasked
    obtain ⟨hfirst, hrest⟩ := specs_after_cons hspecs
    rcases m.tick_or_silent with ⟨now', rfl⟩ | ⟨hother, hnone⟩
    · rw [List.filterMap_cons_some (f := Agenda.Move.reading?) rfl] at hfits ⊢
      obtain ⟨hleast, hfits⟩ := List.forall_mem_cons.1 hfits
      rcases Agenda.lags_tick hlags hleast with hgone | ⟨hnext, hmet⟩
      · exact Or.inl (gone_after (h := h.move (.tick now'))
          (Agenda.balanced_tick hlags.balanced now') hgone later)
      · refine (ih (h := h.move (.tick now')) hnext hrestUnasked hfits hrest).imp_right ?_
        intro hlater c hc
        rw [List.getLast?_cons, Option.mem_some_iff] at hc
        rw [overrun, ← Int.add_assoc slack]
        cases hlast : (later.filterMap Agenda.Move.reading?).getLast? with
        | none =>
          rw [List.getLast?_eq_none_iff.1 hlast, List.getLast?_nil, Option.getD_none] at hc
          rw [List.getLast?_eq_none_iff.1 hlast, overrun, Int.add_zero, ← hc]
          exact hmet
        | some last =>
          rw [hlast, Option.getD_some] at hc
          exact hlater c (hc ▸ hlast)
    · rw [List.filterMap_cons_none hnone] at hfits ⊢
      exact ih (h := h.move m) (Agenda.lags_move hlags hother hm hfirst) hrestUnasked hfits hrest

/-- Suppose that a timer which is to fire once is registered at the reading `since`, that the wheel
is nested then (with widths that are words of 32 bits) and no level is added any more, and that
nothing is asked about the timer. Whatever readings the ticks come at, and whatever else happens:
if the timer is still pending after a tick at `now`, then it is not due yet, or a slot of the
finest level after `now` is later than its due time by no more than all overruns together. So
without an overrun it is not pending any more after a tick that has come to its due time. -/
theorem lateness_bounded {h g : History τ} {before later : List (Agenda.Move τ)}
    {due interval since now : Int} {task : Option τ} {fine : Level τ}
    (hbefore : ({} : History τ).after before = h) (haccepts : h.agenda.phase.acceptsTimers = true)
    (hnested : LevelSpec.Nested (Wheel.specsOf h.agenda.wheel.levels))
    (hwords : ∀ spec ∈ Wheel.specsOf h.agenda.wheel.levels, spec.width < 4294967296)
    (hfine : h.agenda.wheel.finest? = some fine) (honce : interval ≤ 0)
    (hlater : (h.move (.register due interval task since)).after later = g)
    (hunasked : ∀ m ∈ later, ¬m.AsksAbout ⟨h.agenda.nextId⟩)
    (hspecs : Wheel.specsOf g.agenda.wheel.levels = Wheel.specsOf h.agenda.wheel.levels)
    (hfits : ∀ c ∈ since :: later.filterMap Agenda.Move.reading?, Time.Fits c)
    (hlast : (later.filterMap Agenda.Move.reading?).getLast? = some now) :
    let late := overrun fine.width since (later.filterMap Agenda.Move.reading?)
    (g.agenda.isPending ⟨h.agenda.nextId⟩ = true → now < due ∨ now + fine.width ≤ due + late) ∧
      (late = 0 → due ≤ now → g.agenda.isPending ⟨h.agenda.nextId⟩ = false) := by
  intro late
  obtain ⟨hsince, hreadings⟩ := List.forall_mem_cons.1 hfits
  have hb : h.agenda.Balanced [] := hbefore ▸ balanced_after Agenda.balanced_empty before
  have hwidth : 1 ≤ fine.width := (hb.settled fine (List.mem_of_getLast? hfine)).valid.2
  let start := h.move (.register due interval task since)
  have hlags : start.agenda.Lags fine.width since 0 ⟨h.agenda.nextId⟩ due :=
    Agenda.lags_register hb (Agenda.geared_of_nested hb hnested hwords hfine) haccepts hsince.1
      honce task
  have hrun := gone_or_lags_after hlags hunasked (fun c hc => (hreadings c hc).1)
    (specs_after_cons (by rw [← hlater] at hspecs; exact hspecs)).2
  rw [hlater] at hrun
  simp only [Agenda.isPending, decide_eq_true_eq, decide_eq_false_iff_not]
  have hlate : (⟨h.agenda.nextId⟩ : TimerId) ∈ g.agenda.live →
      now < due ∨ now + fine.width ≤ due + late := by
    intro hlive
    have hmet := (hrun.resolve_left fun hgone => hgone.not_live hlive) now hlast
    rwa [Int.zero_add] at hmet
  refine ⟨hlate, ?_⟩
  intro hzero hdue hlive
  have hbound := hlate hlive
  omega

/-- With two levels, ticks that should be 5 milliseconds apart, a stall, and a clock that goes
back. After the third tick a timer due at 25 is still pending while the clock shows 26. -/
theorem lateness_bounded_stalled :
    let h := ({} : History Unit).after
      [.append ⟨3, 10, "coarse"⟩, .append ⟨2, 5, "fine"⟩, .start]
    let g := (h.move (.register 25 0 none 0)).after
      [.tick 30, .tick 20, .register 7 0 none 20, .tick 26]
    g.agenda.isPending ⟨1⟩ = true ∧ (26 : Int) + 5 ≤ 25 + overrun 5 0 [30, 20, 26] := by
  have hbounded := @lateness_bounded Unit _ _
    [.append ⟨3, 10, "coarse"⟩, .append ⟨2, 5, "fine"⟩, .start]
    [.tick 30, .tick 20, .register 7 0 none 20, .tick 26] 25 0 0 26 none _ rfl rfl
    ⟨by decide, trivial⟩ (by decide) rfl (by decide) rfl (by simp [Agenda.Move.AsksAbout]) rfl
    (by decide) rfl
  exact ⟨rfl, (hbounded.1 rfl).resolve_left (by decide)⟩

end History

end TimingWheel
