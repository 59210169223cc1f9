import TimingWheel.Proofs.Agenda.Pace
import TimingWheel.Proofs.Wheel.Growth

/-!
# No timer is left behind

Nothing is asked of the widths of the levels here, and levels may be appended while timers wait.
Then a timer may come out of the wheel long after its due time, since its distance says little
about its slot. But the cursors turn whatever the widths are. A timer whose due time is over waits
in some slot for a number of ticks that a turn of the wheel bounds, and each tick takes one off
that number. It never goes up again: where a level hands its slot down all finer cursors are on
their first slots, so that a timer which is due falls through to the slot that this tick empties.

## Main definitions

- `Wheel.DueWithin` — a wait of a timer that is due, with a bound
- `Agenda.Nears` — a timer that is due fires after a bounded number of ticks

## Main statements

- `Agenda.nears_of_pursues` — a turn of the wheel is a bound for every timer
- `Agenda.nears_move`, `Agenda.nears_tick` — moves scale the bound, and ticks take one off it
- `History.fires_within` — how soon a timer that is due fires
-/

namespace TimingWheel

variable {τ : Type}

namespace Wheel

/-- For the timer `id`: it is due by the time `now`, and the wait is at most `bound`. -/
def DueWithin (now : Int) (id : TimerId) (bound : Nat) : Nat → Nat → Timer τ → Prop :=
  fun _ n t => t.id = id → t.due ≤ now ∧ n ≤ bound

theorem dueWithin_of_ne {now : Int} {id : TimerId} {t : Timer τ} (h : t.id ≠ id) (bound P n : Nat) :
    DueWithin now id bound P n t := fun heq => absurd heq h

variable {now now' : Int} {id : TimerId} {bound : Nat} {levels : List (Level τ)}

theorem elapsedIn_of_odometer_eq_zero (h : LevelsWellFormed levels) (hzero : odometer levels = 0) :
    elapsedIn levels = 0 := by
  have hsum : elapsedSum levels = 0 := by
    induction levels with
    | nil => rfl
    | cons l finer ih =>
      obtain ⟨-, hfiner⟩ := List.forall_mem_cons.1 h
      rw [odometer_cons, Nat.add_eq_zero_iff, Nat.mul_eq_zero] at hzero
      have hcursor : l.cursor = 0 := hzero.1.resolve_right (Nat.ne_of_gt (turnOf_pos hfiner))
      rw [elapsedSum_cons, hcursor, ih hfiner hzero.2]
      omega
  show Time.wrap (elapsedSum levels : Nat) = 0
  rw [hsum]
  rfl

/-- A timer that is due lies in no slot ahead of cursors on their first slots. -/
theorem not_reaches_of_due {l : Level τ} {finer : List (Level τ)} (hl : l.WellFormed)
    (hzero : elapsedIn finer = 0) {t : Timer τ} (hdue : t.due ≤ now) (hleast : Time.least ≤ now) :
    l.reaches (distance t now finer) = false := by
  have hwidth : 0 < l.width := hl.valid.2
  have hdistance : distance t now finer ≤ 0 := by
    rw [distance, hzero]
    unfold Time.least at hleast
    unfold Time.minus Time.plus Time.saturate Time.least Time.greatest
    omega
  rw [Level.reaches, decide_eq_false_iff_not]
  omega

/-- Where levels have just moved to their first slots, a timer that is due is to be emptied at
once. -/
theorem lands_dueWithin (h : LevelsWellFormed levels) (hzero : odometer levels = 0)
    (hfresh : ∀ l ∈ levels, l.drained = false) (hleast : Time.least ≤ now') (hnow : now ≤ now')
    {t : Timer τ} (ht : t.id = id → t.due ≤ now) :
    Lands (DueWithin now id bound) t now' levels := by
  by_cases hid : t.id = id
  · refine lands_intro h (Or.inr hzero) ?_ ?_
    · intro l finer hsuffix hreaches
      obtain ⟨hl, hfiner⟩ := List.forall_mem_cons.1 fun m hm => h m (hsuffix.subset hm)
      have hzeroFiner : odometer finer = 0 := by
        have hbelow : ∀ coarse : List (Level τ), odometer (coarse ++ l :: finer) = 0 →
            odometer finer = 0 := by
          intro coarse
          induction coarse with
          | nil => exact Nat.eq_zero_of_add_eq_zero_left
          | cons m coarse ih => exact fun hall => ih (Nat.eq_zero_of_add_eq_zero_left hall)
        obtain ⟨coarse, rfl⟩ := hsuffix
        exact hbelow coarse hzero
      rw [not_reaches_of_due hl (elapsedIn_of_odometer_eq_zero hfiner hzeroFiner)
        (Int.le_trans (ht hid) hnow) hleast] at hreaches
      cases hreaches
    · intro l hl n hn _
      rw [hfresh l hl, if_neg Bool.false_ne_true] at hn
      exact ⟨ht hid, by omega⟩
  · exact lands_of_forall h (Or.inr hzero) fun P n => dueWithin_of_ne hid bound P n

/-- A tick takes one off the bound, at any reading that does not lie before `now`. -/
theorem dueWithin_turn (h : Settled levels) (hleast : Time.least ≤ now') (hnow : now ≤ now')
    (hwaits : Waits (DueWithin now id (bound + 1)) levels) :
    Waits (DueWithin now id bound) (turn now' levels).2 := by
  refine (waits_turn ?_ h ?_ hwaits).1
  · intro P n t hdue hid
    obtain ⟨hle, hn⟩ := hdue hid
    exact ⟨hle, Nat.le_of_succ_le_succ hn⟩
  · intro l finer hsuffix hlast t ht
    have hfiner := (h.below hsuffix).wellFormed
    exact lands_dueWithin (wellFormed_map_step hfiner) (odometer_map_step hfiner hlast)
      drained_map_step hleast hnow fun hid => (ht hid).1

end Wheel

namespace Agenda

open Wheel (DueWithin turnOf)

/-- Nothing is asked about the timer, which follows a plan that is due, and it comes out of the
wheel within `bound` ticks. -/
structure Nears (bound : Nat) (now : Int) (id : TimerId) (a : Agenda τ) : Prop where
  balanced : Balanced [] a
  pursues : ∃ p : Plan, p.due ≤ now ∧ a.Pursues id (some p)
  waits : Wheel.Waits (DueWithin now id bound) a.wheel.levels

variable {bound : Nat} {now now' : Int} {id : TimerId} {a : Agenda τ}

/-- Whichever slot a timer is in, a turn of the wheel is long enough. -/
theorem nears_of_pursues (h : Balanced [] a) {p : Plan} (hplan : a.Pursues id (some p))
    (hdue : p.due ≤ now) : a.Nears (turnOf a.wheel.levels) now id := by
  refine ⟨h, ⟨p, hdue, hplan⟩, (Wheel.waits_le_turnOf h.settled).mono ?_⟩
  intro t ht P n hn hid
  have hsame : t.due = p.due := congrArg Plan.due (Pursues.plan_eq h hplan ht hid)
  exact ⟨by omega, hn⟩

theorem Nears.bound_pos (h : a.Nears bound now id) : 0 < bound := by
  obtain ⟨p, -, ⟨t, ht, hid, -⟩, -, -⟩ := h.pursues
  obtain ⟨P, n, hn, hdue⟩ := Wheel.one_le_of_waits h.balanced.settled h.waits t ht
  exact Nat.lt_of_lt_of_le hn (hdue hid).2

/-- A move between ticks leaves the bound as it is, or scales it as it scales the turn of the
wheel. -/
theorem nears_move (h : a.Nears bound now id) {m : Move τ} (hm : ∀ now, m ≠ .tick now)
    (hunasked : ¬m.AsksAbout id) :
    ∃ bound', (a.move m).Nears bound' now id ∧
      bound' * turnOf a.wheel.levels = bound * turnOf (a.move m).wheel.levels := by
  have hbalanced := balanced_move h.balanced m
  obtain ⟨p, hdue, hplan⟩ := h.pursues
  have hpursues : ∃ p : Plan, p.due ≤ now ∧ (a.move m).Pursues id (some p) :=
    ⟨p, hdue, pursues_move h.balanced hplan hm hunasked⟩
  by_cases hspecs : Wheel.specsOf (a.move m).wheel.levels = Wheel.specsOf a.wheel.levels
  · refine ⟨bound, ⟨hbalanced, hpursues, ?_⟩, by rw [Wheel.turnOf_congr hspecs]⟩
    exact waits_move_of_used h.balanced (Pursues.used h.balanced hplan)
      (fun u hne => Wheel.dueWithin_of_ne hne bound) hm hspecs h.waits
  · obtain ⟨spec, -, hwheel⟩ := append_of_specs_ne hspecs
    refine ⟨bound * spec.slotCount, ⟨hbalanced, hpursues, ?_⟩, ?_⟩
    · rw [hwheel]
      refine Wheel.waits_concat h.waits ?_
      intro P n t hwithin hid
      exact ⟨(hwithin hid).1, Nat.mul_le_mul_right _ (hwithin hid).2⟩
    · rw [hwheel, Wheel.turnOf_concat, Nat.mul_assoc, Nat.mul_comm spec.slotCount]

/-- A tick fires a timer that is due, or it takes one off the bound. -/
theorem nears_tick (h : a.Nears (bound + 1) now id) (hleast : Time.least ≤ now')
    (hnow : now ≤ now') :
    id ∈ (a.tick now').1.map (·.id) ∨ (a.tick now').2.Nears bound now id := by
  have hb := h.balanced
  obtain ⟨p, hdue, ⟨t, ht, rfl, rfl⟩, hreset, hcancel⟩ := h.pursues
  rcases (mem_timers_iff_yielded hb now').1 ht with hyielded | hstays
  · left
    obtain ⟨plan', -, hfirings⟩ := pursues_tick_of_yielded hb hyielded hreset hcancel
    have hcount := hfirings []
    rw [Plan.firings_of_le (p := t.plan) (Int.le_trans hdue hnow)] at hcount
    have hone : 1 = ((a.tick now').1.map (·.id)).count t.id := (List.cons.inj hcount).1
    exact List.count_pos_iff.1 (by omega)
  · right
    obtain ⟨hheld, hasked, hnoted, -⟩ := stays_tick hb hstays
    refine ⟨balanced_tick hb now',
      ⟨t.plan, hdue, ⟨t, hheld, rfl, rfl⟩, hasked.trans hreset, mt hnoted.1 hcancel⟩, ?_⟩
    refine waits_tick_of_unreached hb hstays (fun u hne => Wheel.dueWithin_of_ne hne bound) ?_
    rw [Wheel.tick_eq_turn]
    exact Wheel.dueWithin_turn hb.settled hleast hnow h.waits

end Agenda

namespace History

open Wheel (turnOf)

/-- The bound of a timer that is due, told in ticks of the wheel as it is in the end: one of so
many ticks fires the timer, if nothing is asked about it. -/
theorem fires_within {bound ticks : Nat} {now : Int} {id : TimerId} {h : History τ}
    {moves : List (Agenda.Move τ)} (hnears : h.agenda.Nears bound now id)
    (hunasked : ∀ m ∈ moves, ¬m.AsksAbout id)
    (hreadings : ∀ c ∈ moves.filterMap Agenda.Move.reading?, Time.least ≤ c ∧ now ≤ c)
    (hbound : bound * turnOf (h.after moves).agenda.wheel.levels ≤
      ticks * turnOf h.agenda.wheel.levels)
    (hticks : ticks ≤ Agenda.ticksIn moves) : ∃ r ∈ (h.rounds moves).take ticks, id ∈ r := by
  induction moves generalizing h bound ticks with
  | nil =>
    -- A timer that waits has at least one tick to come.
    obtain rfl : ticks = 0 := Nat.le_zero.1 hticks
    have hpos := Nat.mul_pos hnears.bound_pos
      (Wheel.turnOf_pos hnears.balanced.settled.wellFormed)
    rw [Nat.zero_mul] at hbound
    exact absurd hbound (Nat.not_le.2 hpos)
  | cons m moves ih =>
    obtain ⟨hm, hunaskedLater⟩ := List.forall_mem_cons.1 hunasked
    have hfinal := (balanced_after hnears.balanced (m :: moves)).settled
    have hturn : turnOf h.agenda.wheel.levels ≤ turnOf (h.after (m :: moves)).agenda.wheel.levels :=
      LevelSpec.turnTicks_le_of_prefix hfinal.valid (specs_prefix_after h (m :: moves))
    rcases m.tick_or_silent with ⟨now', rfl⟩ | ⟨hother, hnone⟩
    · rw [List.filterMap_cons_some (f := Agenda.Move.reading?) rfl] at hreadings
      obtain ⟨⟨hleast, hnow⟩, hlater⟩ := List.forall_mem_cons.1 hreadings
      obtain ⟨bound, rfl⟩ := Nat.exists_eq_add_of_lt hnears.bound_pos
      rw [Nat.zero_add] at hnears hbound
      -- The turn in the end is no shorter than the present one, so that the ticks do not run out.
      have hpos := Wheel.turnOf_pos hfinal.wellFormed
      obtain ⟨ticks, rfl⟩ : ∃ k, ticks = k + 1 := by
        refine Nat.exists_eq_succ_of_ne_zero ?_
        rintro rfl
        rw [Nat.zero_mul, Nat.succ_mul] at hbound
        omega
      rw [rounds, List.take_succ_cons]
      rcases Agenda.nears_tick hnears hleast hnow with hfired | hnext
      · exact ⟨_, List.mem_cons_self, hfired⟩
      · have hsame : turnOf (h.agenda.tick now').2.wheel.levels = turnOf h.agenda.wheel.levels :=
          Wheel.turnOf_congr (Agenda.specsOf_tick h.agenda now')
        have hless : bound * turnOf (h.after (.tick now' :: moves)).agenda.wheel.levels ≤
            ticks * turnOf (h.agenda.tick now').2.wheel.levels := by
          rw [hsame]
          rw [Nat.succ_mul, Nat.succ_mul] at hbound
          omega
        obtain ⟨r, hr, hid⟩ := ih (h := h.move (.tick now')) hnext hunaskedLater hlater hless
          (Nat.le_of_succ_le_succ hticks)
        exact ⟨r, List.mem_cons_of_mem _ hr, hid⟩
    · rw [Agenda.ticksIn, List.filterMap_cons_none hnone] at hticks
      rw [List.filterMap_cons_none hnone] at hreadings
      rw [rounds_cons_of_no_tick hother]
      obtain ⟨bound', hnext, hscale⟩ := Agenda.nears_move hnears hother hm
      refine ih (h := h.move m) hnext hunaskedLater hreadings ?_ hticks
      -- Both sides are scaled alike, as the present turn is.
      refine Nat.le_of_mul_le_mul_right ?_ (Wheel.turnOf_pos hnears.balanced.settled.wellFormed)
      calc bound' * turnOf (h.after (m :: moves)).agenda.wheel.levels * turnOf h.agenda.wheel.levels
          = bound' * turnOf h.agenda.wheel.levels *
              turnOf (h.after (m :: moves)).agenda.wheel.levels := Nat.mul_right_comm _ _ _
        _ = bound * turnOf (h.after (m :: moves)).agenda.wheel.levels *
              turnOf (h.agenda.move m).wheel.levels := by rw [hscale, Nat.mul_right_comm]
        _ ≤ ticks * turnOf h.agenda.wheel.levels * turnOf (h.agenda.move m).wheel.levels :=
          Nat.mul_le_mul_right _ hbound
        _ = ticks * turnOf (h.agenda.move m).wheel.levels * turnOf h.agenda.wheel.levels :=
          Nat.mul_right_comm _ _ _

end History

end TimingWheel
