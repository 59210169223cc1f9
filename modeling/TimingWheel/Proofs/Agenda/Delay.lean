import TimingWheel.Proofs.Agenda.Pace
import TimingWheel.Proofs.Wheel.Growth

/-!
# Timers that were registered before a level was appended

A timer that waits in a slot knows nothing of the levels that are appended below. Its wait is
counted in steps of what was the finest level then, and each of these steps is a whole turn of the
levels below now. So no timer that was there before comes out within the first such turn. One that
is due later than that has lost nothing, since the turn is no longer than the slot is wide; one
that is due sooner comes out at the end of the turn.

## Main definitions

- `Agenda.Bides` — a timer that comes out of the wheel in time, but not within some number of ticks

## Main statements

- `Agenda.bides_move` — an appended level multiplies that number by its slots
- `Agenda.bides_tick` — a tick takes one off it and does not answer the timer
- `History.bides_after_laying` — what appended levels make of a timer
- `History.answered_of_bides` — how the ticks answer the timer from then on
-/

namespace TimingWheel

variable {τ : Type}

theorem LevelSpec.nested_of_prefix {specs specs' : List LevelSpec} (h : specs <+: specs')
    (hnested : Nested specs') : Nested specs := by
  obtain ⟨rest, rfl⟩ := h
  induction specs with
  | nil => trivial
  | cons coarse finer ih =>
    cases finer with
    | nil => trivial
    | cons fine finer => exact ⟨hnested.1, ih hnested.2⟩

/-- A turn of a level that is appended to nested ones is no longer than a slot of the finest of
them is wide. -/
theorem LevelSpec.span_le_of_nested_concat {specs : List LevelSpec} {fine spec : LevelSpec}
    (hnested : Nested (specs ++ [spec])) (hfine : specs.getLast? = some fine) :
    spec.span ≤ fine.width := by
  induction specs with
  | nil => cases hfine
  | cons coarse finer ih =>
    cases finer with
    | nil =>
      obtain rfl := Option.some.inj hfine
      exact hnested.1
    | cons next rest => exact ih hnested.2 hfine

namespace Agenda

open Wheel (InTime turnOf)

/-- The timer follows the plan, nothing is asked about it, and it comes out of the wheel in time,
but not before `late` ticks are over. -/
structure Bides (grain late : Nat) (now : Int) (id : TimerId) (p : Plan) (a : Agenda τ) : Prop where
  balanced : Balanced [] a
  geared : LevelSpec.Geared grain (Wheel.specsOf a.wheel.levels)
  grain_pos : 1 ≤ grain
  least_le : Time.least ≤ now
  pursues : a.Pursues id (some p)
  waits : Wheel.Waits (fun P n t => t.id = id → late ≤ n ∧ InTime grain now late P n t)
    a.wheel.levels

variable {grain late : Nat} {now now' : Int} {id : TimerId} {p : Plan} {a : Agenda τ}

theorem Steady.bides (h : a.Steady grain now id (some p)) : a.Bides grain 1 now id p :=
  { h with
    waits := (h.waits.pos h.balanced.settled).mono fun _ _ _ _ hn hid => ⟨hn.1, hn.2 hid⟩ }

theorem Bides.steady (h : a.Bides grain 1 now id p) : a.Steady grain now id (some p) :=
  { h with waits := h.waits.mono fun _ _ _ _ hn hid => (hn hid).2 }

/-- A timer that was registered is on schedule, and between two ticks it has one to come. -/
theorem bides_register (h : Balanced [] a)
    (hgeared : LevelSpec.Geared grain (Wheel.specsOf a.wheel.levels)) (hgrain : 1 ≤ grain)
    (haccepts : a.phase.acceptsTimers = true) (hleast : Time.least ≤ now) (due interval : Int)
    (task : Option τ) :
    (a.move (.register due interval task now)).Bides grain 1 now ⟨a.nextId⟩
      ⟨due, interval.toNat⟩ := by
  refine Steady.bides ⟨balanced_move h _, ?_, hgrain, hleast,
    pursues_register h haccepts due interval task now, ?_⟩
  · rw [specs_move fun _ heq => by cases heq]
    exact hgeared
  · exact (waits_register h hgeared haccepts hleast due interval task).mono
      fun _ _ _ _ hnew hid => (hnew hid).2

theorem bides_between (h : a.Bides grain late now id p) {m : Move τ} (hm : ∀ now, m ≠ .tick now)
    (hunasked : ¬m.AsksAbout id)
    (hspecs : Wheel.specsOf (a.move m).wheel.levels = Wheel.specsOf a.wheel.levels) :
    (a.move m).Bides grain late now id p where
  balanced := balanced_move h.balanced m
  geared := hspecs ▸ h.geared
  grain_pos := h.grain_pos
  least_le := h.least_le
  pursues := pursues_move h.balanced h.pursues hm hunasked
  waits := waits_move_of_used h.balanced (Pursues.used h.balanced h.pursues)
    (fun _ hne _ _ heq => absurd heq hne) hm hspecs h.waits

/-- A move between ticks leaves the timer alone. A level that it appends multiplies the ticks that
the timer bides, and its slots are the new measure of time. -/
theorem bides_move {fine fine' : LevelSpec} (h : a.Bides fine.width late now id p) {m : Move τ}
    (hm : ∀ now, m ≠ .tick now) (hunasked : ¬m.AsksAbout id)
    (hfine : (Wheel.specsOf a.wheel.levels).getLast? = some fine)
    (hfine' : (Wheel.specsOf (a.move m).wheel.levels).getLast? = some fine')
    (hnested : LevelSpec.Nested (Wheel.specsOf (a.move m).wheel.levels))
    (hwords : ∀ spec ∈ Wheel.specsOf (a.move m).wheel.levels, spec.width < 4294967296) :
    ∃ late', (a.move m).Bides fine'.width late' now id p ∧
      late' * turnOf a.wheel.levels = late * turnOf (a.move m).wheel.levels := by
  by_cases hspecs : Wheel.specsOf (a.move m).wheel.levels = Wheel.specsOf a.wheel.levels
  · obtain rfl : fine = fine' := by
      rw [hspecs, hfine] at hfine'
      exact Option.some.inj hfine'
    exact ⟨late, bides_between h hm hunasked hspecs, by rw [Wheel.turnOf_congr hspecs]⟩
  · obtain ⟨spec, hvalid, hwheel⟩ := append_of_specs_ne hspecs
    have hbalanced := balanced_move h.balanced m
    have hgeared' := LevelSpec.geared_of_nested hbalanced.settled.valid hnested hwords hfine'
    rw [hwheel, Wheel.specsOf_append] at hnested hfine'
    obtain rfl : spec = fine' := Option.some.inj (List.getLast?_concat.symm.trans hfine')
    have hspan : spec.slotCount * spec.width ≤ fine.width :=
      LevelSpec.span_le_of_nested_concat hnested hfine
    refine ⟨late * spec.slotCount, ⟨hbalanced, hgeared', hvalid.2, h.least_le,
      pursues_move h.balanced h.pursues hm hunasked, ?_⟩, ?_⟩
    · rw [hwheel]
      refine Wheel.waits_concat h.waits ?_
      intro P n t hbides hid
      obtain ⟨hlate, htime⟩ := hbides hid
      refine ⟨Nat.mul_le_mul_right _ hlate, htime.imp (Nat.mul_le_mul_right _) fun hdue => ?_⟩
      -- As many turns of the new level as there were steps take no more time than these did.
      have hticks : n * spec.slotCount * spec.width ≤ n * fine.width := by
        rw [Nat.mul_assoc]
        exact Nat.mul_le_mul_left n hspan
      show now + (n * spec.slotCount * spec.width : Nat) ≤ t.due
      omega
    · rw [hwheel, Wheel.turnOf_concat, Nat.mul_assoc, Nat.mul_comm spec.slotCount]

/-- While there is more than one tick to bide, a tick takes one off and does not answer the
timer. -/
theorem bides_tick (h : a.Bides grain (late + 2) now id p) (hleast : Time.least ≤ now')
    (hnow : now' ≤ now + grain) :
    (a.tick now').2.Bides grain (late + 1) now' id p ∧
      ((a.tick now').1.map (·.id)).count id = 0 := by
  have hb := h.balanced
  obtain ⟨⟨t, ht, rfl, hplan⟩, hreset, hcancel⟩ := h.pursues
  have hturn : Wheel.Waits (fun P n u => u.id = t.id →
        late + 1 ≤ n ∧ InTime grain now' (late + 1) P n u) (Wheel.turn now' a.wheel.levels).2 ∧
      ∀ u ∈ (Wheel.turn now' a.wheel.levels).1, u.id = t.id →
        late + 1 ≤ 0 ∧ InTime grain now' (late + 1) 1 0 u := by
    refine Wheel.waits_turn ?_ hb.settled ?_ h.waits
    · intro P n u hbides hid
      obtain ⟨hlate, htime⟩ := hbides hid
      exact ⟨Nat.le_of_succ_le_succ hlate, Wheel.inTime_of_succ hnow htime⟩
    · -- What is handed down in this tick is another timer.
      intro l finer hsuffix hlast u hu
      have hfiner := (hb.settled.below hsuffix).wellFormed
      refine Wheel.lands_of_forall (Wheel.wellFormed_map_step hfiner)
        (Or.inr (Wheel.odometer_map_step hfiner hlast)) ?_
      intro P n hid
      exact absurd (hu hid).1 (Nat.not_succ_le_zero late)
  rcases (mem_timers_iff_yielded hb now').1 ht with hyielded | hstays
  · rw [yielded, Wheel.tick_eq_turn] at hyielded
    exact absurd (hturn.2 t hyielded rfl).1 (Nat.not_succ_le_zero late)
  · obtain ⟨hheld, hasked, hnoted, hcount⟩ := stays_tick hb hstays
    refine ⟨⟨balanced_tick hb now', ?_, h.grain_pos, hleast,
      ⟨⟨t, hheld, rfl, hplan⟩, hasked.trans hreset, mt hnoted.1 hcancel⟩, ?_⟩, hcount⟩
    · rw [specsOf_tick]
      exact h.geared
    · refine waits_tick_of_unreached hb hstays (fun u hne _ _ heq => absurd heq hne) ?_
      rw [Wheel.tick_eq_turn]
      exact hturn.1

end Agenda

namespace History

open Wheel (turnOf)

variable {h : History τ} {moves : List (Agenda.Move τ)} {id : TimerId} {p : Plan} {now : Int}

/-- While levels are appended, the ticks that a timer bides grow as the turn of the wheel does. -/
theorem bides_after_laying {late : Nat} {fine fine' : LevelSpec}
    (hbides : h.agenda.Bides fine.width late now id p)
    (hfine : (Wheel.specsOf h.agenda.wheel.levels).getLast? = some fine)
    (hmoves : ∀ m ∈ moves, (∀ now, m ≠ .tick now) ∧ ¬m.AsksAbout id)
    (hfine' : (Wheel.specsOf (h.after moves).agenda.wheel.levels).getLast? = some fine')
    (hnested : LevelSpec.Nested (Wheel.specsOf (h.after moves).agenda.wheel.levels))
    (hwords : ∀ spec ∈ Wheel.specsOf (h.after moves).agenda.wheel.levels,
      spec.width < 4294967296) :
    ∃ late', (h.after moves).agenda.Bides fine'.width late' now id p ∧
      late' * turnOf h.agenda.wheel.levels =
        late * turnOf (h.after moves).agenda.wheel.levels := by
  induction moves generalizing h fine late with
  | nil =>
    obtain rfl : fine = fine' := Option.some.inj (hfine.symm.trans hfine')
    exact ⟨late, hbides, rfl⟩
  | cons m moves ih =>
    obtain ⟨⟨hm, hunasked⟩, hlater⟩ := List.forall_mem_cons.1 hmoves
    have hbelow := specs_prefix_after (h.move m) moves
    -- There was a level before the move, and so there is one after it.
    obtain ⟨next, hnext⟩ : ∃ next,
        (Wheel.specsOf (h.move m).agenda.wheel.levels).getLast? = some next := by
      refine ⟨_, List.getLast?_eq_some_getLast ?_⟩
      intro hnil
      have hempty := Agenda.specs_prefix_move h.agenda m
      rw [show Wheel.specsOf (h.agenda.move m).wheel.levels = [] from hnil,
        List.prefix_nil] at hempty
      rw [hempty] at hfine
      cases hfine
    obtain ⟨between, hbetween, hscale⟩ := Agenda.bides_move hbides hm hunasked hfine hnext
      (LevelSpec.nested_of_prefix hbelow hnested) fun spec hspec =>
        hwords spec (hbelow.subset hspec)
    obtain ⟨late', hlast, hscale'⟩ := ih (h := h.move m) hbetween hnext hlater hfine' hnested hwords
    refine ⟨late', hlast, ?_⟩
    refine Nat.eq_of_mul_eq_mul_right (Wheel.turnOf_pos hbetween.balanced.settled.wellFormed) ?_
    calc late' * turnOf h.agenda.wheel.levels * turnOf (h.move m).agenda.wheel.levels
        = between * turnOf (h.after (m :: moves)).agenda.wheel.levels *
            turnOf h.agenda.wheel.levels := by
          rw [Nat.mul_right_comm, hscale']
          rfl
      _ = late * turnOf (h.after (m :: moves)).agenda.wheel.levels *
            turnOf (h.move m).agenda.wheel.levels := by
          rw [Nat.mul_right_comm, hscale, Nat.mul_right_comm]
          rfl

/-- The ticks do not answer the timer while it bides, and from then on they do as its plan says. -/
theorem answered_of_bides {grain late : Nat} {step : Int}
    (hbides : h.agenda.Bides grain (late + 1) now id p) (hpaced : Agenda.Paced step now moves)
    (hnonneg : 0 ≤ step) (hstep : step ≤ grain) (hunasked : ∀ m ∈ moves, ¬m.AsksAbout id)
    (hspecs : Wheel.specsOf (h.after moves).agenda.wheel.levels =
      Wheel.specsOf h.agenda.wheel.levels) :
    answered id h moves = List.replicate (min late (Agenda.ticksIn moves)) 0 ++
      Plan.firings (some p) ((moves.filterMap Agenda.Move.reading?).drop late) := by
  induction moves generalizing h now late with
  | nil => simp [answered, Agenda.ticksIn, Plan.firings]
  | cons m moves ih =>
    obtain ⟨hm, hunaskedLater⟩ := List.forall_mem_cons.1 hunasked
    obtain ⟨hfirst, hrest⟩ := specs_after_cons hspecs
    cases late with
    | zero =>
      rw [answered_of_steady hbides.steady hpaced hnonneg hstep hunasked hspecs]
      simp
    | succ late =>
      rcases hpaced.1 with hat | rfl
      · have hlater := hpaced.2
        rw [Agenda.readingFrom_of_at hat] at hlater
        rw [answered_cons_of_at hat, Agenda.ticksIn_cons_of_at hat,
          List.filterMap_cons_none (Agenda.reading?_of_at hat)]
        refine ih (h := h.move m) ?_ hlater hunaskedLater hrest
        exact Agenda.bides_between hbides (Agenda.not_tick_of_at hat) hm hfirst
      · obtain ⟨hnext, hcount⟩ := Agenda.bides_tick hbides
          (Int.le_trans hbides.least_le (Int.le_add_of_nonneg_right hnonneg))
          (Int.add_le_add_left hstep now)
        rw [answered, hcount, ih (h := h.move (.tick (now + step))) hnext hpaced.2 hunaskedLater
          hrest, Agenda.ticksIn, Agenda.ticksIn,
          List.filterMap_cons_some (f := Agenda.Move.reading?) rfl, List.length_cons,
          Nat.succ_min_succ, List.replicate_succ, List.drop_succ_cons, List.cons_append]

end History

end TimingWheel
