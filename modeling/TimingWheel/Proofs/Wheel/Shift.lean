import TimingWheel.Proofs.Wheel.Conservation
import TimingWheel.Proofs.Wheel.Odometer
import TimingWheel.Proofs.Wheel.Projection

/-!
# A wheel and a shift of time

A wheel knows due times and readings of the clock only by their differences. So if all of them are
later by the same time, the wheel does what it did before: timers fall into the same slots, and each
tick yields the same timers in the same order. This holds as long as no sum and no difference is
held at the end of the range, and for that all times have to stay well within the range, before the
shift and after it.

## Main definitions

- `Time.Moderate` — the time is well within the range
- `Timer.shift`, `Level.shift`, `Wheel.shift` — all due times made later
- `Timer.Tempered`, `Wheel.Tempered` — no placement leaves the range, shifted or not

## Main statements

- `Wheel.distance_shift` — how far away a timer is does not depend on the shift
- `Wheel.insert_shift`, `Wheel.tick_shift` — the operations of a scheduler on the wheel
- `Wheel.tempered_place`, `Wheel.tempered_tick` — these operations keep levels tempered
-/

namespace TimingWheel

variable {τ : Type}

/-! ### Moderate times -/

/-- The time is no further than `2 ^ 60` milliseconds from zero. -/
def Time.Moderate (t : Int) : Prop := -1152921504606846976 ≤ t ∧ t ≤ 1152921504606846976

instance (t : Int) : Decidable (Time.Moderate t) := inferInstanceAs (Decidable (_ ∧ _))

/-- The time is no further than `2 ^ 61` milliseconds from zero, as the sum of two moderate times
is. -/
def Time.Roomy (t : Int) : Prop := -2305843009213693952 ≤ t ∧ t ≤ 2305843009213693952

theorem Time.Moderate.roomy {t : Int} (h : Moderate t) : Roomy t := by
  unfold Moderate at h
  unfold Roomy
  omega

theorem Time.Moderate.add {t u : Int} (ht : Moderate t) (hu : Moderate u) : Roomy (t + u) := by
  unfold Moderate at ht hu
  unfold Roomy
  omega

theorem Time.Roomy.fits {t : Int} (h : Roomy t) : Fits t := by
  unfold Roomy at h
  unfold Fits least greatest
  omega

/-! ### Later due times -/

/-- The timer with its due time made later. -/
def Timer.shift (offset : Int) (t : Timer τ) : Timer τ := { t with due := t.due + offset }

/-- The level with all due times made later. -/
def Level.shift (offset : Int) (l : Level τ) : Level τ :=
  { l with slots := l.slots.map (List.map (Timer.shift offset)) }

/-- The wheel with all due times made later. -/
def Wheel.shift (offset : Int) (w : Wheel τ) : Wheel τ := ⟨w.levels.map (Level.shift offset)⟩

/-- Each timer is replaced by the one that is due later. -/
def Timer.later (offset : Int) (t : Timer τ) : Option (Timer τ) := some (t.shift offset)

theorem Timer.filterMap_later (offset : Int) (ts : List (Timer τ)) :
    ts.filterMap (Timer.later offset) = ts.map (Timer.shift offset) :=
  congrFun List.filterMap_eq_map ts

theorem Level.shift_eq_project (offset : Int) :
    (Level.shift offset : Level τ → Level τ) = Level.project (Timer.later offset) := by
  funext l
  rw [Level.shift, Level.project, funext (Timer.filterMap_later offset)]

/-- A timer that may fall in without any sum or difference leaving the range, shifted or not. -/
structure Timer.Tempered (offset : Int) (t : Timer τ) : Prop where
  due : Time.Roomy t.due
  due_shift : Time.Roomy (t.due + offset)
  interval : Time.Moderate t.interval

namespace Wheel

theorem levels_shift (offset : Int) (w : Wheel τ) :
    (w.shift offset).levels = project (Timer.later offset) w.levels := by
  rw [shift, Level.shift_eq_project]
  rfl

theorem cursors_shift (offset : Int) (w : Wheel τ) :
    (w.shift offset).levels.map (·.cursor) = w.levels.map (·.cursor) := by
  rw [shift, List.map_map]
  rfl

/-- Each slot holds the same timers, which are due later. -/
theorem slotOf_shift (offset : Int) (w : Wheel τ) (i j : Nat) :
    (w.shift offset).slotOf i j = (w.slotOf i j).map (Timer.shift offset) := by
  rw [slotOf, slotOf, level?, level?, levels_shift, project, List.getElem?_map]
  cases w.levels[i]? with
  | none => rfl
  | some l => exact (Level.slot_project _ l j).trans (Timer.filterMap_later offset (l.slot j))

theorem info_shift (offset : Int) (w : Wheel τ) : (w.shift offset).info = w.info := by
  have hinfo (l : Level τ) : (l.project (Timer.later offset)).info = l.info := by
    rw [Level.info, Level.info, Level.count, Level.timers_project, Timer.filterMap_later,
      List.length_map]
    rfl
  rw [info, info, levels_shift, project, List.map_map]
  exact List.map_congr_left fun l _ => hinfo l

/-- Levels whose timers may fall in anew without any sum or difference leaving the range. -/
structure Tempered (offset : Int) (levels : List (Level τ)) : Prop where
  wellFormed : LevelsWellFormed levels
  total : Time.Moderate (LevelSpec.totalSpan (specsOf levels))
  timers : ∀ t ∈ timersIn levels, t.Tempered offset

section

variable {offset now : Int} {levels : List (Level τ)}

theorem Tempered.suffix {finer : List (Level τ)} (h : Tempered offset levels)
    (hsuffix : finer <:+ levels) : Tempered offset finer := by
  obtain ⟨coarse, rfl⟩ := hsuffix
  have htotal := h.total
  rw [specsOf_append, LevelSpec.totalSpan_append] at htotal
  refine ⟨(List.forall_mem_append.1 h.wellFormed).2, ?_, ?_⟩
  · unfold Time.Moderate at htotal ⊢
    omega
  · intro t ht
    refine h.timers t ?_
    rw [timersIn_append]
    exact List.mem_append_right _ ht

/-! ### Timers that fall in -/

/-- How far away a timer is depends on the difference of times alone. -/
theorem distance_shift (h : Tempered offset levels) {t : Timer τ} (ht : t.Tempered offset)
    (hnow : Time.Moderate now) :
    distance (t.shift offset) (now + offset) (project (Timer.later offset) levels) =
      distance t now levels := by
  have htotal := h.total
  have hdue := ht.due
  have hdueShift := ht.due_shift
  have hsum := elapsedSum_le_totalSpan h.wellFormed
  have helapsed : elapsedIn levels = elapsedSum levels := by
    refine elapsedIn_eq_elapsedSum h.wellFormed ?_
    unfold Time.Moderate at htotal
    unfold Time.greatest
    omega
  rw [distance, distance, elapsedIn_project, helapsed]
  show Time.minus (Time.plus (t.due + offset) (elapsedSum levels)) (now + offset) = _
  generalize elapsedSum levels = shown at hsum
  unfold Time.Moderate at htotal hnow
  unfold Time.Roomy at hdue hdueShift
  -- None of the sums and differences is held at an end of the range.
  have hplus : Time.plus t.due shown = t.due + shown :=
    Time.plus_of_fits (by unfold Time.Fits Time.least Time.greatest; omega)
  have hplusShift : Time.plus (t.due + offset) shown = t.due + offset + shown :=
    Time.plus_of_fits (by unfold Time.Fits Time.least Time.greatest; omega)
  have hminus : Time.minus (t.due + shown) now = t.due + shown - now :=
    Time.minus_of_fits (by unfold Time.Fits Time.least Time.greatest; omega)
  have hminusShift : Time.minus (t.due + offset + shown) (now + offset) =
      t.due + offset + shown - (now + offset) :=
    Time.minus_of_fits (by unfold Time.Fits Time.least Time.greatest; omega)
  rw [hplus, hplusShift, hminus, hminusShift]
  omega

theorem place_shift (h : Tempered offset levels) {t : Timer τ} (ht : t.Tempered offset)
    (hnow : Time.Moderate now) :
    place (t.shift offset) (now + offset) (project (Timer.later offset) levels) =
      project (Timer.later offset) (place t now levels) := by
  refine (project_place_of_distance (f := Timer.later offset) rfl ?_).symm
  intro finer hsuffix
  exact distance_shift (h.suffix hsuffix) ht hnow

theorem Tempered.congr (h : Tempered offset levels) {levels' : List (Level τ)}
    (hspecs : specsOf levels' = specsOf levels) (hwell : LevelsWellFormed levels')
    (htimers : ∀ t ∈ timersIn levels', t.Tempered offset) : Tempered offset levels' where
  wellFormed := hwell
  total := hspecs ▸ h.total
  timers := htimers

theorem tempered_placeAll (h : Tempered offset levels) {ts : List (Timer τ)}
    (hts : ∀ t ∈ ts, t.Tempered offset) (now : Int) :
    Tempered offset (placeAll ts now levels) := by
  refine h.congr (specsOf_placeAll ts now levels) (wellFormed_placeAll h.wellFormed ts now) ?_
  intro t ht
  by_cases hne : levels = []
  · have hnone : specsOf (placeAll ts now levels) = [] := by rw [specsOf_placeAll, hne]; rfl
    rw [List.map_eq_nil_iff.1 hnone] at ht
    cases ht
  · rw [(timersIn_placeAll h.wellFormed hne ts now).mem_iff, List.mem_append] at ht
    exact ht.elim (hts t) (h.timers t)

theorem tempered_place (h : Tempered offset levels) {t : Timer τ} (ht : t.Tempered offset)
    (now : Int) : Tempered offset (place t now levels) :=
  tempered_placeAll h (List.forall_mem_singleton.2 ht) now

theorem placeAll_shift (h : Tempered offset levels) {ts : List (Timer τ)}
    (hts : ∀ t ∈ ts, t.Tempered offset) (hnow : Time.Moderate now) :
    placeAll (ts.map (Timer.shift offset)) (now + offset) (project (Timer.later offset) levels) =
      project (Timer.later offset) (placeAll ts now levels) := by
  induction ts generalizing levels with
  | nil => rfl
  | cons t ts ih =>
    obtain ⟨ht, hrest⟩ := List.forall_mem_cons.1 hts
    show placeAll (ts.map (Timer.shift offset)) (now + offset)
      (place (t.shift offset) (now + offset) (project (Timer.later offset) levels)) = _
    rw [place_shift h ht hnow]
    exact ih (tempered_place h ht now) hrest

/-! ### Ticks -/

theorem cascade_shift (h : Tempered offset levels) (hnow : Time.Moderate now) (n : Nat) :
    cascade (now + offset) n (project (Timer.later offset) levels) =
      project (Timer.later offset) (cascade now n levels) := by
  induction n generalizing levels with
  | zero => rfl
  | succ n ih =>
    cases levels with
    | nil => rfl
    | cons l finer =>
      have hfiner := h.suffix (List.suffix_cons l finer)
      have hcurrent : ∀ t ∈ l.current, t.Tempered offset := by
        intro t ht
        refine h.timers t ?_
        rw [timersIn_cons]
        exact List.mem_append_left _ (Level.mem_timers.2 ⟨l.cursor, ht⟩)
      have hslot : (l.project (Timer.later offset)).current = l.current.map (Timer.shift offset) :=
        (Level.slot_project _ l l.cursor).trans (Timer.filterMap_later offset l.current)
      rw [project_cons, cascade, cascade, project_cons, Level.project_drain, hslot,
        placeAll_shift hfiner hcurrent hnow, ih (tempered_placeAll hfiner hcurrent now)]

theorem turn_shift (h : Tempered offset levels) (hnow : Time.Moderate now) :
    turn (now + offset) (project (Timer.later offset) levels) =
      ((turn now levels).1.map (Timer.shift offset),
        project (Timer.later offset) (turn now levels).2) := by
  induction levels with
  | nil => rfl
  | cons l finer ih =>
    rw [project_cons, turn, turn, all_atLast_project, length_project]
    split
    · have hstepped : Tempered offset (l.step :: finer.map Level.step) := by
        refine h.congr ?_ (wellFormed_map_step h.wellFormed) ?_
        · exact specsOf_map_step (l :: finer)
        · intro t ht
          refine h.timers t ?_
          rwa [← timersIn_map_step]
      rw [← Timer.filterMap_later, ← yield_project, ← cascade_shift hstepped hnow,
        project_cons, project_map_step, Level.project_step]
    · rw [ih (h.suffix (List.suffix_cons l finer))]
      rfl

variable {w : Wheel τ}

/-- A level that was just made holds no timers. -/
theorem append_shift (offset : Int) (spec : LevelSpec) (w : Wheel τ) :
    (w.shift offset).append spec = (w.append spec).map (shift offset) := by
  rw [append, append]
  split
  · have hnew : (Level.ofSpec spec : Level τ).shift offset = Level.ofSpec spec := by
      rw [Level.shift_eq_project, Level.project_ofSpec]
    rw [Except.map, shift, shift, List.map_append, List.map_singleton, hnew]
  · rfl

theorem insert_shift (h : Tempered offset w.levels) {t : Timer τ} (ht : t.Tempered offset)
    (hnow : Time.Moderate now) :
    (w.shift offset).insert (t.shift offset) (now + offset) = (w.insert t now).shift offset := by
  rw [insert, levels_shift, place_shift h ht hnow, ← levels_shift offset ⟨_⟩]
  rfl

/-- On each tick a wheel yields the same timers, whatever the shift. -/
theorem tick_shift (h : Tempered offset w.levels) (hnow : Time.Moderate now) :
    (w.shift offset).tick (now + offset) =
      ((w.tick now).1.map (Timer.shift offset), (w.tick now).2.shift offset) := by
  rw [tick_eq_turn, tick_eq_turn, levels_shift, turn_shift h hnow]
  rw [← levels_shift offset ⟨_⟩]

theorem tempered_tick (h : Tempered offset w.levels) (now : Int) :
    (∀ t ∈ (w.tick now).1, t.Tempered offset) ∧ Tempered offset (w.tick now).2.levels := by
  have htimers := timers_tick h.wellFormed now
  refine ⟨?_, h.congr (specsOf_tick now w) (wellFormed_tick h.wellFormed now) ?_⟩
  · exact fun t ht => h.timers t (htimers.subset (List.mem_append_left _ ht))
  · exact fun t ht => h.timers t (htimers.subset (List.mem_append_right _ ht))

end

end Wheel

end TimingWheel
