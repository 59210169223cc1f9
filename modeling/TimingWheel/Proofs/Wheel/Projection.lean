import TimingWheel.Proofs.Wheel.Contents
import TimingWheel.Proofs.Wheel.Turn

/-!
# Some of the timers by themselves

No placement depends on what else the slots hold. So the slots may be gone through and each timer
in them be dropped or replaced by another one that is due at the same time: whatever the levels do
afterwards, they do with the remaining timers as they would have done with these alone.

## Main definitions

- `Level.project` — a level with each of its timers dropped or replaced
- `Wheel.KeepsDue` — what replaces a timer is due when the timer was
- `Wheel.clear` — the levels without their timers

## Main statements

- `Wheel.project_place`, `Wheel.project_cascade` — it does not matter whether timers are dropped
  before they fall into the levels or afterwards
- `Wheel.turn_project`, `Wheel.clear_turn` — the same about ticks
-/

namespace TimingWheel

variable {τ : Type}

/-! ### One level -/

namespace Level

/-- The level with the timers that `f` gives in place of its own. -/
def project (f : Timer τ → Option (Timer τ)) (l : Level τ) : Level τ :=
  { l with slots := l.slots.map fun ts => ts.filterMap f }

variable (f : Timer τ → Option (Timer τ)) (l : Level τ)

@[simp] theorem reaches_project (distance : Int) :
    (l.project f).reaches distance = l.reaches distance := rfl

@[simp] theorem slotAt_project (distance : Int) :
    (l.project f).slotAt distance = l.slotAt distance := rfl

@[simp] theorem nextSlot_project : (l.project f).nextSlot = l.nextSlot := rfl

theorem slot_project (i : Nat) : (l.project f).slot i = (l.slot i).filterMap f := by
  unfold project slot
  rw [Array.getElem?_map]
  cases l.slots[i]? <;> rfl

theorem timers_project : (l.project f).timers = l.timers.filterMap f := by
  rw [timers, timers, project]
  rw [Array.toList_map, List.filterMap_flatten]

theorem project_ofSpec (spec : LevelSpec) :
    (ofSpec spec : Level τ).project f = ofSpec spec := by
  simp [project, ofSpec]

theorem project_of_no_timer (h : l.timers = []) : l.project f = l := by
  have hslots : l.slots.map (fun ts => ts.filterMap f) = l.slots.map id := by
    refine Array.map_congr_left fun ts hts => ?_
    rw [List.flatten_eq_nil_iff.1 h ts (Array.mem_toList_iff.2 hts)]
    rfl
  rw [project, hslots, Array.map_id]

/-- What is done with timers that are not there does not matter. -/
theorem project_congr {g : Timer τ → Option (Timer τ)} (h : ∀ t ∈ l.timers, f t = g t) :
    l.project f = l.project g := by
  have hslots :
      l.slots.map (fun ts => ts.filterMap f) = l.slots.map (fun ts => ts.filterMap g) := by
    refine Array.map_congr_left fun ts hts => List.filterMap_congr fun t ht => h t ?_
    exact List.mem_flatten.2 ⟨ts, Array.mem_toList_iff.2 hts, ht⟩
  rw [project, project, hslots]

theorem settled_project (h : l.Settled) : (l.project f).Settled where
  valid := h.valid
  cursor_lt := h.cursor_lt
  size_slots := Array.size_map.trans h.size_slots
  drained := h.drained

theorem project_step : l.step.project f = (l.project f).step := rfl

theorem project_drain : l.drain.project f = (l.project f).drain := by
  simp [project, drain, Array.map_setIfInBounds]

variable {f} {t u : Timer τ}

theorem project_put_of_some (h : f t = some u) (i : Nat) :
    (l.put i t).project f = (l.project f).put i u := by
  simp only [project, put, Level.mk.injEq, true_and]
  refine Array.ext (by simp) fun j hj hj' => ?_
  simp only [Array.getElem_map, Array.getElem_modify]
  split <;> simp [h]

theorem project_put_of_none (h : f t = none) (i : Nat) :
    (l.put i t).project f = l.project f := by
  simp only [project, put, Level.mk.injEq, true_and]
  refine Array.ext (by simp) fun j hj hj' => ?_
  simp only [Array.getElem_map, Array.getElem_modify]
  split <;> simp [h]

end Level

/-! ### Lists of levels -/

namespace Wheel

/-- The levels with the timers that `f` gives in place of their own. -/
def project (f : Timer τ → Option (Timer τ)) (levels : List (Level τ)) : List (Level τ) :=
  levels.map (Level.project f)

/-- A timer that replaces another one is due when that one was. -/
def KeepsDue (f : Timer τ → Option (Timer τ)) : Prop := ∀ t u, f t = some u → u.due = t.due

section

variable (f : Timer τ → Option (Timer τ)) (levels : List (Level τ))

@[simp] theorem project_nil : project f ([] : List (Level τ)) = [] := rfl

@[simp] theorem project_cons (l : Level τ) (finer : List (Level τ)) :
    project f (l :: finer) = l.project f :: project f finer := rfl

@[simp] theorem project_append (coarse fine : List (Level τ)) :
    project f (coarse ++ fine) = project f coarse ++ project f fine := List.map_append

@[simp] theorem length_project : (project f levels).length = levels.length := List.length_map _

@[simp] theorem isEmpty_project : (project f levels).isEmpty = levels.isEmpty := by
  cases levels <;> rfl

@[simp] theorem specsOf_project : specsOf (project f levels) = specsOf levels := by
  rw [specsOf, project, List.map_map]
  rfl

theorem project_map_step :
    project f (levels.map Level.step) = (project f levels).map Level.step := by
  rw [project, project, List.map_map, List.map_map]
  rfl

theorem timersIn_project : timersIn (project f levels) = (timersIn levels).filterMap f := by
  induction levels with
  | nil => rfl
  | cons l finer ih =>
    rw [project_cons, timersIn_cons, timersIn_cons, Level.timers_project, ih, List.filterMap_append]

theorem project_of_no_timer (h : timersIn levels = []) : project f levels = levels := by
  refine (List.map_congr_left fun l hl => ?_).trans (List.map_id levels)
  exact Level.project_of_no_timer f l (List.flatMap_eq_nil_iff.1 h l hl)

theorem project_congr {g : Timer τ → Option (Timer τ)} (h : ∀ t ∈ timersIn levels, f t = g t) :
    project f levels = project g levels :=
  List.map_congr_left fun l hl =>
    Level.project_congr f l fun t ht => h t (List.mem_flatMap.2 ⟨l, hl, ht⟩)

theorem settled_project (h : Settled levels) : Settled (project f levels) := by
  intro m hm
  obtain ⟨l, hl, rfl⟩ := List.mem_map.1 hm
  exact Level.settled_project f l (h l hl)

theorem all_atLast_project : (project f levels).all Level.atLast = levels.all Level.atLast := by
  rw [project, List.all_map]
  rfl

theorem elapsedIn_project : elapsedIn (project f levels) = elapsedIn levels := by
  rw [elapsedIn, elapsedIn, project, List.foldr_map]
  rfl

/-- The finest level gives away what remains of its slot. -/
theorem yield_project :
    yield (project f levels) = ((yield levels).1.filterMap f, project f (yield levels).2) := by
  induction levels with
  | nil => rfl
  | cons l finer ih =>
    cases finer with
    | nil =>
      simp only [project_cons, project_nil, yield, Level.current, Level.slot_project,
        Level.project_drain]
      rfl
    | cons m rest =>
      have hne : project f (m :: rest) ≠ [] := List.cons_ne_nil _ _
      rw [yield_cons l (List.cons_ne_nil m rest), project_cons, yield_cons _ hne, ih]
      rfl

end

section

variable {f : Timer τ → Option (Timer τ)} {t u : Timer τ} (now : Int)

theorem distance_project (hdue : u.due = t.due) (finer : List (Level τ)) :
    distance u now (project f finer) = distance t now finer := by
  rw [distance, distance, elapsedIn_project, hdue]

/-- A timer that is replaced falls where the one that replaces it would fall at its own time, if
both are equally far away from each of the levels. -/
theorem project_place_of_distance {now now' : Int} (h : f t = some u) {levels : List (Level τ)}
    (hdistance : ∀ finer, finer <:+ levels →
      distance u now' (project f finer) = distance t now finer) :
    project f (place t now levels) = place u now' (project f levels) := by
  induction levels with
  | nil => rfl
  | cons l finer ih =>
    have hsuffix : finer <:+ l :: finer := List.suffix_cons l finer
    -- The cursors are the same, and so is the slot at which the timer is put.
    rw [project_cons, place, place, hdistance finer hsuffix, isEmpty_project,
      Level.reaches_project, Level.slotAt_project, Level.nextSlot_project]
    split
    · rw [project_cons, Level.project_put_of_some l h]
    · split
      · rw [project_cons, Level.project_put_of_some l h, project_nil]
      · rw [project_cons, ih fun rest hrest => hdistance rest (hrest.trans hsuffix)]

/-- At the same time, both are equally far away if they are due at the same time. -/
theorem project_place_of_some (h : f t = some u) (hdue : u.due = t.due) (levels : List (Level τ)) :
    project f (place t now levels) = place u now (project f levels) :=
  project_place_of_distance h fun finer _ => distance_project now hdue finer

/-- A timer that is dropped leaves no trace. -/
theorem project_place_of_none (h : f t = none) (levels : List (Level τ)) :
    project f (place t now levels) = project f levels := by
  induction levels with
  | nil => rfl
  | cons l finer ih =>
    rw [place]
    split
    · rw [project_cons, project_cons, Level.project_put_of_none l h]
    · split
      next hempty =>
        rw [List.isEmpty_iff.1 hempty, project_cons, project_cons, Level.project_put_of_none l h]
      · rw [project_cons, project_cons, ih]

theorem project_placeAll (hf : KeepsDue f) (ts : List (Timer τ)) (levels : List (Level τ)) :
    project f (placeAll ts now levels) = placeAll (ts.filterMap f) now (project f levels) := by
  induction ts generalizing levels with
  | nil => rfl
  | cons t ts ih =>
    show project f (placeAll ts now (place t now levels)) = _
    rw [ih]
    cases h : f t with
    | none => rw [List.filterMap_cons_none h, project_place_of_none now h]
    | some u =>
      rw [List.filterMap_cons_some h, project_place_of_some now h (hf t u h)]
      rfl

theorem project_cascade (hf : KeepsDue f) (n : Nat) (levels : List (Level τ)) :
    project f (cascade now n levels) = cascade now n (project f levels) := by
  induction n generalizing levels with
  | zero => rfl
  | succ n ih =>
    cases levels with
    | nil => rfl
    | cons l finer =>
      simp only [cascade, project_cons, ih, project_placeAll now hf, Level.project_drain,
        Level.current, Level.slot_project]
      rfl

/-- A tick yields what remains of the timers that it would have yielded, and leaves what remains of
the others. -/
theorem turn_project (hf : KeepsDue f) (levels : List (Level τ)) :
    turn now (project f levels) =
      ((turn now levels).1.filterMap f, project f (turn now levels).2) := by
  induction levels with
  | nil => rfl
  | cons l finer ih =>
    rw [project_cons, turn, turn, all_atLast_project]
    split
    · rw [← yield_project, project_cascade now hf, project_cons, project_map_step,
        Level.project_step, length_project]
    · rw [ih]
      rfl

theorem tick_project (hf : KeepsDue f) (w : Wheel τ) :
    tick now ⟨project f w.levels⟩ =
      ((w.tick now).1.filterMap f, ⟨project f (w.tick now).2.levels⟩) := by
  rw [tick_eq_turn, tick_eq_turn, turn_project now hf]

end

/-! ### Without any timers -/

/-- The levels without their timers. -/
def clear (levels : List (Level τ)) : List (Level τ) := project (fun _ => none) levels

theorem keepsDue_none : KeepsDue (fun _ => none : Timer τ → Option (Timer τ)) :=
  fun _ _ hsome => nomatch hsome

section

variable {levels : List (Level τ)} (now : Int)

@[simp] theorem specsOf_clear (levels : List (Level τ)) : specsOf (clear levels) = specsOf levels :=
  specsOf_project _ levels

@[simp] theorem timersIn_clear (levels : List (Level τ)) : timersIn (clear levels) = [] := by
  rw [clear, timersIn_project]
  simp

theorem settled_clear (h : Settled levels) : Settled (clear levels) := settled_project _ levels h

theorem clear_of_no_timer (h : timersIn levels = []) : clear levels = levels :=
  project_of_no_timer _ levels h

@[simp] theorem clear_place (t : Timer τ) (levels : List (Level τ)) :
    clear (place t now levels) = clear levels := project_place_of_none now rfl levels

@[simp] theorem clear_placeAll (ts : List (Timer τ)) (levels : List (Level τ)) :
    clear (placeAll ts now levels) = clear levels := by
  induction ts generalizing levels with
  | nil => rfl
  | cons t ts ih => exact (ih (place t now levels)).trans (clear_place now t levels)

/-- Ticks move levels on in the same way, whatever timers they hold. -/
theorem clear_turn (levels : List (Level τ)) :
    turn now (clear levels) = ([], clear (turn now levels).2) := by
  refine (turn_project now keepsDue_none levels).trans (Prod.ext ?_ rfl)
  simp

end

end Wheel

end TimingWheel
