import TimingWheel.Wheel.Basic

/-!
# The geometry of a wheel

How the levels of a wheel fit together. In a nested wheel a slot is never narrower than
a whole turn of the next finer level, so that time passes in each level as in the hands
of a clock. In a matched wheel it is exactly as wide, and then the cursors together show
the time without a gap.

## Main definitions

- `LevelSpec.Nested`, `LevelSpec.Matched` — how neighbouring levels fit together
- `LevelSpec.turnTicks` — ticks in a whole turn of the coarsest level
- `Level.WellFormed` — a level as the operations keep it

## Main statements

- `Level.wellFormed_put`, `Level.wellFormed_drain`, `Level.wellFormed_step` — the
  operations on a level keep it well-formed
- `Wheel.wellFormed_place`, `Wheel.wellFormed_cascade`, `Wheel.wellFormed_advanceAt` —
  so do the operations on lists of levels
-/

namespace TimingWheel

namespace LevelSpec

/-- Every slot is at least as wide as a whole turn of the next finer level. -/
def Nested : List LevelSpec → Prop
  | coarse :: fine :: rest => fine.span ≤ coarse.width ∧ Nested (fine :: rest)
  | _ => True

/-- Every slot is exactly as wide as a whole turn of the next finer level. -/
def Matched : List LevelSpec → Prop
  | coarse :: fine :: rest => coarse.width = fine.span ∧ Matched (fine :: rest)
  | _ => True

/-- Number of ticks in which the coarsest of the levels makes a whole turn. -/
def turnTicks (specs : List LevelSpec) : Nat := (specs.map (·.slotCount)).foldr (· * ·) 1

theorem nested_of_matched {specs : List LevelSpec} (h : Matched specs) : Nested specs := by
  induction specs with
  | nil => trivial
  | cons coarse rest ih =>
    cases rest with
    | nil => trivial
    | cons fine rest => exact ⟨Nat.le_of_eq h.1.symm, ih h.2⟩

theorem turnTicks_pos {specs : List LevelSpec} (h : ∀ spec ∈ specs, spec.Valid) :
    0 < turnTicks specs := by
  induction specs with
  | nil => exact Nat.one_pos
  | cons spec rest ih =>
    have hrest := ih fun s hs => h s (List.mem_cons_of_mem _ hs)
    exact Nat.mul_pos (h spec List.mem_cons_self).1 hrest

end LevelSpec

/-! ### Well-formed levels -/

namespace Level

variable {τ : Type}

/-- A level could be made as it is, its cursor is on one of its slots, and it has as many
slots as it says. -/
structure WellFormed (l : Level τ) : Prop where
  valid : l.toLevelSpec.Valid
  cursor_lt : l.cursor < l.slotCount
  size_slots : l.slots.size = l.slotCount

theorem wellFormed_ofSpec {spec : LevelSpec} (h : spec.Valid) :
    (ofSpec spec : Level τ).WellFormed where
  valid := h
  cursor_lt := h.1
  size_slots := by simp [ofSpec]

theorem wellFormed_put {l : Level τ} (h : l.WellFormed) (i : Nat) (t : Timer τ) :
    (l.put i t).WellFormed where
  valid := h.valid
  cursor_lt := h.cursor_lt
  size_slots := (size_put l i t).trans h.size_slots

theorem wellFormed_drain {l : Level τ} (h : l.WellFormed) : l.drain.WellFormed where
  valid := h.valid
  cursor_lt := h.cursor_lt
  size_slots := (size_drain l).trans h.size_slots

theorem wellFormed_step {l : Level τ} (h : l.WellFormed) : l.step.WellFormed where
  valid := h.valid
  cursor_lt := Nat.mod_lt _ h.valid.1
  size_slots := h.size_slots

/-- A timer never goes past the last slot. -/
theorem nextSlot_lt {l : Level τ} (h : l.WellFormed) : l.nextSlot < l.slots.size := by
  rw [h.size_slots]
  unfold nextSlot
  split
  · exact l.slotAhead_lt 1 h.valid.1
  · exact h.cursor_lt

theorem slotAt_lt {l : Level τ} (h : l.WellFormed) (distance : Int) :
    l.slotAt distance < l.slots.size := by
  rw [h.size_slots]
  exact l.slotAhead_lt _ h.valid.1

end Level

namespace Wheel

variable {τ : Type}

def LevelsWellFormed (levels : List (Level τ)) : Prop := ∀ l ∈ levels, l.WellFormed

/-- What holds of every level, and is kept when a timer is put into one, still holds after a
timer fell in. -/
theorem forall_place {P : Level τ → Prop} (hput : ∀ l i t, P l → P (l.put i t))
    {levels : List (Level τ)} (h : ∀ l ∈ levels, P l) (t : Timer τ) (now : Int) :
    ∀ l ∈ place t now levels, P l := by
  induction levels with
  | nil => exact h
  | cons l finer ih =>
    obtain ⟨hl, hfiner⟩ := List.forall_mem_cons.1 h
    unfold place
    split
    · exact List.forall_mem_cons.2 ⟨hput l _ t hl, hfiner⟩
    · split
      · exact List.forall_mem_singleton.2 (hput l _ t hl)
      · exact List.forall_mem_cons.2 ⟨hl, ih hfiner⟩

theorem forall_placeAll {P : Level τ → Prop} (hput : ∀ l i t, P l → P (l.put i t))
    {levels : List (Level τ)} (h : ∀ l ∈ levels, P l) (ts : List (Timer τ)) (now : Int) :
    ∀ l ∈ placeAll ts now levels, P l := by
  induction ts generalizing levels with
  | nil => exact h
  | cons t ts ih => exact ih (forall_place hput h t now)

theorem wellFormed_place {levels : List (Level τ)} (h : LevelsWellFormed levels) (t : Timer τ)
    (now : Int) : LevelsWellFormed (place t now levels) :=
  forall_place (fun _ i t hl => Level.wellFormed_put hl i t) h t now

theorem wellFormed_placeAll {levels : List (Level τ)} (h : LevelsWellFormed levels)
    (ts : List (Timer τ)) (now : Int) : LevelsWellFormed (placeAll ts now levels) :=
  forall_placeAll (fun _ i t hl => Level.wellFormed_put hl i t) h ts now

theorem wellFormed_cascade {levels : List (Level τ)} (h : LevelsWellFormed levels) (now : Int)
    (n : Nat) : LevelsWellFormed (cascade now n levels) := by
  induction n generalizing levels with
  | zero => exact h
  | succ n ih =>
    cases levels with
    | nil => exact h
    | cons l finer =>
      obtain ⟨hl, hfiner⟩ := List.forall_mem_cons.1 h
      exact List.forall_mem_cons.2
        ⟨Level.wellFormed_drain hl, ih (wellFormed_placeAll hfiner l.current now)⟩

theorem wellFormed_steps {l : Level τ} {finer : List (Level τ)}
    (h : LevelsWellFormed (l :: finer)) (i : Nat) :
    LevelsWellFormed (l.step :: ((finer.take i).map Level.step ++ finer.drop i)) := by
  obtain ⟨hl, hfiner⟩ := List.forall_mem_cons.1 h
  refine List.forall_mem_cons.2 ⟨Level.wellFormed_step hl, ?_⟩
  refine List.forall_mem_append.2 ⟨?_, fun m hm => hfiner m (List.mem_of_mem_drop hm)⟩
  intro m hm
  obtain ⟨m', hm', rfl⟩ := List.mem_map.1 hm
  exact Level.wellFormed_step (hfiner m' (List.mem_of_mem_take hm'))

/-- No step of a level takes a cursor off its ring or changes the number of slots. -/
theorem wellFormed_advanceAt {levels : List (Level τ)} (h : LevelsWellFormed levels) (now : Int)
    (i : Nat) : LevelsWellFormed (advanceAt now i levels) := by
  induction levels generalizing i with
  | nil => exact h
  | cons l finer ih =>
    obtain ⟨hl, hfiner⟩ := List.forall_mem_cons.1 h
    unfold advanceAt
    split
    · exact wellFormed_cascade (wellFormed_steps h i) now i
    · exact List.forall_mem_cons.2 ⟨hl, ih hfiner (i - 1)⟩

end Wheel

end TimingWheel
