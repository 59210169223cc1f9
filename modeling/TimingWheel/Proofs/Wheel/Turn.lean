import TimingWheel.Wheel.Geometry

/-!
# A tick, level by level

A tick moves the finest level and then empties the slot that it reaches. Here the same is said
by recursion from the coarse end, so that facts about ticks follow the list of levels: a level
above finer ones stands still unless all of these complete a turn, and when they do, it and they
step together and hand their slots down.

## Main definitions

- `Wheel.yield` — the last of the levels gives its current slot away
- `Wheel.turn` — a tick of a list of levels
- `Wheel.Settled` — the levels as they are between two operations

## Main statements

- `Wheel.tick_eq_turn` — a tick of a wheel is a turn of its levels
- `Wheel.settled_turn`, `Wheel.settled_place`, `Wheel.settled_concat` — the operations of a
  scheduler keep the levels settled
-/

namespace TimingWheel

namespace Wheel

variable {τ : Type}

/-! ### The finest level gives its slot away -/

/-- Takes the timers out of the current slot of the last level. -/
def yield : List (Level τ) → List (Timer τ) × List (Level τ)
  | [] => ([], [])
  | [l] => (l.current, [l.drain])
  | l :: m :: rest => ((yield (m :: rest)).1, l :: (yield (m :: rest)).2)

theorem yield_cons (l : Level τ) {finer : List (Level τ)} (h : finer ≠ []) :
    yield (l :: finer) = ((yield finer).1, l :: (yield finer).2) := by
  cases finer with
  | nil => exact absurd rfl h
  | cons m rest => rfl

theorem takeFinest_eq_yield (levels : List (Level τ)) :
    takeFinest ⟨levels⟩ = ((yield levels).1, ⟨(yield levels).2⟩) := by
  induction levels with
  | nil => rfl
  | cons l finer ih =>
    cases finer with
    | nil => rfl
    | cons m rest =>
      rw [takeFinest, finest?] at ih ⊢
      rw [List.getLast?_cons_cons]
      cases hlast : (m :: rest).getLast? with
      | none => simp at hlast
      | some f =>
        simp only [hlast, Prod.mk.injEq, Wheel.mk.injEq] at ih
        simp only [List.dropLast_cons_cons, List.cons_append, yield, ih.1, ih.2]

@[simp] theorem specsOf_yield (levels : List (Level τ)) :
    specsOf (yield levels).2 = specsOf levels := by
  induction levels with
  | nil => rfl
  | cons l finer ih =>
    cases finer with
    | nil => rfl
    | cons m rest => rw [yield_cons l (List.cons_ne_nil m rest), specsOf_cons, ih, ← specsOf_cons]

/-! ### Ticks -/

/-- One tick of the levels. The first level moves if all finer ones are on their last slots,
and then all of them move and hand their slots down; otherwise only finer levels move. -/
def turn (now : Int) : List (Level τ) → List (Timer τ) × List (Level τ)
  | [] => ([], [])
  | l :: finer =>
    if finer.all Level.atLast then
      yield (cascade now finer.length (l.step :: finer.map Level.step))
    else ((turn now finer).1, l :: (turn now finer).2)

@[simp] theorem specsOf_turn (now : Int) (levels : List (Level τ)) :
    specsOf (turn now levels).2 = specsOf levels := by
  induction levels with
  | nil => rfl
  | cons l finer ih =>
    rw [turn]
    split
    · simp
    · simp [ih]

theorem yield_advanceAt (now : Int) (levels : List (Level τ)) :
    yield (advanceAt now (levels.length - 1) levels) = turn now levels := by
  induction levels with
  | nil => rfl
  | cons l finer ih =>
    rw [advanceAt, turn]
    simp only [List.length_cons, Nat.add_sub_cancel, List.take_length, List.drop_length,
      List.append_nil]
    split
    · rfl
    next hstop =>
      have hne : finer ≠ [] := by
        rintro rfl
        exact hstop rfl
      have hadvanced := ne_nil_of_specsOf_eq (specsOf_advanceAt now (finer.length - 1) finer) hne
      rw [yield_cons l hadvanced, ih]

/-- A tick of a wheel is a turn of its levels. -/
theorem tick_eq_turn (now : Int) (w : Wheel τ) :
    w.tick now = ((turn now w.levels).1, ⟨(turn now w.levels).2⟩) := by
  rw [tick, advanceFinest, depth]
  rw [takeFinest_eq_yield, yield_advanceAt]

theorem specsOf_tick (now : Int) (w : Wheel τ) :
    specsOf (w.tick now).2.levels = specsOf w.levels := by
  rw [tick_eq_turn]
  exact specsOf_turn now w.levels

/-! ### Settled levels -/

end Wheel

/-- A level between two ticks: well-formed, and with the slot under its cursor emptied. -/
structure Level.Settled {τ : Type} (l : Level τ) : Prop extends l.WellFormed where
  drained : l.drained = true

namespace Wheel

variable {τ : Type}

/-- All levels of the list are settled. -/
def Settled (levels : List (Level τ)) : Prop := ∀ l ∈ levels, l.Settled

theorem Settled.wellFormed {levels : List (Level τ)} (h : Settled levels) :
    LevelsWellFormed levels := fun l hl => (h l hl).toWellFormed

theorem Settled.drained {levels : List (Level τ)} (h : Settled levels) :
    ∀ l ∈ levels, l.drained = true := fun l hl => (h l hl).drained

theorem Settled.valid {levels : List (Level τ)} (h : Settled levels) :
    ∀ spec ∈ specsOf levels, spec.Valid := by
  intro spec hspec
  obtain ⟨l, hl, rfl⟩ := List.mem_map.1 hspec
  exact (h l hl).valid

/-- The levels below one of settled levels are settled. -/
theorem Settled.below {levels finer : List (Level τ)} {l : Level τ} (h : Settled levels)
    (hsuffix : l :: finer <:+ levels) : Settled finer :=
  fun m hm => h m (hsuffix.subset (List.mem_cons_of_mem l hm))

theorem getLast?_specsOf (w : Wheel τ) :
    (specsOf w.levels).getLast? = w.finest?.map Level.toLevelSpec := List.getLast?_map

theorem settled_concat {levels : List (Level τ)} (h : Settled levels) {spec : LevelSpec}
    (hspec : spec.Valid) : Settled (levels ++ [Level.ofSpec spec]) := by
  refine List.forall_mem_append.2 ⟨h, List.forall_mem_singleton.2 ?_⟩
  exact { Level.wellFormed_ofSpec hspec with drained := rfl }

theorem settled_place {levels : List (Level τ)} (h : Settled levels) (t : Timer τ) (now : Int) :
    Settled (place t now levels) := by
  refine forall_place ?_ h t now
  intro l i t hl
  exact { Level.wellFormed_put hl.toWellFormed i t with drained := hl.drained }

theorem settled_placeAll {levels : List (Level τ)} (h : Settled levels) (ts : List (Timer τ))
    (now : Int) : Settled (placeAll ts now levels) := by
  induction ts generalizing levels with
  | nil => exact h
  | cons t ts ih => exact ih (settled_place h t now)

theorem settled_yield_cascade {levels : List (Level τ)} (h : LevelsWellFormed levels) (now : Int)
    {n : Nat} (hn : levels.length = n + 1) : Settled (yield (cascade now n levels)).2 := by
  induction n generalizing levels with
  | zero =>
    obtain ⟨l, rfl⟩ := List.length_eq_one_iff.1 hn
    have hl := List.forall_mem_singleton.1 h
    exact List.forall_mem_singleton.2 { Level.wellFormed_drain hl with drained := rfl }
  | succ n ih =>
    cases levels with
    | nil => exact absurd hn (Nat.succ_ne_zero _).symm
    | cons l finer =>
      obtain ⟨hl, hfiner⟩ := List.forall_mem_cons.1 h
      have hlen : (placeAll l.current now finer).length = n + 1 := by
        rw [← length_specsOf, specsOf_placeAll, length_specsOf]
        exact Nat.succ.inj hn
      have hne := ne_nil_of_specsOf_eq (specsOf_cascade now n (placeAll l.current now finer))
        (List.ne_nil_of_length_eq_add_one hlen)
      rw [cascade, yield_cons l.drain hne]
      refine List.forall_mem_cons.2 ⟨{ Level.wellFormed_drain hl with drained := rfl }, ?_⟩
      exact ih (wellFormed_placeAll hfiner l.current now) hlen

theorem wellFormed_map_step {levels : List (Level τ)} (h : LevelsWellFormed levels) :
    LevelsWellFormed (levels.map Level.step) := by
  intro m hm
  obtain ⟨l, hl, rfl⟩ := List.mem_map.1 hm
  exact Level.wellFormed_step (h l hl)

/-- Cursors that have just moved are over slots which are still to be emptied. -/
theorem drained_map_step {levels : List (Level τ)} :
    ∀ m ∈ levels.map Level.step, m.drained = false := by
  intro m hm
  obtain ⟨l, -, rfl⟩ := List.mem_map.1 hm
  rfl

theorem settled_turn {levels : List (Level τ)} (h : Settled levels) (now : Int) :
    Settled (turn now levels).2 := by
  induction levels with
  | nil => exact h
  | cons l finer ih =>
    obtain ⟨hl, hfiner⟩ := List.forall_mem_cons.1 h
    rw [turn]
    split
    · have hstepped := wellFormed_map_step h.wellFormed
      exact settled_yield_cascade hstepped now (by simp)
    · exact List.forall_mem_cons.2 ⟨hl, ih hfiner⟩

end Wheel

end TimingWheel
