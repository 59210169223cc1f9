import Mathlib.Tactic.Ring
import TimingWheel.Proofs.Wheel.Turn

/-!
# The cursors as a counter

The cursors of the levels are the digits of a counter. Each tick adds one to it, and a digit
turns over where its level completes a turn. The same cursors, weighted by the widths of the
slots instead of by ticks, stand for a time. In a nested wheel the two run together: the time
that the cursors stand for is never further from a whole turn than the ticks are.

## Main definitions

- `LevelSpec.Geared` — the levels are made for ticks of a given length
- `LevelSpec.totalSpan` — the time that whole turns of all levels take together
- `Wheel.turnOf`, `Wheel.odometer` — ticks in a whole turn, and ticks since it began
- `Wheel.elapsedSum` — the time that the cursors stand for

## Main statements

- `Wheel.odometer_succ_eq_turnOf_iff`, `Wheel.odometer_turn` — the counter and its carry
- `Wheel.elapsedSum_add_turn_le` — what is left of a turn, in time and in ticks
-/

namespace TimingWheel

/-- The levels are made for ticks that are `grain` milliseconds apart: each level is nested in
the one before it, and no slot is narrower than a tick. -/
structure LevelSpec.Geared (grain : Nat) (specs : List LevelSpec) : Prop where
  nested : Nested specs
  grain_le : ∀ spec ∈ specs, grain ≤ spec.width
  /-- Widths are words of 32 bits. -/
  width_lt : ∀ spec ∈ specs, spec.width < 4294967296

theorem LevelSpec.Geared.tail {grain : Nat} {spec : LevelSpec} {finer : List LevelSpec}
    (h : Geared grain (spec :: finer)) : Geared grain finer where
  nested := by
    cases finer with
    | nil => trivial
    | cons fine rest => exact h.nested.2
  grain_le := fun s hs => h.grain_le s (List.mem_cons_of_mem _ hs)
  width_lt := fun s hs => h.width_lt s (List.mem_cons_of_mem _ hs)

theorem LevelSpec.Geared.suffix {grain : Nat} {specs finer : List LevelSpec}
    (h : Geared grain specs) (hsuffix : finer <:+ specs) : Geared grain finer := by
  obtain ⟨coarse, rfl⟩ := hsuffix
  induction coarse with
  | nil => exact h
  | cons spec coarse ih => exact ih h.tail

/-- Nested levels are made for ticks as long as the slots of the finest level are wide. -/
theorem LevelSpec.geared_of_nested {specs : List LevelSpec} (hvalid : ∀ spec ∈ specs, spec.Valid)
    (hnested : Nested specs) (hwords : ∀ spec ∈ specs, spec.width < 4294967296) {fine : LevelSpec}
    (hfine : specs.getLast? = some fine) : Geared fine.width specs where
  nested := hnested
  width_lt := hwords
  grain_le := by
    clear hwords
    induction specs with
    | nil => exact fun spec hspec => absurd hspec List.not_mem_nil
    | cons coarse finer ih =>
      obtain ⟨-, hvalidFiner⟩ := List.forall_mem_cons.1 hvalid
      cases finer with
      | nil =>
        obtain rfl := Option.some.inj hfine
        exact List.forall_mem_singleton.2 (Nat.le_refl _)
      | cons next rest =>
        have hrest := ih hvalidFiner hnested.2 hfine
        refine List.forall_mem_cons.2 ⟨?_, hrest⟩
        obtain ⟨hcount, -⟩ := hvalidFiner next List.mem_cons_self
        calc fine.width ≤ next.width := hrest next List.mem_cons_self
          _ ≤ next.slotCount * next.width := Nat.le_mul_of_pos_left _ hcount
          _ ≤ coarse.width := hnested.1

/-- The time that whole turns of all the levels take together. -/
def LevelSpec.totalSpan (specs : List LevelSpec) : Nat := (specs.map span).sum

@[simp] theorem LevelSpec.totalSpan_cons (spec : LevelSpec) (finer : List LevelSpec) :
    totalSpan (spec :: finer) = spec.span + totalSpan finer := List.sum_cons

@[simp] theorem LevelSpec.totalSpan_append (coarse fine : List LevelSpec) :
    totalSpan (coarse ++ fine) = totalSpan coarse + totalSpan fine := by
  rw [totalSpan, List.map_append, List.sum_append]
  rfl

namespace Wheel

variable {τ : Type}

/-! ### Ticks -/

/-- Number of ticks in which the coarsest of the levels makes a whole turn; one tick if there
are no levels. -/
def turnOf (levels : List (Level τ)) : Nat := LevelSpec.turnTicks (specsOf levels)

@[simp] theorem turnOf_nil : turnOf ([] : List (Level τ)) = 1 := rfl

theorem turnOf_cons (l : Level τ) (finer : List (Level τ)) :
    turnOf (l :: finer) = l.slotCount * turnOf finer := rfl

theorem turnOf_congr {levels levels' : List (Level τ)} (h : specsOf levels' = specsOf levels) :
    turnOf levels' = turnOf levels := congrArg LevelSpec.turnTicks h

theorem turnOf_pos {levels : List (Level τ)} (h : LevelsWellFormed levels) : 0 < turnOf levels := by
  refine LevelSpec.turnTicks_pos ?_
  intro spec hspec
  obtain ⟨l, hl, rfl⟩ := List.mem_map.1 hspec
  exact (h l hl).valid

/-- What the cursors show as the digits of a counter, the coarsest level first: the ticks since
all of them were on their first slots. -/
def odometer : List (Level τ) → Nat
  | [] => 0
  | l :: finer => l.cursor * turnOf finer + odometer finer

@[simp] theorem odometer_nil : odometer ([] : List (Level τ)) = 0 := rfl

theorem odometer_cons (l : Level τ) (finer : List (Level τ)) :
    odometer (l :: finer) = l.cursor * turnOf finer + odometer finer := rfl

/-- A level on top only adds digits. -/
theorem odometer_le_cons (l : Level τ) (finer : List (Level τ)) :
    odometer finer ≤ odometer (l :: finer) := Nat.le_add_left _ _

theorem odometer_lt_turnOf {levels : List (Level τ)} (h : LevelsWellFormed levels) :
    odometer levels < turnOf levels := by
  induction levels with
  | nil => exact Nat.one_pos
  | cons l finer ih =>
    obtain ⟨hl, hfiner⟩ := List.forall_mem_cons.1 h
    have hrest := ih hfiner
    have hdigit : (l.cursor + 1) * turnOf finer ≤ l.slotCount * turnOf finer :=
      Nat.mul_le_mul_right _ hl.cursor_lt
    rw [Nat.succ_mul] at hdigit
    rw [odometer_cons, turnOf_cons]
    omega

theorem atLast_iff {l : Level τ} (h : l.WellFormed) :
    l.atLast = true ↔ l.cursor + 1 = l.slotCount := by
  have hlt := h.cursor_lt
  rw [Level.atLast, decide_eq_true_iff]
  omega

/-- The counter is about to turn over if and only if all its digits are. -/
theorem odometer_succ_eq_turnOf_iff {levels : List (Level τ)} (h : LevelsWellFormed levels) :
    odometer levels + 1 = turnOf levels ↔ levels.all Level.atLast = true := by
  induction levels with
  | nil => exact ⟨fun _ => rfl, fun _ => rfl⟩
  | cons l finer ih =>
    obtain ⟨hl, hfiner⟩ := List.forall_mem_cons.1 h
    have hpos := turnOf_pos hfiner
    have hlt := odometer_lt_turnOf hfiner
    rw [List.all_cons, Bool.and_eq_true_iff, atLast_iff hl, ← ih hfiner, odometer_cons, turnOf_cons]
    constructor
    · intro hturn
      -- Before its last value a digit leaves room for a whole turn of the finer ones.
      have hlast : l.cursor + 1 = l.slotCount := by
        refine Nat.le_antisymm hl.cursor_lt (Nat.le_of_not_lt ?_)
        intro hbefore
        have hdigit : (l.cursor + 1 + 1) * turnOf finer ≤ l.slotCount * turnOf finer :=
          Nat.mul_le_mul_right _ hbefore
        rw [Nat.succ_mul, Nat.succ_mul] at hdigit
        omega
      refine ⟨hlast, ?_⟩
      rw [← hlast, Nat.succ_mul] at hturn
      omega
    · rintro ⟨hlast, hturn⟩
      rw [← hlast, Nat.succ_mul]
      omega

/-- Where the counter turns over, all digits are back at zero. -/
theorem odometer_map_step {levels : List (Level τ)} (h : LevelsWellFormed levels)
    (hlast : levels.all Level.atLast = true) : odometer (levels.map Level.step) = 0 := by
  induction levels with
  | nil => rfl
  | cons l finer ih =>
    obtain ⟨hl, hfiner⟩ := List.forall_mem_cons.1 h
    rw [List.all_cons, Bool.and_eq_true_iff, atLast_iff hl] at hlast
    rw [List.map_cons, odometer_cons, ih hfiner hlast.2, Level.cursor_step, hlast.1, Nat.mod_self,
      Nat.zero_mul]

@[simp] theorem odometer_place (t : Timer τ) (now : Int) (levels : List (Level τ)) :
    odometer (place t now levels) = odometer levels := by
  induction levels with
  | nil => rfl
  | cons l finer ih =>
    rw [place]
    split
    · rfl
    · split
      next hempty => rw [List.isEmpty_iff.1 hempty]; rfl
      next => rw [odometer_cons, ih, turnOf_congr (specsOf_place t now finer), odometer_cons]

@[simp] theorem odometer_placeAll (ts : List (Timer τ)) (now : Int) (levels : List (Level τ)) :
    odometer (placeAll ts now levels) = odometer levels := by
  induction ts generalizing levels with
  | nil => rfl
  | cons t ts ih => exact (ih (place t now levels)).trans (odometer_place t now levels)

@[simp] theorem odometer_cascade (now : Int) (n : Nat) (levels : List (Level τ)) :
    odometer (cascade now n levels) = odometer levels := by
  induction n generalizing levels with
  | zero => rfl
  | succ n ih =>
    cases levels with
    | nil => rfl
    | cons l finer =>
      have hturn : turnOf (cascade now n (placeAll l.current now finer)) = turnOf finer :=
        turnOf_congr (by simp)
      rw [cascade, odometer_cons, ih, odometer_placeAll, hturn, Level.cursor_drain, odometer_cons]

@[simp] theorem odometer_yield (levels : List (Level τ)) :
    odometer (yield levels).2 = odometer levels := by
  induction levels with
  | nil => rfl
  | cons l finer ih =>
    cases finer with
    | nil => rfl
    | cons m rest =>
      rw [yield_cons l (List.cons_ne_nil m rest), odometer_cons l, ih,
        turnOf_congr (specsOf_yield (m :: rest)), odometer_cons l]

/-- A tick adds one to the counter, unless it turns over. -/
theorem odometer_turn {levels : List (Level τ)} (h : LevelsWellFormed levels)
    (hlast : levels.all Level.atLast = false) (now : Int) :
    odometer (turn now levels).2 = odometer levels + 1 := by
  induction levels with
  | nil => cases hlast
  | cons l finer ih =>
    obtain ⟨hl, hfiner⟩ := List.forall_mem_cons.1 h
    rw [turn]
    split
    next hfinerLast =>
      -- The carry: the finer digits go from their last values to zero.
      have hcarry := (odometer_succ_eq_turnOf_iff hfiner).2 hfinerLast
      have hbefore : l.cursor + 1 < l.slotCount := by
        rw [List.all_cons, hfinerLast, Bool.and_true, ← Bool.not_eq_true, atLast_iff hl] at hlast
        exact Nat.lt_of_le_of_ne hl.cursor_lt hlast
      rw [odometer_yield, odometer_cascade, odometer_cons, odometer_map_step hfiner hfinerLast,
        turnOf_congr (specsOf_map_step finer), Level.cursor_step, Nat.mod_eq_of_lt hbefore,
        Nat.succ_mul, odometer_cons]
      omega
    next hfinerLast =>
      rw [odometer_cons, turnOf_congr (specsOf_turn now finer),
        ih hfiner (Bool.eq_false_iff.2 hfinerLast), odometer_cons]
      omega

/-! ### Time -/

/-- The time that the cursors of the levels stand for. -/
def elapsedSum (levels : List (Level τ)) : Nat :=
  levels.foldr (fun l rest => l.cursor * l.width + rest) 0

theorem elapsedSum_cons (l : Level τ) (finer : List (Level τ)) :
    elapsedSum (l :: finer) = l.cursor * l.width + elapsedSum finer := rfl

theorem elapsedSum_le_totalSpan {levels : List (Level τ)} (h : LevelsWellFormed levels) :
    elapsedSum levels ≤ LevelSpec.totalSpan (specsOf levels) := by
  induction levels with
  | nil => exact Nat.le_refl _
  | cons l finer ih =>
    obtain ⟨hl, hfiner⟩ := List.forall_mem_cons.1 h
    have hdigit : l.cursor * l.width ≤ l.span := Nat.mul_le_mul_right _ (Nat.le_of_lt hl.cursor_lt)
    rw [elapsedSum_cons, specsOf_cons, LevelSpec.totalSpan_cons]
    exact Nat.add_le_add hdigit (ih hfiner)

/-- Where whole turns of all levels together can be held, so can what the cursors stand for. -/
theorem elapsedIn_eq_elapsedSum {levels : List (Level τ)} (h : LevelsWellFormed levels)
    (htotal : (LevelSpec.totalSpan (specsOf levels) : Int) ≤ Time.greatest) :
    elapsedIn levels = elapsedSum levels := by
  have hsum := elapsedSum_le_totalSpan h
  refine Time.wrap_of_fits ?_
  rw [Time.Fits, Time.least, Time.greatest]
  rw [Time.greatest] at htotal
  rw [elapsedSum] at hsum
  omega

section

variable {grain : Nat} {l : Level τ} {finer : List (Level τ)}

/-- The ticks of a whole turn take no longer than a slot of the next coarser level is wide. -/
theorem turnOf_mul_le (h : LevelsWellFormed (l :: finer))
    (hgeared : LevelSpec.Geared grain (specsOf (l :: finer))) : turnOf finer * grain ≤ l.width := by
  induction finer generalizing l with
  | nil =>
    rw [turnOf_nil, Nat.one_mul]
    exact hgeared.grain_le _ List.mem_cons_self
  | cons f rest ih =>
    have hrest := ih (List.forall_mem_cons.1 h).2 hgeared.tail
    have hspan : f.slotCount * f.width ≤ l.width := hgeared.nested.1
    calc turnOf (f :: rest) * grain = f.slotCount * (turnOf rest * grain) := by
          rw [turnOf_cons, Nat.mul_assoc]
      _ ≤ f.slotCount * f.width := Nat.mul_le_mul_left _ hrest
      _ ≤ l.width := hspan

/-- The finer cursors never stand for a whole slot of the next coarser level. -/
theorem elapsedSum_lt (h : LevelsWellFormed (l :: finer))
    (hgeared : LevelSpec.Geared grain (specsOf (l :: finer))) : elapsedSum finer < l.width := by
  induction finer generalizing l with
  | nil => exact (h l List.mem_cons_self).valid.2
  | cons f rest ih =>
    have hfiner := (List.forall_mem_cons.1 h).2
    have hrest := ih hfiner hgeared.tail
    have hspan : f.slotCount * f.width ≤ l.width := hgeared.nested.1
    have hdigit : (f.cursor + 1) * f.width ≤ f.slotCount * f.width :=
      Nat.mul_le_mul_right _ (hfiner f List.mem_cons_self).cursor_lt
    rw [Nat.succ_mul] at hdigit
    rw [elapsedSum_cons]
    omega

/-- What the finer cursors stand for leaves at least as much of a slot of the next coarser level
as the ticks leave of their turn. -/
theorem elapsedSum_add_turn_le (h : LevelsWellFormed (l :: finer))
    (hgeared : LevelSpec.Geared grain (specsOf (l :: finer))) :
    elapsedSum finer + turnOf finer * grain ≤ l.width + odometer finer * grain := by
  induction finer generalizing l with
  | nil =>
    have hgrain : grain ≤ l.width := hgeared.grain_le _ List.mem_cons_self
    simpa [elapsedSum] using hgrain
  | cons f rest ih =>
    have hfiner := (List.forall_mem_cons.1 h).2
    have hrest := ih hfiner hgeared.tail
    have hturn := turnOf_mul_le hfiner hgeared.tail
    have hspan : f.slotCount * f.width ≤ l.width := hgeared.nested.1
    -- The slots of `f` that are still to come are as many as its turns of ticks.
    obtain ⟨ahead, hahead⟩ := Nat.exists_eq_add_of_lt (hfiner f List.mem_cons_self).cursor_lt
    have hleft : ahead * (turnOf rest * grain) ≤ ahead * f.width := Nat.mul_le_mul_left _ hturn
    have hslots : f.slotCount * f.width = f.cursor * f.width + ahead * f.width + f.width := by
      rw [hahead]
      ring
    have hticks : turnOf (f :: rest) * grain = f.cursor * turnOf rest * grain +
        ahead * (turnOf rest * grain) + turnOf rest * grain := by
      rw [turnOf_cons, hahead]
      ring
    rw [elapsedSum_cons, odometer_cons, hticks, Nat.add_mul]
    omega

/-- No cursor stands for more time than can be held. -/
theorem elapsedIn_eq (h : LevelsWellFormed (l :: finer))
    (hgeared : LevelSpec.Geared grain (specsOf (l :: finer))) :
    elapsedIn finer = elapsedSum finer := by
  have hlt := elapsedSum_lt h hgeared
  have hwidth : l.width < 4294967296 := hgeared.width_lt _ List.mem_cons_self
  refine Time.wrap_of_fits ?_
  rw [Time.Fits, Time.least, Time.greatest]
  rw [elapsedSum] at hlt
  omega

end

end Wheel

end TimingWheel
