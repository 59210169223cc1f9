import TimingWheel.Proofs.Wheel.Conservation
import TimingWheel.Proofs.Wheel.Growth
import TimingWheel.Proofs.Wheel.Meshing

/-!
# What the cursors show

Take a new wheel and use it in any way that moves nothing but its finest level: make ticks, take
timers out, and let timers fall in at any level and with any reading of the clock. Then the cursors
show how many ticks were made, and nothing else. In the number system whose bases are the slot
counts, they are the last digits of the number of ticks. In a matched wheel they also show the time
that has gone by, and in a nested one the finer cursors never show as much time as a slot of the
next coarser level takes.

## Main definitions

- `Wheel.Operation.isUse` — the operation moves nothing but the finest level
- `Wheel.ticksIn` — how often operations move the finest level
- `Wheel.Shows` — the cursors are the last digits of a number of ticks

## Main statements

- `Wheel.shows_advanceFinest` — a step of the finest level adds one to the number
- `Wheel.shows_performAll` — the number after any use
- `Wheel.Shows.cursor_eq` — a cursor as a digit of the number
- `Wheel.cursors_count_ticks` — what the cursors of a wheel in use show
-/

namespace TimingWheel.Wheel

variable {τ : Type}

/-! ### The number of ticks -/

/-- The operation adds no level and moves none but the finest one. -/
def Operation.isUse : Operation τ → Bool
  | .append _ | .advance _ _ => false
  | .insert _ _ | .insertAt _ _ _ | .advanceFinest _ | .take _ | .takeFinest | .run _ _ _ => true

/-- How often the operation moves the finest level. -/
def Operation.ticks : Operation τ → Nat
  | .advanceFinest _ => 1
  | .run _ _ count => count
  | .append _ | .insert _ _ | .insertAt _ _ _ | .advance _ _ | .take _ | .takeFinest => 0

/-- How often the operations move the finest level. -/
def ticksIn (ops : List (Operation τ)) : Nat := (ops.map Operation.ticks).sum

/-- The cursors are the last digits of the number `k`. -/
def Shows (k : Nat) (levels : List (Level τ)) : Prop := odometer levels = k % turnOf levels

section

variable {k : Nat} {w : Wheel τ} {levels levels' : List (Level τ)}

theorem Shows.congr (h : Shows k levels) (hspecs : specsOf levels' = specsOf levels)
    (hsame : odometer levels' = odometer levels) : Shows k levels' := by
  rw [Shows, hsame, turnOf_congr hspecs]
  exact h

/-- A turn of all levels takes them back to the digit zero. -/
theorem odometer_turn_of_all_atLast (h : LevelsWellFormed levels)
    (hlast : levels.all Level.atLast = true) (now : Int) : odometer (turn now levels).2 = 0 := by
  cases levels with
  | nil => rfl
  | cons l finer =>
    have hfiner : finer.all Level.atLast = true := by
      rw [List.all_cons, Bool.and_eq_true_iff] at hlast
      exact hlast.2
    rw [turn, if_pos hfiner, odometer_yield, odometer_cascade]
    exact odometer_map_step h hlast

/-- A step of the finest level adds one to the number. -/
theorem shows_advanceFinest (h : LevelsWellFormed w.levels) (hk : Shows k w.levels) (now : Int) :
    Shows (k + 1) (w.advanceFinest now).levels := by
  have hstepped : odometer (w.advanceFinest now).levels = odometer (turn now w.levels).2 := by
    rw [← yield_advanceAt, odometer_yield]
    rfl
  have hturn : turnOf (w.advanceFinest now).levels = turnOf w.levels :=
    turnOf_congr (specsOf_advanceAt now _ w.levels)
  have hnext : (k + 1) % turnOf w.levels = (odometer w.levels + 1) % turnOf w.levels := by
    rw [hk, Nat.mod_add_mod]
  rw [Shows, hstepped, hturn, hnext]
  -- The counter turns over exactly where all its digits do.
  have hover := odometer_succ_eq_turnOf_iff h
  cases hlast : w.levels.all Level.atLast with
  | true => rw [odometer_turn_of_all_atLast h hlast, hover.2 hlast, Nat.mod_self]
  | false =>
    have hlt := odometer_lt_turnOf h
    have hne : odometer w.levels + 1 ≠ turnOf w.levels := by
      intro heq
      rw [hover.1 heq] at hlast
      cases hlast
    rw [odometer_turn h hlast, Nat.mod_eq_of_lt (by omega)]

theorem shows_takeFinest (hk : Shows k w.levels) : Shows k w.takeFinest.2.levels := by
  refine hk.congr (specsOf_takeFinest w) ?_
  have hyield := congrArg (fun taken => taken.2.levels) (takeFinest_eq_yield w.levels)
  exact (congrArg odometer hyield).trans (odometer_yield w.levels)

theorem shows_insertAt (hk : Shows k w.levels) (i : Nat) (t : Timer τ) (now : Int) :
    Shows k (w.insertAt i t now).levels := by
  refine hk.congr (specsOf_insertAt i t now w) ?_
  rw [insertAt, odometer_append, odometer_place, turnOf_congr (specsOf_place t now _),
    ← odometer_append, List.take_append_drop]

theorem shows_take (hk : Shows k w.levels) {i : Nat} {ts : List (Timer τ)} {w' : Wheel τ}
    (hw : w.take i = .ok (ts, w')) : Shows k w'.levels := by
  refine hk.congr (specsOf_take hw) ?_
  obtain ⟨coarse, l, finer, hlevels, -, -, rfl⟩ := eq_of_take hw
  rw [hlevels]
  simp only [odometer_append, odometer_cons, turnOf_cons, Level.cursor_drain,
    Level.toLevelSpec_drain]

theorem shows_tick (h : LevelsWellFormed w.levels) (hk : Shows k w.levels) (now : Int) :
    Shows (k + 1) (w.tick now).2.levels :=
  shows_takeFinest (shows_advanceFinest h hk now)

theorem shows_run (h : LevelsWellFormed w.levels) (hk : Shows k w.levels) (now step : Int)
    (j n : Nat) : Shows (k + n) (run.go now step j n w).2.levels := by
  induction n generalizing j k w with
  | zero => exact hk
  | succ n ih =>
    have hrest := ih (wellFormed_tick h (now + j * step)) (shows_tick h hk (now + j * step)) (j + 1)
    rw [Nat.succ_add_eq_add_succ] at hrest
    exact hrest

/-- Of all uses only ticks change the number. -/
theorem shows_perform (h : LevelsWellFormed w.levels) (hk : Shows k w.levels) {op : Operation τ}
    (huse : op.isUse = true) : Shows (k + op.ticks) (w.perform op).2.levels := by
  cases op with
  | append spec => cases huse
  | insert t now =>
    rw [perform, insert_eq_insertAt]
    exact shows_insertAt hk 0 t now
  | insertAt i t now => exact shows_insertAt hk i t now
  | advance i now => cases huse
  | advanceFinest now => exact shows_advanceFinest h hk now
  | take i =>
    rw [perform]
    cases hw : w.take i with
    | ok taken => exact shows_take hk hw
    | error reason => exact hk
  | takeFinest => exact shows_takeFinest hk
  | run now step count => exact shows_run h hk now step 1 count

theorem shows_performAll (h : LevelsWellFormed w.levels) (hk : Shows k w.levels)
    {ops : List (Operation τ)} (huse : ∀ op ∈ ops, op.isUse = true) :
    Shows (k + ticksIn ops) (w.performAll ops).2.levels := by
  induction ops generalizing k w with
  | nil => exact hk
  | cons op rest ih =>
    obtain ⟨hop, hrest⟩ := List.forall_mem_cons.1 huse
    have hlater := ih (wellFormed_perform h op) (shows_perform h hk hop) hrest
    rw [Nat.add_assoc] at hlater
    exact hlater

/-! ### Digits and times -/

/-- The finer levels show the last digits of the same number. -/
theorem Shows.suffix {coarse fine : List (Level τ)} (h : LevelsWellFormed fine)
    (hk : Shows k (coarse ++ fine)) : Shows k fine := by
  rw [Shows, odometer_append, turnOf_append] at hk
  calc odometer fine = (odometer coarse * turnOf fine + odometer fine) % turnOf fine := by
        rw [Nat.mul_add_mod_self_right, Nat.mod_eq_of_lt (odometer_lt_turnOf h)]
    _ = k % (turnOf coarse * turnOf fine) % turnOf fine := by rw [hk]
    _ = k % turnOf fine := Nat.mod_mul_left_mod k (turnOf coarse) (turnOf fine)

/-- A cursor is a digit of the number, in the system whose bases are the slot counts. -/
theorem Shows.cursor_eq {l : Level τ} {finer : List (Level τ)} (h : LevelsWellFormed (l :: finer))
    (hk : Shows k (l :: finer)) : l.cursor = k / turnOf finer % l.slotCount := by
  have hfiner := (List.forall_mem_cons.1 h).2
  have hpos := turnOf_pos hfiner
  rw [Shows, odometer_cons, turnOf_cons] at hk
  calc l.cursor = (l.cursor * turnOf finer + odometer finer) / turnOf finer := by
        rw [Nat.mul_comm, Nat.mul_add_div hpos, Nat.div_eq_of_lt (odometer_lt_turnOf hfiner),
          Nat.add_zero]
    _ = k % (l.slotCount * turnOf finer) / turnOf finer := by rw [hk]
    _ = k / turnOf finer % l.slotCount := Nat.mod_mul_left_div_self k (turnOf finer) l.slotCount

/-- In a matched wheel the cursors stand for the time that the ticks have taken, less whole
turns. -/
theorem Shows.elapsedSum_eq {grain wide : Nat} {l : Level τ} {finer : List (Level τ)}
    (hmeshed : LevelSpec.Meshed grain wide (specsOf (l :: finer))) (hk : Shows k (l :: finer)) :
    elapsedSum (l :: finer) = k * grain % l.span := by
  have hspan : l.span = turnOf (l :: finer) * grain := by
    rw [LevelSpec.span, width_eq_of_meshed hmeshed, turnOf_cons, Nat.mul_assoc]
  rw [elapsedSum_of_meshed hmeshed, hk, hspan, Nat.mul_mod_mul_right]

/-- The cursors of a matched wheel do not stand for more than a turn of the coarsest level. -/
theorem elapsedSum_le_span {coarse fine : LevelSpec} (h : LevelsWellFormed levels)
    (hmatched : LevelSpec.Matched (specsOf levels)) (hcoarse : (specsOf levels).head? = some coarse)
    (hfine : (specsOf levels).getLast? = some fine) : elapsedSum levels ≤ coarse.span := by
  have hvalid : ∀ spec ∈ specsOf levels, spec.Valid := by
    intro spec hspec
    obtain ⟨l, hl, rfl⟩ := List.mem_map.1 hspec
    exact (h l hl).valid
  have hmeshed := LevelSpec.meshed_of_matched hvalid hmatched hcoarse hfine
  cases levels with
  | nil => cases hcoarse
  | cons l finer =>
    obtain rfl := Option.some.inj hcoarse
    have hlt := (odometer_lt_turnOf h).le
    calc elapsedSum (l :: finer)
      _ = odometer (l :: finer) * fine.width := elapsedSum_of_meshed hmeshed
      _ ≤ turnOf (l :: finer) * fine.width := Nat.mul_le_mul_right _ hlt
      _ = l.slotCount * l.width := by
        rw [width_eq_of_meshed hmeshed, turnOf_cons, Nat.mul_assoc]

theorem elapsedSum_suffix_le (coarse fine : List (Level τ)) :
    elapsedSum fine ≤ elapsedSum (coarse ++ fine) := by
  induction coarse with
  | nil => exact Nat.le_refl _
  | cons l coarse ih => exact ih.trans (Nat.le_add_left _ _)

theorem drop_of_level? {i : Nat} {l : Level τ} (hl : w.level? i = some l) :
    w.levels.drop i = l :: w.levels.drop (i + 1) := by
  obtain ⟨hi, rfl⟩ := List.getElem?_eq_some_iff.1 hl
  exact (List.getElem_cons_drop hi).symm

end

/-! ### New wheels -/

theorem shows_zero_append {w : Wheel τ} (h : Shows 0 w.levels) (spec : LevelSpec) :
    Shows 0 (w.perform (.append spec)).2.levels := by
  rw [perform, append]
  by_cases hvalid : spec.Valid
  · rw [if_pos hvalid]
    rw [Shows, Nat.zero_mod] at h ⊢
    rw [odometer_concat, h, Nat.zero_mul]
  · rw [if_neg hvalid]
    exact h

/-- The cursors of levels that were just appended are on the first slots. -/
theorem shows_zero_appends {w : Wheel τ} (h : Shows 0 w.levels) (specs : List LevelSpec) :
    Shows 0 (w.performAll (specs.map .append)).2.levels := by
  induction specs generalizing w with
  | nil => exact h
  | cons spec specs ih => exact ih (shows_zero_append h spec)

theorem adds_appends (specs : List LevelSpec) :
    (specs.map (.append : LevelSpec → Operation τ)).flatMap Operation.adds =
      specs.filter fun spec => spec.Valid := by
  induction specs with
  | nil => rfl
  | cons spec specs ih =>
    rw [List.map_cons, List.flatMap_cons, ih, Operation.adds, List.filter_cons]
    by_cases hvalid : spec.Valid <;> simp [hvalid]

theorem adds_uses {ops : List (Operation τ)} (huse : ∀ op ∈ ops, op.isUse = true) :
    ops.flatMap Operation.adds = [] := by
  refine List.flatMap_eq_nil_iff.2 fun op hop => ?_
  have hop := huse op hop
  cases op with
  | append spec => cases hop
  | _ => rfl

/-- Append levels to a new wheel (those without slots or without a width are refused), and then use
it: let ticks be made, timers be taken out, and timers fall in at any level, in any order and with
any readings of the clock. Let `k` be the number of ticks.
* The cursor of a level is the digit of `k` that belongs to the level, in the number system whose
  bases are the slot counts.
* If the levels match, and if a whole turn of the coarsest one is within the range of times, the
  time that the cursors of a level and of the finer ones stand for is that of `k` slots of the
  finest level, less whole turns of the level itself.
* If the levels are nested (with widths that are words of 32 bits), what the finer cursors stand for
  is not negative and less than the width of a slot. -/
theorem cursors_count_ticks (specs : List LevelSpec) {ops : List (Operation τ)}
    (huse : ∀ op ∈ ops, op.isUse = true) :
    let w := (((empty : Wheel τ).performAll (specs.map .append)).2.performAll ops).2
    let kept := specs.filter fun spec => spec.Valid
    let k := ticksIn ops
    specsOf w.levels = kept ∧
    (∀ i l, w.level? i = some l →
      l.cursor = k / LevelSpec.turnTicks (kept.drop (i + 1)) % l.slotCount) ∧
    (∀ coarse fine, LevelSpec.Matched kept → kept.head? = some coarse →
      kept.getLast? = some fine → (coarse.span : Int) ≤ Time.greatest →
      ∀ i l, w.level? i = some l → w.elapsed i = (k * fine.width % l.span : Nat)) ∧
    (LevelSpec.Nested kept → (∀ spec ∈ kept, spec.width < 4294967296) →
      ∀ i l, w.level? i = some l → 0 ≤ w.elapsed (i + 1) ∧ w.elapsed (i + 1) < l.width) := by
  intro w kept k
  have hnew : LevelsWellFormed (empty : Wheel τ).levels := fun l hl => absurd hl List.not_mem_nil
  have hzero : Shows 0 (empty : Wheel τ).levels := rfl
  have hbuilt := wellFormed_performAll hnew (specs.map .append)
  have hwell : LevelsWellFormed w.levels := wellFormed_performAll hbuilt ops
  have hshows : Shows (0 + k) w.levels :=
    shows_performAll hbuilt (shows_zero_appends hzero specs) huse
  have hspecs : specsOf w.levels = kept := by
    rw [specsOf_performAll, specsOf_performAll, adds_appends, adds_uses huse, List.append_nil]
    rfl
  have hvalid : ∀ spec ∈ kept, spec.Valid := fun spec hspec => by
    simpa using (List.mem_filter.1 hspec).2
  rw [Nat.zero_add] at hshows
  -- Each level is looked at together with the finer ones, whose cursors are the later digits.
  have hbelow : ∀ i l, w.level? i = some l →
      w.levels = w.levels.take i ++ l :: w.levels.drop (i + 1) ∧
        LevelsWellFormed (l :: w.levels.drop (i + 1)) ∧ Shows k (l :: w.levels.drop (i + 1)) := by
    intro i l hl
    have hsplit : w.levels = w.levels.take i ++ l :: w.levels.drop (i + 1) := by
      rw [← drop_of_level? hl, List.take_append_drop]
    rw [hsplit] at hwell hshows
    have hfine := (List.forall_mem_append.1 hwell).2
    exact ⟨hsplit, hfine, hshows.suffix hfine⟩
  refine ⟨hspecs, ?_, ?_, ?_⟩
  · intro i l hl
    obtain ⟨-, hlevels, hk⟩ := hbelow i l hl
    have hturn : LevelSpec.turnTicks (kept.drop (i + 1)) = turnOf (w.levels.drop (i + 1)) := by
      rw [← hspecs, specsOf, ← List.map_drop]
      rfl
    rw [hturn]
    exact hk.cursor_eq hlevels
  · intro coarse fine hmatched hcoarse hfine hrange i l hl
    obtain ⟨hsplit, -, hk⟩ := hbelow i l hl
    have hmeshed := LevelSpec.meshed_of_matched hvalid hmatched hcoarse hfine
    rw [← hspecs] at hmatched hcoarse hfine hmeshed
    have hle := elapsedSum_le_span hwell hmatched hcoarse hfine
    have hsuffix := elapsedSum_suffix_le (w.levels.take i) (l :: w.levels.drop (i + 1))
    rw [hsplit, specsOf_append] at hmeshed
    rw [← hsplit] at hsuffix
    rw [elapsed, drop_of_level? hl, ← hk.elapsedSum_eq (hmeshed.suffix (List.suffix_append _ _))]
    refine Time.wrap_of_fits ⟨?_, ?_⟩
    · rw [Time.least]
      omega
    · show (elapsedSum (l :: w.levels.drop (i + 1)) : Int) ≤ Time.greatest
      omega
  · intro hnested hwords i l hl
    obtain ⟨hsplit, hlevels, -⟩ := hbelow i l hl
    have hne : kept ≠ [] := by
      rw [← hspecs, hsplit]
      simp
    obtain ⟨fine, hfine⟩ := Option.isSome_iff_exists.1 (List.getLast?_isSome.2 hne)
    have hgeared := LevelSpec.geared_of_nested hvalid hnested hwords hfine
    rw [← hspecs, hsplit, specsOf_append] at hgeared
    have hsuffix := hgeared.suffix (List.suffix_append _ _)
    have hlt := elapsedSum_lt hlevels hsuffix
    rw [elapsed, elapsedIn_eq hlevels hsuffix]
    omega

/-- Three levels that match, and one without slots that is refused. After twenty-nine ticks, with
timers that fall in and are taken out meanwhile, the cursors show the digits of that number. -/
theorem cursors_count_ticks_twenty_nine : ∃ (w : Wheel Unit) (l m : Level Unit),
    w.level? 0 = some l ∧ l.cursor = 29 / 12 % 3 ∧ w.level? 1 = some m ∧ m.cursor = 29 / 3 % 4 ∧
      w.elapsed 0 = 290 ∧ w.elapsed 1 = 50 ∧ 0 ≤ w.elapsed 1 ∧ w.elapsed 1 < l.width := by
  obtain ⟨-, hcursor, helapsed, hnested⟩ := @cursors_count_ticks Unit
    [⟨3, 120, "coarse"⟩, ⟨0, 60, "none"⟩, ⟨4, 30, "middle"⟩, ⟨3, 10, "fine"⟩]
    [.insert (.once ⟨1⟩ 85 none) 0, .advanceFinest 10, .takeFinest,
      .insertAt 1 (.once ⟨2⟩ 45 none) 10, .run 10 10 27, .take 1, .advanceFinest 290] (by decide)
  have hmatched := helapsed ⟨3, 120, "coarse"⟩ ⟨3, 10, "fine"⟩ ⟨rfl, rfl, trivial⟩ rfl rfl
    (by decide)
  refine ⟨_, _, _, rfl, hcursor 0 _ rfl, rfl, hcursor 1 _ rfl, hmatched 0 _ rfl, hmatched 1 _ rfl,
    ?_⟩
  exact hnested ⟨Nat.le_refl _, Nat.le_refl _, trivial⟩ (by decide) 0 _ rfl

end TimingWheel.Wheel
