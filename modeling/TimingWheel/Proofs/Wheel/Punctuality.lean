import TimingWheel.Proofs.Wheel.Waiting

/-!
# Slots are emptied in time

A timer waits in a slot. How many ticks it takes until the slot is emptied follows from the
cursors alone, and so does the earliest time that the clock can have reached by then. Where ticks
are never further apart than the slots of the finest level are wide, a timer comes out of its
slot before its due time has passed, whichever level it is in: when it is placed, because its
distance is rounded down; at a tick, because one tick and at most one slot's width of time go by;
and when a slot is handed down, because the timers in it are placed anew.

## Main definitions

- `Level.EmptiesIn` — after how many ticks a slot of a level is emptied
- `Wheel.OnTime` — every timer comes out of its slot in time

## Main statements

- `Wheel.onTime_place` — a timer that falls in will come out in time
- `Wheel.onTime_turn` — a tick leaves the timers on time
- `Wheel.due_gt_of_onTime` — what a tick does not yield is not due yet
-/

namespace TimingWheel

variable {τ : Type}

/-- Every timer of `l` is in a slot that is emptied in `n` ticks, and ticks that are `grain`
apart do not lead past its due time. No such bound is asked for the next `late` ticks. -/
def Level.OnTime (grain : Nat) (now : Int) (late : Nat) (l : Level τ) (finer : List (Level τ)) :
    Prop :=
  ∀ i, ∀ t ∈ l.slot i, ∃ n, l.EmptiesIn finer n i ∧ (n ≤ late ∨ now + (n * grain : Nat) ≤ t.due)

namespace Wheel

/-- Every timer of the levels is on time. -/
def OnTime (grain : Nat) (now : Int) (late : Nat) : List (Level τ) → Prop
  | [] => True
  | l :: finer => l.OnTime grain now late finer ∧ OnTime grain now late finer

end Wheel

/-! ### One level -/

namespace Level

open Wheel (odometer turnOf specsOf)

variable {grain late : Nat} {now now' : Int} {l : Level τ} {finer finer' : List (Level τ)}

theorem OnTime.mono {late' : Nat} (h : l.OnTime grain now late finer) (hle : late ≤ late') :
    l.OnTime grain now late' finer := by
  intro i t ht
  obtain ⟨n, hn, hdue⟩ := h i t ht
  exact ⟨n, hn, hdue.imp_left fun hlate => Nat.le_trans hlate hle⟩

theorem OnTime.congr (h : l.OnTime grain now late finer) (hspecs : specsOf finer' = specsOf finer)
    (hodometer : odometer finer' = odometer finer) : l.OnTime grain now late finer' := by
  intro i t ht
  obtain ⟨n, ⟨k, hk, hi, hn⟩, hdue⟩ := h i t ht
  exact ⟨n, ⟨k, hk, hi, by rw [hodometer, Wheel.turnOf_congr hspecs, hn]⟩, hdue⟩

theorem onTime_put (h : l.OnTime grain now late finer) {i : Nat} (hi : i < l.slots.size)
    {t : Timer τ}
    (ht : ∃ n, l.EmptiesIn finer n i ∧ (n ≤ late ∨ now + (n * grain : Nat) ≤ t.due)) :
    (l.put i t).OnTime grain now late finer := by
  intro j u hu
  rw [slot_put l i j t hi] at hu
  split at hu
  next hij =>
    subst hij
    rcases List.mem_append.1 hu with hold | hnew
    · exact h i u hold
    · rw [List.mem_singleton.1 hnew]
      exact ht
  next => exact h j u hu

end Level

/-! ### Lists of levels -/

namespace Wheel

variable {grain late : Nat} {now now' : Int} {levels : List (Level τ)}

theorem OnTime.mono {late' : Nat} (h : OnTime grain now late levels) (hle : late ≤ late') :
    OnTime grain now late' levels := by
  induction levels with
  | nil => trivial
  | cons l finer ih => exact ⟨h.1.mono hle, ih h.2⟩

theorem onTime_of_no_timer (h : timersIn levels = []) : OnTime grain now late levels := by
  induction levels with
  | nil => trivial
  | cons l finer ih =>
    rw [timersIn_cons, List.append_eq_nil_iff] at h
    refine ⟨?_, ih h.2⟩
    intro i t ht
    have hmem := Level.mem_timers.2 ⟨i, ht⟩
    rw [h.1] at hmem
    exact absurd hmem List.not_mem_nil

/-- A distance is rounded down to slots, and what the finer cursors stand for is made good. So a
timer that goes into a slot ahead comes out before its due time has passed. -/
theorem slotAt_onTime {l : Level τ} {finer : List (Level τ)} (h : LevelsWellFormed (l :: finer))
    (hgeared : LevelSpec.Geared grain (specsOf (l :: finer))) (hnow : Time.least ≤ now)
    {t : Timer τ} (hreaches : l.reaches (distance t now finer) = true) :
    ∃ n, l.EmptiesIn finer n (l.slotAt (distance t now finer)) ∧
      now + (n * grain : Nat) ≤ t.due := by
  obtain ⟨hl, hfiner⟩ := List.forall_mem_cons.1 h
  have hwidth : 0 < l.width := hl.valid.2
  have hd : (l.width : Int) ≤ distance t now finer := of_decide_eq_true hreaches
  -- A due time that is held at the end of the range is only brought nearer by that.
  have hdue : distance t now finer ≤ t.due + elapsedSum finer - now := by
    rw [distance] at hd ⊢
    rw [elapsedIn_eq h hgeared] at hd ⊢
    rw [Time.least] at hnow
    unfold Time.minus Time.plus Time.saturate Time.least Time.greatest at hd ⊢
    omega
  have hfloor : (distance t now finer).toNat / l.width * l.width ≤ (distance t now finer).toNat :=
    Nat.div_mul_le_self _ _
  have hone : 1 ≤ (distance t now finer).toNat / l.width := by
    rw [Nat.le_div_iff_mul_le hwidth]
    omega
  obtain ⟨n, hn, hsteps⟩ := slotAt_emptiesIn hl hfiner hreaches
  refine ⟨n, hn, ?_⟩
  generalize (distance t now finer).toNat / l.width = k at hfloor hone hsteps
  obtain ⟨k, rfl⟩ := Nat.exists_eq_add_of_le' hone
  -- All slots but the first one take a whole turn of the finer levels each; the first one takes
  -- what is left of the turn that is under way.
  have hturns : k * (turnOf finer * grain) ≤ k * l.width :=
    Nat.mul_le_mul_left k (turnOf_mul_le h hgeared)
  have hturn := elapsedSum_add_turn_le h hgeared
  have hticks : n * grain + odometer finer * grain =
      k * (turnOf finer * grain) + turnOf finer * grain := by
    rw [← Nat.add_mul, hsteps]
    ring
  rw [Nat.succ_mul] at hfloor
  omega

/-- A timer that falls into the levels is on time there. One that is due at once takes at most
one tick, and none if the levels are about to be emptied. -/
theorem onTime_place (h : LevelsWellFormed levels)
    (hgeared : LevelSpec.Geared grain (specsOf levels)) (hnow : Time.least ≤ now)
    (hlate : ∀ l ∈ levels, l.drained = true → 1 ≤ late) (hontime : OnTime grain now late levels)
    (t : Timer τ) : OnTime grain now late (place t now levels) := by
  induction levels with
  | nil => trivial
  | cons l finer ih =>
    obtain ⟨hl, hfiner⟩ := List.forall_mem_cons.1 h
    obtain ⟨hlateHead, hlateFiner⟩ := List.forall_mem_cons.1 hlate
    rw [place]
    split
    next hreaches =>
      obtain ⟨n, hn, hdue⟩ := slotAt_onTime h hgeared hnow hreaches
      refine ⟨Level.onTime_put hontime.1 (Level.slotAt_lt hl _) ⟨n, hn, Or.inr hdue⟩, hontime.2⟩
    next =>
      split
      next hempty =>
        obtain rfl := List.isEmpty_iff.1 hempty
        refine ⟨Level.onTime_put hontime.1 (Level.nextSlot_lt hl)
          ⟨_, nextSlot_emptiesIn hl, Or.inl ?_⟩, trivial⟩
        split
        next hdrained => exact hlateHead hdrained
        next => exact Nat.zero_le late
      next =>
        refine ⟨hontime.1.congr (specsOf_place t now finer) (odometer_place t now finer), ?_⟩
        exact ih hfiner hgeared.tail hlateFiner hontime.2

/-! ### Punctuality as a property of waits -/

/-- The wait is over before the due time has passed, if ticks are `grain` apart. No such bound is
asked for the next `late` ticks. -/
def InTime (grain : Nat) (now : Int) (late : Nat) : Nat → Nat → Timer τ → Prop :=
  fun _ n t => n ≤ late ∨ now + (n * grain : Nat) ≤ t.due

/-- A tick takes one off the number of ticks to come, and at most `grain` off the time. -/
theorem inTime_of_succ (hnow : now' ≤ now + grain) {P n : Nat} {t : Timer τ}
    (h : InTime grain now (late + 1) P (n + 1) t) : InTime grain now' late P n t := by
  rw [InTime, Nat.succ_mul] at h
  rw [InTime]
  omega

theorem OnTime.waits (h : Settled levels) (hontime : OnTime grain now late levels) :
    Waits (InTime grain now late) levels := by
  induction levels with
  | nil => trivial
  | cons l finer ih =>
    obtain ⟨hl, hfiner⟩ := List.forall_mem_cons.1 h
    refine ⟨?_, ih hfiner hontime.2⟩
    intro i t ht
    obtain ⟨n, hn, hdue⟩ := hontime.1 i t ht
    obtain ⟨m, hmn, hm⟩ := Level.reachedIn_of_emptiesIn hl.toWellFormed (Settled.wellFormed hfiner)
      (Or.inl hl.drained) hn
    refine ⟨m, hm, hdue.imp (Nat.le_trans hmn) fun hbefore => ?_⟩
    have hgrain : m * grain ≤ n * grain := Nat.mul_le_mul_right _ hmn
    omega

theorem onTime_of_waits (hwaits : Waits (InTime grain now late) levels) :
    OnTime grain now late levels := by
  induction levels with
  | nil => trivial
  | cons l finer ih =>
    refine ⟨?_, ih hwaits.2⟩
    intro i t ht
    obtain ⟨n, hn, hdue⟩ := hwaits.1 i t ht
    exact ⟨n, Level.emptiesIn_of_reachedIn hn, hdue⟩

/-- Where all slots under the cursors have been emptied, or all cursors are on their first slots,
a timer that falls into the levels finds a wait that is over in time. -/
theorem lands_inTime (h : LevelsWellFormed levels)
    (hgeared : LevelSpec.Geared grain (specsOf levels)) (hnow : Time.least ≤ now)
    (hready : (∀ l ∈ levels, l.drained = true) ∨ odometer levels = 0)
    (hlate : ∀ l ∈ levels, l.drained = true → 1 ≤ late) (t : Timer τ) :
    Lands (InTime grain now late) t now levels := by
  refine lands_intro h hready ?_ ?_
  · intro l finer hsuffix hreaches
    obtain ⟨n, hn, hdue⟩ := slotAt_onTime (fun m hm => h m (hsuffix.subset hm))
      (hgeared.suffix (hsuffix.map _)) hnow hreaches
    refine ⟨n, hn, fun m hmn => Or.inr ?_⟩
    have hgrain : m * grain ≤ n * grain := Nat.mul_le_mul_right _ hmn
    omega
  · intro l hl m hm
    refine Or.inl (Nat.le_trans hm ?_)
    split
    next hdrained => exact hlate l hl hdrained
    next => exact Nat.zero_le late

/-- Between two ticks a timer finds a wait that is over in time, with one tick to come. -/
theorem lands_inTime_of_settled (h : Settled levels)
    (hgeared : LevelSpec.Geared grain (specsOf levels)) (hnow : Time.least ≤ now) (t : Timer τ) :
    Lands (InTime grain now 1) t now levels :=
  lands_inTime h.wellFormed hgeared hnow (Or.inl h.drained) (fun _ _ _ => Nat.le_refl 1) t

/-- What a level hands down in a tick finds a wait that is over in time. -/
theorem lands_inTime_map_step {l : Level τ} {finer : List (Level τ)} (h : Settled levels)
    (hgeared : LevelSpec.Geared grain (specsOf levels)) (hnow : Time.least ≤ now)
    (hsuffix : l :: finer <:+ levels) (hlast : finer.all Level.atLast = true) (t : Timer τ) :
    Lands (InTime grain now 0) t now (finer.map Level.step) := by
  have hfiner := (h.below hsuffix).wellFormed
  refine lands_inTime (wellFormed_map_step hfiner) ?_ hnow
    (Or.inr (odometer_map_step hfiner hlast)) ?_ t
  · rw [specsOf_map_step]
    exact hgeared.suffix (((List.suffix_cons l finer).trans hsuffix).map _)
  · intro m hm hdrained
    rw [drained_map_step m hm] at hdrained
    cases hdrained

/-- A tick leaves the timers on time, if the clock has moved on by no more than `grain`. -/
theorem onTime_turn (h : Settled levels) (hgeared : LevelSpec.Geared grain (specsOf levels))
    (hleast : Time.least ≤ now') (hnow : now' ≤ now + grain) (hontime : OnTime grain now 1 levels) :
    OnTime grain now' 0 (turn now' levels).2 := by
  refine onTime_of_waits (waits_turn (fun P n t => inTime_of_succ hnow) h ?_ (hontime.waits h)).1
  exact fun _ _ hsuffix hlast t _ => lands_inTime_map_step h hgeared hleast hsuffix hlast t

/-- Between two ticks no slot is about to be emptied, so that a timer with no delay left to it
would have come out. -/
theorem due_gt_of_onTime (h : Settled levels) (hgrain : 1 ≤ grain)
    (hontime : OnTime grain now 0 levels) : ∀ t ∈ timersIn levels, now < t.due := by
  induction levels with
  | nil => exact fun t ht => absurd ht List.not_mem_nil
  | cons l finer ih =>
    obtain ⟨hl, hfiner⟩ := List.forall_mem_cons.1 h
    rw [timersIn_cons]
    refine List.forall_mem_append.2 ⟨?_, ih hfiner hontime.2⟩
    intro t ht
    obtain ⟨i, hi⟩ := Level.mem_timers.1 ht
    obtain ⟨n, ⟨k, hk, -, hn⟩, hdue⟩ := hontime.1 i t hi
    have hbefore := odometer_lt_turnOf (Settled.wellFormed hfiner)
    have hturn : turnOf finer ≤ k * turnOf finer := Nat.le_mul_of_pos_left _ (hk hl.drained)
    have hpos : 0 < n * grain := Nat.mul_pos (by omega) hgrain
    omega

end Wheel

end TimingWheel
