import TimingWheel.Proofs.Wheel.Waiting

/-!
# Slots are emptied in step with the clock

In a matched wheel the cursors show the time without a gap, if ticks are as far apart as the slots
of the finest level are wide. Then the wait of a timer follows from its due time alone, whichever
level it is in and wherever the cursors stand: it ends on the tick in whose slot the due time
falls, or on the next tick if that slot is over. The only condition is that the due time was not
too far ahead when the timer fell in.

## Main definitions

- `LevelSpec.Meshed` — the levels are made for ticks of exactly a given length
- `Wheel.InStep` — a wait that ends on the tick in whose slot the due time falls

## Main statements

- `Wheel.lands_inStep` — a timer that falls in finds such a wait
- `Wheel.inStep_turn` — a tick leaves the waits in step, and so are the timers that it yields
-/

namespace TimingWheel

variable {τ : Type}

/-! ### Levels without play -/

namespace LevelSpec

/-- Each slot is exactly as wide as a whole turn of the next finer level, the slots of the finest
level are `grain` wide, and no slot is wider than `wide`. -/
structure Meshed (grain wide : Nat) (specs : List LevelSpec) : Prop where
  matched : Matched specs
  finest : ∀ spec ∈ specs.getLast?, spec.width = grain
  width_le : ∀ spec ∈ specs, spec.width ≤ wide

variable {grain wide : Nat} {spec : LevelSpec} {specs finer : List LevelSpec}

theorem Meshed.tail (h : Meshed grain wide (spec :: finer)) : Meshed grain wide finer where
  matched := by
    cases finer with
    | nil => trivial
    | cons fine rest => exact h.matched.2
  finest := by
    cases finer with
    | nil => exact fun fine hfine => by cases hfine
    | cons fine rest => exact h.finest
  width_le := fun s hs => h.width_le s (List.mem_cons_of_mem _ hs)

theorem Meshed.suffix (h : Meshed grain wide specs) (hsuffix : finer <:+ specs) :
    Meshed grain wide finer := by
  obtain ⟨coarse, rfl⟩ := hsuffix
  induction coarse with
  | nil => exact h
  | cons spec coarse ih => exact ih h.tail

/-- The ticks of a whole turn take exactly as long as a slot of the next coarser level is wide. -/
theorem Meshed.width_eq (h : Meshed grain wide (spec :: finer)) :
    spec.width = turnTicks finer * grain := by
  induction finer generalizing spec with
  | nil => exact (h.finest spec rfl).trans (Nat.one_mul grain).symm
  | cons fine rest ih =>
    calc spec.width = fine.slotCount * fine.width := h.matched.1
      _ = fine.slotCount * (turnTicks rest * grain) := by rw [ih h.tail]
      _ = turnTicks (fine :: rest) * grain := (Nat.mul_assoc _ _ _).symm

/-- In a matched wheel no slot is wider than those of the coarsest level. -/
theorem meshed_of_matched (hvalid : ∀ spec ∈ specs, spec.Valid) (hmatched : Matched specs)
    {coarse fine : LevelSpec} (hcoarse : specs.head? = some coarse)
    (hfine : specs.getLast? = some fine) : Meshed fine.width coarse.width specs where
  matched := hmatched
  finest := fun spec hspec => by rw [Option.some.inj (hspec.symm.trans hfine)]
  width_le := by
    clear hfine
    induction specs generalizing coarse with
    | nil => exact fun spec hspec => absurd hspec List.not_mem_nil
    | cons first rest ih =>
      obtain rfl := Option.some.inj hcoarse
      refine List.forall_mem_cons.2 ⟨Nat.le_refl _, ?_⟩
      cases rest with
      | nil => exact fun spec hspec => absurd hspec List.not_mem_nil
      | cons next rest =>
        have hrest := (List.forall_mem_cons.1 hvalid).2
        have hspan : next.width ≤ first.width := by
          rw [hmatched.1]
          exact Nat.le_mul_of_pos_left _ (hrest next List.mem_cons_self).1
        exact fun spec hspec => (ih hrest hmatched.2 rfl spec hspec).trans hspan

/-- The levels mesh, a whole turn of the coarsest level takes `ahead` or more, and there is room in
the range of times for that and one slot more. -/
structure Covers (grain wide ahead : Nat) (specs : List LevelSpec) : Prop
    extends Meshed grain wide specs where
  ahead_le : ∀ spec ∈ specs.head?, ahead ≤ spec.span
  wide_le : wide ≤ ahead
  fits : (ahead : Int) + wide ≤ Time.greatest

/-- Matched levels cover a whole turn of the coarsest one. -/
theorem covers_of_matched (hvalid : ∀ spec ∈ specs, spec.Valid) (hmatched : Matched specs)
    {coarse fine : LevelSpec} (hcoarse : specs.head? = some coarse)
    (hfine : specs.getLast? = some fine)
    (hrange : (((coarse.slotCount + 1) * coarse.width : Nat) : Int) ≤ Time.greatest) :
    Covers fine.width coarse.width coarse.span specs := by
  refine { meshed_of_matched hvalid hmatched hcoarse hfine with
    ahead_le := ?_, wide_le := ?_, fits := ?_ }
  · intro spec hspec
    obtain rfl := Option.some.inj (hcoarse.symm.trans hspec)
    exact Nat.le_refl _
  · exact Nat.le_mul_of_pos_left _ (hvalid _ (List.mem_of_head? hcoarse)).1
  · rw [Nat.succ_mul] at hrange
    exact_mod_cast hrange

end LevelSpec

namespace Wheel

section

variable {grain wide : Nat} {l : Level τ} {finer levels : List (Level τ)}

theorem width_eq_of_meshed (h : LevelSpec.Meshed grain wide (specsOf (l :: finer))) :
    l.width = turnOf finer * grain := h.width_eq

/-- The time that the cursors stand for is that of the ticks which they show. -/
theorem elapsedSum_of_meshed (h : LevelSpec.Meshed grain wide (specsOf levels)) :
    elapsedSum levels = odometer levels * grain := by
  induction levels with
  | nil => exact (Nat.zero_mul grain).symm
  | cons l finer ih =>
    rw [elapsedSum_cons, ih h.tail, width_eq_of_meshed h, odometer_cons]
    ring

/-- The finer cursors never show as many ticks as a slot of the next coarser level is wide. -/
theorem odometer_mul_lt_width (h : LevelsWellFormed (l :: finer))
    (hmeshed : LevelSpec.Meshed grain wide (specsOf (l :: finer))) :
    odometer finer * grain < l.width := by
  obtain ⟨hl, hfiner⟩ := List.forall_mem_cons.1 h
  have hpos : 0 < l.width := hl.valid.2
  rw [width_eq_of_meshed hmeshed] at hpos ⊢
  exact Nat.mul_lt_mul_of_pos_right (odometer_lt_turnOf hfiner) (Nat.pos_of_mul_pos_left hpos)

theorem elapsedIn_of_meshed (hfiner : LevelsWellFormed finer)
    (h : LevelSpec.Meshed grain wide (specsOf (l :: finer)))
    (hwide : (wide : Int) ≤ Time.greatest) :
    elapsedIn finer = (odometer finer * grain : Nat) := by
  have hsum := elapsedSum_of_meshed h.tail
  have hturn : odometer finer * grain ≤ turnOf finer * grain :=
    Nat.mul_le_mul_right _ (odometer_lt_turnOf hfiner).le
  rw [← width_eq_of_meshed h] at hturn
  have hwidth : l.width ≤ wide := h.width_le _ List.mem_cons_self
  rw [← hsum]
  refine Time.wrap_of_fits ⟨?_, ?_⟩
  · rw [Time.least]
    omega
  · show (elapsedSum finer : Int) ≤ Time.greatest
    omega

end

/-! ### Waits in step -/

/-- The wait ends on the tick in whose slot the due time falls, if ticks are `grain` apart and the
slot belongs to a level that moves every `P` ticks. If the due time is over in `late` ticks, the
wait takes no longer than that. -/
def InStep (grain : Nat) (now : Int) (late : Nat) : Nat → Nat → Timer τ → Prop := fun P n t =>
  now + (n * grain : Nat) ≤ t.due ∧ t.due < now + ((n + P) * grain : Nat) ∨
    t.due < now + (late * grain : Nat) ∧ n ≤ late

/-- A wait in step is allowed to be late by a tick. -/
theorem InStep.late {grain P n : Nat} {now : Int} {t : Timer τ} (h : InStep grain now 0 P n t) :
    InStep grain now 1 P n t := by
  rw [InStep] at h ⊢
  omega

section

variable {grain wide ahead late : Nat} {now : Int} {l : Level τ} {finer levels : List (Level τ)}
  {t : Timer τ}

/-- Within the range nothing is rounded away from a distance, unless the due time is over. -/
theorem distance_of_meshed (hfiner : LevelsWellFormed finer)
    (hmeshed : LevelSpec.Meshed grain wide (specsOf (l :: finer))) (hleast : Time.least ≤ now)
    (hdue : t.due + wide ≤ Time.greatest) (hfar : t.due + wide ≤ now + Time.greatest)
    (hwide : (wide : Int) ≤ Time.greatest) :
    distance t now finer = t.due + (odometer finer * grain : Nat) - now ∨
      distance t now finer ≤ 0 ∧ t.due + (odometer finer * grain : Nat) - now ≤ 0 := by
  have helapsed := elapsedIn_of_meshed hfiner hmeshed hwide
  have hturn : odometer finer * grain ≤ turnOf finer * grain :=
    Nat.mul_le_mul_right _ (odometer_lt_turnOf hfiner).le
  rw [← width_eq_of_meshed hmeshed] at hturn
  have hwidth : l.width ≤ wide := hmeshed.width_le _ List.mem_cons_self
  rw [distance, helapsed]
  generalize odometer finer * grain = elapsed at hturn
  unfold Time.minus Time.plus Time.saturate Time.least Time.greatest at *
  omega

theorem slotAt_inStep (hl : l.WellFormed) (hfiner : LevelsWellFormed finer)
    (hwidth : l.width = turnOf finer * grain)
    (hready : l.drained = true ∧ late = 1 ∨ l.drained = false ∧ late = 0) {d : Int}
    (hd : d = t.due + (odometer finer * grain : Nat) - now) (hreaches : l.width ≤ d)
    (hturn : d < ((l.slotCount + late) * l.width : Nat)) :
    ∃ n, l.ReachedIn finer n (l.slotAt d) ∧ InStep grain now late (turnOf finer) n t := by
  have hpos : 0 < l.width := hl.valid.2
  rw [Level.slotAt]
  generalize hk : d.toNat / l.width = k
  have hfloor : k * l.width ≤ d.toNat := by
    rw [← hk]
    exact Nat.div_mul_le_self _ _
  have hceil : d.toNat < (k + 1) * l.width := by
    rw [← hk, Nat.mul_comm]
    exact Nat.lt_mul_div_succ _ hpos
  have hone : 1 ≤ k := by
    rw [← hk, Nat.le_div_iff_mul_le hpos]
    omega
  have hlt : k < l.slotCount + late := by
    rw [← hk, Nat.div_lt_iff_lt_mul hpos]
    omega
  have hbefore := odometer_lt_turnOf hfiner
  have hwhole : turnOf finer ≤ k * turnOf finer := Nat.le_mul_of_pos_left _ hone
  obtain ⟨n, hn⟩ : ∃ n, n + odometer finer = k * turnOf finer :=
    ⟨k * turnOf finer - odometer finer, Nat.sub_add_cancel (by omega)⟩
  refine ⟨n, ⟨k, ?_, rfl, hn⟩, Or.inl ?_⟩
  · rcases hready with ⟨hdrained, rfl⟩ | ⟨hundrained, rfl⟩
    · exact (Level.inTurn_of_drained hdrained).2 ⟨hone, Nat.lt_succ_iff.1 hlt⟩
    · exact (Level.inTurn_of_undrained hundrained).2 hlt
  · -- The time of `n` ticks and what the cursors show make up whole slots of the level.
    have hticks : n * grain + odometer finer * grain = k * l.width := by
      rw [← Nat.add_mul, hn, hwidth, Nat.mul_assoc]
    have hslot : (n + turnOf finer) * grain = n * grain + l.width := by
      rw [Nat.add_mul, hwidth]
    rw [hslot]
    rw [Nat.succ_mul] at hceil
    omega

theorem nextSlot_inStep (hl : l.WellFormed)
    (hready : l.drained = true ∧ late = 1 ∨ l.drained = false ∧ late = 0)
    (hnear : t.due < now + grain) :
    ∃ n, l.ReachedIn [] n l.nextSlot ∧ InStep grain now late 1 n t := by
  rcases hready with ⟨hdrained, rfl⟩ | ⟨hundrained, rfl⟩
  · have hone := (Level.inTurn_of_drained hdrained).2 ⟨Nat.le_refl 1, hl.valid.1⟩
    refine ⟨1, ⟨1, hone, (if_pos hdrained).symm, rfl⟩, Or.inr ⟨?_, Nat.le_refl 1⟩⟩
    omega
  · have hzero := (Level.inTurn_of_undrained hundrained).2 hl.valid.1
    have hnext : l.nextSlot = l.cursor := if_neg (by rw [hundrained]; exact Bool.false_ne_true)
    refine ⟨0, ⟨0, hzero, (Level.slotAhead_zero hl).trans hnext.symm, rfl⟩, ?_⟩
    rw [InStep]
    omega

/-- A timer that falls into the levels finds a wait that is in step, if its due time is not too
far ahead for the first of them. Either all slots under the cursors have been emptied, and then
one that is due within a tick comes out at the next one, or none has been, and it comes out at
once. -/
theorem lands_inStep (h : LevelsWellFormed levels)
    (hmeshed : LevelSpec.Meshed grain wide (specsOf levels))
    (hready : ∀ l ∈ levels, l.drained = true ∧ late = 1 ∨ l.drained = false ∧ late = 0)
    (hleast : Time.least ≤ now) (hdue : t.due + wide ≤ Time.greatest)
    (hfar : t.due + wide ≤ now + Time.greatest) (hwide : (wide : Int) ≤ Time.greatest)
    (hhead : ∀ l ∈ levels.head?,
      t.due + (odometer levels.tail * grain : Nat) < now + ((l.slotCount + late) * l.width : Nat)) :
    Lands (InStep grain now late) t now levels := by
  induction levels with
  | nil => trivial
  | cons l finer ih =>
    obtain ⟨hl, hfiner⟩ := List.forall_mem_cons.1 h
    obtain ⟨hreadyHead, hreadyFiner⟩ := List.forall_mem_cons.1 hready
    have hpos : 0 < l.width := hl.valid.2
    have hbound := hhead l rfl
    have hdistance := distance_of_meshed hfiner hmeshed hleast hdue hfar hwide
    rw [List.tail_cons] at hbound
    rw [Lands]
    split
    next hreaches =>
      have hd : (l.width : Int) ≤ distance t now finer := of_decide_eq_true hreaches
      replace hdistance := hdistance.resolve_right fun hover => by omega
      exact slotAt_inStep hl hfiner (width_eq_of_meshed hmeshed) hreadyHead hdistance hd (by omega)
    next hreaches =>
      have hd : distance t now finer < l.width :=
        Int.not_le.1 fun hle => hreaches (decide_eq_true hle)
      have hnear : t.due + (odometer finer * grain : Nat) < now + l.width := by omega
      split
      next hempty =>
        obtain rfl := List.isEmpty_iff.1 hempty
        refine nextSlot_inStep hl hreadyHead ?_
        rw [odometer_nil, Nat.zero_mul, width_eq_of_meshed hmeshed, turnOf_nil,
          Nat.one_mul] at hnear
        omega
      next =>
        refine ih hfiner hmeshed.tail hreadyFiner ?_
        intro f hf
        -- What does not reach a slot of this level is within a turn of the next finer one.
        obtain ⟨rest, rfl⟩ := List.head?_eq_some_iff.1 hf
        have hspan : l.width = f.slotCount * f.width := hmeshed.matched.1
        have hcursors := Nat.mul_le_mul_right grain (odometer_le_cons f rest)
        rw [List.tail_cons, Nat.add_mul, ← hspan]
        omega

/-- Between two ticks, a timer that is due no further ahead than the levels cover finds a wait that
is in step. This is asked for only if the timer is `near`. -/
theorem lands_of_covers {near : Timer τ → Prop} (h : Settled levels)
    (hcovers : LevelSpec.Covers grain wide ahead (specsOf levels)) (hleast : Time.least ≤ now)
    (hnear : near t → t.due + wide ≤ Time.greatest) (hahead : near t → t.due ≤ now + ahead) :
    Lands (fun P n t => near t → InStep grain now 1 P n t) t now levels := by
  by_cases hyes : near t
  case neg =>
    exact lands_of_forall h.wellFormed (Or.inl h.drained)
      fun _ _ hyes' => absurd hyes' hyes
  have hfits := hcovers.fits
  have hwide := hcovers.wide_le
  have hdue := hnear hyes
  have hbound := hahead hyes
  refine (lands_inStep h.wellFormed hcovers.toMeshed
    (fun l hl => Or.inl ⟨h.drained l hl, rfl⟩) hleast hdue (by omega) (by omega) ?_).mono
    fun _ _ hlanded _ => hlanded
  intro l hl
  obtain ⟨finer, rfl⟩ := List.head?_eq_some_iff.1 hl
  have hspan : ahead ≤ l.slotCount * l.width := hcovers.ahead_le _ rfl
  have hcursors := odometer_mul_lt_width h.wellFormed hcovers.toMeshed
  rw [List.tail_cons, Nat.succ_mul]
  omega

/-- What is handed down in a tick finds a wait that is in step, if it has waited long enough. -/
theorem lands_inStep_map_step (h : Settled finer)
    (hmeshed : LevelSpec.Meshed grain wide (specsOf (l :: finer))) (hleast : Time.least ≤ now)
    (hdue : t.due + wide ≤ Time.greatest) (hwide : (wide : Int) + wide ≤ Time.greatest)
    (hlast : finer.all Level.atLast = true) (hstep : InStep grain now 0 (turnOf finer) 0 t) :
    Lands (InStep grain now 0) t now (finer.map Level.step) := by
  have hle : l.width ≤ wide := hmeshed.width_le _ List.mem_cons_self
  have hnear : t.due < now + l.width := by
    rw [InStep, Nat.zero_add, ← width_eq_of_meshed hmeshed] at hstep
    omega
  refine lands_inStep (wellFormed_map_step h.wellFormed) ?_ ?_ hleast hdue (by omega) (by omega) ?_
  · rw [specsOf_map_step]
    exact hmeshed.tail
  · exact fun m hm => Or.inr ⟨drained_map_step m hm, rfl⟩
  · cases finer with
    | nil => exact fun f hf => by cases hf
    | cons f rest =>
      intro f' hf'
      obtain rfl := Option.some.inj hf'
      have hzero := odometer_map_step h.wellFormed hlast
      rw [List.map_cons, odometer_cons] at hzero
      have hspan : l.width = f.slotCount * f.width := hmeshed.matched.1
      rw [List.map_cons, List.tail_cons, Nat.eq_zero_of_add_eq_zero_left hzero, Nat.zero_mul]
      show t.due + (0 : Nat) < now + ((f.slotCount + 0) * f.width : Nat)
      rw [Nat.add_zero, ← hspan]
      omega

/-- A tick leaves the waits in step, and what it yields is due before the next tick. Only the
timers that are `near` count, which are due well within the range. -/
theorem inStep_turn {near : Timer τ → Prop} (h : Settled levels)
    (hmeshed : LevelSpec.Meshed grain wide (specsOf levels)) (hleast : Time.least ≤ now + grain)
    (hwide : (wide : Int) + wide ≤ Time.greatest)
    (hnear : ∀ t, near t → t.due + wide ≤ Time.greatest)
    (hwaits : Waits (fun P n t => near t → InStep grain now 1 P n t) levels) :
    Waits (fun P n t => near t → InStep grain (now + grain) 0 P n t)
        (turn (now + grain) levels).2 ∧
      ∀ t ∈ (turn (now + grain) levels).1, near t → InStep grain (now + grain) 0 1 0 t := by
  refine waits_turn ?_ h ?_ hwaits
  · intro P n t hstep ht
    have hold := hstep ht
    have hshift : (n + 1 + P) * grain = (n + P) * grain + grain := by ring
    rw [InStep, hshift, Nat.succ_mul] at hold
    rw [InStep]
    omega
  · intro l finer hsuffix hlast t ht
    have hfiner := h.below hsuffix
    by_cases hyes : near t
    · exact (lands_inStep_map_step hfiner (hmeshed.suffix (hsuffix.map _)) hleast (hnear t hyes)
        hwide hlast (ht hyes)).mono fun _ _ hlanded _ => hlanded
    · exact lands_of_forall (wellFormed_map_step hfiner.wellFormed)
        (Or.inr (odometer_map_step hfiner.wellFormed hlast)) fun _ _ hyes' => absurd hyes' hyes

/-- A timer that a tick yields is due before the next tick, and what stays is not. -/
theorem due_lt_of_inStep (h : InStep grain now 0 1 0 t) : t.due < now + grain := by
  rw [InStep] at h
  omega

theorem le_due_of_inStep {P n : Nat} (hn : 1 ≤ n) (h : InStep grain now 0 P n t) :
    now + grain ≤ t.due := by
  have hgrain : grain ≤ n * grain := Nat.le_mul_of_pos_left _ hn
  rw [InStep] at h
  omega

end

end Wheel

end TimingWheel
