import Mathlib.Data.List.Infix
import TimingWheel.Proofs.Wheel.Punctuality

/-!
# Levels that are appended below others

A level is appended as the new finest one, with empty slots and its cursor on the first of them.
What was the finest level before now steps once in every turn of the new one. So every wait in
the levels above becomes as many times longer as the new level has slots, and the timers that
wait there know nothing about it: they stay in the slots that they were given.

How long a wait can be at all follows from the number of the slots: no timer waits for more ticks
than a turn of the coarsest level takes.

## Main statements

- `LevelSpec.turnTicks_append` — a turn of levels above others
- `Wheel.waits_concat` — what an appended level makes of the waits
- `Wheel.waits_le_turnOf` — no wait is longer than a whole turn
-/

namespace TimingWheel

namespace LevelSpec

theorem turnTicks_append (coarse finer : List LevelSpec) :
    turnTicks (coarse ++ finer) = turnTicks coarse * turnTicks finer := by
  induction coarse with
  | nil => exact (Nat.one_mul _).symm
  | cons spec coarse ih =>
    show spec.slotCount * turnTicks (coarse ++ finer) =
      spec.slotCount * turnTicks coarse * turnTicks finer
    rw [ih, Nat.mul_assoc]

theorem turnTicks_singleton (spec : LevelSpec) : turnTicks [spec] = spec.slotCount :=
  Nat.mul_one _

/-- More levels do not make a turn shorter. -/
theorem turnTicks_le_of_prefix {specs specs' : List LevelSpec}
    (hvalid : ∀ spec ∈ specs', spec.Valid) (h : specs <+: specs') :
    turnTicks specs ≤ turnTicks specs' := by
  obtain ⟨rest, rfl⟩ := h
  rw [turnTicks_append]
  refine Nat.le_mul_of_pos_right _ (turnTicks_pos ?_)
  exact fun spec hspec => hvalid spec (List.mem_append_right _ hspec)

end LevelSpec

namespace Wheel

variable {τ : Type} {Q Q' : Nat → Nat → Timer τ → Prop} {levels : List (Level τ)}

theorem turnOf_append (coarse fine : List (Level τ)) :
    turnOf (coarse ++ fine) = turnOf coarse * turnOf fine := by
  rw [turnOf, specsOf_append, LevelSpec.turnTicks_append]
  rfl

/-- Below coarse levels, fine ones are the last digits of the counter. -/
theorem odometer_append (coarse fine : List (Level τ)) :
    odometer (coarse ++ fine) = odometer coarse * turnOf fine + odometer fine := by
  induction coarse with
  | nil => rw [List.nil_append, odometer_nil, Nat.zero_mul, Nat.zero_add]
  | cons l coarse ih =>
    rw [List.cons_append, odometer_cons, odometer_cons, turnOf_append, ih, Nat.add_mul,
      Nat.mul_assoc, Nat.add_assoc]

theorem turnOf_concat (levels : List (Level τ)) (spec : LevelSpec) :
    turnOf (levels ++ [Level.ofSpec spec]) = turnOf levels * spec.slotCount := by
  rw [turnOf_append]
  exact congrArg _ (LevelSpec.turnTicks_singleton spec)

theorem odometer_concat (levels : List (Level τ)) (spec : LevelSpec) :
    odometer (levels ++ [Level.ofSpec spec]) = odometer levels * spec.slotCount := by
  have hfirst : odometer [(Level.ofSpec spec : Level τ)] = 0 := Nat.zero_mul _
  rw [odometer_append, hfirst, Nat.add_zero]
  exact congrArg _ (LevelSpec.turnTicks_singleton spec)

/-- An appended level makes every wait as many times longer as it has slots. -/
theorem waits_concat (hwaits : Waits Q levels) {spec : LevelSpec}
    (hQ : ∀ P n t, Q P n t → Q' (P * spec.slotCount) (n * spec.slotCount) t) :
    Waits Q' (levels ++ [Level.ofSpec spec]) := by
  induction levels with
  | nil =>
    refine ⟨?_, trivial⟩
    intro i t ht
    rw [Level.slot_ofSpec] at ht
    exact absurd ht List.not_mem_nil
  | cons l finer ih =>
    rw [List.cons_append]
    refine ⟨?_, ih hwaits.2⟩
    intro i t ht
    obtain ⟨n, ⟨k, hk, hslot, hn⟩, hQt⟩ := hwaits.1 i t ht
    refine ⟨n * spec.slotCount, ⟨k, hk, hslot, ?_⟩, ?_⟩
    · rw [odometer_concat, turnOf_concat, ← Nat.add_mul, hn, Nat.mul_assoc]
    · rw [turnOf_concat]
      exact hQ _ n t hQt

/-- No timer waits for more ticks than a turn of the coarsest level takes. -/
theorem waits_le_turnOf (h : Settled levels) : Waits (fun _ n _ => n ≤ turnOf levels) levels := by
  -- Each slot is reached within a turn of its own level, which a coarser level only makes longer.
  have hbound : ∀ bound, turnOf levels ≤ bound → Waits (fun _ n _ => n ≤ bound) levels := by
    intro bound hle
    have hreached : Waits (fun _ _ _ => True) levels := waits_of_forall h fun _ _ _ _ => trivial
    induction levels with
    | nil => trivial
    | cons l finer ih =>
      obtain ⟨hl, hfiner⟩ := List.forall_mem_cons.1 h
      have hfinerLe : turnOf finer ≤ turnOf (l :: finer) :=
        Nat.le_mul_of_pos_left _ hl.valid.1
      refine ⟨?_, ih hfiner (Nat.le_trans hfinerLe hle) hreached.2⟩
      intro i t ht
      obtain ⟨n, ⟨k, hk, hslot, hn⟩, -⟩ := hreached.1 i t ht
      have hturn : k * turnOf finer ≤ turnOf (l :: finer) :=
        Nat.mul_le_mul_right _ ((Level.inTurn_of_drained hl.drained).1 hk).2
      exact ⟨n, ⟨k, hk, hslot, hn⟩, by omega⟩
  exact hbound _ (Nat.le_refl _)

end Wheel

end TimingWheel
