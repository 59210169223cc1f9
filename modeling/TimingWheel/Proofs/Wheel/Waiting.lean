import TimingWheel.Proofs.Wheel.Contents
import TimingWheel.Proofs.Wheel.Odometer

/-!
# How long a timer waits

From the cursors alone it follows in how many ticks a slot is emptied next. A timer waits for as
many ticks as its slot does, and each tick takes one off that number, whether its level moves or
not. Only where a level hands its slot down does a timer find a new slot, and then its wait begins
anew. So a property of waits is kept by all ticks, if it is kept when one tick is taken off the
wait, and if it is found again where timers are placed.

## Main definitions

- `Level.ReachedIn` — after how many ticks a slot is emptied next
- `Wheel.Waits` — every timer has a wait with a given property
- `Wheel.Lands` — a timer that falls into the levels finds a wait with that property

## Main statements

- `Wheel.waits_place` — a timer that lands well leaves all waits as they should be
- `Wheel.waits_turn` — what a tick makes of the waits, and what it yields
- `Wheel.Waits.pos` — between two ticks every wait has at least one tick to come
-/

namespace TimingWheel

variable {τ : Type}

/-! ### What shows of a level -/

/-- A level without what its slots hold. -/
def Level.face (l : Level τ) : LevelSpec × Nat × Bool := (l.toLevelSpec, l.cursor, l.drained)

namespace Wheel

def faces (levels : List (Level τ)) : List (LevelSpec × Nat × Bool) := levels.map Level.face

theorem faces_place (t : Timer τ) (now : Int) (levels : List (Level τ)) :
    faces (place t now levels) = faces levels := by
  induction levels with
  | nil => rfl
  | cons l finer ih =>
    rw [place]
    split
    · rfl
    · split
      next hempty => rw [List.isEmpty_iff.1 hempty]; rfl
      · exact congrArg (l.face :: ·) ih

theorem faces_placeAll (ts : List (Timer τ)) (now : Int) (levels : List (Level τ)) :
    faces (placeAll ts now levels) = faces levels := by
  induction ts generalizing levels with
  | nil => rfl
  | cons t ts ih => exact (ih (place t now levels)).trans (faces_place t now levels)

section

variable {σ : Type} {l : Level τ} {l' : Level σ} {finer levels : List (Level τ)}
  {finer' levels' : List (Level σ)}

theorem specsOf_of_faces (h : faces levels' = faces levels) : specsOf levels' = specsOf levels := by
  have hspecs := congrArg (List.map Prod.fst) h
  rwa [faces, faces, List.map_map, List.map_map] at hspecs

theorem turnOf_of_faces (h : faces levels' = faces levels) : turnOf levels' = turnOf levels :=
  congrArg LevelSpec.turnTicks (specsOf_of_faces h)

theorem face_cons (h : faces (l' :: finer') = faces (l :: finer)) :
    l'.toLevelSpec = l.toLevelSpec ∧ l'.cursor = l.cursor ∧ l'.drained = l.drained ∧
      faces finer' = faces finer := by
  simp only [faces, List.map_cons, Level.face, List.cons.injEq, Prod.mk.injEq] at h
  exact ⟨h.1.1, h.1.2.1, h.1.2.2, h.2⟩

theorem odometer_of_faces (h : faces levels' = faces levels) :
    odometer levels' = odometer levels := by
  induction levels generalizing levels' with
  | nil => rw [List.map_eq_nil_iff.1 h]; rfl
  | cons l finer ih =>
    cases levels' with
    | nil => cases h
    | cons l' finer' =>
      obtain ⟨-, hcursor, -, hfiner⟩ := face_cons h
      rw [odometer_cons, odometer_cons, hcursor, turnOf_of_faces hfiner, ih hfiner]

theorem elapsedIn_of_faces (h : faces levels' = faces levels) :
    elapsedIn levels' = elapsedIn levels := by
  have hsum : elapsedSum levels' = elapsedSum levels := by
    induction levels generalizing levels' with
    | nil => rw [List.map_eq_nil_iff.1 h]; rfl
    | cons l finer ih =>
      cases levels' with
      | nil => cases h
      | cons l' finer' =>
        obtain ⟨hspec, hcursor, -, hfiner⟩ := face_cons h
        rw [elapsedSum_cons, elapsedSum_cons, hcursor, hspec, ih hfiner]
  exact congrArg (fun n : Nat => Time.wrap n) hsum

end

end Wheel

/-! ### Waits -/

namespace Level

open Wheel (odometer turnOf specsOf)

/-- The cursor comes to a slot after `k` steps, and it was not there before. If the present slot
has been emptied, it takes a whole turn until it is reached again. -/
def InTurn (l : Level τ) (k : Nat) : Prop :=
  if l.drained then 1 ≤ k ∧ k ≤ l.slotCount else k < l.slotCount

/-- Slot `i` of `l` is emptied next in `n` ticks. -/
def ReachedIn (l : Level τ) (finer : List (Level τ)) (n i : Nat) : Prop :=
  ∃ k, l.InTurn k ∧ l.slotAhead k = i ∧ n + odometer finer = k * turnOf finer

/-- After `n` ticks the cursor of `l` stands on slot `i`, be it for the first time or not. If its
present slot has been emptied, it has moved at least once by then. -/
def EmptiesIn (l : Level τ) (finer : List (Level τ)) (n i : Nat) : Prop :=
  ∃ k, (l.drained = true → 1 ≤ k) ∧ l.slotAhead k = i ∧
    n + odometer finer = k * turnOf finer

/-- Each timer of `l` has a wait with the property `Q`, which also depends on how many ticks a step
of the level takes. -/
def Waits (Q : Nat → Nat → Timer τ → Prop) (l : Level τ) (finer : List (Level τ)) : Prop :=
  ∀ i, ∀ t ∈ l.slot i, ∃ n, l.ReachedIn finer n i ∧ Q (turnOf finer) n t

variable {Q Q' : Nat → Nat → Timer τ → Prop} {l : Level τ} {finer finer' : List (Level τ)}

theorem inTurn_of_drained (hdrained : l.drained = true) {k : Nat} :
    l.InTurn k ↔ 1 ≤ k ∧ k ≤ l.slotCount := by
  rw [InTurn, if_pos hdrained]

theorem inTurn_of_undrained (hdrained : l.drained = false) {k : Nat} :
    l.InTurn k ↔ k < l.slotCount := by
  rw [InTurn, hdrained]
  exact Iff.rfl

/-- Steps beyond a whole turn come to a slot that was reached before. -/
theorem exists_inTurn (hcount : 0 < l.slotCount) {k : Nat} (hk : l.drained = true → 1 ≤ k) :
    ∃ k' ≤ k, l.InTurn k' ∧ l.slotAhead k' = l.slotAhead k := by
  cases hdrained : l.drained with
  | false =>
    refine ⟨k % l.slotCount, Nat.mod_le _ _, (inTurn_of_undrained hdrained).2 ?_, ?_⟩
    · exact Nat.mod_lt _ hcount
    · rw [slotAhead, slotAhead, Nat.add_mod_mod]
  | true =>
    obtain ⟨j, rfl⟩ := Nat.exists_eq_add_of_le' (hk hdrained)
    refine ⟨j % l.slotCount + 1, Nat.succ_le_succ (Nat.mod_le _ _),
      (inTurn_of_drained hdrained).2 ⟨Nat.le_add_left 1 _, Nat.mod_lt _ hcount⟩, ?_⟩
    have hswap : ∀ m, l.slotAhead (m + 1) = (l.cursor + 1 + m) % l.slotCount := by
      intro m
      rw [slotAhead, Nat.add_assoc, Nat.add_comm 1 m]
    rw [hswap, hswap, Nat.add_mod_mod]

@[simp] theorem slotAhead_zero (h : l.WellFormed) : l.slotAhead 0 = l.cursor :=
  Nat.mod_eq_of_lt h.cursor_lt

/-- Within a turn, only no step at all leads to the present slot if that has not been emptied. -/
theorem eq_zero_of_slotAhead (hl : l.WellFormed) {k : Nat} (hk : k < l.slotCount)
    (hslot : l.slotAhead k = l.cursor) : k = 0 := by
  have hcursor := hl.cursor_lt
  rw [slotAhead] at hslot
  by_cases hlt : l.cursor + k < l.slotCount
  · rw [Nat.mod_eq_of_lt hlt] at hslot
    omega
  · rw [Nat.mod_eq_sub_mod (Nat.le_of_not_lt hlt), Nat.mod_eq_of_lt (by omega)] at hslot
    omega

/-- The cursor may come to a slot more than once, and the first time is soon enough. -/
theorem reachedIn_of_emptiesIn (hl : l.WellFormed) (hfiner : Wheel.LevelsWellFormed finer)
    (hready : l.drained = true ∨ odometer finer = 0) {n i : Nat} (h : l.EmptiesIn finer n i) :
    ∃ m ≤ n, l.ReachedIn finer m i := by
  obtain ⟨k, hk, hslot, hn⟩ := h
  obtain ⟨j, hjk, hj, hsame⟩ := exists_inTurn hl.valid.1 hk
  have hle : j * turnOf finer ≤ k * turnOf finer := Nat.mul_le_mul_right _ hjk
  have hodometer : odometer finer ≤ j * turnOf finer := by
    rcases hready with hdrained | hzero
    · have hbefore := Wheel.odometer_lt_turnOf hfiner
      have hwhole : turnOf finer ≤ j * turnOf finer :=
        Nat.le_mul_of_pos_left _ ((inTurn_of_drained hdrained).1 hj).1
      omega
    · rw [hzero]
      exact Nat.zero_le _
  exact ⟨j * turnOf finer - odometer finer, by omega, j, hj, hsame.trans hslot,
    Nat.sub_add_cancel hodometer⟩

theorem emptiesIn_of_reachedIn {n i : Nat} (h : l.ReachedIn finer n i) : l.EmptiesIn finer n i := by
  obtain ⟨k, hk, hslot, hn⟩ := h
  exact ⟨k, fun hdrained => ((inTurn_of_drained hdrained).1 hk).1, hslot, hn⟩

theorem Waits.congr (h : l.Waits Q finer) (hturn : turnOf finer' = turnOf finer)
    (hodometer : odometer finer' = odometer finer) : l.Waits Q finer' := by
  intro i t ht
  rw [hturn]
  obtain ⟨n, ⟨k, hk, hi, hn⟩, hQ⟩ := h i t ht
  exact ⟨n, ⟨k, hk, hi, by rw [hodometer, hturn, hn]⟩, hQ⟩

theorem waits_put (h : l.Waits Q finer) {i : Nat} (hi : i < l.slots.size) {t : Timer τ}
    (ht : ∃ n, l.ReachedIn finer n i ∧ Q (turnOf finer) n t) : (l.put i t).Waits Q finer := by
  intro j u hu
  rw [slot_put l i j t hi] at hu
  split at hu
  next hij =>
    subst hij
    rcases List.mem_append.1 hu with hold | hnew
    · exact h i u hold
    · rw [List.mem_singleton.1 hnew]
      exact ht
  next => exact h j u hu

/-- What is in the present slot, if that has not been emptied, waits no longer. -/
theorem waits_current (hl : l.WellFormed) (hundrained : l.drained = false)
    (hzero : odometer finer = 0) (h : l.Waits Q finer) : ∀ t ∈ l.current, Q (turnOf finer) 0 t := by
  intro t ht
  obtain ⟨n, ⟨k, hk, hslot, hn⟩, hQ⟩ := h l.cursor t ht
  obtain rfl := eq_zero_of_slotAhead hl ((inTurn_of_undrained hundrained).1 hk) hslot
  obtain rfl : n = 0 := by omega
  exact hQ

theorem waits_drain (hl : l.WellFormed) (hundrained : l.drained = false) (h : l.Waits Q finer) :
    l.drain.Waits Q finer := by
  intro i t ht
  rw [slot_drain] at ht
  split at ht
  next => exact absurd ht List.not_mem_nil
  next hother =>
    obtain ⟨n, ⟨k, hk, hslot, hn⟩, hQ⟩ := h i t ht
    have hlt := (inTurn_of_undrained hundrained).1 hk
    refine ⟨n, ⟨k, (inTurn_of_drained rfl).2 ⟨Nat.pos_of_ne_zero ?_, Nat.le_of_lt hlt⟩, hslot, hn⟩,
      hQ⟩
    rintro rfl
    exact hother ((slotAhead_zero hl).symm.trans hslot)

/-- The wait of a timer of a level that moves along with all finer ones. -/
theorem waits_step (hQ : ∀ P n t, Q P (n + 1) t → Q' P n t) (h : l.Waits Q finer)
    (hdrained : l.drained = true) (hlast : odometer finer + 1 = turnOf finer)
    (hturn : turnOf finer' = turnOf finer) (hzero : odometer finer' = 0) :
    l.step.Waits Q' finer' := by
  intro i t ht
  obtain ⟨n, ⟨k, hk, hslot, hn⟩, hQt⟩ := h i t ht
  obtain ⟨hone, hcount⟩ := (inTurn_of_drained hdrained).1 hk
  obtain ⟨k, rfl⟩ := Nat.exists_eq_add_of_le' hone
  rw [Nat.succ_mul] at hn
  obtain rfl : n = k * turnOf finer + 1 := by omega
  refine ⟨k * turnOf finer, ⟨k, (inTurn_of_undrained rfl).2 hcount, ?_, ?_⟩, ?_⟩
  · rw [← hslot]
    show ((l.cursor + 1) % l.slotCount + k) % l.slotCount = (l.cursor + (k + 1)) % l.slotCount
    rw [Nat.mod_add_mod]
    congr 1
    omega
  · rw [hzero, hturn, Nat.add_zero]
  · rw [hturn]
    exact hQ _ _ t hQt

/-- The wait of a timer of a level that stands still while the finer ones move. -/
theorem waits_wait (hQ : ∀ P n t, Q P (n + 1) t → Q' P n t) (h : l.Waits Q finer)
    (hdrained : l.drained = true) (hbefore : odometer finer < turnOf finer)
    (hturn : turnOf finer' = turnOf finer) (hmoved : odometer finer' = odometer finer + 1) :
    l.Waits Q' finer' := by
  intro i t ht
  obtain ⟨n, ⟨k, hk, hslot, hn⟩, hQt⟩ := h i t ht
  have hwhole : turnOf finer ≤ k * turnOf finer :=
    Nat.le_mul_of_pos_left _ ((inTurn_of_drained hdrained).1 hk).1
  obtain ⟨n, rfl⟩ : ∃ m, n = m + 1 := ⟨n - 1, by omega⟩
  refine ⟨n, ⟨k, hk, hslot, ?_⟩, ?_⟩
  · rw [hmoved, hturn]
    omega
  · rw [hturn]
    exact hQ _ _ t hQt

end Level

namespace Wheel

/-- Every timer of the levels has a wait with the property `Q`. -/
def Waits (Q : Nat → Nat → Timer τ → Prop) : List (Level τ) → Prop
  | [] => True
  | l :: finer => l.Waits Q finer ∧ Waits Q finer

/-- The slot that a timer falls into gives it a wait with the property `Q`. -/
def Lands (Q : Nat → Nat → Timer τ → Prop) (t : Timer τ) (now : Int) : List (Level τ) → Prop
  | [] => True
  | l :: finer =>
    if l.reaches (distance t now finer) then
      ∃ n, l.ReachedIn finer n (l.slotAt (distance t now finer)) ∧ Q (turnOf finer) n t
    else if finer.isEmpty then
      ∃ n, l.ReachedIn finer n l.nextSlot ∧ Q (turnOf finer) n t
    else Lands Q t now finer

/-- Whatever has waited long enough in one of the levels lands well in the finer ones. -/
def HandsDown (Q : Nat → Nat → Timer τ → Prop) (now : Int) : List (Level τ) → Prop
  | [] => True
  | _ :: finer => (∀ t, Q (turnOf finer) 0 t → Lands Q t now finer) ∧ HandsDown Q now finer

section

variable {Q Q' : Nat → Nat → Timer τ → Prop} {now : Int} {levels levels' : List (Level τ)}

/-- Where a timer lands does not depend on the other timers. -/
theorem Lands.of_faces {t : Timer τ} (h : Lands Q t now levels)
    (hfaces : faces levels' = faces levels) : Lands Q t now levels' := by
  induction levels generalizing levels' with
  | nil => rw [List.map_eq_nil_iff.1 hfaces]; trivial
  | cons l finer ih =>
    cases levels' with
    | nil => trivial
    | cons l' finer' =>
      obtain ⟨hspec, hcursor, hdrained, hfiner⟩ := face_cons hfaces
      have hdistance : distance t now finer' = distance t now finer := by
        rw [distance, distance, elapsedIn_of_faces hfiner]
      have hempty : finer'.isEmpty = finer.isEmpty := by
        rw [← List.isEmpty_map (f := Level.face), ← List.isEmpty_map (f := Level.face) (l := finer)]
        exact congrArg List.isEmpty hfiner
      have hreaches : ∀ d, l'.reaches d = l.reaches d := fun d => by
        rw [Level.reaches, Level.reaches, hspec]
      have hslot : ∀ d, l'.slotAt d = l.slotAt d := fun d => by
        rw [Level.slotAt, Level.slotAt, Level.slotAhead, Level.slotAhead, hspec, hcursor]
      have hnext : l'.nextSlot = l.nextSlot := by
        rw [Level.nextSlot, Level.nextSlot, Level.slotAhead, Level.slotAhead, hspec, hcursor,
          hdrained]
      have hreached : ∀ n i, l'.ReachedIn finer' n i ↔ l.ReachedIn finer n i := fun n i => by
        simp only [Level.ReachedIn, Level.InTurn, Level.slotAhead, hspec, hcursor, hdrained,
          turnOf_of_faces hfiner, odometer_of_faces hfiner]
      simp only [Lands, hdistance, hempty, hreaches, hslot, hnext, hreached,
        turnOf_of_faces hfiner] at h ⊢
      split
      next hahead => rwa [if_pos hahead] at h
      next hahead =>
        rw [if_neg hahead] at h
        split
        next hnil => rwa [if_pos hnil] at h
        next hnil =>
          rw [if_neg hnil] at h
          exact ih h hfiner

theorem waits_place (h : LevelsWellFormed levels) (hwaits : Waits Q levels) {t : Timer τ}
    (hlands : Lands Q t now levels) : Waits Q (place t now levels) := by
  induction levels with
  | nil => trivial
  | cons l finer ih =>
    obtain ⟨hl, hfiner⟩ := List.forall_mem_cons.1 h
    rw [Lands] at hlands
    rw [place]
    split
    next hreaches =>
      rw [if_pos hreaches] at hlands
      exact ⟨Level.waits_put hwaits.1 (Level.slotAt_lt hl _) hlands, hwaits.2⟩
    next hreaches =>
      rw [if_neg hreaches] at hlands
      split
      next hempty =>
        rw [if_pos hempty] at hlands
        obtain rfl := List.isEmpty_iff.1 hempty
        exact ⟨Level.waits_put hwaits.1 (Level.nextSlot_lt hl) hlands, trivial⟩
      next hempty =>
        rw [if_neg hempty] at hlands
        have hfaces := faces_place t now finer
        exact ⟨hwaits.1.congr (turnOf_of_faces hfaces) (odometer_of_faces hfaces),
          ih hfiner hwaits.2 hlands⟩

theorem waits_placeAll (h : LevelsWellFormed levels) (hwaits : Waits Q levels)
    {ts : List (Timer τ)} (hlands : ∀ t ∈ ts, Lands Q t now levels) :
    Waits Q (placeAll ts now levels) := by
  induction ts generalizing levels with
  | nil => exact hwaits
  | cons t ts ih =>
    obtain ⟨ht, hts⟩ := List.forall_mem_cons.1 hlands
    refine ih (wellFormed_place h t now) (waits_place h hwaits ht) ?_
    exact fun u hu => (hts u hu).of_faces (faces_place t now levels)

theorem HandsDown.of_faces (h : HandsDown Q now levels) (hfaces : faces levels' = faces levels) :
    HandsDown Q now levels' := by
  induction levels generalizing levels' with
  | nil => rw [List.map_eq_nil_iff.1 hfaces]; trivial
  | cons l finer ih =>
    cases levels' with
    | nil => trivial
    | cons l' finer' =>
      obtain ⟨-, -, -, hfiner⟩ := face_cons hfaces
      refine ⟨?_, ih h.2 hfiner⟩
      intro t ht
      rw [turnOf_of_faces hfiner] at ht
      exact (h.1 t ht).of_faces hfiner

/-- Levels that have just moved hand their slots down, and the last one gives its slot away. -/
theorem waits_yield_cascade (h : LevelsWellFormed levels)
    (hundrained : ∀ l ∈ levels, l.drained = false) (hzero : odometer levels.tail = 0)
    (hdown : HandsDown Q now levels) (hwaits : Waits Q levels) {n : Nat}
    (hn : levels.length = n + 1) :
    Waits Q (yield (cascade now n levels)).2 ∧ ∀ t ∈ (yield (cascade now n levels)).1, Q 1 0 t := by
  -- By induction on the levels that are still to hand their slots down.
  induction n generalizing levels with
  | zero =>
    obtain ⟨l, rfl⟩ := List.length_eq_one_iff.1 hn
    have hl := h l List.mem_cons_self
    have hfresh := hundrained l List.mem_cons_self
    exact ⟨⟨Level.waits_drain hl hfresh hwaits.1, trivial⟩,
      Level.waits_current hl hfresh rfl hwaits.1⟩
  | succ n ih =>
    cases levels with
    | nil => exact absurd hn (Nat.succ_ne_zero _).symm
    | cons l finer =>
      obtain ⟨hl, hfiner⟩ := List.forall_mem_cons.1 h
      obtain ⟨hfresh, hfreshFiner⟩ := List.forall_mem_cons.1 hundrained
      have hfaces := faces_placeAll l.current now finer
      have hlen : (placeAll l.current now finer).length = n + 1 := by
        rw [← length_specsOf, specsOf_placeAll, length_specsOf]
        exact Nat.succ.inj hn
      have hne := ne_nil_of_specsOf_eq (specsOf_cascade now n (placeAll l.current now finer))
        (List.ne_nil_of_length_eq_add_one hlen)
      have htail : odometer (placeAll l.current now finer).tail = 0 := by
        have hall : odometer (placeAll l.current now finer) = 0 :=
          (odometer_of_faces hfaces).trans hzero
        cases hplaced : placeAll l.current now finer with
        | nil => rfl
        | cons m rest =>
          rw [hplaced, odometer_cons] at hall
          exact Nat.eq_zero_of_add_eq_zero_left hall
      -- What was in the slot has waited long enough, so that it lands well below.
      have hlands : ∀ t ∈ l.current, Lands Q t now finer := fun t ht =>
        hdown.1 t (Level.waits_current hl hfresh hzero hwaits.1 t ht)
      obtain ⟨hrest, hyielded⟩ := ih (wellFormed_placeAll hfiner l.current now)
        (forall_placeAll (fun _ _ _ hm => hm) hfreshFiner l.current now) htail
        (hdown.2.of_faces hfaces) (waits_placeAll hfiner hwaits.2 hlands) hlen
      rw [cascade, yield_cons l.drain hne]
      refine ⟨⟨(Level.waits_drain hl hfresh hwaits.1).congr ?_ ?_, hrest⟩, hyielded⟩
      · exact turnOf_congr (by simp)
      · simp

/-- Where all levels below the first one complete a turn, all of them move. -/
theorem waits_map_step (hQ : ∀ P n t, Q P (n + 1) t → Q' P n t) {l : Level τ}
    {finer : List (Level τ)} (h : Settled (l :: finer)) (hlast : finer.all Level.atLast = true)
    (hwaits : Waits Q (l :: finer)) : Waits Q' ((l :: finer).map Level.step) := by
  induction finer generalizing l with
  | nil =>
    exact ⟨Level.waits_step hQ hwaits.1 (h l List.mem_cons_self).drained rfl rfl rfl, trivial⟩
  | cons f rest ih =>
    obtain ⟨hl, hfiner⟩ := List.forall_mem_cons.1 h
    have hwf := Settled.wellFormed hfiner
    refine ⟨Level.waits_step hQ hwaits.1 hl.drained ((odometer_succ_eq_turnOf_iff hwf).2 hlast)
      (turnOf_congr (specsOf_map_step (f :: rest))) (odometer_map_step hwf hlast), ?_⟩
    rw [List.all_cons, Bool.and_eq_true_iff] at hlast
    exact ih hfiner hlast.2 hwaits.2

theorem handsDown_map_step {levels : List (Level τ)} (hlast : levels.tail.all Level.atLast = true)
    (hdown : ∀ l finer, l :: finer <:+ levels → finer.all Level.atLast = true →
      ∀ t, Q (turnOf finer) 0 t → Lands Q t now (finer.map Level.step)) :
    HandsDown Q now (levels.map Level.step) := by
  induction levels with
  | nil => trivial
  | cons l finer ih =>
    refine ⟨?_, ih ?_ ?_⟩
    · rw [turnOf_congr (specsOf_map_step finer)]
      exact hdown l finer (List.suffix_refl _) hlast
    · cases finer with
      | nil => rfl
      | cons f rest =>
        rw [List.tail_cons, List.all_cons, Bool.and_eq_true_iff] at hlast
        exact hlast.2
    · exact fun l' finer' hsuffix => hdown l' finer' (hsuffix.trans (List.suffix_cons l finer))

/-- A tick takes one off every wait, and what it yields has waited long enough. It only remains to
see to it that what is handed down lands well. -/
theorem waits_turn (hQ : ∀ P n t, Q P (n + 1) t → Q' P n t) (h : Settled levels)
    (hdown : ∀ l finer, l :: finer <:+ levels → finer.all Level.atLast = true →
      ∀ t, Q' (turnOf finer) 0 t → Lands Q' t now (finer.map Level.step))
    (hwaits : Waits Q levels) :
    Waits Q' (turn now levels).2 ∧ ∀ t ∈ (turn now levels).1, Q' 1 0 t := by
  induction levels with
  | nil => exact ⟨trivial, fun t ht => absurd ht List.not_mem_nil⟩
  | cons l finer ih =>
    obtain ⟨hl, hfiner⟩ := List.forall_mem_cons.1 h
    have hwf := Settled.wellFormed hfiner
    rw [turn]
    split
    next hlast =>
      exact waits_yield_cascade (wellFormed_map_step h.wellFormed) drained_map_step
        (odometer_map_step hwf hlast) (handsDown_map_step hlast hdown)
        (waits_map_step hQ h hlast hwaits) (by simp)
    next hlast =>
      -- The first level stands still, and the counter of the finer ones goes up by one.
      obtain ⟨hrest, hyielded⟩ := ih hfiner
        (fun l' finer' hsuffix => hdown l' finer' (hsuffix.trans (List.suffix_cons l finer)))
        hwaits.2
      refine ⟨⟨?_, hrest⟩, hyielded⟩
      exact Level.waits_wait hQ hwaits.1 hl.drained (odometer_lt_turnOf hwf)
        (turnOf_congr (specsOf_turn now finer)) (odometer_turn hwf (Bool.eq_false_iff.2 hlast) now)

/-! ### Where a timer lands -/

/-- A timer that goes into a slot ahead is reached after as many steps as whole slots fit. -/
theorem slotAt_emptiesIn {l : Level τ} {finer : List (Level τ)} (hl : l.WellFormed)
    (hfiner : LevelsWellFormed finer) {d : Int} (hreaches : l.reaches d = true) :
    ∃ n, l.EmptiesIn finer n (l.slotAt d) ∧
      n + odometer finer = d.toNat / l.width * turnOf finer := by
  have hd : (l.width : Int) ≤ d := of_decide_eq_true hreaches
  have hone : 1 ≤ d.toNat / l.width := by
    rw [Nat.le_div_iff_mul_le hl.valid.2]
    omega
  have hbefore := odometer_lt_turnOf hfiner
  have hwhole : turnOf finer ≤ d.toNat / l.width * turnOf finer := Nat.le_mul_of_pos_left _ hone
  have hsub : d.toNat / l.width * turnOf finer - odometer finer + odometer finer =
      d.toNat / l.width * turnOf finer := Nat.sub_add_cancel (by omega)
  exact ⟨_, ⟨d.toNat / l.width, fun _ => hone, rfl, hsub⟩, hsub⟩

/-- A timer that is due at once comes out at the next tick, or at this one if the slot under the
cursor has not been emptied yet. -/
theorem nextSlot_emptiesIn {l : Level τ} (hl : l.WellFormed) :
    l.EmptiesIn [] (if l.drained then 1 else 0) l.nextSlot := by
  rw [Level.nextSlot]
  split
  next => exact ⟨1, fun _ => Nat.le_refl 1, rfl, rfl⟩
  next hundrained =>
    exact ⟨0, fun hdrained => absurd hdrained hundrained, Level.slotAhead_zero hl, rfl⟩

/-- Where all slots under the cursors have been emptied, or all cursors are on their first slots,
a timer finds a wait in whichever slot it falls into. -/
theorem lands_intro (h : LevelsWellFormed levels)
    (hready : (∀ l ∈ levels, l.drained = true) ∨ odometer levels = 0) {t : Timer τ}
    (hahead : ∀ l finer, l :: finer <:+ levels → l.reaches (distance t now finer) = true →
      ∃ n, l.EmptiesIn finer n (l.slotAt (distance t now finer)) ∧ ∀ m ≤ n, Q (turnOf finer) m t)
    (hnext : ∀ l ∈ levels, ∀ m ≤ (if l.drained then 1 else 0), Q 1 m t) :
    Lands Q t now levels := by
  induction levels with
  | nil => trivial
  | cons l finer ih =>
    obtain ⟨hl, hfiner⟩ := List.forall_mem_cons.1 h
    have hreadyHead : l.drained = true ∨ odometer finer = 0 :=
      hready.imp (fun hdrained => hdrained l List.mem_cons_self) fun hzero =>
        Nat.eq_zero_of_add_eq_zero_left hzero
    have hreadyFiner : (∀ m ∈ finer, m.drained = true) ∨ odometer finer = 0 :=
      hready.imp (fun hdrained m hm => hdrained m (List.mem_cons_of_mem l hm)) fun hzero =>
        Nat.eq_zero_of_add_eq_zero_left hzero
    rw [Lands]
    split
    next hreaches =>
      obtain ⟨n, hn, hQ⟩ := hahead l finer (List.suffix_refl _) hreaches
      obtain ⟨m, hmn, hm⟩ := Level.reachedIn_of_emptiesIn hl hfiner hreadyHead hn
      exact ⟨m, hm, hQ m hmn⟩
    next =>
      split
      next hempty =>
        obtain rfl := List.isEmpty_iff.1 hempty
        obtain ⟨m, hmn, hm⟩ := Level.reachedIn_of_emptiesIn hl hfiner hreadyHead
          (nextSlot_emptiesIn hl)
        exact ⟨m, hm, hnext l List.mem_cons_self m hmn⟩
      next =>
        exact ih hfiner hreadyFiner
          (fun l' finer' hsuffix => hahead l' finer' (hsuffix.trans (List.suffix_cons l finer)))
          (fun l' hl' => hnext l' (List.mem_cons_of_mem l hl'))

theorem lands_of_forall (h : LevelsWellFormed levels)
    (hready : (∀ l ∈ levels, l.drained = true) ∨ odometer levels = 0) {t : Timer τ}
    (hQ : ∀ P n, Q P n t) : Lands Q t now levels := by
  refine lands_intro h hready ?_ fun _ _ m _ => hQ 1 m
  intro l finer hsuffix hreaches
  obtain ⟨hl, hfiner⟩ := List.forall_mem_cons.1 fun m hm => h m (hsuffix.subset hm)
  obtain ⟨n, hn, -⟩ := slotAt_emptiesIn hl hfiner hreaches
  exact ⟨n, hn, fun m _ => hQ _ m⟩

/-! ### Reading waits off -/

theorem waits_of_no_timer (h : timersIn levels = []) : Waits Q levels := by
  induction levels with
  | nil => trivial
  | cons l finer ih =>
    rw [timersIn_cons, List.append_eq_nil_iff] at h
    refine ⟨?_, ih h.2⟩
    intro i t ht
    have hmem := Level.mem_timers.2 ⟨i, ht⟩
    rw [h.1] at hmem
    exact absurd hmem List.not_mem_nil

/-- Whichever slot a timer is in, its cursor comes there. -/
theorem waits_of_forall (h : Settled levels) (hQ : ∀ t ∈ timersIn levels, ∀ P n, Q P n t) :
    Waits Q levels := by
  induction levels with
  | nil => trivial
  | cons l finer ih =>
    obtain ⟨hl, hfiner⟩ := List.forall_mem_cons.1 h
    rw [timersIn_cons, List.forall_mem_append] at hQ
    refine ⟨?_, ih hfiner hQ.2⟩
    intro i t ht
    have hi : i < l.slotCount := hl.size_slots ▸ Level.lt_size_of_mem_slot ht
    have hcursor := hl.cursor_lt
    have hbefore := odometer_lt_turnOf (Settled.wellFormed hfiner)
    have hone : 1 ≤ i + l.slotCount - l.cursor := by omega
    have hwhole : turnOf finer ≤ (i + l.slotCount - l.cursor) * turnOf finer :=
      Nat.le_mul_of_pos_left _ hone
    have hslot : l.slotAhead (i + l.slotCount - l.cursor) = i := by
      rw [Level.slotAhead, Nat.add_sub_cancel' (by omega), Nat.add_mod_right, Nat.mod_eq_of_lt hi]
    have hempties : l.EmptiesIn finer
        ((i + l.slotCount - l.cursor) * turnOf finer - odometer finer) i :=
      ⟨_, fun _ => hone, hslot, Nat.sub_add_cancel (by omega)⟩
    obtain ⟨m, -, hm⟩ := Level.reachedIn_of_emptiesIn hl.toWellFormed (Settled.wellFormed hfiner)
      (Or.inl hl.drained) hempties
    exact ⟨m, hm, hQ.1 t (Level.mem_timers.2 ⟨i, ht⟩) _ _⟩

theorem Waits.mono (hwaits : Waits Q levels)
    (hQ : ∀ t ∈ timersIn levels, ∀ P n, Q P n t → Q' P n t) : Waits Q' levels := by
  induction levels with
  | nil => trivial
  | cons l finer ih =>
    rw [timersIn_cons, List.forall_mem_append] at hQ
    refine ⟨?_, ih hwaits.2 hQ.2⟩
    intro i t ht
    obtain ⟨n, hn, hQt⟩ := hwaits.1 i t ht
    exact ⟨n, hn, hQ.1 t (Level.mem_timers.2 ⟨i, ht⟩) _ _ hQt⟩

theorem Lands.mono {t : Timer τ} (hlands : Lands Q t now levels)
    (hQ : ∀ P n, Q P n t → Q' P n t) : Lands Q' t now levels := by
  induction levels with
  | nil => trivial
  | cons l finer ih =>
    rw [Lands] at hlands ⊢
    split
    next hahead =>
      rw [if_pos hahead] at hlands
      exact hlands.imp fun n hn => ⟨hn.1, hQ _ n hn.2⟩
    next hahead =>
      rw [if_neg hahead] at hlands
      split
      next hempty =>
        rw [if_pos hempty] at hlands
        exact hlands.imp fun n hn => ⟨hn.1, hQ _ n hn.2⟩
      next hempty =>
        rw [if_neg hempty] at hlands
        exact ih hlands

/-- Between two ticks every wait has at least one tick to come. -/
theorem Waits.pos (h : Settled levels) (hwaits : Waits Q levels) :
    Waits (fun P n t => 1 ≤ n ∧ Q P n t) levels := by
  induction levels with
  | nil => trivial
  | cons l finer ih =>
    obtain ⟨hl, hfiner⟩ := List.forall_mem_cons.1 h
    refine ⟨?_, ih hfiner hwaits.2⟩
    intro i t ht
    obtain ⟨n, ⟨k, hk, hslot, hn⟩, hQ⟩ := hwaits.1 i t ht
    have hbefore := odometer_lt_turnOf (Settled.wellFormed hfiner)
    have hwhole : turnOf finer ≤ k * turnOf finer :=
      Nat.le_mul_of_pos_left _ ((Level.inTurn_of_drained hl.drained).1 hk).1
    exact ⟨n, ⟨k, hk, hslot, hn⟩, by omega, hQ⟩

theorem Waits.exists_of_mem (hwaits : Waits Q levels) : ∀ t ∈ timersIn levels, ∃ P n, Q P n t := by
  induction levels with
  | nil => exact fun t ht => absurd ht List.not_mem_nil
  | cons l finer ih =>
    rw [timersIn_cons]
    refine List.forall_mem_append.2 ⟨?_, ih hwaits.2⟩
    intro t ht
    obtain ⟨i, hi⟩ := Level.mem_timers.1 ht
    obtain ⟨n, -, hQ⟩ := hwaits.1 i t hi
    exact ⟨turnOf finer, n, hQ⟩

theorem one_le_of_waits (h : Settled levels) (hwaits : Waits Q levels) :
    ∀ t ∈ timersIn levels, ∃ P n, 1 ≤ n ∧ Q P n t := (hwaits.pos h).exists_of_mem

end

end Wheel

end TimingWheel
