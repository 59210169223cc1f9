import Mathlib.Data.List.Nodup
import TimingWheel.Wheel.Geometry

/-!
# What a wheel holds

Timers move between the slots of a wheel, but none is lost and none is doubled on the way.
Placing a timer adds it, a tick takes out what it yields, and all else only changes places.
Contents are compared up to order, as lists that are permutations of each other.

## Main definitions

- `Wheel.timersIn` — the timers of a list of levels
- `Wheel.slotOf` — the timers of one slot of one level

## Main statements

- `Wheel.timersIn_place`, `Wheel.timersIn_advanceAt` — a timer is added; nothing is lost
- `Wheel.timers_tick` — what a tick yields and what it leaves is what there was
- `Wheel.position_unique` — where no two timers share a handle, a handle has one position
-/

namespace TimingWheel

/-! ### One level -/

namespace Level

variable {τ : Type}

@[simp] theorem timers_ofSpec (spec : LevelSpec) : (ofSpec spec : Level τ).timers = [] := by
  simp [timers, ofSpec]

@[simp] theorem timers_step (l : Level τ) : l.step.timers = l.timers := rfl

theorem mem_timers {l : Level τ} {t : Timer τ} : t ∈ l.timers ↔ ∃ i, t ∈ l.slot i := by
  unfold timers slot
  constructor
  · intro h
    obtain ⟨ts, hts, ht⟩ := List.mem_flatten.1 h
    obtain ⟨i, hi, rfl⟩ := List.mem_iff_getElem.1 hts
    refine ⟨i, ?_⟩
    rw [Array.getElem?_eq_getElem (by simpa using hi)]
    simpa using ht
  · rintro ⟨i, hi⟩
    by_cases hlt : i < l.slots.size
    · rw [Array.getElem?_eq_getElem hlt] at hi
      exact List.mem_flatten.2 ⟨_, by simp, hi⟩
    · simp [Array.getElem?_eq_none (Nat.le_of_not_lt hlt)] at hi

theorem lt_size_of_mem_slot {l : Level τ} {t : Timer τ} {i : Nat} (h : t ∈ l.slot i) :
    i < l.slots.size := by
  refine Nat.lt_of_not_le ?_
  intro hge
  simp [slot, Array.getElem?_eq_none hge] at h

private theorem flatten_modify_perm (slots : List (List (Timer τ))) (i : Nat) (t : Timer τ)
    (h : i < slots.length) : (slots.modify i (· ++ [t])).flatten.Perm (t :: slots.flatten) := by
  induction slots generalizing i with
  | nil => exact absurd h (Nat.not_lt_zero i)
  | cons ts rest ih =>
    cases i with
    | zero =>
      simp only [List.modify_zero_cons, List.flatten_cons, List.append_assoc, List.singleton_append]
      exact List.perm_middle
    | succ i =>
      simp only [List.modify_succ_cons, List.flatten_cons]
      exact ((ih i (Nat.lt_of_succ_lt_succ h)).append_left ts).trans List.perm_middle

private theorem flatten_set_perm (slots : List (List (Timer τ))) (i : Nat) :
    (slots[i]?.getD [] ++ (slots.set i []).flatten).Perm slots.flatten := by
  induction slots generalizing i with
  | nil => simp
  | cons ts rest ih =>
    cases i with
    | zero => simp
    | succ i =>
      simp only [List.getElem?_cons_succ, List.set_cons_succ, List.flatten_cons]
      rw [← List.append_assoc]
      refine (List.perm_append_comm.append_right _).trans ?_
      rw [List.append_assoc]
      exact (ih i).append_left ts

theorem timers_put {l : Level τ} {i : Nat} (h : i < l.slots.size) (t : Timer τ) :
    (l.put i t).timers.Perm (t :: l.timers) := by
  rw [timers, put]
  rw [Array.toList_modify]
  exact flatten_modify_perm l.slots.toList i t (by simpa using h)

theorem timers_drain (l : Level τ) : (l.current ++ l.drain.timers).Perm l.timers := by
  rw [current, slot, timers, drain]
  rw [Array.toList_setIfInBounds, ← Array.getElem?_toList]
  exact flatten_set_perm l.slots.toList l.cursor

end Level

/-! ### Lists of levels -/

namespace Wheel

variable {τ : Type}

/-- All timers of the levels, level by level and slot by slot. -/
def timersIn (levels : List (Level τ)) : List (Timer τ) := levels.flatMap Level.timers

theorem timers_eq (w : Wheel τ) : w.timers = timersIn w.levels := rfl

@[simp] theorem timersIn_nil : timersIn ([] : List (Level τ)) = [] := rfl

@[simp] theorem timersIn_cons (l : Level τ) (finer : List (Level τ)) :
    timersIn (l :: finer) = l.timers ++ timersIn finer := List.flatMap_cons

@[simp] theorem timersIn_append (coarse fine : List (Level τ)) :
    timersIn (coarse ++ fine) = timersIn coarse ++ timersIn fine := List.flatMap_append

@[simp] theorem timersIn_map_step (levels : List (Level τ)) :
    timersIn (levels.map Level.step) = timersIn levels := by
  induction levels with
  | nil => rfl
  | cons l finer ih => rw [List.map_cons, timersIn_cons, timersIn_cons, ih, Level.timers_step]

/-- A timer that falls into levels is found in them afterwards, and nothing else changes. -/
theorem timersIn_place {levels : List (Level τ)} (h : LevelsWellFormed levels) (hne : levels ≠ [])
    (t : Timer τ) (now : Int) : (timersIn (place t now levels)).Perm (t :: timersIn levels) := by
  induction levels with
  | nil => exact absurd rfl hne
  | cons l finer ih =>
    obtain ⟨hl, hfiner⟩ := List.forall_mem_cons.1 h
    rw [place]
    split
    · simp only [timersIn_cons]
      exact (Level.timers_put (Level.slotAt_lt hl _) t).append_right _
    · split
      next hempty =>
        rw [List.isEmpty_iff.1 hempty]
        simp only [timersIn_cons, timersIn_nil, List.append_nil]
        exact Level.timers_put (Level.nextSlot_lt hl) t
      next hempty =>
        have hfine : finer ≠ [] := fun hnil => hempty (List.isEmpty_iff.2 hnil)
        simp only [timersIn_cons]
        exact ((ih hfiner hfine).append_left l.timers).trans List.perm_middle

theorem timersIn_placeAll {levels : List (Level τ)} (h : LevelsWellFormed levels)
    (hne : levels ≠ []) (ts : List (Timer τ)) (now : Int) :
    (timersIn (placeAll ts now levels)).Perm (ts ++ timersIn levels) := by
  induction ts generalizing levels with
  | nil => exact List.Perm.refl _
  | cons t ts ih =>
    have hplaced := ne_nil_of_specsOf_eq (specsOf_place t now levels) hne
    have hrest := ih (wellFormed_place h t now) hplaced
    exact hrest.trans (((timersIn_place h hne t now).append_left ts).trans List.perm_middle)

/-- Levels that hand their current slots down hold together what they held before. -/
theorem timersIn_cascade {levels : List (Level τ)} (h : LevelsWellFormed levels) (now : Int)
    {n : Nat} (hn : n < levels.length) :
    (timersIn (cascade now n levels)).Perm (timersIn levels) := by
  induction n generalizing levels with
  | zero => exact List.Perm.refl _
  | succ n ih =>
    cases levels with
    | nil => exact absurd hn (Nat.not_lt_zero _)
    | cons l finer =>
      obtain ⟨-, hfiner⟩ := List.forall_mem_cons.1 h
      have hlt : n < finer.length := Nat.lt_of_succ_lt_succ hn
      have hne : finer ≠ [] := List.ne_nil_of_length_pos (Nat.zero_lt_of_lt hlt)
      have hlen : (placeAll l.current now finer).length = finer.length := by
        rw [← length_specsOf, specsOf_placeAll, length_specsOf]
      have hdown := ih (wellFormed_placeAll hfiner l.current now) (hlen ▸ hlt)
      have hplaced := timersIn_placeAll hfiner hne l.current now
      simp only [cascade, timersIn_cons]
      -- What was taken out of the slot counts among the finer levels now.
      have hback : (l.drain.timers ++ (l.current ++ timersIn finer)).Perm
          ((l.current ++ l.drain.timers) ++ timersIn finer) := by
        rw [← List.append_assoc]
        exact List.perm_append_comm.append_right _
      exact (((hdown.trans hplaced).append_left _).trans hback).trans
        ((Level.timers_drain l).append_right _)

theorem timersIn_advanceAt {levels : List (Level τ)} (h : LevelsWellFormed levels) (now : Int)
    {i : Nat} (hi : i < levels.length) :
    (timersIn (advanceAt now i levels)).Perm (timersIn levels) := by
  induction levels generalizing i with
  | nil => exact List.Perm.refl _
  | cons l finer ih =>
    obtain ⟨-, hfiner⟩ := List.forall_mem_cons.1 h
    rw [advanceAt]
    split
    · refine (timersIn_cascade (wellFormed_steps h i) now ?_).trans ?_
      · simp only [List.length_cons, List.length_append, List.length_map, List.length_take,
          List.length_drop] at hi ⊢
        omega
      · rw [timersIn_cons, timersIn_append, timersIn_map_step, ← timersIn_append,
          List.take_append_drop, timersIn_cons, Level.timers_step]
    next hstop =>
      cases i with
      | zero => simp at hstop
      | succ i =>
        simp only [timersIn_cons, Nat.add_sub_cancel]
        exact (ih hfiner (Nat.lt_of_succ_lt_succ hi)).append_left l.timers

/-! ### Ticks -/

theorem timers_takeFinest (w : Wheel τ) :
    (w.takeFinest.1 ++ w.takeFinest.2.timers).Perm w.timers := by
  rw [takeFinest, finest?]
  cases hlast : w.levels.getLast? with
  | none => exact List.Perm.refl _
  | some l =>
    obtain ⟨coarse, hlevels⟩ := List.getLast?_eq_some_iff.1 hlast
    simp only [timers_eq, hlevels, List.dropLast_concat, timersIn_append, timersIn_cons,
      timersIn_nil, List.append_nil]
    rw [← List.append_assoc]
    refine (List.perm_append_comm.append_right _).trans ?_
    rw [List.append_assoc]
    exact (Level.timers_drain l).append_left _

/-- What a tick yields, together with what the wheel still holds after it, is what the
wheel held before it. -/
theorem timers_tick {w : Wheel τ} (h : LevelsWellFormed w.levels) (now : Int) :
    ((w.tick now).1 ++ (w.tick now).2.timers).Perm w.timers := by
  refine (timers_takeFinest (w.advanceFinest now)).trans ?_
  by_cases hne : w.levels = []
  · simp [timers_eq, advanceFinest, hne, advanceAt]
  · have hlt : w.depth - 1 < w.levels.length :=
      Nat.sub_lt (List.length_pos_iff.2 hne) Nat.one_pos
    exact timersIn_advanceAt h now hlt

/-! ### Positions -/

/-- The timers of slot `j` of level `i`; none where there is no such slot. -/
def slotOf (w : Wheel τ) (i j : Nat) : List (Timer τ) := ((w.level? i).map (·.slot j)).getD []

theorem mem_timers {w : Wheel τ} {t : Timer τ} : t ∈ w.timers ↔ ∃ i j, t ∈ w.slotOf i j := by
  unfold timers slotOf level?
  constructor
  · intro h
    obtain ⟨l, hl, ht⟩ := List.mem_flatMap.1 h
    obtain ⟨i, hi, rfl⟩ := List.mem_iff_getElem.1 hl
    obtain ⟨j, hj⟩ := Level.mem_timers.1 ht
    exact ⟨i, j, by simpa [List.getElem?_eq_getElem hi] using hj⟩
  · rintro ⟨i, j, h⟩
    cases hl : w.levels[i]? with
    | none => simp [hl] at h
    | some l =>
      simp only [hl, Option.map_some, Option.getD_some] at h
      exact List.mem_flatMap.2 ⟨l, List.mem_of_getElem? hl, Level.mem_timers.2 ⟨j, h⟩⟩

private theorem group_nodup {groups : List (List (Timer τ))}
    (h : (groups.flatten.map (·.id)).Nodup) {group : List (Timer τ)} (hg : group ∈ groups) :
    (group.map (·.id)).Nodup :=
  h.sublist ((List.sublist_flatten_of_mem hg).map _)

private theorem group_unique {groups : List (List (Timer τ))}
    (h : (groups.flatten.map (·.id)).Nodup) {i j : Nat} {t u : Timer τ}
    (ht : t ∈ groups[i]?.getD []) (hu : u ∈ groups[j]?.getD []) (hid : t.id = u.id) : i = j := by
  rw [List.map_flatten, List.nodup_flatten, List.pairwise_iff_getElem] at h
  -- Of two groups, the later one has no handle of the earlier one.
  have apart : ∀ {a b : Nat} {v w : Timer τ}, a < b → v ∈ groups[a]?.getD [] →
      w ∈ groups[b]?.getD [] → v.id ≠ w.id := by
    intro a b v w hab hv hw heq
    have hb : b < groups.length := by
      refine Nat.lt_of_not_le ?_
      intro hge
      simp [List.getElem?_eq_none hge] at hw
    have ha : a < groups.length := Nat.lt_trans hab hb
    simp only [List.getElem?_eq_getElem ha, List.getElem?_eq_getElem hb, Option.getD_some] at hv hw
    have hdisjoint := h.2 a b (by simpa using ha) (by simpa using hb) hab
    simp only [List.getElem_map] at hdisjoint
    exact hdisjoint (List.mem_map_of_mem hv) (heq ▸ List.mem_map_of_mem hw)
  rcases Nat.lt_trichotomy i j with hlt | heq | hgt
  · exact absurd hid (apart hlt ht hu)
  · exact heq
  · exact absurd hid.symm (apart hgt hu ht)

/-- Where no two timers of a wheel share a handle, a handle is found at one place of one
slot of one level only. -/
theorem position_unique {w : Wheel τ} (h : (w.timers.map (·.id)).Nodup) {i i' j j' k k' : Nat}
    {t u : Timer τ} (ht : (w.slotOf i j)[k]? = some t) (hu : (w.slotOf i' j')[k']? = some u)
    (hid : t.id = u.id) : i = i' ∧ j = j' ∧ k = k' := by
  rw [timers] at h
  rw [slotOf, level?] at ht hu
  rw [List.flatMap_def] at h
  cases hl : w.levels[i]? with
  | none => simp [hl] at ht
  | some l =>
    cases hm : w.levels[i']? with
    | none => simp [hm] at hu
    | some m =>
      simp only [hl, hm, Option.map_some, Option.getD_some] at ht hu
      have htl : t ∈ l.timers := Level.mem_timers.2 ⟨j, List.mem_of_getElem? ht⟩
      have hum : u ∈ m.timers := Level.mem_timers.2 ⟨j', List.mem_of_getElem? hu⟩
      -- The levels are told apart first, then the slots of the level, then the places in the slot.
      have hi : i = i' := group_unique h (t := t) (u := u)
        (by simpa [hl] using htl) (by simpa [hm] using hum) hid
      subst hi
      obtain rfl : l = m := Option.some.inj (hl.symm.trans hm)
      have hlevel : (l.slots.toList.flatten.map (·.id)).Nodup :=
        group_nodup h (List.mem_map_of_mem (List.mem_of_getElem? hl))
      have hj : j = j' := by
        refine group_unique hlevel (t := t) (u := u) ?_ ?_ hid
        · simpa [Level.slot] using List.mem_of_getElem? ht
        · simpa [Level.slot] using List.mem_of_getElem? hu
      subst hj
      have hslot : ((l.slot j).map (·.id)).Nodup := by
        have hlt := Level.lt_size_of_mem_slot (List.mem_of_getElem? ht)
        exact group_nodup hlevel (by simp [Level.slot, hlt])
      refine ⟨rfl, rfl, ?_⟩
      have hk : k < ((l.slot j).map (·.id)).length := by
        simpa using (List.getElem?_eq_some_iff.1 ht).1
      exact (List.getElem?_inj hk hslot).1 (by simp [ht, hu, hid])

end Wheel

end TimingWheel
