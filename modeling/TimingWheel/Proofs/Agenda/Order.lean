import TimingWheel.Proofs.Agenda.Pace
import TimingWheel.Proofs.Wheel.Abreast

/-!
# Timers that are due at the same time

Take timers that are due at the same time, in the order in which they were registered, and take all
other timers out of the wheel. What is left is what there would be if these timers fell into an
empty wheel just now, one after the other, whenever they were registered and whichever levels they
have come through since. Registrations, ticks, and moves that do not ask about them leave it so. A
tick that yields them too early puts all of them back, in their order, and one that yields them in
time fires all of them, in their order. So timers that are due at the same time fire in the order of
their registration, whatever else is in the wheel.

## Main definitions

- `Timer.among` — leaves some of the timers
- `Agenda.Abreast` — timers that are due at the same time are where they would fall in

## Main statements

- `Agenda.abreast_register`, `Agenda.abreast_move` — one more timer, and all other moves
- `Agenda.abreast_tick` — a tick fires all of them in their order, or leaves them so
- `History.abreast_after` — the same about any moves with ticks at an even pace
-/

namespace TimingWheel

variable {τ : Type}

/-! ### Some of the timers -/

namespace Timer

/-- Leaves the timers with the handles `ids`. -/
def among (ids : List TimerId) : Timer τ → Option (Timer τ) := Option.guard fun t => t.id ∈ ids

variable {ids : List TimerId} {t : Timer τ}

theorem among_of_mem (h : t.id ∈ ids) : among ids t = some t := if_pos (decide_eq_true h)

theorem among_of_not_mem (h : t.id ∉ ids) : among ids t = none :=
  if_neg (mt of_decide_eq_true h)

theorem filterMap_among (ids : List TimerId) (ts : List (Timer τ)) :
    ts.filterMap (among ids) = ts.filter fun t => t.id ∈ ids :=
  congrFun List.filterMap_eq_filter ts

theorem keepsDue_among (ids : List TimerId) :
    Wheel.KeepsDue (among ids : Timer τ → Option (Timer τ)) := by
  intro t u h
  by_cases ht : t.id ∈ ids
  · rw [among_of_mem ht] at h
    rw [Option.some.inj h]
  · rw [among_of_not_mem ht] at h
    cases h

end Timer

namespace Agenda

open Wheel (clear placeAll project)

/-- The timers `ts` are due at `due`, which is not too far ahead, and nothing is asked about them.
They are where they would fall in now, one after the other, if the wheel held no other timers. -/
structure Abreast (grain wide ahead : Nat) (now due : Int) (ts : List (Timer τ)) (a : Agenda τ) :
    Prop where
  balanced : Balanced [] a
  covers : LevelSpec.Covers grain wide ahead (Wheel.specsOf a.wheel.levels)
  least_le : Time.least ≤ now
  due_fits : due + wide ≤ Time.greatest
  due_le : due ≤ now + ahead
  due_eq : ∀ t ∈ ts, t.due = due
  pursues : ∀ t ∈ ts, a.Pursues t.id (some t.plan)
  home : project (Timer.among (ts.map (·.id))) a.wheel.levels =
    placeAll ts now (clear a.wheel.levels)

section

variable {grain wide ahead : Nat} {now due : Int} {ts : List (Timer τ)} {a : Agenda τ}

/-- No timers at all are where they would fall in. -/
theorem abreast_nil (h : Balanced [] a)
    (hcovers : LevelSpec.Covers grain wide ahead (Wheel.specsOf a.wheel.levels))
    (hleast : Time.least ≤ now) (hfits : due + wide ≤ Time.greatest) (hdue : due ≤ now + ahead) :
    a.Abreast grain wide ahead now due [] where
  balanced := h
  covers := hcovers
  least_le := hleast
  due_fits := hfits
  due_le := hdue
  due_eq := fun _ ht => absurd ht List.not_mem_nil
  pursues := fun _ ht => absurd ht List.not_mem_nil
  home := Wheel.project_congr _ _ fun _ _ => Timer.among_of_not_mem List.not_mem_nil

/-- A timer that is registered has another handle than those which are there. -/
theorem Abreast.ne_nextId (h : a.Abreast grain wide ahead now due ts) :
    (⟨a.nextId⟩ : TimerId) ∉ ts.map (·.id) := by
  intro hmem
  obtain ⟨t, ht, hid⟩ := List.mem_map.1 hmem
  have hused := Pursues.used h.balanced (h.pursues t ht)
  rw [hid] at hused
  exact Nat.lt_irrefl _ hused

/-- A timer that is registered for the same time falls in behind them. -/
theorem abreast_register (h : a.Abreast grain wide ahead now due ts)
    (haccepts : a.phase.acceptsTimers = true) (interval : Int) (task : Option τ) :
    (a.move (.register due interval task now)).Abreast grain wide ahead now due
      (ts ++ [.every ⟨a.nextId⟩ due interval task]) := by
  have hb := h.balanced
  have hpursues : ∀ t ∈ ts, (a.move (.register due interval task now)).Pursues t.id (some t.plan) :=
    fun t ht => pursues_move hb (h.pursues t ht) (fun _ => by simp) fun hasks => hasks
  have hnew := pursues_register hb haccepts due interval task now
  have hspecs : Wheel.specsOf (a.move (.register due interval task now)).wheel.levels =
      Wheel.specsOf a.wheel.levels := specs_move fun _ heq => by cases heq
  let t : Timer τ := .every ⟨a.nextId⟩ due interval task
  have hwheel : (a.move (.register due interval task now)).wheel = a.wheel.insert t now := by
    rw [move, register_of_accepts haccepts]
  refine {
    balanced := balanced_move hb _
    covers := hspecs ▸ h.covers
    least_le := h.least_le
    due_fits := h.due_fits
    due_le := h.due_le
    due_eq := List.forall_mem_append.2 ⟨h.due_eq, List.forall_mem_singleton.2 rfl⟩
    pursues := List.forall_mem_append.2 ⟨hpursues, List.forall_mem_singleton.2 hnew⟩
    home := ?_ }
  -- The handle of the timer is no other timer's, so that the others are left as before.
  have hothers : project (Timer.among ((ts ++ [t]).map (·.id))) a.wheel.levels =
      project (Timer.among (ts.map (·.id))) a.wheel.levels := by
    refine Wheel.project_congr _ _ fun u hu => ?_
    have hne : u.id ≠ t.id := by
      rintro (heq : u.id = ⟨a.nextId⟩)
      exact hb.nextId_fresh (heq ▸ hb.mem_live_iff.2 ⟨u, Or.inr hu, rfl⟩)
    simp [Timer.among, Option.guard, hne]
  have hself : Timer.among ((ts ++ [t]).map (·.id)) t = some t := Timer.among_of_mem (by simp)
  rw [hwheel, Wheel.insert, Wheel.project_place_of_some now hself rfl, Wheel.clear_place, hothers,
    h.home]
  exact (Wheel.placeAll_concat ts t now _).symm

/-- Between ticks the timers stay where they would fall in, if nothing is asked about them. -/
theorem abreast_move (h : a.Abreast grain wide ahead now due ts) {m : Move τ} (hm : m.At now)
    (hspecs : Wheel.specsOf (a.move m).wheel.levels = Wheel.specsOf a.wheel.levels)
    (hunasked : ∀ t ∈ ts, ¬m.AsksAbout t.id) : (a.move m).Abreast grain wide ahead now due ts where
  balanced := balanced_move h.balanced m
  covers := hspecs ▸ h.covers
  least_le := h.least_le
  due_fits := h.due_fits
  due_le := h.due_le
  due_eq := h.due_eq
  pursues := fun t ht =>
    pursues_move h.balanced (h.pursues t ht) (not_tick_of_at hm) (hunasked t ht)
  home := by
    rcases wheel_move_cases a (not_tick_of_at hm) hspecs with hsame |
      ⟨due', interval, task, now', rfl, -, hwheel⟩
    · rw [hsame]
      exact h.home
    · obtain rfl : now' = now := hm
      rw [hwheel, Wheel.insert, Wheel.clear_place,
        Wheel.project_place_of_none now' (Timer.among_of_not_mem h.ne_nextId)]
      exact h.home

/-! ### Ticks -/

/-- Timers that a tick does not fire, and that it puts back if it yields them, stay in their
order. -/
theorem filterMap_outcome_of_kept {ids : List TimerId}
    (hkept : ∀ t ∈ a.yielded now, t.id ∈ ids → a.verdict now t = .keep) :
    ((a.yielded now).filterMap fun t => (a.verdict now t).outcome t).filterMap (Timer.among ids) =
      (a.yielded now).filterMap (Timer.among ids) := by
  rw [List.filterMap_filterMap]
  refine List.filterMap_congr fun t ht => ?_
  by_cases hid : t.id ∈ ids
  · rw [hkept t ht hid]
    rfl
  · rw [Timer.among_of_not_mem hid]
    cases hout : (a.verdict now t).outcome t with
    | none => rfl
    | some u => exact Timer.among_of_not_mem (Verdict.id_of_outcome hout ▸ hid)

/-- The wheel yields all of the timers in their order, or it leaves them where they would fall
in. -/
theorem Abreast.together (h : a.Abreast grain wide ahead now due ts) :
    (a.yielded (now + grain)).filterMap (Timer.among (ts.map (·.id))) = ts ∧
        project (Timer.among (ts.map (·.id))) (a.wheel.tick (now + grain)).2.levels =
          clear (a.wheel.tick (now + grain)).2.levels ∨
      (a.yielded (now + grain)).filterMap (Timer.among (ts.map (·.id))) = [] ∧
        project (Timer.among (ts.map (·.id))) (a.wheel.tick (now + grain)).2.levels =
          placeAll ts (now + grain) (clear (a.wheel.tick (now + grain)).2.levels) := by
  have hcovers : LevelSpec.Covers grain wide ahead (Wheel.specsOf (clear a.wheel.levels)) := by
    rw [Wheel.specsOf_clear]
    exact h.covers
  have hsame : ∀ t ∈ ts, (t.due - now) / (grain : Int) = (due - now) / grain := fun t ht => by
    rw [h.due_eq t ht]
  have htogether := Wheel.together_turn_of_covers hsame (Wheel.settled_clear h.balanced.settled)
    hcovers (Wheel.timersIn_clear _) h.least_le (fun t ht => h.due_eq t ht ▸ h.due_fits)
    (fun t ht => h.due_eq t ht ▸ h.due_le) h.due_le
  rw [← h.home, Wheel.turn_project _ (Timer.keepsDue_among _), Wheel.clear_turn] at htogether
  rw [yielded, Wheel.tick_eq_turn]
  exact htogether.imp Prod.mk.inj Prod.mk.inj

/-- A tick that yields none of the timers, or all of them too early, leaves them where they would
fall in. -/
theorem abreast_tick_of_kept (h : a.Abreast grain wide ahead now due ts)
    (hkept : ∀ t ∈ a.yielded (now + grain), t.id ∈ ts.map (·.id) →
      a.verdict (now + grain) t = .keep) :
    (a.tick (now + grain)).2.Abreast grain wide ahead (now + grain) due ts := by
  have hb := h.balanced
  have hleast := h.least_le
  have hdue := h.due_le
  refine {
    balanced := balanced_tick hb _
    covers := by
      rw [specsOf_tick]
      exact h.covers
    least_le := by omega
    due_fits := h.due_fits
    due_le := by omega
    due_eq := h.due_eq
    pursues := ?_
    home := ?_ }
  · intro t ht
    obtain ⟨⟨u, hu, hid, hplan⟩, hreset, hcancel⟩ := h.pursues t ht
    rw [← hid] at hreset hcancel ⊢
    rw [← hplan]
    rcases (mem_timers_iff_yielded hb (now + grain)).1 hu with hyielded | hstays
    · refine pursues_of_outcome hb hyielded hcancel ?_
      rw [hkept u hyielded (List.mem_map.2 ⟨t, ht, hid.symm⟩)]
      rfl
    · obtain ⟨hheld, hasked, hnoted, -⟩ := stays_tick hb hstays
      exact ⟨⟨u, hheld, rfl, rfl⟩, hasked.trans hreset, mt hnoted.1 hcancel⟩
  · rw [levels_tick hb, Wheel.clear_placeAll, Wheel.project_placeAll _ (Timer.keepsDue_among _),
      filterMap_outcome_of_kept hkept]
    rcases h.together with ⟨hyielded, hlevels⟩ | ⟨hyielded, hlevels⟩
    · rw [hyielded, hlevels]
    · rw [hyielded, hlevels]
      rfl

/-- A tick fires all of the timers in their order, or it fires none of them and leaves them where
they would fall in. -/
theorem abreast_tick (h : a.Abreast grain wide ahead now due ts) :
    (a.tick (now + grain)).2.Abreast grain wide ahead (now + grain) due ts ∧
        (∀ t ∈ ts, t.id ∉ (a.tick (now + grain)).1.map (·.id)) ∨
      ts.Sublist (a.tick (now + grain)).1 := by
  have hb := h.balanced
  rw [fired_tick hb]
  by_cases hkept : ∀ t ∈ a.yielded (now + grain), t.id ∈ ts.map (·.id) →
      a.verdict (now + grain) t = .keep
  · refine Or.inl ⟨abreast_tick_of_kept h hkept, fun t ht hmem => ?_⟩
    obtain ⟨u, hu, hid⟩ := List.mem_map.1 hmem
    obtain ⟨hyielded, hfire⟩ := List.mem_filter.1 hu
    have hkeep := hkept u hyielded (List.mem_map.2 ⟨t, ht, hid.symm⟩)
    rw [hkeep] at hfire
    cases of_decide_eq_true hfire
  · -- One of them is yielded when it is due, and so are all of them.
    right
    push Not at hkept
    obtain ⟨t, ht, hid, hverdict⟩ := hkept
    have hmem := List.mem_filterMap.2 ⟨t, ht, Timer.among_of_mem hid⟩
    rcases h.together with ⟨hyielded, -⟩ | ⟨hyielded, -⟩
    · rw [hyielded] at hmem
      rw [Timer.filterMap_among] at hyielded
      obtain ⟨-, hreset, hcancel⟩ := h.pursues t hmem
      have hdue : due ≤ now + grain := by
        rcases verdict_cases (now + grain) t a with ⟨due', hsome, -⟩ | ⟨-, hnoted, -⟩ |
          ⟨-, -, -, hkeep⟩ | ⟨-, -, hdue, -⟩
        · rw [hreset] at hsome
          cases hsome
        · exact absurd hnoted hcancel
        · exact absurd hkeep hverdict
        · exact h.due_eq t hmem ▸ hdue
      have hfire : ∀ u ∈ ts, decide (a.verdict (now + grain) u = .fire) = true := by
        intro u hu
        obtain ⟨-, hreset, hcancel⟩ := h.pursues u hu
        rw [decide_eq_true_iff, verdict_eq_fire_iff, h.due_eq u hu]
        exact ⟨hreset, hcancel, hdue⟩
      have hsublist : ts.Sublist (a.yielded (now + grain)) :=
        hyielded ▸ List.filter_sublist
      rw [← List.filter_eq_self.2 hfire]
      exact hsublist.filter _
    · rw [hyielded] at hmem
      exact absurd hmem List.not_mem_nil

end

end Agenda

/-! ### Runs -/

namespace History

open Agenda (Abreast Paced ticksIn)

variable {grain wide ahead : Nat} {now due : Int} {ts : List (Timer τ)} {h : History τ}
  {moves : List (Agenda.Move τ)}

/-- While ticks come at an even pace and nothing is asked about the timers, either none of them
fires and they stay where they would fall in, or on the first tick that fires one of them all of
them fire, in their order. -/
theorem abreast_after (habreast : h.agenda.Abreast grain wide ahead now due ts)
    (hpaced : Paced grain now moves) (hunasked : ∀ m ∈ moves, ∀ t ∈ ts, ¬m.AsksAbout t.id)
    (hspecs : Wheel.specsOf (h.after moves).agenda.wheel.levels =
      Wheel.specsOf h.agenda.wheel.levels) :
    (h.after moves).agenda.Abreast grain wide ahead (now + ticksIn moves * grain) due ts ∧
        (∀ r ∈ h.rounds moves, ∀ t ∈ ts, t.id ∉ r) ∨
      ∃ earlier r later, h.rounds moves = earlier ++ r :: later ∧
        (∀ r' ∈ earlier, ∀ t ∈ ts, t.id ∉ r') ∧ (ts.map (·.id)).Sublist r := by
  induction moves generalizing h now with
  | nil => exact Or.inl ⟨by simpa [after, ticksIn] using habreast, fun r hr => by cases hr⟩
  | cons m moves ih =>
    obtain ⟨hm, hunaskedLater⟩ := List.forall_mem_cons.1 hunasked
    obtain ⟨hfirst, hrest⟩ := specs_after_cons hspecs
    rw [← Agenda.readingFrom_add hpaced.1]
    rcases hpaced.1 with hat | rfl
    · rw [rounds_cons_of_no_tick (Agenda.not_tick_of_at hat)]
      refine ih (h := h.move m) ?_ hpaced.2 hunaskedLater hrest
      rw [Agenda.readingFrom_of_at hat]
      exact Agenda.abreast_move habreast hat hfirst hm
    · rw [rounds]
      rcases Agenda.abreast_tick habreast with ⟨hnext, hsilent⟩ | hfired
      · rcases ih (h := h.move (.tick (now + grain))) hnext hpaced.2 hunaskedLater hrest with
          ⟨hlater, hrounds⟩ | ⟨earlier, r, later, hrounds, hsilentLater, hfires⟩
        · exact Or.inl ⟨hlater, List.forall_mem_cons.2 ⟨hsilent, hrounds⟩⟩
        · refine Or.inr ⟨(h.agenda.tick (now + grain)).1.map (·.id) :: earlier, r, later, ?_, ?_,
            hfires⟩
          · rw [hrounds, List.cons_append]
          · exact List.forall_mem_cons.2 ⟨hsilent, hsilentLater⟩
      · exact Or.inr ⟨[], _, _, rfl, fun r hr => absurd hr List.not_mem_nil, hfired.map _⟩

/-- Whenever a tick fires one of the timers, all of them fire on this tick or on an earlier one, in
their order. -/
theorem fires_abreast (habreast : h.agenda.Abreast grain wide ahead now due ts)
    (hpaced : Paced grain now moves) (hunasked : ∀ m ∈ moves, ∀ t ∈ ts, ¬m.AsksAbout t.id)
    (hspecs : Wheel.specsOf (h.after moves).agenda.wheel.levels =
      Wheel.specsOf h.agenda.wheel.levels) {earlier later : List (List TimerId)}
    {r : List TimerId} (hrounds : h.rounds moves = earlier ++ r :: later) {t : Timer τ}
    (ht : t ∈ ts) (hfires : t.id ∈ r) :
    (∃ r' ∈ earlier, (ts.map (·.id)).Sublist r') ∨ (ts.map (·.id)).Sublist r := by
  rcases abreast_after habreast hpaced hunasked hspecs with
    ⟨-, hsilent⟩ | ⟨before, r', after, hfirst, hsilent, hall⟩
  · have hmem : r ∈ h.rounds moves := hrounds ▸ List.mem_append_right _ List.mem_cons_self
    exact absurd hfires (hsilent r hmem t ht)
  · -- The first tick that fires them comes before this one, or it is this one.
    rw [hrounds] at hfirst
    rcases List.append_eq_append_iff.1 hfirst with ⟨gap, rfl, hgap⟩ | ⟨gap, rfl, hgap⟩
    · cases gap with
      | nil => exact Or.inr ((List.cons.inj hgap).1 ▸ hall)
      | cons q gap =>
        obtain rfl := (List.cons.inj hgap).1
        exact absurd hfires (hsilent r (List.mem_append_right _ List.mem_cons_self) t ht)
    · cases gap with
      | nil => exact Or.inr ((List.cons.inj hgap).1 ▸ hall)
      | cons q gap =>
        obtain rfl := (List.cons.inj hgap).1
        exact Or.inl ⟨r', List.mem_append_right _ List.mem_cons_self, hall⟩

end History

end TimingWheel
