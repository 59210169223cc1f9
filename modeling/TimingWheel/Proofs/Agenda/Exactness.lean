import TimingWheel.Proofs.Agenda.Pace
import TimingWheel.Proofs.Wheel.Meshing

/-!
# The tick on which a timer comes out

Where ticks are as far apart as the slots of the finest level of a matched wheel are wide, the
due time of a timer tells on which tick the wheel yields it: on the first one after which the next
tick comes too late. This holds of every timer that was not due too far ahead when it last fell
in, and it does not matter what else is in the wheel. Until that tick the timer is held as it is,
and requests about it are noted; on that tick they take effect.

## Main definitions

- `Agenda.InStep` — timers come out of the wheel on the ticks that their due times tell
- `Agenda.lastEntry` — when a timer last fell in at the coarsest level
- `Agenda.Holds` — a timer is held as it is, with requests noted

## Main statements

- `Agenda.mem_yielded_iff` — the tick on which a timer comes out
- `Agenda.inStep_move`, `Agenda.inStep_tick` — moves and ticks leave the timers in step
- `History.inStep_after` — a timer that was near at its last entry is in step
- `History.holds_after` — a timer is held as it is until it comes out
-/

namespace TimingWheel

variable {τ : Type}

namespace Agenda

/-! ### Timers in step -/

/-- While the clock shows `now`, the timers that are `near` will come out of the wheel in step, if
ticks are `grain` apart. -/
structure InStep (grain wide ahead : Nat) (now : Int) (near : Timer τ → Prop) (a : Agenda τ) :
    Prop where
  balanced : Balanced [] a
  covers : LevelSpec.Covers grain wide ahead (Wheel.specsOf a.wheel.levels)
  least_le : Time.least ≤ now
  near_fits : ∀ t, near t → t.due + wide ≤ Time.greatest
  waits : Wheel.Waits (fun P n t => near t → Wheel.InStep grain now 1 P n t) a.wheel.levels

section

variable {grain wide ahead : Nat} {now : Int} {near near' : Timer τ → Prop} {a : Agenda τ}

theorem inStep_of_no_timer (h : Balanced [] a)
    (hcovers : LevelSpec.Covers grain wide ahead (Wheel.specsOf a.wheel.levels))
    (hleast : Time.least ≤ now) (hfits : ∀ t, near t → t.due + wide ≤ Time.greatest)
    (hnew : a.nextId = 1) : a.InStep grain wide ahead now near where
  balanced := h
  covers := hcovers
  least_le := hleast
  near_fits := hfits
  waits := Wheel.waits_of_no_timer (h.timers_eq_nil hnew)

/-- Which timers are near only matters for those that are held. -/
theorem InStep.mono (h : a.InStep grain wide ahead now near)
    (hfits : ∀ t, near' t → t.due + wide ≤ Time.greatest)
    (hnear : ∀ t ∈ a.wheel.timers, near' t → near t) : a.InStep grain wide ahead now near' where
  balanced := h.balanced
  covers := h.covers
  least_le := h.least_le
  near_fits := hfits
  waits := h.waits.mono fun t ht _ _ hstep hyes => hstep (hnear t ht hyes)

theorem inStep_move (h : a.InStep grain wide ahead now near) {m : Move τ} (hm : m.At now)
    (hspecs : Wheel.specsOf (a.move m).wheel.levels = Wheel.specsOf a.wheel.levels)
    (hnew : ∀ due interval task, m = .register due interval task now →
      a.phase.acceptsTimers = true → near (.every ⟨a.nextId⟩ due interval task) →
        due ≤ now + ahead) :
    (a.move m).InStep grain wide ahead now near where
  balanced := balanced_move h.balanced m
  covers := hspecs ▸ h.covers
  least_le := h.least_le
  near_fits := h.near_fits
  waits := by
    rcases wheel_move_cases a (not_tick_of_at hm) hspecs with hsame |
      ⟨due, interval, task, now', rfl, haccepts, hwheel⟩
    · rw [hsame]
      exact h.waits
    · obtain rfl : now' = now := hm
      rw [hwheel]
      exact Wheel.waits_place h.balanced.settled.wellFormed h.waits
        (Wheel.lands_of_covers h.balanced.settled h.covers h.least_le (h.near_fits _)
          (hnew due interval task rfl haccepts))

theorem InStep.least_le_add (h : a.InStep grain wide ahead now near) :
    Time.least ≤ now + grain := by
  have hleast := h.least_le
  omega

theorem waits_yielded (h : a.InStep grain wide ahead now near) :
    Wheel.Waits (fun P n t => near t → Wheel.InStep grain (now + grain) 0 P n t)
        (a.wheel.tick (now + grain)).2.levels ∧
      ∀ t ∈ a.yielded (now + grain), near t → Wheel.InStep grain (now + grain) 0 1 0 t := by
  have hwide := h.covers.wide_le
  have hfits := h.covers.fits
  rw [yielded, Wheel.tick_eq_turn]
  exact Wheel.inStep_turn h.balanced.settled h.covers.toMeshed h.least_le_add (by omega) h.near_fits
    h.waits

/-- The wheel yields a near timer on the first tick after which the next one comes too late. -/
theorem mem_yielded_iff (h : a.InStep grain wide ahead now near) {t : Timer τ}
    (ht : t ∈ a.wheel.timers) (hnear : near t) :
    t ∈ a.yielded (now + grain) ↔ t.due < now + grain + grain := by
  obtain ⟨hwaits, hyielded⟩ := waits_yielded h
  constructor
  · intro hmem
    exact Wheel.due_lt_of_inStep (hyielded t hmem hnear)
  · intro hdue
    refine ((mem_timers_iff_yielded h.balanced (now + grain)).1 ht).resolve_right fun hstays => ?_
    obtain ⟨P, n, hn, hstep⟩ := Wheel.one_le_of_waits
      (balanced_yielded h.balanced (now + grain)).settled hwaits t hstays
    exact absurd (Wheel.le_due_of_inStep hn (hstep hnear)) (Int.not_le.2 hdue)

/-- A tick leaves the timers in step, if whatever goes back is not due too far ahead. -/
theorem inStep_tick (h : a.InStep grain wide ahead now near)
    (hfits : ∀ t, near' t → t.due + wide ≤ Time.greatest)
    (hstays : ∀ t ∈ a.unreached (now + grain), near' t → near t)
    (hback : ∀ t ∈ a.yielded (now + grain), ∀ u,
      (a.verdict (now + grain) t).outcome t = some u → near' u → u.due ≤ now + grain + ahead) :
    (a.tick (now + grain)).2.InStep grain wide ahead (now + grain) near' where
  balanced := balanced_tick h.balanced (now + grain)
  covers := by
    rw [specsOf_tick]
    exact h.covers
  least_le := h.least_le_add
  near_fits := hfits
  waits := by
    refine waits_tick h.balanced ((waits_yielded h).1.mono ?_) ?_
    · exact fun t ht _ _ hstep hyes => (hstep (hstays t ht hyes)).late
    · intro t ht u hout
      refine Wheel.lands_of_covers (balanced_yielded h.balanced (now + grain)).settled ?_
        h.least_le_add (hfits u) (hback t ht u hout)
      rw [Wheel.specsOf_tick]
      exact h.covers

end

/-! ### Entries -/

/-- When a move lets the timer fall in at the coarsest level: when the timer is registered, and at
a tick on which the wheel yields it. -/
def arrival? (id : TimerId) (a : Agenda τ) : Move τ → Option Int
  | .register _ _ _ now =>
    if a.phase.acceptsTimers = true ∧ id = ⟨a.nextId⟩ then some now else none
  | .tick now => if id ∈ (a.yielded now).map (·.id) then some now else none
  | _ => none

/-- When the timer last fell in at the coarsest level after some moves, if it did so at `last`
before them. -/
def lastEntry (id : TimerId) : Agenda τ → Option Int → List (Move τ) → Option Int
  | _, last, [] => last
  | a, last, m :: later => lastEntry id (a.move m) ((a.arrival? id m).or last) later

/-- The timer was due no more than `ahead` after its last entry, and well within the range. -/
structure EnteredNear (id : TimerId) (wide ahead : Nat) (last : Option Int) (t : Timer τ) :
    Prop where
  id_eq : t.id = id
  fits : t.due + wide ≤ Time.greatest
  near : ∃ c ∈ last, t.due ≤ c + ahead

section

variable {grain wide ahead : Nat} {now : Int} {id : TimerId} {last : Option Int} {a : Agenda τ}

/-- A move between ticks is no entry for a timer that is there already. -/
theorem arrival?_of_at (h : Balanced [] a) {m : Move τ} (hm : m.At now) {t : Timer τ}
    (ht : t ∈ a.wheel.timers) : a.arrival? t.id m = none := by
  cases m with
  | register due interval task now' =>
    refine if_neg ?_
    rintro ⟨-, hid⟩
    exact h.nextId_fresh (hid ▸ h.mem_live_iff.2 ⟨t, Or.inr ht, rfl⟩)
  | tick now' => exact hm.elim
  | _ => rfl

theorem inStep_entry (h : a.InStep grain wide ahead now (EnteredNear id wide ahead last))
    {m : Move τ} (hm : m.At now ∨ m = .tick (now + grain))
    (hspecs : Wheel.specsOf (a.move m).wheel.levels = Wheel.specsOf a.wheel.levels) :
    (a.move m).InStep grain wide ahead (m.readingFrom now)
      (EnteredNear id wide ahead ((a.arrival? id m).or last)) := by
  rcases hm with hm | rfl
  · rw [readingFrom_of_at hm]
    refine inStep_move (h.mono (fun t ht => ht.fits) ?_) hm hspecs ?_
    · intro t ht hnear
      obtain ⟨rfl, hfits, hnear⟩ := hnear
      rw [arrival?_of_at h.balanced hm ht] at hnear
      exact ⟨rfl, hfits, hnear⟩
    · rintro due interval task rfl haccepts ⟨rfl, -, c, hc, hdue⟩
      rw [arrival?, if_pos ⟨haccepts, rfl⟩] at hc
      obtain rfl := Option.some.inj hc
      exact hdue
  · refine inStep_tick h (fun t ht => ht.fits) ?_ ?_
    · intro t ht hnear
      obtain ⟨rfl, hfits, hnear⟩ := hnear
      rw [arrival?, if_neg] at hnear
      · exact ⟨rfl, hfits, hnear⟩
      · rintro hmem
        obtain ⟨u, hu, heq⟩ := List.mem_map.1 hmem
        exact id_ne_of_unreached h.balanced _ hu ht heq
    · rintro t ht u hout ⟨rfl, -, c, hc, hdue⟩
      rw [arrival?, if_pos (List.mem_map.2 ⟨t, ht, (Verdict.id_of_outcome hout).symm⟩)] at hc
      obtain rfl := Option.some.inj hc
      exact hdue

end

/-! ### Timers that are held -/

/-- The timer is held as it is. The due time that was last asked for is noted, if there is one, and
so is whether it is to be dropped. -/
structure Holds (t : Timer τ) (asked : Option Int) (dropped : Prop) (a : Agenda τ) : Prop where
  held : t ∈ a.wheel.timers
  asked : a.resetOf t.id = asked
  dropped : t.id ∈ a.cancels ↔ dropped

/-- The due time that is noted after some moves, if `asked` was noted before them. -/
def lastAsked (id : TimerId) : Option Int → List (Move τ) → Option Int
  | asked, [] => asked
  | asked, m :: later => lastAsked id ((m.target? id).or asked) later

section

variable {grain wide ahead : Nat} {now : Int} {t : Timer τ} {asked : Option Int} {dropped : Prop}
  {a : Agenda τ}

/-- Until its tick a timer is held as it is, and requests about it are noted. -/
theorem holds_move (h : a.InStep grain wide ahead now (· = t)) (hheld : a.Holds t asked dropped)
    {m : Move τ} (hm : m.At now ∨ m = .tick (now + grain))
    (hspecs : Wheel.specsOf (a.move m).wheel.levels = Wheel.specsOf a.wheel.levels)
    (hearly : m = .tick (now + grain) → now + grain + grain ≤ t.due) :
    (a.move m).InStep grain wide ahead (m.readingFrom now) (· = t) ∧
      (a.move m).Holds t ((m.target? t.id).or asked) (dropped ∨ m = .cancel t.id) ∧
        (a.answers m).count t.id = 0 := by
  have hb := h.balanced
  obtain ⟨ht, rfl, hdropped⟩ := hheld
  have hlive := hb.mem_live_iff.2 ⟨t, Or.inr ht, rfl⟩
  rcases hm with hat | rfl
  · have hm := not_tick_of_at hat
    have hanswers : a.answers m = [] := by
      cases m with
      | tick now' => exact hat.elim
      | _ => rfl
    rw [readingFrom_of_at hat, hanswers]
    refine ⟨inStep_move h hat hspecs ?_,
      ⟨timers_subset_move hb hm ht, resetOf_move hlive hm, ?_⟩, rfl⟩
    · -- A timer that is registered now has a handle of its own.
      rintro due interval task rfl - rfl
      exact absurd hlive hb.nextId_fresh
    · rw [mem_cancels_move hlive hm, hdropped]
  · have hstays : t ∈ a.unreached (now + grain) := by
      refine ((mem_timers_iff_yielded hb _).1 ht).resolve_left fun hyielded => ?_
      exact absurd ((mem_yielded_iff h ht rfl).1 hyielded) (Int.not_lt.2 (hearly rfl))
    obtain ⟨hheld, hasked, hnoted, hcount⟩ := stays_tick hb hstays
    refine ⟨inStep_tick h h.near_fits (fun _ _ hnear => hnear) ?_, ⟨hheld, hasked, ?_⟩, hcount⟩
    · rintro u hu v hout rfl
      exact absurd (Verdict.id_of_outcome hout).symm (id_ne_of_unreached hb _ hu hstays)
    · exact hnoted.trans (hdropped.trans (or_iff_left (by simp)).symm)

/-- On its tick a timer that is to have another due time gets it, and does not fire. -/
theorem holds_tick_of_asked (h : Balanced [] a) {due : Int} (hheld : a.Holds t (some due) dropped)
    (ht : t ∈ a.yielded now) :
    (a.tick now).2.Holds (t.reset due) none dropped ∧
      ((a.tick now).1.map (·.id)).count t.id = 0 := by
  obtain ⟨hback, hnone, hnoted, hcount⟩ := moved_tick h ht hheld.asked
  exact ⟨⟨hback, hnone, hnoted.trans hheld.dropped⟩, hcount⟩

/-- On its tick a timer that is only to be dropped goes, and does not fire. -/
theorem gone_tick_of_dropped (h : Balanced [] a) (hheld : a.Holds t none dropped)
    (hdropped : dropped) (ht : t ∈ a.yielded now) :
    Gone t.id (a.tick now).2 ∧ ((a.tick now).1.map (·.id)).count t.id = 0 := by
  have hdoomed : Doomed t.id a := ⟨yielded_live h now ht, hheld.dropped.2 hdropped⟩
  exact ⟨gone_tick_of_doomed h now hdoomed ht rfl hheld.asked,
    List.count_eq_zero.2 (not_fired_of_doomed h now hdoomed)⟩

end

end Agenda

/-! ### Runs -/

namespace History

/-- After any moves with ticks at an even pace, a timer that was near at its last entry is in
step. -/
theorem inStep_after {grain wide ahead : Nat} {now : Int} {id : TimerId} {last : Option Int}
    {h : History τ} {moves : List (Agenda.Move τ)}
    (hstep : h.agenda.InStep grain wide ahead now (Agenda.EnteredNear id wide ahead last))
    (hpaced : Agenda.Paced grain now moves)
    (hspecs : Wheel.specsOf (h.after moves).agenda.wheel.levels =
      Wheel.specsOf h.agenda.wheel.levels) :
    (h.after moves).agenda.InStep grain wide ahead (now + Agenda.ticksIn moves * grain)
      (Agenda.EnteredNear id wide ahead (Agenda.lastEntry id h.agenda last moves)) := by
  induction moves generalizing h now last with
  | nil => simpa [after, Agenda.lastEntry, Agenda.ticksIn] using hstep
  | cons m moves ih =>
    obtain ⟨hfirst, hrest⟩ := specs_after_cons hspecs
    have hmoved := ih (h := h.move m) (Agenda.inStep_entry hstep hpaced.1 hfirst) hpaced.2 hrest
    rwa [Agenda.readingFrom_add hpaced.1] at hmoved

/-- A timer is held as it is through all ticks that are early enough, and requests about it are
noted meanwhile. -/
theorem holds_after {grain wide ahead : Nat} {now : Int} {t : Timer τ} {asked : Option Int}
    {dropped : Prop} {h : History τ} {moves : List (Agenda.Move τ)}
    (hstep : h.agenda.InStep grain wide ahead now (· = t)) (hheld : h.agenda.Holds t asked dropped)
    (hpaced : Agenda.Paced grain now moves)
    (hspecs : Wheel.specsOf (h.after moves).agenda.wheel.levels =
      Wheel.specsOf h.agenda.wheel.levels)
    (hearly : Agenda.ticksIn moves = 0 ∨
      now + (Agenda.ticksIn moves + 1 : Nat) * grain ≤ t.due) :
    (h.after moves).agenda.InStep grain wide ahead (now + Agenda.ticksIn moves * grain) (· = t) ∧
      (h.after moves).agenda.Holds t (Agenda.lastAsked t.id asked moves)
        (dropped ∨ .cancel t.id ∈ moves) ∧
      (h.after moves).fired.count t.id = h.fired.count t.id := by
  induction moves generalizing h now asked dropped with
  | nil => simpa [after, Agenda.lastAsked, Agenda.ticksIn] using ⟨hstep, hheld⟩
  | cons m moves ih =>
    obtain ⟨hfirst, hrest⟩ := specs_after_cons hspecs
    have htick : m = .tick (now + grain) → now + grain + grain ≤ t.due ∧
        now + grain + (Agenda.ticksIn moves + 1 : Nat) * grain ≤ t.due := by
      rintro rfl
      have hbound := hearly.resolve_left (Nat.succ_ne_zero _)
      have hsplit : ((Agenda.ticksIn (.tick (now + grain) :: moves) + 1 : Nat) : Int) * grain =
          grain + grain + (Agenda.ticksIn moves * grain : Nat) := by
        show ((Agenda.ticksIn moves + 1 + 1 : Nat) : Int) * grain = _
        push_cast
        ring
      have hlater : ((Agenda.ticksIn moves + 1 : Nat) : Int) * grain =
          grain + (Agenda.ticksIn moves * grain : Nat) := by
        push_cast
        ring
      omega
    obtain ⟨hnext, hheld, hcount⟩ :=
      Agenda.holds_move hstep hheld hpaced.1 hfirst fun heq => (htick heq).1
    have hlater : Agenda.ticksIn moves = 0 ∨
        m.readingFrom now + (Agenda.ticksIn moves + 1 : Nat) * grain ≤ t.due := by
      rcases hpaced.1 with hat | rfl
      · rw [Agenda.ticksIn_cons_of_at hat] at hearly
        rwa [Agenda.readingFrom_of_at hat]
      · exact Or.inr (htick rfl).2
    obtain ⟨hstep, hheld, hfired⟩ := ih (h := h.move m) hnext hheld hpaced.2 hrest hlater
    rw [Agenda.readingFrom_add hpaced.1] at hstep
    refine ⟨hstep, ?_, ?_⟩
    · rw [Agenda.lastAsked, List.mem_cons, ← or_assoc, eq_comm (b := m)]
      exact hheld
    · refine hfired.trans ?_
      rw [move, List.count_append, hcount, Nat.add_zero]

/-- On its tick a timer that is to have another due time gets it, and if it is not to be dropped
and nothing more is asked about it, it fires from then on as a timer that was due then. One that is
only to be dropped goes. Neither fires on this tick. -/
theorem applied_on_tick {grain wide ahead : Nat} {now now' : Int} {t : Timer τ}
    {asked : Option Int} {dropped : Prop} {h : History τ} {later : List (Agenda.Move τ)}
    (hstep : h.agenda.InStep grain wide ahead now (· = t)) (hontime : h.agenda.OnTime grain now)
    (hheld : h.agenda.Holds t asked dropped) (hlate : t.due < now + grain + grain)
    (hpaced : Agenda.Paced grain now (.tick now' :: later))
    (hspecs : Wheel.specsOf (h.after (.tick now' :: later)).agenda.wheel.levels =
      Wheel.specsOf h.agenda.wheel.levels) :
    (∀ due, asked = some due →
      (h.agenda.tick now').2.Holds (t.reset due) none dropped ∧
      ((h.agenda.tick now').1.map (·.id)).count t.id = 0 ∧
      (¬dropped → (∀ m ∈ later, ¬m.AsksAbout t.id) →
        answered t.id (h.move (.tick now')) later =
          Plan.firings (some ⟨due, t.interval⟩) (later.filterMap Agenda.Move.reading?))) ∧
    (asked = none → dropped →
      (h.agenda.tick now').2.Gone t.id ∧
        ((h.agenda.tick now').1.map (·.id)).count t.id = 0) := by
  obtain ⟨hm, hpacedLater⟩ := hpaced
  obtain rfl : now' = now + grain := Agenda.Move.tick.inj (hm.resolve_left fun hat => hat)
  have hyielded := (Agenda.mem_yielded_iff hstep hheld.held rfl).2 hlate
  have hb := hstep.balanced
  constructor
  · rintro due rfl
    obtain ⟨hback, hcount⟩ := Agenda.holds_tick_of_asked hb hheld hyielded
    refine ⟨hback, hcount, fun hkept hunasked => ?_⟩
    have hpursues : (h.agenda.tick (now + grain)).2.Pursues t.id (some ⟨due, t.interval⟩) :=
      ⟨⟨t.reset due, hback.held, rfl, rfl⟩, hback.asked, mt hback.dropped.1 hkept⟩
    have hnext := Agenda.onTime_tick hontime hstep.least_le_add (Int.le_refl _)
    exact answered_eq_firings (h := h.move (.tick (now + grain))) hnext hpursues hpacedLater
      (Int.natCast_nonneg grain) (Int.le_refl _) hunasked (specs_after_cons hspecs).2
  · rintro rfl hdropped
    exact Agenda.gone_tick_of_dropped hb hheld hdropped hyielded

end History

end TimingWheel
