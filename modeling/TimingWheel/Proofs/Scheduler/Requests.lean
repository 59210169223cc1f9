import TimingWheel.Proofs.Agenda.Exactness
import TimingWheel.Proofs.Scheduler.Clockwork

/-!
# When requests take effect

Requests are only noted when they are made, and they take effect when the wheel yields their
timer. In a matched wheel, with a stride as long as the slots of the finest level are wide, this
tick can be told beforehand: it is the one in whose slot the due time falls, or the next tick if
that one is over. Up to it the timer does not fire and stays where it is; on it the due time that
was last asked for is applied, or the timer goes.

## Main definitions

- `Scheduler.slotTick` — the tick on which a timer comes out, counted from the start

## Main statements

- `Scheduler.paced_movesAlong` — the moves that a run amounts to
- `Scheduler.requests_take_effect` — on which tick requests take effect, and what they lead to
-/

namespace TimingWheel.Scheduler

variable {τ : Type}

/-! ### The pace of a run -/

section

variable {grain : Nat} {step now : Int} {s : Scheduler τ}

theorem paced_movesOf (wall : Int) (op : Operation τ) (h : s.Punctual grain step now)
    (hspecs : Wheel.specsOf (s.act wall (.call op)).2.agenda.wheel.levels =
      Wheel.specsOf s.agenda.wheel.levels)
    (hfits : Time.Fits (now + (s.act wall (.call op)).1.length * step)) :
    Agenda.Paced step now (s.movesOf wall (.call op)) := by
  have hstride : (s.act wall (.call op)).2.stride = step :=
    (stride_congr (tickInterval_act wall s _) hspecs).trans h.stride_eq
  exact (clocked_act wall op h.clocked (fun _ => hstride) hfits).2.2

/-- Where callers make the ticks, a run amounts to moves with ticks at an even pace. -/
theorem paced_movesAlong (ops : List (Int × Operation τ)) (h : s.Punctual grain step now)
    (hspecs : Wheel.specsOf (s.follow (calls ops)).2.agenda.wheel.levels =
      Wheel.specsOf s.agenda.wheel.levels)
    (hfits : Time.Fits (now + (s.follow (calls ops)).1.length * step)) :
    Agenda.Paced step now (s.movesAlong (calls ops)) := by
  have hstride : (s.follow (calls ops)).2.stride = step :=
    (stride_congr (tickInterval_follow s _) hspecs).trans h.stride_eq
  exact (clocked_follow ops h.clocked hstride hfits).2.2

end

/-! ### Requests -/

/-- The tick, counted from `start`, on which a timer comes out that is due at `due`, if `ticks`
ticks have been made. -/
def slotTick (start : Int) (grain ticks : Nat) (due : Int) : Nat :=
  max (ticks + 1) ((due - start) / grain).toNat

section

variable {start due : Int} {grain ticks : Nat}

/-- Before that tick, the next one comes early enough. -/
theorem le_due_of_lt_slotTick (hgrain : 0 < grain) {n : Nat} (hn : 0 < n)
    (h : ticks + n < slotTick start grain ticks due) :
    start + (ticks * grain : Nat) + (n + 1 : Nat) * grain ≤ due := by
  have hlt : ticks + n < ((due - start) / grain).toNat := by
    rw [slotTick] at h
    omega
  have hle : ((ticks + n + 1 : Nat) : Int) ≤ (due - start) / grain := by omega
  rw [Int.le_ediv_iff_mul_le (Int.natCast_pos.2 hgrain)] at hle
  have hsplit : ((ticks + n + 1 : Nat) : Int) * grain =
      (ticks * grain : Nat) + (n + 1 : Nat) * grain := by
    push_cast
    ring
  omega

/-- On that tick, the next one comes too late. -/
theorem due_lt_of_eq_slotTick (hgrain : 0 < grain) {n : Nat}
    (h : n + 1 = slotTick start grain ticks due) :
    due < start + (n * grain : Nat) + grain + grain := by
  have hle : (due - start) / grain ≤ (n + 1 : Nat) := by
    rw [slotTick] at h
    omega
  have hlt := Int.lt_ediv_add_one_mul_self (due - start) (Int.natCast_pos.2 hgrain)
  have hmul : ((due - start) / grain + 1) * grain ≤ ((n + 1 : Nat) + 1) * grain :=
    Int.mul_le_mul_of_nonneg_right (by omega) (Int.natCast_nonneg grain)
  have hsplit : (((n + 1 : Nat) : Int) + 1) * grain = (n * grain : Nat) + grain + grain := by
    push_cast
    ring
  omega

end

/-- A matched wheel covers a whole turn of its coarsest level. -/
theorem covers_of_matched {a : Agenda τ} (h : a.Balanced []) {coarse fine : Level τ}
    (hmatched : LevelSpec.Matched (Wheel.specsOf a.wheel.levels))
    (hcoarse : a.wheel.levels.head? = some coarse) (hfine : a.wheel.finest? = some fine)
    (hrange : (((coarse.slotCount + 1) * coarse.width : Nat) : Int) ≤ Time.greatest) :
    LevelSpec.Covers fine.width coarse.width (coarse.slotCount * coarse.width)
      (Wheel.specsOf a.wheel.levels) := by
  refine LevelSpec.covers_of_matched h.settled.valid hmatched ?_ ?_ hrange
  · rw [Wheel.specsOf, List.head?_map, hcoarse]
    rfl
  · rw [Wheel.getLast?_specsOf, hfine]
    rfl

/-- Suppose a scheduler whose clock is moved by hand has accepted no timer yet, its wheel is
matched (with widths that are words of 32 bits) and has room for a turn and one slot more of its
coarsest level in the range of times, a stride is as long as the slots of the finest level are
wide, and no level is added any more. Take any run in which the clock is not carried round, cut it
after some moves, and take a timer that is held then and was due no more than a turn of the
coarsest level after its last entry. Cut the run again anywhere before the tick on which this timer
comes out. In between
* the timer is held as it is and does not fire, and the requests about it are noted.
If the run goes on with that tick,
* the tick comes at its place in the row of ticks;
* if a due time was asked for, the timer gets the one that was asked for last and does not fire,
  no reset of it is noted any more, and it is to be dropped if it was to be dropped before; if it
  is not, and nothing more is asked about it, it fires from then on as a timer that was due then;
* if it was only to be dropped, it goes and does not fire. -/
theorem requests_take_effect {s : Scheduler τ} {ops : List (Int × Operation τ)}
    {before between later : List (Agenda.Move τ)} {h g : History τ} {start entry : Int}
    {coarse fine : Level τ} {t : Timer τ} (hs : s.Reachable) (hclock : s.clock = .manual start)
    (hnew : s.agenda.nextId = 1)
    (hmatched : LevelSpec.Matched (Wheel.specsOf s.agenda.wheel.levels))
    (hwords : ∀ spec ∈ Wheel.specsOf s.agenda.wheel.levels, spec.width < 4294967296)
    (hcoarse : s.agenda.wheel.levels.head? = some coarse)
    (hfine : s.agenda.wheel.finest? = some fine) (hstep : s.stride = fine.width)
    (hrange : (((coarse.slotCount + 1) * coarse.width : Nat) : Int) ≤ Time.greatest)
    (hspecs : Wheel.specsOf (s.follow (calls ops)).2.agenda.wheel.levels =
      Wheel.specsOf s.agenda.wheel.levels)
    (hstart : Time.Fits start)
    (hfits : Time.Fits (start + (s.follow (calls ops)).1.length * s.stride))
    (hmoves : s.movesAlong (calls ops) = before ++ (between ++ later))
    (hbefore : ({ agenda := s.agenda } : History τ).after before = h)
    (ht : t ∈ h.agenda.wheel.timers)
    (hentry : Agenda.lastEntry t.id s.agenda none before = some entry)
    (hnear : t.due ≤ entry + (coarse.slotCount * coarse.width : Nat))
    (hdue : t.due + coarse.width ≤ Time.greatest) (hbetween : h.after between = g)
    (hearly : Agenda.ticksIn before + Agenda.ticksIn between <
      slotTick start fine.width (Agenda.ticksIn before) t.due) :
    let asked := Agenda.lastAsked t.id (h.agenda.resetOf t.id) between
    let dropped := t.id ∈ h.agenda.cancels ∨ .cancel t.id ∈ between
    let tick := slotTick start fine.width (Agenda.ticksIn before) t.due
    g.agenda.Holds t asked dropped ∧ g.fired.count t.id = h.fired.count t.id ∧
    ∀ now rest, later = .tick now :: rest →
      Agenda.ticksIn before + Agenda.ticksIn between + 1 = tick →
      now = start + (tick * fine.width : Nat) ∧
      (∀ due, asked = some due →
        (g.agenda.tick now).2.Holds (t.reset due) none dropped ∧
        ((g.agenda.tick now).1.map (·.id)).count t.id = 0 ∧
        (¬dropped → (∀ m ∈ rest, ¬m.AsksAbout t.id) →
          History.answered t.id (g.move (.tick now)) rest =
            Plan.firings (some ⟨due, t.interval⟩) (rest.filterMap Agenda.Move.reading?))) ∧
      (asked = none → dropped →
        (g.agenda.tick now).2.Gone t.id ∧ ((g.agenda.tick now).1.map (·.id)).count t.id = 0) := by
  intro asked dropped tick
  have hb := hs.balanced
  have hpunctual := punctual_of_new hb hclock hstart hnew (LevelSpec.nested_of_matched hmatched)
    hwords hfine (Int.le_of_eq hstep)
  have hpaced := paced_movesAlong ops hpunctual hspecs hfits
  rw [hmoves, hstep, Agenda.paced_append, Agenda.paced_append] at hpaced
  obtain ⟨hpacedBefore, hpacedBetween, hpacedLater⟩ := hpaced
  have hgrain : 0 < fine.width := (hb.settled fine (List.mem_of_getLast? hfine)).valid.2
  -- No level is added on the way.
  rw [← (explained_follow s (calls ops)).agenda { agenda := s.agenda } rfl, hmoves] at hspecs
  obtain ⟨hspecsBefore, hspecs⟩ := History.specs_after_append hspecs
  rw [hbefore] at hspecs
  obtain ⟨hspecsBetween, hspecsLater⟩ := History.specs_after_append hspecs
  rw [hbetween] at hspecsLater
  -- At the first cut the timer is in step, and so it is at the second one.
  let ahead := coarse.slotCount * coarse.width
  have hfirst : ({ agenda := s.agenda } : History τ).agenda.InStep fine.width coarse.width
      ahead start (Agenda.EnteredNear t.id coarse.width ahead none) :=
    Agenda.inStep_of_no_timer hb (covers_of_matched hb hmatched hcoarse hfine hrange) hstart.1
      (fun u hu => hu.fits) hnew
  have hentered := History.inStep_after hfirst hpacedBefore hspecsBefore
  rw [hbefore, hentry] at hentered
  have hcut : h.agenda.InStep _ _ _ _ (· = t) := hentered.mono (fun u hu => hu ▸ hdue) (by
    rintro u - rfl
    exact ⟨rfl, hdue, entry, rfl, hnear⟩)
  obtain ⟨hstep', hheld, hcount⟩ := History.holds_after hcut ⟨ht, rfl, Iff.rfl⟩ hpacedBetween
    hspecsBetween (by
      rcases Nat.eq_zero_or_pos (Agenda.ticksIn between) with hzero | hpos
      · exact Or.inl hzero
      · exact Or.inr (by exact_mod_cast le_due_of_lt_slotTick hgrain hpos hearly))
  rw [hbetween] at hstep' hheld hcount
  refine ⟨hheld, hcount, ?_⟩
  rintro now rest rfl hlast
  have hontime := History.onTime_of_paced (h := { agenda := s.agenda }) hpunctual.ontime
    hpacedBefore (Int.natCast_nonneg _) (Int.le_refl _) hspecsBefore
  rw [hbefore] at hontime
  have hontime' := History.onTime_of_paced hontime hpacedBetween (Int.natCast_nonneg _)
    (Int.le_refl _) hspecsBetween
  rw [hbetween] at hontime'
  have hlate := due_lt_of_eq_slotTick hgrain hlast
  push_cast [Nat.add_mul] at hlate
  refine ⟨?_, History.applied_on_tick hstep' hontime' hheld (by omega) hpacedLater hspecsLater⟩
  rw [Agenda.Move.tick.inj (hpacedLater.1.resolve_left fun hat => hat)]
  show _ = start + (tick * fine.width : Nat)
  rw [← hlast]
  push_cast
  ring

/-- With two levels, and a timer that repeats every 25 milliseconds while ticks are 5 milliseconds
apart. After one tick it is asked to be moved twice. The fifth tick, at 25, does not fire it but
applies the second of these requests, and then it fires at 45, as if it was due at 41. -/
theorem requests_take_effect_moved_twice : ∃ g : History Unit,
    ((g.agenda.tick 25).1.map (·.id)).count ⟨1⟩ = 0 ∧
      History.answered ⟨1⟩ (g.move (.tick 25)) [.tick 30, .tick 35, .tick 40, .tick 45, .tick 50] =
        [0, 0, 0, 1, 0] := by
  have hs := @Reachable.create Unit .offline
    { levels := [⟨3, 10, "coarse"⟩, ⟨2, 5, "fine"⟩], start := some 0 } _ rfl
  have heffect := @requests_take_effect Unit _
    [(0, .createEvery 25 none), (0, .start), (0, .tick), (0, .resetAt ⟨1⟩ 50), (0, .resetAt ⟨1⟩ 41),
      (0, .advanceTicks 9)]
    [.register 25 25 none 0, .start, .tick 5]
    [.reset ⟨1⟩ 50, .reset ⟨1⟩ 41, .tick 10, .tick 15, .tick 20]
    [.tick 25, .tick 30, .tick 35, .tick 40, .tick 45, .tick 50]
    _ _ 0 0 _ _ ⟨⟨1⟩, 25, 25, none⟩ hs rfl rfl ⟨rfl, trivial⟩ (by decide) rfl rfl
    (by decide) (by decide) rfl (by decide) (by decide) (by decide) rfl (by decide) rfl (by decide)
    (by decide) rfl (by decide)
  obtain ⟨-, hmoved, -⟩ := heffect.2.2 25 _ rfl (by decide)
  obtain ⟨-, hcount, hanswered⟩ := hmoved 41 rfl
  exact ⟨_, hcount, (hanswered (by decide) (by simp [Agenda.Move.AsksAbout])).trans (by decide)⟩

end TimingWheel.Scheduler
