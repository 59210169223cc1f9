import TimingWheel.Proofs.Agenda.Delay
import TimingWheel.Proofs.Scheduler.Clockwork
import TimingWheel.Proofs.Scheduler.Guarantees
import TimingWheel.Proofs.Scheduler.Progress

/-!
# Timers that are registered while levels are still to be appended

Timers are accepted as soon as there is one level, and further levels may be appended until the
start. A timer that is already there keeps its slot, which is a slot of what was the finest level
then. So it does not come out before all levels that were appended after it have made one turn
together. A timer that is due later than that loses nothing by it. One that is due sooner fires at
the end of that turn, where it would have fired sooner had the levels been appended first.

## Main statements

- `Scheduler.laying_split` — the moves of a run, cut where the last level is appended
- `Scheduler.bides_perform`, `Scheduler.bides_follow` — how many ticks a timer bides at first, and
  how many where it is cut
- `Scheduler.registered_while_laying` — when a timer fires that was registered before the last
  levels were appended
-/

namespace TimingWheel

/-- A plan gives no firing before its due time. -/
theorem Plan.firings_append_of_lt {p : Plan} {early : List Int} (h : ∀ now ∈ early, now < p.due)
    (later : List Int) :
    firings (some p) (early ++ later) =
      List.replicate early.length 0 ++ firings (some p) later := by
  induction early with
  | nil => rfl
  | cons now early ih =>
    obtain ⟨hnow, hearly⟩ := List.forall_mem_cons.1 h
    rw [List.cons_append, firings_of_lt hnow, ih hearly]
    rfl

namespace Scheduler

variable {τ : Type}

/-- The moves of a run begin with those up to the last level, among which there is no tick. -/
theorem laying_split (s : Scheduler τ) (run : List (Int × Action τ)) :
    ∃ laying ticking, s.movesAlong run = laying ++ ticking ∧ (∀ m ∈ laying, ∀ now, m ≠ .tick now) ∧
      ∀ h : History τ, h.agenda = s.agenda →
        Wheel.specsOf (h.after laying).agenda.wheel.levels =
          Wheel.specsOf (s.follow run).2.agenda.wheel.levels := by
  induction run generalizing s with
  | nil =>
    refine ⟨[], [], rfl, fun m hm => absurd hm List.not_mem_nil, fun h hs => ?_⟩
    show Wheel.specsOf h.agenda.wheel.levels = Wheel.specsOf s.agenda.wheel.levels
    rw [hs]
  | cons step rest ih =>
    obtain ⟨wall, action⟩ := step
    by_cases hphase : s.phase = .running ∨ s.phase = .stopped
    · -- All levels are there already.
      refine ⟨[], s.movesAlong ((wall, action) :: rest), rfl,
        fun m hm => absurd hm List.not_mem_nil, fun h hs => ?_⟩
      rw [specs_follow_of_started hphase, ← hs]
      rfl
    · rw [not_or] at hphase
      obtain ⟨laying, ticking, hmoves, hlaying, hspecs⟩ := ih (s.act wall action).2
      refine ⟨s.movesOf wall action ++ laying, ticking, ?_, List.forall_mem_append.2 ⟨?_, hlaying⟩,
        fun h hs => ?_⟩
      · rw [movesAlong, hmoves, List.append_assoc]
      · exact not_tick_of_no_beat (no_beat_of_not_running hphase.1 wall action)
      · rw [History.after_append]
        exact hspecs _ ((explained_act wall s action).agenda h hs)

theorem readings_take_le {step : Int} (hnonneg : 0 ≤ step) (start : Int) (m n : Nat) :
    ∀ now ∈ (readings start step n).take m, now ≤ start + m * step := by
  intro now hnow
  obtain ⟨k, hk, rfl⟩ := List.mem_take_iff_getElem.1 hnow
  have hkm : k + 1 ≤ m := by omega
  have hle : ((k + 1 : Nat) : Int) * step ≤ m * step :=
    Int.mul_le_mul_of_nonneg_right (Int.ofNat_le.2 hkm) hnonneg
  simp only [readings, List.getElem_map, List.getElem_range]
  omega

/-- A registration before the start is accepted, and the timer bides one tick of the levels that are
there. -/
theorem bides_perform {s s' : Scheduler τ} {op : Operation τ} {wall : Int} {id : TimerId}
    {plan : Plan} {start : Int} {fine : LevelSpec} (hb : s.agenda.Balanced [])
    (hclock : s.clock = .manual start) (hphase : s.phase = .configured)
    (hplan : op.plan? (s.now wall) = some plan) (hop : s.perform wall op = (.registered id, s'))
    (hnested : LevelSpec.Nested (Wheel.specsOf s.agenda.wheel.levels))
    (hwords : ∀ spec ∈ Wheel.specsOf s.agenda.wheel.levels, spec.width < 4294967296)
    (hfine : (Wheel.specsOf s.agenda.wheel.levels).getLast? = some fine)
    (hleast : Time.least ≤ start) :
    s'.agenda.Bides fine.width 1 start id plan ∧ s'.clock = .manual start ∧
      s'.phase = .configured ∧
        Wheel.specsOf s'.agenda.wheel.levels = Wheel.specsOf s.agenda.wheel.levels := by
  have hnow : s.now wall = start := by
    rw [now, hclock]
    rfl
  obtain ⟨id', hreply, hvalid, -⟩ := registered_of_plan hb hplan
  obtain rfl : id' = id := Reply.registered.inj (hreply.symm.trans (congrArg Prod.fst hop))
  obtain ⟨haccepts, rfl, hticks, due, interval, task, rfl, hagenda⟩ :=
    registers_of_plan hplan (hvalid.2 (Or.inl hphase)) (congrArg Prod.fst hop)
  obtain ⟨-, hsameClock, -, -⟩ := between_of_not_ticks hticks wall s
  rw [hop] at hagenda hsameClock
  rw [hnow] at hagenda
  have hgeared := LevelSpec.geared_of_nested hb.settled.valid hnested hwords hfine
  have hgrain : 1 ≤ fine.width := (hb.settled.valid _ (List.mem_of_getLast? hfine)).2
  refine ⟨?_, hsameClock.trans hclock, ?_, ?_⟩
  · rw [hagenda]
    exact Agenda.bides_register hb hgeared hgrain haccepts hleast due interval task
  · show s'.agenda.phase = _
    rw [hagenda, Agenda.move, Agenda.register_of_accepts haccepts]
    exact hphase
  · rw [hagenda]
    exact Agenda.specs_move fun spec heq => by cases heq

/-- Of a run after which the levels `rest` stand below those that were there, the moves up to the
last of these make no tick, and they leave the timer biding a turn of `rest`. -/
theorem bides_follow {s s' : Scheduler τ} {run : List (Int × Action τ)} {beats : List Beat}
    {rest : List LevelSpec} {id : TimerId} {plan : Plan} {now : Int} {fine fine' : LevelSpec}
    (hbides : s.agenda.Bides fine.width 1 now id plan)
    (hfine : (Wheel.specsOf s.agenda.wheel.levels).getLast? = some fine)
    (hrun : s.follow run = (beats, s')) (hunasked : ∀ step ∈ run, ¬step.2.AsksAbout id)
    (hrest : Wheel.specsOf s'.agenda.wheel.levels = Wheel.specsOf s.agenda.wheel.levels ++ rest)
    (hnested : LevelSpec.Nested (Wheel.specsOf s'.agenda.wheel.levels))
    (hwords : ∀ spec ∈ Wheel.specsOf s'.agenda.wheel.levels, spec.width < 4294967296)
    (hfine' : (Wheel.specsOf s'.agenda.wheel.levels).getLast? = some fine') :
    let h : History τ := { agenda := s.agenda }
    ∃ laying ticking, s.movesAlong run = laying ++ ticking ∧
      (∀ m ∈ laying, ∀ now, m ≠ .tick now) ∧ (∀ m ∈ ticking, ¬m.AsksAbout id) ∧
        (h.after laying).agenda.Bides fine'.width (LevelSpec.turnTicks rest) now id plan ∧
          Wheel.specsOf (h.after laying).agenda.wheel.levels =
            Wheel.specsOf s'.agenda.wheel.levels := by
  intro h
  obtain ⟨laying, ticking, hmoves, hlaying, hlaid⟩ := laying_split s run
  replace hlaid := hlaid h rfl
  rw [hrun] at hlaid
  have hunaskedMoves : ∀ m ∈ laying ++ ticking, ¬m.AsksAbout id := by
    intro m hm hasks
    obtain ⟨step, hmem, hid⟩ := asksAbout_of_movesAlong (hmoves ▸ hm) hasks
    exact hunasked step hmem hid
  obtain ⟨hunaskedLaying, hunaskedTicking⟩ := List.forall_mem_append.1 hunaskedMoves
  obtain ⟨late, hlate, hscale⟩ := History.bides_after_laying hbides hfine
    (fun m hm => ⟨hlaying m hm, hunaskedLaying m hm⟩) (hlaid ▸ hfine') (hlaid ▸ hnested)
    (hlaid ▸ hwords)
  -- The turn of all levels is the turn of the first ones as often as the turn of `rest`.
  have hturn : late = LevelSpec.turnTicks rest := by
    have hpos := Wheel.turnOf_pos hbides.balanced.settled.wellFormed
    rw [Nat.one_mul, Wheel.turnOf, Wheel.turnOf, hlaid, hrest, LevelSpec.turnTicks_append,
      Nat.mul_comm] at hscale
    exact Nat.eq_of_mul_eq_mul_left hpos hscale
  exact ⟨laying, ticking, hmoves, hlaying, hunaskedTicking, hturn ▸ hlate, hlaid⟩

/-- Suppose a timer is registered before the start in a scheduler whose clock is moved by hand, and
`rest` are the levels that are appended after it. The levels are nested in the end (with widths
that are words of 32 bits), a stride is no longer than the slots of the finest level are wide,
nothing is asked about the timer and the clock is not carried round. Then
* the readings of the ticks are one stride apart;
* all ticks but the last one of the first turn of `rest` leave the timer where it is, and from then
  on it fires as its plan says;
* if it is due later than these ticks, it fires on all ticks as its plan says, as it does where all
  levels are appended before it. -/
theorem registered_while_laying {s₁ s₂ s₃ : Scheduler τ} {later : List Beat}
    {after : List (Int × Operation τ)} {rest : List LevelSpec} {op : Operation τ} {wall : Int}
    {id : TimerId} {plan : Plan} {start : Int} {fine : Level τ} (hs : s₁.Reachable)
    (hclock : s₁.clock = .manual start) (hphase : s₁.phase = .configured)
    (hplan : op.plan? (s₁.now wall) = some plan)
    (hop : s₁.perform wall op = (.registered id, s₂))
    (hafter : s₂.follow (calls after) = (later, s₃)) (hunasked : ∀ p ∈ after, ¬p.2.AsksAbout id)
    (hrest : Wheel.specsOf s₃.agenda.wheel.levels = Wheel.specsOf s₁.agenda.wheel.levels ++ rest)
    (hnested : LevelSpec.Nested (Wheel.specsOf s₃.agenda.wheel.levels))
    (hwords : ∀ spec ∈ Wheel.specsOf s₃.agenda.wheel.levels, spec.width < 4294967296)
    (hfine : s₃.agenda.wheel.finest? = some fine) (hstep : s₃.stride ≤ fine.width)
    (hstart : Time.Fits start) (hfits : Time.Fits (start + later.length * s₃.stride)) :
    let skipped := LevelSpec.turnTicks rest - 1
    later.map Beat.reading = readings start s₃.stride later.length ∧
    later.map (·.fired.count id) = List.replicate (min skipped later.length) 0 ++
      Plan.firings (some plan) ((later.map Beat.reading).drop skipped) ∧
    (start + skipped * s₃.stride < plan.due →
      later.map (·.fired.count id) = Plan.firings (some plan) (later.map Beat.reading)) := by
  intro skipped
  have hb := hs.balanced
  -- At first the timer bides one tick of the levels that are there.
  have hbelow : Wheel.specsOf s₁.agenda.wheel.levels <+: Wheel.specsOf s₃.agenda.wheel.levels :=
    hrest ▸ List.prefix_append _ _
  obtain ⟨fine₁, hfine₁⟩ : ∃ fine₁,
      (Wheel.specsOf s₁.agenda.wheel.levels).getLast? = some fine₁ := by
    refine ⟨_, List.getLast?_eq_some_getLast fun hnil => ?_⟩
    exact hs.orderly.levels_iff.2 (by simp [hphase]) (List.map_eq_nil_iff.1 hnil)
  obtain ⟨hbides, hclock₂, hphase₂, hspecs₂⟩ := bides_perform hb hclock hphase hplan hop
    (LevelSpec.nested_of_prefix hbelow hnested)
    (fun spec hspec => hwords spec (hbelow.subset hspec)) hfine₁ hstart.1
  -- Where the last level is appended, it bides a whole turn of `rest`.
  have hunaskedRun : ∀ step ∈ calls after, ¬step.2.AsksAbout id := by
    intro step hmem
    obtain ⟨p, hp, rfl⟩ := List.mem_map.1 hmem
    exact hunasked p hp
  have hlast : (Wheel.specsOf s₃.agenda.wheel.levels).getLast? = some fine.toLevelSpec := by
    rw [Wheel.getLast?_specsOf, hfine]
    rfl
  obtain ⟨laying, ticking, hmoves, hlaying, hunaskedTicking, hlate, hlaid⟩ :=
    bides_follow hbides (hspecs₂ ▸ hfine₁) hafter hunaskedRun (hspecs₂ ▸ hrest) hnested hwords hlast
  have hone : LevelSpec.turnTicks rest = skipped + 1 := by
    have hpos : 0 < LevelSpec.turnTicks rest := LevelSpec.turnTicks_pos fun spec hspec =>
      hlate.balanced.settled.valid spec (hlaid ▸ hrest ▸ List.mem_append_right _ hspec)
    omega
  -- The ticks come one stride apart.
  have hclocked : s₂.Clocked s₃.stride start := by
    refine ⟨hclock₂, fun hrunning => ?_, Int.le_max_right _ _, hstart.1⟩
    rw [hphase₂] at hrunning
    cases hrunning
  obtain ⟨-, hreadings, hpaced⟩ := clocked_follow after hclocked (by rw [hafter]) (by rwa [hafter])
  rw [hafter] at hreadings
  rw [hmoves, Agenda.paced_append, Agenda.ticksIn, Agenda.readings_of_no_tick hlaying] at hpaced
  have hpacedTicking : Agenda.Paced s₃.stride start ticking := by simpa using hpaced.2
  let h : History τ := { agenda := s₂.agenda }
  have hspecs : Wheel.specsOf ((h.after laying).after ticking).agenda.wheel.levels =
      Wheel.specsOf (h.after laying).agenda.wheel.levels := by
    rw [← History.after_append, ← hmoves, (explained_follow s₂ (calls after)).agenda h rfl, hafter,
      hlaid]
  have hanswered := History.answered_of_bides (hone ▸ hlate) hpacedTicking hclocked.step_nonneg
    hstep hunaskedTicking hspecs
  have htickReadings := readings_movesAlong s₂ (calls after)
  have hrounds := rounds_movesAlong s₂ (calls after) (h := h) rfl
  rw [hmoves, hafter, List.filterMap_append, Agenda.readings_of_no_tick hlaying,
    List.nil_append] at htickReadings
  rw [hmoves, hafter, History.rounds_append, History.rounds_of_no_tick hlaying,
    List.nil_append] at hrounds
  rw [History.answered_eq_count_rounds, hrounds, Agenda.ticksIn, htickReadings, List.length_map,
    List.map_map] at hanswered
  refine ⟨hreadings, hanswered, fun hdue => hanswered.trans ?_⟩
  have hearly : ∀ now ∈ (later.map Beat.reading).take skipped, now < plan.due := by
    intro now hmem
    rw [hreadings] at hmem
    have hle := readings_take_le hclocked.step_nonneg start skipped later.length now hmem
    exact Int.lt_of_le_of_lt hle hdue
  have hsplit := Plan.firings_append_of_lt hearly ((later.map Beat.reading).drop skipped)
  rw [List.take_append_drop, List.length_take, List.length_map] at hsplit
  exact hsplit.symm

/-- With a timer that is due at 10, registered while slots are 30 milliseconds wide, and a level of
three slots of 10 milliseconds that is appended after it. It fires on the third tick. -/
theorem registered_while_laying_fine : ∃ (s₂ : Scheduler Unit) (later : List Beat),
    (s₂.follow (calls [(0, .appendLevel ⟨3, 10, "fine"⟩), (0, .start),
      (0, .advanceTicks 4)])).1 = later ∧
    later.map (·.fired.count ⟨1⟩) = [0, 0, 1, 0] := by
  have hs := @Reachable.create Unit .offline
    { levels := [⟨3, 30, "coarse"⟩], start := some 0 } _ rfl
  have hfires := @registered_while_laying Unit _ _ _ _ [(0, .appendLevel ⟨3, 10, "fine"⟩),
    (0, .start), (0, .advanceTicks 4)] [⟨3, 10, "fine"⟩] (.createAt 10 none) 0 ⟨1⟩ ⟨10, 0⟩ 0
    _ hs rfl rfl rfl rfl rfl (by simp [Operation.AsksAbout]) rfl ⟨by decide, trivial⟩ (by decide)
    rfl (by decide) (by decide) (by decide)
  exact ⟨_, _, rfl, hfires.2.1.trans (by decide)⟩

/-- Where the fine level is there first, this timer fires on the first tick already. -/
theorem registered_first_is_late : ∃ s s' : Scheduler Unit,
    create .offline { levels := [⟨3, 30, "coarse"⟩], start := some 0 } = .ok s ∧
    create .offline { levels := [⟨3, 30, "coarse"⟩, ⟨3, 10, "fine"⟩], start := some 0 } = .ok s' ∧
    (s.follow (calls [(0, .createAt 10 none), (0, .appendLevel ⟨3, 10, "fine"⟩), (0, .start),
      (0, .advanceTicks 3)])).1 = [⟨10, []⟩, ⟨20, []⟩, ⟨30, [⟨1⟩]⟩] ∧
    (s'.follow (calls [(0, .createAt 10 none), (0, .start), (0, .advanceTicks 3)])).1 =
      [⟨10, [⟨1⟩]⟩, ⟨20, []⟩, ⟨30, []⟩] := by
  refine ⟨_, _, rfl, rfl, ?_, ?_⟩
  · decide
  · decide

end Scheduler

end TimingWheel
